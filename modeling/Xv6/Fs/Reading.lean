import Xv6.Fs.Transfers
import Xv6.Console.Model

/-! read on an open file: fileread for pipes, the console and inodes, with the
bytes that each stores in the user's memory. -/
namespace Xv6.Fs.Blocks
open Lib Lib.Bytes Function List
open Log (Block Disk)
open Pipes (Env Pipe pipereadCopy)
open Console (Cons consoleread consolereadFrom_bounded)

variable {s s' : State} {ip : Slot} {data i : Nat}

/-! Pipes. -/

/-- A call of piperead; `finds` is what it finds each time it takes the lock. -/
def piperead (addr : BitVec 64) (n : Int) : List (Env × Pipe) → Option Int × List Byte
  | [] => (none,[])
  | (env,pi) :: finds =>
    if pi.nread = pi.nwrite ∧ pi.writeopen = true then
      if env.killed 0 = true then (some (-1),[]) else piperead addr n finds
    else
      let (r,_,stored) := pipereadCopy env addr n.toNat 0 pi
      (some r,stored)

theorem pipereadCopy_counts (env : Env) (addr : BitVec 64) (todo i : Nat) (pi : Pipe) :
    (pipereadCopy env addr todo i pi).2.2.length ≤ todo ∧
      (pipereadCopy env addr todo i pi).1 ≤ (i + (pipereadCopy env addr todo i pi).2.2.length : Nat) := by
  induction todo generalizing i pi with
  | zero => exact ⟨Nat.le_refl _,Int.le_refl _⟩
  | succ todo ih =>
    rw [pipereadCopy]
    dsimp only
    split_ifs with empty bad first
    · exact ⟨Nat.zero_le _,Int.le_refl _⟩
    · exact ⟨Nat.zero_le _,by simp⟩
    · exact ⟨Nat.zero_le _,Int.le_refl _⟩
    · grind [Env,Pipe,update_apply]

theorem piperead_bounded (addr : BitVec 64) (n : Int) (finds : List (Env × Pipe)) :
    (piperead addr n finds).2.length ≤ n.toNat ∧ ∀ r, (piperead addr n finds).1 = some r → r ≤ (piperead addr n finds).2.length := by
  induction finds with
  | nil => exact ⟨Nat.zero_le _,nofun⟩
  | cons find finds ih =>
    obtain ⟨env,pi⟩ := find
    rw [piperead]
    split_ifs with wait killed
    · refine ⟨Nat.zero_le _,fun r same => ?_⟩
      cases same
      simp
    · exact ih
    · obtain ⟨most,value⟩ := pipereadCopy_counts env addr n.toNat 0 pi
      refine ⟨most,fun r same => ?_⟩
      cases same
      rwa [Nat.zero_add] at value

/-! fileread. -/

structure Find where
  killed : Nat → Bool
  pipe : Pipe
  cons : Cons

def Find.env (find : Find) (user : BitVec 64 → Bool) : Env := ⟨fun _ => none,fun addr _ => user addr,find.killed⟩

/-- The result of fileread and the bytes that it stores. There is no result while a
call waits at a pipe or the console. -/
def State.fileread (s : State) (f : FileId) (user : BitVec 64 → Bool) (addr : BitVec 64) (n : BitVec 32) (finds : List Find) :
    Except Stop (Option Int × List Byte × State) :=
  let file := s.handles.file f
  if file.readable = false then .ok (some (-1),[],s)
  else
    match file.type with
    | .fdPipe =>
      let (r,stored) := piperead addr n.toInt (finds.map fun find => (find.env user,find.pipe))
      .ok (r,stored,s)
    | .fdDevice =>
      if file.major.toInt < 0 ∨ (ndev : Int) ≤ file.major.toInt ∨ devswHas file.major = false then .ok (some (-1),[],s)
      else
        let (r,stored) := consoleread addr n.toInt (finds.map fun find => (find.env user,find.cons))
        .ok (r,stored,s)
    | .fdInode => do
      let s ← s.ilock file.ip
      let (r,stored,s) ← s.readi file.ip (fun k => user (addr + BitVec.ofNat 64 k)) (s.handles.file f).off n
      let s := if 0 < r then { s with handles := setFile f (fun file => { file with off := file.off + BitVec.ofInt 32 r }) s.handles }
        else s
      let s ← s.iunlock file.ip
      pure (some r,stored,s)
    | .fdNone => .error .fileread

/-! Inodes. -/

structure Ready (s : State) (ip : Slot) : Prop where
  allocated : Allocated s.sb s.dinode (s.inode ip).inum
  held : 1 ≤ (s.inode ip).ref
  unlocked : (s.inode ip).locked = false
  din : (s.inode ip).valid = true → (s.inode ip).din = s.dinode (s.inode ip).inum

def lockedInode (s : State) (ip : Slot) : Inode :=
  { s.inode ip with locked := true, valid := true, din := s.dinode (s.inode ip).inum }

def lockedState (s : State) (ip : Slot) : State := s.setInode ip (lockedInode s ip)

theorem Ready.ilock (ready : Ready s ip) : s.ilock ip = .ok (lockedState s ip) := by
  unfold State.ilock
  dsimp only
  rw [if_neg (by have := ready.held; omega),if_neg (by rw [ready.unlocked]; decide)]
  split_ifs with valid free
  · have same : lockedInode s ip = { s.inode ip with locked := true } := by
      rw [lockedInode,← ready.din valid,← valid]
    rw [lockedState,same]
  · exact absurd free ready.allocated.type
  · rfl

theorem Ready.cached (ready : Ready s ip) : Cached (lockedState s ip) ip (s.inode ip).inum := by
  have slot : (lockedState s ip).inode ip = lockedInode s ip := update_self ..
  exact ⟨by rw [slot]; rfl,ready.allocated,by rw [slot]; rfl⟩

/-- At most max(n, 0) bytes are stored and returned. The offset of an inode advances
by what is returned if that is positive; pipes and the console have no offset, and
the field stays as it is. -/
def Moderate (s : State) (f : FileId) (n : BitVec 32) (outcome : Except Stop (Option Int × List Byte × State)) : Prop :=
  ∀ r stored s', outcome = .ok (r,stored,s') → (stored.length : Int) ≤ max n.toInt 0 ∧ (∀ v, r = some v → v ≤ max n.toInt 0) ∧
    (s'.handles.file f).off = if (s.handles.file f).type = .fdInode then
      (s.handles.file f).off + BitVec.ofInt 32 (max (r.getD 0) 0) else (s.handles.file f).off

/-- The file is no inode that is open for reading, or n is not negative, or readi
returns at once, or the first byte cannot be stored. -/
def Harmless (s : State) (f : FileId) (user : BitVec 64 → Bool) (addr : BitVec 64) (n : BitVec 32) : Prop :=
  (s.handles.file f).readable = true → (s.handles.file f).type = .fdInode →
    0 ≤ n.toInt ∨ (s.dinode (s.inode (s.handles.file f).ip).inum).size.toNat ≤ (s.handles.file f).off.toNat ∨
      2 ^ 32 ≤ (s.handles.file f).off.toNat + n.toNat ∨ user addr = false

variable {f : FileId} {user : BitVec 64 → Bool} {addr : BitVec 64} {n : BitVec 32} {finds : List Find}

theorem moderate_ok {r : Option Int} {stored : List Byte} : Moderate s f n (.ok (r,stored,s')) ↔
    (stored.length : Int) ≤ max n.toInt 0 ∧ (∀ v, r = some v → v ≤ max n.toInt 0) ∧
      (s'.handles.file f).off = if (s.handles.file f).type = .fdInode then
        (s.handles.file f).off + BitVec.ofInt 32 (max (r.getD 0) 0) else (s.handles.file f).off := by
  constructor
  · exact fun moderate => moderate r stored s' rfl
  · rintro facts _ _ _ ⟨⟩
    exact facts

theorem moderate_device {r : Option Int} {stored : List Byte} (device : (s.handles.file f).type ≠ .fdInode)
    (short : stored.length ≤ n.toInt.toNat) (value : ∀ v, r = some v → v ≤ stored.length) :
    Moderate s f n (.ok (r,stored,s)) := by
  refine moderate_ok.mpr ⟨by omega,fun v same => ?_,(if_neg device).symm⟩
  have bound := value v same
  omega

theorem moderate_refused : Moderate s f n (.ok (some (-1),[],s)) := by
  refine moderate_ok.mpr ⟨by simp,fun v same => ?_,?_⟩
  · cases same
    omega
  · split_ifs
    · exact (BitVec.add_zero _).symm
    · rfl

theorem fileread_inode (readable : (s.handles.file f).readable = true) (type : (s.handles.file f).type = .fdInode)
    (ready : Ready s (s.handles.file f).ip) {r : Int} {stored : List Byte}
    (copied : (lockedState s (s.handles.file f).ip).readi (s.handles.file f).ip (fun k => user (addr + BitVec.ofNat 64 k))
      (s.handles.file f).off n = .ok (r,stored,lockedState s (s.handles.file f).ip)) :
    ∃ s', s.fileread f user addr n finds = .ok (some r,stored,s') ∧
      (s'.handles.file f).off = (s.handles.file f).off + BitVec.ofInt 32 (max r 0) := by
  unfold State.fileread
  dsimp only
  rw [if_neg (by rw [readable]; decide),type,ready.ilock]
  change ∃ s', ((lockedState s _).readi _ _ (s.handles.file f).off n >>= _) = _ ∧ _
  rw [copied]
  change ∃ s', (State.iunlock (if 0 < r then _ else _) _ >>= _) = _ ∧ _
  generalize moved : (if 0 < r then _ else _ : State) = s2
  have inodes : s2.inode (s.handles.file f).ip = lockedInode s (s.handles.file f).ip := by
    rw [← moved]
    split_ifs <;> exact update_self ..
  have unlock : s2.iunlock (s.handles.file f).ip =
      .ok (s2.setInode (s.handles.file f).ip { s2.inode (s.handles.file f).ip with locked := false }) := by
    unfold State.iunlock
    dsimp only
    rw [inodes]
    refine if_neg ?_
    rintro (unlocked | free)
    · cases unlocked
    · exact absurd ready.held (Int.not_le.mpr free)
  rw [unlock]
  refine ⟨_,rfl,?_⟩
  change (s2.handles.file f).off = _
  rw [← moved]
  split_ifs with some
  · rw [Int.max_eq_left (Int.le_of_lt some)]
    change (update s.handles.file f { s.handles.file f with off := (s.handles.file f).off + BitVec.ofInt 32 r } f).off = _
    rw [update_self]
  · rw [Int.max_eq_right (Int.not_lt.mp some)]
    exact (BitVec.add_zero _).symm

theorem stored_moderate {good : Nat → Bool} {m : Nat} (least : m ≤ n.toNat) :
    ((((range m).takeWhile good).length : Int) ≤ max n.toInt 0 ∧
      (if (range m).all good then (m : Int) else -1) ≤ max n.toInt 0) ↔ 0 ≤ n.toInt ∨ m = 0 ∨ good 0 = false := by
  have short : ((range m).takeWhile good).length ≤ m := by
    have bound := (takeWhile_sublist good (l := range m)).length_le
    rwa [length_range] at bound
  have sign := n.toInt_eq_toNat_cond
  by_cases positive : 0 ≤ n.toInt
  · refine ⟨fun _ => .inl positive,fun _ => ⟨by split_ifs at sign <;> omega,?_⟩⟩
    split_ifs at sign ⊢ <;> omega
  constructor
  · rintro ⟨none,-⟩
    cases m with
    | zero => exact .inr (.inl rfl)
    | succ m =>
      refine .inr (.inr ?_)
      by_contra there
      rw [range_succ_eq_map,takeWhile_cons_of_pos (by simpa using there),length_cons] at none
      omega
  · rintro (impossible | rfl | bad)
    · exact absurd impossible positive
    · exact ⟨Int.le_max_right ..,Int.le_max_right ..⟩
    · cases m with
      | zero => exact ⟨Int.le_max_right ..,Int.le_max_right ..⟩
      | succ m =>
        rw [range_succ_eq_map,takeWhile_cons_of_neg (by simpa using bad),all_cons,bad]
        exact ⟨Int.le_max_right ..,by simp⟩

/-- fileread stores and returns at most max(n, 0) bytes if and only if the call is
harmless: a negative n is a large unsigned one for readi. -/
theorem moderate_iff_harmless (fit : (s.handles.file f).readable = true → (s.handles.file f).type = .fdInode →
      (∃ data, Consistent s data) ∧ HoleFree s ∧ Ready s (s.handles.file f).ip) :
    Moderate s f n (s.fileread f user addr n finds) ↔ Harmless s f user addr n := by
  by_cases closed : (s.handles.file f).readable = false
  · refine ⟨fun _ readable => ?_,fun _ => ?_⟩
    · rw [closed] at readable
      cases readable
    · unfold State.fileread
      rw [if_pos closed]
      exact moderate_refused
  have readable : (s.handles.file f).readable = true := by
    rw [← Bool.not_eq_false]
    exact closed
  by_cases type : (s.handles.file f).type = .fdInode
  · obtain ⟨⟨data,consistent⟩,whole,ready⟩ := fit readable type
    have shape : Shape s.sb s.disk data s.dinode := shape_iff.mpr ⟨consistent,whole⟩
    have cached := ready.cached
    have outcome : ∀ r stored, (lockedState s (s.handles.file f).ip).readi (s.handles.file f).ip
        (fun k => user (addr + BitVec.ofNat 64 k)) (s.handles.file f).off n = .ok (r,stored,lockedState s (s.handles.file f).ip) →
        (Moderate s f n (s.fileread f user addr n finds) ↔ (stored.length : Int) ≤ max n.toInt 0 ∧ r ≤ max n.toInt 0) := by
      intro r stored copied
      obtain ⟨s',ran,off⟩ := @fileread_inode s f user addr n finds readable type ready r stored copied
      rw [ran,moderate_ok,if_pos type]
      exact ⟨fun ⟨short,value,_⟩ => ⟨short,value r rfl⟩,fun ⟨short,value⟩ => ⟨short,fun v same => Option.some.inj same ▸ value,off⟩⟩
    by_cases refused : (s.dinode (s.inode (s.handles.file f).ip).inum).size.toNat < (s.handles.file f).off.toNat ∨
        2 ^ 32 ≤ (s.handles.file f).off.toNat + n.toNat
    · rw [outcome 0 [] (cached.readi_refused refused)]
      refine ⟨fun _ _ _ => ?_,fun _ => ⟨Int.le_max_right ..,Int.le_max_right ..⟩⟩
      rcases refused with past | wraps
      · exact .inr (.inl (Nat.le_of_lt past))
      · exact .inr (.inr (.inl wraps))
    · obtain ⟨place,unwrapped⟩ := not_or.mp refused
      rw [outcome _ _ (cached.readi_stores shape (Nat.not_lt.mp place) (Nat.not_le.mp unwrapped)),length_map,
        stored_moderate (Nat.min_le_left ..)]
      have first : user (addr + BitVec.ofNat 64 0) = user addr := congrArg user (BitVec.add_zero addr)
      rw [first]
      change _ ∨ min n.toNat ((s.dinode (s.inode (s.handles.file f).ip).inum).size.toNat - _) = 0 ∨ _ ↔ _
      have sign := n.toInt_eq_toNat_cond
      constructor
      · rintro (positive | none | bad) _ _
        · exact .inl positive
        · by_cases positive : 0 ≤ n.toInt
          · exact .inl positive
          · refine .inr (.inl ?_)
            split_ifs at sign <;> omega
        · exact .inr (.inr (.inr bad))
      · intro harmless
        rcases harmless readable type with positive | past | wraps | bad
        · exact .inl positive
        · exact .inr (.inl (by omega))
        · omega
        · exact .inr (.inr bad)
  · refine ⟨fun _ _ same => absurd same type,fun _ => ?_⟩
    unfold State.fileread
    dsimp only
    rw [if_neg closed]
    cases kind : (s.handles.file f).type with
    | fdPipe =>
      obtain ⟨short,value⟩ := piperead_bounded addr n.toInt (finds.map fun find => (find.env user,find.pipe))
      exact moderate_device type short value
    | fdDevice =>
      dsimp only
      split_ifs
      · exact moderate_refused
      · obtain ⟨short,value⟩ := @consolereadFrom_bounded addr n.toInt (finds.map fun find => (find.env user,find.cons)) 0 (Nat.zero_le _)
        rw [Nat.zero_add] at short value
        exact moderate_device type short value
    | fdInode => exact absurd kind type
    | fdNone => exact nofun

/-- fileread stores and returns at most max(n, 0) bytes and advances the offset by
what it returns if and only if n is not negative, or the file is no inode or is not
open for reading, or the range wraps, or nothing is left of the file, or the first
byte cannot be stored. -/
theorem fileread_moderate_iff (s : State) (f : FileId) (user : BitVec 64 → Bool) (addr : BitVec 64) (n : BitVec 32)
    (finds : List Find)
    (fit : (s.handles.file f).readable = true → (s.handles.file f).type = .fdInode →
      (∃ data, Consistent s data) ∧ HoleFree s ∧ Ready s (s.handles.file f).ip) :
    Moderate s f n (s.fileread f user addr n finds) ↔ Harmless s f user addr n := moderate_iff_harmless fit

def openFile : FileId := ⟨0,by decide⟩

def reading : State :=
  { (boot (crashed 1)).setInode openSlot ⟨2,1,false,false,crashedFile⟩ with
    handles := setFile openFile (fun file => { file with type := .fdInode, ref := 1, readable := true, ip := openSlot, off := 0 })
      (boot (crashed 1)).handles }

theorem reading_fit : (∃ data, Consistent reading data) ∧ HoleFree reading ∧ Ready reading (reading.handles.file openFile).ip := by
  obtain ⟨consistent,whole⟩ : Consistent reading 4 ∧ HoleFree reading := shape_iff.mp opened_shape
  exact ⟨⟨4,consistent⟩,whole,⟨opened_cached.allocated,by decide,rfl,nofun⟩⟩

theorem fileread_moderate_reading : ((∃ data, Consistent reading data) ∧ HoleFree reading ∧
      Ready reading (reading.handles.file openFile).ip) ∧
    (Moderate reading openFile 5 (reading.fileread openFile (fun _ => true) 0 5 []) ↔
      Harmless reading openFile (fun _ => true) 0 5) :=
  ⟨reading_fit,fileread_moderate_iff reading openFile (fun _ => true) 0 5 [] fun _ _ => reading_fit⟩

/-- A read of -1 bytes stores the whole file. -/
theorem fileread_of_minus_one : ¬∀ (s : State) (f : FileId) (user : BitVec 64 → Bool) (addr : BitVec 64) (n : BitVec 32)
    (finds : List Find), ((s.handles.file f).readable = true → (s.handles.file f).type = .fdInode →
      (∃ data, Consistent s data) ∧ HoleFree s ∧ Ready s (s.handles.file f).ip) →
    Moderate s f n (s.fileread f user addr n finds) := by
  intro claim
  have moderate := claim reading openFile (fun _ => true) 0 (-1) [] fun _ _ => reading_fit
  have size : (reading.dinode (reading.inode (reading.handles.file openFile).ip).inum).size = 5 := congrArg Dinode.size opened_dinode
  rcases (moderate_iff_harmless fun _ _ => reading_fit).mp moderate rfl rfl with positive | past | wraps | bad
  · revert positive
    decide
  · rw [size] at past
    revert past
    decide
  · revert wraps
    decide
  · cases bad

end Xv6.Fs.Blocks
