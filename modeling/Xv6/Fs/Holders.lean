import Xv6.Fs.Keeping
import Xv6.Lib.Transition

/-! The kernel with any number of system calls in progress, on any disk. With no
call in progress the reference counts are the numbers of holders. -/
namespace Xv6.Fs.Custody
open Lib Lib.Count Lib.Threads

abbrev World := Threads.World Call ProcId Blocks.State Int

inductive Move
  | start (p : ProcId) (call : Syscall)
  | turn (p : ProcId) -- the next operation of the call that p is in

def step (w : World) : Move → Option World
  | .start p call =>
    if (w.calls p).isNone ∧ (w.state.handles.proc p).used = true then some (start w p (call.program p)) else none
  | .turn p => turn Blocks.exec w p

def Booted (w : World) : Prop := ∃ disk s, Blocks.fsinit disk = some s ∧ w = ⟨s,fun _ => none⟩

def kernel : System World Move := .ofStep Booted step

def quiescent (w : World) : Prop := ∀ p, (w.calls p).isNone

/-! The first state. -/

theorem ireclaim_quiet (inums : List Nat) (s : Blocks.State) : Blocks.Quiet.Leaves s (Blocks.ireclaim inums s) := by
  induction inums generalizing s with
  | nil => exact .refl s
  | cons inum rest ih =>
    refine .ite (fun _ => ?_) fun _ => ih s
    cases taken : s.iget inum with
    | error e => trivial
    | ok got =>
      obtain ⟨ip,s1⟩ := got
      have more := Blocks.iget_refers taken
      refine (Blocks.Quiet.beginOp s1).bind fun s0 quiet0 => ?_
      refine (Blocks.Quiet.ilock s0 ip).bind fun s2 quiet2 => (Blocks.Quiet.iunlock s2 ip).bind fun s3 quiet3 => ?_
      refine (Blocks.iput_refers s3 ip).bind fun s4 fewer => (ih s4.endOp).mono fun s5 quiet5 => ?_
      have same : Blocks.Quiet s1 s3 := quiet0.trans (quiet2.trans quiet3)
      refine Blocks.Quiet.trans ⟨?_,?_⟩ ((Blocks.Quiet.endOp s4).trans quiet5)
      · rw [fewer.handles,same.handles,more.handles]
      · rw [fewer.refs,same.refs,more.refs,Function.update_idem,Function.update_self]
        convert Function.update_eq_self ip (Blocks.refs s) using 2
        omega

theorem boot_total : total (fun _ => none) bootHandles = one (.slot firstSlot) := by
  have others : ∀ p ∈ Finset.univ, p ≠ initproc → share none (bootHandles.proc p) = 0 := by
    intro p _ other
    exact resting_idle (by simp [bootHandles,Proc.used,other])
  unfold total
  rw [Finset.sum_eq_single initproc others (fun out => absurd (Finset.mem_univ _) out)]
  change resting (bootHandles.proc initproc) = _
  have child := resting_child (bootHandles.proc initproc) firstSlot
  rw [filesOf_empty (fun _ => rfl),zero_add] at child
  exact child

theorem boot_balanced (disk : Log.Disk) : Balanced (fun _ => none) (Blocks.boot disk) := by
  refine ⟨?_,⟨nofun,nofun,nofun,fun _ _ _ => rfl,fun c embryo => ?_⟩⟩
  · change Counts (total _ bootHandles) (Blocks.refs (Blocks.boot disk)) bootHandles
    rw [boot_total]
    refine ⟨fun j => ?_,fun f => ?_,fun _ _ => rfl,fun f => ?_,fun pi writable => ?_,nofun⟩
    · have none : count (File.holds j) bootHandles.file = 0 := count_eq_zero.mpr fun _ => rfl
      rw [none,one_apply,Blocks.refs,Blocks.boot]
      by_cases first : j = firstSlot <;> simp [first,Blocks.emptyInode]
    · simp [bootHandles,emptyFile,one_apply]
    · simp [one_apply]
    · have none : count (File.holdsEnd pi writable) bootHandles.file = 0 := count_eq_zero.mpr fun _ => rfl
      rw [none]
      simp [openIn,bootHandles,one_apply]
  · change (if c = initproc then ProcState.live else ProcState.unused) = .embryo at embryo
    split_ifs at embryo

theorem booted_holds {w : World} (booted : Booted w) : Holds Blocks.exec Balanced w := by
  obtain ⟨disk,s,started,rfl⟩ := booted
  refine ⟨fun _ => none,?_,fun _ => rfl⟩
  unfold Blocks.fsinit at started
  dsimp only at started
  split_ifs at started
  cases result : Blocks.ireclaim (List.range' 1 ((Blocks.boot disk).sb.ninodes.toNat - 1)) (Blocks.boot disk) with
  | error e =>
    rw [result] at started
    cases started
  | ok s' =>
    rw [result] at started
    cases started
    obtain ⟨handles,counted⟩ := (ireclaim_quiet _ _).of_ok result
    obtain ⟨counts,shape⟩ := boot_balanced disk
    exact ⟨by rw [handles,counted]; exact counts,by rw [handles]; exact shape⟩

theorem reachable_holds {w : World} (reached : kernel.Reachable w) : Holds Blocks.exec Balanced w := by
  refine System.Reachable.invariant (fun _ => booted_holds) (fun w move w' _ holds stepped => ?_) reached
  cases move with
  | start p call =>
    change step w (.start p call) = some w' at stepped
    rw [step] at stepped
    split_ifs at stepped with ready
    cases stepped
    refine start_holds holds (Option.isNone_iff_eq_none.mp ready.1) fun shares now idle => ⟨_,now.enter idle ready.2,?_⟩
    exact syscall_ends ⟨rfl,fun _ => rfl⟩ ready.2
  | turn p => exact turn_holds holds stepped

/-! With no call in progress. -/

def descriptors (h : Handles) (f : FileId) : Nat :=
  (Finset.univ.filter fun fd : ProcId × Fin nofile => (h.proc fd.1).ofile fd.2 = some f).card

theorem descriptors_eq_sum (h : Handles) (f : FileId) : descriptors h f = ∑ p, opened (h.proc p) f := by
  rw [descriptors,Finset.card_filter,Fintype.sum_prod_type]
  refine Finset.sum_congr rfl fun p _ => ?_
  rw [opened,count_eq_sum]
  simp only [decide_eq_true_eq]

/-- Reference counts are numbers of holders: of descriptors for a file, of files
and current directories for an inode; and a pipe's page is there while one of
its two files is open. -/
structure Matched (s : Blocks.State) : Prop where
  files : ∀ f, (s.handles.file f).ref = descriptors s.handles f
  closed : ∀ f, (s.handles.file f).ref = 0 → (s.handles.file f).type = .fdNone
  inodes : ∀ j, (s.inode j).ref = holders s.handles j
  pages : ∀ pi, (s.handles.pipe pi).isSome ↔ ∃ f, 0 < (s.handles.file f).ref ∧ (s.handles.file f).type = .fdPipe ∧
    (s.handles.file f).pipe = pi
  ends : ∀ pi ends, s.handles.pipe pi = some ends → ∀ writable, ends.isOpen writable = true ↔
    ∃ f, 0 < (s.handles.file f).ref ∧ (s.handles.file f).type = .fdPipe ∧ (s.handles.file f).pipe = pi ∧
      (s.handles.file f).writable = writable
  two : ∀ f g, (s.handles.file f).type = .fdPipe → (s.handles.file g).type = .fdPipe →
    (s.handles.file f).pipe = (s.handles.file g).pipe → (s.handles.file f).writable = (s.handles.file g).writable → f = g

section
variable {shares : Shares} {s : Blocks.State}

theorem idle_files (shape : Shape shares s.handles) (idle : ∀ p, shares p = none) (p : ProcId)
    (unused : (s.handles.proc p).used = false) (fd : Fin nofile) : (s.handles.proc p).ofile fd = none := by
  refine shape.idle p ?_ fd
  cases state : (s.handles.proc p).state with
  | unused => exact .inl rfl
  | zombie => exact .inr rfl
  | live => simp [Proc.used,state] at unused
  | embryo =>
    obtain ⟨q,ledger,there,_⟩ := shape.claimed p state
    rw [idle q] at there
    cases there

theorem total_idle (idle : ∀ p, shares p = none) (h : Handles) (item : Item) :
    total shares h item = ∑ p, resting (h.proc p) item := by
  rw [total,Finset.sum_apply]
  refine Finset.sum_congr rfl fun p _ => ?_
  rw [idle p]
  rfl

theorem total_files (shape : Shape shares s.handles) (idle : ∀ p, shares p = none) (f : FileId) :
    total shares s.handles (.file f) = descriptors s.handles f := by
  rw [total_idle idle,descriptors_eq_sum]
  refine Finset.sum_congr rfl fun p _ => ?_
  simp only [resting]
  split_ifs with used
  · rfl
  · have empty := idle_files shape idle p (by simpa using used)
    exact (count_eq_zero.mpr fun fd => by simp [empty]).symm

theorem openIn_pos {page : Option PipeEnds} {writable : Bool} :
    0 < openIn page writable ↔ ∃ ends, page = some ends ∧ ends.isOpen writable = true := by
  cases page with
  | none => simp [openIn]
  | some ends => by_cases yes : ends.isOpen writable = true <;> simp [openIn,yes]

theorem count_holdsEnd {h : Handles} {pi : PipeId} {writable : Bool} :
    0 < count (File.holdsEnd pi writable) h.file ↔
      ∃ f, (h.file f).type = .fdPipe ∧ (h.file f).pipe = pi ∧ (h.file f).writable = writable := by
  rw [Nat.pos_iff_ne_zero,Ne,count_eq_zero]
  simp [File.holdsEnd]

theorem balanced_matched (now : Balanced shares s) (idle : ∀ p, shares p = none) : Matched s := by
  obtain ⟨counts,shape⟩ := now
  have raw : ∀ f, total shares s.handles (.raw f) = 0 := fun f => by
    rw [total_idle idle]
    exact Finset.sum_eq_zero fun _ _ => rfl
  have loose : ∀ pi writable, total shares s.handles (.pipeEnd pi writable) = 0 := fun pi writable => by
    rw [total_idle idle]
    exact Finset.sum_eq_zero fun _ _ => rfl
  have isOpen : ∀ f, (s.handles.file f).type = .fdPipe → 0 < (s.handles.file f).ref := by
    intro f type
    have counted := counts.files f
    have closed := counts.closed f
    by_contra low
    rw [closed (by omega)] at type
    cases type
  have ends : ∀ pi writable, openIn (s.handles.pipe pi) writable = count (File.holdsEnd pi writable) s.handles.file := by
    intro pi writable
    rw [counts.ends,loose,zero_add]
  have endsIff : ∀ pi writable, (∃ ends, s.handles.pipe pi = some ends ∧ ends.isOpen writable = true) ↔
      ∃ f, 0 < (s.handles.file f).ref ∧ (s.handles.file f).type = .fdPipe ∧ (s.handles.file f).pipe = pi ∧
        (s.handles.file f).writable = writable := by
    intro pi writable
    rw [← openIn_pos,ends,count_holdsEnd]
    constructor
    · rintro ⟨f,type,rest⟩
      exact ⟨f,isOpen f type,type,rest⟩
    · rintro ⟨f,_,rest⟩
      exact ⟨f,rest⟩
  refine ⟨fun f => ?_,counts.closed,fun j => ?_,fun pi => ⟨fun there => ?_,?_⟩,
    fun pi ends there writable => ?_,fun f g typeF typeG pipes sides => ?_⟩
  · rw [counts.files,raw,total_files shape idle]
    omega
  · have counted := counts.inodes j
    rw [total_idle idle] at counted
    change Blocks.refs s j = _
    rw [counted,holders,count_eq_sum (Proc.holds j)]
    simp only [resting]
    push_cast
    omega
  · obtain ⟨ends,there⟩ := Option.isSome_iff_exists.mp there
    rcases counts.pages pi ends there with reads | writes
    · obtain ⟨f,opened,type,same,_⟩ := (endsIff pi false).mp ⟨ends,there,reads⟩
      exact ⟨f,opened,type,same⟩
    · obtain ⟨f,opened,type,same,_⟩ := (endsIff pi true).mp ⟨ends,there,writes⟩
      exact ⟨f,opened,type,same⟩
  · rintro ⟨f,opened,type,same⟩
    obtain ⟨ends,there,_⟩ := (endsIff pi (s.handles.file f).writable).mpr ⟨f,opened,type,same,rfl⟩
    rw [there]
    rfl
  · rw [← endsIff]
    refine ⟨fun yes => ⟨ends,there,yes⟩,?_⟩
    rintro ⟨other,there',yes⟩
    exact Option.some.inj (there.symm.trans there') ▸ yes
  · have few : count (File.holdsEnd (s.handles.file f).pipe (s.handles.file f).writable) s.handles.file ≤ 1 := by
      rw [← ends,openIn]
      split_ifs <;> omega
    refine eq_of_count_le_one few ?_ ?_
    · simp [File.holdsEnd,typeF]
    · simp [File.holdsEnd,typeG,pipes,sides]

end

theorem references_match_holders {w : World} (reached : kernel.Reachable w) (idle : quiescent w) : Matched w.state := by
  obtain ⟨shares,now,others⟩ := reachable_holds reached
  refine balanced_matched now fun p => ?_
  have mine := others p
  rw [Option.isNone_iff_eq_none.mp (idle p)] at mine
  exact mine

def bareDisk : Log.Disk := fun b k =>
  if b = 1 then ([0x40,0x30,0x20,0x10] : List Byte).getD k 0 else 0

theorem bareDisk_boots : Blocks.fsinit bareDisk = some (Blocks.boot bareDisk) := rfl

theorem references_match_holders_pipe : ∃ w, kernel.Reachable w ∧ quiescent w ∧
    (w.state.handles.pipe 7).isSome ∧ Matched w.state := by
  let first : World := ⟨Blocks.boot bareDisk,fun _ => none⟩
  let moves : List Move := .start initproc (.pipe (some 7) true) :: List.replicate 5 (.turn initproc)
  have checked : ((System.run step first moves).any fun w =>
      decide (∀ p, (w.calls p).isNone = true) && (w.state.handles.pipe 7).isSome) = true := by
    decide +kernel
  obtain ⟨w,ran,both⟩ := (Option.any_eq_true _ _).mp checked
  rw [Bool.and_eq_true,decide_eq_true_eq] at both
  have booted : kernel.Reachable first := .start first ⟨bareDisk,_,bareDisk_boots,rfl⟩
  have reached : kernel.Reachable w := booted.run ran
  exact ⟨w,reached,both.1,both.2,references_match_holders reached both.1⟩

end Xv6.Fs.Custody
