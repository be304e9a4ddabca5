import Xv6.Fs.Ledger
import Xv6.Fs.Blocks
import Xv6.Lib.Threads

/-! The references of the processes while their system calls are interleaved.
A step is one operation of the inode layer, or one critical section on the file
table, a pipe or a process. Every program of a call keeps its own ledger. -/
namespace Xv6.Fs
open Lib Lib.Count Lib.Threads Function
variable {inode : Inode} {amount : Int} {proc : Proc}

/-! What the operations of the inode layer do to the reference counts. -/

namespace Blocks

def refs (s : State) (j : Slot) : Int := (s.inode j).ref

structure Quiet (s s' : State) : Prop where
  handles : s'.handles = s.handles
  refs : refs s' = refs s

namespace Quiet
variable {s s' s'' : State} {ip : Slot}

theorem refl (s : State) : Quiet s s := ⟨rfl,rfl⟩

theorem trans (first : Quiet s s') (second : Quiet s' s'') : Quiet s s'' :=
  ⟨second.handles.trans first.handles,second.refs.trans first.refs⟩

theorem setInode (same : inode.ref = (s.inode ip).ref) : Quiet s (s.setInode ip inode) := by
  refine ⟨rfl,funext fun j => ?_⟩
  simp only [Blocks.refs,State.setInode,update_apply]
  split_ifs with me
  · rw [me,same]
  · rfl

theorem setDin (s : State) (ip : Slot) (din : Dinode) : Quiet s (s.setDin ip din) := setInode rfl

theorem setAddr (s : State) (ip : Slot) (k : AddrId) (addr : BitVec 32) : Quiet s (s.setAddr ip k addr) := setDin ..

theorem balloc (s : State) : Quiet s s.balloc.2 := by
  unfold State.balloc
  split <;> exact ⟨rfl,rfl⟩

abbrev Gives (s : State) (result : Except Stop (β × State)) : Prop :=
  Lib.Gives (fun _ => True) result fun r => Quiet s r.2

abbrev Leaves (s : State) (result : Except Stop State) : Prop := Lib.Gives (fun _ => True) result fun s' => Quiet s s'

theorem beginOp (s : State) : Leaves s s.beginOp := .ite (fun _ => trivial) fun _ => ⟨rfl,rfl⟩

theorem endOp (s : State) : Quiet s s.endOp := by
  unfold State.endOp
  split_ifs <;> exact ⟨rfl,rfl⟩

theorem bfree (s : State) (b : BitVec 32) : Leaves s (s.bfree b) := .ite (fun _ => ⟨rfl,rfl⟩) fun _ => trivial

theorem bmapAddr (s : State) (ip : Slot) (k : AddrId) : Quiet s (s.bmapAddr ip k).2 := by
  unfold State.bmapAddr
  dsimp only
  split_ifs
  · exact balloc s
  · exact (balloc s).trans (setAddr ..)
  · exact .refl s

theorem bmapEntry (s : State) (b k : Nat) : Quiet s (s.bmapEntry b k).2 := by
  unfold State.bmapEntry
  dsimp only
  split_ifs
  · exact balloc s
  · exact (balloc s).trans ⟨rfl,rfl⟩
  · exact .refl s

theorem bmap (s : State) (ip : Slot) (bn : Nat) : Gives s (s.bmap ip bn) := by
  unfold State.bmap
  dsimp only
  split
  · exact bmapAddr ..
  · refine .ite (fun _ => .ite (fun _ => bmapAddr ..) fun _ => ?_) fun _ => trivial
    exact (bmapAddr ..).trans (bmapEntry ..)

theorem truncDirect (ip : Slot) (addrs : List AddrId) (s : State) : Leaves s (State.truncDirect ip addrs s) := by
  induction addrs generalizing s with
  | nil => exact .refl s
  | cons k rest ih =>
    refine .ite (fun _ => ih s) fun _ => ?_
    refine (bfree ..).bind fun s1 first => (ih _).mono fun s2 second => ?_
    exact (first.trans (setAddr ..)).trans second

theorem truncEntries (a : Log.Block) (entries : List Nat) (s : State) : Leaves s (State.truncEntries a entries s) := by
  induction entries generalizing s with
  | nil => exact .refl s
  | cons j rest ih =>
    refine .ite (fun _ => ih s) fun _ => ?_
    exact (bfree ..).bind fun s1 first => (ih s1).mono fun s2 second => first.trans second

theorem truncIndirect (s : State) (ip : Slot) : Leaves s (s.truncIndirect ip) := by
  refine .ite (fun _ => .refl s) fun _ => ?_
  refine (truncEntries ..).bind fun s1 first => (bfree ..).bind fun s2 second => ?_
  exact (first.trans second).trans (setAddr ..)

theorem iupdate (s : State) (ip : Slot) : Quiet s (s.iupdate ip) := ⟨rfl,rfl⟩

theorem itrunc (s : State) (ip : Slot) : Leaves s (s.itrunc ip) := by
  refine (truncDirect ..).bind fun s1 first => (truncIndirect ..).bind fun s2 second => ?_
  exact (first.trans second).trans ((setDin ..).trans (iupdate ..))

theorem ilock (s : State) (ip : Slot) : Leaves s (s.ilock ip) := by
  refine .ite (fun _ => trivial) fun _ => .ite (fun _ => trivial) fun _ => .ite (fun _ => setInode rfl) fun _ => ?_
  exact .ite (fun _ => trivial) fun _ => setInode rfl

theorem iunlock (s : State) (ip : Slot) : Leaves s (s.iunlock ip) := .ite (fun _ => trivial) fun _ => setInode rfl

theorem readiFrom (ip : Slot) (good : Nat → Bool) (n turns tot off : Nat) (s : State) :
    Lib.Gives (fun _ => True) (State.readiFrom ip good n turns tot off s) fun r => Quiet s r.2.2 := by
  induction turns generalizing tot off s with
  | zero => exact .refl s
  | succ turns ih =>
    refine .ite (fun _ => (bmap ..).bind fun r first => .ite (fun _ => first) fun _ => .ite (fun _ => ?_) fun _ => first)
      fun _ => .refl s
    exact (ih ..).bind fun r second => first.trans second

theorem readi (s : State) (ip : Slot) (good : Nat → Bool) (off n : BitVec 32) :
    Lib.Gives (fun _ => True) (s.readi ip good off n) fun r => Quiet s r.2.2 :=
  .ite (fun _ => .refl s) fun _ => readiFrom ..

theorem writeiFrom (ip : Slot) (src : Nat → Option Byte) (n turns tot off : Nat) (s : State) :
    Lib.Gives (fun _ => True) (State.writeiFrom ip src n turns tot off s) fun r => Quiet s r.2.2 := by
  induction turns generalizing tot off s with
  | zero => exact .refl s
  | succ turns ih =>
    refine .ite (fun _ => (bmap ..).bind fun r first => .ite (fun _ => first) fun _ => .ite (fun _ => ?_) fun _ => ?_)
      fun _ => .refl s
    · exact first.trans ⟨rfl,rfl⟩
    · exact (ih ..).mono fun r second => first.trans ⟨second.handles,second.refs⟩

theorem writei (s : State) (ip : Slot) (src : Nat → Option Byte) (off n : BitVec 32) : Gives s (s.writei ip src off n) := by
  refine .ite (fun _ => .refl s) fun _ => .ite (fun _ => .refl s) fun _ => (writeiFrom ..).bind fun r first => ?_
  refine first.trans (Quiet.trans ?_ (iupdate ..))
  split_ifs
  · exact setDin ..
  · exact .refl _

end Quiet

structure Refers (s s' : State) (ip : Slot) (amount : Int) : Prop where
  handles : s'.handles = s.handles
  refs : refs s' = update (refs s) ip (refs s ip + amount)

theorem Quiet.refers {s s' s'' : State} {ip : Slot} (quiet : Quiet s s') (more : Refers s' s'' ip amount) :
    Refers s s'' ip amount :=
  ⟨more.handles.trans quiet.handles,by rw [more.refs,quiet.refs]⟩

theorem refers_setInode {s : State} {ip : Slot} (changed : inode.ref = (s.inode ip).ref + amount) :
    Refers s (s.setInode ip inode) ip amount := by
  refine ⟨rfl,funext fun j => ?_⟩
  simp only [refs,State.setInode,update_apply]
  split_ifs with me
  · exact changed
  · rfl

theorem iget_refers {s s' : State} {inum : Nat} {ip : Slot} (ran : s.iget inum = .ok (ip,s')) : Refers s s' ip 1 := by
  unfold State.iget at ran
  split at ran
  next => cases ran; exact refers_setInode rfl
  next =>
    split at ran
    next found seen =>
      cases ran
      have empty := List.find?_some seen
      simp only [decide_eq_true_eq] at empty
      exact refers_setInode (by rw [empty]; rfl)
    next => cases ran

theorem ialloc_refers {s s' : State} {type : BitVec 16} {r : Option Slot} (ran : s.ialloc type = .ok (r,s')) :
    match r with
    | none => Quiet s s'
    | some ip => Refers s s' ip 1 := by
  unfold State.ialloc at ran
  split at ran
  next => cases ran; exact .refl s
  next i seen =>
    cases got : (s.setDinode i ⟨⟨type,0,0,0⟩,0,fun _ => 0⟩).iget i with
    | error e =>
      rw [got] at ran
      cases ran
    | ok done =>
      rw [got] at ran
      cases ran
      obtain ⟨handles,counted⟩ := iget_refers got
      exact ⟨handles,counted⟩

theorem iput_refers (s : State) (ip : Slot) :
    Lib.Gives (fun _ => True) (s.iput ip) fun s' => Refers s s' ip (-1) := by
  refine .ite (fun _ => .ite (fun _ => trivial) fun _ => ?_) fun _ => refers_setInode rfl
  refine (Quiet.itrunc s ip).bind fun s1 first => ?_
  exact (first.trans ((Quiet.setDin ..).trans (Quiet.iupdate ..))).refers (refers_setInode rfl)

end Blocks

/-! Ledgers. -/

@[ext] structure Ledger where
  me : Proc -- the process's own record
  owns : Items
  child : ProcId → Option Proc -- the records of the slots that allocproc gave to the call

def opened (proc : Proc) (f : FileId) : Nat := count (fun file => decide (file = some f)) proc.ofile

def resting (proc : Proc) : Items
  | .slot ip => if proc.holds ip then 1 else 0
  | .file f => if proc.used then opened proc f else 0
  | .raw _ | .pipeEnd _ _ => 0

def share (ledger : Option Ledger) (proc : Proc) : Items :=
  match ledger with
  | some ledger => ledger.owns
  | none => resting proc

structure Ledger.AtRest (ledger : Ledger) : Prop where
  owns : ledger.owns = resting ledger.me
  alone : ∀ d, ledger.child d = none

abbrev Shares := ProcId → Option Ledger

def total (shares : Shares) (h : Handles) : Items := ∑ p, share (shares p) (h.proc p)

def elsewhere (shares : Shares) (h : Handles) (p : ProcId) : Items :=
  ∑ q ∈ Finset.univ.erase p, share (shares q) (h.proc q)

/-- The records of processes in a call, and of the slots they fork into, are as
their ledgers say; no other process touches them. -/
structure Shape (shares : Shares) (h : Handles) : Prop where
  mine : ∀ p ledger, shares p = some ledger → h.proc p = ledger.me ∧ ledger.me.used = true
  child : ∀ p ledger c proc, shares p = some ledger → ledger.child c = some proc → h.proc c = proc ∧ proc.state = .embryo
  apart : ∀ p q ledger other c, shares p = some ledger → shares q = some other → (ledger.child c).isSome →
    (other.child c).isSome → p = q
  idle : ∀ p, (h.proc p).state = .unused ∨ (h.proc p).state = .zombie → ∀ fd, (h.proc p).ofile fd = none
  claimed : ∀ c, (h.proc c).state = .embryo → ∃ p ledger, shares p = some ledger ∧ (ledger.child c).isSome

structure Balanced (shares : Shares) (s : Blocks.State) : Prop where
  counts : Counts (total shares s.handles) (Blocks.refs s) s.handles
  shape : Shape shares s.handles

theorem total_eq (shares : Shares) (h : Handles) (p : ProcId) :
    total shares h = share (shares p) (h.proc p) + elsewhere shares h p :=
  (Finset.add_sum_erase _ (fun q => share (shares q) (h.proc q)) (Finset.mem_univ p)).symm

theorem elsewhere_congr {shares shares' : Shares} {h h' : Handles} {p : ProcId}
    (same : ∀ q, q ≠ p → share (shares' q) (h'.proc q) = share (shares q) (h.proc q)) :
    elsewhere shares' h' p = elsewhere shares h p :=
  Finset.sum_congr rfl fun q other => same q (Finset.ne_of_mem_erase other)

theorem total_update {shares : Shares} {h h' : Handles} {p : ProcId} {ledger : Option Ledger}
    (procs : h'.proc = update h.proc p proc) :
    total (update shares p ledger) h' = share ledger proc + elsewhere shares h p := by
  rw [total_eq _ _ p,procs,update_self,update_self]
  congr 1
  refine elsewhere_congr fun q other => ?_
  rw [procs,update_of_ne other,update_of_ne other]

theorem total_owned {shares : Shares} {h : Handles} {p : ProcId} {ledger : Ledger} (owned : shares p = some ledger) :
    total shares h = ledger.owns + elsewhere shares h p := by
  rw [total_eq _ _ p,owned]
  rfl

theorem resting_idle (idle : proc.used = false) : resting proc = 0 := by
  funext item
  cases item <;> simp [resting,Proc.holds,idle]

theorem elsewhere_other {shares : Shares} {h : Handles} {p c : ProcId} {ledger : Option Ledger} (other : c ≠ p)
    (none_ : shares c = none) (idle : (h.proc c).used = false) :
    elsewhere (update shares p ledger) { h with proc := update h.proc c proc } p =
      resting proc + elsewhere shares h p := by
  have inside : c ∈ Finset.univ.erase p := Finset.mem_erase.mpr ⟨other,Finset.mem_univ c⟩
  have rest : ∀ q ∈ (Finset.univ.erase p).erase c,
      share (update shares p ledger q) (update h.proc c proc q) = share (shares q) (h.proc q) := by
    intro q member
    have notC := Finset.ne_of_mem_erase member
    have notP := Finset.ne_of_mem_erase (Finset.mem_of_mem_erase member)
    rw [update_of_ne notC,update_of_ne notP]
  unfold elsewhere
  rw [← Finset.add_sum_erase _ _ inside,← Finset.add_sum_erase _ (fun q => share (shares q) (h.proc q)) inside,
    Finset.sum_congr rfl rest]
  simp only [update_of_ne other,update_self,none_,share,resting_idle idle,zero_add]

namespace Shape
variable {shares : Shares} {h h' : Handles} {p c : ProcId} {ledger after : Ledger}

theorem used (shape : Shape shares h) (owned : shares p = some ledger) : (h.proc p).used = true := by
  obtain ⟨same,used⟩ := shape.mine p ledger owned
  rw [same]
  exact used

theorem not_used (shape : Shape shares h) (idle : (h.proc c).used = false) : shares c = none := by
  cases there : shares c with
  | none => rfl
  | some ledger =>
    rw [shape.used there] at idle
    cases idle

theorem child_ne (shape : Shape shares h) (owned : shares p = some ledger) (idle : (h.proc c).used = false) : c ≠ p := by
  rintro rfl
  rw [shape.used owned] at idle
  cases idle

theorem child_idle (shape : Shape shares h) (owned : shares p = some ledger) (mine : ledger.child c = some proc) :
    (h.proc c).used = false := by
  obtain ⟨same,embryo⟩ := shape.child p ledger c proc owned mine
  simp [same,Proc.used,embryo]

theorem own (shape : Shape shares h) (owned : shares p = some ledger)
    (procs : h'.proc = update h.proc p after.me) (used : after.me.used = true) (child : after.child = ledger.child) :
    Shape (update shares p (some after)) h' := by
  have others : ∀ q, q ≠ p → h'.proc q = h.proc q := fun q other => by rw [procs,update_of_ne other]
  have mine : h'.proc p = after.me := by rw [procs,update_self]
  have back : ∀ q l, update shares p (some after) q = some l → ∃ l', shares q = some l' ∧ l.child = l'.child := by
    grind [Shape,update_apply]
  refine ⟨fun q l there => ?_,fun q l d proc there held => ?_,fun q r l l' d first second => ?_,fun q idle => ?_,fun d embryo => ?_⟩
  · grind [shape.mine,used,update_apply]
  · obtain ⟨l',there',same⟩ := back q l there
    rw [same] at held
    rw [others d (shape.child_ne owned (shape.child_idle there' held))]
    exact shape.child q l' d proc there' held
  · grind [Shape,update_apply]
  · grind [shape.idle,idle,Proc.used,used]
  · have other : d ≠ p := by
      rintro rfl
      rw [mine] at embryo
      simp [Proc.used,embryo] at used
    rw [others d other] at embryo
    obtain ⟨q,l,there,held⟩ := shape.claimed d embryo
    by_cases me : q = p
    · subst me
      rw [owned] at there
      cases there
      exact ⟨q,after,update_self ..,by rw [child]; exact held⟩
    · exact ⟨q,l,by rw [update_of_ne me]; exact there,held⟩

theorem enter (shape : Shape shares h) (idle : shares p = none) (me : after.me = h.proc p) (used : (h.proc p).used = true)
    (alone : ∀ d, after.child d = none) : Shape (update shares p (some after)) h := by
  have back : ∀ q l d, update shares p (some after) q = some l → (l.child d).isSome → shares q = some l := by
    grind [update_apply]
  refine ⟨fun q l there => ?_,fun q l d proc there held => ?_,fun q r l l' d first second held held' => ?_,shape.idle,fun d embryo => ?_⟩
  · grind [shape.mine,used,update_apply]
  · exact shape.child q l d proc (back q l d there (by rw [held]; rfl)) held
  · exact shape.apart q r l l' d (back q l d first held) (back r l' d second held') held held'
  · grind [shape.claimed,idle,update_apply]

theorem leave (shape : Shape shares h) (owned : shares p = some ledger) (alone : ∀ d, ledger.child d = none)
    (procs : h'.proc = update h.proc p proc) (awake : proc.state ≠ .embryo)
    (empty : proc.used = false → ∀ fd, proc.ofile fd = none) : Shape (update shares p none) h' := by
  have others : ∀ q, q ≠ p → h'.proc q = h.proc q := fun q other => by rw [procs,update_of_ne other]
  have mine : h'.proc p = proc := by rw [procs,update_self]
  have back : ∀ q l, update shares p none q = some l → q ≠ p ∧ shares q = some l := by grind [update_apply]
  refine ⟨fun q l there => ?_,fun q l d proc there held => ?_,fun q r l l' d first second => ?_,fun q idle => ?_,fun d embryo => ?_⟩
  · obtain ⟨other,there⟩ := back q l there
    rw [others q other]
    exact shape.mine q l there
  · obtain ⟨_,there⟩ := back q l there
    rw [others d (shape.child_ne owned (shape.child_idle there held))]
    exact shape.child q l d proc there held
  · exact shape.apart q r l l' d (back q l first).2 (back r l' second).2
  · by_cases isMe : q = p
    · subst isMe
      rw [mine] at idle ⊢
      refine empty ?_
      rcases idle with gone | gone <;> simp [Proc.used,gone]
    · rw [others q isMe] at idle ⊢
      exact shape.idle q idle
  · grind [Shape,update_apply]

/-- A call changes the record of a process that is in no call: a free slot, a
zombie, or a child that it is making. -/
theorem other (shape : Shape shares h) (owned : shares p = some ledger) (idle : (h.proc c).used = false)
    (mine : (h.proc c).state = .embryo → (ledger.child c).isSome) (procs : h'.proc = update h.proc c proc)
    (me : after.me = ledger.me)
    (child : after.child = update ledger.child c (if proc.state = .embryo then some proc else none))
    (empty : proc.state = .unused ∨ proc.state = .zombie → ∀ fd, proc.ofile fd = none) :
    Shape (update shares p (some after)) h' := by
  have others : ∀ q, q ≠ c → h'.proc q = h.proc q := fun q notC => by rw [procs,update_of_ne notC]
  have here : h'.proc c = proc := by rw [procs,update_self]
  have back : ∀ q l d, d ≠ c → update shares p (some after) q = some l → ∃ l', shares q = some l' ∧ l.child d = l'.child d := by
    intro q l d notC there
    by_cases isMe : q = p
    · subst isMe
      rw [update_self] at there
      cases there
      exact ⟨ledger,owned,by rw [child,update_of_ne notC]⟩
    · rw [update_of_ne isMe] at there
      exact ⟨l,there,rfl⟩
  -- the record belongs to this call's ledger only
  have only : ∀ q l, update shares p (some after) q = some l → (l.child c).isSome → q = p := by
    intro q l there held
    by_contra isMe
    rw [update_of_ne isMe] at there
    obtain ⟨proc',held'⟩ := Option.isSome_iff_exists.mp held
    obtain ⟨same,embryo⟩ := shape.child q l c proc' there held'
    rw [← same] at embryo
    exact isMe (shape.apart q p l ledger c there owned held (mine embryo))
  refine ⟨fun q l there => ?_,fun q l d proc' there held => ?_,fun q r l l' d first second held held' => ?_,fun q quiet => ?_,fun d embryo => ?_⟩
  · grind [Shape,update_apply]
  · by_cases isC : d = c
    · subst isC
      have isMe := only q l there (by rw [held]; rfl)
      subst isMe
      rw [update_self] at there
      cases there
      rw [child,update_self] at held
      split_ifs at held with embryo
      cases held
      exact ⟨here,embryo⟩
    · obtain ⟨l',there',same⟩ := back q l d isC there
      rw [others d isC]
      exact shape.child q l' d proc' there' (same ▸ held)
  · by_cases isC : d = c
    · subst isC
      rw [only q l first held,only r l' second held']
    · obtain ⟨l1,there1,same1⟩ := back q l d isC first
      obtain ⟨l2,there2,same2⟩ := back r l' d isC second
      exact shape.apart q r l1 l2 d there1 there2 (same1 ▸ held) (same2 ▸ held')
  · grind [shape.idle]
  · by_cases isC : d = c
    · subst isC
      rw [here] at embryo
      exact ⟨p,after,update_self ..,by simp [child,embryo]⟩
    · rw [others d isC] at embryo
      obtain ⟨q,l,there,held⟩ := shape.claimed d embryo
      by_cases isMe : q = p
      · subst isMe
        rw [owned] at there
        cases there
        exact ⟨q,after,update_self ..,by rw [child,update_of_ne isC]; exact held⟩
      · exact ⟨q,l,by rw [update_of_ne isMe]; exact there,held⟩

end Shape

namespace Balanced
variable {shares : Shares} {s s' : Blocks.State} {p c : ProcId} {ledger after : Ledger}

theorem own (now : Balanced shares s) (owned : shares p = some ledger)
    (procs : s'.handles.proc = update s.handles.proc p after.me) (used : after.me.used = true)
    (child : after.child = ledger.child)
    (counts : ∀ others, Counts (ledger.owns + others) (Blocks.refs s) s.handles →
      Counts (after.owns + others) (Blocks.refs s') s'.handles) :
    Balanced (update shares p (some after)) s' := by
  refine ⟨?_,now.shape.own owned procs used child⟩
  rw [total_update procs]
  exact counts _ (total_owned owned ▸ now.counts)

theorem step (now : Balanced shares s) (owned : shares p = some ledger) (procs : s'.handles.proc = s.handles.proc)
    (me : after.me = ledger.me) (child : after.child = ledger.child)
    (counts : ∀ others, Counts (ledger.owns + others) (Blocks.refs s) s.handles →
      Counts (after.owns + others) (Blocks.refs s') s'.handles) :
    Balanced (update shares p (some after)) s' := by
  obtain ⟨same,used⟩ := now.shape.mine p ledger owned
  refine now.own owned ?_ (me ▸ used) child counts
  rw [procs,me,← same,update_eq_self]

theorem other (now : Balanced shares s) (owned : shares p = some ledger) (idle : (s.handles.proc c).used = false)
    (mine : (s.handles.proc c).state = .embryo → (ledger.child c).isSome) (me : after.me = ledger.me)
    (child : after.child = update ledger.child c (if proc.state = .embryo then some proc else none))
    (empty : proc.state = .unused ∨ proc.state = .zombie → ∀ fd, proc.ofile fd = none)
    (gives : ledger.owns = after.owns + resting proc) :
    Balanced (update shares p (some after))
      { s with handles := { s.handles with proc := update s.handles.proc c proc } } := by
  refine ⟨?_,now.shape.other owned idle mine rfl me child empty⟩
  have same : total (update shares p (some after))
      { s.handles with proc := update s.handles.proc c proc } = total shares s.handles := by
    rw [total_eq _ _ p,update_self,total_owned owned,gives,
      elsewhere_other (now.shape.child_ne owned idle) (now.shape.not_used idle) idle]
    simp only [share]
    abel
  rw [same]
  exact now.counts.procs rfl rfl

theorem enter (now : Balanced shares s) (idle : shares p = none) (used : (s.handles.proc p).used = true) :
    Balanced (update shares p (some ⟨s.handles.proc p,resting (s.handles.proc p),fun _ => none⟩)) s := by
  refine ⟨?_,now.shape.enter idle rfl used fun _ => rfl⟩
  rw [total_update (update_eq_self p s.handles.proc).symm]
  have before := now.counts
  rw [total_eq _ _ p,idle] at before
  exact before

theorem leave (now : Balanced shares s) (owned : shares p = some ledger) (rests : ledger.AtRest) :
    Balanced (update shares p none) s := by
  obtain ⟨same,used⟩ := now.shape.mine p ledger owned
  have procs : s.handles.proc = update s.handles.proc p ledger.me := by rw [← same,update_eq_self]
  refine ⟨?_,now.shape.leave owned rests.alone procs ?_ fun idle => ?_⟩
  · rw [total_update procs]
    have before := now.counts
    rw [total_owned owned,rests.owns] at before
    exact before
  · intro embryo
    simp [Proc.used,embryo] at used
  · rw [used] at idle
    cases idle

theorem exit (now : Balanced shares s) (owned : shares p = some ledger) (nothing : ledger.owns = 0)
    (alone : ∀ d, ledger.child d = none) (empty : ∀ fd, ledger.me.ofile fd = none) :
    Balanced (update shares p none) { s with handles := setProcState p .zombie s.handles } := by
  obtain ⟨same,_⟩ := now.shape.mine p ledger owned
  refine ⟨?_,now.shape.leave owned alone rfl (by simp) fun _ => ?_⟩
  · have procs : (setProcState p .zombie s.handles).proc =
        update s.handles.proc p { s.handles.proc p with state := .zombie } := rfl
    rw [total_update procs]
    have before := now.counts
    rw [total_owned owned,nothing] at before
    have gone : share none { s.handles.proc p with state := .zombie } = 0 := resting_idle rfl
    rw [gone]
    exact before.procs rfl rfl
  · rw [same]
    exact empty

end Balanced

end Xv6.Fs
