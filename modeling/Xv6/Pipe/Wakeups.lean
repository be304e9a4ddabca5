import Xv6.Pipe.Fifo

/-! Nobody sleeps on a pipe that could serve them. pipewrite stores bytes first
and wakes the readers when it leaves its loop; the exit for a killed writer is
the one that skips the wakeup, so it must not be taken after a byte has been
stored. -/
namespace Xv6.Pipes
open Lib Lib.Ring

def Frame.onNread : Frame → Bool
  | .reading _ _ _ asleep => asleep
  | _ => false

def Frame.onNwrite : Frame → Bool
  | .writing _ _ _ _ asleep => asleep
  | _ => false

def Pipe.Full (pi : Pipe) : Prop := pi.nwrite = pi.nread + BitVec.ofNat 32 pipeSize

theorem wakeReader_onNread (frame : Frame) : (wakeReader frame).onNread = false := by
  cases frame <;> rfl

theorem wakeReader_onNwrite (frame : Frame) : (wakeReader frame).onNwrite = frame.onNwrite := by
  cases frame <;> rfl

theorem wakeWriter_onNwrite (frame : Frame) : (wakeWriter frame).onNwrite = false := by
  cases frame <;> rfl

theorem wakeWriter_onNread (frame : Frame) : (wakeWriter frame).onNread = frame.onNread := by
  cases frame <;> rfl

/-- killed(pr) does not become true between the first test of a stretch of
pipewrite, before byte i, and a later one. -/
def Env.SteadyFrom (env : Env) (i : Nat) : Prop := ∀ j, i < j → env.killed j = true → env.killed i = true

variable {P : Type*} [DecidableEq P]

def Steady (s : State P) : Label P → Prop
  | .write _ _ _ env => env.SteadyFrom 0
  | .writeAgain p env =>
    match s.frames p with
    | .writing _ _ _ i _ => env.SteadyFrom i
    | _ => True
  | _ => True

/-! pipewrite's loop. -/

theorem Pipe.push_readopen (pi : Pipe) {ch : Byte} : (pi.push ch).readopen = pi.readopen := rfl

structure Stretch (pi pi' : Pipe) (out : WriteEnd) : Prop where
  readopen : pi'.readopen = pi.readopen
  writeopen : pi'.writeopen = pi.writeopen
  still : pi.Full → pi' = pi
  full : ∀ j, out = .full j → pi'.Full ∧ pi'.readopen = true

theorem pipewriteLoop_stretch (env : Env) (addr : BitVec 64) (todo i : Nat) (pi : Pipe) :
    Stretch pi (pipewriteLoop env addr todo i pi).2.1 (pipewriteLoop env addr todo i pi).1 := by
  induction todo generalizing i pi with
  | zero => exact ⟨rfl,rfl,fun _ => rfl,by rintro _ ⟨⟩⟩
  | succ todo ih =>
    unfold pipewriteLoop
    split_ifs with refused full
    · exact ⟨rfl,rfl,fun _ => rfl,by rintro _ ⟨⟩⟩
    · exact ⟨rfl,rfl,fun _ => rfl,fun _ _ => ⟨full,by simpa using fun gone => refused (.inl gone)⟩⟩
    · cases env.copyin (addr + BitVec.ofNat 64 i) with
      | none => exact ⟨rfl,rfl,fun _ => rfl,by rintro _ ⟨⟩⟩
      | some ch =>
        obtain ⟨readopen,writeopen,_,filled⟩ := ih (i + 1) (pi.push ch)
        exact ⟨readopen,writeopen,fun isFull => absurd isFull full,filled⟩

theorem pipewriteLoop_not_refused {env : Env} {addr : BitVec 64} {todo i : Nat} {pi : Pipe} (isOpen : pi.readopen = true)
    (alive : ∀ j, i ≤ j → env.killed j = false) : (pipewriteLoop env addr todo i pi).1 ≠ .refused := by
  induction todo generalizing i pi with
  | zero => simp [pipewriteLoop]
  | succ todo ih =>
    unfold pipewriteLoop
    rw [if_neg (by simp [isOpen,alive i (Nat.le_refl i)])]
    split_ifs
    · simp
    · cases env.copyin (addr + BitVec.ofNat 64 i) with
      | none => simp
      | some ch => exact ih (pi.push_readopen.trans isOpen) fun j later => alive j (by omega)

theorem pipewriteLoop_refused {env : Env} {addr : BitVec 64} {todo i : Nat} {pi : Pipe} (steady : env.SteadyFrom i)
    (refused : (pipewriteLoop env addr todo i pi).1 = .refused) : (pipewriteLoop env addr todo i pi).2.1 = pi := by
  cases todo with
  | zero => rfl
  | succ todo =>
    unfold pipewriteLoop at refused ⊢
    split_ifs at refused ⊢ with first full
    · rfl
    · push Not at first
      cases copied : env.copyin (addr + BitVec.ofNat 64 i) with
      | none => rfl
      | some ch =>
        rw [copied] at refused
        have alive : ∀ j, i + 1 ≤ j → env.killed j = false := by
          intro j later
          by_contra killed
          exact first.2 (steady j later (by simpa using killed))
        exact absurd refused (pipewriteLoop_not_refused (pi.push_readopen.trans (by simpa using first.1)) alive)

/-! Sleepers. -/

structure Frame.Waits (frame : Frame) (pi : Pipe) : Prop where
  reader : frame.onNread = true → pi.nread = pi.nwrite ∧ pi.writeopen = true
  writer : frame.onNwrite = true → pi.Full ∧ pi.readopen = true

theorem waits_idle (pi : Pipe) : Frame.idle.Waits pi := ⟨nofun,nofun⟩

theorem Frame.Waits.wakeReader {frame : Frame} {pi pi' : Pipe} (waits : frame.Waits pi)
    (writer : pi.Full → pi.readopen = true → pi'.Full ∧ pi'.readopen = true) : (wakeReader frame).Waits pi' := by
  refine ⟨fun asleep => ?_,fun asleep => ?_⟩
  · rw [wakeReader_onNread] at asleep
    cases asleep
  · rw [wakeReader_onNwrite] at asleep
    exact writer (waits.writer asleep).1 (waits.writer asleep).2

theorem Frame.Waits.wakeWriter {frame : Frame} {pi pi' : Pipe} (waits : frame.Waits pi)
    (reader : pi.nread = pi.nwrite → pi.writeopen = true → pi'.nread = pi'.nwrite ∧ pi'.writeopen = true) :
    (wakeWriter frame).Waits pi' := by
  refine ⟨fun asleep => ?_,fun asleep => ?_⟩
  · rw [wakeWriter_onNread] at asleep
    exact reader (waits.reader asleep).1 (waits.reader asleep).2
  · rw [wakeWriter_onNwrite] at asleep
    cases asleep

def Served (s : State P) : Prop := ∀ p, (s.frames p).Waits s.pipe

theorem waits_update {frames : P → Frame} {pi : Pipe} {p : P} {frame : Frame} (mine : frame.Waits pi)
    (others : ∀ q, (frames q).Waits pi) (q : P) : (Function.update frames p frame q).Waits pi := by
  rw [Function.update_apply]
  split_ifs
  · exact mine
  · exact others q

theorem served_pipewrite {s : State P} (served : Served s) {p : P} {call i : Nat} {addr : BitVec 64} {n : Int} {env : Env}
    (steady : env.SteadyFrom i) : Served (pipewrite s p call addr n i env) := by
  have stretch := pipewriteLoop_stretch env addr (n - i).toNat i s.pipe
  have refusal := @pipewriteLoop_refused env addr (n - i).toNat i s.pipe steady
  unfold pipewrite
  generalize pipewriteLoop env addr (n - i).toNat i s.pipe = result at stretch refusal ⊢
  obtain ⟨out,pi,bytes⟩ := result
  -- a writer that sleeps has seen a full pipe, which this stretch leaves alone
  have woken : ∀ q, (wakeReader (s.frames q)).Waits pi := by
    refine fun q => (served q).wakeReader fun full isOpen => ?_
    rw [show pi = s.pipe from stretch.still full]
    exact ⟨full,isOpen⟩
  cases out with
  | refused =>
    have same : pi = s.pipe := refusal rfl
    rw [same]
    exact waits_update (waits_idle _) served
  | full j =>
    refine waits_update ⟨nofun,fun _ => stretch.full j rfl⟩ woken
  | left j => exact waits_update (waits_idle _) woken

theorem pipereadCopy_empty {env : Env} {addr : BitVec 64} {todo i : Nat} {pi : Pipe} (empty : pi.nread = pi.nwrite) :
    (pipereadCopy env addr todo i pi).2.1 = pi := by
  cases todo with
  | zero => rfl
  | succ todo => simp [pipereadCopy,empty]

theorem served_piperead {s : State P} (served : Served s) {p : P} {call : Nat} {addr : BitVec 64} {n : Int} {env : Env} :
    Served (piperead s p call addr n env) := by
  unfold piperead
  split_ifs with empty killed
  · exact waits_update (waits_idle _) served
  · exact waits_update ⟨fun _ => empty,nofun⟩ served
  · refine waits_update (waits_idle _) fun q => (served q).wakeWriter fun drained isOpen => ?_
    -- a reader that sleeps has seen an empty pipe, from which nothing is copied
    dsimp only
    rw [pipereadCopy_empty drained]
    exact ⟨drained,isOpen⟩

omit [DecidableEq P] in
theorem served_pipeclose {s : State P} (served : Served s) (writable : Bool) : Served (pipeclose s writable) := by
  intro q
  cases writable with
  | true => exact (served q).wakeReader fun full isOpen => ⟨full,isOpen⟩
  | false => exact (served q).wakeWriter fun drained isOpen => ⟨drained,isOpen⟩

theorem served_step {s s' : State P} {label : Label P} (served : Served s) (steady : Steady s label)
    (stepped : step s label = some s') : Served s' := by
  cases label with
  | write p addr n env =>
    simp only [step] at stepped
    split_ifs at stepped
    rw [← Option.some.inj stepped]
    exact served_pipewrite (s := { s with calls := s.calls + 1 }) served steady
  | writeAgain p env =>
    simp only [step] at stepped
    split at stepped
    next call addr n i inside =>
      split_ifs at stepped
      simp only [Steady,inside] at steady
      rw [← Option.some.inj stepped]
      exact served_pipewrite served steady
    next => contradiction
  | read p addr n env =>
    simp only [step] at stepped
    split_ifs at stepped
    rw [← Option.some.inj stepped]
    exact served_piperead (s := { s with calls := s.calls + 1 }) served
  | readAgain p env =>
    simp only [step] at stepped
    split at stepped
    next =>
      split_ifs at stepped
      rw [← Option.some.inj stepped]
      exact served_piperead served
    next => contradiction
  | close writable => grind [step,served_pipeclose]
  | kkill p =>
    rw [← Option.some.inj stepped]
    have woken := ((served p).wakeWriter fun drained isOpen => ⟨drained,isOpen⟩).wakeReader fun full isOpen => ⟨full,isOpen⟩
    exact waits_update woken served

omit [DecidableEq P] in
theorem buffered_full {pi : Pipe} (full : pi.Full) : (buffered pi).length = pipeSize := by
  have distance : held pi.nread pi.nwrite = pipeSize := by
    rw [full,held]
    simp [pipeSize]
  simp [buffered,window,distance]

omit [DecidableEq P] in
theorem buffered_empty {pi : Pipe} (empty : pi.nread = pi.nwrite) : buffered pi = [] := by
  simp [buffered,held,empty]

/-- Whenever the lock is free, a process asleep on `&pi->nread` waits for an empty
pipe with an open write end, and one asleep on `&pi->nwrite` waits for a full
pipe with an open read end. -/
theorem pipe_sleepers_wait {s : State P} (reached : ((system P).restrict Steady).Reachable s) (p : P) :
    ((s.frames p).onNread = true → buffered s.pipe = [] ∧ s.pipe.writeopen = true) ∧
      ((s.frames p).onNwrite = true → (buffered s.pipe).length = pipeSize ∧ s.pipe.readopen = true) := by
  have served : Served s := by
    refine reached.invariant (fun s first => ?_) fun s label s' _ served stepped => ?_
    · obtain ⟨data,rfl⟩ := first
      exact fun p => waits_idle _
    · exact served_step served stepped.1 stepped.2
  refine ⟨fun asleep => ?_,fun asleep => ?_⟩
  · exact ⟨buffered_empty ((served p).reader asleep).1,((served p).reader asleep).2⟩
  · exact ⟨buffered_full ((served p).writer asleep).1,((served p).writer asleep).2⟩

def killedAfterOne : Env := ⟨fun _ => some 7,fun _ _ => true,fun i => i = 1⟩

def unharmed : Env := ⟨fun _ => some 7,fun _ _ => true,fun _ => false⟩

/-- A reader that finds the new pipe empty sleeps until a byte arrives. -/
theorem pipe_sleepers_wait_reader : ∃ s : State Bool, ((system Bool).restrict Steady).Reachable s ∧
    (s.frames false).onNread = true ∧ buffered s.pipe = [] := by
  have first : ((system Bool).restrict Steady).Reachable (pipealloc fun _ => 5) := .start _ ⟨_,rfl⟩
  have asleep : ((system Bool).restrict Steady).Reachable
      (piperead { (pipealloc fun _ => 5 : State Bool) with calls := 1 } false 0 4096 1 unharmed) :=
    System.Reachable.next _ (Label.read false 4096 1 unharmed) _ first ⟨trivial,rfl⟩
  exact ⟨_,asleep,rfl,((pipe_sleepers_wait asleep false).1 rfl).1⟩

/-- The reader sleeps on the empty pipe; the writer stores the first of its two
bytes, is killed, and returns without waking the reader. -/
theorem killed_writer_strands_reader : ∃ s : State Bool, (system Bool).Reachable s ∧
    (s.frames false).onNread = true ∧ buffered s.pipe = [7] := by
  let labels : List (Label Bool) := [.read false 4096 1 unharmed,.write true 8192 2 killedAfterOne]
  have ran : (System.run step (pipealloc fun _ => 5) labels).any
      fun s => (s.frames false).onNread ∧ buffered s.pipe = [7] := by decide +kernel
  obtain ⟨s,ran,facts⟩ := (Option.any_eq_true _ _).mp ran
  simp only [decide_eq_true_eq] at facts
  have first : (System.ofStep (fun s => ∃ data, s = pipealloc data) step).Reachable (pipealloc fun _ => 5 : State Bool) :=
    .start _ ⟨_,rfl⟩
  exact ⟨s,first.run ran,facts⟩

end Xv6.Pipes
