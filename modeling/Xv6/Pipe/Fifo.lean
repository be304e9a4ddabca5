import Xv6.Pipe.Model

/-! Pipes are FIFO without loss or duplication: in every interleaving the bytes
delivered, followed by the bytes still in the ring, are the bytes accepted. The
counters wrap modulo 2^32 and a failed copy to user space consumes nothing. -/
namespace Xv6.Pipes
open Lib Lib.Ring Function List

def buffered (pi : Pipe) : List Byte := window pi.data pi.nread (held pi.nread pi.nwrite)

private theorem size_divides : pipeSize ∣ 2^32 := ⟨2^23,by decide⟩

private theorem size_proper : pipeSize < 2^32 := by decide

private theorem room_of_not_full {pi : Pipe} (bound : held pi.nread pi.nwrite ≤ pipeSize)
    (notFull : pi.nwrite ≠ pi.nread + BitVec.ofNat 32 pipeSize) : held pi.nread pi.nwrite < pipeSize := by
  refine lt_of_le_of_ne bound ?_
  intro full
  apply notFull
  rw [← full]
  exact (add_distance pi.nread pi.nwrite).symm

theorem buffered_push {pi : Pipe} (room : held pi.nread pi.nwrite < pipeSize) (ch : Byte) :
    buffered (pi.push ch) = buffered pi ++ [ch] :=
  window_push size_divides size_proper pi.data pi.nread pi.nwrite ch room

theorem held_push_le {pi : Pipe} (room : held pi.nread pi.nwrite < pipeSize) (ch : Byte) :
    held (pi.push ch).nread (pi.push ch).nwrite ≤ pipeSize := by
  have small := size_proper
  have pushed : held pi.nread (pi.nwrite + 1) = held pi.nread pi.nwrite + 1 := held_push (by omega)
  change held pi.nread (pi.nwrite + 1) ≤ pipeSize
  omega

structure Appends (pi pi' : Pipe) (i : Nat) (out : WriteEnd) (bytes : List Byte) : Prop where
  bound : held pi'.nread pi'.nwrite ≤ pipeSize
  contents : buffered pi' = buffered pi ++ bytes
  left : ∀ j, out = .left j → j = i + bytes.length
  full : ∀ j, out = .full j → j = i + bytes.length

theorem pipewriteLoop_appends (env : Env) (addr : BitVec 64) (todo i : Nat) (pi : Pipe)
    (bound : held pi.nread pi.nwrite ≤ pipeSize) :
    Appends pi (pipewriteLoop env addr todo i pi).2.1 i (pipewriteLoop env addr todo i pi).1
      (pipewriteLoop env addr todo i pi).2.2 := by
  induction todo generalizing i pi with
  | zero => exact ⟨bound,by simp [pipewriteLoop],by simp [pipewriteLoop],by simp [pipewriteLoop]⟩
  | succ todo ih =>
    unfold pipewriteLoop
    split_ifs with refused full
    · exact ⟨bound,by simp,by simp,by simp⟩
    · exact ⟨bound,by simp,by simp,by simp⟩
    · cases copied : env.copyin (addr + BitVec.ofNat 64 i) with
      | none => exact ⟨bound,by simp,by simp,by simp⟩
      | some ch =>
        have room := room_of_not_full bound full
        have rest := ih (i + 1) (pi.push ch) (held_push_le room ch)
        simp only
        generalize pipewriteLoop env addr todo (i + 1) (pi.push ch) = stretch at rest ⊢
        obtain ⟨out,pi',bytes⟩ := stretch
        refine ⟨rest.bound,?_,?_,?_⟩
        · change buffered pi' = buffered pi ++ ch :: bytes
          rw [rest.contents,buffered_push room,append_assoc,singleton_append]
        · intro j ended
          have position := rest.left j ended
          simp only [length_cons] at position ⊢
          omega
        · intro j ended
          have position := rest.full j ended
          simp only [length_cons] at position ⊢
          omega

/-- What piperead's copy loop does: it takes `bytes` off the front of the ring,
and its result counts them unless the very first copy failed. -/
structure Removes (pi pi' : Pipe) (i : Nat) (r : Int) (bytes : List Byte) : Prop where
  bound : held pi'.nread pi'.nwrite ≤ pipeSize
  contents : buffered pi = bytes ++ buffered pi'
  result : r = i + bytes.length ∨ (r = -1 ∧ i = 0 ∧ bytes = [])

theorem pipereadCopy_removes (env : Env) (addr : BitVec 64) (todo i : Nat) (pi : Pipe)
    (bound : held pi.nread pi.nwrite ≤ pipeSize) :
    Removes pi (pipereadCopy env addr todo i pi).2.1 i (pipereadCopy env addr todo i pi).1
      (pipereadCopy env addr todo i pi).2.2 := by
  induction todo generalizing i pi with
  | zero => exact ⟨bound,by simp [pipereadCopy],by simp [pipereadCopy]⟩
  | succ todo ih =>
    by_cases empty : pi.nread = pi.nwrite
    · simp only [pipereadCopy,empty,if_true]
      exact ⟨bound,by simp,by simp⟩
    by_cases failed : env.copyout (addr + BitVec.ofNat 64 i) (pi.data (slot pipeSize pi.nread)) = false
    · simp only [pipereadCopy,empty,failed,if_true,if_false]
      refine ⟨bound,by simp,?_⟩
      split_ifs with first <;> simp [first]
    · rw [pipereadCopy,if_neg empty,if_neg failed]
      have popped := held_pop empty
      have shrunk : held (pi.nread + 1) pi.nwrite ≤ pipeSize := by omega
      have rest := ih (i + 1) { pi with nread := pi.nread + 1 } shrunk
      have front : buffered pi = pi.data (slot pipeSize pi.nread) ::
          buffered { pi with nread := pi.nread + 1 } := window_pop pi.data empty
      generalize pipereadCopy env addr todo (i + 1) { pi with nread := pi.nread + 1 } = stretch at rest ⊢
      obtain ⟨r,pi',bytes⟩ := stretch
      refine ⟨rest.bound,?_,?_⟩
      · rw [front,rest.contents]
        rfl
      · rcases rest.result with counted | ⟨_,impossible,_⟩
        · left
          simp only [length_cons,Nat.cast_add,Nat.cast_one] at counted ⊢
          omega
        · omega

theorem pipereadCopy_zero (env : Env) (addr : BitVec 64) (todo : Nat) (pi : Pipe)
    (bound : held pi.nread pi.nwrite ≤ pipeSize) (positive : 0 < todo)
    (zero : (pipereadCopy env addr todo 0 pi).1 = 0) :
    pi.nread = pi.nwrite ∧ (pipereadCopy env addr todo 0 pi).2.1 = pi := by
  obtain ⟨todo,rfl⟩ := Nat.exists_eq_succ_of_ne_zero (by omega : todo ≠ 0)
  by_cases empty : pi.nread = pi.nwrite
  · exact ⟨empty,by simp [pipereadCopy,empty]⟩
  · exfalso
    have popped := held_pop empty
    have rest := pipereadCopy_removes env addr todo 1 { pi with nread := pi.nread + 1 }
      (by change held (pi.nread + 1) pi.nwrite ≤ pipeSize; omega)
    by_cases failed : env.copyout (addr + BitVec.ofNat 64 0) (pi.data (slot pipeSize pi.nread)) = false
    · rw [pipereadCopy,if_neg empty,if_pos failed] at zero
      simp at zero
    · rw [pipereadCopy,if_neg empty,if_neg failed] at zero
      rcases rest.result with counted | ⟨_,impossible,_⟩
      · simp only [Nat.zero_add] at zero
        rw [zero] at counted
        omega
      · omega

def Event.call : Event → Nat
  | .accepted call _ | .delivered call _ | .wrote call _ | .read call _ _ => call

def Frame.call? : Frame → Option Nat
  | .idle => none
  | .writing call _ _ _ _ | .reading call _ _ _ => some call

def Event.accepted? : Event → Option Byte
  | .accepted _ ch => some ch
  | _ => none

def Event.delivered? : Event → Option Byte
  | .delivered _ ch => some ch
  | _ => none

def accepted (trace : List Event) : List Byte := trace.filterMap Event.accepted?

def delivered (trace : List Event) : List Byte := trace.filterMap Event.delivered?

def acceptedBy (call : Nat) (trace : List Event) : List Byte :=
  accepted (trace.filter (fun e => e.call == call))

def deliveredBy (call : Nat) (trace : List Event) : List Byte :=
  delivered (trace.filter (fun e => e.call == call))

def Event.isReturn : Event → Bool
  | .wrote _ _ | .read _ _ _ => true
  | _ => false

section Trace
variable (trace other : List Event) (call : Nat) (bytes : List Byte)

@[simp] theorem accepted_append : accepted (trace ++ other) = accepted trace ++ accepted other := by
  simp [accepted]

@[simp] theorem delivered_append : delivered (trace ++ other) = delivered trace ++ delivered other := by
  simp [delivered]

@[simp] theorem acceptedBy_append :
    acceptedBy call (trace ++ other) = acceptedBy call trace ++ acceptedBy call other := by
  simp [acceptedBy]

@[simp] theorem deliveredBy_append :
    deliveredBy call (trace ++ other) = deliveredBy call trace ++ deliveredBy call other := by
  simp [deliveredBy]

@[simp] theorem accepted_map_accepted : accepted (bytes.map (.accepted call)) = bytes := by
  simp [accepted,filterMap_map,Function.comp_def,Event.accepted?]

@[simp] theorem accepted_map_delivered : accepted (bytes.map (.delivered call)) = [] := by
  simp [accepted,Event.accepted?]

@[simp] theorem delivered_map_delivered : delivered (bytes.map (.delivered call)) = bytes := by
  simp [delivered,filterMap_map,Function.comp_def,Event.delivered?]

@[simp] theorem delivered_map_accepted : delivered (bytes.map (.accepted call)) = [] := by
  simp [delivered,Event.delivered?]

@[simp] theorem accepted_wrote (r : Int) : accepted [.wrote call r] = [] := rfl
@[simp] theorem accepted_read (n r : Int) : accepted [.read call n r] = [] := rfl
@[simp] theorem delivered_wrote (r : Int) : delivered [.wrote call r] = [] := rfl
@[simp] theorem delivered_read (n r : Int) : delivered [.read call n r] = [] := rfl

variable {trace call}

theorem acceptedBy_other (absent : ∀ e ∈ trace, e.call ≠ call) : acceptedBy call trace = [] := by
  have none : trace.filter (fun e => e.call == call) = [] := by simpa using absent
  rw [acceptedBy,none]
  rfl

theorem deliveredBy_other (absent : ∀ e ∈ trace, e.call ≠ call) : deliveredBy call trace = [] := by
  have none : trace.filter (fun e => e.call == call) = [] := by simpa using absent
  rw [deliveredBy,none]
  rfl

theorem acceptedBy_same (present : ∀ e ∈ trace, e.call = call) : acceptedBy call trace = accepted trace := by
  rw [acceptedBy,filter_eq_self.mpr (by simpa using present)]

theorem deliveredBy_same (present : ∀ e ∈ trace, e.call = call) : deliveredBy call trace = delivered trace := by
  rw [deliveredBy,filter_eq_self.mpr (by simpa using present)]

end Trace

/-- What a process inside a call has moved so far: a writer its counter `i`, a
reader that still waits nothing. -/
def Frame.progress (trace : List Event) : Frame → Prop
  | .idle => True
  | .writing call _ _ i _ => (acceptedBy call trace).length = i
  | .reading call _ _ _ => deliveredBy call trace = []

def Event.counted (trace : List Event) : Event → Prop
  | .wrote call r => 0 ≤ r → r = (acceptedBy call trace).length
  | .read call _ r => 0 ≤ r → r = (deliveredBy call trace).length
  | _ => True

variable {P : Type*}

structure Inv (s : State P) : Prop where
  bound : held s.pipe.nread s.pipe.nwrite ≤ pipeSize
  fifo : accepted s.trace = delivered s.trace ++ buffered s.pipe
  old : ∀ e ∈ s.trace, e.call < s.calls
  active : ∀ p call, (s.frames p).call? = some call → call < s.calls
  distinct : ∀ p q call, (s.frames p).call? = some call → (s.frames q).call? = some call → p = q
  finished : ∀ e ∈ s.trace, e.isReturn = true → ∀ p, (s.frames p).call? ≠ some e.call
  progress : ∀ p, (s.frames p).progress s.trace
  counted : ∀ e ∈ s.trace, e.counted s.trace

/-- `call` is the call that process `p` is about to run a stretch of. -/
structure Turn (s : State P) (p : P) (call : Nat) : Prop where
  issued : call < s.calls
  own : ∀ q, q ≠ p → (s.frames q).call? ≠ some call
  unfinished : ∀ e ∈ s.trace, e.isReturn = true → e.call ≠ call

/-- Waking sleepers changes neither the call a process is in nor its progress. -/
structure Wakes (wake : Frame → Frame) : Prop where
  call : ∀ frame, (wake frame).call? = frame.call?
  progress : ∀ trace frame, frame.progress trace → (wake frame).progress trace

theorem wakes_id : Wakes id := ⟨fun _ => rfl,fun _ _ h => h⟩

theorem wakes_reader : Wakes wakeReader :=
  ⟨fun frame => by cases frame <;> rfl,fun _ frame h => by cases frame <;> exact h⟩

theorem wakes_writer : Wakes wakeWriter :=
  ⟨fun frame => by cases frame <;> rfl,fun _ frame h => by cases frame <;> exact h⟩

private theorem Frame.progress_append {trace new : List Event} {call : Nat} {frame : Frame}
    (here : ∀ e ∈ new, e.call = call) (other : frame.call? ≠ some call)
    (progress : frame.progress trace) : frame.progress (trace ++ new) := by
  have apart (id : Nat) (ne : id ≠ call) : ∀ e ∈ new, e.call ≠ id := by
    intro e member equal
    exact ne (equal ▸ here e member)
  cases frame with
  | idle => trivial
  | writing id addr n i asleep =>
    have ne : id ≠ call := fun equal => other (congrArg some equal)
    simpa [Frame.progress,acceptedBy_other (apart id ne)] using progress
  | reading id addr n asleep =>
    have ne : id ≠ call := fun equal => other (congrArg some equal)
    simpa [Frame.progress,deliveredBy_other (apart id ne)] using progress

private theorem Event.counted_append {trace new : List Event} {call : Nat} {e : Event}
    (here : ∀ e ∈ new, e.call = call) (other : e.isReturn = true → e.call ≠ call)
    (counted : e.counted trace) : e.counted (trace ++ new) := by
  have apart (id : Nat) (ne : id ≠ call) : ∀ e ∈ new, e.call ≠ id := by
    intro e member equal
    exact ne (equal ▸ here e member)
  cases e with
  | accepted id ch => trivial
  | delivered id ch => trivial
  | wrote id r => simpa [Event.counted,acceptedBy_other (apart id (other rfl))] using counted
  | read id n r => simpa [Event.counted,deliveredBy_other (apart id (other rfl))] using counted

theorem Inv.issue {s : State P} (inv : Inv s) (p : P) :
    Inv { s with calls := s.calls + 1 } ∧ Turn { s with calls := s.calls + 1 } p s.calls ∧
      acceptedBy s.calls s.trace = [] ∧ deliveredBy s.calls s.trace = [] := by
  have unseen : ∀ e ∈ s.trace, e.call ≠ s.calls := fun e member => (inv.old e member).ne
  refine ⟨⟨inv.bound,inv.fifo,?_,?_,inv.distinct,inv.finished,inv.progress,inv.counted⟩,⟨?_,?_,?_⟩,
    acceptedBy_other unseen,deliveredBy_other unseen⟩
  · intro e member
    exact Nat.lt_succ_of_lt (inv.old e member)
  · intro q call found
    exact Nat.lt_succ_of_lt (inv.active q call found)
  · exact Nat.lt_succ_self _
  · intro q _ found
    exact absurd (inv.active q _ found) (lt_irrefl _)
  · intro e member _
    exact unseen e member

theorem Inv.turn {s : State P} (inv : Inv s) {p : P} {call : Nat} (inside : (s.frames p).call? = some call) :
    Turn s p call := by
  refine ⟨inv.active p call inside,?_,?_⟩
  · intro q ne found
    exact ne (inv.distinct q p call found inside)
  · intro e member returned equal
    exact inv.finished e member returned p (equal ▸ inside)

private theorem inv_wake {s : State P} (inv : Inv s) {frames : P → Frame}
    (call : ∀ q, (frames q).call? = (s.frames q).call?)
    (progress : ∀ q, (frames q).progress s.trace) {pi : Pipe} {freed : Bool}
    (counters : pi.nread = s.pipe.nread ∧ pi.nwrite = s.pipe.nwrite ∧ pi.data = s.pipe.data) :
    Inv { s with pipe := pi, frames := frames, freed := freed } := by
  obtain ⟨read,write,data⟩ := counters
  refine ⟨?_,?_,inv.old,?_,?_,?_,progress,inv.counted⟩
  · simpa only [read,write] using inv.bound
  · simpa only [buffered,read,write,data] using inv.fifo
  · intro q id found
    exact inv.active q id (call q ▸ found)
  · intro q r id first second
    exact inv.distinct q r id (call q ▸ first) (call r ▸ second)
  · intro e member returned q
    rw [call q]
    exact inv.finished e member returned q

variable [DecidableEq P]

/-- One stretch of the call `call` by process `p`: it appends `new` to the
history, leaves `p` in `frame` and may wake others. -/
theorem Inv.stretch {s : State P} {p : P} {call : Nat} (inv : Inv s) (turn : Turn s p call)
    {wake : Frame → Frame} (wakes : Wakes wake) {pi : Pipe} {frame : Frame} {new : List Event}
    (here : ∀ e ∈ new, e.call = call)
    (bound : held pi.nread pi.nwrite ≤ pipeSize)
    (fifo : accepted (s.trace ++ new) = delivered (s.trace ++ new) ++ buffered pi)
    (mine : frame.call? = none ∨ frame.call? = some call ∧ ∀ e ∈ new, e.isReturn = false)
    (progress : frame.progress (s.trace ++ new))
    (counted : ∀ e ∈ new, e.counted (s.trace ++ new)) :
    Inv { s with
      pipe := pi
      frames := update (wake ∘ s.frames) p frame
      trace := s.trace ++ new } := by
  have elsewhere {q : P} (ne : q ≠ p) : update (wake ∘ s.frames) p frame q = wake (s.frames q) := by
    simp [update_of_ne ne]
  have atMost {id : Nat} (found : frame.call? = some id) : id = call := by
    rcases mine with none | ⟨some,_⟩
    · simp [none] at found
    · simpa [some] using found.symm
  refine ⟨bound,fifo,?_,?_,?_,?_,?_,?_⟩
  · intro e member
    rcases mem_append.mp member with before | added
    · exact inv.old e before
    · rw [here e added]
      exact turn.issued
  · intro q id found
    by_cases same : q = p
    · subst same
      simp only [update_self] at found
      rw [atMost found]
      exact turn.issued
    · simp only [elsewhere same,wakes.call] at found
      exact inv.active q id found
  · grind [wakes.call,turn.own,inv.distinct]
  · grind [turn.unfinished,wakes.call,inv.finished,turn.own]
  · intro q
    by_cases same : q = p
    · subst same
      simpa only [update_self] using progress
    · simp only [elsewhere same]
      apply wakes.progress
      exact Frame.progress_append here (turn.own q same) (inv.progress q)
  · intro e member
    rcases mem_append.mp member with before | added
    · exact Event.counted_append here (turn.unfinished e before) (inv.counted e before)
    · exact counted e added

theorem pipewrite_inv {s : State P} {p : P} {call i : Nat} (inv : Inv s) (turn : Turn s p call)
    (sent : (acceptedBy call s.trace).length = i) (addr : BitVec 64) (n : Int) (env : Env) :
    Inv (pipewrite s p call addr n i env) := by
  have loop := pipewriteLoop_appends env addr (n - i).toNat i s.pipe inv.bound
  unfold pipewrite
  generalize pipewriteLoop env addr (n - i).toNat i s.pipe = stretch at loop ⊢
  obtain ⟨out,pi,bytes⟩ := stretch
  have stored : ∀ e ∈ bytes.map (Event.accepted call), e.call = call := by
    intro e member
    obtain ⟨ch,_,rfl⟩ := mem_map.mp member
    rfl
  have silent : ∀ e ∈ bytes.map (Event.accepted call), e.isReturn = false ∧ ∀ trace, e.counted trace := by
    intro e member
    obtain ⟨ch,_,rfl⟩ := mem_map.mp member
    exact ⟨rfl,fun _ => trivial⟩
  have contents : accepted s.trace ++ bytes = delivered s.trace ++ buffered pi := by
    rw [loop.contents,inv.fifo,append_assoc]
  have own : acceptedBy call (bytes.map (Event.accepted call)) = bytes := by
    rw [acceptedBy_same stored,accepted_map_accepted]
  cases out with
  | refused =>
    simp only [append_assoc]
    refine inv.stretch turn wakes_id ?_ loop.bound ?_ (.inl rfl) trivial ?_
    · intro e member
      rcases mem_append.mp member with byte | last
      · exact stored e byte
      · rw [mem_singleton.mp last]
        rfl
    · simpa using contents
    · intro e member
      rcases mem_append.mp member with byte | last
      · exact (silent e byte).2 _
      · rw [mem_singleton.mp last]
        intro negative
        omega
  | full j =>
    refine inv.stretch turn wakes_reader stored loop.bound ?_ (.inr ⟨rfl,fun e m => (silent e m).1⟩) ?_
      (fun e m => (silent e m).2 _)
    · simpa using contents
    · change (acceptedBy call (s.trace ++ bytes.map (Event.accepted call))).length = j
      rw [acceptedBy_append,own,length_append,sent,loop.full j rfl]
  | left j =>
    simp only [append_assoc]
    refine inv.stretch turn wakes_reader ?_ loop.bound ?_ (.inl rfl) trivial ?_
    · intro e member
      rcases mem_append.mp member with byte | last
      · exact stored e byte
      · rw [mem_singleton.mp last]
        rfl
    · simpa using contents
    · intro e member
      rcases mem_append.mp member with byte | last
      · exact (silent e byte).2 _
      · rw [mem_singleton.mp last]
        intro _
        have quiet : acceptedBy call [Event.wrote call j] = [] := by
          simp [acceptedBy,accepted,Event.call,Event.accepted?]
        rw [acceptedBy_append,acceptedBy_append,own,quiet,append_nil,length_append,sent,
          ← loop.left j rfl]

theorem piperead_inv {s : State P} {p : P} {call : Nat} (inv : Inv s) (turn : Turn s p call)
    (fresh : deliveredBy call s.trace = []) (addr : BitVec 64) (n : Int) (env : Env) :
    Inv (piperead s p call addr n env) := by
  unfold piperead
  split_ifs with waiting killed
  · refine inv.stretch turn wakes_id ?_ inv.bound ?_ (.inl rfl) trivial ?_
    · intro e member
      rw [mem_singleton.mp member]
      rfl
    · simpa using inv.fifo
    · intro e member
      rw [mem_singleton.mp member]
      intro negative
      omega
  · have slept : Inv { s with
        pipe := s.pipe
        frames := update (id ∘ s.frames) p (.reading call addr n true)
        trace := s.trace ++ [] } :=
      inv.stretch turn wakes_id (by simp) inv.bound (by simpa using inv.fifo) (.inr ⟨rfl,by simp⟩)
        (by simpa [Frame.progress] using fresh) (by simp)
    simpa using slept
  · have loop := pipereadCopy_removes env addr n.toNat 0 s.pipe inv.bound
    generalize pipereadCopy env addr n.toNat 0 s.pipe = stretch at loop ⊢
    obtain ⟨r,pi,bytes⟩ := stretch
    have taken : ∀ e ∈ bytes.map (Event.delivered call), e.call = call := by
      intro e member
      obtain ⟨ch,_,rfl⟩ := mem_map.mp member
      rfl
    have contents : accepted s.trace = delivered s.trace ++ (bytes ++ buffered pi) := by
      rw [← loop.contents,inv.fifo]
    simp only [append_assoc]
    refine inv.stretch turn wakes_writer ?_ loop.bound ?_ (.inl rfl) trivial ?_
    · intro e member
      rcases mem_append.mp member with byte | last
      · exact taken e byte
      · rw [mem_singleton.mp last]
        rfl
    · simpa using contents
    · intro e member
      rcases mem_append.mp member with byte | last
      · obtain ⟨ch,_,rfl⟩ := mem_map.mp byte
        trivial
      · rw [mem_singleton.mp last]
        intro nonnegative
        have quiet : deliveredBy call [Event.read call n r] = [] := by
          simp [deliveredBy,delivered,Event.call,Event.delivered?]
        rw [deliveredBy_append,deliveredBy_append,deliveredBy_same taken,delivered_map_delivered,quiet,fresh]
        rcases loop.result with exact | ⟨failed,_,_⟩
        · simpa using exact
        · simp only at failed
          omega

theorem step_inv {s s' : State P} {label : Label P} (inv : Inv s) (stepped : step s label = some s') :
    Inv s' := by
  cases label with
  | write p addr n env =>
    simp only [step] at stepped
    split_ifs at stepped with enabled
    obtain ⟨next,turn,none,_⟩ := inv.issue p
    rw [← Option.some.inj stepped]
    exact pipewrite_inv next turn (by simp [none]) addr n env
  | writeAgain p env =>
    simp only [step] at stepped
    split at stepped
    case h_1 call addr n i inside =>
      split_ifs at stepped with enabled
      rw [← Option.some.inj stepped]
      refine pipewrite_inv inv (inv.turn (by rw [inside]; rfl)) ?_ addr n env
      have progress := inv.progress p
      rwa [inside] at progress
    case h_2 => contradiction
  | read p addr n env =>
    simp only [step] at stepped
    split_ifs at stepped with enabled
    obtain ⟨next,turn,_,none⟩ := inv.issue p
    rw [← Option.some.inj stepped]
    exact piperead_inv next turn none addr n env
  | readAgain p env =>
    simp only [step] at stepped
    split at stepped
    case h_1 call addr n inside =>
      split_ifs at stepped with enabled
      rw [← Option.some.inj stepped]
      refine piperead_inv inv (inv.turn (by rw [inside]; rfl)) ?_ addr n env
      have progress := inv.progress p
      rwa [inside] at progress
    case h_2 => contradiction
  | close writable =>
    simp only [step] at stepped
    split_ifs at stepped with writeEnd opened opened
    all_goals
      rw [← Option.some.inj stepped]
      simp only [pipeclose,writeEnd,if_true,if_false,Bool.false_eq_true]
    · exact inv_wake inv (fun q => wakes_reader.call _) (fun q => wakes_reader.progress _ _ (inv.progress q))
        ⟨rfl,rfl,rfl⟩
    · exact inv_wake inv (fun q => wakes_writer.call _) (fun q => wakes_writer.progress _ _ (inv.progress q))
        ⟨rfl,rfl,rfl⟩
  | kkill p =>
    rw [← Option.some.inj stepped]
    refine inv_wake inv ?_ ?_ ⟨rfl,rfl,rfl⟩
    · intro q
      by_cases same : q = p
      · subst same
        simp only [update_self,wakes_reader.call,wakes_writer.call]
      · simp only [update_of_ne same]
    · grind [wakes_reader.progress,wakes_writer.progress,inv.progress,update_apply]

omit [DecidableEq P] in
theorem pipealloc_inv (data : Fin pipeSize → Byte) : Inv (pipealloc data : State P) := by
  refine ⟨?_,?_,?_,?_,?_,?_,fun _ => trivial,?_⟩ <;>
    simp [pipealloc,Frame.call?,held,buffered,accepted,delivered]

theorem reachable_inv {s : State P} (reached : (system P).Reachable s) : Inv s := by
  refine reached.invariant ?_ ?_
  · rintro s ⟨data,rfl⟩
    exact pipealloc_inv data
  · intro s label s' _ inv stepped
    exact step_inv inv stepped

def emitted (s s' : State P) : List Event := s'.trace.drop s.trace.length

theorem pipewrite_emits_no_read {s : State P} {p : P} {call : Nat} {addr : BitVec 64} {n : Int} {i : Nat}
    {env : Env} {id : Nat} {m r : Int} : Event.read id m r ∉ emitted s (pipewrite s p call addr n i env) := by
  unfold pipewrite
  generalize pipewriteLoop env addr (n - i).toNat i s.pipe = stretch
  obtain ⟨out,pi,bytes⟩ := stretch
  cases out <;> simp [emitted,append_assoc]

theorem piperead_zero {s : State P} {p : P} {call : Nat} {addr : BitVec 64} {n : Int} {env : Env} {id : Nat}
    {m : Int} (inv : Inv s) (positive : 0 < m)
    (returned : Event.read id m 0 ∈ emitted s (piperead s p call addr n env)) :
    (piperead s p call addr n env).pipe.nread = (piperead s p call addr n env).pipe.nwrite ∧
      (piperead s p call addr n env).pipe.writeopen = false := by
  unfold piperead at returned ⊢
  split_ifs at returned ⊢ with waiting killed
  · simp [emitted] at returned
  · simp [emitted] at returned
  · have zero : m = n ∧ (pipereadCopy env addr n.toNat 0 s.pipe).1 = 0 := by
      simp [emitted,append_assoc] at returned
      exact ⟨returned.2.1,returned.2.2.symm⟩
    obtain ⟨rfl,zero⟩ := zero
    obtain ⟨empty,same⟩ := pipereadCopy_zero env addr m.toNat s.pipe inv.bound (by omega) zero
    -- The waiting loop was left with the ring empty, so the write end is closed.
    have closed : s.pipe.writeopen = false := by
      rw [← Bool.not_eq_true]
      intro opened
      exact waiting ⟨empty,opened⟩
    change (pipereadCopy env addr m.toNat 0 s.pipe).2.1.nread =
        (pipereadCopy env addr m.toNat 0 s.pipe).2.1.nwrite ∧
      (pipereadCopy env addr m.toNat 0 s.pipe).2.1.writeopen = false
    rw [same]
    exact ⟨empty,closed⟩

theorem step_read_zero {s s' : State P} {label : Label P} (inv : Inv s) (stepped : step s label = some s')
    {id : Nat} {m : Int} (positive : 0 < m) (returned : Event.read id m 0 ∈ emitted s s') :
    s'.pipe.nread = s'.pipe.nwrite ∧ s'.pipe.writeopen = false := by
  cases label with
  | write p addr n env =>
    simp only [step] at stepped
    split_ifs at stepped with enabled
    rw [← Option.some.inj stepped] at returned
    exact absurd returned (pipewrite_emits_no_read (s := { s with calls := s.calls + 1 }))
  | writeAgain p env =>
    simp only [step] at stepped
    split at stepped
    case h_1 call addr n i inside =>
      split_ifs at stepped with enabled
      rw [← Option.some.inj stepped] at returned
      exact absurd returned pipewrite_emits_no_read
    case h_2 => contradiction
  | read p addr n env =>
    simp only [step] at stepped
    split_ifs at stepped with enabled
    rw [← Option.some.inj stepped] at returned ⊢
    exact piperead_zero (inv.issue p).1 positive returned
  | readAgain p env =>
    simp only [step] at stepped
    split at stepped
    case h_1 call addr n inside =>
      split_ifs at stepped with enabled
      rw [← Option.some.inj stepped] at returned ⊢
      exact piperead_zero inv positive returned
    case h_2 => contradiction
  | close writable =>
    simp only [step] at stepped
    split_ifs at stepped with writeEnd opened opened
    all_goals
      rw [← Option.some.inj stepped] at returned
      simp [emitted,pipeclose] at returned
  | kkill p =>
    rw [← Option.some.inj stepped] at returned
    simp [emitted] at returned

/-- In every reachable state the ring holds between 0 and `PIPESIZE` bytes; what
was delivered followed by what is buffered is what was accepted; a call that
returned a count moved exactly that many bytes; and a positive read returns 0
only on an empty pipe whose write end is closed. -/
theorem pipe_fifo {s : State P} (reached : (system P).Reachable s) :
    held s.pipe.nread s.pipe.nwrite ≤ pipeSize ∧
    delivered s.trace ++ buffered s.pipe = accepted s.trace ∧
    (∀ call r, Event.wrote call r ∈ s.trace → 0 ≤ r → r = (acceptedBy call s.trace).length) ∧
    (∀ call n r, Event.read call n r ∈ s.trace → 0 ≤ r → r = (deliveredBy call s.trace).length) ∧
    (∀ label s', (system P).step s label s' → ∀ call n, Event.read call n 0 ∈ emitted s s' → 0 < n →
      s'.pipe.nread = s'.pipe.nwrite ∧ s'.pipe.writeopen = false) := by
  have inv := reachable_inv reached
  refine ⟨inv.bound,inv.fifo.symm,?_,?_,?_⟩
  · intro call r member
    exact inv.counted _ member
  · intro call n r member
    exact inv.counted _ member
  · intro label s' stepped call n returned positive
    exact step_read_zero inv stepped positive returned

/-- One byte written by a process of a two-process system is still buffered. -/
theorem pipe_fifo_one_write : ∃ s : State Bool, (system Bool).Reachable s ∧
    accepted s.trace = [7] ∧ delivered s.trace ++ buffered s.pipe = [7] := by
  let env : Env := ⟨fun _ => some 7,fun _ _ => true,fun _ => false⟩
  let fresh : State Bool := pipealloc (fun _ => 5)
  have first : (system Bool).Reachable fresh := .start _ ⟨_,rfl⟩
  have written : step fresh (.write true 4096 1 env) =
      some (pipewrite { fresh with calls := 1 } true 0 4096 1 0 env) := rfl
  have second : (system Bool).Reachable _ := .next _ _ _ first written
  have stored : accepted (pipewrite { fresh with calls := 1 } true 0 4096 1 0 env).trace = [7] := by
    decide +kernel
  exact ⟨_,second,stored,stored ▸ (pipe_fifo second).2.1⟩

end Xv6.Pipes
