import Xv6.Console.Model

/-! The line discipline of the console. The abstract editor keeps a list of the
characters that have been committed, a cursor of the readers in it, and the line
that is being edited; the ring with its three indexes runs in step with it. -/
namespace Xv6.Console
open Lib Lib.Ring Function

/-! The editor. -/

structure Editor where
  committed : List Byte -- all characters that were ever committed
  taken : Nat -- how many of them readers have taken
  line : List Byte

namespace Editor

def pending (ed : Editor) : List Byte := ed.committed.drop ed.taken

def next (ed : Editor) : Option Byte := ed.committed[ed.taken]?

def intr (c : Byte) (ed : Editor) : Editor :=
  if c = 0 ∨ c = ctrlP then ed
  else if c = ctrlU then { ed with line := [] }
  else if c = ctrlH ∨ c = delete then { ed with line := ed.line.dropLast }
  else if ed.pending.length + ed.line.length < inputBufSize then
    let c := if c = carriageReturn then newline else c
    let line := ed.line ++ [c]
    if c = newline ∨ c = ctrlD ∨ ed.pending.length + line.length = inputBufSize then
      { ed with committed := ed.committed ++ line, line := [] }
    else { ed with line := line }
  else ed

def read : (todo i : Nat) → Editor → ReadEnd × Editor × List Byte
  | 0, i, ed => (.returned i,ed,[])
  | todo + 1, i, ed =>
    match ed.next with
    | none => (.asleep i,ed,[])
    | some c =>
      let after := { ed with taken := ed.taken + 1 }
      if c = ctrlD then (.returned i,if 0 < i then ed else after,[])
      else if c = newline then (.returned (i + 1 : Nat),after,[c])
      else
        let (ended,ed,stored) := read todo (i + 1) after
        (ended,ed,c :: stored)

end Editor

/-! Calls of consoleread by any processes between interrupts. -/

structure Device (κ : Type) where
  intr : Byte → κ → κ
  read : (dst : BitVec 64) → (todo i : Nat) → κ → ReadEnd × κ × List Byte
  passed : κ → κ → Nat -- the characters that a stretch has taken out
  next : κ → Option Byte -- the next character for a reader

def calm : Pipes.Env := ⟨fun _ => none,fun _ _ => true,fun _ => false⟩

def ring : Device Cons where
  intr := consoleintr
  read := consolereadLoop calm
  passed := fun before after => held before.r after.r
  next := fun cons => if cons.r = cons.w then none else some (cons.buf (slot inputBufSize cons.r))

def editor : Device Editor where
  intr := Editor.intr
  read := fun _ => Editor.read
  passed := fun before after => after.taken - before.taken
  next := Editor.next

structure Call where
  dst : BitVec 64
  n : Int
  got : List Byte -- what it has stored so far

structure Stretch (P : Type) where
  p : P
  n : Int
  got : List Byte
  stored : List Byte
  passed : Nat
  result : Option Int
  next : Option Byte

structure State (P κ : Type) where
  dev : κ
  calls : P → Option Call -- the calls that sleep
  trace : List (Stretch P)

inductive Label (P : Type)
  | intr (c : Byte)
  | read (p : P) (dst : BitVec 64) (n : Int)
  | resume (p : P)

section system
variable {P κ : Type} [DecidableEq P]

def ReadEnd.result : ReadEnd → Option Int
  | .returned r => some r
  | .asleep _ => none

def stretch (device : Device κ) (s : State P κ) (p : P) (call : Call) : State P κ :=
  let (ended,dev,stored) := device.read call.dst (call.n.toNat - call.got.length) call.got.length s.dev
  let call := { call with got := call.got ++ stored }
  { dev := dev
    calls := update s.calls p (match ended with
      | .returned _ => none
      | .asleep _ => some call)
    trace := s.trace ++ [⟨p,call.n,call.got,stored,device.passed s.dev dev,ended.result,device.next dev⟩] }

def step (device : Device κ) (s : State P κ) : Label P → Option (State P κ)
  | .intr c => some { s with dev := device.intr c s.dev }
  | .read p dst n => if (s.calls p).isNone then some (stretch device s p ⟨dst,n,[]⟩) else none
  | .resume p => (s.calls p).map (stretch device s p)

def boot (dev : κ) : State P κ := ⟨dev,fun _ => none,[]⟩

end system

/-! The ring and the editor in step. -/

structure Represents (cons : Cons) (ed : Editor) : Prop where
  taken : ed.taken ≤ ed.committed.length
  contents : window cons.buf cons.r (held cons.r cons.e) = ed.pending ++ ed.line
  ready : held cons.r cons.w = ed.pending.length
  room : held cons.r cons.e ≤ inputBufSize
  plain : newline ∉ ed.line

namespace Represents
variable {cons : Cons} {ed : Editor}

theorem length (rep : Represents cons ed) : held cons.r cons.e = ed.pending.length + ed.line.length := by
  rw [← List.length_append,← rep.contents,length_window]

theorem edited (rep : Represents cons ed) : cons.e = cons.w ↔ ed.line = [] := by
  have length := rep.length
  have ready := rep.ready
  constructor
  · intro same
    rw [same] at length
    exact List.eq_nil_of_length_eq_zero (by omega)
  · intro none
    rw [none,List.length_nil] at length
    exact held_inj (by omega : held cons.r cons.e = held cons.r cons.w)

theorem uncommitted (rep : Represents cons ed) : held cons.w cons.e = ed.line.length := by
  have length := rep.length
  have ready := rep.ready
  have split := @held_split 32 cons.r cons.w cons.e (by omega)
  omega

theorem back (rep : Represents cons ed) {line : List Byte} {c : Byte} (last : ed.line = line ++ [c]) :
    cons.buf (slot inputBufSize (cons.e - 1)) = c ∧ Represents { cons with e := cons.e - 1 } { ed with line := line } := by
  have length := rep.length
  rw [last,List.length_append,List.length_singleton] at length
  have nonempty : cons.r ≠ cons.e := by
    intro same
    rw [held_eq_zero.mpr same] at length
    omega
  have fewer := held_back nonempty
  have contents := rep.contents
  rw [window_back cons.buf nonempty,last,← List.append_assoc] at contents
  obtain ⟨before,here⟩ := List.append_inj' contents rfl
  refine ⟨(List.cons.inj here).1,rep.taken,before,rep.ready,?_,fun inside => rep.plain ?_⟩
  · have room := rep.room
    change held cons.r (cons.e - 1) ≤ _
    omega
  · rw [last]
    exact List.mem_append_left _ inside

theorem kill {turns : Nat} (rep : Represents cons ed) (all : ed.line.length = turns) :
    Represents (killLine turns cons) { ed with line := [] } := by
  induction turns generalizing cons ed with
  | zero =>
    have none := List.eq_nil_of_length_eq_zero all
    obtain ⟨committed,taken,line⟩ := ed
    cases none
    exact rep
  | succ turns ih =>
    have some : ed.line ≠ [] := by
      intro none
      rw [none] at all
      cases all
    have split := (List.dropLast_append_getLast some).symm
    obtain ⟨here,rep'⟩ := rep.back split
    rw [killLine,if_pos]
    · exact @ih { cons with e := cons.e - 1 } { ed with line := ed.line.dropLast } rep' (by rw [List.length_dropLast,all]; rfl)
    · refine ⟨fun same => some (rep.edited.mp same),?_⟩
      rw [here]
      exact fun same => rep.plain (same ▸ List.getLast_mem some)

private theorem buf_divides : inputBufSize ∣ 2^32 := ⟨2^25,by decide⟩

theorem push (rep : Represents cons ed) (room : held cons.r cons.e < inputBufSize) (c : Byte) :
    held cons.r (cons.e + 1) = ed.pending.length + (ed.line ++ [c]).length ∧
    window (update cons.buf (slot inputBufSize cons.e) c) cons.r (held cons.r (cons.e + 1)) =
      ed.pending ++ (ed.line ++ [c]) := by
  have pushed := window_push buf_divides (by decide) cons.buf cons.r cons.e c room
  rw [rep.contents,List.append_assoc] at pushed
  refine ⟨?_,pushed⟩
  rw [← List.length_append,← pushed,length_window]

theorem pending_push (ed : Editor) (inside : ed.taken ≤ ed.committed.length) (line : List Byte) :
    Editor.pending { ed with committed := ed.committed ++ line, line := [] } = ed.pending ++ line :=
  List.drop_append_of_le_length inside

/-- An interrupt moves the ring and the editor alike. -/
theorem intr (rep : Represents cons ed) (c : Byte) : Represents (consoleintr c cons) (ed.intr c) := by
  unfold consoleintr Editor.intr
  by_cases print : c = ctrlP
  · rw [if_pos print,if_pos (.inr print)]
    exact rep
  rw [if_neg print]
  by_cases kills : c = ctrlU
  · rw [if_pos kills,if_neg (by rw [kills]; decide),if_pos kills]
    exact rep.kill rep.uncommitted.symm
  rw [if_neg kills]
  by_cases erases : c = ctrlH ∨ c = delete
  · have typed : ¬(c = 0 ∨ c = ctrlP) := by rcases erases with rfl | rfl <;> decide
    rw [if_pos erases,if_neg typed,if_neg kills,if_pos erases]
    by_cases some : cons.e ≠ cons.w
    · rw [if_pos some]
      have nonempty : ed.line ≠ [] := fun none => some (rep.edited.mpr none)
      exact (rep.back (List.dropLast_append_getLast nonempty).symm).2
    · rw [if_neg some]
      have none : ed.line = [] := rep.edited.mp (not_not.mp some)
      obtain ⟨committed,taken,line⟩ := ed
      cases none
      exact rep
  rw [if_neg erases]
  by_cases null : c = 0
  · rw [if_neg fun typed => typed.1 null,if_pos (.inl null)]
    exact rep
  rw [if_neg (show ¬(c = 0 ∨ c = ctrlP) from fun either => either.elim null print),if_neg kills,if_neg erases,← rep.length]
  by_cases room : held cons.r cons.e < inputBufSize
  · rw [if_pos ⟨null,room⟩,if_pos room]
    generalize (if c = carriageReturn then newline else c) = ch
    obtain ⟨length,contents⟩ := rep.push room ch
    have most : held cons.r (cons.e + 1) ≤ inputBufSize := by
      have length' := rep.length
      rw [List.length_append,List.length_singleton] at length
      omega
    dsimp only
    rw [← length]
    by_cases commits : ch = newline ∨ ch = ctrlD ∨ held cons.r (cons.e + 1) = inputBufSize
    · rw [if_pos commits,if_pos commits]
      have pending := pending_push ed rep.taken (ed.line ++ [ch])
      refine ⟨?_,?_,?_,most,List.not_mem_nil⟩
      · rw [List.length_append]
        exact Nat.le_add_right_of_le rep.taken
      · rw [pending,List.append_nil]
        exact contents
      · rw [pending,List.length_append]
        exact length
    · rw [if_neg commits,if_neg commits]
      refine ⟨rep.taken,contents,rep.ready,most,fun inside => ?_⟩
      rcases List.mem_append.mp inside with old | new
      · exact rep.plain old
      · exact commits (.inl (List.mem_singleton.mp new).symm)
  · rw [if_neg fun typed => room typed.2,if_neg room]
    exact rep

theorem next (rep : Represents cons ed) : ring.next cons = editor.next ed := by
  change (if cons.r = cons.w then none else some (cons.buf (slot inputBufSize cons.r))) = ed.committed[ed.taken]?
  have ready := rep.ready
  rw [Editor.pending,List.length_drop] at ready
  by_cases empty : cons.r = cons.w
  · rw [if_pos empty,List.getElem?_eq_none]
    rw [held_eq_zero.mpr empty] at ready
    omega
  · have some : held cons.r cons.w ≠ 0 := fun zero => empty (held_eq_zero.mp zero)
    have inside : ed.taken < ed.committed.length := by omega
    have nonempty : cons.r ≠ cons.e := by
      intro same
      have length := rep.length
      rw [held_eq_zero.mpr same,Editor.pending,List.length_drop] at length
      omega
    have contents := rep.contents
    rw [window_pop cons.buf nonempty,Editor.pending,List.drop_eq_getElem_cons inside] at contents
    rw [if_neg empty,List.getElem?_eq_getElem inside,(List.cons.inj contents).1]

theorem pop (rep : Represents cons ed) {c : Byte} (here : ed.next = some c) :
    cons.r ≠ cons.w ∧ Represents { cons with r := cons.r + 1 } { ed with taken := ed.taken + 1 } := by
  obtain ⟨inside,-⟩ := List.getElem?_eq_some_iff.mp here
  have ready := rep.ready
  have length := rep.length
  have pending : ed.pending = ed.committed[ed.taken] :: Editor.pending { ed with taken := ed.taken + 1 } :=
    List.drop_eq_getElem_cons inside
  rw [pending,List.length_cons] at ready length
  have nonempty : cons.r ≠ cons.w := by
    intro same
    rw [held_eq_zero.mpr same] at ready
    omega
  have nonempty' : cons.r ≠ cons.e := by
    intro same
    rw [held_eq_zero.mpr same] at length
    omega
  have fewer := held_pop nonempty
  have fewer' := held_pop nonempty'
  have contents := rep.contents
  rw [window_pop cons.buf nonempty',pending] at contents
  refine ⟨nonempty,inside,(List.cons.inj contents).2,?_,?_,rep.plain⟩
  · change held (cons.r + 1) cons.w = _
    omega
  · have room := rep.room
    change held (cons.r + 1) cons.e ≤ _
    omega

/-- A stretch of consoleread moves the ring and the editor alike. -/
theorem read (rep : Represents cons ed) (dst : BitVec 64) (todo i : Nat) :
    (consolereadLoop calm dst todo i cons).1 = (ed.read todo i).1 ∧
    (consolereadLoop calm dst todo i cons).2.2 = (ed.read todo i).2.2 ∧
    Represents (consolereadLoop calm dst todo i cons).2.1 (ed.read todo i).2.1 ∧ ed.taken ≤ (ed.read todo i).2.1.taken ∧
    (consolereadLoop calm dst todo i cons).2.1.r = cons.r + BitVec.ofNat 32 ((ed.read todo i).2.1.taken - ed.taken) := by
  have still : cons.r = cons.r + BitVec.ofNat 32 (ed.taken - ed.taken) := by rw [Nat.sub_self]; simp
  have moved : cons.r + 1 = cons.r + BitVec.ofNat 32 (ed.taken + 1 - ed.taken) := by rw [Nat.add_sub_cancel_left]; rfl
  induction todo generalizing i cons ed with
  | zero => exact ⟨rfl,rfl,rep,Nat.le_refl _,still⟩
  | succ todo ih =>
    have same := rep.next
    change (if cons.r = cons.w then none else some (cons.buf (slot inputBufSize cons.r))) = ed.next at same
    rw [consolereadLoop,Editor.read]
    cases here : ed.next with
    | none =>
      rw [here] at same
      have empty : cons.r = cons.w := by
        by_contra other
        rw [if_neg other] at same
        cases same
      rw [if_pos empty,if_neg (show ¬calm.killed i = true from Bool.false_ne_true)]
      exact ⟨rfl,rfl,rep,Nat.le_refl _,still⟩
    | some c =>
      obtain ⟨nonempty,rep'⟩ := rep.pop here
      rw [here,if_neg nonempty] at same
      have char := Option.some.inj same
      rw [if_neg nonempty]
      dsimp only
      rw [char]
      by_cases eof : c = ctrlD
      · rw [if_pos eof,if_pos eof]
        by_cases more : 0 < i
        · rw [if_pos more,if_pos more]
          exact ⟨rfl,rfl,rep,Nat.le_refl _,still⟩
        · rw [if_neg more,if_neg more]
          exact ⟨rfl,rfl,rep',Nat.le_succ _,moved⟩
      rw [if_neg eof,if_neg eof,if_neg (show ¬calm.copyout (dst + BitVec.ofNat 64 i) c = false from Bool.false_ne_true.symm)]
      by_cases line : c = newline
      · rw [if_pos line,if_pos line]
        exact ⟨rfl,rfl,rep',Nat.le_succ _,moved⟩
      rw [if_neg line,if_neg line]
      obtain ⟨ended,stored,rest,later,place⟩ := ih rep' (i + 1) (by rw [Nat.sub_self]; simp) (by rw [Nat.add_sub_cancel_left]; rfl)
      refine ⟨ended,congrArg (c :: ·) stored,rest,Nat.le_of_succ_le later,?_⟩
      refine place.trans ?_
      change cons.r + 1 + BitVec.ofNat 32 (_ - (ed.taken + 1)) = _
      rw [BitVec.add_assoc]
      refine congrArg (cons.r + ·) ?_
      change BitVec.ofNat 32 1 + _ = _
      rw [← BitVec.ofNat_add]
      change ed.taken + 1 ≤ _ at later
      generalize (Editor.read todo (i + 1) { ed with taken := ed.taken + 1 }).2.1.taken = last at later ⊢
      exact congrArg (BitVec.ofNat 32) (by omega)

theorem passed {cons' : Cons} {ed' : Editor} (rep : Represents cons ed) (rep' : Represents cons' ed')
    (committed : ed'.committed = ed.committed) (later : ed.taken ≤ ed'.taken)
    (place : cons'.r = cons.r + BitVec.ofNat 32 (ed'.taken - ed.taken)) : ring.passed cons cons' = editor.passed ed ed' := by
  change held cons.r cons'.r = ed'.taken - ed.taken
  have most := rep.room
  have length := rep.length
  have inside := rep'.taken
  rw [committed] at inside
  rw [Editor.pending,List.length_drop] at length
  have small : inputBufSize < 2 ^ 32 := by decide
  rw [held,place,BitVec.add_comm,BitVec.add_sub_cancel,BitVec.toNat_ofNat]
  exact Nat.mod_eq_of_lt (by omega)

end Represents

theorem Editor.committed_read (todo i : Nat) (ed : Editor) :
    (ed.read todo i).2.1.committed = ed.committed ∧ (ed.read todo i).2.1.line = ed.line := by
  induction todo generalizing i ed with
  | zero => exact ⟨rfl,rfl⟩
  | succ todo ih =>
    rw [Editor.read]
    cases ed.next with
    | none => exact ⟨rfl,rfl⟩
    | some c =>
      dsimp only
      split_ifs
      · exact ⟨rfl,rfl⟩
      · exact ⟨rfl,rfl⟩
      · exact ⟨rfl,rfl⟩
      · exact ih (i + 1) { ed with taken := ed.taken + 1 }

section simulation
variable {P : Type} {s : State P Cons} {t : State P Editor}

structure Matches (s : State P Cons) (t : State P Editor) : Prop where
  dev : Represents s.dev t.dev
  calls : s.calls = t.calls
  trace : s.trace = t.trace

variable [DecidableEq P]

theorem Matches.stretch (same : Matches s t) (p : P) (call : Call) : Matches (stretch ring s p call) (stretch editor t p call) := by
  obtain ⟨ended,stored,rep,later,place⟩ := same.dev.read call.dst (call.n.toNat - call.got.length) call.got.length
  have committed := (Editor.committed_read (call.n.toNat - call.got.length) call.got.length t.dev).1
  have passed := same.dev.passed rep committed later place
  have next := rep.next
  refine ⟨rep,?_,?_⟩
  · change update s.calls p _ = update t.calls p _
    rw [same.calls]
    refine congrArg (update t.calls p) ?_
    rw [ended,stored]
  · change s.trace ++ [_] = t.trace ++ [_]
    rw [same.trace]
    refine congrArg (t.trace ++ [·]) ?_
    dsimp only [ring,editor] at passed next ⊢
    rw [ended,stored,passed,next]

theorem Matches.step (same : Matches s t) {label : Label P} {s' : State P Cons} (stepped : step ring s label = some s') :
    ∃ t', Console.step editor t label = some t' ∧ Matches s' t' := by
  cases label with
  | intr c =>
    cases stepped
    exact ⟨_,rfl,same.dev.intr c,same.calls,same.trace⟩
  | read p dst n =>
    rw [Console.step] at stepped
    split_ifs at stepped with idle
    cases stepped
    refine ⟨_,?_,same.stretch p ⟨dst,n,[]⟩⟩
    rw [Console.step,← same.calls,if_pos idle]
  | resume p =>
    obtain ⟨call,asleep,rfl⟩ := Option.map_eq_some_iff.mp stepped
    refine ⟨_,?_,same.stretch p call⟩
    rw [Console.step,← same.calls,asleep]
    rfl

theorem Matches.run (same : Matches s t) {labels : List (Label P)} {s' : State P Cons}
    (ran : System.run (Console.step ring) s labels = some s') :
    ∃ t', System.run (Console.step editor) t labels = some t' ∧ Matches s' t' := by
  induction labels generalizing s t with
  | nil =>
    cases ran
    exact ⟨t,rfl,same⟩
  | cons label rest ih =>
    obtain ⟨middle,stepped,ran⟩ := Option.bind_eq_some_iff.mp ran
    obtain ⟨t1,first,same1⟩ := same.step stepped
    obtain ⟨t2,more,same2⟩ := ih same1 ran
    exact ⟨t2,by rw [System.run,first]; exact more,same2⟩

end simulation

/-! What the readers of the editor get. -/

/-- How a stretch of a call that had stored i characters ends, with what it
stored, the next character and the number of characters it has passed. -/
inductive Ending (todo i : Nat) (stored : List Byte) (next : Option Byte) : ReadEnd → Nat → Prop
  | waits (short : stored.length < todo) (plain : newline ∉ stored) (none : next = none) :
      Ending todo i stored next (.asleep (i + stored.length)) stored.length
  | full (all : stored.length = todo) (plain : newline ∉ stored) :
      Ending todo i stored next (.returned (i + stored.length : Nat)) stored.length
  | line {text : List Byte} (last : stored = text ++ [newline]) (plain : newline ∉ text) :
      Ending todo i stored next (.returned (i + stored.length : Nat)) stored.length
  | beforeEof (nonempty : 0 < i + stored.length) (plain : newline ∉ stored) (eof : next = some ctrlD) :
      Ending todo i stored next (.returned (i + stored.length : Nat)) stored.length
  | eof (first : i = 0) (none : stored = []) : Ending todo i stored next (.returned 0) 1

theorem Ending.cons {todo i passed : Nat} {stored : List Byte} {next : Option Byte} {ended : ReadEnd} {c : Byte}
    (ending : Ending todo (i + 1) stored next ended passed) (plain : c ≠ newline) :
    Ending (todo + 1) i (c :: stored) next ended (passed + 1) := by
  have count : i + 1 + stored.length = i + (c :: stored).length := by rw [List.length_cons]; omega
  have absent : ∀ text : List Byte, newline ∉ text → newline ∉ c :: text := by
    intro text other inside
    rcases List.mem_cons.mp inside with same | more
    · exact plain same.symm
    · exact other more
  cases ending with
  | waits short plain none =>
    rw [count]
    exact .waits (Nat.succ_lt_succ short) (absent _ plain) none
  | full all plain =>
    rw [count]
    exact .full (congrArg Nat.succ all) (absent _ plain)
  | line last plain =>
    rw [count]
    exact .line (congrArg (c :: ·) last) (absent _ plain)
  | beforeEof some plain eof =>
    rw [count]
    exact .beforeEof (by rw [← count]; exact some) (absent _ plain) eof
  | eof first none => omega

def removed (stored : List Byte) (passed : Nat) : List Byte := stored ++ List.replicate (passed - stored.length) ctrlD

theorem Editor.pending_next {ed : Editor} {c : Byte} (here : ed.next = some c) :
    ed.pending = c :: Editor.pending { ed with taken := ed.taken + 1 } := by
  obtain ⟨inside,rfl⟩ := List.getElem?_eq_some_iff.mp here
  exact List.drop_eq_getElem_cons inside

theorem Editor.read_ending (todo i : Nat) (ed : Editor) :
    ∃ passed, Ending todo i (ed.read todo i).2.2 (ed.read todo i).2.1.next (ed.read todo i).1 passed ∧
      (ed.read todo i).2.1.taken = ed.taken + passed ∧ ctrlD ∉ (ed.read todo i).2.2 ∧
      ed.pending = removed (ed.read todo i).2.2 passed ++ (ed.read todo i).2.1.pending := by
  induction todo generalizing i ed with
  | zero => exact ⟨0,.full rfl List.not_mem_nil,rfl,List.not_mem_nil,rfl⟩
  | succ todo ih =>
    rw [Editor.read]
    cases here : ed.next with
    | none => exact ⟨0,.waits (Nat.succ_pos _) List.not_mem_nil here,rfl,List.not_mem_nil,rfl⟩
    | some c =>
      have split := Editor.pending_next here
      dsimp only
      by_cases eof : c = ctrlD
      · rw [if_pos eof]
        subst eof
        by_cases more : 0 < i
        · rw [if_pos more]
          exact ⟨0,.beforeEof more List.not_mem_nil here,rfl,List.not_mem_nil,rfl⟩
        · rw [if_neg more]
          have first : i = 0 := by omega
          subst first
          exact ⟨1,.eof rfl rfl,rfl,List.not_mem_nil,split⟩
      rw [if_neg eof]
      by_cases line : c = newline
      · rw [if_pos line]
        subst line
        exact ⟨1,.line (show [newline] = [] ++ [newline] from rfl) List.not_mem_nil,rfl,(by decide : ctrlD ∉ [newline]),split⟩
      rw [if_neg line]
      obtain ⟨passed,ending,taken,eofless,rest⟩ := ih (i + 1) { ed with taken := ed.taken + 1 }
      refine ⟨passed + 1,ending.cons line,?_,?_,?_⟩
      · rw [taken]
        change ed.taken + 1 + passed = ed.taken + (passed + 1)
        omega
      · intro inside
        rcases List.mem_cons.mp inside with same | more
        · exact eof same.symm
        · exact eofless more
      · rw [split,rest]
        unfold removed
        rw [List.length_cons,Nat.add_sub_add_right]
        rfl

section calls
variable {P : Type} {t t' : State P Editor}

/-- How a stretch ends, in terms of the whole call: it waits for more, it has
stored n characters, it ends with a newline, a ^D follows what it stored, or the
^D is all it read. -/
inductive Stretch.Ends (st : Stretch P) : Prop
  | waits (result : st.result = none) (short : st.got.length < st.n.toNat) (plain : newline ∉ st.got) (none : st.next = none)
      (exact : st.passed = st.stored.length)
  | full (result : st.result = some (st.got.length : Int)) (all : st.got.length = st.n.toNat) (plain : newline ∉ st.got)
      (exact : st.passed = st.stored.length)
  | line {text : List Byte} (result : st.result = some (st.got.length : Int)) (last : st.got = text ++ [newline])
      (plain : newline ∉ text) (exact : st.passed = st.stored.length)
  | beforeEof (result : st.result = some (st.got.length : Int)) (nonempty : st.got ≠ []) (plain : newline ∉ st.got)
      (eof : st.next = some ctrlD) (exact : st.passed = st.stored.length)
  | eof (result : st.result = some 0) (none : st.got = []) (one : st.passed = 1)

structure Sound (t : State P Editor) : Prop where
  taken : t.dev.taken ≤ t.dev.committed.length
  delivered : (t.trace.flatMap fun st => removed st.stored st.passed) = t.dev.committed.take t.dev.taken
  calls : ∀ p call, t.calls p = some call → call.got.length < call.n.toNat ∧ newline ∉ call.got ∧ ctrlD ∉ call.got
  ends : ∀ st ∈ t.trace, ctrlD ∉ st.got ∧ st.Ends

theorem length_removed {stored : List Byte} {passed : Nat} (least : stored.length ≤ passed) :
    (removed stored passed).length = passed := by
  rw [removed,List.length_append,List.length_replicate]
  omega

theorem Ending.least {todo i passed : Nat} {stored : List Byte} {next : Option Byte} {ended : ReadEnd}
    (ending : Ending todo i stored next ended passed) : stored.length ≤ passed := by
  cases ending with
  | eof first none =>
    rw [none]
    exact Nat.zero_le _
  | _ => exact Nat.le_refl _

theorem Ending.ends {todo passed : Nat} {stored got : List Byte} {next : Option Byte} {ended : ReadEnd} {n : Int} (p : P)
    (ending : Ending todo got.length stored next ended passed) (rest : todo = n.toNat - got.length)
    (inside : got.length ≤ n.toNat) (plain : newline ∉ got) :
    Stretch.Ends ⟨p,n,got ++ stored,stored,passed,ended.result,next⟩ := by
  have count : (got ++ stored).length = got.length + stored.length := List.length_append
  have absent : ∀ text : List Byte, newline ∉ text → newline ∉ got ++ text :=
    fun text other both => (List.mem_append.mp both).elim plain other
  cases ending with
  | waits short free none => exact .waits rfl (by dsimp only; omega) (absent _ free) none rfl
  | full all free => exact .full (by rw [← count]; rfl) (by dsimp only; omega) (absent _ free) rfl
  | line last free =>
    refine .line (by rw [← count]; rfl) ?_ (absent _ free) rfl
    change got ++ stored = _
    rw [last,← List.append_assoc]
  | beforeEof some free eof =>
    refine .beforeEof (by rw [← count]; rfl) (fun none => ?_) (absent _ free) eof rfl
    change got ++ stored = [] at none
    rw [none] at count
    rw [← count] at some
    exact absurd some (Nat.lt_irrefl _)
  | eof first none =>
    refine .eof rfl ?_ rfl
    change got ++ stored = []
    rw [none,List.append_nil]
    exact List.eq_nil_of_length_eq_zero first

theorem boot_sound : Sound (boot ⟨[],0,[]⟩ : State P Editor) := ⟨Nat.le_refl _,rfl,nofun,nofun⟩

theorem boot_matches {start : Cons} (empty : start.r = start.w ∧ start.w = start.e) :
    Matches (boot start : State P Cons) (boot ⟨[],0,[]⟩) := by
  have none : held start.r start.e = 0 := held_eq_zero.mpr (empty.1.trans empty.2)
  refine ⟨⟨Nat.le_refl _,?_,held_eq_zero.mpr empty.1,?_,List.not_mem_nil⟩,rfl,rfl⟩
  · change window start.buf start.r (held start.r start.e) = []
    rw [none]
    rfl
  · change held start.r start.e ≤ _
    rw [none]
    exact Nat.zero_le _

variable [DecidableEq P]

theorem Sound.stretch (sound : Sound t) (p : P) {call : Call} (inside : call.got.length ≤ call.n.toNat)
    (plain : newline ∉ call.got) (eofless : ctrlD ∉ call.got) : Sound (stretch editor t p call) := by
  obtain ⟨passed,ending,taken,free,split⟩ := Editor.read_ending (call.n.toNat - call.got.length) call.got.length t.dev
  have committed := (Editor.committed_read (call.n.toNat - call.got.length) call.got.length t.dev).1
  have moved : (Editor.read (call.n.toNat - call.got.length) call.got.length t.dev).2.1.taken - t.dev.taken = passed := by omega
  have least := length_removed ending.least
  unfold Console.stretch editor
  dsimp only
  rw [moved]
  generalize Editor.read (call.n.toNat - call.got.length) call.got.length t.dev = out at *
  obtain ⟨ended,ed,stored⟩ := out
  dsimp only at *
  have clean : ctrlD ∉ call.got ++ stored := fun both => (List.mem_append.mp both).elim eofless free
  have length := congrArg List.length split
  rw [List.length_append,least,Editor.pending,Editor.pending,List.length_drop,List.length_drop,committed] at length
  have before := sound.taken
  have most : passed ≤ t.dev.committed.length - t.dev.taken := by omega
  refine ⟨by rw [committed,taken]; omega,?_,fun q other asleep => ?_,fun st member => ?_⟩
  · rw [List.flatMap_append,sound.delivered,committed,taken,List.take_add]
    refine congrArg (t.dev.committed.take t.dev.taken ++ ·) ?_
    change _ = t.dev.pending.take passed
    rw [split,List.take_append_of_le_length (Nat.le_of_eq least.symm),List.take_of_length_le (Nat.le_of_eq least)]
    exact List.append_nil _
  · dsimp only at asleep
    rw [update_apply] at asleep
    split_ifs at asleep with mine
    · cases ending with
      | waits short wait none =>
        cases asleep
        refine ⟨?_,fun both => (List.mem_append.mp both).elim plain wait,clean⟩
        change (call.got ++ stored).length < call.n.toNat
        rw [List.length_append]
        omega
      | full all wait => cases asleep
      | line last wait => cases asleep
      | beforeEof some wait eof => cases asleep
      | eof first none => cases asleep
    · exact sound.calls q other asleep
  · rcases List.mem_append.mp member with old | new
    · exact sound.ends st old
    · rw [List.mem_singleton.mp new]
      exact ⟨clean,ending.ends p rfl inside plain⟩

theorem Editor.intr_taken (c : Byte) {ed : Editor} : (ed.intr c).taken = ed.taken ∧ ∃ more, (ed.intr c).committed = ed.committed ++ more := by
  unfold Editor.intr
  dsimp only
  split_ifs
  all_goals first
    | exact ⟨rfl,_,rfl⟩
    | exact ⟨rfl,[],(List.append_nil _).symm⟩

theorem Sound.step (sound : Sound t) {label : Label P} (stepped : step editor t label = some t') : Sound t' := by
  cases label with
  | intr c =>
    cases stepped
    obtain ⟨taken,more,committed⟩ := @Editor.intr_taken c t.dev
    refine ⟨?_,?_,sound.calls,sound.ends⟩
    · change (t.dev.intr c).taken ≤ (t.dev.intr c).committed.length
      rw [taken,committed,List.length_append]
      exact Nat.le_add_right_of_le sound.taken
    · change _ = (t.dev.intr c).committed.take (t.dev.intr c).taken
      rw [taken,committed,List.take_append_of_le_length sound.taken]
      exact sound.delivered
  | read p dst n =>
    rw [Console.step] at stepped
    split_ifs at stepped
    cases stepped
    exact sound.stretch p (Nat.zero_le _) List.not_mem_nil List.not_mem_nil
  | resume p =>
    obtain ⟨call,asleep,rfl⟩ := Option.map_eq_some_iff.mp stepped
    obtain ⟨short,plain,eofless⟩ := sound.calls p call asleep
    exact sound.stretch p (Nat.le_of_lt short) plain eofless

theorem Sound.run (sound : Sound t) {labels : List (Label P)} (ran : System.run (Console.step editor) t labels = some t') :
    Sound t' := by
  induction labels generalizing t with
  | nil =>
    cases ran
    exact sound
  | cons label rest ih =>
    obtain ⟨middle,stepped,ran⟩ := Option.bind_eq_some_iff.mp ran
    exact ih (sound.step stepped) ran

end calls

theorem killLine_keeps (turns : Nat) (cons : Cons) :
    (killLine turns cons).r = cons.r ∧ (killLine turns cons).w = cons.w ∧ (killLine turns cons).buf = cons.buf := by
  induction turns generalizing cons with
  | zero => exact ⟨rfl,rfl,rfl⟩
  | succ turns ih =>
    rw [killLine]
    split_ifs
    · exact ih { cons with e := cons.e - 1 }
    · exact ⟨rfl,rfl,rfl⟩

theorem erase_keeps {c : Byte} (erases : c = ctrlU ∨ c = ctrlH ∨ c = delete) (cons : Cons) :
    (consoleintr c cons).r = cons.r ∧ (consoleintr c cons).w = cons.w ∧ (consoleintr c cons).buf = cons.buf := by
  have plain : c ≠ ctrlP := by rcases erases with rfl | rfl | rfl <;> decide
  unfold consoleintr
  rw [if_neg plain]
  by_cases kills : c = ctrlU
  · rw [if_pos kills]
    exact killLine_keeps ..
  · rw [if_neg kills,if_pos (erases.resolve_left kills)]
    split_ifs <;> exact ⟨rfl,rfl,rfl⟩

/-- The console is the line editor: in every run of interrupts and reads the ring
holds what the editor has committed and nobody has taken, and after it the line,
and readers take the committed characters in order. -/
theorem console_line_discipline {P : Type} [DecidableEq P] {start : Cons} (empty : start.r = start.w ∧ start.w = start.e)
    {labels : List (Label P)} {s : State P Cons} (ran : System.run (step ring) (boot start) labels = some s) :
    (held s.dev.r s.dev.w ≤ held s.dev.r s.dev.e ∧ held s.dev.r s.dev.e ≤ inputBufSize) ∧
    (∀ c, c = ctrlU ∨ c = ctrlH ∨ c = delete →
      (consoleintr c s.dev).r = s.dev.r ∧ (consoleintr c s.dev).w = s.dev.w ∧ (consoleintr c s.dev).buf = s.dev.buf ∧
      held s.dev.r s.dev.w ≤ held s.dev.r (consoleintr c s.dev).e) ∧
    ∃ t : State P Editor, System.run (step editor) (boot ⟨[],0,[]⟩) labels = some t ∧ t.calls = s.calls ∧ t.trace = s.trace ∧
      window s.dev.buf s.dev.r (held s.dev.r s.dev.w) = t.dev.committed.drop t.dev.taken ∧
      window s.dev.buf s.dev.r (held s.dev.r s.dev.e) = t.dev.committed.drop t.dev.taken ++ t.dev.line ∧
      (s.trace.flatMap fun st => removed st.stored st.passed) = t.dev.committed.take t.dev.taken ∧
      ∀ st ∈ s.trace, ctrlD ∉ st.got ∧ st.Ends := by
  obtain ⟨t,ran',same⟩ := (boot_matches empty).run ran
  have sound := boot_sound.run ran'
  have rep := same.dev
  have length := rep.length
  have ready := rep.ready
  refine ⟨⟨by omega,rep.room⟩,fun c erases => ?_,t,ran',same.calls.symm,same.trace.symm,?_,rep.contents,?_,?_⟩
  · obtain ⟨r,w,buf⟩ := erase_keeps erases s.dev
    have after := rep.intr c
    have length' := after.length
    have ready' := after.ready
    rw [r] at length' ready'
    rw [w] at ready'
    exact ⟨r,w,buf,by omega⟩
  · have split : window s.dev.buf s.dev.r (held s.dev.r s.dev.w) =
        (window s.dev.buf s.dev.r (held s.dev.r s.dev.e)).take (held s.dev.r s.dev.w) := by
      unfold window
      rw [← List.map_take,List.take_range,Nat.min_eq_left (by omega)]
    rw [split,rep.contents,ready,List.take_left']
    · rfl
    · rfl
  · rw [same.trace]
    exact sound.delivered
  · rw [same.trace]
    exact sound.ends

def typing : List (Label Unit) :=
  [.read () 0 10,.intr 97,.intr ctrlH,.intr 98,.resume (),.intr carriageReturn,.intr ctrlD,.resume (),.read () 0 10]

def fresh : Cons := ⟨fun _ => 0,0,0,0⟩

theorem typing_runs : ∃ s, System.run (step ring) (boot fresh) typing = some s ∧
    s.trace.map (fun st => (st.got,st.result)) = [([],none),([],none),([98,newline],some 2),([],some 0)] := by
  cases ran : System.run (step ring) (boot fresh) typing with
  | none => exact absurd (congrArg Option.isSome ran) (by decide +kernel)
  | some s =>
    refine ⟨s,rfl,?_⟩
    have traced : (System.run (step ring) (boot fresh) typing).map (fun s => s.trace.map fun st => (st.got,st.result)) =
        some [([],none),([],none),([98,newline],some 2),([],some 0)] := by decide +kernel
    rw [ran] at traced
    exact Option.some.inj traced

theorem console_line_discipline_typing : fresh.r = fresh.w ∧ fresh.w = fresh.e ∧ ∃ s : State Unit Cons,
    System.run (step ring) (boot fresh) typing = some s ∧
    s.trace.map (fun st => (st.got,st.result)) = [([],none),([],none),([98,newline],some 2),([],some 0)] ∧
    held s.dev.r s.dev.e ≤ inputBufSize ∧ ∀ st ∈ s.trace, ctrlD ∉ st.got ∧ st.Ends := by
  obtain ⟨s,ran,traced⟩ := typing_runs
  obtain ⟨⟨-,room⟩,-,t,-,-,-,-,-,-,ends⟩ := console_line_discipline (show fresh.r = fresh.w ∧ fresh.w = fresh.e from ⟨rfl,rfl⟩) ran
  exact ⟨rfl,rfl,s,ran,traced,room,ends⟩

end Xv6.Console
