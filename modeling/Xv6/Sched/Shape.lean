import Xv6.Sched.Model
import Mathlib.Tactic

/-! What every reachable state of the CPUs and the process table keeps. A CPU is
engaged with a process from the moment its scheduler has chosen it until the
scheduler has it back; the place a CPU has reached tells which p->lock it holds
and which state the process it is engaged with has. Every other process is at
rest, with its thread in p->context. -/
namespace Xv6.Sched
open Lib Function
open Xv6.Procs (Slot ProcState Chan)
variable {n : Nat}
variable {frames frames' : List Frame} {pc pc' : SchedPc} {p r : Slot} {t : Thread}

@[simp] def Frame.own : Frame → Bool
  | .yieldReady | .yieldBack | .sleepRelease _ | .sleepSet _ | .sleepBack _ | .sched | .swtch | .saving | .saved => true
  | _ => false

@[simp] def Frame.other : Frame → Option Slot
  | .wake _ j _ => some j
  | _ => none

@[simp] def SchedPc.locked : SchedPc → Option Slot
  | .scan _ => none
  | .look p | .enter p | .load p | .back p | .unlock p => some p

@[simp] def ProcPc.own : ProcPc → Bool
  | .forkret | .zombie | .exitSet | .exitRelease | .waitKilledTest => true
  | _ => false

@[simp] def ProcPc.other : ProcPc → Option Slot
  | .kill _ j | .allocTest j | .forkCopy j | .forkRun j | .waitTest j => some j
  | _ => none

/-- The process whose lock a CPU holds. -/
@[simp] def Run.locked : Run → Option Slot
  | .scheduler [] pc => pc.locked
  | .scheduler (frame :: _) _ => frame.other
  | .process p ⟨[],pc⟩ => if pc.own then some p else pc.other
  | .process p ⟨frame :: _,_⟩ => if frame.own then some p else frame.other

/-- The process a CPU is engaged with. -/
def Run.engages : Run → Option Slot
  | .scheduler [] (.enter p) | .scheduler [] (.load p) | .scheduler [] (.back p) => some p
  | .scheduler _ _ => none
  | .process p _ => some p

def Thread.Plain (t : Thread) : Prop :=
  (∀ frame ∈ t.frames, frame.own = false ∧ frame.other = none) ∧ t.pc.own = false ∧ t.pc.other = none

def Thread.Leaves : Thread → ProcState → Prop
  | ⟨.yieldBack :: rest,pc⟩, state => state = .runnable ∧ Thread.Plain ⟨rest,pc⟩
  | ⟨.sleepBack _ :: rest,pc⟩, state => state = .sleeping ∧ Thread.Plain ⟨rest,pc⟩
  | ⟨[],pc⟩, state => state = .zombie ∧ pc = .zombie
  | _, _ => False

def Thread.Resumes : Thread → Prop
  | ⟨.yieldBack :: rest,pc⟩ | ⟨.sleepBack _ :: rest,pc⟩ => Thread.Plain ⟨rest,pc⟩
  | ⟨[],pc⟩ => pc = .forkret
  | _ => False

def AtRest (state : ProcState) (context : Option Thread) : Prop :=
  match state with
  | .runnable | .sleeping => ∃ t, context = some t ∧ t.Resumes
  | .used => context = some ⟨[],.forkret⟩
  | .running => False
  | .unused | .zombie => True

def Thread.Fits (t : Thread) (state : ProcState) (context : Option Thread) : Prop :=
  match t with
  | ⟨.sched :: rest,pc⟩ | ⟨.swtch :: rest,pc⟩ | ⟨.saving :: rest,pc⟩ => Thread.Leaves ⟨rest,pc⟩ state
  | ⟨.saved :: rest,pc⟩ => Thread.Leaves ⟨rest,pc⟩ state ∧ context = some ⟨rest,pc⟩
  | ⟨_ :: rest,pc⟩ => state = .running ∧ Thread.Plain ⟨rest,pc⟩
  | ⟨[],.exitRelease⟩ => state = .zombie
  | ⟨[],_⟩ => state = .running

def Run.Fits (run : Run) (state : ProcState) (context : Option Thread) : Prop :=
  match run with
  | .scheduler [] (.enter _) | .scheduler [] (.load _) => state = .running ∧ ∃ t, context = some t ∧ t.Resumes
  | .scheduler [] (.back _) => AtRest state context
  | .scheduler _ _ => True
  | .process _ t => t.Fits state context

def Run.Handles : Run → Prop
  | .scheduler (_ :: rest) pc => (∀ frame ∈ rest, frame.other = none) ∧ pc.locked = none
  | _ => True

def Run.Returns (context : SchedPc) : Run → Prop
  | .scheduler [] (.load p) | .process p _ => context = .back p
  | _ => True

structure Cpu.Ok (cpu : Cpu) : Prop where
  nodup : cpu.held.Nodup
  own : ∀ q, .proc q ∈ cpu.held ↔ cpu.run.locked = some q
  current : cpu.proc = cpu.run.engages
  handles : cpu.run.Handles
  returns : cpu.run.Returns cpu.context

def ProcPc.forks : ProcPc → Option Slot
  | .forkCopy np | .forkParent np | .forkAdopt np | .forkReady np | .forkRun np => some np
  | _ => none

def Runs (s : State n) (p : Slot) (t : Thread) : Prop :=
  (∃ c, (s.cpu c).run = .process p t) ∨ (∀ c u, (s.cpu c).run ≠ .process p u) ∧ s.context p = some t

def Making (s : State n) (p np : Slot) : Prop := ∃ t, Runs s p t ∧ t.pc.forks = some np

structure Inv (s : State n) : Prop where
  cpu : ∀ c, (s.cpu c).Ok
  lock : ∀ c d l, l ∈ (s.cpu c).held → l ∈ (s.cpu d).held → c = d
  one : ∀ c d p, (s.cpu c).run.engages = some p → (s.cpu d).run.engages = some p → c = d
  fits : ∀ c p, (s.cpu c).run.engages = some p → (s.cpu c).run.Fits (s.proc p).state (s.context p)
  rest : ∀ p, (∀ c, (s.cpu c).run.engages ≠ some p) → AtRest (s.proc p).state (s.context p)
  making : ∀ p np, Making s p np → (s.proc np).state = .used
  single : ∀ p q np, Making s p np → Making s q np → p = q

theorem Thread.Leaves.rests {state : ProcState} {context : Option Thread} (leaves : t.Leaves state)
    (stored : context = some t) : AtRest state context := by
  obtain ⟨frames,pc⟩ := t
  cases frames with
  | nil =>
    obtain ⟨rfl,rfl⟩ := leaves
    trivial
  | cons frame rest =>
    cases frame <;> simp only [Thread.Leaves] at leaves
    all_goals
      obtain ⟨rfl,plain⟩ := leaves
      exact ⟨_,stored,plain⟩

/-- A process with which a CPU is engaged runs, unless the CPU holds its lock. -/
theorem Inv.running {s : State n} (inv : Inv s) {c : Fin n} (engaged : (s.cpu c).run.engages = some p)
    (unlocked : .proc p ∉ (s.cpu c).held) : (s.proc p).state = .running := by
  have fits := inv.fits c p engaged
  rw [(inv.cpu c).own p] at unlocked
  generalize (s.cpu c).run = run at *
  match run with
  | .scheduler [] pc => cases pc <;> simp_all [Run.engages,Run.locked,SchedPc.locked]
  | .scheduler (_ :: _) _ => simp [Run.engages] at engaged
  | .process q ⟨[],pc⟩ =>
    cases pc <;> simp_all [Run.engages,Run.locked,ProcPc.own,Run.Fits,Thread.Fits]
  | .process q ⟨frame :: rest,pc⟩ =>
    cases frame <;> simp_all [Run.engages,Run.locked,Frame.own,Run.Fits,Thread.Fits]

/-- A step changes one CPU, and the state and the context of one slot. -/
structure Changes (s s' : State n) (c : Fin n) (cpu : Cpu) (q : Slot) (state : ProcState) (context : Option Thread) :
    Prop where
  cpu : s'.cpu = update s.cpu c cpu
  proc : ∀ r, (s'.proc r).state = if r = q then state else (s.proc r).state
  context : s'.context = update s.context q context

section Changes
variable {s s' : State n} {c : Fin n} {cpu : Cpu} {q : Slot} {state : ProcState} {context : Option Thread}

theorem Changes.cpu_self (changes : Changes s s' c cpu q state context) : s'.cpu c = cpu := by
  rw [changes.cpu,update_self]

theorem Changes.cpu_other (changes : Changes s s' c cpu q state context) {d : Fin n} (other : d ≠ c) :
    s'.cpu d = s.cpu d := by rw [changes.cpu,update_of_ne other]

theorem Inv.change (inv : Inv s) (changes : Changes s s' c cpu q state context) (ok : cpu.Ok)
    (locks : ∀ l ∈ cpu.held, l ∈ (s.cpu c).held ∨ ∀ d, l ∉ (s.cpu d).held)
    (engages : ∀ p, cpu.run.engages = some p →
      (s.cpu c).run.engages = some p ∨ ∀ d, (s.cpu d).run.engages ≠ some p)
    (leaves : ∀ p, (s.cpu c).run.engages = some p → cpu.run.engages = some p ∨ p = q)
    (fits : ∀ p, cpu.run.engages = some p → cpu.run.Fits (s'.proc p).state (s'.context p))
    (others : ∀ d, d ≠ c → (s.cpu d).run.engages = some q → state = (s.proc q).state ∧ context = s.context q)
    (rest : cpu.run.engages ≠ some q → (∀ d, d ≠ c → (s.cpu d).run.engages ≠ some q) → AtRest state context)
    (making : ∀ p np, Making s' p np → (s'.proc np).state = .used)
    (single : ∀ p q np, Making s' p np → Making s' q np → p = q) : Inv s' := by
  have keep : ∀ r, r ≠ q → (s'.proc r).state = (s.proc r).state ∧ s'.context r = s.context r := by
    intro r other
    rw [changes.proc,if_neg other,changes.context,update_of_ne other]
    exact ⟨rfl,rfl⟩
  have now : (s'.proc q).state = state ∧ s'.context q = context := by
    rw [changes.proc,if_pos rfl,changes.context,update_self]
    exact ⟨rfl,rfl⟩
  have self := changes.cpu_self
  have away : ∀ d, d ≠ c → s'.cpu d = s.cpu d := fun d => changes.cpu_other
  obtain ⟨cpus,lock,one,fitted,rested,-,-⟩ := inv
  refine ⟨?_,?_,?_,?_,?_,making,single⟩
  all_goals grind

theorem Changes.runs (changes : Changes s s' c cpu q state context)
    (stays : ∀ r t, (s.cpu c).run = .process r t → (∃ u, cpu.run = .process r u) ∨ r = q) {u : Thread}
    (runs : Runs s' r u) : cpu.run = .process r u ∨ Runs s r u ∨
      r = q ∧ context = some u ∧ (∀ t, cpu.run ≠ .process q t) ∧ ∀ d, d ≠ c → ∀ t, (s.cpu d).run ≠ .process q t := by
  have self := changes.cpu_self
  have away : ∀ d, d ≠ c → s'.cpu d = s.cpu d := fun d => changes.cpu_other
  have stored : ∀ r, s'.context r = if r = q then context else s.context r := by
    intro r
    rw [changes.context,update_apply]
  unfold Runs at *
  grind

/-- How a step may change the locks of its CPU. -/
inductive Takes (s : State n) (c : Fin n) (cpu : Cpu) : Prop
  | same (held : cpu.held = (s.cpu c).held) (locked : cpu.run.locked = (s.cpu c).run.locked)
  | acquire (l : Lock) (free : ∀ d, l ∉ (s.cpu d).held) (held : cpu.held = l :: (s.cpu c).held)
      (before : (s.cpu c).run.locked = none) (locked : ∀ q, cpu.run.locked = some q ↔ l = .proc q)
  | release (l : Lock) (held : cpu.held = (s.cpu c).held.erase l)
      (locked : ∀ q, cpu.run.locked = some q ↔ (s.cpu c).run.locked = some q ∧ l ≠ .proc q)

theorem Takes.nodup (inv : Inv s) (takes : Takes s c cpu) : cpu.held.Nodup := by
  have before := (inv.cpu c).nodup
  cases takes with
  | same held => rwa [held]
  | acquire l free held =>
    rw [held]
    exact List.nodup_cons.mpr ⟨free c,before⟩
  | release l held =>
    rw [held]
    exact before.erase l

theorem Takes.own (inv : Inv s) (takes : Takes s c cpu) (r : Slot) : .proc r ∈ cpu.held ↔ cpu.run.locked = some r := by
  have before := (inv.cpu c).own r
  cases takes with
  | same held locked => rw [held,locked,before]
  | acquire l free held none locked =>
    rw [none] at before
    rw [held,locked,List.mem_cons,before]
    simp [eq_comm]
  | release l held locked =>
    rw [held,locked,← before,(inv.cpu c).nodup.mem_erase_iff]
    tauto

theorem Takes.locks (takes : Takes s c cpu) : ∀ l ∈ cpu.held, l ∈ (s.cpu c).held ∨ ∀ d, l ∉ (s.cpu d).held := by
  intro l inside
  cases takes with
  | same held => exact .inl (held ▸ inside)
  | acquire l' free held =>
    rw [held,List.mem_cons] at inside
    rcases inside with rfl | inside
    · exact .inr free
    · exact .inl inside
  | release l' held =>
    rw [held] at inside
    exact .inl (List.mem_of_mem_erase inside)

/-- A step of the thread of p that stays on its CPU. It may change the state of one
slot, its own or one whose lock it holds. -/
theorem Inv.process {t' : Thread} (inv : Inv s) (at_ : (s.cpu c).run = .process p t)
    (changes : Changes s s' c cpu q state context) (takes : Takes s c cpu) (now : cpu.run = .process p t')
    (proc : cpu.proc = (s.cpu c).proc) (saved : cpu.context = (s.cpu c).context)
    (fits : t'.Fits (s'.proc p).state (s'.context p))
    (slot : q = p ∨ context = s.context q ∧ (state = (s.proc q).state ∨ .proc q ∈ (s.cpu c).held ∧
      ((s.proc q).state = .running → state = .running) ∧
      (AtRest (s.proc q).state (s.context q) → AtRest state (s.context q))))
    (forks : t'.pc.forks = none ∨ t'.pc.forks = t.pc.forks)
    (used : (s.proc q).state = .used → state = .used ∨ t.pc.forks = some q ∧ t'.pc.forks = none) : Inv s' := by
  have before := inv.cpu c
  have engaged : (s.cpu c).run.engages = some p := by rw [at_]; rfl
  have runs : ∀ r u, Runs s' r u → r = p ∧ u = t' ∨ r ≠ p ∧ Runs s r u := by
    intro r u runs
    rcases changes.runs (fun r t was => .inl (by grind)) runs with mine | old | ⟨rfl,stored,off,others⟩
    · rw [now] at mine
      cases mine
      exact .inl ⟨rfl,rfl⟩
    · by_cases me : r = p
      · subst me
        -- p runs on c, before and after
        rcases runs with ⟨d,running⟩ | ⟨off,-⟩
        · have same : d = c := by
            by_contra other
            rw [changes.cpu_other other] at running
            exact other (inv.one d c r (by rw [running]; rfl) engaged)
          rw [same,changes.cpu_self,now] at running
          cases running
          exact .inl ⟨rfl,rfl⟩
        · exact absurd (by rw [changes.cpu_self,now]) (off c t')
      · exact .inr ⟨me,old⟩
    · have me : r ≠ p := fun same => off t' (same ▸ now)
      have kept := (slot.resolve_left me).1
      refine .inr ⟨me,.inr ⟨fun d u running => ?_,kept ▸ stored⟩⟩
      by_cases mine : d = c
      · rw [mine,at_] at running
        cases running
        exact me rfl
      · exact others d mine u running
  have makes : ∀ r np, Making s' r np → Making s r np := by
    rintro r np ⟨u,running,making⟩
    rcases runs r u running with ⟨rfl,rfl⟩ | ⟨-,old⟩
    · rcases forks with none | same
      · simp [none] at making
      · exact ⟨t,.inl ⟨c,at_⟩,same ▸ making⟩
    · exact ⟨u,old,making⟩
  refine inv.change changes ⟨takes.nodup inv,takes.own inv,?_,?_,?_⟩ takes.locks ?_ ?_ ?_ ?_ ?_ ?_ ?_
  · rw [proc,before.current,engaged,now]
    rfl
  · rw [now]
    trivial
  · have returns := before.returns
    rw [at_] at returns
    rw [now,saved]
    exact returns
  · intro r same
    rw [now] at same
    exact .inl (engaged.trans same)
  · intro r same
    rw [engaged] at same
    rw [now]
    exact .inl same
  · intro r same
    rw [now] at same ⊢
    cases same
    exact fits
  · grind [inv.one,inv.running,inv.lock]
  · intro idle others
    rw [now] at idle
    have rest : AtRest (s.proc q).state (s.context q) := by
      refine inv.rest q fun d busy => ?_
      by_cases mine : d = c
      · rw [mine,engaged] at busy
        exact idle busy
      · exact others d mine busy
    rcases slot with rfl | ⟨rfl,rfl | ⟨-,-,still⟩⟩
    · exact absurd rfl idle
    · exact rest
    · exact still rest
  · intro r np making
    have old := inv.making r np (makes r np making)
    rw [changes.proc]
    split_ifs with same
    · subst same
      rcases used old with still | ⟨was,none⟩
      · exact still
      · have me : r = p := inv.single r p np (makes r np making) ⟨t,.inl ⟨c,at_⟩,was⟩
        obtain ⟨u,running,making⟩ := making
        rcases runs r u running with ⟨-,rfl⟩ | ⟨other,-⟩
        · simp [none] at making
        · exact absurd me other
    · exact old
  · exact fun r r' np first second => inv.single r r' np (makes r np first) (makes r' np second)

theorem Changes.making_scheduler (at_ : (s.cpu c).run = .scheduler frames pc)
    (changes : Changes s s' c cpu q state (s.context q))
    (now : cpu.run = .scheduler frames' pc') {np : Slot} (making : Making s' r np) : Making s r np := by
  obtain ⟨u,runs,making⟩ := making
  refine ⟨u,?_,making⟩
  rcases changes.runs (fun r t was => by simp [at_] at was) runs with mine | old | ⟨rfl,stored,-,others⟩
  · simp [now] at mine
  · exact old
  · refine .inr ⟨fun d t running => ?_,stored⟩
    by_cases mine : d = c
    · simp [mine,at_] at running
    · exact others d mine t running

theorem Changes.forks_scheduler (inv : Inv s)
    (at_ : (s.cpu c).run = .scheduler frames pc) (changes : Changes s s' c cpu q state (s.context q))
    (now : cpu.run = .scheduler frames' pc') (used : (s.proc q).state = .used → state = .used) :
    (∀ p np, Making s' p np → (s'.proc np).state = .used) ∧ ∀ p q np, Making s' p np → Making s' q np → p = q := by
  refine ⟨fun r np making => ?_,fun r r' np first second => ?_⟩
  · have old := inv.making r np (changes.making_scheduler at_ now making)
    rw [changes.proc]
    split_ifs with same
    · exact used (same ▸ old)
    · exact old
  · exact inv.single r r' np (changes.making_scheduler at_ now first) (changes.making_scheduler at_ now second)

/-- A step of a scheduler thread that keeps to its engagement. -/
theorem Inv.scheduler (inv : Inv s)
    (at_ : (s.cpu c).run = .scheduler frames pc) (changes : Changes s s' c cpu q state (s.context q))
    (takes : Takes s c cpu) (now : cpu.run = .scheduler frames' pc') (proc : cpu.proc = (s.cpu c).proc)
    (engages : cpu.run.engages = (s.cpu c).run.engages) (handles : cpu.run.Handles)
    (returns : cpu.run.Returns cpu.context)
    (fits : ∀ p, cpu.run.engages = some p → cpu.run.Fits (s'.proc p).state (s'.context p))
    (slot : state = (s.proc q).state ∨ .proc q ∈ (s.cpu c).held ∧ (s.cpu c).run.engages = none ∧
      ((s.proc q).state = .running → state = .running) ∧ ((s.proc q).state = .used → state = .used) ∧
      (AtRest (s.proc q).state (s.context q) → AtRest state (s.context q))) : Inv s' := by
  obtain ⟨making,single⟩ := changes.forks_scheduler inv at_ now fun used => by
    rcases slot with rfl | ⟨-,-,-,still,-⟩
    · exact used
    · exact still used
  refine inv.change changes ⟨takes.nodup inv,takes.own inv,?_,handles,returns⟩ takes.locks ?_ ?_ fits ?_ ?_ making single
  · rw [proc,engages]
    exact (inv.cpu c).current
  · intro p same
    exact .inl (engages ▸ same)
  · intro p same
    exact .inl (engages ▸ same)
  · grind [inv.running,inv.lock]
  · grind [inv.rest]

end Changes

end Xv6.Sched
