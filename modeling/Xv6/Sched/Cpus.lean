import Xv6.Sched.Steps

/-! Every reachable state has the shape, so a process runs on at most one CPU and
its kernel stack is never used twice. -/
namespace Xv6.Sched
open Lib
open Xv6.Procs (Slot ProcState Chan)
variable {n : Nat} {guard : Nat → Nat} {s s' : State n} {c : Fin n} {p : Slot}

theorem next_inv {ok : Bool} (inv : Inv s) (stepped : next guard s c ok = some s') : Inv s' := by
  unfold next at stepped
  cases run : (s.cpu c).run with
  | scheduler frames pc =>
    rw [run] at stepped
    cases frames with
    | nil => exact schedNext_inv inv run stepped
    | cons frame rest => exact wakeNext_scheduler inv run stepped
  | process p thread =>
    obtain ⟨frames,pc⟩ := thread
    rw [run] at stepped
    cases frames with
    | nil => exact procNext_inv inv run stepped
    | cons frame rest => exact frameNext_inv inv run stepped

theorem call_inv {what : Call} (inv : Inv s) (at_ : (s.cpu c).run = .process p ⟨[],.code⟩)
    (called : call guard s c p what = some s') : Inv s' := by
  have running : (s.proc p).state = .running := by
    have fits := inv.fits c p (by rw [at_]; rfl)
    rw [at_] at fits
    exact fits
  cases what <;> simp only [call] at called
  case acquire k => exact inv.process_acquire at_ called rfl (by simp) running (.inl rfl)
  case release k =>
    cases called
    exact inv.process_unlock at_ (by simp) running (.inl rfl)
  case sleep k =>
    split_ifs at called with held
    cases called
    exact inv.process_walk at_ rfl ⟨running,nofun,rfl,rfl⟩ (.inl rfl)
  case wakeup k =>
    cases called
    exact inv.process_walk at_ rfl ⟨running,nofun,rfl,rfl⟩ (.inl rfl)
  case kexit =>
    split_ifs at called with init <;> cases called
    · exact inv.panic
    · exact inv.process_walk at_ rfl running (.inl rfl)
  all_goals
    cases called
    exact inv.process_walk at_ rfl running (.inl rfl)

theorem Thread.Fits.plain {t : Thread} {state : ProcState} {context : Option Thread} (fits : t.Fits state context)
    (free : (Run.process p t).locked = none) : t.Plain := by
  obtain ⟨frames,pc⟩ := t
  cases frames with
  | nil =>
    simp only [Run.locked] at free
    split_ifs at free with own
    exact ⟨nofun,by simpa using own,free⟩
  | cons frame rest =>
    simp only [Run.locked] at free
    split_ifs at free with own
    have lower : Thread.Plain ⟨rest,pc⟩ := by
      cases frame <;> simp_all [Thread.Fits]
    exact lower.cons (by simpa using own) free

theorem push_inv {frame : Frame} (inv : Inv s) (free : (s.cpu c).held = [])
    (plain : frame.own = false ∧ frame.other = none) : Inv (s.goto c ((s.cpu c).run.push frame)) := by
  have locked : (s.cpu c).run.locked = none := by
    by_contra some
    obtain ⟨q,is⟩ := Option.ne_none_iff_exists'.mp some
    have held := ((inv.cpu c).own q).mpr is
    simp [free] at held
  cases run : (s.cpu c).run with
  | scheduler frames pc =>
    have handles := (inv.cpu c).handles
    rw [run] at locked handles
    have lower : (∀ frame ∈ frames, frame.other = none) ∧ pc.locked = none := by
      cases frames with
      | nil => exact ⟨nofun,locked⟩
      | cons first rest =>
        refine ⟨fun f inside => ?_,handles.2⟩
        rcases List.mem_cons.mp inside with rfl | inside
        · exact locked
        · exact handles.1 f inside
    exact inv.scheduler_goto run (plain.2.trans locked.symm) ⟨handles_engages lower.2,rfl⟩ lower trivial
  | process p t =>
    have fits := inv.fits c p (by rw [run]; rfl)
    have running := inv.running (p := p) (by rw [run]; rfl) (by simp [free])
    rw [run] at locked fits
    have below : t.Plain := Thread.Fits.plain fits locked
    have above : Thread.Plain ⟨frame :: t.frames,t.pc⟩ := below.cons plain.1 plain.2
    exact inv.process_walk run (above.locked.trans locked.symm) (above.fits running) (.inr rfl)

theorem step_inv {label : Label n} (inv : Inv s) (stepped : step guard s label = some s') : Inv s' := by
  cases label with
  | run c ok =>
    simp only [step] at stepped
    split_ifs at stepped
    exact next_inv inv stepped
  | call c what =>
    simp only [step] at stepped
    split at stepped
    next p at_ =>
      split_ifs at stepped
      exact call_inv inv at_ stepped
    next => cases stepped
  | interrupt c k =>
    simp only [step] at stepped
    split_ifs at stepped with quiet
    cases stepped
    exact push_inv inv quiet.2 ⟨rfl,rfl⟩
  | timer c =>
    simp only [step] at stepped
    split_ifs at stepped with quiet
    cases stepped
    exact push_inv inv quiet.2.1 ⟨rfl,rfl⟩

theorem booted_inv : Inv (booted : State n) := by
  refine ⟨fun c => ⟨List.nodup_nil,fun q => ?_,rfl,trivial,trivial⟩,fun _ _ _ inside => ?_,fun _ _ _ busy => ?_,
    fun _ _ busy => ?_,fun p _ => ?_,fun p np making => ?_,fun p _ np making => ?_⟩
  · simp [booted]
  · simp [booted] at inside
  · simp [booted,Run.engages] at busy
  · simp [booted,Run.engages] at busy
  · by_cases first : p = 0
    · subst first
      exact ⟨_,rfl,rfl⟩
    · simp [booted,first,zeroProc,AtRest]
  all_goals
    obtain ⟨t,⟨c,runs⟩ | ⟨-,stored⟩,making⟩ := making
    · cases runs
    · by_cases first : p = 0
      · subst first
        cases stored
        cases making
      · simp [booted,first] at stored

theorem reachable_inv (reached : (system n guard).Reachable s) : Inv s := by
  refine reached.invariant ?_ ?_
  · rintro s rfl
    exact booted_inv
  · intro s label s' _ inv stepped
    exact step_inv inv (show step guard s label = some s' from stepped)

theorem frees_cases {ok : Bool} (inv : Inv s) (freed : frees s c ok = some p) :
    .proc p ∈ (s.cpu c).held ∧ (s.proc p).state ≠ .running := by
  have holds : ∀ q pc, (s.cpu c).run = .process q ⟨[],pc⟩ → (Run.process q ⟨[],pc⟩).locked = some p →
      .proc p ∈ (s.cpu c).held := by
    intro q pc at_ locked
    rw [(inv.cpu c).own,at_]
    exact locked
  unfold frees at freed
  split at freed
  next q j at_ =>
    split_ifs at freed with unused
    cases freed
    exact ⟨holds q _ at_ rfl,by simp [unused.1]⟩
  next q np at_ =>
    split_ifs at freed
    cases freed
    have used := inv.making q p ⟨_,.inl ⟨c,at_⟩,rfl⟩
    exact ⟨holds q _ at_ rfl,by simp [used]⟩
  next q j at_ =>
    split_ifs at freed with zombie
    cases freed
    exact ⟨holds q _ at_ rfl,by simp [zombie.1]⟩
  next => cases freed

theorem frees_other {ok : Bool} (inv : Inv s) (freed : frees s c ok = some p) {t : Thread} :
    (s.cpu c).run ≠ .process p t := by
  intro run
  have fits := inv.fits c p (by rw [run]; rfl)
  have off := (frees_cases inv freed).2
  unfold frees at freed
  rw [run] at freed fits
  split at freed
  next same =>
    cases same
    exact off fits
  next same =>
    cases same
    exact off fits
  next same =>
    cases same
    exact off fits
  next => cases freed

/-- On any number of CPUs: at most one has c->proc = p. While p->lock is free, p is
RUNNING exactly when one CPU has c->proc = p. A CPU that is about to load
p->context finds it stored in full, and no CPU is on p's kernel stack any more.
And no CPU is on the kernel stack of a slot that freeproc is applied to. -/
theorem one_cpu_per_process (reached : (system n guard).Reachable s) :
    (∀ c d p, (s.cpu c).proc = some p → (s.cpu d).proc = some p → c = d) ∧
    (∀ p, (∀ c, .proc p ∉ (s.cpu c).held) → ((s.proc p).state = .running ↔ ∃! c, (s.cpu c).proc = some p)) ∧
    (∀ c p, (s.cpu c).run = .scheduler [] (.load p) →
      (∃ t, s.context p = some t) ∧ ∀ d t, (s.cpu d).run ≠ .process p t) ∧
    ∀ c ok p, frees s c ok = some p → ∀ d t, (s.cpu d).run ≠ .process p t := by
  have inv := reachable_inv reached
  have current : ∀ c, (s.cpu c).proc = (s.cpu c).run.engages := fun c => (inv.cpu c).current
  simp only [current]
  refine ⟨inv.one,fun p free => ⟨fun running => ?_,?_⟩,fun c p at_ => ⟨?_,fun d t runs => ?_⟩,fun c ok p freed d t runs => ?_⟩
  · by_contra none
    have idle : ∀ c, (s.cpu c).run.engages ≠ some p := fun c busy => none ⟨c,busy,fun d busy' => inv.one d c p busy' busy⟩
    have rest := inv.rest p idle
    rw [running] at rest
    exact rest
  · rintro ⟨c,busy,-⟩
    exact inv.running busy (free c)
  · have fits := inv.fits c p (by rw [at_]; rfl)
    rw [at_] at fits
    obtain ⟨-,t,stored,-⟩ := fits
    exact ⟨t,stored⟩
  · have same := inv.one d c p (by rw [runs]; rfl) (by rw [at_]; rfl)
    rw [same,at_] at runs
    cases runs
  · obtain ⟨held,off⟩ := frees_cases inv freed
    by_cases mine : d = c
    · exact frees_other inv freed (mine ▸ runs)
    · exact off (inv.running (by rw [runs]; rfl) fun other => mine (inv.lock d c _ other held))

def firstRun (c : Fin 2) : List (Label 2) := List.replicate 5 (.run c true)

/-- Init runs on one CPU of two, and no CPU holds its lock. -/
theorem one_cpu_per_process_init : ∃ s : State 2, (system 2 id).Reachable s ∧ (s.proc 0).state = .running ∧
    ∃! c, (s.cpu c).proc = some 0 := by
  have ran : (System.run (step id) booted (firstRun 0)).any fun s =>
      (s.proc 0).state = .running && (s.cpu 0).held = [] && (s.cpu 1).held = [] := by decide +kernel
  obtain ⟨s,ran,facts⟩ := (Option.any_eq_true _ _).mp ran
  simp only [Bool.and_eq_true,decide_eq_true_eq] at facts
  have reached : (system 2 id).Reachable s := System.Reachable.run (.start _ rfl) ran
  refine ⟨s,reached,facts.1.1,((one_cpu_per_process reached).2.1 0 fun c => ?_).mp facts.1.1⟩
  match c with
  | 0 => simp [facts.1.2]
  | 1 => simp [facts.2]

end Xv6.Sched
