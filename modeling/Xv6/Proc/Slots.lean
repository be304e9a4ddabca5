import Xv6.Proc.Shape

/-! What a free process slot holds. allocproc does not clear every field of the
slot it takes, so a new process starts clean only if every UNUSED slot is blank;
kkill, which scans all slots by pid, keeps them so as long as it never looks for
the pid 0 that UNUSED slots have. -/
namespace Xv6.Procs
open Lib
open Function (update update_apply update_of_ne update_self)
variable {event : Event} {label : Label} {proc : Proc} {c : Slot}

structure Blank (proc : Proc) : Prop where
  pid : proc.pid = 0
  killed : proc.killed = false
  parent : proc.parent = none
  sz : proc.sz = 0
  pagetable : proc.pagetable = 0
  trapframe : proc.trapframe = 0
  ofile : ∀ fd, proc.ofile fd = 0
  cwd : proc.cwd = 0

def Pc.left : Pc → Bool
  | .exitLock _ | .reparent _ _ | .reparentWake _ _ _ | .exitWake _ _ _ | .exitZombie _ | .gone => true
  | .user | .allocproc _ | .forkParent _ _ | .forkRunnable _ _ | .exitFiles _ _ | .exitCwd _ | .waitLock _
  | .waitScan _ _ _ | .waitKilled _ _ | .waitSleep _ | .waitDoze _ | .waitAsleep _ | .kkill _ _ => false

def Pc.closed (pc : Pc) : Nat :=
  match pc with
  | .exitFiles _ fd => fd
  | .exitCwd _ => nofile
  | _ => if pc.left then nofile else 0

structure Clean (proc : Proc) (pc : Pc) : Prop where
  blank : proc.state = .unused → Blank proc
  files : ∀ fd : Fin nofile, fd.val < pc.closed → proc.ofile fd = 0
  cwd : pc.left = true → proc.cwd = 0
  target : ∀ pid i, pc = .kkill pid i → pid ≠ 0

def State.Clean (s : State) : Prop := ∀ c, Procs.Clean (s.proc c) (s.pc c)

section Frames
variable {s s' : State} {p : Slot} {pc : Pc} {new : Proc}

theorem clean_at (p : Slot) (clean : s.Clean) (rest : ∀ q, q ≠ p → s'.proc q = s.proc q ∧ s'.pc q = s.pc q)
    (own : Clean (s'.proc p) (s'.pc p)) : s'.Clean := by
  intro c
  by_cases same : c = p
  · subst same
    exact own
  · rw [(rest c same).1,(rest c same).2]
    exact clean c

theorem clean_goto (clean : s.Clean) (own : Clean (s.proc p) pc) : (s.goto p pc).Clean := by
  refine clean_at p clean (fun q other => ⟨rfl,update_of_ne other _ _⟩) ?_
  simpa [State.goto] using own

theorem clean_set (clean : s.Clean) (own : Clean new (s.pc p)) : (s.set p new).Clean := by
  refine clean_at p clean (fun q other => ⟨update_of_ne other _ _,rfl⟩) ?_
  simpa [State.set] using own

theorem clean_both (clean : s.Clean) (own : Clean new pc) : ((s.set p new).goto p pc).Clean := by
  refine clean_at p clean (fun q other => ⟨update_of_ne other _ _,update_of_ne other _ _⟩) ?_
  simpa only [State.goto,State.set,update_self] using own

theorem clean_move (clean : s.Clean) (running : (s.proc p).state = .running)
    (closed : pc.closed ≤ (s.pc p).closed ∨ nofile ≤ (s.pc p).closed)
    (left : pc.left = true → (s.pc p).left = true)
    (target : ∀ pid i, pc = .kkill pid i → ∃ j, s.pc p = .kkill pid j) : (s.goto p pc).Clean := by
  refine clean_goto clean ⟨by simp [running],?_,fun gone => (clean p).cwd (left gone),?_⟩
  · intro fd inside
    apply (clean p).files
    omega
  · intro pid i same
    obtain ⟨j,before⟩ := target pid i same
    exact (clean p).target pid j before

theorem clean_keep (clean : s.Clean) (used : new.state ≠ .unused) (ofile : new.ofile = (s.proc p).ofile)
    (cwd : new.cwd = (s.proc p).cwd) : (s.set p new).Clean :=
  clean_set clean ⟨fun unused => absurd unused used,fun fd inside => ofile ▸ (clean p).files fd inside,
    fun gone => cwd.trans ((clean p).cwd gone),(clean p).target⟩

end Frames

theorem Blank.freed (ofile : ∀ fd, proc.ofile fd = 0) (cwd : proc.cwd = 0) : Blank (freeproc proc) :=
  ⟨rfl,rfl,rfl,rfl,rfl,rfl,ofile,cwd⟩

theorem Clean.live {pc : Pc} (used : proc.state ≠ .unused) (at_ : pc = .user) : Clean proc pc := by
  subst at_
  exact ⟨fun unused => absurd unused used,nofun,nofun,nofun⟩

def NoKillZero (_ : State) (label : Label) : Prop := ∀ p, label ≠ .call p (.kkill 0)

theorem clean_emit {s : State} (clean : s.Clean) : (s.emit event).Clean := clean

theorem clean_leaveWait {s : State} {p : Slot} (clean : s.Clean)
    (running : (s.proc p).state = .running) : (s.leaveWait p event).Clean :=
  clean_emit (clean_goto (s := { s with waitLock := none }) clean (.live (by simp [running]) rfl))

theorem clean_reap {s : State} {p pp : Slot} (shape : Shape s) (clean : s.Clean)
    (running : (s.proc p).state = .running) (zombie : (s.proc pp).state = .zombie) : (s.reap p pp).Clean := by
  have other : p ≠ pp := by grind
  have gone : s.pc pp = .gone := by
    have kind := (shape.fits pp).zombie.mp zombie
    cases at_ : s.pc pp <;> simp [at_,Pc.kind] at kind ⊢
  have blank : Blank (freeproc (s.proc pp)) :=
    .freed (fun fd => (clean pp).files fd (by simp [gone,Pc.closed,Pc.left])) ((clean pp).cwd (by simp [gone,Pc.left]))
  have freed : ((s.set pp (freeproc (s.proc pp))).goto pp .user).Clean :=
    clean_both clean ⟨fun _ => blank,by rintro _ ⟨⟩,by rintro ⟨⟩,by rintro _ _ ⟨⟩⟩
  refine clean_leaveWait (s := { (s.set pp (freeproc (s.proc pp))).goto pp .user with
    born := update s.born pp (s.born pp + 1) }) freed ?_
  simpa [State.goto,State.set,other] using running

theorem clean_step {s s' : State} (shape : Shape s) (clean : s.Clean)
    (allowed : NoKillZero s label) (trans : Trans s label s') : s'.Clean := by
  cases trans with
  | kfork p running at_ | kexit p _ running at_ | kwait p _ running at_ | allocNext p _ _ running at_
  | reparentNext p _ _ _ running at_ | reparentDone p _ _ _ running at_ | reparentWoken p _ _ _ _ running at_
  | exitWoken p _ _ _ _ running at_ | waitNext p _ _ _ _ _ running at_ | waitSeen p _ _ _ _ running at_
  | waitGoesOn p _ _ _ running at_ | killNext p _ _ _ running at_ =>
    exact clean_move clean running (.inl (by simp [at_,Pc.closed,Pc.left])) (by simp [at_,Pc.left]) (by simp [at_])
  | initExits => exact clean
  | kkill p pid running at_ =>
    refine clean_goto clean ⟨by simp [running],by rintro _ ⟨⟩,by rintro ⟨⟩,?_⟩
    rintro pid i ⟨⟩ rfl
    exact allowed p rfl
  | filesClosed p _ status fd running at_ all =>
    exact clean_move clean running (.inr (by simpa [at_,Pc.closed] using all)) (by simp [Pc.left]) (by simp)
  | allocNone p _ _ running at_ | killMissed p _ _ _ running at_ =>
    exact clean_emit (clean_goto clean (.live (by simp [running]) rfl))
  | exitLock p _ _ running at_ =>
    exact clean_move (s := { s with waitLock := some p }) clean running (.inl (by simp [at_,Pc.closed,Pc.left]))
      (by simp [at_,Pc.left]) (by simp)
  | waitLock p _ _ running at_ =>
    exact clean_move (s := { s with waitLock := some p }) clean running (.inl (by simp [Pc.closed,Pc.left]))
      (by simp [Pc.left]) (by simp)
  | waitSleep p _ _ running at_ =>
    exact clean_move (s := { s with waitLock := none, locked := update s.locked p true }) clean running
      (.inl (by simp [Pc.closed,Pc.left])) (by simp [Pc.left]) (by simp)
  | copyoutFails p _ _ _ _ running at_ | waitGivesUp p _ _ _ running at_ => exact clean_leaveWait clean running
  | forkFails p _ np running at_ unused =>
    have other : p ≠ np := by grind
    have blank := (clean np).blank unused
    have freed : (s.allocpid.set np (freeproc (s.proc np))).Clean := by
      refine clean_set (s := s.allocpid) clean ⟨fun _ => .freed blank.ofile blank.cwd,?_,?_,(clean np).target⟩
      · exact fun fd _ => blank.ofile fd
      · exact fun _ => blank.cwd
    refine clean_emit (clean_goto freed (.live ?_ rfl))
    simp [State.set,State.allocpid,other,running]
  | forkFound p env np running at_ unused =>
    have other : p ≠ np := by grind
    have user : s.pc np = .user := by
      have kind := (shape.fits np).idle (.inl unused)
      cases position : s.pc np <;> simp [position,Pc.kind] at kind ⊢
    have filled : (s.allocpid.set np (forked (s.proc p) (s.proc np) s.nextpid env)).Clean :=
      clean_set (s := s.allocpid) clean (.live (by simp [forked]) user)
    refine clean_move filled ?_ (.inl (by simp [Pc.closed,Pc.left])) (by simp [Pc.left]) (by simp)
    simpa [State.set,State.allocpid,other] using running
  | forkParent p _ np pid running at_ =>
    have used := shape.child p np (by rw [at_]; rfl)
    have other : p ≠ np := by grind
    have adopted : (s.set np { s.proc np with parent := some p }).Clean := clean_keep clean (by simp [used]) rfl rfl
    refine clean_move adopted ?_ (.inl (by simp [Pc.closed,Pc.left])) (by simp [Pc.left]) (by simp)
    simpa [State.set,other] using running
  | forkRunnable p _ np pid running at_ =>
    have used := shape.child p np (by rw [at_]; rfl)
    have other : p ≠ np := by grind
    have ready : (s.set np { s.proc np with state := .runnable }).Clean := clean_keep clean (by simp) rfl rfl
    refine clean_emit (clean_goto ready (.live ?_ rfl))
    simp [State.set,other,running]
  | closeFile p _ status fd running at_ =>
    have own := (clean p).files
    refine clean_both clean ⟨by simp [running],fun k inside => ?_,by rintro ⟨⟩,by rintro _ _ ⟨⟩⟩
    grind [Pc.closed,update_apply]
  | exitCwd p _ status running at_ =>
    have own := (clean p).files
    exact clean_both clean ⟨by simp [running],fun fd _ => own fd (by simp [at_,Pc.closed]),fun _ => rfl,by rintro _ _ ⟨⟩⟩
  | reparent p _ status pp running at_ child =>
    have used : (s.proc pp).state ≠ .unused := by
      intro unused
      simp [((clean pp).blank unused).parent] at child
    have moved : (s.set pp { s.proc pp with parent := some s.initproc }).Clean := clean_keep clean used rfl rfl
    refine clean_move moved ?_ (.inl (by simp [State.set,at_,Pc.closed,Pc.left])) (by simp [State.set,at_,Pc.left])
      (by simp)
    by_cases same : p = pp
    · subst same
      simpa [State.set] using running
    · simpa [State.set,same] using running
  | wakeNext p _ chan j next running loop =>
    generalize at_ : s.pc p = now at loop
    cases loop <;>
      exact clean_move clean running (.inl (by simp [at_,Pc.closed,Pc.left])) (by simp [at_,Pc.left]) (by simp)
  | wake p _ chan j next running loop other unlocked asleep on =>
    have woken : (s.set j { s.proc j with state := .runnable }).Clean := clean_keep clean (by simp) rfl rfl
    have still : ((s.set j { s.proc j with state := .runnable }).proc p).state = .running := by
      simpa [State.set,other.symm] using running
    generalize at_ : s.pc p = now at loop
    cases loop <;>
      exact clean_move woken still (.inl (by simp [State.set,at_,Pc.closed,Pc.left])) (by simp [State.set,at_,Pc.left]) (by simp)
  | exitZombie p _ status running at_ unlocked =>
    have own := clean p
    exact clean_both clean ⟨by rintro ⟨⟩,fun fd _ => own.files fd (by simp [at_,Pc.closed,Pc.left]),fun _ => own.cwd (by simp [at_,Pc.left]),
      (by rintro _ _ ⟨⟩)⟩
  | waitDoze p _ addr running at_ =>
    exact clean_both clean ⟨by rintro ⟨⟩,by rintro _ ⟨⟩,by rintro ⟨⟩,by rintro _ _ ⟨⟩⟩
  | reap p _ addr havekids pp running at_ child zombie unlocked => exact clean_reap shape clean running zombie
  | killHit p _ pid j running at_ unlocked named =>
    have used : (s.proc j).state ≠ .unused := by
      intro unused
      exact (clean p).target pid j at_ (named.symm.trans ((clean j).blank unused).pid)
    have hit : (s.set j (s.proc j).kill).Clean := by
      refine clean_keep clean ?_ rfl rfl
      unfold Proc.kill
      split_ifs <;> simp [used]
    refine clean_emit (clean_goto hit (.live ?_ rfl))
    by_cases same : p = j
    · subst same
      simp [State.set,Proc.kill,running]
    · simp [State.set,same,running]
  | fault p running at_ => exact clean_keep clean (by simp [running]) rfl rfl
  | sleep p | wakeup p | yield p | resume p => exact clean_keep clean (by rintro ⟨⟩) rfl rfl
  | work p _ _ _ _ running at_ =>
    exact clean_set clean (.live (by simp [running]) at_)
  | rewait p addr ready at_ =>
    exact clean_both clean ⟨by rintro ⟨⟩,by rintro _ ⟨⟩,by rintro ⟨⟩,by rintro _ _ ⟨⟩⟩
  | switch p at_ => exact clean

theorem clean_userinit (trapframe pagetable cwd : Ptr) : (userinit trapframe pagetable cwd).Clean := by
  have blank : Blank zeroProc := ⟨rfl,rfl,rfl,rfl,rfl,rfl,fun _ => rfl,rfl⟩
  have first : procinit.Clean := fun c => ⟨fun _ => blank,nofun,nofun,nofun⟩
  unfold userinit
  split
  · exact first
  · exact clean_set (s := procinit.allocpid) first (.live nofun rfl)

theorem reachable_clean {s : State} (reached : (system.restrict NoKillZero).Reachable s) : s.Clean := by
  refine reached.invariant ?_ ?_
  · rintro s ⟨trapframe,pagetable,cwd,_,_,rfl⟩
    exact clean_userinit trapframe pagetable cwd
  · intro s label s' before clean stepped
    exact clean_step (reachable_shape before.of_restrict) clean stepped.1 (step_trans stepped.2)

theorem kill_result {s s' : State} {p : Slot} {pid : BitVec 32} (trans : Trans s label s')
    (emitted : s'.trace = s.trace ++ [.killed p pid 0]) :
    ∃ j : Slot, s.pc p = .kkill pid j ∧ (s.proc j).pid = pid ∧ ∀ d, d ≠ j → s'.proc d = s.proc d := by
  cases trans <;>
    simp [State.goto,State.set,State.emit,State.leaveWait,State.reap,State.die,forkFails,State.allocpid] at emitted
  case killHit j running at_ unlocked named =>
    obtain ⟨rfl,rfl⟩ := emitted
    exact ⟨j,at_,named,fun d other => update_of_ne other _ _⟩

theorem killed_cases {s s' : State} (trans : Trans s label s')
    (before : (s.proc c).killed = false) (after : (s'.proc c).killed = true) :
    label = .fault c ∨ ∃ p env, label = .run p env ∧ s.pc p = .kkill (s.proc c).pid c := by
  cases trans <;>
    simp only [State.goto,State.set,State.emit,State.leaveWait,State.reap,State.die,forkFails,State.allocpid,
      update_apply] at after
  case fault p running at_ =>
    split_ifs at after with same
    · exact .inl (same ▸ rfl)
    · simp [before] at after
  case killHit p env pid j running at_ unlocked named =>
    split_ifs at after with same
    · subst same
      exact .inr ⟨p,env,rfl,named ▸ at_⟩
    · simp [before] at after
  all_goals grind [freeproc,forked,Proc.resume]

theorem born_clean {s s' : State} (clean : s.Clean) (trans : Trans s label s')
    (unused : (s.proc c).state = .unused) (used : (s'.proc c).state ≠ .unused) : (s'.proc c).killed = false := by
  by_contra up
  have before := ((clean c).blank unused).killed
  rcases killed_cases trans before (by simpa using up) with rfl | ⟨p,env,rfl,at_⟩
  · cases trans with
    | fault p running => simp [running] at unused
  · exact (clean p).target _ _ at_ ((clean c).blank unused).pid

/-- In a run without kkill(0) every free slot is blank; a kkill returns 0 only for
a slot in use with that pid and changes no other slot; a slot that comes into use
is not killed; and a slot becomes killed only by a kkill that names its pid, while
it is in use, or by its own fault. -/
theorem kkill_hits_target {s : State} (reached : (system.restrict NoKillZero).Reachable s) :
    (∀ c, (s.proc c).state = .unused → Blank (s.proc c)) ∧
    ∀ label s', NoKillZero s label → step s label = some s' →
      (∀ p pid, s'.trace = s.trace ++ [.killed p pid 0] →
        ∃ c, (s.proc c).state ≠ .unused ∧ (s.proc c).pid = pid ∧ ∀ d, d ≠ c → s'.proc d = s.proc d) ∧
      (∀ c, (s.proc c).state = .unused → (s'.proc c).state ≠ .unused → (s'.proc c).killed = false) ∧
      ∀ c, (s.proc c).killed = false → (s'.proc c).killed = true → label = .fault c ∨
        ∃ p env, label = .run p env ∧ s.pc p = .kkill (s.proc c).pid c ∧ (s.proc c).state ≠ .unused := by
  have clean := reachable_clean reached
  -- a running kkill looks for a pid that no free slot has
  have aimed : ∀ p c, s.pc p = .kkill (s.proc c).pid c → (s.proc c).state ≠ .unused :=
    fun p c at_ unused => (clean p).target _ _ at_ ((clean c).blank unused).pid
  refine ⟨fun c => (clean c).blank,fun label s' allowed stepped => ⟨?_,?_,?_⟩⟩
  · intro p pid emitted
    obtain ⟨c,at_,rfl,same⟩ := kill_result (step_trans stepped) emitted
    exact ⟨c,aimed p c at_,rfl,same⟩
  · exact fun c unused used => born_clean clean (step_trans stepped) unused used
  · intro c before after
    rcases killed_cases (step_trans stepped) before after with fault | ⟨p,env,run,at_⟩
    · exact .inl fault
    · exact .inr ⟨p,env,run,at_,aimed p c at_⟩

def killRun (pid : BitVec 32) (n : Nat) : List Label :=
  [.schedule 0,.call 0 (.kkill pid)] ++ List.replicate n (.run 0 ⟨1,1,true,true⟩)

def booted : State := userinit 4096 8192 1

theorem reachable_booted : system.Reachable booted := .start _ ⟨4096,8192,1,by decide,by decide,rfl⟩

/-- Init kills itself by its pid 1: the hypotheses of the theorem hold of a run
with a kkill, and the free slot 1 is still blank. -/
theorem kkill_hits_target_self : ∃ s, (system.restrict NoKillZero).Reachable s ∧
    (s.proc 0).killed = true ∧ (s.proc 1).state = .unused ∧ Blank (s.proc 1) := by
  have hit : (System.run step booted (killRun 1 1)).any fun s =>
      (s.proc 0).killed && (s.proc 1).state = .unused := by decide +kernel
  obtain ⟨s,ran,facts⟩ := (Option.any_eq_true _ _).mp hit
  simp only [Bool.and_eq_true,decide_eq_true_eq] at facts
  have reached : (system.restrict NoKillZero).Reachable s := by
    refine System.Reachable.run_restrict (.start _ ⟨4096,8192,1,by decide,by decide,rfl⟩) ?_ ran
    intro s label inside p same
    simp [killRun,same] at inside
  exact ⟨s,reached,facts.1,facts.2,(kkill_hits_target reached).1 1 facts.2⟩

/-- kkill(0) finds the free slot 1, marks it killed and returns 0; the process the
next kfork puts there starts killed. -/
theorem kkill_zero_hits_free_slot : ∃ s s', system.Reachable s ∧ system.Reachable s' ∧
    (s.proc 1).state = .unused ∧ (s.proc 1).killed = true ∧ .killed 0 0 0 ∈ s.trace ∧
    (s'.proc 1).state = .used ∧ (s'.proc 1).pid = 2 ∧ (s'.proc 1).killed = true := by
  let fork : List Label := [.call 0 .kfork] ++ List.replicate 2 (.run 0 ⟨4096,8192,true,true⟩)
  have hit : (System.run step booted (killRun 0 2)).any fun s =>
      (s.proc 1).state = .unused && (s.proc 1).killed && s.trace.contains (.killed 0 0 0) := by decide +kernel
  have child : (System.run step booted (killRun 0 2 ++ fork)).any fun s =>
      (s.proc 1).state = .used && (s.proc 1).pid = 2 && (s.proc 1).killed := by decide +kernel
  obtain ⟨s,ran,facts⟩ := (Option.any_eq_true _ _).mp hit
  obtain ⟨s',ran',facts'⟩ := (Option.any_eq_true _ _).mp child
  simp only [Bool.and_eq_true,decide_eq_true_eq] at facts facts'
  exact ⟨s,s',reachable_booted.run ran,reachable_booted.run ran',facts.1.1,facts.1.2,by simpa using facts.2,
    facts'.1.1,facts'.1.2,facts'.2⟩

end Xv6.Procs
