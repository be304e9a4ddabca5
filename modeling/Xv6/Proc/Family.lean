import Xv6.Proc.Shape

/-! Parents and children. Under wait_lock an exiting process hands its children to
init, wakes its own parent and only then becomes a ZOMBIE, and a waiting process
scans its children and only then goes to sleep; `Family` is what holds of the
process table between any two of these steps. -/
namespace Xv6.Procs
open Lib
open Function (update update_apply update_of_ne update_self)

def ProcState.live : ProcState → Bool
  | .sleeping | .runnable | .running => true
  | .unused | .used | .zombie => false

def Pc.exits : Pc → Bool
  | .exitFiles _ _ | .exitCwd _ | .exitLock _ | .reparent _ _ | .reparentWake _ _ _ | .exitWake _ _ _ | .exitZombie _
  | .gone => true
  | .user | .allocproc _ | .forkParent _ _ | .forkRunnable _ _ | .waitLock _ | .waitScan _ _ _ | .waitKilled _ _
  | .waitSleep _ | .waitDoze _ | .waitAsleep _ | .kkill _ _ => false

def Pc.orphaned : Pc → Nat
  | .reparent _ i => i
  | .reparentWake _ i _ => i + 1
  | .exitWake _ _ _ => nproc
  | .exitZombie _ => nproc
  | _ => 0

def Pc.scanned : Pc → Nat
  | .waitScan _ i _ => i
  | .waitKilled _ _ => nproc
  | .waitSleep _ => nproc
  | _ => 0

def Pc.roused : Pc → Nat
  | .exitWake _ _ j => j
  | .exitZombie _ => nproc
  | _ => 0

def Pc.rouses (initproc : Slot) : Pc → Prop
  | .reparentWake _ _ j => j ≤ initproc.val
  | _ => False

theorem Pc.outside {pc : Pc} (free : pc.kind ≠ .holding) :
    pc.orphaned = 0 ∧ pc.scanned = 0 ∧ pc.roused = 0 ∧ (∀ initproc, ¬pc.rouses initproc) ∧
      ∀ status chan j, pc ≠ .exitWake status chan j := by
  cases pc <;> simp [Pc.kind,Pc.orphaned,Pc.scanned,Pc.roused,Pc.rouses] at free ⊢

def State.Asleep (s : State) (q : Slot) : Prop :=
  (s.pc q).kind = .dozing ∨ (s.pc q).kind = .asleep ∧ (s.proc q).state = .sleeping

structure Family (s : State) : Prop where
  blank : ∀ c, (s.proc c).state = .unused → (s.proc c).parent = none
  alive : ∀ c q, (s.proc c).parent = some q → (s.proc q).state.live = true
  init : (s.proc s.initproc).state.live = true
  stays : (s.pc s.initproc).exits = false
  kin : ∀ c, c ≠ s.initproc → (s.proc c).state.live = true ∨ (s.proc c).state = .zombie → (s.proc c).parent ≠ none
  adopted : ∀ p np pid, s.pc p = .forkRunnable np pid → (s.proc np).parent = some p
  orphaned : ∀ p c : Slot, c.val < (s.pc p).orphaned → (s.proc c).parent ≠ some p
  scanned : ∀ p c : Slot, c.val < (s.pc p).scanned → (s.proc c).parent = some p → (s.proc c).state ≠ .zombie
  chan : ∀ p status chan j, s.pc p = .exitWake status chan j → chan = (s.proc p).parent.map .proc
  roused : ∀ p q : Slot, (s.proc p).parent = some q → q.val < (s.pc p).roused → ¬s.Asleep q
  waiting : ∀ q c, s.Asleep q → (s.proc c).parent = some q → (s.proc c).state = .zombie →
    q = s.initproc ∧ ∃ p, s.waitLock = some p ∧ (s.pc p).rouses s.initproc

section Frames
variable {s s' : State} {p : Slot} {pc : Pc} {new : Proc}

/-- What a move of one program counter has to respect. -/
structure Moves (s s' : State) (p : Slot) (pc : Pc) : Prop where
  proc : s'.proc = s.proc
  moved : s'.pc = update s.pc p pc
  initproc : s'.initproc = s.initproc
  exits : p = s.initproc → pc.exits = false
  adopted : ∀ np pid, pc = .forkRunnable np pid → (s.proc np).parent = some p
  orphaned : ∀ c : Slot, c.val < pc.orphaned → (s.proc c).parent ≠ some p
  scanned : ∀ c : Slot, c.val < pc.scanned → (s.proc c).parent = some p → (s.proc c).state ≠ .zombie
  chan : ∀ status chan j, pc = .exitWake status chan j → chan = (s.proc p).parent.map .proc
  roused : ∀ q : Slot, (s.proc p).parent = some q → q.val < pc.roused → ¬s'.Asleep q
  asleep : s'.Asleep p → s.Asleep p ∨
    ∀ c, (s.proc c).parent = some p → (s.proc c).state ≠ .zombie ∧ (s.pc c).roused = 0
  waiting : ∀ q c, s.Asleep q → (s.proc c).parent = some q → (s.proc c).state = .zombie →
    q = s.initproc ∧ ∃ r, s'.waitLock = some r ∧ (s'.pc r).rouses s.initproc

theorem family_pc (family : Family s) (ok : Moves s s' p pc) : Family s' := by
  obtain ⟨proc,moved,initproc,exits,adopted,orphaned,scanned,chan,roused,asleep,waiting⟩ := ok
  obtain ⟨blank,alive,init,stays,kin,adopted',orphaned',scanned',chan',roused',waiting'⟩ := family
  have own : s'.pc p = pc := by simp [moved]
  have others : ∀ q, q ≠ p → s'.pc q = s.pc q := fun q other => by simp [moved,other]
  have before : ∀ q, q ≠ p → s'.Asleep q → s.Asleep q := by
    intro q other asleep
    simpa [State.Asleep,others q other,proc] using asleep
  constructor <;> simp only [proc,initproc]
  all_goals grind

theorem Family.notInit (family : Family s) (exits : (s.pc p).exits = true) : p ≠ s.initproc := by
  rintro rfl
  simp [family.stays] at exits

def State.Solo (s : State) (p : Slot) : Prop := ∀ q, (s.pc q).kind = .holding → q = p

theorem Shape.unheld (shape : Shape s) (free : (s.pc p).kind ≠ .holding) : s.waitLock ≠ some p :=
  fun held => free ((shape.fits p).held_iff.mp held)

theorem Shape.solo (shape : Shape s) (lock : s.waitLock = none ∨ s.waitLock = some p) : s.Solo p := by
  intro q holding
  have held := (shape.fits q).held_iff.mpr holding
  rcases lock with none | mine
  · simp [none] at held
  · exact Option.some.inj (held.symm.trans mine)

def State.Settled (s : State) : Prop :=
  ∀ q c, s.Asleep q → (s.proc c).parent = some q → (s.proc c).state ≠ .zombie

theorem Family.settled (family : Family s) (lock : s.waitLock = none ∨ s.waitLock = some p)
    (free : ¬(s.pc p).rouses s.initproc) : s.Settled := by
  intro q c asleep parent zombie
  obtain ⟨_,r,held,rouses⟩ := family.waiting q c asleep parent zombie
  rcases lock with none | mine
  · simp [none] at held
  · cases Option.some.inj (held.symm.trans mine)
    exact free rouses

theorem awake_of_kind (kind : Kind) (own : (s'.pc p).kind = kind) (other : kind ≠ .dozing ∧ kind ≠ .asleep) :
    ¬s'.Asleep p := by
  rintro (h | ⟨h,_⟩)
  · exact other.1 (own.symm.trans h)
  · exact other.2 (own.symm.trans h)

theorem family_goto (family : Family s) (before : s.waitLock ≠ some p)
    (after : pc.kind ∈ [.user,.closing,.moving]) (fork : ∀ np pid, pc ≠ .forkRunnable np pid)
    (exits : p = s.initproc → pc.exits = false) : Family (s.goto p pc) := by
  have free : pc.kind ≠ .holding := by
    intro holding
    simp [holding] at after
  obtain ⟨orphaned,scanned,roused,_,noWake⟩ := Pc.outside free
  refine family_pc family ⟨rfl,rfl,rfl,exits,fun np pid same => absurd same (fork np pid),?_,?_,?_,?_,?_,?_⟩
  · simp [orphaned]
  · simp [scanned]
  · exact fun status ch j same => absurd same (noWake status ch j)
  · simp [roused]
  · intro asleep
    refine absurd asleep (awake_of_kind pc.kind (by simp [State.goto]) ?_)
    constructor <;> intro h <;> simp [h] at after
  · intro q c asleep parent zombie
    obtain ⟨isInit,r,held,rouses⟩ := family.waiting q c asleep parent zombie
    refine ⟨isInit,r,held,?_⟩
    have other : r ≠ p := by
      rintro rfl
      exact before held
    simpa [State.goto,other] using rouses

theorem family_hold (family : Family s) (settled : s.Settled) (proc : s'.proc = s.proc)
    (moved : s'.pc = update s.pc p pc) (initproc : s'.initproc = s.initproc)
    (after : pc.kind = .holding) (exits : p = s.initproc → pc.exits = false)
    (orphaned : ∀ c : Slot, c.val < pc.orphaned → (s.proc c).parent ≠ some p)
    (scanned : ∀ c : Slot, c.val < pc.scanned → (s.proc c).parent = some p → (s.proc c).state ≠ .zombie)
    (chan : ∀ status chan j, pc = .exitWake status chan j → chan = (s.proc p).parent.map .proc)
    (roused : ∀ q : Slot, (s.proc p).parent = some q → q.val < pc.roused → ¬s.Asleep q) : Family s' := by
  have own : s'.pc p = pc := by simp [moved]
  have awake : ¬s'.Asleep p := awake_of_kind pc.kind (congrArg Pc.kind own) (by simp [after])
  refine family_pc family ⟨proc,moved,initproc,exits,?_,orphaned,scanned,chan,?_,fun asleep => absurd asleep awake,?_⟩
  · rintro np pid rfl
    simp [Pc.kind] at after
  · intro q parent passed asleep
    by_cases same : q = p
    · subst same
      exact awake asleep
    · exact roused q parent passed (by simpa [State.Asleep,moved,same,proc] using asleep)
  · intro q c asleep parent zombie
    exact absurd zombie (settled q c asleep parent)

/-- A step inside a section under wait_lock. -/
theorem family_section {now : Pc} (shape : Shape s) (family : Family s) (at_ : s.pc p = now) (before : now.kind = .holding)
    (quiet : ¬now.rouses s.initproc) (after : pc.kind = .holding) (exits : pc.exits = now.exits)
    (orphaned : ∀ c : Slot, c.val < pc.orphaned → (s.proc c).parent ≠ some p)
    (scanned : ∀ c : Slot, c.val < pc.scanned → (s.proc c).parent = some p → (s.proc c).state ≠ .zombie)
    (chan : ∀ status chan j, pc = .exitWake status chan j → chan = (s.proc p).parent.map .proc)
    (roused : ∀ q : Slot, (s.proc p).parent = some q → q.val < pc.roused → ¬s.Asleep q) : Family (s.goto p pc) := by
  subst at_
  refine family_hold family (family.settled (.inr ((shape.fits p).held_iff.mpr before)) quiet) rfl rfl rfl after ?_
    orphaned scanned chan roused
  rintro rfl
  rw [exits]
  exact family.stays

theorem family_release (family : Family s) (settled : s.Settled) (proc : s'.proc = s.proc)
    (moved : s'.pc = update s.pc p pc) (initproc : s'.initproc = s.initproc) (after : pc.kind ≠ .holding)
    (exits : p = s.initproc → pc.exits = false) (fork : ∀ np pid, pc ≠ .forkRunnable np pid)
    (dozes : pc.kind = .dozing ∨ pc.kind = .asleep →
      ∀ c, (s.proc c).parent = some p → (s.proc c).state ≠ .zombie ∧ (s.pc c).roused = 0) : Family s' := by
  have own : s'.pc p = pc := by simp [moved]
  obtain ⟨orphaned,scanned,roused,_,noWake⟩ := Pc.outside after
  refine family_pc family ⟨proc,moved,initproc,exits,fun np pid same => absurd same (fork np pid),?_,?_,?_,?_,?_,?_⟩
  · simp [orphaned]
  · simp [scanned]
  · exact fun status ch j same => absurd same (noWake status ch j)
  · simp [roused]
  · intro asleep
    simp only [State.Asleep,own] at asleep
    exact .inr (dozes (asleep.imp id (·.1)))
  · intro q c asleep parent zombie
    exact absurd zombie (settled q c asleep parent)

/-- What a write to one slot has to respect. -/
structure Respects (s : State) (j : Slot) (new : Proc) : Prop where
  blank : new.state = .unused → new.parent = none
  alive : ∀ q, q ≠ j → new.parent = some q → (s.proc q).state.live = true
  self : new.parent = some j → new.state.live = true
  children : ∀ c, (s.proc c).parent = some j → new.state.live = true
  init : j = s.initproc → new.state.live = true
  kin : j ≠ s.initproc → new.state.live = true ∨ new.state = .zombie → new.parent ≠ none
  adopted : ∀ p pid, s.pc p = .forkRunnable j pid → new.parent = some p
  orphaned : ∀ p : Slot, j.val < (s.pc p).orphaned → new.parent ≠ some p
  scanned : ∀ p : Slot, j.val < (s.pc p).scanned → new.parent = some p → new.state ≠ .zombie
  chan : ∀ status chan i, s.pc j = .exitWake status chan i → chan = new.parent.map .proc
  roused : ∀ q : Slot, new.parent = some q → q.val < (s.pc j).roused → ¬s.Asleep q
  asleep : (s.pc j).kind = .asleep → new.state = .sleeping → (s.proc j).state = .sleeping
  waiting : ∀ q, s.Asleep q → new.parent = some q → new.state = .zombie →
    q = s.initproc ∧ ∃ p, s.waitLock = some p ∧ (s.pc p).rouses s.initproc

theorem asleep_set {q : Slot} (kept : (s.pc p).kind = .asleep → new.state = .sleeping → (s.proc p).state = .sleeping)
    (asleep : (s.set p new).Asleep q) : s.Asleep q := by
  refine asleep.imp id fun ⟨kind,state⟩ => ⟨kind,?_⟩
  by_cases same : q = p
  · subst same
    exact kept kind (by simpa [State.set] using state)
  · simpa [State.set,same] using state

theorem family_set (family : Family s) (ok : Respects s p new) : Family (s.set p new) := by
  have own : (s.set p new).proc p = new := by simp [State.set]
  have others : ∀ c, c ≠ p → (s.set p new).proc c = s.proc c := fun c other => by simp [State.set,other]
  have before : ∀ q, (s.set p new).Asleep q → s.Asleep q := fun q => asleep_set ok.asleep
  have rest : (s.set p new).pc = s.pc ∧ (s.set p new).waitLock = s.waitLock ∧ (s.set p new).initproc = s.initproc :=
    ⟨rfl,rfl,rfl⟩
  generalize s.set p new = s' at *
  obtain ⟨blank,alive,self,children,init,kin,adopted,orphaned,scanned,chan,roused,asleep,waiting⟩ := ok
  obtain ⟨blank',alive',init',stays,kin',adopted',orphaned',scanned',chan',roused',waiting'⟩ := family
  constructor <;> grind

theorem Respects.keep (family : Family s) (parent : new.parent = (s.proc p).parent)
    (live : new.state.live = (s.proc p).state.live) (zombie : new.state = .zombie → (s.proc p).state = .zombie)
    (unused : new.state = .unused → (s.proc p).state = .unused)
    (asleep : (s.pc p).kind = .asleep → new.state = .sleeping → (s.proc p).state = .sleeping) : Respects s p new := by
  obtain ⟨blank,alive,init,stays,kin,adopted,orphaned,scanned,chan,roused,waiting⟩ := family
  constructor <;> grind

theorem family_keep (family : Family s) (parent : new.parent = (s.proc p).parent)
    (live : new.state.live = (s.proc p).state.live) (zombie : new.state = .zombie → (s.proc p).state = .zombie)
    (unused : new.state = .unused → (s.proc p).state = .unused)
    (asleep : (s.pc p).kind = .asleep → new.state = .sleeping → (s.proc p).state = .sleeping) :
    Family (s.set p new) :=
  family_set family (.keep family parent live zombie unused asleep)

end Frames

theorem family_same {s s' : State} (family : Family s) (proc : s'.proc = s.proc) (pc : s'.pc = s.pc)
    (lock : s'.waitLock = s.waitLock) (initproc : s'.initproc = s.initproc) : Family s' := by
  cases s
  cases s'
  cases proc
  cases pc
  cases lock
  cases initproc
  obtain ⟨blank,alive,init,stays,kin,adopted,orphaned,scanned,chan,roused,waiting⟩ := family
  exact ⟨blank,alive,init,stays,kin,adopted,orphaned,scanned,chan,roused,waiting⟩

theorem family_emit {s : State} {event : Event} (family : Family s) : Family (s.emit event) :=
  family_same family rfl rfl rfl rfl

theorem family_die {s : State} {p : Slot} {status : BitVec 32} (shape : Shape s) (family : Family s)
    (running : (s.proc p).state = .running) (at_ : s.pc p = .exitZombie status) : Family (s.die p status) := by
  have held : s.waitLock = some p := (shape.fits p).held_iff.mpr (by simp [at_,Pc.kind])
  have notInit := family.notInit (p := p) (by simp [at_,Pc.exits])
  have childless : ∀ c, (s.proc c).parent ≠ some p := fun c => family.orphaned p c (by simp [at_,Pc.orphaned])
  have awake : ∀ q, (s.proc p).parent = some q → ¬s.Asleep q :=
    fun q parent => family.roused p q parent (by simp [at_,Pc.roused])
  have dead : Family (s.set p { s.proc p with xstate := status, state := .zombie }) := by
    refine family_set family ⟨by rintro ⟨⟩,fun q _ => family.alive p q,fun self => absurd self (childless p),
      fun c parent => absurd parent (childless c),fun isInit => absurd isInit notInit,
      fun _ _ => family.kin p notInit (.inl (by simp [running,ProcState.live])),fun q pid => family.adopted q p pid,
      fun q => family.orphaned q p,fun q passed => ?_,family.chan p,family.roused p,fun _ => (by rintro ⟨⟩),
      fun q asleep parent => absurd asleep (awake q parent)⟩
    -- no other process is scanning, and p scans nothing
    have free : (s.pc q).scanned = 0 := by
      by_cases same : q = p
      · simp [same,at_,Pc.scanned]
      · exact (Pc.outside fun holding => same (shape.solo (.inr held) q holding)).2.1
    simp [free] at passed
  have settled : (s.set p { s.proc p with xstate := status, state := .zombie }).Settled := by
    intro q c asleep parent zombie
    have before : s.Asleep q := asleep_set (by simp) asleep
    by_cases same : c = p
    · subst same
      exact awake q (by simpa [State.set] using parent) before
    · simp only [State.set,update_of_ne same] at parent zombie
      exact family.settled (.inr held) (by simp [at_,Pc.rouses]) q c before parent zombie
  exact family_release dead settled rfl rfl rfl (by simp [Pc.kind]) (fun h => absurd h notInit) (by simp)
    (by simp [Pc.kind])

theorem family_reap {s : State} {p pp : Slot} {addr : BitVec 64} {havekids : Bool} (shape : Shape s) (family : Family s)
    (running : (s.proc p).state = .running) (at_ : s.pc p = .waitScan addr pp havekids)
    (zombie : (s.proc pp).state = .zombie) : Family (s.reap p pp) := by
  have held : s.waitLock = some p := (shape.fits p).held_iff.mpr (by simp [at_,Pc.kind])
  have settled := family.settled (.inr held) (by simp [at_,Pc.rouses])
  have gone : (s.pc pp).kind = .gone := (shape.fits pp).zombie.mp zombie
  have childless : ∀ c, (s.proc c).parent ≠ some pp := by
    intro c parent
    simpa [zombie,ProcState.live] using family.alive c pp parent
  have notInit : pp ≠ s.initproc := by
    rintro rfl
    simpa [zombie,ProcState.live] using family.init
  have freed : Family (s.set pp (freeproc (s.proc pp))) := by
    refine family_set family ⟨fun _ => rfl,by rintro _ _ ⟨⟩,by rintro ⟨⟩,fun c parent => absurd parent (childless c),
      fun isInit => absurd isInit notInit,fun _ used => ?_,fun q pid making => ?_,by rintro _ _ ⟨⟩,by rintro _ _ ⟨⟩,?_,by rintro _ ⟨⟩,fun _ => (by rintro ⟨⟩),by rintro _ _ ⟨⟩⟩
    · simp [freeproc,ProcState.live] at used
    · have used := shape.child q pp (by rw [making]; rfl)
      simp [zombie] at used
    · intro status ch i at_pp
      simp [at_pp,Pc.kind] at gone
  have other : p ≠ pp := by grind
  have left : Family ((s.set pp (freeproc (s.proc pp))).goto pp .user) :=
    family_goto freed (by simp [State.set,held,other]) (by simp [Pc.kind]) (by simp) fun _ => rfl
  have settled' : ((s.set pp (freeproc (s.proc pp))).goto pp .user).Settled := by
    refine left.settled (p := p) (.inr held) ?_
    simp [State.goto,State.set,other,at_,Pc.rouses]
  exact family_release left settled' rfl rfl rfl (by simp [Pc.kind]) (fun _ => rfl) (by simp) (by simp [Pc.kind])

theorem family_forkParent {s : State} {p np : Slot} {pid : BitVec 32} (shape : Shape s) (family : Family s)
    (running : (s.proc p).state = .running) (at_ : s.pc p = .forkParent np pid) (free : s.waitLock = none) :
    Family ((s.set np { s.proc np with parent := some p }).goto p (.forkRunnable np pid)) := by
  have used := shape.child p np (by rw [at_]; rfl)
  have outside : ∀ q, (s.pc q).kind ≠ .holding := by
    intro q holding
    simpa [free] using (shape.fits q).held_iff.mpr holding
  have awake : ¬s.Asleep p := awake_of_kind .moving (by simp [at_,Pc.kind]) (by simp)
  have childless : ∀ c, (s.proc c).parent ≠ some np := by
    intro c parent
    simpa [used,ProcState.live] using family.alive c np parent
  have idle : s.pc np = .user := by
    have kind := (shape.fits np).idle (.inr used)
    cases at_np : s.pc np <;> simp [at_np,Pc.kind] at kind ⊢
  have adopted : Family (s.set np { s.proc np with parent := some p }) := by
    refine family_set family ⟨fun h => ?_,fun q _ parent => ?_,fun self => ?_,fun c parent => absurd parent (childless c),
      fun isInit => ?_,fun _ h => (by rintro ⟨⟩),fun q pid making => ?_,fun q passed => ?_,fun q passed => ?_,?_,?_,?_,?_⟩
    · simp [used] at h
    · cases Option.some.inj parent
      simp [running,ProcState.live]
    · cases Option.some.inj self
      simp [running] at used
    · simpa [isInit] using family.init
    · have same := shape.single p q np (by rw [at_]; rfl) (by rw [making]; rfl)
      rw [same]
    · simp [(Pc.outside (outside q)).1] at passed
    · simp [(Pc.outside (outside q)).2.1] at passed
    · simp [idle]
    · simp [idle,Pc.roused]
    · simp [idle,Pc.kind]
    · simp [used]
  have other : np ≠ p := by grind
  refine family_pc adopted ⟨rfl,rfl,rfl,fun _ => rfl,?_,by rintro _ ⟨⟩,by rintro _ ⟨⟩,by rintro _ _ _ ⟨⟩,by rintro _ _ ⟨⟩,fun asleep => ?_,?_⟩
  · rintro np pid ⟨⟩
    simp [State.set]
  · refine absurd asleep (awake_of_kind .moving (by simp [State.goto,Pc.kind]) (by simp))
  · intro q c asleep parent zombie
    obtain ⟨_,r,held,_⟩ := adopted.waiting q c asleep parent zombie
    simp [State.set,free] at held

theorem family_forkRunnable {s : State} {p np : Slot} {pid : BitVec 32} (shape : Shape s) (family : Family s)
    (at_ : s.pc p = .forkRunnable np pid) :
    Family ((s.set np { s.proc np with state := .runnable }).goto p .user) := by
  have used := shape.child p np (by rw [at_]; rfl)
  have parent := family.adopted p np pid at_
  have idle : s.pc np = .user := by
    have kind := (shape.fits np).idle (.inr used)
    cases at_np : s.pc np <;> simp [at_np,Pc.kind] at kind ⊢
  have ready : Family (s.set np { s.proc np with state := .runnable }) := by
    refine family_set family ⟨by rintro ⟨⟩,fun q _ => family.alive np q,fun _ => rfl,fun _ _ => rfl,fun _ => rfl,
      fun _ _ => by simp [parent],fun q pid => family.adopted q np pid,fun q => family.orphaned q np,by rintro _ _ _ ⟨⟩,
      family.chan np,family.roused np,by simp,by rintro _ _ _ ⟨⟩⟩
  exact family_goto ready (shape.unheld (by simp [at_,Pc.kind])) (by simp [Pc.kind]) (by simp) fun _ => rfl

theorem family_reparent {s s' : State} {p pp : Slot} {status : BitVec 32} (shape : Shape s) (family : Family s)
    (at_ : s.pc p = .reparent status pp) (own : s'.pc p = .reparentWake status pp 0)
    (others : ∀ q, q ≠ p → s'.pc q = s.pc q)
    (parent : ∀ c, (s'.proc c).parent = if c = pp then some s.initproc else (s.proc c).parent)
    (state : ∀ c, (s'.proc c).state = (s.proc c).state) (lock : s'.waitLock = s.waitLock)
    (initproc : s'.initproc = s.initproc) (child : (s.proc pp).parent = some p) : Family s' := by
  have held : s.waitLock = some p := (shape.fits p).held_iff.mpr (by simp [at_,Pc.kind])
  have notInit := family.notInit (p := p) (by simp [at_,Pc.exits])
  have settled := family.settled (.inr held) (by simp [at_,Pc.rouses])
  have outside : ∀ q, q ≠ p → _ := fun q other => Pc.outside fun holding => other (shape.solo (.inr held) q holding)
  have awake : ∀ q, s'.Asleep q → s.Asleep q := by
    intro q asleep
    by_cases same : q = p
    · subst same
      simp [State.Asleep,own,Pc.kind] at asleep
    · simpa [State.Asleep,others q same,state] using asleep
  obtain ⟨blank,alive,init,stays,kin,adopted,orphaned,scanned,chan,roused,-⟩ := family
  unfold State.Settled at settled
  constructor <;> grind [Pc.orphaned,Pc.scanned,Pc.roused,Pc.rouses]

theorem passed_awake {s : State} {p j : Slot} (shape : Shape s) (holding : (s.pc p).kind = .holding)
    (unlocked : j = p ∨ s.locked j = false)
    (not : j = p ∨ ¬((s.proc j).state = .sleeping ∧ (s.proc j).chan = some (.proc j))) : ¬s.Asleep j := by
  have fits := shape.fits j
  rintro (dozing | ⟨asleep,sleeping⟩)
  · rcases unlocked with rfl | unlocked
    · simp [holding] at dozing
    · simp [State.Fits,Fits,dozing,unlocked] at fits
  · rcases not with rfl | not
    · simp [holding] at asleep
    · simp only [State.Fits,Fits,asleep] at fits
      rcases fits.2.1 with on | ready
      · exact not on
      · simp [sleeping] at ready

theorem family_wakeNext {s : State} {p j : Slot} {chan : Option Chan} {next : Pc} (shape : Shape s) (family : Family s)
    (loop : WakeLoop s.initproc chan j (s.pc p) next) (unlocked : j = p ∨ s.locked j = false)
    (not : j = p ∨ ¬((s.proc j).state = .sleeping ∧ (s.proc j).chan = chan)) : Family (s.goto p next) := by
  generalize at_ : s.pc p = now at loop
  cases loop with
  | reparent status i =>
    have awake : j = s.initproc → ¬s.Asleep j := fun isInit =>
      passed_awake shape (p := p) (by simp [at_,Pc.kind]) unlocked (isInit ▸ not)
    refine family_pc family ⟨rfl,rfl,rfl,?_,by simp,?_,by rintro _ ⟨⟩,by rintro _ _ _ ⟨⟩,by rintro _ _ ⟨⟩,fun asleep => ?_,?_⟩
    · exact fun same => absurd same (family.notInit (by simp [at_,Pc.exits]))
    · simpa [at_,Pc.orphaned] using family.orphaned p
    · exact absurd asleep (awake_of_kind .holding (by simp [State.goto,Pc.kind]) (by simp))
    · intro q c asleep parent zombie
      obtain ⟨isInit,r,held,rouses⟩ := family.waiting q c asleep parent zombie
      subst isInit
      have mine : s.waitLock = some p := (shape.fits p).held_iff.mpr (by simp [at_,Pc.kind])
      have same : r = p := Option.some.inj (held.symm.trans mine)
      subst same
      refine ⟨rfl,r,held,?_⟩
      have ne : j.val ≠ s.initproc.val := by
        intro same
        have isInit : j = s.initproc := Fin.ext same
        exact awake isInit (isInit ▸ asleep)
      simp only [at_,Pc.rouses] at rouses
      simp only [State.goto,update_self,Pc.rouses]
      omega
  | exit status =>
    have toParent := family.chan p status chan j at_
    refine family_section shape family at_ rfl id rfl rfl ?_ (by rintro _ ⟨⟩) ?_ ?_
    · simpa [at_,Pc.orphaned] using family.orphaned p
    · rintro status ch i ⟨⟩
      exact toParent
    · intro q parent before
      simp only [Pc.roused] at before
      by_cases last : q = j
      · subst last
        exact passed_awake shape (p := p) (by simp [at_,Pc.kind]) unlocked (by simpa [toParent,parent] using not)
      · have ne : q.val ≠ j.val := fun h => last (Fin.ext h)
        refine family.roused p q parent ?_
        simp only [at_,Pc.roused]
        omega

theorem family_step {s s' : State} {label : Label} (shape : Shape s) (family : Family s) (trans : Trans s label s') :
    Family s' := by
  cases trans with
  | kfork p running at_ | kwait p _ running at_ | kkill p _ running at_ | allocNext p _ _ running at_
  | killNext p _ _ _ running at_ =>
    exact family_goto family (shape.unheld (by simp [at_,Pc.kind])) (by simp [Pc.kind]) (by simp) fun _ => rfl
  | kexit p _ running at_ other =>
    exact family_goto family (shape.unheld (by simp [at_,Pc.kind])) (by simp [Pc.kind]) (by simp)
      fun same => absurd same other
  | initExits => exact family_same family rfl rfl rfl rfl
  | filesClosed p _ _ _ running at_ =>
    refine family_goto family (shape.unheld (by simp [at_,Pc.kind])) (by simp [Pc.kind]) (by simp) ?_
    exact fun same => absurd same (family.notInit (by simp [at_,Pc.exits]))
  | allocNone p _ _ running at_ | killMissed p _ _ _ running at_ =>
    exact family_emit (family_goto family (shape.unheld (by simp [at_,Pc.kind])) (by simp [Pc.kind]) (by simp)
      fun _ => rfl)
  | forkFails p _ np running at_ unused =>
    have freed : Family (s.allocpid.set np (freeproc (s.proc np))) :=
      family_keep (family_same family rfl rfl rfl rfl : Family s.allocpid) (family.blank np unused).symm
        (by simp [State.allocpid,freeproc,unused]) (by rintro ⟨⟩) (fun _ => unused) fun _ => by rintro ⟨⟩
    exact family_emit (family_goto freed (shape.unheld (by simp [at_,Pc.kind])) (by simp [Pc.kind]) (by simp) fun _ => rfl)
  | forkFound p env np running at_ unused =>
    have filled : Family (s.allocpid.set np (forked (s.proc p) (s.proc np) s.nextpid env)) :=
      family_keep (family_same family rfl rfl rfl rfl : Family s.allocpid) rfl (by simp [State.allocpid,forked,unused,ProcState.live]) (by rintro ⟨⟩) (by rintro ⟨⟩)
        fun _ => by rintro ⟨⟩
    exact family_goto filled (shape.unheld (by simp [at_,Pc.kind])) (by simp [Pc.kind]) (by simp) fun _ => rfl
  | forkParent p _ np pid running at_ free => exact family_forkParent shape family running at_ free
  | forkRunnable p _ np pid running at_ => exact family_emit (family_forkRunnable shape family at_)
  | closeFile p _ status fd running at_ =>
    have kept : Family (s.set p { s.proc p with ofile := update (s.proc p).ofile fd 0 }) :=
      family_keep family rfl rfl id id fun _ => id
    refine family_goto kept (shape.unheld (by simp [at_,Pc.kind])) (by simp [Pc.kind]) (by simp) ?_
    exact fun same => absurd same (family.notInit (by simp [at_,Pc.exits]))
  | exitCwd p _ status running at_ =>
    have kept : Family (s.set p { s.proc p with cwd := 0 }) := family_keep family rfl rfl id id fun _ => id
    refine family_goto kept (shape.unheld (by simp [at_,Pc.kind])) (by simp [Pc.kind]) (by simp) ?_
    exact fun same => absurd same (family.notInit (by simp [at_,Pc.exits]))
  | exitLock p _ status running at_ free =>
    refine family_hold family (family.settled (p := p) (.inl free) (by simp [at_,Pc.rouses])) rfl rfl rfl rfl ?_
      (by rintro _ ⟨⟩) (by rintro _ ⟨⟩) (by rintro _ _ _ ⟨⟩) (by rintro _ _ ⟨⟩)
    exact fun same => absurd same (family.notInit (by simp [at_,Pc.exits]))
  | waitLock p _ addr running at_ free =>
    exact family_hold family (family.settled (p := p) (.inl free) (by simp [at_,Pc.rouses])) rfl rfl rfl rfl
      (fun _ => rfl) (by rintro _ ⟨⟩) (by rintro _ ⟨⟩) (by rintro _ _ _ ⟨⟩) (by rintro _ _ ⟨⟩)
  | reparent p _ status pp running at_ child =>
    refine family_reparent shape family at_ ?_ ?_ ?_ ?_ rfl rfl child
    · simp [State.goto]
    · exact fun q other => by simp [State.goto,State.set,other]
    · intro c
      simp only [State.goto,State.set,update_apply]
      split_ifs <;> rfl
    · intro c
      by_cases same : c = pp <;> simp [State.goto,State.set,same]
  | reparentNext p _ status pp running at_ other =>
    refine family_section shape family at_ rfl id rfl rfl ?_ (by rintro _ ⟨⟩) (by rintro _ _ _ ⟨⟩) (by rintro _ _ ⟨⟩)
    intro c passed
    have before := family.orphaned p c
    grind [Pc.orphaned]
  | reparentDone p _ status i running at_ all =>
    refine family_section shape family at_ rfl id rfl rfl ?_ (by rintro _ ⟨⟩) ?_ (by rintro _ _ ⟨⟩)
    · intro c _
      exact family.orphaned p c (by grind [Pc.orphaned])
    · rintro status ch j ⟨⟩
      rfl
  | reparentWoken p _ status i j running at_ all =>
    have past : ¬(Pc.reparentWake status i j).rouses s.initproc := by
      simp only [Pc.rouses]
      omega
    refine family_section shape family at_ rfl past rfl rfl ?_ (by rintro _ ⟨⟩) (by rintro _ _ _ ⟨⟩) (by rintro _ _ ⟨⟩)
    simpa [at_,Pc.orphaned] using family.orphaned p
  | exitWoken p _ status chan j running at_ all =>
    refine family_section shape family at_ rfl id rfl rfl ?_ (by rintro _ ⟨⟩) (by rintro _ _ _ ⟨⟩) ?_
    · simpa [at_,Pc.orphaned] using family.orphaned p
    · intro q parent _
      refine family.roused p q parent ?_
      simp only [at_,Pc.roused]
      omega
  | wakeNext p _ chan j next running loop unlocked not => exact family_wakeNext shape family loop unlocked not
  | wake p _ chan j next running loop other unlocked asleep on =>
    have woken : Family (s.set j { s.proc j with state := .runnable }) :=
      family_keep family rfl (by simp [asleep,ProcState.live]) (by rintro ⟨⟩) (by rintro ⟨⟩) fun _ => by rintro ⟨⟩
    have fits : Shape (s.set j { s.proc j with state := .runnable }) :=
      shape_set shape ((shape.fits j).wake asleep) (by simp [asleep])
    exact family_wakeNext fits woken loop (.inr unlocked) (.inr (by simp [State.set]))
  | exitZombie p _ status running at_ unlocked => exact family_die shape family running at_
  | copyoutFails p _ addr havekids pp running at_ | waitGivesUp p _ addr havekids running at_ =>
    have held : s.waitLock = some p := (shape.fits p).held_iff.mpr (by simp [at_,Pc.kind])
    exact family_release family (family.settled (.inr held) (by simp [at_,Pc.rouses])) rfl rfl rfl (by simp [Pc.kind])
      (fun _ => rfl) (by simp) (by simp [Pc.kind])
  | reap p _ addr havekids pp running at_ child zombie unlocked => exact family_reap shape family running at_ zombie
  | waitNext p _ addr havekids pp seen running at_ passed =>
    refine family_section shape family at_ rfl id rfl rfl (by rintro _ ⟨⟩) ?_ (by rintro _ _ _ ⟨⟩) (by rintro _ _ ⟨⟩)
    intro c before
    simp only [Pc.scanned] at before
    by_cases last : c = pp
    · exact last ▸ passed
    · have ne : c.val ≠ pp.val := fun h => last (Fin.ext h)
      refine family.scanned p c ?_
      simp only [at_,Pc.scanned]
      omega
  | waitSeen p _ addr i havekids running at_ all =>
    refine family_section shape family at_ rfl id rfl rfl (by rintro _ ⟨⟩) ?_ (by rintro _ _ _ ⟨⟩) (by rintro _ _ ⟨⟩)
    intro c _
    refine family.scanned p c ?_
    simp only [at_,Pc.scanned]
    omega
  | waitGoesOn p _ addr havekids running at_ =>
    refine family_section shape family at_ rfl id rfl rfl (by rintro _ ⟨⟩) ?_ (by rintro _ _ _ ⟨⟩) (by rintro _ _ ⟨⟩)
    simpa [at_,Pc.scanned] using family.scanned p
  | waitSleep p _ addr running at_ unlocked =>
    have held : s.waitLock = some p := (shape.fits p).held_iff.mpr (by simp [at_,Pc.kind])
    refine family_release family (family.settled (.inr held) (by simp [at_,Pc.rouses])) rfl rfl rfl (by simp [Pc.kind])
      (fun _ => rfl) (by simp) fun _ c parent => ⟨family.scanned p c (by simp [at_,Pc.scanned]) parent,?_⟩
    by_cases same : c = p
    · simp [same,at_,Pc.roused]
    · exact (Pc.outside fun holding => same (shape.solo (.inr held) c holding)).2.2.1
  | waitDoze p _ addr running at_ =>
    have sleeping : Family (s.set p { s.proc p with chan := some (.proc p), state := .sleeping }) :=
      family_keep family rfl (by simp [running,ProcState.live]) (by rintro ⟨⟩) (by rintro ⟨⟩) (by simp [at_,Pc.kind])
    refine family_pc sleeping ⟨rfl,rfl,rfl,fun _ => rfl,by simp,by rintro _ ⟨⟩,by rintro _ ⟨⟩,by rintro _ _ _ ⟨⟩,by rintro _ _ ⟨⟩,fun _ => .inl (.inl ?_),?_⟩
    · simp [State.set,at_,Pc.kind]
    · intro q c asleep parent zombie
      obtain ⟨isInit,r,held,rouses⟩ := sleeping.waiting q c asleep parent zombie
      have other : r ≠ p := by
        rintro rfl
        simp [State.set,at_,Pc.rouses] at rouses
      exact ⟨isInit,r,held,by simpa [State.goto,other] using rouses⟩
  | killHit p _ pid j running at_ unlocked named =>
    have hit : Family (s.set j (s.proc j).kill) := by
      refine family_keep family rfl ?_ ?_ ?_ ?_
      all_goals
        unfold Proc.kill
        split_ifs with asleep <;> simp [asleep,ProcState.live]
    exact family_emit (family_goto hit (shape.unheld (by simp [at_,Pc.kind])) (by simp [Pc.kind]) (by simp) fun _ => rfl)
  | fault p running at_ | work p _ _ _ _ running at_ => exact family_keep family rfl rfl id id fun _ => id
  | sleep p n running at_ =>
    refine family_keep family rfl (by simp [running,ProcState.live]) (by rintro ⟨⟩) (by rintro ⟨⟩) fun asleep => ?_
    have fits := shape.fits p
    simp [State.Fits,Fits,asleep,running] at fits
  | wakeup p n asleep on =>
    exact family_keep family rfl (by simp [asleep,ProcState.live]) (by rintro ⟨⟩) (by rintro ⟨⟩) fun _ => by rintro ⟨⟩
  | yield p running free unlocked =>
    exact family_keep family rfl (by simp [running,ProcState.live]) (by rintro ⟨⟩) (by rintro ⟨⟩) fun _ => by rintro ⟨⟩
  | resume p ready other =>
    exact family_keep family rfl (by simp [ready,Proc.resume,ProcState.live]) (by rintro ⟨⟩) (by rintro ⟨⟩) fun _ => by rintro ⟨⟩
  | rewait p addr ready at_ =>
    have awake : Family (s.set p (s.proc p).resume) :=
      family_keep family rfl (by simp [ready,Proc.resume,ProcState.live]) (by rintro ⟨⟩) (by rintro ⟨⟩) fun _ => by rintro ⟨⟩
    exact family_goto awake (shape.unheld (by simp [at_,Pc.kind])) (by simp [Pc.kind]) (by simp) fun _ => rfl
  | switch p at_ => exact family_same family rfl rfl rfl rfl

theorem family_userinit {trapframe pagetable cwd : Ptr} (frame : trapframe ≠ 0) (table : pagetable ≠ 0) :
    Family (userinit trapframe pagetable cwd) := by
  obtain ⟨new,parent,state,booted⟩ := userinit_booted cwd frame table
  have orphan : ∀ c, ((procinit.allocpid.set 0 new).proc c).parent = none := by
    intro c
    by_cases first : c = 0
    · simpa [first,State.set] using parent
    · simp [first,State.set,State.allocpid,procinit,zeroProc]
  have unused : ∀ c, c ≠ 0 → ((procinit.allocpid.set 0 new).proc c).state = .unused := by
    intro c other
    simp [other,State.set,State.allocpid,procinit,zeroProc]
  have user : ∀ c, (procinit.allocpid.set 0 new).pc c = .user := fun _ => rfl
  have initproc : (procinit.allocpid.set 0 new).initproc = 0 := rfl
  rw [booted]
  refine ⟨fun c _ => orphan c,?_,?_,rfl,?_,?_,?_,?_,?_,?_,?_⟩
  case refine_2 => simp [State.set,State.allocpid,procinit,state,ProcState.live]
  case refine_3 =>
    intro c other
    simp [unused c other,ProcState.live]
  all_goals simp [orphan,user]

theorem reachable_family {s : State} (reached : system.Reachable s) : Family s := by
  refine reached.invariant ?_ ?_
  · rintro s ⟨trapframe,pagetable,cwd,frame,table,rfl⟩
    exact family_userinit frame table
  · exact fun s label s' before family stepped => family_step (reachable_shape before) family (step_trans stepped)

end Xv6.Procs
