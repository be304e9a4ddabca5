import Xv6.Proc.Slots

/-! Pids of live processes. allocpid hands out a 32-bit int and adds one to it for
every allocproc that finds a slot, those of kforks that fail included, so it comes
back to negative numbers and to pids in use. -/
namespace Xv6.Procs
open Lib
open Function (update_apply update_idem update_of_ne)
variable {label : Label} {np p : Slot} {s s' : State}

/-- Processes have different, positive pids, and a kfork that is about to succeed
returns the pid of its child. -/
structure State.PidsIdentify (s : State) : Prop where
  positive : ∀ c, (s.proc c).state ≠ .unused → 0 < (s.proc c).pid.toInt
  distinct : ∀ c d, (s.proc c).state ≠ .unused → (s.proc d).state ≠ .unused → (s.proc c).pid = (s.proc d).pid → c = d
  returns : ∀ p np pid, s.pc p = .forkParent np pid ∨ s.pc p = .forkRunnable np pid →
    (s.proc np).state ≠ .unused ∧ (s.proc np).pid = pid

def PositivePid (s : State) : Label → Prop
  | .run p _ => ∀ np : Slot, s.pc p = .allocproc np → (s.proc np).state = .unused → 0 < s.nextpid.toInt
  | _ => True

theorem toInt_add_one {n : BitVec 32} (positive : 0 < n.toInt) (next : 0 < (n + 1).toInt) :
    (n + 1).toInt = n.toInt + 1 := by
  have small := n.isLt
  have sum : (n + 1).toNat = (n.toNat + 1) % 2 ^ 32 := BitVec.toNat_add n 1
  simp only [BitVec.toInt_eq_toNat_cond] at *
  split_ifs at * <;> omega

theorem pid_cases (shape : Shape s) (trans : Trans s label s') :
    (s'.nextpid = s.nextpid ∧
      ∀ c, (s'.proc c).state ≠ .unused → (s.proc c).state ≠ .unused ∧ (s'.proc c).pid = (s.proc c).pid) ∨
    ∃ p env, ∃ np : Slot, label = .run p env ∧ s.pc p = .allocproc np ∧ (s.proc np).state = .unused ∧
      s'.nextpid = s.nextpid + 1 ∧ ((s'.proc np).state ≠ .unused → (s'.proc np).pid = s.nextpid) ∧
      ∀ c, c ≠ np → s'.proc c = s.proc c := by
  cases trans
  case forkFails p env np running at_ unused =>
    refine .inr ⟨p,env,np,rfl,at_,unused,rfl,fun used => ?_,fun c other => update_of_ne other _ _⟩
    simp [forkFails,State.emit,State.goto,State.set,freeproc] at used
  case forkFound p env np running at_ unused =>
    refine .inr ⟨p,env,np,rfl,at_,unused,rfl,fun used => ?_,fun c other => update_of_ne other _ _⟩
    simp [State.goto,State.set,forked]
  case forkRunnable p env np pid running at_ =>
    have used : (s.proc np).state = .used := shape.child p np (by rw [at_]; rfl)
    refine .inl ⟨rfl,fun c live => ?_⟩
    simp only [State.goto,State.set,State.emit,update_apply] at live ⊢
    grind
  all_goals
    refine .inl ⟨rfl,fun c used => ?_⟩
    simp only [State.goto,State.set,State.emit,State.leaveWait,State.reap,State.die,update_apply] at used ⊢
    grind [freeproc,Proc.resume,Proc.kill]

theorem returns_cases {pid : BitVec 32} (trans : Trans s label s')
    (at_ : s'.pc p = .forkParent np pid ∨ s'.pc p = .forkRunnable np pid) :
    (s.pc p = .forkParent np pid ∨ s.pc p = .forkRunnable np pid) ∨
      (s'.proc np).state ≠ .unused ∧ (s'.proc np).pid = pid := by
  cases trans
  case forkFound q env mp running was unused =>
    simp only [State.goto,State.set,State.allocpid,update_apply] at at_ ⊢
    by_cases same : p = q
    · subst same
      simp only [if_true,Pc.forkParent.injEq,reduceCtorEq,or_false] at at_
      obtain ⟨rfl,rfl⟩ := at_
      exact .inr (by simp [forked])
    · simp only [same,if_false] at at_
      exact .inl at_
  case wakeNext q env chan j next running loop unlocked not =>
    left
    generalize s.pc q = pc at loop
    cases loop <;> simp only [State.goto,update_apply] at at_ <;> grind
  case wake q env chan j next running loop other unlocked asleep on =>
    left
    generalize s.pc q = pc at loop
    cases loop <;> simp only [State.goto,State.set,update_apply] at at_ <;> grind
  all_goals
    left
    simp only [State.goto,State.set,State.emit,State.leaveWait,State.reap,State.die,forkFails,State.allocpid,
      update_apply] at at_
    grind

structure State.PidsBelow (s : State) : Prop extends s.PidsIdentify where
  below : 0 < s.nextpid.toInt → ∀ c, (s.proc c).state ≠ .unused → (s.proc c).pid.toInt < s.nextpid.toInt

theorem pids_step (shape : Shape s) (shape' : Shape s') (pids : s.PidsBelow)
    (allowed : PositivePid s label) (trans : Trans s label s') : s'.PidsBelow := by
  have returns : ∀ p np pid, s'.pc p = .forkParent np pid ∨ s'.pc p = .forkRunnable np pid →
      (∀ c, (s'.proc c).state ≠ .unused → (s.proc c).state ≠ .unused → (s'.proc c).pid = (s.proc c).pid) →
      (s'.proc np).state ≠ .unused ∧ (s'.proc np).pid = pid := by
    intro p np pid at_ kept
    rcases returns_cases trans at_ with before | now
    · have used : (s'.proc np).state = .used := shape'.child p np (by rcases at_ with at_ | at_ <;> rw [at_] <;> rfl)
      obtain ⟨live,same⟩ := pids.returns p np pid before
      have taken : (s'.proc np).state ≠ .unused := by simp [used]
      exact ⟨taken,(kept np taken live).trans same⟩
    · exact now
  obtain ⟨⟨positive,distinct,returned⟩,below⟩ := pids
  rcases pid_cases shape trans with ⟨next,kept⟩ | ⟨p,env,np,rfl,at_,unused,next,taken,others⟩
  · refine ⟨⟨?_,?_,?_⟩,?_⟩ <;> grind
  · have positive := allowed np at_ unused
    have above : 0 < s'.nextpid.toInt → s'.nextpid.toInt = s.nextpid.toInt + 1 := by
      rw [next]
      exact toInt_add_one positive
    -- the new pid is above all the others
    have fresh : ∀ c, c ≠ np → (s'.proc c).state ≠ .unused → (s'.proc c).pid.toInt < s.nextpid.toInt := by
      grind
    refine ⟨⟨?_,?_,?_⟩,?_⟩ <;> grind

theorem pids_userinit {trapframe pagetable : Ptr} (cwd : Ptr) (frame : trapframe ≠ 0) (table : pagetable ≠ 0) :
    (userinit trapframe pagetable cwd).PidsBelow := by
  have first : userinit trapframe pagetable cwd = procinit.allocpid.set 0
      { zeroProc with pid := 1, state := .runnable, trapframe := trapframe, pagetable := pagetable, cwd := cwd } := by
    rw [userinit,allocFound,if_neg (not_or.mpr ⟨frame,table⟩)]
    rfl
  have only : ∀ c, ((userinit trapframe pagetable cwd).proc c).state ≠ .unused →
      c = 0 ∧ ((userinit trapframe pagetable cwd).proc c).pid = 1 := by
    intro c live
    rw [first] at live ⊢
    by_cases zero : c = 0
    · subst zero
      exact ⟨rfl,rfl⟩
    · simp [State.set,zero,State.allocpid,procinit,zeroProc] at live
  refine ⟨⟨fun c live => ?_,fun c d live live' _ => ?_,fun p np pid at_ => ?_⟩,fun _ c live => ?_⟩
  · rw [(only c live).2]
    decide
  · rw [(only c live).1,(only d live').1]
  · rw [first] at at_
    simp [State.set,State.allocpid,procinit] at at_
  · rw [(only c live).2,first]
    exact show (1 : BitVec 32).toInt < (procinit.nextpid + 1).toInt by decide

/-- In a run in which allocpid never takes a number that is not positive, live
processes have different, positive pids, and the pid that a kfork is about to
return is the one of its child. -/
theorem pids_identify {s : State} (reached : (system.restrict PositivePid).Reachable s) : s.PidsIdentify := by
  have pids : s.PidsBelow := by
    refine reached.invariant ?_ ?_
    · rintro s ⟨trapframe,pagetable,cwd,frame,table,rfl⟩
      exact pids_userinit cwd frame table
    · intro s label s' before pids stepped
      have shape := reachable_shape before.of_restrict
      exact pids_step shape (shape_step shape (step_trans stepped.2)) pids stepped.1 (step_trans stepped.2)
  exact pids.toPidsIdentify

instance (s : State) (label : Label) : Decidable (PositivePid s label) :=
  match label with
  | .run p _ => inferInstanceAs
      (Decidable (∀ np : Slot, s.pc p = .allocproc np → (s.proc np).state = .unused → 0 < s.nextpid.toInt))
  | .call .. | .fault .. | .work .. | .sleep .. | .wakeup .. | .yield .. | .schedule .. | .switch .. => isTrue trivial

def forkRun (uvmcopy : Bool) : List Label :=
  [.call 0 .kfork,.run 0 ⟨4096,8192,uvmcopy,true⟩,.run 0 ⟨4096,8192,uvmcopy,true⟩]

/-- Init forks: its child is in slot 1 and has another pid. -/
theorem pids_identify_child : ∃ s, (system.restrict PositivePid).Reachable s ∧ (s.proc 1).state = .used ∧
    0 < (s.proc 1).pid.toInt ∧ ((s.proc 0).pid = (s.proc 1).pid → (0 : Slot) = 1) := by
  have ran : (System.run (System.guarded PositivePid step) booted (.schedule 0 :: forkRun true)).any fun s =>
      (s.proc 1).state = .used && (s.proc 0).state = .running := by decide +kernel
  obtain ⟨s,ran,facts⟩ := (Option.any_eq_true _ _).mp ran
  simp only [Bool.and_eq_true,decide_eq_true_eq] at facts
  have reached : (system.restrict PositivePid).Reachable s :=
    System.Reachable.run_guarded (.start _ ⟨4096,8192,1,by decide,by decide,rfl⟩) ran
  have pids := pids_identify reached
  exact ⟨s,reached,facts.1,pids.positive 1 (by simp [facts.1]),pids.distinct 0 1 (by simp [facts.2]) (by simp [facts.1])⟩

structure State.InitAlone (s : State) : Prop where
  alive : s.panicked = false
  running : (s.proc 0).state = .running
  pid : (s.proc 0).pid = 1
  user : s.pc 0 = .user
  free : s.proc 1 = zeroProc
  unlocked : s.locked = fun _ => false

theorem step_allocproc (env : Env) (alive : s.panicked = false)
    (running : (s.proc p).state = .running) (at_ : s.pc p = .allocproc np) :
    step s (.run p env) = allocSlot s p np env := by
  simp only [step,next,alive,running,at_,and_self,if_true,np.isLt,dif_pos]

theorem kfork_finds (uvmcopy : Bool) (alone : s.InitAlone) :
    System.run step s (forkRun uvmcopy) = some (forkFound (s.goto 0 (.allocproc 1)) 0 1 ⟨4096,8192,uvmcopy,true⟩) := by
  obtain ⟨alive,running,pid,user,free,unlocked⟩ := alone
  have taken : ¬(s.proc 0).state = .unused := by simp [running]
  have called : step s (.call 0 .kfork) = some (s.goto 0 (.allocproc 0)) := by
    simp only [step,alive,running,user,and_self,if_true,enter]
  have passed (env : Env) : step (s.goto 0 (.allocproc 0)) (.run 0 env) = some (s.goto 0 (.allocproc 1)) := by
    have at_ : (s.goto 0 (.allocproc 0)).pc 0 = .allocproc (0 : Slot) := by simp [State.goto]
    rw [step_allocproc (s := s.goto 0 (.allocproc 0)) env alive running at_]
    simp [allocSlot,State.goto,unlocked,taken]
  have found (env : Env) : step (s.goto 0 (.allocproc 1)) (.run 0 env) =
      some (forkFound (s.goto 0 (.allocproc 1)) 0 1 env) := by
    have at_ : (s.goto 0 (.allocproc 1)).pc 0 = .allocproc (1 : Slot) := by simp [State.goto,nproc]
    rw [step_allocproc (s := s.goto 0 (.allocproc 1)) env alive running at_]
    simp [allocSlot,State.goto,unlocked,free,zeroProc]
  simp only [System.run,forkRun,called,passed,found,Option.bind_some]

theorem kfork_fails (alone : s.InitAlone) :
    ∃ s', System.run step s (forkRun false) = some s' ∧ s'.InitAlone ∧ s'.nextpid = s.nextpid + 1 := by
  have kept : (forkFails (s.goto 0 (.allocproc 1)) 0 1).proc 0 = s.proc 0 := by
    have other : (0 : Slot) ≠ 1 := by decide
    simp [forkFails,State.emit,State.goto,State.set,State.allocpid,other]
  refine ⟨forkFails (s.goto 0 (.allocproc 1)) 0 1,?_,⟨alone.alive,?_,?_,?_,?_,alone.unlocked⟩,rfl⟩
  · rw [kfork_finds false alone]
    simp [forkFound,allocFound]
  · rw [kept]
    exact alone.running
  · rw [kept]
    exact alone.pid
  · simp [forkFails,State.emit,State.goto,State.set,State.allocpid]
  · simp [forkFails,State.emit,State.goto,State.set,State.allocpid,freeproc,alone.free,zeroProc]

def OnlyForks (_ : State) : Label → Prop
  | .call _ call => call = .kfork
  | .run .. | .schedule .. => True
  | _ => False

theorem forkRun_only {uvmcopy : Bool} (s : State) : ∀ label ∈ forkRun uvmcopy, OnlyForks s label := by
  simp [forkRun,OnlyForks]

theorem reachable_nextpid (k : Nat) :
    ∃ s, (system.restrict OnlyForks).Reachable s ∧ s.InitAlone ∧ s.nextpid = BitVec.ofNat 32 (k + 2) := by
  induction k with
  | zero =>
    have first : (system.restrict OnlyForks).Reachable booted := .start _ ⟨4096,8192,1,by decide,by decide,rfl⟩
    have only : ∀ s, ∀ label ∈ [Label.schedule 0], OnlyForks s label := by simp [OnlyForks]
    have ran : System.run step booted [.schedule 0] = some (booted.set 0 (booted.proc 0).resume) := rfl
    exact ⟨_,first.run_restrict only ran,⟨rfl,rfl,rfl,rfl,rfl,rfl⟩,rfl⟩
  | succ k ih =>
    obtain ⟨s,reached,alone,next⟩ := ih
    obtain ⟨s',ran,alone',next'⟩ := kfork_fails alone
    refine ⟨s',reached.run_restrict forkRun_only ran,alone',?_⟩
    rw [next',next]
    exact (BitVec.ofNat_add (k + 2) 1).symm

theorem nextpid_comes_round (pid : BitVec 32) :
    ∃ s, (system.restrict OnlyForks).Reachable s ∧ s.InitAlone ∧ s.nextpid = pid := by
  obtain ⟨s,reached,alone,next⟩ := reachable_nextpid (pid.toNat + (2 ^ 32 - 2))
  refine ⟨s,reached,alone,?_⟩
  rw [next]
  apply BitVec.eq_of_toNat_eq
  have small := pid.isLt
  rw [BitVec.toNat_ofNat]
  omega

theorem child_takes_any_pid (pid : BitVec 32) : ∃ s, (system.restrict OnlyForks).Reachable s ∧
    (s.proc 0).state ≠ .unused ∧ (s.proc 0).pid = 1 ∧ (s.proc 1).state ≠ .unused ∧ (s.proc 1).pid = pid ∧
    s.pc 0 = .forkParent 1 pid := by
  obtain ⟨s,reached,alone,rfl⟩ := nextpid_comes_round pid
  let child := forked (s.proc 0) (s.proc 1) s.nextpid ⟨4096,8192,true,true⟩
  have found : forkFound (s.goto 0 (.allocproc 1)) 0 1 ⟨4096,8192,true,true⟩ =
      (s.allocpid.set 1 child).goto 0 (.forkParent 1 s.nextpid) := by
    simp only [forkFound,allocFound,State.goto,State.set,State.allocpid,child,forked,update_idem]
    rfl
  have kept : ((s.allocpid.set 1 child).goto 0 (.forkParent 1 s.nextpid)).proc 0 = s.proc 0 := by
    have other : (0 : Slot) ≠ 1 := by decide
    simp [State.goto,State.set,State.allocpid,other]
  refine ⟨_,reached.run_restrict forkRun_only ((kfork_finds true alone).trans (by rw [found])),?_,?_,?_,?_,?_⟩
  · rw [kept,alone.running]
    rintro ⟨⟩
  · rw [kept,alone.pid]
  · simp [State.goto,State.set,child,forked]
  · simp [State.goto,State.set,child,forked]
  · simp [State.goto]

/-- After 2^31 - 2 kforks the next one gives its child a negative pid and is about
to return it; after 2^32 - 1 the child has the pid of init. -/
theorem pids_come_round : (∃ s, (system.restrict OnlyForks).Reachable s ∧ (s.proc 1).state ≠ .unused ∧
      (s.proc 1).pid.toInt = -2147483648 ∧ s.pc 0 = .forkParent 1 (s.proc 1).pid) ∧
    ∃ s, (system.restrict OnlyForks).Reachable s ∧ (s.proc 0).state ≠ .unused ∧ (s.proc 1).state ≠ .unused ∧
      (s.proc 0).pid = (s.proc 1).pid := by
  constructor
  · obtain ⟨s,reached,-,-,live,pid,at_⟩ := child_takes_any_pid 2147483648#32
    exact ⟨s,reached,live,by rw [pid]; decide,by rw [pid,at_]⟩
  · obtain ⟨s,reached,init,one,live,pid,-⟩ := child_takes_any_pid 1
    exact ⟨s,reached,init,live,by rw [one,pid]⟩

end Xv6.Procs
