import Xv6.Log.Bracket
import Xv6.Lib.Count
import Mathlib.Tactic

/-! File-system operations are never split by a commit. Brackets overlap in any
order; a commit runs only with none of them open, every block one bracket logs
goes to the same transaction, and nobody sleeps on an idle, empty log. -/
namespace Xv6.Bracket
open Lib Lib.Count
variable {P : Type*} [DecidableEq P]
variable {op : Nat} {pc there : Pc}

def Pc.isInside : Pc → Bool
  | .inside _ => true
  | _ => false

structure Inv [Fintype P] (s : State P) : Prop where
  counted : s.outstanding = count Pc.isInside s.pc
  solo : ∀ p q a b, s.pc p = .committing a → s.pc q = .committing b → p = q
  flag : s.committing = true ↔ ∃ p a, s.pc p = .committing a
  quiet : s.committing = true → s.outstanding = 0
  empty : s.outstanding = 0 → s.committing = false → s.lh = []
  drained : ∀ p a, s.pc p = .committing a → a = .cleared ∨ a = .done → s.lh = []
  past : ∀ p a, s.pc p = .committing a → a = .headed ∨ a = .moved → ∀ w ∈ s.writes, w.txn < s.history.length
  sleeper : ∀ p, s.pc p = .asleep → s.committing = true ∨ 0 < s.outstanding
  safe : s.panicked = none ∨ s.panicked = some .tooBig
  numbered : ∀ w ∈ s.writes, w.op < s.ops
  opened : ∀ p op, s.pc p = .inside op → op < s.ops
  current : ∀ p op, s.pc p = .inside op → ∀ w ∈ s.writes, w.op = op → w.txn = s.history.length
  together : ∀ w ∈ s.writes, ∀ v ∈ s.writes, w.op = v.op → w.txn = v.txn
  belongs : ∀ w ∈ s.writes, (∃ txn, s.history[w.txn]? = some txn ∧ w.block ∈ txn) ∨
    (w.txn = s.history.length ∧ w.block ∈ s.lh)

theorem goto_pc (s : State P) (p q : P) (pc : Pc) :
    (s.goto p pc).pc q = if q = p then pc else s.pc q := by
  simp [State.goto,Function.update_apply]

omit [DecidableEq P] in
theorem wakeup_pc (s : State P) (q : P) : (wakeup s).pc q = wake (s.pc q) := rfl

theorem wake_cases (pc : Pc) : pc = .asleep ∧ wake pc = .entering ∨ pc ≠ .asleep ∧ wake pc = pc := by
  cases pc <;> simp [wake]

theorem wake_eq (awake : there ≠ .entering) (at_ : wake pc = there) : pc = there := by
  rcases wake_cases pc with ⟨_,woken⟩ | ⟨_,same⟩
  · exact absurd (woken.symm.trans at_).symm awake
  · exact same.symm.trans at_

omit [DecidableEq P] in
theorem wakeup_awake (s : State P) (q : P) : (wakeup s).pc q ≠ .asleep := by
  rw [wakeup_pc]
  rcases wake_cases (s.pc q) with ⟨_,woken⟩ | ⟨awake,same⟩
  · simp [woken]
  · rwa [same]

theorem wakeup_goto (s : State P) (p : P) : (wakeup s).goto p .out = wakeup (s.goto p .out) := by
  simp [wakeup,State.goto,Function.comp_update,wake]

def Pc.Idle (pc : Pc) : Prop := pc = .out ∨ pc = .entering ∨ pc = .asleep

theorem Pc.Idle.isInside (idle : pc.Idle) : pc.isInside = false := by
  rcases idle with rfl | rfl | rfl <;> rfl

theorem Pc.Idle.not_committing (idle : pc.Idle) (a : Stage) : pc ≠ .committing a := by
  rcases idle with rfl | rfl | rfl <;> simp

theorem Pc.Idle.not_inside (idle : pc.Idle) (op : Nat) : pc ≠ .inside op := by
  rcases idle with rfl | rfl | rfl <;> simp

theorem goto_idle {s : State P} {p q : P} (idle : pc.Idle) (active : ¬there.Idle)
    (at_ : (s.goto p pc).pc q = there) : q ≠ p ∧ s.pc q = there := by
  rw [goto_pc] at at_
  split_ifs at at_ with same
  · exact absurd (at_ ▸ idle) active
  · exact ⟨same,at_⟩

theorem not_idle_committing (a : Stage) : ¬(Pc.committing a).Idle := fun idle => idle.not_committing a rfl

theorem not_idle_inside (op : Nat) : ¬(Pc.inside op).Idle := fun idle => idle.not_inside op rfl

variable [Fintype P]

theorem goto_count (s : State P) (p : P) (pc : Pc) :
    count Pc.isInside (s.goto p pc).pc + (if (s.pc p).isInside then 1 else 0) =
      count Pc.isInside s.pc + (if pc.isInside then 1 else 0) :=
  count_update Pc.isInside s.pc p pc

omit [DecidableEq P] in
theorem wakeup_count (s : State P) : count Pc.isInside (wakeup s).pc = count Pc.isInside s.pc :=
  count_congr fun q => by
    rcases wake_cases (s.pc q) with ⟨asleep,woken⟩ | ⟨_,same⟩
    · rw [wakeup_pc,woken,asleep]
      rfl
    · simp [wakeup,same]

omit [DecidableEq P] in
theorem Inv.closed {s : State P} (inv : Inv s) (zero : s.outstanding = 0) (q : P) (op : Nat) :
    s.pc q ≠ .inside op := by
  intro inside
  have some : 0 < count Pc.isInside s.pc := count_pos q (by simp [inside,Pc.isInside])
  have counted := inv.counted
  omega

theorem inv_move {s : State P} (inv : Inv s) {p : P} (before : (s.pc p).Idle) (after : pc.Idle)
    (awake : pc = .asleep → s.committing = true ∨ 0 < s.outstanding) : Inv (s.goto p pc) := by
  have same : count Pc.isInside (s.goto p pc).pc = count Pc.isInside s.pc := by
    simpa [before.isInside,after.isInside] using goto_count s p pc
  have committing : ∀ q a, (s.goto p pc).pc q = .committing a → s.pc q = .committing a :=
    fun q a at_ => (goto_idle after (not_idle_committing a) at_).2
  have inside : ∀ q op, (s.goto p pc).pc q = .inside op → s.pc q = .inside op :=
    fun q op at_ => (goto_idle after (not_idle_inside op) at_).2
  refine ⟨same ▸ inv.counted,?_,?_,inv.quiet,inv.empty,?_,?_,?_,inv.safe,inv.numbered,?_,?_,inv.together,inv.belongs⟩
  · exact fun q r a b first second => inv.solo q r a b (committing q a first) (committing r b second)
  · refine inv.flag.trans ⟨fun ⟨q,a,at_⟩ => ⟨q,a,?_⟩,fun ⟨q,a,at_⟩ => ⟨q,a,committing q a at_⟩⟩
    have other : q ≠ p := by
      rintro rfl
      exact before.not_committing a at_
    simpa [goto_pc,other] using at_
  · exact fun q a at_ => inv.drained q a (committing q a at_)
  · exact fun q a at_ => inv.past q a (committing q a at_)
  · intro q asleep
    rw [goto_pc] at asleep
    split_ifs at asleep
    · exact awake asleep
    · exact inv.sleeper q asleep
  · exact fun q op at_ => inv.opened q op (inside q op at_)
  · exact fun q op at_ => inv.current q op (inside q op at_)

omit [DecidableEq P] in
theorem inv_wakeup {s : State P} (inv : Inv s) : Inv (wakeup s) := by
  have committing : ∀ q a, (wakeup s).pc q = .committing a → s.pc q = .committing a :=
    fun q a at_ => wake_eq (by simp) at_
  have inside : ∀ q op, (wakeup s).pc q = .inside op → s.pc q = .inside op := fun q op at_ => wake_eq (by simp) at_
  refine ⟨(wakeup_count s).symm ▸ inv.counted,?_,?_,inv.quiet,inv.empty,?_,?_,?_,inv.safe,inv.numbered,?_,?_,
    inv.together,inv.belongs⟩
  · exact fun q r a b first second => inv.solo q r a b (committing q a first) (committing r b second)
  · refine inv.flag.trans ⟨fun ⟨q,a,at_⟩ => ⟨q,a,?_⟩,fun ⟨q,a,at_⟩ => ⟨q,a,committing q a at_⟩⟩
    rw [wakeup_pc,at_,wake]
    simp
  · exact fun q a at_ => inv.drained q a (committing q a at_)
  · exact fun q a at_ => inv.past q a (committing q a at_)
  · intro q asleep
    exact inv.sleeper q (wake_eq (by simp) asleep)
  · exact fun q op at_ => inv.opened q op (inside q op at_)
  · exact fun q op at_ => inv.current q op (inside q op at_)

theorem inv_admit {s : State P} (inv : Inv s) {p : P} (before : s.pc p = .entering) (idle : s.committing = false) :
    Inv { s.goto p (.inside s.ops) with outstanding := s.outstanding + 1, ops := s.ops + 1 } := by
  have more : count Pc.isInside (s.goto p (.inside s.ops)).pc = count Pc.isInside s.pc + 1 := by
    simpa [before,Pc.isInside] using goto_count s p (.inside s.ops)
  have nobody : ∀ q a, (s.goto p (.inside s.ops)).pc q ≠ .committing a := by
    intro q a at_
    rw [goto_pc] at at_
    split_ifs at at_
    have busy := inv.flag.mpr ⟨q,a,at_⟩
    simp [idle] at busy
  have counted := inv.counted
  refine ⟨?_,fun q r a b first => absurd first (nobody q a),?_,fun busy => ?_,fun zero => ?_,
    fun q a at_ => absurd at_ (nobody q a),fun q a at_ => absurd at_ (nobody q a),fun q _ => .inr ?_,inv.safe,?_,?_,?_,
    inv.together,inv.belongs⟩
  · change s.outstanding + 1 = (count Pc.isInside (s.goto p (.inside s.ops)).pc : Int)
    omega
  · exact ⟨fun busy => absurd (idle.symm.trans busy) (by simp),fun ⟨q,a,at_⟩ => absurd at_ (nobody q a)⟩
  · exact absurd (idle.symm.trans busy) (by simp)
  · change s.outstanding + 1 = 0 at zero
    omega
  · change 0 < s.outstanding + 1
    omega
  · exact fun w member => Nat.lt_succ_of_lt (inv.numbered w member)
  · intro q op at_
    change (s.goto p (.inside s.ops)).pc q = .inside op at at_
    rw [goto_pc] at at_
    split_ifs at at_
    · cases at_
      exact Nat.lt_succ_self s.ops
    · exact Nat.lt_succ_of_lt (inv.opened q op at_)
  · intro q op at_ w member same
    change (s.goto p (.inside s.ops)).pc q = .inside op at at_
    rw [goto_pc] at at_
    split_ifs at at_
    · cases at_
      exact absurd same (Nat.ne_of_lt (inv.numbered w member))
    · exact inv.current q op at_ w member same

theorem inv_beginOp {s : State P} (inv : Inv s) {p : P} (before : s.pc p = .entering) : Inv (beginOp s p) := by
  unfold beginOp
  split
  next busy => exact inv_move inv (.inr (.inl before)) (.inr (.inr rfl)) fun _ => .inl busy
  next idle =>
    split
    next full =>
      -- no room only while other brackets are open: an empty idle log has room for one
      refine inv_move inv (.inr (.inl before)) (.inr (.inr rfl)) fun _ => .inr ?_
      have positive : 0 ≤ s.outstanding := by rw [inv.counted]; omega
      by_contra none
      have zero : s.outstanding = 0 := by omega
      have empty := inv.empty zero (by simpa using idle)
      simp [zero,empty,logBlocks,maxOpBlocks] at full
    next room => exact inv_admit inv before (by simpa using idle)

omit [DecidableEq P] in
theorem Inv.idle {s : State P} (inv : Inv s) {p : P} (before : s.pc p = .inside op) :
    0 < s.outstanding ∧ s.committing = false := by
  have some : 0 < count Pc.isInside s.pc := count_pos p (by simp [before,Pc.isInside])
  have counted := inv.counted
  refine ⟨by omega,?_⟩
  by_contra busy
  have zero := inv.quiet (by simpa using busy)
  omega

omit [DecidableEq P] in
theorem inv_logWrite {s : State P} (inv : Inv s) {p : P} (before : s.pc p = .inside op) (b : BitVec 32) :
    Inv (logWrite s op b) := by
  obtain ⟨positive,idle⟩ := inv.idle before
  have nobody : ∀ q a, s.pc q ≠ .committing a := by
    intro q a at_
    have busy := inv.flag.mpr ⟨q,a,at_⟩
    simp [idle] at busy
  unfold logWrite
  split
  next => exact ⟨inv.counted,inv.solo,inv.flag,inv.quiet,inv.empty,inv.drained,inv.past,inv.sleeper,.inr rfl,inv.numbered,
      inv.opened,inv.current,inv.together,inv.belongs⟩
  next =>
    rw [if_neg (by omega)]
    have current := inv.current p op before
    have listed : b ∈ (if b ∈ s.lh then s.lh else s.lh ++ [b]) := by
      split_ifs with old
      · exact old
      · simp
    have kept : ∀ x ∈ s.lh, x ∈ (if b ∈ s.lh then s.lh else s.lh ++ [b]) := by
      intro x member
      split_ifs
      · exact member
      · exact List.mem_append_left _ member
    refine ⟨inv.counted,inv.solo,inv.flag,inv.quiet,fun zero => ?_,fun q a at_ => absurd at_ (nobody q a),
      fun q a at_ => absurd at_ (nobody q a),inv.sleeper,inv.safe,?_,inv.opened,?_,?_,?_⟩
    · exact absurd zero (by change s.outstanding ≠ 0; omega)
    · intro w member
      rcases List.mem_append.mp member with old | new
      · exact inv.numbered w old
      · cases List.mem_singleton.mp new
        exact inv.opened p op before
    · grind [inv.current]
    · grind [inv.together]
    · grind [Inv,State,Function.update_apply]

theorem inv_last {s : State P} (inv : Inv s) {p : P} (before : s.pc p = .inside op)
    (last : s.outstanding - 1 = 0) :
    Inv { s.goto p (.committing .begun) with outstanding := s.outstanding - 1, committing := true } := by
  obtain ⟨positive,idle⟩ := inv.idle before
  have fewer : count Pc.isInside (s.goto p (.committing .begun)).pc + 1 = count Pc.isInside s.pc := by
    simpa [before,Pc.isInside] using goto_count s p (.committing .begun)
  have counted := inv.counted
  have none : ∀ q o, (s.goto p (.committing .begun)).pc q ≠ .inside o := by
    intro q o inside
    have some : 0 < count Pc.isInside (s.goto p (.committing .begun)).pc :=
      count_pos q (by simp [inside,Pc.isInside])
    omega
  have mine : ∀ q a, (s.goto p (.committing .begun)).pc q = .committing a → q = p ∧ a = .begun := by
    intro q a at_
    rw [goto_pc] at at_
    split_ifs at at_ with same
    · exact ⟨same,by simpa using at_.symm⟩
    · have busy := inv.flag.mpr ⟨q,a,at_⟩
      simp [idle] at busy
  refine ⟨?_,fun q r a b first second => (mine q a first).1.trans (mine r b second).1.symm,
    ⟨fun _ => ⟨p,.begun,by simp [goto_pc]⟩,fun _ => rfl⟩,fun _ => last,nofun,?_,?_,fun _ _ => .inl rfl,inv.safe,
    inv.numbered,fun q o at_ => absurd at_ (none q o),fun q o at_ => absurd at_ (none q o),inv.together,inv.belongs⟩
  · change s.outstanding - 1 = (count Pc.isInside (s.goto p (.committing .begun)).pc : Int)
    omega
  · intro q a at_ late
    simp [(mine q a at_).2] at late
  · intro q a at_ late
    simp [(mine q a at_).2] at late

theorem inv_close {s : State P} (inv : Inv s) {p : P} (before : s.pc p = .inside op)
    (others : s.outstanding - 1 ≠ 0) : Inv { s.goto p .out with outstanding := s.outstanding - 1 } := by
  obtain ⟨positive,idle⟩ := inv.idle before
  have fewer : count Pc.isInside (s.goto p .out).pc + 1 = count Pc.isInside s.pc := by
    simpa [before,Pc.isInside] using goto_count s p .out
  have counted := inv.counted
  have out : Pc.out.Idle := .inl rfl
  have nobody : ∀ q a, (s.goto p .out).pc q ≠ .committing a := by
    intro q a at_
    have busy := inv.flag.mpr ⟨q,a,(goto_idle out (not_idle_committing a) at_).2⟩
    simp [idle] at busy
  refine ⟨?_,fun q r a b first => absurd first (nobody q a),?_,fun busy => ?_,fun zero => absurd zero others,
    fun q a at_ => absurd at_ (nobody q a),fun q a at_ => absurd at_ (nobody q a),fun q _ => .inr ?_,inv.safe,
    inv.numbered,?_,?_,inv.together,inv.belongs⟩
  · change s.outstanding - 1 = (count Pc.isInside (s.goto p .out).pc : Int)
    omega
  · exact ⟨fun busy => absurd (idle.symm.trans busy) (by simp),fun ⟨q,a,at_⟩ => absurd at_ (nobody q a)⟩
  · exact absurd (idle.symm.trans busy) (by simp)
  · change 0 < s.outstanding - 1
    omega
  · exact fun q o at_ => inv.opened q o (goto_idle out (not_idle_inside o) at_).2
  · exact fun q o at_ => inv.current q o (goto_idle out (not_idle_inside o) at_).2

theorem inv_endOp {s : State P} (inv : Inv s) {p : P} (before : s.pc p = .inside op) : Inv (endOp s p) := by
  have idle := (inv.idle before).2
  unfold endOp
  rw [if_neg (by simp [idle])]
  split
  next last => exact inv_last inv before last
  next last =>
    rw [wakeup_goto]
    exact inv_wakeup (inv_close inv before last)

theorem inv_stage {s : State P} (inv : Inv s) {p : P} {a b : Stage} (before : s.pc p = .committing a)
    (drained : b = .cleared ∨ b = .done → s.lh = [])
    (past : b = .headed ∨ b = .moved → ∀ w ∈ s.writes, w.txn < s.history.length) : Inv (s.goto p (.committing b)) := by
  have busy := inv.flag.mpr ⟨p,a,before⟩
  have closed := inv.closed (inv.quiet busy)
  have same : count Pc.isInside (s.goto p (.committing b)).pc = count Pc.isInside s.pc := by
    simpa [before,Pc.isInside] using goto_count s p (.committing b)
  have mine : ∀ q c, (s.goto p (.committing b)).pc q = .committing c → q = p ∧ c = b := by
    intro q c at_
    rw [goto_pc] at at_
    split_ifs at at_ with isMe
    · exact ⟨isMe,by simpa using at_.symm⟩
    · exact absurd (inv.solo q p c a at_ before) isMe
  have none : ∀ q o, (s.goto p (.committing b)).pc q ≠ .inside o := by
    intro q o at_
    rw [goto_pc] at at_
    split_ifs at at_
    exact closed q o at_
  refine ⟨same ▸ inv.counted,fun q r c d first second => (mine q c first).1.trans (mine r d second).1.symm,
    ⟨fun _ => ⟨p,b,by simp [goto_pc]⟩,fun _ => busy⟩,inv.quiet,inv.empty,fun q c at_ late => drained ((mine q c at_).2 ▸ late),
    fun q c at_ late => past ((mine q c at_).2 ▸ late),fun _ _ => .inl busy,inv.safe,inv.numbered,
    fun q o at_ => absurd at_ (none q o),fun q o at_ => absurd at_ (none q o),inv.together,inv.belongs⟩

omit [DecidableEq P] in
theorem inv_record {s : State P} (inv : Inv s) {p : P} (before : s.pc p = .committing .logged) :
    Inv { s with history := s.history ++ [s.lh] } ∧ ∀ w ∈ s.writes, w.txn < (s.history ++ [s.lh]).length := by
  have closed := inv.closed (inv.quiet (inv.flag.mpr ⟨p,_,before⟩))
  have belongs : ∀ w ∈ s.writes, ∃ txn, (s.history ++ [s.lh])[w.txn]? = some txn ∧ w.block ∈ txn := by
    grind [Inv,State,Function.update_apply]
  refine ⟨⟨inv.counted,inv.solo,inv.flag,inv.quiet,inv.empty,inv.drained,fun q a at_ late => ?_,inv.sleeper,inv.safe,
    inv.numbered,inv.opened,fun q o at_ => absurd at_ (closed q o),inv.together,fun w member => .inl (belongs w member)⟩,?_⟩
  · have isMe := inv.solo q p a _ at_ before
    rw [isMe,before] at at_
    cases at_
    simp at late
  · intro w member
    obtain ⟨txn,found,_⟩ := belongs w member
    exact (List.getElem?_eq_some_iff.mp found).1

omit [DecidableEq P] in
theorem inv_clear {s : State P} (inv : Inv s) (past : ∀ w ∈ s.writes, w.txn < s.history.length) :
    Inv { s with lh := [] } := by
  refine ⟨inv.counted,inv.solo,inv.flag,inv.quiet,fun _ _ => rfl,fun _ _ _ _ => rfl,inv.past,inv.sleeper,inv.safe,
    inv.numbered,inv.opened,inv.current,inv.together,fun w member => .inl ?_⟩
  rcases inv.belongs w member with found | ⟨now,_⟩
  · exact found
  · exact absurd now (Nat.ne_of_lt (past w member))

theorem inv_commit {s : State P} (inv : Inv s) {p : P} {stage : Stage} (before : s.pc p = .committing stage)
    (more : stage ≠ .done) : Inv (commit s p stage) := by
  cases stage with
  | done => exact absurd rfl more
  | begun =>
    rw [commit]
    split_ifs with some
    · exact inv_stage inv before (by simp) (by simp)
    · exact inv_stage inv before (fun _ => List.length_eq_zero_iff.mp (by omega)) (by simp)
  | logged =>
    obtain ⟨recorded,past⟩ := inv_record inv before
    exact inv_stage recorded before (by simp) fun _ => past
  | headed => exact inv_stage inv before (by simp) fun _ => inv.past p _ before (.inl rfl)
  | moved => exact inv_stage (inv_clear inv (inv.past p _ before (.inr rfl))) before (fun _ => rfl) (by simp)
  | cleared => exact inv_stage inv before (fun _ => inv.drained p _ before (.inl rfl)) (by simp)

theorem inv_release {s : State P} (inv : Inv s) {p : P} (before : s.pc p = .committing .done)
    (awake : ∀ q, s.pc q ≠ .asleep) : Inv ({ s with committing := false }.goto p .out) := by
  have zero := inv.quiet (inv.flag.mpr ⟨p,_,before⟩)
  have closed := inv.closed zero
  have same : count Pc.isInside (s.goto p .out).pc = count Pc.isInside s.pc := by
    simpa [before,Pc.isInside] using goto_count s p .out
  have out : Pc.out.Idle := .inl rfl
  have nobody : ∀ q a, (s.goto p .out).pc q ≠ .committing a := by
    intro q a at_
    obtain ⟨other,at_⟩ := goto_idle out (not_idle_committing a) at_
    exact other (inv.solo q p a _ at_ before)
  have none : ∀ q o, (s.goto p .out).pc q ≠ .inside o :=
    fun q o at_ => closed q o (goto_idle out (not_idle_inside o) at_).2
  refine ⟨same ▸ inv.counted,fun q r a b first => absurd first (nobody q a),⟨nofun,fun ⟨q,a,at_⟩ => absurd at_ (nobody q a)⟩,
    nofun,fun _ _ => inv.drained p _ before (.inr rfl),fun q a at_ => absurd at_ (nobody q a),
    fun q a at_ => absurd at_ (nobody q a),fun q asleep => ?_,inv.safe,inv.numbered,fun q o at_ => absurd at_ (none q o),
    fun q o at_ => absurd at_ (none q o),inv.together,inv.belongs⟩
  rw [goto_pc] at asleep
  split_ifs at asleep
  exact absurd asleep (awake q)

theorem inv_finish {s : State P} (inv : Inv s) {p : P} (before : s.pc p = .committing .done) : Inv (finish s p) :=
  inv_release (inv_wakeup inv) (by rw [wakeup_pc,before,wake]; simp) (wakeup_awake s)

theorem inv_step {s s' : State P} {label : Label P} (inv : Inv s) (stepped : step s label = some s') : Inv s' := by
  unfold step at stepped
  split_ifs at stepped
  cases label with
  | call p =>
    simp only at stepped
    split_ifs at stepped with out
    rw [← Option.some.inj stepped]
    exact inv_move inv (.inl out) (.inr (.inl rfl)) nofun
  | beginOp p =>
    simp only at stepped
    split_ifs at stepped with entering
    rw [← Option.some.inj stepped]
    exact inv_beginOp inv entering
  | kkill p =>
    rw [← Option.some.inj stepped]
    rcases wake_cases (s.pc p) with ⟨asleep,woken⟩ | ⟨_,same⟩
    · rw [woken]
      exact inv_move inv (.inr (.inr asleep)) (.inr (.inl rfl)) nofun
    · rw [same,State.goto,Function.update_eq_self]
      exact inv
  | logWrite p b => grind [inv_logWrite]
  | endOp p => grind [inv_endOp]
  | commit p => grind [inv_commit]
  | finish p =>
    simp only at stepped
    split_ifs at stepped with done
    rw [← Option.some.inj stepped]
    exact inv_finish inv done

omit [DecidableEq P] in
theorem inv_initlog : Inv (initlog : State P) := by
  constructor
  case counted => simp [initlog,count_eq_zero.mpr fun _ : P => show Pc.out.isInside = false from rfl]
  all_goals simp [initlog]

theorem reachable_inv {s : State P} (reached : (system P).Reachable s) : Inv s := by
  refine reached.invariant ?_ ?_
  · rintro s rfl
    exact inv_initlog
  · exact fun s label s' _ inv stepped => inv_step inv stepped

/-- In every reachable state of any number of concurrent brackets: a commit runs
with no bracket open and no log_write possible; the log is empty when nothing is
open or committing; all log_writes of one bracket are in one transaction, which
holds their blocks; neither panic happened; and nobody sleeps on an idle log. -/
theorem brackets_never_split {s : State P} (reached : (system P).Reachable s) :
    (s.committing = true → s.outstanding = 0 ∧ ∀ p b, step s (.logWrite p b) = none) ∧
    (s.outstanding = 0 → s.committing = false → s.lh = []) ∧
    (∀ w ∈ s.writes, ∀ v ∈ s.writes, w.op = v.op → w.txn = v.txn) ∧
    (∀ w ∈ s.writes, (∃ txn, s.history[w.txn]? = some txn ∧ w.block ∈ txn) ∨
      (w.txn = s.history.length ∧ w.block ∈ s.lh)) ∧
    s.panicked ≠ some .logCommitting ∧ s.panicked ≠ some .outsideOfTrans ∧
    (s.outstanding = 0 → s.committing = false → ∀ p, s.pc p ≠ .asleep) := by
  have inv := reachable_inv reached
  refine ⟨?_,inv.empty,inv.together,inv.belongs,?_,?_,?_⟩
  · intro busy
    refine ⟨inv.quiet busy,fun p b => ?_⟩
    have none : count Pc.isInside s.pc = 0 := by
      have counted := inv.counted
      rw [inv.quiet busy] at counted
      omega
    have closed := count_eq_zero.mp none p
    unfold step
    split_ifs
    · rfl
    · cases position : s.pc p <;> simp [position,Pc.isInside] at closed ⊢
  · rcases inv.safe with h | h <;> simp [h]
  · rcases inv.safe with h | h <;> simp [h]
  · intro idle quiet p asleep
    have := inv.sleeper p asleep
    simp [idle,quiet] at this

/-- While the first process commits its block, the second sleeps in begin_op. -/
theorem brackets_never_split_asleep : ∃ s : State Bool, (system Bool).Reachable s ∧
    s.committing = true ∧ s.pc false = .asleep ∧ s.writes = [⟨0,7,0⟩] ∧ s.outstanding = 0 := by
  let labels : List (Label Bool) :=
    [.call true,.beginOp true,.logWrite true 7,.call false,.endOp true,.commit true,.beginOp false]
  have ran : (System.run step initlog labels).any fun s =>
      s.committing && s.pc false = .asleep && s.writes = [⟨0,7,0⟩] := by decide +kernel
  obtain ⟨s,ran,facts⟩ := (Option.any_eq_true _ _).mp ran
  simp only [Bool.and_eq_true,decide_eq_true_eq] at facts
  have reached : (system Bool).Reachable s := (System.Reachable.start initlog rfl).run ran
  exact ⟨s,reached,facts.1.1,facts.1.2,facts.2,((brackets_never_split reached).1 facts.1.1).1⟩

end Xv6.Bracket
