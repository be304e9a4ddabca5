import Xv6.Log.Unsplit

/-! The reservation that begin_op makes. An open bracket may still add as many
blocks as MAXOPBLOCKS leaves it; the blocks in the log and what the open
brackets may still add fit in LOGBLOCKS. log_write tests for a full log before
it looks for the block there, so that a full log refuses a block it has. -/
namespace Xv6.Bracket
open Lib Lib.Count
variable {P : Type*} [DecidableEq P]

def logged (s : State P) (op : Nat) : Finset (BitVec 32) :=
  ((s.writes.filter (·.op = op)).map (·.block)).toFinset

/-- A log_write with which its bracket has passed at most MAXOPBLOCKS distinct
blocks; every other step is one. -/
def Modest (s : State P) : Label P → Prop
  | .logWrite p b =>
    match s.pc p with
    | .inside op => (insert b (logged s op)).card ≤ maxOpBlocks
    | _ => True
  | _ => True

def FullAgain (s : State P) : Label P → Prop
  | .logWrite _ b => s.lh.length = logBlocks ∧ b ∈ s.lh
  | _ => False

instance (s : State P) (label : Label P) : Decidable (Modest s label) :=
  match label with
  | .logWrite p b =>
    match at_ : s.pc p with
    | .inside op => decidable_of_iff ((insert b (logged s op)).card ≤ maxOpBlocks) (by simp [Modest,at_])
    | .out | .entering | .asleep | .committing _ => .isTrue (by simp [Modest,at_])
  | .call _ | .beginOp _ | .kkill _ | .endOp _ | .commit _ | .finish _ => .isTrue trivial

def remaining (s : State P) : Pc → Nat
  | .inside op => maxOpBlocks - (logged s op).card
  | _ => 0

omit [DecidableEq P] in
theorem remaining_le (s : State P) (pc : Pc) : remaining s pc ≤ maxOpBlocks * if pc.isInside then 1 else 0 := by
  cases pc <;> simp [remaining,Pc.isInside]

omit [DecidableEq P] in
theorem remaining_wake (s : State P) (pc : Pc) : remaining s (wake pc) = remaining s pc := by
  cases pc <;> rfl

variable [Fintype P]

structure Room (s : State P) : Prop where
  fits : s.lh.length + ∑ p, remaining s (s.pc p) ≤ logBlocks
  calm : s.panicked ≠ some .tooBig

omit [DecidableEq P] in
theorem Room.less {s s' : State P} (room : Room s) (writes : s'.writes = s.writes) (lh : s'.lh.length ≤ s.lh.length)
    (less : ∑ p, remaining s (s'.pc p) ≤ ∑ p, remaining s (s.pc p)) (calm : s'.panicked ≠ some .tooBig) : Room s' := by
  have same : ∀ pc, remaining s' pc = remaining s pc := by
    intro pc
    cases pc <;> simp [remaining,logged,writes]
  refine ⟨?_,calm⟩
  have fits := room.fits
  simp only [same]
  omega

theorem goto_remaining (s : State P) (p : P) (pc : Pc) :
    ∑ q, remaining s ((s.goto p pc).pc q) + remaining s (s.pc p) = ∑ q, remaining s (s.pc q) + remaining s pc :=
  sum_update (remaining s) s.pc (Finset.mem_univ p) pc

theorem room_goto {s : State P} (room : Room s) (p : P) (pc : Pc) (outside : remaining s pc = 0) : Room (s.goto p pc) := by
  have moved := goto_remaining s p pc
  exact room.less rfl (Nat.le_refl _) (by omega) room.calm

omit [DecidableEq P] in
theorem room_wakeup {s : State P} (room : Room s) : Room (wakeup s) := by
  refine room.less rfl (Nat.le_refl _) (Nat.le_of_eq ?_) room.calm
  exact Finset.sum_congr rfl fun q _ => remaining_wake s (s.pc q)

omit [DecidableEq P] in
theorem remaining_sum_le (s : State P) : ∑ p, remaining s (s.pc p) ≤ maxOpBlocks * count Pc.isInside s.pc := by
  rw [count_eq_sum,Finset.mul_sum]
  exact Finset.sum_le_sum fun p _ => remaining_le s (s.pc p)

theorem room_beginOp {s : State P} (inv : Inv s) (room : Room s) (p : P) : Room (beginOp s p) := by
  unfold beginOp
  split_ifs with busy full
  · exact room_goto room _ _ rfl
  · exact room_goto room _ _ rfl
  · refine ⟨?_,room.calm⟩
    change s.lh.length + ∑ q, remaining s ((s.goto p (.inside s.ops)).pc q) ≤ logBlocks
    have moved := goto_remaining s p (.inside s.ops)
    have mine := remaining_le s (.inside s.ops)
    have others := remaining_sum_le s
    have counted := inv.counted
    simp only [Pc.isInside,if_true] at mine
    simp only [logBlocks,maxOpBlocks] at *
    omega

omit [DecidableEq P] in
theorem not_logged {s : State P} (inv : Inv s) {p : P} {op : Nat} (before : s.pc p = .inside op) {b : BitVec 32}
    (fresh : b ∉ s.lh) : b ∉ logged s op := by
  intro member
  obtain ⟨w,inside,block⟩ := List.mem_map.mp (List.mem_toFinset.mp member)
  obtain ⟨written,mine⟩ := List.mem_filter.mp inside
  have now := inv.current p op before w written (by simpa using mine)
  rcases inv.belongs w written with ⟨txn,found,_⟩ | ⟨_,listed⟩
  · rw [now] at found
    simp at found
  · exact fresh (block ▸ listed)

omit [DecidableEq P] [Fintype P] in
theorem logged_append {s : State P} {w : Write} (op : Nat) :
    logged { s with writes := s.writes ++ [w] } op = if w.op = op then insert w.block (logged s op) else logged s op := by
  unfold logged
  split_ifs with mine
  · ext b
    simp [mine]
  · simp [mine]

omit [DecidableEq P] [Fintype P] in
theorem remaining_append_le (s : State P) (w : Write) (pc : Pc) :
    remaining { s with writes := s.writes ++ [w] } pc ≤ remaining s pc := by
  cases pc with
  | inside op =>
    have grown : (logged s op).card ≤ (logged { s with writes := s.writes ++ [w] } op).card := by
      rw [logged_append]
      split_ifs
      · exact Finset.card_le_card (Finset.subset_insert _ _)
      · exact Nat.le_refl _
    simp only [remaining]
    omega
  | out | entering | asleep | committing => exact Nat.le_refl _

omit [DecidableEq P] in
theorem remaining_append_lt {s : State P} {w : Write} {p : P} (before : s.pc p = .inside w.op)
    (fresh : w.block ∉ logged s w.op) (modest : (insert w.block (logged s w.op)).card ≤ maxOpBlocks) :
    ∑ q, remaining { s with writes := s.writes ++ [w] } (s.pc q) < ∑ q, remaining s (s.pc q) := by
  refine Finset.sum_lt_sum (fun q _ => remaining_append_le s w (s.pc q)) ⟨p,Finset.mem_univ p,?_⟩
  have more := Finset.card_insert_of_notMem fresh
  rw [before]
  simp only [remaining,logged_append,if_true]
  omega

omit [DecidableEq P] in
theorem room_logWrite {s : State P} (inv : Inv s) (room : Room s) {p : P} {op : Nat} (before : s.pc p = .inside op)
    {b : BitVec 32} (modest : (insert b (logged s op)).card ≤ maxOpBlocks) (notAgain : ¬(s.lh.length = logBlocks ∧ b ∈ s.lh)) :
    Room (logWrite s op b) := by
  have fits := room.fits
  by_cases old : b ∈ s.lh
  · have space : ¬logBlocks ≤ s.lh.length := fun full => notAgain ⟨by omega,old⟩
    unfold logWrite
    rw [if_neg space,if_neg (by have := (inv.idle before).1; omega),if_pos old]
    refine ⟨?_,room.calm⟩
    have less := Finset.sum_le_sum fun q (_ : q ∈ Finset.univ) => remaining_append_le s ⟨op,b,s.history.length⟩ (s.pc q)
    exact Nat.le_trans (Nat.add_le_add_left less _) fits
  · have less := remaining_append_lt (w := ⟨op,b,s.history.length⟩) before (not_logged inv before old) modest
    have space : ¬logBlocks ≤ s.lh.length := by omega
    unfold logWrite
    rw [if_neg space,if_neg (by have := (inv.idle before).1; omega),if_neg old]
    refine ⟨?_,room.calm⟩
    change (s.lh ++ [b]).length + ∑ q, remaining { s with writes := s.writes ++ [⟨op,b,s.history.length⟩] } (s.pc q) ≤ _
    rw [List.length_append,List.length_singleton]
    omega

theorem room_endOp {s : State P} (inv : Inv s) (room : Room s) {p : P} {op : Nat} (before : s.pc p = .inside op) :
    Room (endOp s p) := by
  unfold endOp
  rw [if_neg (by simp [(inv.idle before).2])]
  split
  next =>
    have left := room_goto room p (.committing .begun) rfl
    exact ⟨left.fits,left.calm⟩
  next =>
    have left := room_goto room p (.out) rfl
    rw [wakeup_goto]
    exact room_wakeup (s := { s.goto p .out with outstanding := s.outstanding - 1 }) ⟨left.fits,left.calm⟩

theorem room_commit {s : State P} (room : Room s) (p : P) (stage : Stage) : Room (commit s p stage) := by
  cases stage with
  | begun =>
    unfold commit
    split_ifs
    · exact room_goto room _ _ rfl
    · exact room_goto room _ _ rfl
  | logged =>
    have moved := room_goto room p (.committing .headed) rfl
    exact ⟨moved.fits,moved.calm⟩
  | headed => exact room_goto room _ _ rfl
  | moved =>
    have moved := room_goto room p (.committing .cleared) rfl
    exact moved.less rfl (Nat.zero_le _) (Nat.le_refl _) moved.calm
  | cleared => exact room_goto room _ _ rfl
  | done => exact room

theorem room_step {s s' : State P} {label : Label P} (inv : Inv s) (room : Room s)
    (allowed : Modest s label ∧ ¬FullAgain s label) (stepped : step s label = some s') : Room s' := by
  unfold step at stepped
  split_ifs at stepped
  cases label with
  | call p =>
    simp only at stepped
    split_ifs at stepped
    exact Option.some.inj stepped ▸ room_goto room _ _ rfl
  | beginOp p =>
    simp only at stepped
    split_ifs at stepped
    exact Option.some.inj stepped ▸ room_beginOp inv room p
  | kkill p =>
    rw [← Option.some.inj stepped]
    have moved := goto_remaining s p (wake (s.pc p))
    rw [remaining_wake] at moved
    exact room.less rfl (Nat.le_refl _) (by omega) room.calm
  | logWrite p b =>
    simp only at stepped
    split at stepped
    case h_1 op inside =>
      rw [← Option.some.inj stepped]
      have modest := allowed.1
      simp only [Modest,inside] at modest
      exact room_logWrite inv room inside modest allowed.2
    case h_2 => contradiction
  | endOp p =>
    simp only at stepped
    split at stepped
    case h_1 op inside => exact Option.some.inj stepped ▸ room_endOp inv room inside
    case h_2 => contradiction
  | commit p =>
    simp only at stepped
    split at stepped
    case h_1 stage _ =>
      split_ifs at stepped
      exact Option.some.inj stepped ▸ room_commit room p stage
    case h_2 => contradiction
  | finish p =>
    simp only at stepped
    split_ifs at stepped
    rw [← Option.some.inj stepped,finish]
    have woken := room_wakeup (s := { s with committing := false }) ⟨room.fits,room.calm⟩
    exact room_goto woken _ _ rfl

/-- The blocks in the log never exceed LOGBLOCKS and log_write finds room, as
long as no bracket passes more than MAXOPBLOCKS distinct blocks and no block of
a full log is passed again. -/
theorem log_reservation_sufficient {s : State P}
    (reached : ((system P).restrict fun s label => Modest s label ∧ ¬FullAgain s label).Reachable s) :
    s.lh.length ≤ logBlocks ∧ s.panicked ≠ some .tooBig := by
  have room : Room s := by
    induction reached with
    | start s first =>
      subst first
      exact ⟨by simp [initlog,remaining],by simp [initlog]⟩
    | next s label s' before stepped ih => exact room_step (reachable_inv before.of_restrict) ih stepped.1 stepped.2
  exact ⟨Nat.le_trans (Nat.le_add_right _ _) room.fits,room.calm⟩

instance (s : State P) (label : Label P) : Decidable (FullAgain s label) :=
  match label with
  | .logWrite _ b => inferInstanceAs (Decidable (s.lh.length = logBlocks ∧ b ∈ s.lh))
  | .call _ | .beginOp _ | .kkill _ | .endOp _ | .commit _ | .finish _ => .isFalse id

def threeFull : List (Label (Fin 3)) :=
  ((List.finRange 3).flatMap fun p => [.call p,.beginOp p]) ++ (List.finRange 3).flatMap fun p =>
    (List.range maxOpBlocks).map fun k => .logWrite p (BitVec.ofNat 32 (100 + maxOpBlocks * p.val + k))

/-- Three brackets fill the log to the last block, and nothing panics. -/
theorem log_reservation_sufficient_three : ∃ s : State (Fin 3),
    ((system (Fin 3)).restrict fun s label => Modest s label ∧ ¬FullAgain s label).Reachable s ∧
      s.lh.length = logBlocks ∧ s.panicked ≠ some .tooBig := by
  have ran : (System.run (System.guarded (fun s label => Modest s label ∧ ¬FullAgain s label) step) initlog threeFull).any
      fun s => s.lh.length = logBlocks := by decide +kernel
  obtain ⟨s,ran,full⟩ := (Option.any_eq_true _ _).mp ran
  have reached : ((system (Fin 3)).restrict fun s label => Modest s label ∧ ¬FullAgain s label).Reachable s :=
    System.Reachable.run_guarded (.start initlog rfl) ran
  exact ⟨s,reached,by simpa using full,(log_reservation_sufficient reached).2⟩

/-- With the log full, the first bracket logs its first block once more: its
eleventh log_write, of ten distinct blocks, panics. -/
theorem log_full_again_panics : ∃ s : State (Fin 3), ((system (Fin 3)).restrict Modest).Reachable s ∧
    s.panicked = some .tooBig := by
  have ran : (System.run (System.guarded Modest step) initlog (threeFull ++ [.logWrite 0 100])).any
      fun s => s.panicked = some .tooBig := by decide +kernel
  obtain ⟨s,ran,full⟩ := (Option.any_eq_true _ _).mp ran
  exact ⟨s,System.Reachable.run_guarded (.start initlog rfl) ran,by simpa using full⟩

end Xv6.Bracket
