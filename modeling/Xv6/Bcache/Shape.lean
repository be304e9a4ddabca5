import Xv6.Bcache.Clients
import Xv6.Bcache.Commit
import Xv6.Lib.Count

/-! Who uses which buffer. refcnt counts the brackets that a buffer is used by and
one pin, and the sleep-lock is held by at most one of them. -/
namespace Xv6.Bcache
open Lib Lib.Count Function
open Log (Block Disk logArea)

def Use.target : Use → Option (BufId × Nat)
  | .idle => none
  | .waiting i b | .holding i b _ | .releasing i b => some (i,b)

def Use.on (i : BufId) (use : Use) : Bool := use.target.any (·.1 = i)

@[simp] theorem Use.on_idle (i : BufId) : Use.idle.on i = false := rfl

@[simp] theorem Use.on_waiting (i j : BufId) (b : Nat) : (Use.waiting i b).on j = decide (i = j) := rfl

@[simp] theorem Use.on_holding (i j : BufId) (b : Nat) (dirty : Bool) : (Use.holding i b dirty).on j = decide (i = j) := rfl

@[simp] theorem Use.on_releasing (i j : BufId) (b : Nat) : (Use.releasing i b).on j = decide (i = j) := rfl

theorem Use.on_of_target {use : Use} {i : BufId} {b : Nat} (target : use.target = some (i,b)) : use.on i = true := by
  simp [Use.on,target]

def Use.locks (i : BufId) : Use → Bool
  | .holding j _ _ => j = i
  | _ => false

theorem Use.on_of_locks {use : Use} {i : BufId} (locks : use.locks i = true) : use.on i = true := by
  cases use with
  | holding j b dirty => exact locks
  | _ => cases locks

theorem addRef_rest (c : Cache) (i j : BufId) (amount : Int) :
    ((c.addRef i amount).buf j).block = (c.buf j).block ∧ ((c.addRef i amount).buf j).valid = (c.buf j).valid ∧
      ((c.addRef i amount).buf j).locked = (c.buf j).locked ∧ ((c.addRef i amount).buf j).data = (c.buf j).data := by
  rw [Cache.addRef_buf]
  split_ifs with isMe
  · rw [isMe]
    exact ⟨rfl,rfl,rfl,rfl⟩
  · exact ⟨rfl,rfl,rfl,rfl⟩

theorem setData_buf (c : Cache) (i j : BufId) (data : Block) :
    (c.setData i data).buf j = if j = i then { c.buf i with data := data } else c.buf j := by
  simp [Cache.setData]

theorem setData_rest (c : Cache) (i j : BufId) (data : Block) :
    ((c.setData i data).buf j).block = (c.buf j).block ∧ ((c.setData i data).buf j).valid = (c.buf j).valid ∧
      ((c.setData i data).buf j).locked = (c.buf j).locked ∧ ((c.setData i data).buf j).refcnt = (c.buf j).refcnt := by
  rw [setData_buf]
  split_ifs with isMe
  · rw [isMe]
    exact ⟨rfl,rfl,rfl,rfl⟩
  · exact ⟨rfl,rfl,rfl,rfl⟩

variable {P : Type*} [DecidableEq P] [Fintype P]

/-- The cache beside the brackets that use it and the blocks that are pinned. -/
structure Shape (c : Cache) (use : Party P → Use) (pins : List Nat) : Prop where
  target : ∀ h i b, (use h).target = some (i,b) → (c.buf i).block = some b
  refs : ∀ i, (c.buf i).refcnt = count (Use.on i) use + if Pinned c pins i then 1 else 0
  locks : ∀ i, count (Use.locks i) use = if (c.buf i).locked then 1 else 0
  valid : ∀ h i, (use h).locks i = true → (c.buf i).valid = true
  cached : ∀ b ∈ pins, ∃ i, (c.buf i).block = some b ∧ (c.buf i).valid = true

variable {c c' : Cache} {use : Party P → Use} {pins : List Nat} {h : Party P} {i : BufId} {b : Nat}

omit [DecidableEq P] in
theorem Shape.one (shape : Shape c use pins) {h h' : Party P} (first : (use h).locks i = true)
    (second : (use h').locks i = true) : h = h' := by
  refine eq_of_count_le_one ?_ first second
  rw [shape.locks i]
  split_ifs <;> omega

omit [DecidableEq P] in
theorem Shape.locked (shape : Shape c use pins) (mine : (use h).locks i = true) : (c.buf i).locked = true := by
  have counted := shape.locks i
  have some : 0 < count (Use.locks i) use := count_pos h mine
  split_ifs at counted with locked
  · exact locked
  · omega

omit [DecidableEq P] in
theorem Shape.unused (shape : Shape c use pins) (zero : (c.buf i).refcnt = 0) :
    (∀ h, (use h).on i = false) ∧ ¬Pinned c pins i := by
  have counted := shape.refs i
  split_ifs at counted with pinned
  · omega
  · exact ⟨count_eq_zero.mp (by omega),pinned⟩

theorem Shape.move (shape : Shape c use pins) {u : Use} (block : ∀ j, (c'.buf j).block = (c.buf j).block)
    (target : ∀ i b, u.target = some (i,b) → (c.buf i).block = some b)
    (refs : ∀ j, (c'.buf j).refcnt + (if (use h).on j then 1 else 0) = (c.buf j).refcnt + if u.on j then 1 else 0)
    (locks : ∀ j, (if (c'.buf j).locked then 1 else 0) + (if (use h).locks j then 1 else 0) =
      (if (c.buf j).locked then 1 else 0) + if u.locks j then 1 else 0)
    (valid : ∀ j, (c.buf j).valid = true → (c'.buf j).valid = true)
    (mine : ∀ j, u.locks j = true → (c'.buf j).valid = true) : Shape c' (update use h u) pins := by
  refine ⟨fun h' i b at_ => ?_,fun j => ?_,fun j => ?_,fun h' j at_ => ?_,fun b pinned => ?_⟩
  · rw [block]
    rw [update_apply] at at_
    split_ifs at at_
    · exact target i b at_
    · exact shape.target h' i b at_
  · have before := shape.refs j
    have change := refs j
    have counts := count_update (Use.on j) use h u
    simp only [pinned_congr block]
    split_ifs at * <;> omega
  · have before := shape.locks j
    have change := locks j
    have counts := count_update (Use.locks j) use h u
    omega
  · rw [update_apply] at at_
    split_ifs at at_
    · exact mine j at_
    · exact valid j (shape.valid h' j at_)
  · obtain ⟨j,here,ok⟩ := shape.cached b pinned
    exact ⟨j,by rw [block,here],valid j ok⟩

omit [DecidableEq P] in
theorem Shape.setData (shape : Shape c use pins) (i : BufId) (data : Block) : Shape (c.setData i data) use pins := by
  have rest := setData_rest c i
  refine ⟨fun h j b at_ => ?_,fun j => ?_,fun j => ?_,fun h j at_ => ?_,fun b pinned => ?_⟩
  · rw [(rest j data).1]
    exact shape.target h j b at_
  · simp only [(rest j data).2.2.2,pinned_congr fun j => (rest j data).1]
    exact shape.refs j
  · rw [(rest j data).2.2.1]
    exact shape.locks j
  · rw [(rest j data).2.1]
    exact shape.valid h j at_
  · obtain ⟨j,here,ok⟩ := shape.cached b pinned
    exact ⟨j,by rw [(rest j data).1,here],by rw [(rest j data).2.1,ok]⟩

theorem Shape.flag (shape : Shape c use pins) {d d' : Bool} (at_ : use h = .holding i b d) :
    Shape c (update use h (.holding i b d')) pins := by
  refine shape.move (fun _ => rfl) (fun i' b' target => ?_) (fun j => ?_) (fun j => ?_) (fun _ ok => ok) (fun j locks => ?_)
  · cases target
    exact shape.target h i b (by rw [at_]; rfl)
  · rw [at_]
    rfl
  · rw [at_]
    rfl
  · exact shape.valid h j (by rw [at_]; exact locks)

theorem Shape.miss (shape : Shape c use pins) (idle : use h = .idle) (zero : (c.buf i).refcnt = 0)
    (absent : ∀ j, (c.buf j).block ≠ some b) :
    Shape (c.recycle i b absent) (update use h (.waiting i b)) pins := by
  obtain ⟨nobody,unpinned⟩ := shape.unused zero
  have foreign : b ∉ pins := by
    intro pinned
    obtain ⟨j,here,_⟩ := shape.cached b pinned
    exact absent j here
  have same : ∀ j, Pinned (c.recycle i b absent) pins j ↔ Pinned c pins j := by
    intro j
    rw [Pinned,Pinned,Cache.recycle_buf]
    split_ifs with isMe
    · rw [isMe]
      refine ⟨?_,fun pinned => absurd pinned unpinned⟩
      rintro ⟨b',inside,here⟩
      exact absurd (Option.some.inj here ▸ inside) foreign
    · rfl
  have others : ∀ h' i' b', (use h').target = some (i',b') → i' ≠ i := by
    intro h' i' b' at_ isMe
    rw [isMe] at at_
    exact absurd (Use.on_of_target at_) (by simp [nobody])
  have locked : ∀ j, ((c.recycle i b absent).buf j).locked = (c.buf j).locked := by
    intro j
    rw [Cache.recycle_buf]
    split_ifs with isMe
    · rw [isMe]
    · rfl
  refine ⟨fun h' i' b' at_ => ?_,fun j => ?_,fun j => ?_,fun h' j at_ => ?_,fun b' pinned => ?_⟩
  · rw [Cache.recycle_buf]
    rw [update_apply] at at_
    split_ifs at at_ with isMe
    · cases at_
      rw [if_pos rfl]
    · rw [if_neg (others h' i' b' at_)]
      exact shape.target h' i' b' at_
  · have counts := count_update (Use.on j) use h (.waiting i b)
    have before := shape.refs j
    simp only [idle,Use.on_idle,Use.on_waiting,Bool.false_eq_true,if_false,decide_eq_true_eq] at counts
    simp only [same]
    rw [Cache.recycle_buf]
    by_cases isMe : j = i
    · subst isMe
      have nothing : count (Use.on j) use = 0 := count_eq_zero.mpr nobody
      rw [if_pos rfl] at counts ⊢
      rw [if_neg unpinned]
      change (1 : Int) = _
      omega
    · rw [if_neg (Ne.symm isMe),add_zero,add_zero] at counts
      rw [if_neg isMe,before,counts]
  · have counts := count_update (Use.locks j) use h (.waiting i b)
    have before := shape.locks j
    rw [idle] at counts
    simp only [Use.locks,Bool.false_eq_true,if_false] at counts
    rw [locked]
    exact counts.trans before
  · rw [update_apply] at at_
    split_ifs at at_ with isMe
    · cases at_
    · have other : j ≠ i := by
        rintro rfl
        exact absurd (Use.on_of_locks at_) (by simp [nobody])
      rw [Cache.recycle_buf,if_neg other]
      exact shape.valid h' j at_
  · obtain ⟨j,here,ok⟩ := shape.cached b' pinned
    have other : j ≠ i := fun isMe => unpinned ⟨b',pinned,isMe ▸ here⟩
    exact ⟨j,by rw [Cache.recycle_buf,if_neg other,here],by rw [Cache.recycle_buf,if_neg other,ok]⟩

omit [DecidableEq P] in
theorem Shape.pin (shape : Shape c use pins) (here : (c.buf i).block = some b) (ok : (c.buf i).valid = true) (fresh : b ∉ pins) :
    Shape (c.addRef i 1) use (pins ++ [b]) := by
  have rest := addRef_rest c i
  refine ⟨fun h j b' at_ => ?_,fun j => ?_,fun j => ?_,fun h j at_ => ?_,fun b' pinned => ?_⟩
  · rw [(rest j 1).1]
    exact shape.target h j b' at_
  · have before := shape.refs j
    simp only [pinned_congr fun j => (rest j 1).1]
    rw [Cache.addRef_buf]
    by_cases isMe : j = i
    · subst isMe
      have unpinned : ¬Pinned c pins j := fun ⟨b',inside,there⟩ =>
        fresh (Option.some.inj (here.symm.trans there) ▸ inside)
      have pinned : Pinned c (pins ++ [b]) j := ⟨b,by simp,here⟩
      rw [if_neg unpinned] at before
      simp only [if_true,if_pos pinned,before]
      omega
    · have same : Pinned c (pins ++ [b]) j ↔ Pinned c pins j := by
        refine ⟨fun ⟨b',inside,there⟩ => ?_,fun ⟨b',inside,there⟩ => ⟨b',List.mem_append_left _ inside,there⟩⟩
        rcases List.mem_append.mp inside with old | new
        · exact ⟨b',old,there⟩
        · rw [List.mem_singleton.mp new] at there
          exact absurd (c.unique j i b there here) isMe
      simp only [if_neg isMe,same]
      exact before
  · rw [(rest j 1).2.2.1]
    exact shape.locks j
  · rw [(rest j 1).2.1]
    exact shape.valid h j at_
  · rcases List.mem_append.mp pinned with old | new
    · obtain ⟨j,there,fine⟩ := shape.cached b' old
      exact ⟨j,by rw [(rest j 1).1,there],by rw [(rest j 1).2.1,fine]⟩
    · rw [List.mem_singleton.mp new]
      exact ⟨i,by rw [(rest i 1).1,here],by rw [(rest i 1).2.1,ok]⟩

omit [DecidableEq P] in
theorem Shape.unpin (shape : Shape c use (b :: pins)) (here : (c.buf i).block = some b) (once : b ∉ pins) :
    Shape (c.addRef i (-1)) use pins := by
  have rest := addRef_rest c i
  refine ⟨fun h j b' at_ => ?_,fun j => ?_,fun j => ?_,fun h j at_ => ?_,fun b' pinned => ?_⟩
  · rw [(rest j (-1)).1]
    exact shape.target h j b' at_
  · have before := shape.refs j
    simp only [pinned_congr fun j => (rest j (-1)).1]
    rw [Cache.addRef_buf]
    by_cases isMe : j = i
    · subst isMe
      have unpinned : ¬Pinned c pins j := fun ⟨b',inside,there⟩ =>
        once (Option.some.inj (here.symm.trans there) ▸ inside)
      have pinned : Pinned c (b :: pins) j := ⟨b,.head _,here⟩
      rw [if_pos pinned] at before
      simp only [if_true,if_neg unpinned,before]
      omega
    · have same : Pinned c (b :: pins) j ↔ Pinned c pins j := by
        refine ⟨fun ⟨b',inside,there⟩ => ?_,fun ⟨b',inside,there⟩ => ⟨b',.tail _ inside,there⟩⟩
        rcases List.mem_cons.mp inside with rfl | old
        · exact absurd (c.unique j i b' there here) isMe
        · exact ⟨b',old,there⟩
      simp only [same] at before
      rw [if_neg isMe]
      exact before
  · rw [(rest j (-1)).2.2.1]
    exact shape.locks j
  · rw [(rest j (-1)).2.1]
    exact shape.valid h j at_
  · obtain ⟨j,there,fine⟩ := shape.cached b' (.tail _ pinned)
    exact ⟨j,by rw [(rest j (-1)).1,there],by rw [(rest j (-1)).2.1,fine]⟩

end Xv6.Bcache
