import Xv6.Bcache.Model
import Mathlib.Tactic

/-! commit() and the NBUF buffers. On top of the pinned blocks of the transaction
commit needs one more buffer at a time, for a block of the log or its header;
with every buffer pinned it finds none. -/
namespace Xv6.Bcache
open List

namespace Cache

@[simp] theorem set_buf (c : Cache) (i j : BufId) (value : Buf) (same : value.block = (c.buf i).block) :
    (c.set i value same).buf j = if j = i then value else c.buf j := by
  simp [set,Function.update_apply]

theorem addRef_buf (c : Cache) (i j : BufId) (amount : Int) :
    (c.addRef i amount).buf j = if j = i then { c.buf i with refcnt := (c.buf i).refcnt + amount } else c.buf j := by
  simp [addRef]

theorem recycle_buf (c : Cache) (i j : BufId) (b : Nat) (absent : ∀ j, (c.buf j).block ≠ some b) :
    (c.recycle i b absent).buf j =
      if j = i then { c.buf i with block := some b, valid := false, refcnt := 1 } else c.buf j := by
  simp [recycle,Function.update_apply]

theorem unref_buf (c : Cache) (i j : BufId) : (c.unref i).buf j = (c.addRef i (-1)).buf j := by
  unfold unref
  split_ifs <;> rfl

theorem leastUsed_none {c : Cache} (none : c.leastUsed = none) (i : BufId) : (c.buf i).refcnt ≠ 0 := by
  have checked := find?_eq_none.mp none i (mem_reverse.mpr (c.whole i))
  simpa using checked

theorem leastUsed_some {c : Cache} {i : BufId} (found : c.leastUsed = some i) : (c.buf i).refcnt = 0 := by
  simpa using find?_some found

theorem bgetWith_hit {c : Cache} {b : Nat} {i : BufId} (victim : Option BufId) (here : (c.buf i).block = some b) :
    c.bgetWith b victim = .ok (i,c.addRef i 1) := by
  unfold bgetWith
  split
  next j found => rw [c.unique j i b (find_some found) here]
  next found => exact absurd here (find_none found i)

theorem bgetWith_miss {c : Cache} {b : Nat} {i : BufId} (absent : ∀ j, (c.buf j).block ≠ some b) :
    c.bgetWith b (some i) = .ok (i,c.recycle i b absent) := by
  unfold bgetWith
  split
  next j found => exact absurd (find_some found) (absent j)
  next => rfl

theorem acquiresleep_free {c : Cache} {i : BufId} (free : (c.buf i).locked = false) :
    c.acquiresleep i = .ok (c.set i { c.buf i with locked := true } rfl) := by
  rw [acquiresleep,if_neg (by simp [free])]

end Cache

def Pinned (c : Cache) (pins : List Nat) (i : BufId) : Prop := ∃ b ∈ pins, (c.buf i).block = some b

instance (c : Cache) (pins : List Nat) (i : BufId) : Decidable (Pinned c pins i) :=
  inferInstanceAs (Decidable (∃ b ∈ pins, _))

/-- The cache while one process uses it: the blocks in `pins` are in the cache and
pinned once, the buffers in `held` are locked, and nobody else uses a buffer. -/
structure Quiet (c : Cache) (pins : List Nat) (held : List BufId) : Prop where
  refs : ∀ i, (c.buf i).refcnt = (if Pinned c pins i then 1 else 0) + held.count i
  cached : ∀ b ∈ pins, ∃ i, (c.buf i).block = some b
  locks : ∀ i, (c.buf i).locked = true ↔ i ∈ held
  once : held.Nodup

variable {c c' : Cache} {pins : List Nat} {held : List BufId} {i : BufId} {b : Nat}

theorem pinned_congr (block : ∀ j, (c'.buf j).block = (c.buf j).block) (j : BufId) : Pinned c' pins j ↔ Pinned c pins j := by
  rw [Pinned,Pinned,block]

theorem Quiet.same (quiet : Quiet c pins held) (block : ∀ j, (c'.buf j).block = (c.buf j).block)
    (refcnt : ∀ j, (c'.buf j).refcnt = (c.buf j).refcnt) (locked : ∀ j, (c'.buf j).locked = (c.buf j).locked) :
    Quiet c' pins held := by
  refine ⟨fun j => ?_,fun b pinned => ?_,fun j => ?_,quiet.once⟩
  · simp only [refcnt,quiet.refs j,pinned_congr block]
  · obtain ⟨j,here⟩ := quiet.cached b pinned
    exact ⟨j,by rw [block,here]⟩
  · rw [locked]
    exact quiet.locks j

theorem Quiet.unheld (quiet : Quiet c pins held) (zero : (c.buf i).refcnt = 0) : ¬Pinned c pins i ∧ i ∉ held := by
  have counted := quiet.refs i
  split_ifs at counted with pinned
  · omega
  · exact ⟨pinned,count_eq_zero.mp (by omega)⟩

theorem card_pinned_le (c : Cache) (pins : List Nat) :
    (Finset.univ.filter fun i => Pinned c pins i).card ≤ pins.length := by
  have into : ∀ i ∈ Finset.univ.filter fun i => Pinned c pins i, (c.buf i).block.getD 0 ∈ pins.toFinset := by
    intro i member
    obtain ⟨b,inside,here⟩ := (Finset.mem_filter.mp member).2
    simpa [here] using inside
  have injective : Set.InjOn (fun i => (c.buf i).block.getD 0) (Finset.univ.filter fun i => Pinned c pins i : Finset BufId) := by
    intro i first j second same
    obtain ⟨b,_,here⟩ := (Finset.mem_filter.mp first).2
    obtain ⟨b',_,there⟩ := (Finset.mem_filter.mp second).2
    simp only [here,there,Option.getD_some] at same
    exact c.unique i j b here (same ▸ there)
  exact Nat.le_trans (Finset.card_le_card_of_injOn _ into injective) (toFinset_card_le pins)

theorem Quiet.has_unused (quiet : Quiet c pins held) (room : pins.length + held.length < nbuf) : c.leastUsed ≠ none := by
  intro none
  have all : Finset.univ ⊆ (Finset.univ.filter fun i => Pinned c pins i) ∪ held.toFinset := by
    intro i _
    by_contra outside
    have apart : ¬Pinned c pins i ∧ i ∉ held := by simpa using outside
    have counted := quiet.refs i
    rw [if_neg apart.1,count_eq_zero.mpr apart.2] at counted
    exact Cache.leastUsed_none none i (by omega)
  have total := Finset.card_le_card all
  have split := Finset.card_union_le (Finset.univ.filter fun i => Pinned c pins i) held.toFinset
  have pinned := card_pinned_le c pins
  have locked := toFinset_card_le held
  rw [Finset.card_univ,Fintype.card_fin] at total
  omega

theorem Quiet.hold (quiet : Quiet c pins held) (fresh : i ∉ held) (block : ∀ j, (c'.buf j).block = (c.buf j).block)
    (refcnt : ∀ j, (c'.buf j).refcnt = if j = i then (c.buf j).refcnt + 1 else (c.buf j).refcnt)
    (locked : ∀ j, (c'.buf j).locked = if j = i then true else (c.buf j).locked) : Quiet c' pins (i :: held) := by
  refine ⟨fun j => ?_,fun b pinned => ?_,fun j => ?_,nodup_cons.mpr ⟨fresh,quiet.once⟩⟩
  · grind [quiet.refs,pinned_congr]
  · obtain ⟨j,here⟩ := quiet.cached b pinned
    exact ⟨j,by rw [block,here]⟩
  · rw [locked]
    split_ifs with isMe
    · simp [isMe]
    · rw [quiet.locks j]
      simp [isMe]

theorem Quiet.recycle (quiet : Quiet c pins held) (zero : (c.buf i).refcnt = 0) (absent : ∀ j, (c.buf j).block ≠ some b)
    (bufs : ∀ j, (c'.buf j).block = (if j = i then some b else (c.buf j).block) ∧
      (c'.buf j).refcnt = (if j = i then 1 else (c.buf j).refcnt) ∧
      (c'.buf j).locked = if j = i then true else (c.buf j).locked) : Quiet c' pins (i :: held) := by
  obtain ⟨unpinned,unheld⟩ := quiet.unheld zero
  have foreign : b ∉ pins := by
    intro pinned
    obtain ⟨j,here⟩ := quiet.cached b pinned
    exact absent j here
  have same : ∀ j, Pinned c' pins j ↔ Pinned c pins j := by grind [Pinned]
  refine ⟨fun j => ?_,fun b' pinned => ?_,fun j => ?_,nodup_cons.mpr ⟨unheld,quiet.once⟩⟩
  · grind [quiet.refs,same]
  · obtain ⟨j,here⟩ := quiet.cached b' pinned
    have other : j ≠ i := fun isMe => unpinned ⟨b',pinned,isMe ▸ here⟩
    exact ⟨j,by rw [(bufs j).1,if_neg other,here]⟩
  · rw [(bufs j).2.2]
    split_ifs with isMe
    · simp [isMe]
    · rw [quiet.locks j]
      simp [isMe]

/-! bread, bwrite and brelse of the process that commits. -/

structure Goes (k k' : Kernel) (held : List BufId) : Prop where
  start : k'.start = k.start
  lh : k'.lh = k.lh
  blocks : ∀ j ∈ held, (k'.cache.buf j).block = (k.cache.buf j).block

variable {k : Kernel}

theorem fill_buf (c : Cache) (disk : Log.Disk) (i j : BufId) (b : Nat) :
    ((c.fill disk i b).buf j).block = (c.buf j).block ∧ ((c.fill disk i b).buf j).refcnt = (c.buf j).refcnt ∧
      ((c.fill disk i b).buf j).locked = (c.buf j).locked := by
  unfold Cache.fill
  split_ifs
  · exact ⟨rfl,rfl,rfl⟩
  · simp only [Cache.set_buf]
    split_ifs with isMe
    · rw [isMe]
      exact ⟨rfl,rfl,rfl⟩
    · exact ⟨rfl,rfl,rfl⟩

theorem bread_eq {c' : Cache} (got : k.cache.bget b = .ok (i,c')) (free : (c'.buf i).locked = false) :
    k.bread b = .ok (i,{ k with cache := (c'.set i { c'.buf i with locked := true } rfl).fill k.disk i b }) := by
  simp [Kernel.bread,got,Cache.acquiresleep_free free,bind,Except.bind,pure,Except.pure]

theorem bread_quiet (quiet : Quiet k.cache pins held) (free : ∀ i ∈ held, (k.cache.buf i).block ≠ some b)
    (room : (∃ i, (k.cache.buf i).block = some b) ∨ pins.length + held.length < nbuf) :
    ∃ i k', k.bread b = .ok (i,k') ∧ Quiet k'.cache pins (i :: held) ∧ (k'.cache.buf i).block = some b ∧ i ∉ held ∧
      Goes k k' held := by
  by_cases hit : ∃ i, (k.cache.buf i).block = some b
  · obtain ⟨i,here⟩ := hit
    have unheld : i ∉ held := fun mine => free i mine here
    have unlocked : (k.cache.buf i).locked = false := by
      have lock := quiet.locks i
      simpa [unheld] using lock
    have got := Cache.bgetWith_hit k.cache.leastUsed here
    refine ⟨i,_,bread_eq got (by simpa [Cache.addRef_buf] using unlocked),?_,?_,unheld,?_⟩
    · refine quiet.hold unheld (fun j => ?_) (fun j => ?_) (fun j => ?_)
      · rw [(fill_buf _ _ _ _ _).1]
        simp only [Cache.set_buf,Cache.addRef_buf,if_true]
        split_ifs with isMe
        · rw [isMe]
        · rfl
      · rw [(fill_buf _ _ _ _ _).2.1]
        simp only [Cache.set_buf,Cache.addRef_buf,if_true]
        split_ifs with isMe
        · rw [isMe]
        · rfl
      · rw [(fill_buf _ _ _ _ _).2.2]
        simp only [Cache.set_buf,Cache.addRef_buf]
        split_ifs <;> rfl
    · rw [(fill_buf _ _ _ _ _).1]
      simpa [Cache.addRef_buf] using here
    · refine ⟨rfl,rfl,fun j mine => ?_⟩
      have other : j ≠ i := fun isMe => unheld (isMe ▸ mine)
      rw [(fill_buf _ _ _ _ _).1]
      simp [Cache.addRef_buf,other]
  · push Not at hit
    have space := room.resolve_left fun ⟨i,here⟩ => hit i here
    obtain ⟨i,found⟩ := Option.ne_none_iff_exists'.mp (quiet.has_unused space)
    have zero := Cache.leastUsed_some found
    obtain ⟨_,unheld⟩ := quiet.unheld zero
    have unlocked : (k.cache.buf i).locked = false := by
      have lock := quiet.locks i
      simpa [unheld] using lock
    have got : k.cache.bget b = .ok (i,k.cache.recycle i b hit) := by
      rw [Cache.bget,found]
      exact Cache.bgetWith_miss hit
    refine ⟨i,_,bread_eq got (by simpa [Cache.recycle_buf] using unlocked),?_,?_,unheld,?_⟩
    · refine quiet.recycle zero hit fun j => ⟨?_,?_,?_⟩
      · rw [(fill_buf _ _ _ _ _).1]
        simp only [Cache.set_buf,Cache.recycle_buf]
        split_ifs <;> rfl
      · rw [(fill_buf _ _ _ _ _).2.1]
        simp only [Cache.set_buf,Cache.recycle_buf]
        split_ifs <;> rfl
      · rw [(fill_buf _ _ _ _ _).2.2]
        simp only [Cache.set_buf,Cache.recycle_buf]
        split_ifs <;> rfl
    · rw [(fill_buf _ _ _ _ _).1]
      simp [Cache.recycle_buf]
    · refine ⟨rfl,rfl,fun j mine => ?_⟩
      have other : j ≠ i := fun isMe => unheld (isMe ▸ mine)
      rw [(fill_buf _ _ _ _ _).1]
      simp [Cache.recycle_buf,other]

theorem setData_quiet (quiet : Quiet k.cache pins held) (i : BufId) (data : Log.Block) :
    Quiet (k.setData i data).cache pins held ∧ Goes k (k.setData i data) held := by
  have bufs : ∀ j, ((k.setData i data).cache.buf j).block = (k.cache.buf j).block ∧
      ((k.setData i data).cache.buf j).refcnt = (k.cache.buf j).refcnt ∧
      ((k.setData i data).cache.buf j).locked = (k.cache.buf j).locked := by
    intro j
    simp only [Kernel.setData,Cache.setData,Cache.set_buf]
    split_ifs with isMe
    · rw [isMe]
      exact ⟨rfl,rfl,rfl⟩
    · exact ⟨rfl,rfl,rfl⟩
  exact ⟨quiet.same (fun j => (bufs j).1) (fun j => (bufs j).2.1) (fun j => (bufs j).2.2),rfl,rfl,fun j _ => (bufs j).1⟩

theorem bwrite_quiet (quiet : Quiet k.cache pins held) (mine : i ∈ held) :
    ∃ k', k.bwrite i = .ok k' ∧ k'.cache = k.cache ∧ Goes k k' held := by
  have lock := (quiet.locks i).mpr mine
  rw [Kernel.bwrite,if_neg (by simp [lock])]
  cases (k.cache.buf i).block with
  | none => exact ⟨k,rfl,rfl,rfl,rfl,fun _ _ => rfl⟩
  | some b => exact ⟨_,rfl,rfl,rfl,rfl,fun _ _ => rfl⟩

theorem brelse_quiet (quiet : Quiet k.cache pins held) (mine : i ∈ held) :
    ∃ k', k.brelse i = .ok k' ∧ Quiet k'.cache pins (held.erase i) ∧ Goes k k' held := by
  have lock := (quiet.locks i).mpr mine
  rw [Kernel.brelse,if_neg (by simp [lock])]
  have bufs : ∀ j, (((k.cache.releasesleep i).unref i).buf j).block = (k.cache.buf j).block ∧
      (((k.cache.releasesleep i).unref i).buf j).refcnt = (if j = i then (k.cache.buf j).refcnt - 1 else (k.cache.buf j).refcnt) ∧
      (((k.cache.releasesleep i).unref i).buf j).locked = if j = i then false else (k.cache.buf j).locked := by
    intro j
    simp only [Cache.unref_buf,Cache.addRef_buf,Cache.releasesleep,Cache.set_buf,if_true]
    split_ifs with isMe
    · rw [isMe]
      exact ⟨rfl,rfl,rfl⟩
    · exact ⟨rfl,rfl,rfl⟩
  refine ⟨_,rfl,⟨fun j => ?_,fun b pinned => ?_,fun j => ?_,quiet.once.erase i⟩,rfl,rfl,fun j _ => (bufs j).1⟩
  · grind [quiet.refs,pinned_congr]
  · obtain ⟨j,here⟩ := quiet.cached b pinned
    exact ⟨j,by rw [(bufs j).1,here]⟩
  · rw [(bufs j).2.2]
    split_ifs with isMe
    · simp [isMe,quiet.once.not_mem_erase]
    · rw [quiet.locks j,mem_erase_of_ne isMe]

theorem bunpin_quiet (quiet : Quiet k.cache (b :: pins) held) (here : (k.cache.buf i).block = some b) (once : b ∉ pins) :
    Quiet (k.bunpin i).cache pins held ∧ Goes k (k.bunpin i) held := by
  have bufs : ∀ j, ((k.bunpin i).cache.buf j).block = (k.cache.buf j).block ∧
      ((k.bunpin i).cache.buf j).refcnt = (if j = i then (k.cache.buf j).refcnt - 1 else (k.cache.buf j).refcnt) ∧
      ((k.bunpin i).cache.buf j).locked = (k.cache.buf j).locked := by
    intro j
    simp only [Kernel.bunpin,Cache.addRef_buf]
    split_ifs with isMe
    · rw [isMe]
      exact ⟨rfl,rfl,rfl⟩
    · exact ⟨rfl,rfl,rfl⟩
  refine ⟨⟨fun j => ?_,fun b' pinned => ?_,fun j => ?_,quiet.once⟩,rfl,rfl,fun j _ => (bufs j).1⟩
  · have counted := quiet.refs j
    simp only [(bufs j).2.1,pinned_congr fun j => (bufs j).1]
    by_cases isMe : j = i
    · subst isMe
      have before : Pinned k.cache (b :: pins) j := ⟨b,.head _,here⟩
      have after : ¬Pinned k.cache pins j := by
        rintro ⟨b',inside,there⟩
        rw [here] at there
        exact once (Option.some.inj there ▸ inside)
      rw [if_pos before] at counted
      rw [if_pos rfl,if_neg after,counted]
      omega
    · have same : Pinned k.cache (b :: pins) j ↔ Pinned k.cache pins j := by
        refine ⟨fun ⟨b',inside,there⟩ => ?_,fun ⟨b',inside,there⟩ => ⟨b',.tail _ inside,there⟩⟩
        rcases mem_cons.mp inside with rfl | rest
        · exact absurd (k.cache.unique j i b' there here) isMe
        · exact ⟨b',rest,there⟩
      simp only [same] at counted
      rw [if_neg isMe,counted]
  · obtain ⟨j,there⟩ := quiet.cached b' (.tail _ pinned)
    exact ⟨j,by rw [(bufs j).1,there]⟩
  · rw [(bufs j).2.2]
    exact quiet.locks j

/-! commit. -/

def Done (k : Kernel) (pins : List Nat) (result : Except Stop Kernel) : Prop :=
  ∃ k', result = .ok k' ∧ Quiet k'.cache pins [] ∧ k'.start = k.start ∧ k'.lh = k.lh

theorem writeLogOne_done {tail : Nat} {b : BitVec 32} (quiet : Quiet k.cache pins []) (room : pins.length < nbuf)
    (pinned : b.toNat ∈ pins) (apart : k.start + tail + 1 ≠ b.toNat) : Done k pins (k.writeLogOne tail b) := by
  obtain ⟨to_,k1,ran1,quiet1,block1,_,goes1⟩ := bread_quiet (b := k.start + tail + 1) quiet (by simp) (.inr room)
  obtain ⟨from_,k2,ran2,quiet2,block2,_,goes2⟩ := bread_quiet (b := b.toNat) quiet1
    (by simp [block1,apart]) (.inl (quiet1.cached _ pinned))
  obtain ⟨quiet3,goes3⟩ := setData_quiet quiet2 to_ (k2.cache.buf from_).data
  obtain ⟨k4,ran4,cache4,goes4⟩ := bwrite_quiet quiet3 (.tail _ (.head _))
  obtain ⟨k5,ran5,quiet5,goes5⟩ := brelse_quiet (cache4 ▸ quiet3) (.head _)
  rw [erase_cons_head] at quiet5
  obtain ⟨k6,ran6,quiet6,goes6⟩ := brelse_quiet quiet5 (.head _)
  rw [erase_cons_head] at quiet6
  refine ⟨k6,?_,quiet6,?_,?_⟩
  · simp [Kernel.writeLogOne,ran1,ran2,ran4,ran5,ran6,bind,Except.bind]
  · rw [goes6.start,goes5.start,goes4.start,goes3.start,goes2.start,goes1.start]
  · rw [goes6.lh,goes5.lh,goes4.lh,goes3.lh,goes2.lh,goes1.lh]

theorem writeLog_done (tail : Nat) (rest : List (BitVec 32)) (quiet : Quiet k.cache pins []) (room : pins.length < nbuf)
    (pinned : ∀ b ∈ rest, b.toNat ∈ pins)
    (apart : ∀ b ∈ rest, ∀ t, tail ≤ t → t < tail + rest.length → k.start + t + 1 ≠ b.toNat) :
    Done k pins (Kernel.writeLog tail rest k) := by
  induction rest generalizing k tail with
  | nil => exact ⟨k,rfl,quiet,rfl,rfl⟩
  | cons b rest ih =>
    rw [length_cons] at apart
    obtain ⟨k1,ran1,quiet1,start1,lh1⟩ :=
      writeLogOne_done quiet room (pinned b (.head _)) (apart b (.head _) tail (Nat.le_refl _) (by omega))
    obtain ⟨k2,ran2,quiet2,start2,lh2⟩ := ih (tail + 1) quiet1 (fun b' inside => pinned b' (.tail _ inside))
      fun b' inside t low high => start1 ▸ apart b' (.tail _ inside) t (by omega) (by omega)
    refine ⟨k2,?_,quiet2,start2.trans start1,lh2.trans lh1⟩
    simp [Kernel.writeLog,ran1,ran2,bind,Except.bind]

theorem writeHead_done (quiet : Quiet k.cache pins []) (room : pins.length < nbuf) : Done k pins k.writeHead := by
  obtain ⟨i,k1,ran1,quiet1,_,_,goes1⟩ := bread_quiet (b := k.start) quiet (by simp) (.inr room)
  obtain ⟨quiet2,goes2⟩ := setData_quiet quiet1 i (Kernel.headBlock k1.lh (k1.cache.buf i).data)
  obtain ⟨k3,ran3,cache3,goes3⟩ := bwrite_quiet quiet2 (.head _)
  obtain ⟨k4,ran4,quiet4,goes4⟩ := brelse_quiet (cache3 ▸ quiet2) (.head _)
  rw [erase_cons_head] at quiet4
  refine ⟨k4,?_,quiet4,?_,?_⟩
  · simp [Kernel.writeHead,ran1,ran3,ran4,bind,Except.bind]
  · rw [goes4.start,goes3.start,goes2.start,goes1.start]
  · rw [goes4.lh,goes3.lh,goes2.lh,goes1.lh]

theorem installOne_done {tail : Nat} {b : BitVec 32} (quiet : Quiet k.cache (b.toNat :: pins) [])
    (room : pins.length + 1 < nbuf) (once : b.toNat ∉ pins) (apart : k.start + tail + 1 ≠ b.toNat) :
    Done k pins (k.installOne tail b) := by
  obtain ⟨lbuf,k1,ran1,quiet1,block1,_,goes1⟩ := bread_quiet (b := k.start + tail + 1) quiet (by simp) (.inr room)
  obtain ⟨dbuf,k2,ran2,quiet2,block2,other,goes2⟩ := bread_quiet (b := b.toNat) quiet1
    (by simp [block1,apart]) (.inl (quiet1.cached _ (.head _)))
  obtain ⟨quiet3,goes3⟩ := setData_quiet quiet2 dbuf (k2.cache.buf lbuf).data
  obtain ⟨k4,ran4,cache4,goes4⟩ := bwrite_quiet quiet3 (.head _)
  have block4 : (k4.cache.buf dbuf).block = some b.toNat := by
    rw [goes4.blocks dbuf (.head _),goes3.blocks dbuf (.head _),block2]
  obtain ⟨quiet5,goes5⟩ := bunpin_quiet (cache4 ▸ quiet3) block4 once
  obtain ⟨k6,ran6,quiet6,goes6⟩ := brelse_quiet quiet5 (.tail _ (.head _))
  have left : [dbuf,lbuf].erase lbuf = [dbuf] := by
    have apart : dbuf ≠ lbuf := by simpa using other
    rw [erase_cons_tail (by simpa using apart),erase_cons_head]
  rw [left] at quiet6
  obtain ⟨k7,ran7,quiet7,goes7⟩ := brelse_quiet quiet6 (.head _)
  rw [erase_cons_head] at quiet7
  refine ⟨k7,?_,quiet7,?_,?_⟩
  · simp [Kernel.installOne,ran1,ran2,ran4,ran6,ran7,bind,Except.bind]
  · rw [goes7.start,goes6.start,goes5.start,goes4.start,goes3.start,goes2.start,goes1.start]
  · rw [goes7.lh,goes6.lh,goes5.lh,goes4.lh,goes3.lh,goes2.lh,goes1.lh]

theorem installTrans_done (tail : Nat) (rest : List (BitVec 32)) (quiet : Quiet k.cache (rest.map (·.toNat)) [])
    (room : rest.length < nbuf) (once : (rest.map (·.toNat)).Nodup)
    (apart : ∀ b ∈ rest, ∀ t, tail ≤ t → t < tail + rest.length → k.start + t + 1 ≠ b.toNat) :
    Done k [] (Kernel.installTrans tail rest k) := by
  induction rest generalizing k tail with
  | nil => exact ⟨k,rfl,quiet,rfl,rfl⟩
  | cons b rest ih =>
    rw [length_cons] at apart room
    rw [map_cons,nodup_cons] at once
    obtain ⟨k1,ran1,quiet1,start1,lh1⟩ := installOne_done quiet (by rw [length_map]; exact room) once.1
      (apart b (.head _) tail (Nat.le_refl _) (by omega))
    obtain ⟨k2,ran2,quiet2,start2,lh2⟩ := ih (tail + 1) quiet1 (by omega) once.2
      fun b' inside t low high => start1 ▸ apart b' (.tail _ inside) t (by omega) (by omega)
    refine ⟨k2,?_,quiet2,start2.trans start1,lh2.trans lh1⟩
    simp [Kernel.installTrans,ran1,ran2,bind,Except.bind]

/-- A full transaction at rest: no process holds a buffer, the log has at most
LOGBLOCKS distinct home blocks, each in the cache and pinned once, and nothing
else is in use. -/
structure Admissible (k : Kernel) : Prop where
  quiet : Quiet k.cache (k.lh.map (·.toNat)) []
  distinct : k.lh.Nodup
  short : k.lh.length ≤ logBlocks
  home : ∀ b ∈ k.lh, ¬Log.logArea k.start b.toNat

theorem Admissible.apart (ready : Admissible k) : ∀ b ∈ k.lh, ∀ t, 0 ≤ t → t < 0 + k.lh.length → k.start + t + 1 ≠ b.toNat := by
  intro b inside t _ high same
  have short := ready.short
  exact ready.home b inside ⟨by omega,by omega⟩

def pinnedKernel (count : Nat) : Kernel where
  disk := fun _ _ => 0
  cache :=
    { buf := fun i => ⟨some (100 + i.val),true,false,if i.val < count then 1 else 0,fun _ => 0⟩
      lru := finRange nbuf
      whole := mem_finRange
      unique := by
        intro i j b first second
        have same : 100 + i.val = 100 + j.val := Option.some.inj (first.trans second.symm)
        exact Fin.ext (by omega) }
  start := 2
  lh := (range count).map fun k => BitVec.ofNat 32 (100 + k)

theorem pinnedKernel_admissible {count : Nat} (fits : count ≤ nbuf) : Admissible (pinnedKernel count) := by
  have number : ∀ k, k < count → (BitVec.ofNat 32 (100 + k)).toNat = 100 + k := by
    intro k inside
    have small : nbuf = 30 := rfl
    rw [BitVec.toNat_ofNat]
    exact Nat.mod_eq_of_lt (by omega)
  have pinned : ∀ i : BufId, Pinned (pinnedKernel count).cache ((pinnedKernel count).lh.map (·.toNat)) i ↔ i.val < count := by
    intro i
    simp only [Pinned,pinnedKernel,map_map,mem_map,mem_range,Function.comp_apply,Option.some.injEq]
    refine ⟨fun ⟨b,⟨k,inside,same⟩,here⟩ => ?_,fun inside => ⟨_,⟨i.val,inside,rfl⟩,(number i.val inside).symm⟩⟩
    rw [number k inside] at same
    omega
  refine ⟨⟨fun i => ?_,fun b inside => ?_,fun i => by simp [pinnedKernel],nodup_nil⟩,?_,?_,fun b inside => ?_⟩
  · simp only [pinned]
    simp [pinnedKernel]
  · simp only [pinnedKernel,map_map,mem_map,mem_range,Function.comp_apply] at inside
    obtain ⟨k,small,same⟩ := inside
    refine ⟨⟨k,by omega⟩,?_⟩
    rw [← same,number k small]
    rfl
  · refine List.Nodup.map_on (fun j first k second same => ?_) nodup_range
    have equal := congrArg BitVec.toNat same
    rw [number j (mem_range.mp first),number k (mem_range.mp second)] at equal
    omega
  · have same : logBlocks = nbuf := rfl
    rw [same]
    simpa [pinnedKernel] using fits
  · simp only [pinnedKernel,mem_map,mem_range] at inside
    obtain ⟨k,small,rfl⟩ := inside
    rw [number k small]
    rintro ⟨_,high⟩
    change 100 + k ≤ 2 + 30 at high
    omega

end Xv6.Bcache
