import Xv6.Lib.Links
import Xv6.Lib.Transition
import Xv6.Bcache.Model

/-! The list of buffers of bio.c with its links: binit, bget up to acquiresleep,
brelse after releasesleep, bpin and bunpin, each under bcache.lock. The list is
in the order in which the buffers were last released. -/
namespace Xv6.Bcache.Lru
open Lib Function List

structure Entry where
  dev : BitVec 32
  blockno : BitVec 32
  valid : Bool
  refcnt : BitVec 32

structure Buffers where
  buf : BufId → Entry
  links : Links BufId

namespace Buffers

def setBuf (c : Buffers) (b : BufId) (entry : Entry) : Buffers := { c with buf := update c.buf b entry }

def setRefcnt (c : Buffers) (b : BufId) (refcnt : BitVec 32) : Buffers := c.setBuf b { c.buf b with refcnt := refcnt }

def binit (links : Links BufId) : Buffers where
  buf := fun _ => ⟨0,0,false,0⟩
  links := (finRange nbuf).foldl Links.insert
    { next := update links.next none none, prev := update links.prev none none }

def Has (c : Buffers) (dev blockno : BitVec 32) (b : BufId) : Prop := (c.buf b).dev = dev ∧ (c.buf b).blockno = blockno

instance (c : Buffers) (dev blockno : BitVec 32) (b : BufId) : Decidable (c.Has dev blockno b) :=
  inferInstanceAs (Decidable (_ ∧ _))

def cached (c : Buffers) (dev blockno : BitVec 32) : Option BufId :=
  Links.search c.links.next (fun b => c.Has dev blockno b) nbuf (c.links.next none)

def unused (c : Buffers) : Option BufId := Links.search c.links.prev (fun b => (c.buf b).refcnt = 0) nbuf (c.links.prev none)

def bget (c : Buffers) (dev blockno : BitVec 32) : Option (BufId × Buffers) :=
  match c.cached dev blockno with
  | some b => some (b,c.setRefcnt b ((c.buf b).refcnt + 1))
  | none =>
    match c.unused with
    | some b => some (b,c.setBuf b ⟨dev,blockno,false,1⟩)
    | none => none

def brelse (c : Buffers) (b : BufId) : Buffers :=
  let c := c.setRefcnt b ((c.buf b).refcnt - 1)
  if (c.buf b).refcnt = 0 then { c with links := (c.links.unlink b).insert b } else c

def bpin (c : Buffers) (b : BufId) : Buffers := c.setRefcnt b ((c.buf b).refcnt + 1)

def bunpin (c : Buffers) (b : BufId) : Buffers := c.setRefcnt b ((c.buf b).refcnt - 1)

end Buffers

/-! Runs, with the history of the releases. -/

structure State where
  cache : Buffers
  time : Nat -- the number of calls so far
  released : BufId → Option Nat -- the last brelse that made the buffer's refcnt 0

inductive Label
  | bget (dev blockno : BitVec 32)
  | brelse (b : BufId)
  | bpin (b : BufId)
  | bunpin (b : BufId)

def step (s : State) : Label → Option State
  | .bget dev blockno => (s.cache.bget dev blockno).map fun (_,cache) => { s with cache := cache, time := s.time + 1 }
  | .brelse b =>
    if (s.cache.buf b).refcnt = 0 then none
    else some {
      cache := s.cache.brelse b
      time := s.time + 1
      released := if (s.cache.buf b).refcnt - 1 = 0 then update s.released b (some s.time) else s.released }
  | .bpin b => some { s with cache := s.cache.bpin b, time := s.time + 1 }
  | .bunpin b =>
    if (s.cache.buf b).refcnt = 0 then none else some { s with cache := s.cache.bunpin b, time := s.time + 1 }

def system : System State Label := System.ofStep (fun s => ∃ links, s = ⟨.binit links,0,fun _ => none⟩) step

/-! The order of the list. -/

def Older : Option Nat → Option Nat → Prop
  | none, _ => True
  | some t, some t' => t < t'
  | some _, none => False

variable {s s' : State} {c : Buffers} {dev blockno : BitVec 32} {b : BufId} {order : List BufId}

structure Inv (s : State) (order : List BufId) : Prop where
  ring : s.cache.links.Ring order
  whole : ∀ b, b ∈ order
  sorted : order.Pairwise fun b b' => Older (s.released b') (s.released b)
  past : ∀ b t, s.released b = some t → t < s.time
  unique : ∀ b b', (s.cache.buf b).dev ≠ 0 → s.cache.Has (s.cache.buf b).dev (s.cache.buf b).blockno b' → b = b'

theorem length_le (ring : c.links.Ring order) : order.length ≤ nbuf := by
  have few := ring.distinct.length_le_card
  rwa [Fintype.card_fin] at few

theorem cached_eq (ring : c.links.Ring order) : c.cached dev blockno = order.find? fun b => c.Has dev blockno b :=
  ring.linked.search_next _ (length_le ring)

theorem unused_eq (ring : c.links.Ring order) : c.unused = order.reverse.find? fun b => (c.buf b).refcnt = 0 :=
  ring.linked.reverse.search_next _ (by rw [length_reverse]; exact length_le ring)

theorem bget_cases {cache : Buffers} (got : c.bget dev blockno = some (b,cache)) :
    (c.cached dev blockno = some b ∧ cache = c.setRefcnt b ((c.buf b).refcnt + 1)) ∨
      (c.cached dev blockno = none ∧ c.unused = some b ∧ cache = c.setBuf b ⟨dev,blockno,false,1⟩) := by
  unfold Buffers.bget at got
  split at got
  next hit =>
    cases got
    exact .inl ⟨hit,rfl⟩
  next missed =>
    split at got
    next free =>
      cases got
      exact .inr ⟨missed,free,rfl⟩
    next => cases got

theorem Inv.absent (inv : Inv s order) (missed : s.cache.cached dev blockno = none) (b : BufId) : ¬s.cache.Has dev blockno b := by
  rw [cached_eq inv.ring] at missed
  have checked := find?_eq_none.mp missed b (inv.whole b)
  simpa using checked

theorem Inv.victim (inv : Inv s order) {v : BufId} (found : s.cache.unused = some v) :
    (s.cache.buf v).refcnt = 0 ∧ ∀ u, (s.cache.buf u).refcnt = 0 → u ≠ v → Older (s.released v) (s.released u) := by
  rw [unused_eq inv.ring] at found
  refine ⟨by simpa using find?_some found,fun u zero other => ?_⟩
  obtain ⟨-,before,after,split,later⟩ := find?_eq_some_iff_append.mp found
  have order_eq : order = after.reverse ++ v :: before.reverse := by
    rw [← reverse_reverse order,split]
    simp
  have member := inv.whole u
  rw [order_eq,mem_append,mem_cons] at member
  have sorted := inv.sorted
  rw [order_eq] at sorted
  rcases member with early | rfl | late
  · exact (pairwise_append.mp sorted).2.2 u early v (.head _)
  · exact absurd rfl other
  · have used := later u (mem_reverse.mp late)
    simp [zero] at used

/-! What a call keeps. -/

theorem Inv.counts (inv : Inv s order) (links : s'.cache.links = s.cache.links) (released : s'.released = s.released)
    (time : s.time ≤ s'.time)
    (keys : ∀ b, (s'.cache.buf b).dev = (s.cache.buf b).dev ∧ (s'.cache.buf b).blockno = (s.cache.buf b).blockno) :
    Inv s' order := by
  refine ⟨links ▸ inv.ring,inv.whole,released ▸ inv.sorted,fun b t at_ => ?_,fun b b' some same => ?_⟩
  · rw [released] at at_
    exact Nat.lt_of_lt_of_le (inv.past b t at_) time
  · rw [(keys b).1] at some
    obtain ⟨dev,blockno⟩ := same
    rw [(keys b).1,(keys b').1] at dev
    rw [(keys b).2,(keys b').2] at blockno
    exact inv.unique b b' some ⟨dev,blockno⟩

theorem setRefcnt_keys (c : Buffers) (b : BufId) (refcnt : BitVec 32) (b' : BufId) :
    ((c.setRefcnt b refcnt).buf b').dev = (c.buf b').dev ∧ ((c.setRefcnt b refcnt).buf b').blockno = (c.buf b').blockno := by
  change ((update c.buf b _) b').dev = _ ∧ ((update c.buf b _) b').blockno = _
  rw [update_apply]
  split_ifs with isMe
  · rw [isMe]
    exact ⟨rfl,rfl⟩
  · exact ⟨rfl,rfl⟩

theorem brelse_keys (c : Buffers) (b b' : BufId) :
    ((c.brelse b).buf b').dev = (c.buf b').dev ∧ ((c.brelse b).buf b').blockno = (c.buf b').blockno := by
  have keys := setRefcnt_keys c b ((c.buf b).refcnt - 1) b'
  unfold Buffers.brelse
  dsimp only
  split_ifs <;> exact keys

theorem Inv.recycle (inv : Inv s order) (missed : s.cache.cached dev blockno = none) (b : BufId) :
    Inv { s with cache := s.cache.setBuf b ⟨dev,blockno,false,1⟩, time := s.time + 1 } order := by
  have absent := inv.absent missed
  have buf : ∀ b', (s.cache.setBuf b ⟨dev,blockno,false,1⟩).buf b' = if b' = b then ⟨dev,blockno,false,1⟩ else s.cache.buf b' :=
    fun b' => update_apply ..
  refine ⟨inv.ring,inv.whole,inv.sorted,fun b t at_ => Nat.lt_succ_of_lt (inv.past b t at_),fun b1 b2 some same => ?_⟩
  obtain ⟨sameDev,sameBlock⟩ := same
  dsimp only at some sameDev sameBlock
  rw [buf] at some sameDev sameBlock
  rw [buf b1] at sameDev sameBlock
  split_ifs at some sameDev sameBlock with first second second
  · rw [first,second]
  · exact absurd ⟨sameDev,sameBlock⟩ (absent b2)
  · exact absurd ⟨sameDev.symm,sameBlock.symm⟩ (absent b1)
  · exact inv.unique b1 b2 some ⟨sameDev,sameBlock⟩

/-- The last reference is given back: the buffer becomes the first of the list. -/
theorem Inv.release (inv : Inv s order) (last : (s.cache.buf b).refcnt - 1 = 0) :
    Inv ⟨s.cache.brelse b,s.time + 1,update s.released b (some s.time)⟩ (b :: order.erase b) := by
  have links : (s.cache.brelse b).links = (s.cache.links.unlink b).insert b := by
    unfold Buffers.brelse
    dsimp only
    rw [if_pos]
    · rfl
    · change (update s.cache.buf b _ b).refcnt = 0
      rw [update_self]
      exact last
  obtain ⟨before,after,split⟩ := append_of_mem (inv.whole b)
  have ring := inv.ring
  rw [split] at ring
  have distinct := ring.distinct
  have fresh : b ∉ before := fun inside => (nodup_append.mp distinct).2.2 b inside b (.head _) rfl
  have erased : order.erase b = before ++ after := by
    rw [split,erase_append_right _ fresh,erase_cons_head]
  have gone : b ∉ before ++ after := by
    rw [mem_append]
    rintro (inside | inside)
    · exact fresh inside
    · exact (nodup_cons.mp (nodup_append.mp distinct).2.1).1 inside
  have stamp : ∀ b', update s.released b (some s.time) b' = if b' = b then some s.time else s.released b' :=
    fun b' => update_apply ..
  rw [erased]
  refine ⟨?_,fun b' => ?_,pairwise_cons.mpr ⟨fun b' inside => ?_,?_⟩,fun b' t at_ => ?_,fun b1 b2 some same => ?_⟩
  · change (s.cache.brelse b).links.Ring _
    rw [links]
    exact ring.unlink.insert gone
  · grind [inv.whole]
  · have other : b' ≠ b := fun same => gone (same ▸ inside)
    dsimp only
    rw [stamp,if_neg other,stamp,if_pos rfl]
    cases old : s.released b' with
    | none => trivial
    | some t => exact inv.past b' t old
  · have sorted := inv.sorted.sublist (show (before ++ after).Sublist order by
      rw [split]
      exact List.Sublist.append_left (sublist_cons_self b after) before)
    refine sorted.imp_of_mem fun {x y} first second older => ?_
    dsimp only
    rw [stamp,if_neg (fun same : y = b => gone (same ▸ second)),stamp,if_neg (fun same : x = b => gone (same ▸ first))]
    exact older
  · dsimp only at at_ ⊢
    rw [stamp] at at_
    split_ifs at at_
    · cases at_
      omega
    · exact Nat.lt_succ_of_lt (inv.past b' t at_)
  · dsimp only at some same
    rw [(brelse_keys s.cache b b1).1] at some
    obtain ⟨dev,blockno⟩ := same
    rw [(brelse_keys s.cache b b2).1,(brelse_keys s.cache b b1).1] at dev
    rw [(brelse_keys s.cache b b2).2,(brelse_keys s.cache b b1).2] at blockno
    exact inv.unique b1 b2 some ⟨dev,blockno⟩

theorem step_inv (inv : Inv s order) {label : Label} (stepped : step s label = some s') : ∃ order', Inv s' order' := by
  cases label with
  | bget dev blockno =>
    obtain ⟨⟨b,cache⟩,got,rfl⟩ := Option.map_eq_some_iff.mp stepped
    rcases bget_cases got with ⟨-,rfl⟩ | ⟨missed,-,rfl⟩
    · exact ⟨order,inv.counts rfl rfl (Nat.le_succ _) (setRefcnt_keys s.cache b _)⟩
    · exact ⟨order,inv.recycle missed b⟩
  | brelse b =>
    rw [step] at stepped
    split_ifs at stepped with none last
    · cases stepped
      exact ⟨_,inv.release last⟩
    · cases stepped
      refine ⟨order,inv.counts ?_ rfl (Nat.le_succ _) (brelse_keys s.cache b)⟩
      change (s.cache.brelse b).links = _
      unfold Buffers.brelse
      dsimp only
      rw [if_neg]
      · rfl
      · change ¬(update s.cache.buf b _ b).refcnt = 0
        rw [update_self]
        exact last
  | bpin b =>
    cases stepped
    exact ⟨order,inv.counts rfl rfl (Nat.le_succ _) (setRefcnt_keys s.cache b _)⟩
  | bunpin b =>
    rw [step] at stepped
    split_ifs at stepped
    cases stepped
    exact ⟨order,inv.counts rfl rfl (Nat.le_succ _) (setRefcnt_keys s.cache b _)⟩

theorem insert_all {links : Links BufId} {bufs : List BufId} (ring : links.Ring order) (fresh : ∀ b ∈ bufs, b ∉ order)
    (distinct : bufs.Nodup) : (bufs.foldl Links.insert links).Ring (bufs.reverse ++ order) := by
  induction bufs generalizing links order with
  | nil => exact ring
  | cons b rest ih =>
    obtain ⟨new,distinct⟩ := nodup_cons.mp distinct
    rw [reverse_cons,append_assoc]
    refine ih (ring.insert (fresh b (.head _))) (fun b' inside => ?_) distinct
    rw [singleton_append,mem_cons]
    rintro (rfl | old)
    · exact new inside
    · exact fresh b' (.tail _ inside) old

theorem boot_inv (links : Links BufId) : Inv ⟨.binit links,0,fun _ => none⟩ (finRange nbuf).reverse := by
  have empty : Links.Ring ⟨update links.next none none,update links.prev none none⟩ ([] : List BufId) :=
    ⟨nodup_nil,by simp [Links.Segment]⟩
  have ring := insert_all empty (fun _ _ => not_mem_nil) (nodup_finRange nbuf)
  rw [append_nil] at ring
  refine ⟨ring,fun b => mem_reverse.mpr (mem_finRange b),?_,by rintro _ _ ⟨⟩,fun b b' some => absurd rfl some⟩
  exact pairwise_of_forall fun _ _ => trivial

theorem reachable_inv (reached : system.Reachable s) : ∃ order, Inv s order := by
  refine @System.Reachable.invariant _ _ system (fun s => ∃ order, Inv s order) ?_ ?_ s reached
  · rintro s ⟨links,rfl⟩
    exact ⟨_,boot_inv links⟩
  · rintro s label s' - ⟨order,inv⟩ stepped
    exact step_inv inv stepped

/-- A buffer that is in use keeps its block. -/
theorem step_keeps {label : Label} (inv : Inv s order) (stepped : step s label = some s') {b : BufId}
    (used : (s.cache.buf b).refcnt ≠ 0) : s'.cache.Has (s.cache.buf b).dev (s.cache.buf b).blockno b := by
  cases label with
  | bget dev blockno =>
    obtain ⟨⟨v,cache⟩,got,rfl⟩ := Option.map_eq_some_iff.mp stepped
    rcases bget_cases got with ⟨-,rfl⟩ | ⟨-,free,rfl⟩
    · exact setRefcnt_keys ..
    · have other : b ≠ v := by
        rintro rfl
        exact used (inv.victim free).1
      change (update s.cache.buf v _ b).dev = _ ∧ (update s.cache.buf v _ b).blockno = _
      rw [update_of_ne other]
      exact ⟨rfl,rfl⟩
  | brelse v =>
    rw [step] at stepped
    split_ifs at stepped
    all_goals
      cases stepped
      exact brelse_keys s.cache v b
  | bpin v =>
    cases stepped
    exact setRefcnt_keys ..
  | bunpin v =>
    rw [step] at stepped
    split_ifs at stepped
    cases stepped
    exact setRefcnt_keys ..

/-- The buffer list is a least recently used cache. -/
theorem buffer_list_is_lru (reached : system.Reachable s) :
    (∃ order : List BufId, order.Nodup ∧ (∀ b, b ∈ order) ∧ s.cache.links.Segment none order none ∧
      Links.Segment ⟨s.cache.links.prev,s.cache.links.next⟩ none order.reverse none) ∧
    (∀ b b', (s.cache.buf b).dev ≠ 0 → (s.cache.buf b').dev = (s.cache.buf b).dev →
      (s.cache.buf b').blockno = (s.cache.buf b).blockno → b = b') ∧
    (∀ label s', step s label = some s' → ∀ b, (s.cache.buf b).refcnt ≠ 0 →
      (s'.cache.buf b).dev = (s.cache.buf b).dev ∧ (s'.cache.buf b).blockno = (s.cache.buf b).blockno) ∧
    ∀ dev blockno v cache, (∀ b, ¬((s.cache.buf b).dev = dev ∧ (s.cache.buf b).blockno = blockno)) →
      s.cache.bget dev blockno = some (v,cache) →
      (s.cache.buf v).refcnt = 0 ∧ ∀ u, (s.cache.buf u).refcnt = 0 → u ≠ v → Older (s.released v) (s.released u) := by
  obtain ⟨order,inv⟩ := reachable_inv reached
  refine ⟨⟨order,inv.ring.distinct,inv.whole,inv.ring.linked,inv.ring.linked.reverse⟩,
    fun b b' some dev blockno => inv.unique b b' some ⟨dev,blockno⟩,fun label s' stepped b used => step_keeps inv stepped used,
    fun dev blockno v cache absent got => ?_⟩
  rcases bget_cases got with ⟨hit,-⟩ | ⟨-,free,-⟩
  · rw [cached_eq inv.ring] at hit
    exact absurd (show s.cache.Has dev blockno v by simpa using List.find?_some hit) (absent v)
  · exact inv.victim free

def reuse : List Label := [.bget 1 7,.bget 1 8,.brelse ⟨1,by decide⟩,.brelse ⟨0,by decide⟩,.bget 1 9]

def boot : State := ⟨.binit ⟨fun _ => none,fun _ => none⟩,0,fun _ => none⟩

theorem reuse_runs : ∃ s, System.run step boot reuse = some s ∧ s.released ⟨1,by decide⟩ = some 2 := by
  cases ran : System.run step boot reuse with
  | none => exact absurd ran (by decide +kernel)
  | some s => exact ⟨s,rfl,by
      have done : (System.run step boot reuse).map (fun s => s.released ⟨1,by decide⟩) = some (some 2) := by decide +kernel
      rw [ran] at done
      exact Option.some.inj done⟩

theorem buffer_list_is_lru_reuse : ∃ s, system.Reachable s ∧ s.released ⟨1,by decide⟩ = some 2 ∧
    ∃ order : List BufId, order.Nodup ∧ (∀ b, b ∈ order) ∧ s.cache.links.Segment none order none := by
  obtain ⟨s,ran,stamp⟩ := reuse_runs
  have reached : system.Reachable s := System.Reachable.run (.start boot ⟨_,rfl⟩) ran
  obtain ⟨order,distinct,whole,linked,-⟩ := (buffer_list_is_lru reached).1
  exact ⟨s,reached,stamp,order,distinct,whole,linked⟩

end Xv6.Bcache.Lru
