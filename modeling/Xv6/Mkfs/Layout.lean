import Xv6.Mkfs.Model
import Mathlib.Tactic

/-! What mkfs has laid out at any time: every inode with its contents and the blocks
that hold them. Blocks are handed out in order, so those in use are the first ones
past the meta blocks, each owned once, and all later ones are still zero. -/
namespace Xv6.Mkfs
open Lib.Bytes Function
open Log (Block Disk)
open Fs Image

structure Node where
  type : BitVec 16
  content : List Byte
  data : List Nat
  ind : Nat -- the indirect block, or 0

def Node.owned (node : Node) : List Nat := node.data ++ if node.ind = 0 then [] else [node.ind]

/-- The inode d on this disk has the node's contents; the last block is zero past
them. -/
structure Holds (disk : Disk) (d : Dinode) (node : Node) : Prop where
  attr : d.attr = ⟨node.type,0,0,1⟩
  room : node.content.length ≤ node.data.length * bsize
  short : node.data.length ≤ maxfile
  addr : ∀ k < maxfile, (blockAt disk d k).toNat = node.data.getD k 0
  ind : (d.addrs indirectId).toNat = node.ind
  split : node.ind = 0 → node.data.length ≤ ndirect
  bytes : ∀ k b, node.data[k]? = some b → ∀ j < bsize, disk b j = node.content.getD (k * bsize + j) 0

theorem mem_owned_of_data {node : Node} {k b : Nat} (here : node.data[k]? = some b) : b ∈ node.owned :=
  List.mem_append_left _ (List.mem_of_getElem? here)

theorem mem_owned_of_ind {node : Node} (some : node.ind ≠ 0) : node.ind ∈ node.owned := by
  simp [Node.owned,some]

theorem blockAt_congr {disk disk' : Disk} {d : Dinode} (same : d.addrs indirectId ≠ 0 →
    disk' (d.addrs indirectId).toNat = disk (d.addrs indirectId).toNat) (k : Nat) : blockAt disk' d k = blockAt disk d k := by
  unfold blockAt
  split_ifs with direct none
  · rfl
  · rfl
  · rw [same none]

theorem Holds.frame {disk disk' : Disk} {d : Dinode} {node : Node} (holds : Holds disk d node)
    (same : ∀ b ∈ node.owned, disk' b = disk b) : Holds disk' d node := by
  refine ⟨holds.attr,holds.room,holds.short,fun k inside => ?_,holds.ind,holds.split,fun k b here j small => ?_⟩
  · rw [blockAt_congr fun some => ?_]
    · exact holds.addr k inside
    · rw [holds.ind]
      refine same _ (mem_owned_of_ind fun none => some ?_)
      exact BitVec.eq_of_toNat_eq (by rw [holds.ind,none]; rfl)
  · rw [same b (mem_owned_of_data here)]
    exact holds.bytes k b here j small

/-- All inodes so far, where d gives the inode of each number. -/
structure Laid (m : Image) (d : Nat → Dinode) (nodes : List Node) : Prop where
  blocks : m.blocks = fssize
  holds : ∀ i node, nodes[i]? = some node → Holds m.disk (d (i + 1)) node
  range : ∀ b ∈ nodes.flatMap Node.owned, nmeta ≤ b
  distinct : (nodes.flatMap Node.owned).Nodup
  below : ∀ b ∈ nodes.flatMap Node.owned, b < m.freeblock.toNat
  zero : ∀ b, m.freeblock.toNat ≤ b → m.disk b = fun _ => 0
  count : m.freeblock.toNat = nmeta + (nodes.flatMap Node.owned).length

variable {m m' : Image} {d : Nat → Dinode} {nodes : List Node} {i : Nat} {node node' : Node}

theorem split_at {α : Type*} {l : List α} {i : Nat} {a : α} (here : l[i]? = some a) :
    l = l.take i ++ a :: l.drop (i + 1) ∧ ∀ a', l.set i a' = l.take i ++ a' :: l.drop (i + 1) := by
  have inside : i < l.length := (List.getElem?_eq_some_iff.mp here).1
  have value : l[i] = a := (List.getElem?_eq_some_iff.mp here).2
  refine ⟨?_,fun a' => ?_⟩
  · conv_lhs => rw [← List.take_append_drop i l,List.drop_eq_getElem_cons inside,value]
  · rw [List.set_eq_take_append_cons_drop,if_pos inside]

theorem set_same {α : Type*} {l : List α} {i : Nat} {a : α} (here : l[i]? = some a) : l.set i a = l :=
  ((split_at here).2 a).trans (split_at here).1.symm

theorem owned_set {more : List Nat} (here : nodes[i]? = some node) (grown : node'.owned.Perm (node.owned ++ more)) :
    ((nodes.set i node').flatMap Node.owned).Perm (nodes.flatMap Node.owned ++ more) := by
  obtain ⟨whole,changed⟩ := split_at here
  rw [changed]
  refine List.perm_iff_count.mpr fun b => ?_
  have same := grown.count_eq b
  rw [List.count_append] at same
  conv_rhs => rw [whole]
  simp only [List.flatMap_append,List.flatMap_cons,List.count_append,same]
  omega

theorem Laid.one_owner (laid : Laid m d nodes) {j b : Nat} {other : Node} (here : nodes[i]? = some node)
    (there : nodes[j]? = some other) (mine : b ∈ node.owned) (also : b ∈ other.owned) : i = j := by
  have pairs := List.pairwise_iff_getElem.mp (List.nodup_flatMap.mp laid.distinct).2
  obtain ⟨first,here⟩ := List.getElem?_eq_some_iff.mp here
  obtain ⟨second,there⟩ := List.getElem?_eq_some_iff.mp there
  rcases Nat.lt_trichotomy i j with less | same | more
  · exact absurd (there ▸ also) (pairs i j first second less (here ▸ mine))
  · exact same
  · exact absurd (here ▸ mine) (pairs j i second first more (there ▸ also))

theorem Laid.nodup (laid : Laid m d nodes) (here : nodes[i]? = some node) : node.owned.Nodup :=
  (List.nodup_flatMap.mp laid.distinct).1 node (List.mem_of_getElem? here)

theorem Laid.mem (here : nodes[i]? = some node) {b : Nat} (mine : b ∈ node.owned) : b ∈ nodes.flatMap Node.owned :=
  List.mem_flatMap.mpr ⟨node,List.mem_of_getElem? here,mine⟩

/-- One inode changes, and takes over the blocks in `more` from the free ones. -/
theorem Laid.change (laid : Laid m d nodes) {din : Dinode} (more : List Nat) (here : nodes[i]? = some node)
    (holds : Holds m'.disk din node') (grown : node'.owned.Perm (node.owned ++ more))
    (next : more = List.range' m.freeblock.toNat more.length)
    (free : m'.freeblock.toNat = m.freeblock.toNat + more.length) (blocks : m'.blocks = fssize)
    (others : ∀ b, b < m.freeblock.toNat → b ∉ node.owned → nmeta ≤ b → m'.disk b = m.disk b)
    (zero : ∀ b, m'.freeblock.toNat ≤ b → m'.disk b = m.disk b) :
    Laid m' (update d (i + 1) din) (nodes.set i node') := by
  have perm := owned_set here grown
  have fresh : ∀ b ∈ more, m.freeblock.toNat ≤ b ∧ b < m'.freeblock.toNat := by
    intro b inside
    rw [next,List.mem_range'_1] at inside
    omega
  refine ⟨blocks,fun j other there => ?_,fun b inside => ?_,?_,fun b inside => ?_,fun b above => ?_,?_⟩
  · by_cases isMe : j = i
    · grind [update_apply]
    · rw [List.getElem?_set_ne (Ne.symm isMe)] at there
      rw [update_of_ne (by omega)]
      refine (laid.holds j other there).frame fun b mine => ?_
      have inside := Laid.mem there mine
      exact others b (laid.below b inside) (fun also => isMe (laid.one_owner there here mine also)) (laid.range b inside)
  · grind [Dinode,Holds,Laid,fresh,update_apply]
  · refine perm.nodup_iff.mpr (List.Nodup.append laid.distinct ?_ fun b old new => ?_)
    · rw [next]
      exact List.nodup_range'
    · have above := (fresh b new).1
      have below := laid.below b old
      omega
  · grind [laid.below,fresh]
  · rw [zero b above]
    exact laid.zero b (by omega)
  · rw [perm.length_eq,List.length_append,free,laid.count]
    omega

/-! Addresses. -/

theorem sector_of_lt {b : BitVec 32} (small : b.toNat < 2 ^ 22) : sector b = b.toNat := by
  unfold sector bsize
  rw [BitVec.toNat_mul,BitVec.toNat_ofNat,Nat.mod_eq_of_lt (by omega)]
  omega

theorem rsect_eq {b : BitVec 32} (blocks : m.blocks = fssize) (small : b.toNat < 2 ^ 22) :
    m.rsect b = if b.toNat < fssize then .ok (m.disk b.toNat) else .error .read := by
  rw [rsect,sector_of_lt small,blocks]

@[simp] theorem fresh_fst (m : Image) : m.fresh.1 = m.freeblock := rfl

@[simp] theorem fresh_disk (m : Image) : m.fresh.2.disk = m.disk := rfl

theorem setAddr_addrs (din : Dinode) (j k : AddrId) (b : BitVec 32) :
    (setAddr din j b).addrs k = if k = j then b else din.addrs k := by
  simp [setAddr,update_apply]

theorem fresh_toNat (small : m.freeblock.toNat < 2 ^ 22) : m.fresh.2.freeblock.toNat = m.freeblock.toNat + 1 := by
  change (m.freeblock + 1).toNat = _
  rw [BitVec.toNat_add,Nat.mod_eq_of_lt]
  · rfl
  · have one : (1 : BitVec 32).toNat = 1 := rfl
    omega

theorem Holds.grow {disk disk' : Disk} {din din' : Dinode} {b : Nat} (holds : Holds disk din node)
    (attr : din'.attr = din.attr) (ind : din'.addrs indirectId = din.addrs indirectId) (room : node.data.length < maxfile)
    (addr : ∀ k < maxfile, (blockAt disk' din' k).toNat = if k = node.data.length then b else (blockAt disk din k).toNat)
    (split : node.ind = 0 → node.data.length < ndirect) (zero : disk' b = fun _ => 0)
    (same : ∀ (k : Nat) b', node.data[k]? = some b' → disk' b' = disk b') :
    Holds disk' din' { node with data := node.data ++ [b] } := by
  refine ⟨attr.trans holds.attr,?_,?_,fun k inside => ?_,?_,fun none => ?_,fun k b' here j small => ?_⟩
  · have fits := holds.room
    simp only [List.length_append,List.length_singleton]
    rw [Nat.add_mul]
    omega
  · simpa using room
  · grind [holds.addr,addr]
  · rw [ind]
    exact holds.ind
  · simpa using split none
  · rcases Nat.lt_or_ge k node.data.length with old | above
    · rw [List.getElem?_append_left old] at here
      rw [same k b' here]
      exact holds.bytes k b' here j small
    · grind [holds.room]

structure Grows (m m' : Image) : Prop where
  inodes : ∀ b < nmeta, m'.disk b = m.disk b
  freeinode : m'.freeinode = m.freeinode
  freeblock : m.freeblock.toNat ≤ m'.freeblock.toNat
  trace : ∃ more, m'.trace = m.trace ++ more ∧ ∀ e ∈ more, ∃ b, e = .addr b ∧ b < m'.freeblock.toNat

theorem Grows.refl (m : Image) : Grows m m := ⟨fun _ _ => rfl,rfl,Nat.le_refl _,[],by simp⟩

theorem Grows.trans {m'' : Image} (first : Grows m m') (second : Grows m' m'') : Grows m m'' := by
  obtain ⟨more,traced,all⟩ := first.trace
  obtain ⟨more',traced',all'⟩ := second.trace
  refine ⟨fun b meta_ => (second.inodes b meta_).trans (first.inodes b meta_),second.freeinode.trans first.freeinode,
    first.freeblock.trans second.freeblock,more ++ more',by rw [traced',traced,List.append_assoc],fun e inside => ?_⟩
  rcases List.mem_append.mp inside with old | new
  · obtain ⟨b,isAddr,below⟩ := all e old
    exact ⟨b,isAddr,Nat.lt_of_lt_of_le below second.freeblock⟩
  · exact all' e new

theorem grows_fresh (small : m.freeblock.toNat < 2 ^ 22) : Grows m m.fresh.2 := by
  have next := fresh_toNat small
  refine ⟨fun _ _ => rfl,rfl,by omega,[.addr m.freeblock.toNat],rfl,fun e inside => ?_⟩
  rw [List.mem_singleton.mp inside]
  exact ⟨_,rfl,by omega⟩

theorem grows_wsect {b : BitVec 32} (small : b.toNat < 2 ^ 22) (data : nmeta ≤ b.toNat) (buf : Block) :
    Grows m (m.wsect b buf) := by
  refine ⟨fun b' meta_ => ?_,rfl,Nat.le_refl _,[],by simp [wsect]⟩
  rw [wsect,sector_of_lt small]
  exact update_of_ne (by omega) _ _

theorem Laid.nmeta_le (laid : Laid m d nodes) : nmeta ≤ m.freeblock.toNat := by
  rw [laid.count]
  exact Nat.le_add_right _ _

theorem blockAt_setAddr (disk : Disk) (din : Dinode) {j : AddrId} (direct : j.val < ndirect) (b : BitVec 32) (k : Nat) :
    blockAt disk (setAddr din j b) k = if k = j.val then b else blockAt disk din k := by
  have other : indirectId ≠ j := by
    intro same
    have equal := congrArg Fin.val same
    change ndirect = j.val at equal
    omega
  unfold blockAt
  by_cases low : k < ndirect
  · simp only [dif_pos low,setAddr_addrs,Fin.ext_iff]
  · have past : k ≠ j.val := by omega
    rw [dif_neg low,dif_neg low,setAddr_addrs,if_neg other,if_neg past]

theorem owned_grow (node : Node) (b : Nat) : ({ node with data := node.data ++ [b] } : Node).owned.Perm (node.owned ++ [b]) := by
  refine List.perm_iff_count.mpr fun b' => ?_
  simp only [Node.owned,List.count_append]
  omega

theorem needAddr_direct (laid : Laid m d nodes) (here : nodes[i]? = some node) (small : m.freeblock.toNat < 2 ^ 22)
    (direct : node.data.length < ndirect) :
    ∃ din, m.needAddr (d (i + 1)) ⟨node.data.length,by omega⟩ = (din,m.fresh.2) ∧
      din.addrs ⟨node.data.length,by omega⟩ = m.freeblock ∧
      Laid m.fresh.2 (update d (i + 1) din) (nodes.set i { node with data := node.data ++ [m.freeblock.toNat] }) := by
  have holds := laid.holds i node here
  have none : (d (i + 1)).addrs ⟨node.data.length,by omega⟩ = 0 := by
    have zero := holds.addr node.data.length (by unfold maxfile; omega)
    rw [blockAt,dif_pos direct,List.getD_eq_getElem?_getD,List.getElem?_eq_none (Nat.le_refl _)] at zero
    exact BitVec.eq_of_toNat_eq zero
  have next := fresh_toNat small
  refine ⟨_,if_pos none,update_self ..,laid.change [m.freeblock.toNat] here ?_ ?_ rfl next laid.blocks
    (fun _ _ _ _ => rfl) fun _ _ => rfl⟩
  · refine holds.grow rfl ?_ (by unfold maxfile; omega) (fun k inside => ?_) (fun _ => direct) (laid.zero _ (Nat.le_refl _))
      fun _ _ _ => rfl
    · refine update_of_ne ?_ _ _
      intro same
      have equal := congrArg Fin.val same
      change ndirect = node.data.length at equal
      omega
    · rw [blockAt_setAddr _ _ direct]
      split_ifs <;> rfl
  · exact owned_grow node _

theorem needAddr_indirect (laid : Laid m d nodes) (here : nodes[i]? = some node) (small : m.freeblock.toNat < 2 ^ 22)
    (none : node.ind = 0) :
    ∃ din, m.needAddr (d (i + 1)) indirectId = (din,m.fresh.2) ∧ din.addrs indirectId = m.freeblock ∧
      Laid m.fresh.2 (update d (i + 1) din) (nodes.set i { node with ind := m.freeblock.toNat }) := by
  have holds := laid.holds i node here
  have zero : (d (i + 1)).addrs indirectId = 0 := BitVec.eq_of_toNat_eq (holds.ind.trans none)
  have next := fresh_toNat small
  have some : m.freeblock.toNat ≠ 0 := by
    have low := laid.nmeta_le
    have large : 0 < nmeta := by decide
    omega
  have own : (setAddr (d (i + 1)) indirectId m.fresh.1).addrs indirectId = m.freeblock := by
    rw [setAddr_addrs,if_pos rfl,fresh_fst]
  refine ⟨_,if_pos zero,own,laid.change [m.freeblock.toNat] here ?_ ?_ rfl next laid.blocks (fun _ _ _ _ => rfl) fun _ _ => rfl⟩
  · refine ⟨holds.attr,holds.room,holds.short,fun k inside => ?_,congrArg BitVec.toNat own,fun absent => absurd absent some,holds.bytes⟩
    rw [← holds.addr k inside]
    unfold blockAt
    by_cases low : k < ndirect
    · have other : (⟨k,by omega⟩ : AddrId) ≠ indirectId := by
        intro same
        have equal := congrArg Fin.val same
        change k = ndirect at equal
        omega
      rw [dif_pos low,dif_pos low,setAddr_addrs,if_neg other]
    · have nonzero : m.freeblock ≠ 0 := fun absent => some (congrArg BitVec.toNat absent)
      have empty := laid.zero m.freeblock.toNat (Nat.le_refl _)
      rw [dif_neg low,dif_neg low,own,if_neg nonzero,if_pos zero]
      rw [fresh_disk,empty,get32_zero]
  · simp [Node.owned,none,some]

theorem Laid.ind_apart (laid : Laid m d nodes) (here : nodes[i]? = some node) (some : node.ind ≠ 0) : node.ind ∉ node.data := by
  have once := laid.nodup here
  rw [Node.owned,if_neg some] at once
  exact fun mine => (List.nodup_append.mp once).2.2 node.ind mine node.ind (.head _) rfl

theorem needEntry_new (laid : Laid m d nodes) (here : nodes[i]? = some node) (small : m.freeblock.toNat < 2 ^ 22)
    (some : node.ind ≠ 0) (indirect : ndirect ≤ node.data.length) (room : node.data.length < maxfile)
    (inside : node.ind < fssize) :
    ∃ m', m.needEntry ((d (i + 1)).addrs indirectId) (node.data.length - ndirect) = .ok (m.freeblock,m') ∧ Grows m m' ∧
      m'.freeblock.toNat = m.freeblock.toNat + 1 ∧
      Laid m' d (nodes.set i { node with data := node.data ++ [m.freeblock.toNat] }) := by
  have holds := laid.holds i node here
  have next := fresh_toNat small
  have low := laid.range node.ind (Laid.mem here (mem_owned_of_ind some))
  have below := laid.below node.ind (Laid.mem here (mem_owned_of_ind some))
  have nonzero : (d (i + 1)).addrs indirectId ≠ 0 := by
    intro absent
    rw [← holds.ind,absent] at some
    exact some rfl
  have read : m.rsect ((d (i + 1)).addrs indirectId) = .ok (m.disk node.ind) := by
    rw [rsect_eq laid.blocks (by rw [holds.ind]; omega),holds.ind,if_pos inside]
  have none : get32 (m.disk node.ind) (node.data.length - ndirect) = 0 := by
    have zero := holds.addr node.data.length room
    rw [blockAt,dif_neg (by omega),if_neg nonzero,List.getD_eq_getElem?_getD,List.getElem?_eq_none (Nat.le_refl _),holds.ind] at zero
    exact BitVec.eq_of_toNat_eq zero
  refine ⟨m.fresh.2.wsect ((d (i + 1)).addrs indirectId) (set32 (m.disk node.ind) (node.data.length - ndirect) m.freeblock),
    ?_,?_,next,?_⟩
  · simp [needEntry,read,none,bind,Except.bind,pure,Except.pure]
  · exact (grows_fresh small).trans (grows_wsect (by rw [holds.ind]; omega) (by rw [holds.ind]; exact low) _)
  · have ind : sector ((d (i + 1)).addrs indirectId) = node.ind := by
      rw [sector_of_lt (by rw [holds.ind]; omega),holds.ind]
    have disk : ∀ b, (m.fresh.2.wsect ((d (i + 1)).addrs indirectId)
        (set32 (m.disk node.ind) (node.data.length - ndirect) m.freeblock)).disk b =
        if b = node.ind then set32 (m.disk node.ind) (node.data.length - ndirect) m.freeblock else m.disk b := by
      intro b
      rw [wsect,ind,fresh_disk]
      exact update_apply ..
    have blocks : (m.fresh.2.wsect ((d (i + 1)).addrs indirectId)
        (set32 (m.disk node.ind) (node.data.length - ndirect) m.freeblock)).blocks = fssize := by
      change max m.blocks (sector _ + 1) = fssize
      rw [ind,laid.blocks]
      omega
    have free : (m.fresh.2.wsect ((d (i + 1)).addrs indirectId)
        (set32 (m.disk node.ind) (node.data.length - ndirect) m.freeblock)).freeblock.toNat = m.freeblock.toNat + 1 := next
    generalize m.fresh.2.wsect _ _ = m' at disk blocks free ⊢
    suffices changed : Laid m' (update d (i + 1) (d (i + 1)))
        (nodes.set i { node with data := node.data ++ [m.freeblock.toNat] }) by
      rwa [update_eq_self] at changed
    refine laid.change [m.freeblock.toNat] here
      (holds.grow (b := m.freeblock.toNat) rfl rfl room (fun k inside => ?_) (fun absent => absurd absent some) ?_ ?_)
      (owned_grow node _) rfl free blocks (fun b _ foreign _ => ?_) (fun b above => ?_)
    · grind [holds.ind,blockAt,get32_set32_same,get32_set32_ne]
    · rw [disk,if_neg (by omega)]
      exact laid.zero _ (Nat.le_refl _)
    · intro k b' there
      rw [disk,if_neg]
      intro isMe
      exact laid.ind_apart here some (isMe ▸ List.mem_of_getElem? there)
    · rw [disk,if_neg]
      rintro rfl
      exact foreign (mem_owned_of_ind some)
    · rw [disk,if_neg (by omega)]

/-- A run that ends in `post`, or stops because of `full`. -/
def Ends {α : Type} (result : Except Die α) (full : Prop) (post : α → Prop) : Prop :=
  match result with
  | .ok value => post value
  | .error _ => full

theorem Ends.bind {α β : Type} {result : Except Die α} {next : α → Except Die β} {full : Prop} {middle : α → Prop}
    {post : β → Prop} (first : Ends result full middle) (rest : ∀ value, middle value → Ends (next value) full post) :
    Ends (result >>= next) full post := by
  cases result with
  | ok value => exact rest value first
  | error e => exact first

theorem Ends.mono {α : Type} {result : Except Die α} {full fuller : Prop} {post weaker : α → Prop}
    (ends : Ends result full post) (more : full → fuller) (imp : ∀ value, post value → weaker value) :
    Ends result fuller weaker := by
  cases result with
  | ok value => exact imp value ends
  | error e => exact more ends

theorem Ends.ite {α : Type} {test full : Prop} [Decidable test] {first second : Except Die α} {post : α → Prop}
    (yes : test → Ends first full post) (no : ¬test → Ends second full post) :
    Ends (if test then first else second) full post := by
  split_ifs with holds
  · exact yes holds
  · exact no holds

structure Addressed (m : Image) (d : Nat → Dinode) (nodes : List Node) (i fbn : Nat) (node : Node)
    (result : BitVec 32 × Dinode × Image) : Prop where
  grows : Grows m result.2.2
  laid : ∃ node', node'.content = node.content ∧ node'.type = node.type ∧ node'.data[fbn]? = some result.1.toNat ∧
    node'.data.length = max node.data.length (fbn + 1) ∧
    (node'.data.length ≤ ndirect → node'.ind = node.ind) ∧
    Laid result.2.2 (update d (i + 1) result.2.1) (nodes.set i node')
  last : fssize < result.2.2.freeblock.toNat → fssize ≤ result.1.toNat

theorem getElem?_of_getD {l : List Nat} {k b : Nat} (value : l.getD k 0 = b) (some : k < l.length) : l[k]? = Option.some b := by
  rw [List.getElem?_eq_getElem some,← value,List.getD_eq_getElem?_getD,List.getElem?_eq_getElem some]
  rfl

theorem iaddr_old (laid : Laid m d nodes) (here : nodes[i]? = some node) (full : m.freeblock.toNat ≤ fssize) {fbn : Nat}
    (old : fbn < node.data.length) : ∃ x, m.iaddr (d (i + 1)) fbn = .ok (x,d (i + 1),m) ∧ node.data[fbn]? = some x.toNat := by
  have holds := laid.holds i node here
  have inside : fbn < maxfile := Nat.lt_of_lt_of_le old holds.short
  have there := getElem?_of_getD (holds.addr fbn inside).symm old
  have low := laid.range _ (Laid.mem here (mem_owned_of_data there))
  have nonzero : blockAt m.disk (d (i + 1)) fbn ≠ 0 := by
    intro none
    rw [none] at low
    exact absurd low (by decide)
  refine ⟨blockAt m.disk (d (i + 1)) fbn,?_,there⟩
  unfold iaddr
  split_ifs with direct
  · rw [blockAt,dif_pos direct] at nonzero ⊢
    have same : m.needAddr (d (i + 1)) ⟨fbn,by omega⟩ = (d (i + 1),m) := if_neg nonzero
    rw [same]
    rfl
  · have some : node.ind ≠ 0 := fun none => by
      have few := holds.split none
      omega
    have known : (d (i + 1)).addrs indirectId ≠ 0 := by
      intro absent
      rw [← holds.ind,absent] at some
      exact some rfl
    have below := laid.below node.ind (Laid.mem here (mem_owned_of_ind some))
    have small : fssize < 2 ^ 22 := by decide
    rw [blockAt,dif_neg direct,if_neg known,holds.ind] at nonzero ⊢
    have read : m.rsect ((d (i + 1)).addrs indirectId) = .ok (m.disk node.ind) := by
      rw [rsect_eq laid.blocks (by rw [holds.ind]; omega),holds.ind,if_pos (by omega)]
    have same : m.needAddr (d (i + 1)) indirectId = (d (i + 1),m) := if_neg known
    have entry : m.needEntry ((d (i + 1)).addrs indirectId) (fbn - ndirect) = .ok (get32 (m.disk node.ind) (fbn - ndirect),m) := by
      simp only [needEntry,read,bind,Except.bind,if_neg nonzero]
      rfl
    simp only [same,entry]
    rfl

theorem iaddr_new (laid : Laid m d nodes) (here : nodes[i]? = some node) (full : m.freeblock.toNat ≤ fssize)
    (room : node.data.length < maxfile) :
    Ends (m.iaddr (d (i + 1)) node.data.length)
      (fssize < m.freeblock.toNat + 1 ∧ node.ind = 0 ∧ ndirect ≤ node.data.length)
      (Addressed m d nodes i node.data.length node) := by
  have small : fssize < 2 ^ 21 := by decide
  have next := fresh_toNat (m := m) (by omega)
  unfold iaddr
  split_ifs with direct
  · obtain ⟨din,made,addr,after⟩ := needAddr_direct laid here (by omega) direct
    simp only [made,addr]
    refine ⟨grows_fresh (by omega),⟨{ node with data := node.data ++ [m.freeblock.toNat] },rfl,rfl,?_,?_,fun _ => rfl,after⟩,fun large => ?_⟩
    · exact List.getElem?_concat_length
    · simp
    · change fssize < m.fresh.2.freeblock.toNat at large
      change fssize ≤ m.freeblock.toNat
      omega
  · have indirect : ndirect ≤ node.data.length := by omega
    by_cases none : node.ind = 0
    · obtain ⟨din,made,addr,after⟩ := needAddr_indirect laid here (by omega) none
      simp only [made]
      by_cases inside : m.freeblock.toNat < fssize
      · have own : (update d (i + 1) din) (i + 1) = din := update_self ..
        have listed : i < nodes.length := (List.getElem?_eq_some_iff.mp here).1
        have some : m.freeblock.toNat ≠ 0 := by
          have low := laid.nmeta_le
          have large : 0 < nmeta := by decide
          omega
        obtain ⟨m',ran,grows,free,again⟩ := needEntry_new after (List.getElem?_set_self listed) (by omega) some indirect room inside
        rw [own] at ran
        simp only [ran]
        rw [List.set_set] at again
        refine ⟨(grows_fresh (by omega)).trans grows,
          ⟨{ node with data := node.data ++ [m.fresh.2.freeblock.toNat], ind := m.freeblock.toNat },rfl,rfl,?_,?_,
            fun few => ?_,again⟩,fun large => ?_⟩
        · exact List.getElem?_concat_length
        · simp
        · simp only [List.length_append,List.length_singleton] at few
          omega
        · change fssize < m'.freeblock.toNat at large
          change fssize ≤ m.fresh.2.freeblock.toNat
          omega
      · have failed : m.fresh.2.rsect (din.addrs indirectId) = .error .read := by
          rw [addr,rsect_eq (m := m.fresh.2) laid.blocks (by omega),if_neg inside]
        simp only [needEntry,failed,bind,Except.bind]
        exact ⟨by omega,none,indirect⟩
    · have holds := laid.holds i node here
      have known : (d (i + 1)).addrs indirectId ≠ 0 := by
        intro absent
        rw [← holds.ind,absent] at none
        exact none rfl
      have same : m.needAddr (d (i + 1)) indirectId = (d (i + 1),m) := if_neg known
      have below := laid.below node.ind (Laid.mem here (mem_owned_of_ind none))
      obtain ⟨m',ran,grows,free,again⟩ := needEntry_new laid here (by omega) none indirect room (by omega)
      simp only [same,ran]
      refine ⟨grows,⟨{ node with data := node.data ++ [m.freeblock.toNat] },rfl,rfl,?_,?_,fun _ => rfl,?_⟩,fun large => ?_⟩
      · exact List.getElem?_concat_length
      · simp
      · rw [update_eq_self]
        exact again
      · change fssize < m'.freeblock.toNat at large
        change fssize ≤ m.freeblock.toNat
        omega

theorem getD_append (l more : List Byte) (n : Nat) :
    (l ++ more).getD n 0 = if n < l.length then l.getD n 0 else more.getD (n - l.length) 0 := by
  simp only [List.getD_eq_getElem?_getD,List.getElem?_append]
  split_ifs <;> rfl

theorem getD_past {l : List Byte} {n : Nat} (past : l.length ≤ n) : l.getD n 0 = 0 := by
  rw [List.getD_eq_getElem?_getD,List.getElem?_eq_none past]
  rfl

/-- Bytes that are written behind the contents, into a block of the node, are
appended to the contents. -/
theorem Laid.write (laid : Laid m d nodes) (here : nodes[i]? = some node) (bytes : List Byte)
    {x : BitVec 32} {k pos : Nat} (there : node.data[k]? = some x.toNat) (inside : x.toNat < fssize) (at_ : node.content.length = k * bsize + pos)
    (fits : pos + bytes.length ≤ bsize) :
    Laid (m.wsect x (copyAt (m.disk x.toNat) pos bytes)) d (nodes.set i { node with content := node.content ++ bytes }) := by
  have holds := laid.holds i node here
  have mine := mem_owned_of_data there
  have below := laid.below _ (Laid.mem here mine)
  have small : fssize < 2 ^ 22 := by decide
  have sec : sector x = x.toNat := sector_of_lt (by omega)
  have blocks : (m.wsect x (copyAt (m.disk x.toNat) pos bytes)).blocks = fssize := by
    change max m.blocks (sector x + 1) = fssize
    rw [sec,laid.blocks]
    omega
  have disk : ∀ b, (m.wsect x (copyAt (m.disk x.toNat) pos bytes)).disk b =
      if b = x.toNat then copyAt (m.disk x.toNat) pos bytes else m.disk b := by
    intro b
    rw [wsect,sec]
    exact update_apply ..
  have free : (m.wsect x (copyAt (m.disk x.toNat) pos bytes)).freeblock = m.freeblock := rfl
  generalize m.wsect x _ = m' at disk blocks free ⊢
  have last : k < node.data.length := (List.getElem?_eq_some_iff.mp there).1
  have data_nodup : node.data.Nodup := (List.nodup_append.mp (laid.nodup here)).1
  suffices changed : Laid m' (update d (i + 1) (d (i + 1))) (nodes.set i { node with content := node.content ++ bytes }) by
    rwa [update_eq_self] at changed
  refine laid.change [] here ⟨holds.attr,?_,holds.short,?_,holds.ind,holds.split,?_⟩ (by simp [Node.owned]) rfl
    (by rw [free]; rfl) blocks (fun b _ foreign _ => ?_) (fun b above => ?_)
  · have more : (k + 1) * bsize ≤ node.data.length * bsize := Nat.mul_le_mul_right _ last
    rw [Nat.add_mul] at more
    simp only [List.length_append]
    omega
  · intro k' short
    rw [← holds.addr k' short,blockAt_congr fun some => ?_]
    rw [disk,if_neg]
    rw [holds.ind]
    intro same
    have nonzero : node.ind ≠ 0 := by
      intro none
      exact some (BitVec.eq_of_toNat_eq (holds.ind.trans none))
    exact laid.ind_apart here nonzero (same ▸ List.mem_of_getElem? there)
  · intro k' b at' j small
    have old := holds.bytes k' b at' j small
    change m'.disk b j = (node.content ++ bytes).getD (k' * bsize + j) 0
    rw [disk,getD_append,at_]
    by_cases same : k' = k
    · grind [Laid,copyAt,bsize,update_apply]
    · have other : b ≠ x.toNat := by
        rintro rfl
        exact same ((List.getElem?_inj (List.getElem?_eq_some_iff.mp at').1 data_nodup).mp (at'.trans there.symm))
      rw [if_neg other,old]
      rcases Nat.lt_or_gt_of_ne same with before | after
      · have less : (k' + 1) * bsize ≤ k * bsize := Nat.mul_le_mul_right _ before
        rw [Nat.add_mul] at less
        rw [if_pos (by omega)]
      · have more : (k + 1) * bsize ≤ k' * bsize := Nat.mul_le_mul_right _ after
        rw [Nat.add_mul] at more
        rw [if_neg (by omega),getD_past (by omega),getD_past (by omega)]
  · rw [disk,if_neg]
    rintro rfl
    exact foreign mine
  · rw [disk,if_neg]
    rw [free] at above
    omega

/-! iappend. -/

def blocksFor (n : Nat) : Nat := n + if ndirect < n then 1 else 0

def dataBlocks (length : Nat) : Nat := (length + bsize - 1) / bsize

theorem blocksFor_mono {n k : Nat} (le : n ≤ k) : blocksFor n ≤ blocksFor k := by
  unfold blocksFor
  split_ifs <;> omega

theorem dataBlocks_mono {n k : Nat} (le : n ≤ k) : dataBlocks n ≤ dataBlocks k :=
  Nat.div_le_div_right (by omega)

theorem dataBlocks_le (n : Nat) : n / bsize ≤ dataBlocks n ∧ dataBlocks n ≤ n / bsize + 1 := by
  unfold dataBlocks bsize
  omega

theorem dataBlocks_of_lt {n k : Nat} (low : k * bsize < n) (high : n ≤ (k + 1) * bsize) : dataBlocks n = k + 1 := by
  unfold dataBlocks bsize at *
  omega

structure Exact (node : Node) : Prop where
  data : node.data.length = dataBlocks node.content.length
  ind : node.ind ≠ 0 → ndirect < node.data.length

theorem owned_length (split : node.ind = 0 → node.data.length ≤ ndirect) (ind : node.ind ≠ 0 → ndirect < node.data.length) :
    node.owned.length = blocksFor node.data.length := by
  unfold Node.owned blocksFor
  by_cases none : node.ind = 0
  · rw [if_pos none,if_neg (by have few := split none; omega)]
    simp
  · rw [if_neg none,if_pos (ind none)]
    simp

theorem length_owned_set (here : nodes[i]? = some node) (node' : Node) :
    ((nodes.set i node').flatMap Node.owned).length + node.owned.length =
      (nodes.flatMap Node.owned).length + node'.owned.length := by
  obtain ⟨whole,changed⟩ := split_at here
  rw [changed]
  conv_rhs => rw [whole]
  simp only [List.flatMap_append,List.flatMap_cons,List.length_append]
  omega

theorem Laid.freeblock_set {d' : Nat → Dinode} (before : Laid m d nodes) (here : nodes[i]? = some node)
    (after : Laid m' d' (nodes.set i node')) :
    m'.freeblock.toNat + node.owned.length = m.freeblock.toNat + node'.owned.length := by
  have counts := length_owned_set here node'
  have first := before.count
  have second := after.count
  omega

theorem iaddr_next (laid : Laid m d nodes) (here : nodes[i]? = some node) (exact_ : Exact node) (full : m.freeblock.toNat ≤ fssize)
    (room : node.content.length / bsize < maxfile) :
    Ends (m.iaddr (d (i + 1)) (node.content.length / bsize))
      (fssize < m.freeblock.toNat + 1 ∧ node.data.length = node.content.length / bsize)
      (Addressed m d nodes i (node.content.length / bsize) node) := by
  have data := exact_.data
  have bounds := dataBlocks_le node.content.length
  by_cases old : node.content.length / bsize < node.data.length
  · obtain ⟨x,ran,there⟩ := iaddr_old laid here full old
    rw [ran]
    refine ⟨.refl m,⟨node,rfl,rfl,there,by omega,fun _ => rfl,?_⟩,fun large => ?_⟩
    · rw [update_eq_self,set_same here]
      exact laid
    · exact absurd large (by simpa using full)
  · have new : node.content.length / bsize = node.data.length := by omega
    rw [new] at room ⊢
    exact (iaddr_new laid here full room).mono (fun failed => ⟨failed.1,rfl⟩) fun _ done => done

def TooLarge (m : Image) (node : Node) (more : Nat) : Prop :=
  maxfile * bsize < node.content.length + more ∨
    fssize < m.freeblock.toNat + blocksFor (dataBlocks (node.content.length + more)) - node.owned.length

structure Appended (m : Image) (d : Nat → Dinode) (nodes : List Node) (i : Nat) (node : Node) (p : List Byte)
    (result : Image × Dinode × Nat) : Prop where
  grows : Grows m result.1
  off : result.2.2 = node.content.length + p.length
  full : result.1.freeblock.toNat ≤ fssize
  laid : ∃ node', node'.content = node.content ++ p ∧ node'.type = node.type ∧ Exact node' ∧
    Laid result.1 (update d (i + 1) result.2.1) (nodes.set i node')

theorem iappendFrom_ends (turns : Nat) (laid : Laid m d nodes) (here : nodes[i]? = some node) (exact_ : Exact node)
    (full : m.freeblock.toNat ≤ fssize) {p : List Byte} (enough : p.length ≤ turns) :
    Ends (iappendFrom turns m (d (i + 1)) node.content.length p) (TooLarge m node p.length) (Appended m d nodes i node p) := by
  induction turns generalizing m d nodes node p with
  | zero =>
    have empty : p = [] := List.length_eq_zero_iff.mp (by omega)
    subst empty
    refine ⟨.refl m,rfl,full,node,by simp,rfl,exact_,?_⟩
    rw [update_eq_self,set_same here]
    exact laid
  | succ turns ih =>
    unfold iappendFrom
    split_ifs with empty long
    · subst empty
      refine ⟨.refl m,rfl,full,node,by simp,rfl,exact_,?_⟩
      rw [update_eq_self,set_same here]
      exact laid
    · have some := List.length_pos_iff.mpr empty
      have large : maxfile * bsize ≤ node.content.length := (Nat.le_div_iff_mul_le (by decide)).mp long
      exact .inl (by omega)
    · have some := List.length_pos_iff.mpr empty
      have holds := laid.holds i node here
      have bounds := dataBlocks_le node.content.length
      have data := exact_.data
      have owned := owned_length holds.split exact_.ind
      have small : fssize < 2 ^ 21 := by decide
      generalize fbnIs : node.content.length / bsize = fbn at *
      have low : fbn * bsize ≤ node.content.length := by
        rw [← fbnIs]
        exact Nat.div_mul_le_self _ _
      have high : node.content.length < (fbn + 1) * bsize := by
        rw [← fbnIs]
        exact Nat.lt_mul_of_div_lt (Nat.lt_succ_self _) (by decide)
      have wide : (fbn + 1) * bsize = fbn * bsize + bsize := by rw [Nat.add_mul,Nat.one_mul]
      -- whatever this turn allocates is part of what the whole append needs
      have target : fbn + 1 ≤ dataBlocks (node.content.length + p.length) := by
        have one : dataBlocks (fbn * bsize + 1) = fbn + 1 := dataBlocks_of_lt (by omega) (by omega)
        have more := dataBlocks_mono (n := fbn * bsize + 1) (k := node.content.length + p.length) (by omega)
        omega
      have total := blocksFor_mono target
      have addressed := iaddr_next laid here exact_ full (by omega)
      rw [fbnIs] at addressed
      have first : Ends (m.iaddr (d (i + 1)) fbn) (TooLarge m node p.length) (Addressed m d nodes i fbn node) := by
        refine addressed.mono (fun failed => .inr ?_) fun _ done => done
        have grows : blocksFor fbn < blocksFor (fbn + 1) := by
          unfold blocksFor
          split_ifs <;> omega
        rw [owned,failed.2]
        omega
      refine first.bind ?_
      rintro ⟨x,din,m1⟩ ⟨grows,⟨node1,content,type,there,length,ind,laid1⟩,last⟩
      dsimp only at grows there laid1 last ⊢
      have listed : i < nodes.length := (List.getElem?_eq_some_iff.mp here).1
      have here1 : (nodes.set i node1)[i]? = Option.some node1 := List.getElem?_set_self listed
      have holds1 := laid1.holds i node1 here1
      have length1 : node1.data.length = fbn + 1 := by omega
      have ind1 : node1.ind ≠ 0 → ndirect < node1.data.length := by
        intro nonzero
        by_contra few
        rw [ind (by omega)] at nonzero
        have enough := exact_.ind nonzero
        omega
      have owned1 := owned_length holds1.split ind1
      rw [length1] at owned1
      have free1 := laid.freeblock_set here laid1
      have below := laid1.below _ (Laid.mem here1 (mem_owned_of_data there))
      have least : node.owned.length ≤ blocksFor (fbn + 1) := by
        rw [owned]
        exact blocksFor_mono (by omega)
      have few : blocksFor (fbn + 1) ≤ maxfile + 1 := by
        unfold blocksFor
        split_ifs <;> omega
      have most : maxfile < 2 ^ 20 := by decide
      have read := rsect_eq (b := x) laid1.blocks (by omega)
      by_cases inside : x.toNat < fssize
      · rw [if_pos inside] at read
        simp only [read]
        have full1 : m1.freeblock.toNat ≤ fssize := by
          by_contra large
          have past := last (by omega)
          omega
        have at_ : node1.content.length = fbn * bsize + (node.content.length - fbn * bsize) := by
          rw [content]
          omega
        generalize n1Is : min p.length ((fbn + 1) * bsize - node.content.length) = n1
        have taken : (p.take n1).length = n1 := by
          rw [List.length_take]
          omega
        have laid2 := laid1.write here1 (p.take n1) there inside at_ (by omega)
        rw [List.set_set] at laid2
        have free2 : (m1.wsect x (copyAt (m1.disk x.toNat) (node.content.length - fbn * bsize) (p.take n1))).freeblock =
          m1.freeblock := rfl
        have grows2 := grows.trans (grows_wsect (m := m1) (b := x) (by omega) (laid1.range _ (Laid.mem here1 (mem_owned_of_data there)))
          (copyAt (m1.disk x.toNat) (node.content.length - fbn * bsize) (p.take n1)))
        change Ends (iappendFrom turns (m1.wsect x _) din _ _) _ _
        generalize m1.wsect x _ = m2 at laid2 free2 grows2 ⊢
        have here2 : (nodes.set i { node1 with content := node1.content ++ p.take n1 })[i]? =
          Option.some { node1 with content := node1.content ++ p.take n1 } := List.getElem?_set_self listed
        have length2 : (node1.content ++ p.take n1).length = node.content.length + n1 := by
          rw [List.length_append,taken,content]
        have exact2 : Exact { node1 with content := node1.content ++ p.take n1 } := by
          refine ⟨?_,ind1⟩
          change node1.data.length = dataBlocks (node1.content ++ p.take n1).length
          rw [length2,dataBlocks_of_lt (k := fbn) (by omega) (by omega)]
          exact length1
        have rest : (p.drop n1).length = p.length - n1 := List.length_drop
        have next := ih laid2 here2 exact2 (by rw [free2]; exact full1) (p := p.drop n1) (by omega)
        rw [update_self,length2] at next
        refine next.mono (fun failed => ?_) fun result done => ?_
        · -- the rest of the append fails for the same totals
          rcases failed with long | large
          · left
            rw [length2,rest] at long
            omega
          · right
            have same : (Node.owned { node1 with content := node1.content ++ p.take n1 }).length = blocksFor (fbn + 1) := owned1
            rw [same,length2,rest,free2] at large
            have sum : node.content.length + n1 + (p.length - n1) = node.content.length + p.length := by omega
            rw [sum] at large
            omega
        · obtain ⟨grows3,off3,full3,node3,content3,type3,exact3,laid3⟩ := done
          rw [length2,rest] at off3
          refine ⟨grows2.trans grows3,by omega,full3,node3,?_,type3.trans type,exact3,?_⟩
          · rw [content3,content,List.append_assoc,List.take_append_drop]
          · rwa [update_idem,List.set_set] at laid3
      · rw [if_neg inside] at read
        simp only [read]
        exact .inr (by omega)

end Xv6.Mkfs
