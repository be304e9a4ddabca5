import Xv6.Fs.Owners
import Xv6.Fs.Entries
import Xv6.Lib.Owned

/-! What a disk says: the contents of its inodes, the number of its free blocks
and which blocks each inode has. The dinodes are a parameter, since the one that
an operation works on is in memory and reaches the disk last. -/
namespace Xv6.Fs.Blocks
open Lib Lib.Bytes Function
open Log (Block Disk)

variable {sb : Superblock} {disk disk' : Disk} {data : Nat} {d d' : Nat → Dinode} {i j : Nat}

/-! References to blocks. -/

def entryOf (disk : Disk) (addr : BitVec 32) (e : Nat) : BitVec 32 := if addr = 0 then 0 else get32 (disk addr.toNat) e

theorem target_entry (disk : Disk) (din : Dinode) (e : Fin nindirect) :
    target disk din (.entry e) = entryOf disk (din.addrs indirectId) e := rfl

def dataRef (k : Nat) (short : k < maxfile) : Ref :=
  if direct : k < ndirect then .addr ⟨k,Nat.lt_succ_of_lt direct⟩ else .entry ⟨k - ndirect,by unfold maxfile at short; omega⟩

theorem target_dataRef (disk : Disk) (din : Dinode) {k : Nat} (short : k < maxfile) :
    target disk din (dataRef k short) = blockAt disk din k := by
  unfold dataRef blockAt
  split_ifs with direct none
  · rfl
  · exact if_pos none
  · exact if_neg none

theorem dataRef_ne_indirect {k : Nat} (short : k < maxfile) : dataRef k short ≠ .addr indirectId := by
  unfold dataRef
  split_ifs with direct
  · intro same
    have value := congrArg Fin.val (Ref.addr.inj same)
    change k = ndirect at value
    omega
  · rintro ⟨⟩

theorem dataRef_inj {k l : Nat} (short : k < maxfile) (short' : l < maxfile) (same : dataRef k short = dataRef l short') :
    k = l := by
  unfold dataRef at same
  split_ifs at same with direct direct' direct'
  · exact congrArg Fin.val (Ref.addr.inj same)
  · have value := congrArg Fin.val (Ref.entry.inj same)
    dsimp only at value
    omega

theorem ref_cases (ref : Ref) : ref = .addr indirectId ∨ ∃ k short, ref = dataRef k short := by
  cases ref with
  | addr k =>
    by_cases last : k = indirectId
    · exact .inl (by rw [last])
    · have direct : k.val < ndirect := by
        have bound := k.isLt
        have other : k.val ≠ ndirect := fun same => last (Fin.ext same)
        omega
      refine .inr ⟨k.val,by unfold maxfile; omega,?_⟩
      rw [dataRef,dif_pos direct]
  | entry j =>
    have bound := j.isLt
    refine .inr ⟨ndirect + j.val,by unfold maxfile; omega,?_⟩
    rw [dataRef,dif_neg (by omega)]
    exact congrArg Ref.entry (Fin.ext (Nat.add_sub_cancel_left ..).symm)

structure Allocated (sb : Superblock) (d : Nat → Dinode) (i : Nat) : Prop where
  known : Fs.State.known sb.ninodes.toNat i
  type : (d i).attr.type ≠ 0

instance : DecidablePred (Allocated sb d) := fun i =>
  decidable_of_iff (Fs.State.known sb.ninodes.toNat i ∧ (d i).attr.type ≠ 0)
    ⟨fun ⟨known,type⟩ => ⟨known,type⟩,fun ⟨known,type⟩ => ⟨known,type⟩⟩

def holding (sb : Superblock) (disk : Disk) (d : Nat → Dinode) (place : Nat × Ref) : Option Nat :=
  if Allocated sb d place.1 ∧ target disk (d place.1) place.2 ≠ 0 then some (target disk (d place.1) place.2).toNat else none

theorem holding_some {ref : Ref} {b : Nat} : holding sb disk d (i,ref) = some b ↔
    Allocated sb d i ∧ target disk (d i) ref ≠ 0 ∧ (target disk (d i) ref).toNat = b := by
  unfold holding
  split_ifs with there
  · exact ⟨fun same => ⟨there.1,there.2,Option.some.inj same⟩,fun ⟨_,_,same⟩ => congrArg some same⟩
  · exact ⟨nofun,fun ⟨alloc,nonzero,_⟩ => absurd ⟨alloc,nonzero⟩ there⟩

theorem holding_of (alloc : Allocated sb d i) {ref : Ref} (nonzero : target disk (d i) ref ≠ 0) :
    holding sb disk d (i,ref) = some (target disk (d i) ref).toNat := holding_some.mpr ⟨alloc,nonzero,rfl⟩

abbrev inUseOf (sb : Superblock) (disk : Disk) : Nat → Bool := inUse sb.bmapstart.toNat disk

theorem inUseOf_update (geometry : Geometry sb data) {b c : Nat} (small : b < sb.size.toNat) (high : data ≤ c) (block : Block) :
    inUseOf sb (update disk c block) b = inUseOf sb disk b := by
  have low := geometry.bitmap b small
  unfold inUseOf inUse
  rw [update_of_ne (by omega)]

/-- The blocks in use are those below `data` and those that an allocated inode
refers to, each once, and no inode has a hole. -/
structure Shape (sb : Superblock) (disk : Disk) (data : Nat) (d : Nat → Dinode) : Prop where
  geometry : Geometry sb data
  areas : ∀ b < data, inUseOf sb disk b = true
  owned : Owned data sb.size.toNat (inUseOf sb disk) (holding sb disk d)
  small : ∀ i, Allocated sb d i → (d i).size.toNat ≤ maxBytes
  mapped : ∀ i, Allocated sb d i → ∀ k, k * bsize < (d i).size.toNat → blockAt disk (d i) k ≠ 0

theorem shape_iff {s : State} : Shape s.sb s.disk data s.dinode ↔ Consistent s data ∧ HoleFree s := by
  have owns : ∀ i ref b, Owns s i ref b ↔ holding s.sb s.disk s.dinode (i,ref) = some b := by
    intro i ref b
    rw [holding_some]
    exact ⟨fun own => ⟨⟨⟨own.first,own.last⟩,own.allocated⟩,own.nonzero,own.block⟩,
      fun ⟨alloc,nonzero,block⟩ => ⟨alloc.known.1,alloc.known.2,alloc.type,nonzero,block⟩⟩
  constructor
  · intro shape
    refine ⟨⟨shape.geometry,shape.areas,fun b low high => ?_,fun i ref b own => ?_,fun i ref i' ref' b own own' => ?_⟩,
      ⟨fun i first last type => ?_,fun i first last type => ?_⟩⟩
    · rw [State.used,shape.owned.used low high]
      exact ⟨fun ⟨(i,ref),held⟩ => ⟨i,ref,(owns i ref b).mpr held⟩,fun ⟨i,ref,own⟩ => ⟨(i,ref),(owns i ref b).mp own⟩⟩
    · exact shape.owned.range ((owns i ref b).mp own)
    · exact Prod.ext_iff.mp (shape.owned.once ((owns i ref b).mp own) ((owns i' ref' b).mp own'))
    · exact shape.small i ⟨⟨first,last⟩,type⟩
    · exact shape.mapped i ⟨⟨first,last⟩,type⟩
  · rintro ⟨consistent,whole⟩
    refine ⟨consistent.geometry,consistent.areas,⟨fun {place b} held => ?_,fun {place place' b} held held' => ?_,
      fun {b} low high => ?_⟩,fun i alloc => ?_,fun i alloc => ?_⟩
    · exact consistent.range _ _ _ ((owns ..).mpr held)
    · exact Prod.ext_iff.mpr (consistent.once _ _ _ _ _ ((owns ..).mpr held) ((owns ..).mpr held'))
    · refine (consistent.blocks b low high).trans ?_
      exact ⟨fun ⟨i,ref,own⟩ => ⟨(i,ref),(owns i ref b).mp own⟩,fun ⟨(i,ref),held⟩ => ⟨i,ref,(owns i ref b).mpr held⟩⟩
    · exact whole.size i alloc.known.1 alloc.known.2 alloc.type
    · exact whole.mapped i alloc.known.1 alloc.known.2 alloc.type

/-! Contents. -/

def byteAt (disk : Disk) (din : Dinode) (pos : Nat) : Byte := disk (blockAt disk din (pos / bsize)).toNat (pos % bsize)

def contents (disk : Disk) (din : Dinode) : List Byte := (List.range din.size.toNat).map (byteAt disk din)

@[simp] theorem length_contents (disk : Disk) (din : Dinode) : (contents disk din).length = din.size.toNat := by
  simp [contents]

theorem contents_congr {din din' : Dinode} (size : din'.size = din.size)
    (bytes : ∀ pos < din.size.toNat, byteAt disk' din' pos = byteAt disk din pos) :
    contents disk' din' = contents disk din := by
  unfold contents
  rw [size]
  exact List.map_congr_left fun pos member => bytes pos (List.mem_range.mp member)

def nodeOf (disk : Disk) (din : Dinode) : Node :=
  ⟨din.attr,(if din.attr.type = 0 then [] else contents disk din).take maxBytes,List.length_take_le ..⟩

@[simp] theorem attr_nodeOf (disk : Disk) (din : Dinode) : (nodeOf disk din).attr = din.attr := rfl

theorem nodeOf_free {din : Dinode} (free : din.attr.type = 0) : nodeOf disk din = .empty din.attr := by
  refine Node.ext rfl ?_
  change (if din.attr.type = 0 then _ else _ : List Byte).take maxBytes = []
  rw [if_pos free,List.take_nil]

theorem nodeOf_congr {din din' : Dinode} (attr : din'.attr = din.attr) (same : contents disk' din' = contents disk din) :
    nodeOf disk' din' = nodeOf disk din := by
  unfold nodeOf
  simp only [attr,same]

theorem Shape.content (shape : Shape sb disk data d) (alloc : Allocated sb d i) :
    (nodeOf disk (d i)).content = contents disk (d i) := by
  change (if (d i).attr.type = 0 then _ else _ : List Byte).take maxBytes = _
  rw [if_neg alloc.type]
  exact List.take_of_length_le (by rw [length_contents]; exact shape.small i alloc)

theorem Shape.size_node (shape : Shape sb disk data d) (alloc : Allocated sb d i) :
    (nodeOf disk (d i)).size = (d i).size.toNat := by
  rw [Node.size,shape.content alloc,length_contents]

theorem Shape.block (shape : Shape sb disk data d) (alloc : Allocated sb d i) {pos : Nat} (inside : pos < (d i).size.toNat) :
    ∃ short : pos / bsize < maxfile, target disk (d i) (dataRef (pos / bsize) short) = blockAt disk (d i) (pos / bsize) ∧
      blockAt disk (d i) (pos / bsize) ≠ 0 := by
  have most := shape.small i alloc
  have positive : 0 < bsize := by decide
  have short : pos / bsize < maxfile := (Nat.div_lt_iff_lt_mul positive).mpr (by unfold maxBytes at most; omega)
  exact ⟨short,target_dataRef .., shape.mapped i alloc _ (Nat.lt_of_le_of_lt (Nat.div_mul_le_self ..) inside)⟩

/-- What stands at the places of a disk's inodes: `nodes` are the inodes, `space`
has the number of free blocks and the blocks that each inode has. -/
structure Denotes (sb : Superblock) (disk : Disk) (data : Nat) (d : Nat → Dinode) (nodes : Nat → Node) (space : Space) :
    Prop where
  shape : Shape sb disk data d
  nodes : ∀ i, Fs.State.known sb.ninodes.toNat i → nodes i = nodeOf disk (d i)
  free : space.free = vacant sb.size.toNat (inUseOf sb disk)
  mapped : ∀ i, Fs.State.known sb.ninodes.toNat i → ∀ k short,
    space.mapped i k = (holding sb disk d (i,dataRef k short)).isSome
  indirect : ∀ i, Fs.State.known sb.ninodes.toNat i → space.indirect i = (holding sb disk d (i,.addr indirectId)).isSome

/-! Changes that the places do not see. -/

section frame

structure Alike (sb : Superblock) (disk disk' : Disk) (d d' : Nat → Dinode) : Prop where
  bits : ∀ b < sb.size.toNat, inUseOf sb disk' b = inUseOf sb disk b
  types : ∀ i, Fs.State.known sb.ninodes.toNat i → ((d' i).attr.type = 0 ↔ (d i).attr.type = 0)
  targets : ∀ i, Allocated sb d i → ∀ ref, target disk' (d' i) ref = target disk (d i) ref

theorem Alike.allocated (alike : Alike sb disk disk' d d') : Allocated sb d' i ↔ Allocated sb d i :=
  ⟨fun alloc => ⟨alloc.known,fun zero => alloc.type ((alike.types i alloc.known).mpr zero)⟩,
    fun alloc => ⟨alloc.known,fun zero => alloc.type ((alike.types i alloc.known).mp zero)⟩⟩

theorem Alike.holding (alike : Alike sb disk disk' d d') (place : Nat × Ref) :
    holding sb disk' d' place = holding sb disk d place := by
  unfold Blocks.holding
  by_cases alloc : Allocated sb d place.1
  · rw [alike.targets _ alloc]
    simp only [alloc,alike.allocated.mpr alloc,true_and]
  · rw [if_neg fun there => alloc (alike.allocated.mp there.1),if_neg fun there => alloc there.1]

theorem Alike.blockAt (alike : Alike sb disk disk' d d') (alloc : Allocated sb d i) {k : Nat} (short : k < maxfile) :
    blockAt disk' (d' i) k = blockAt disk (d i) k := by
  rw [← target_dataRef disk' _ short,alike.targets i alloc,target_dataRef]

theorem Shape.alike (shape : Shape sb disk data d) (alike : Alike sb disk disk' d d')
    (small : ∀ i, Allocated sb d i → (d' i).size.toNat ≤ maxBytes)
    (mapped : ∀ i, Allocated sb d i → ∀ k, k * bsize < (d' i).size.toNat → Fs.blockAt disk (d i) k ≠ 0) :
    Shape sb disk' data d' := by
  refine ⟨shape.geometry,fun b low => ?_,shape.owned.congr (fun b _ high => alike.bits b high) alike.holding,
    fun i alloc => small i (alike.allocated.mp alloc),fun i alloc k inside => ?_⟩
  · rw [alike.bits b (Nat.lt_of_lt_of_le low shape.geometry.inside)]
    exact shape.areas b low
  · have alloc := alike.allocated.mp alloc
    have most := small i alloc
    have short : k < maxfile := Nat.lt_of_mul_lt_mul_right (Nat.lt_of_lt_of_le inside most)
    rw [alike.blockAt alloc short]
    exact mapped i alloc k inside

theorem Denotes.alike {nodes nodes' : Nat → Node} {space space' : Space} (denotes : Denotes sb disk data d nodes space)
    (alike : Alike sb disk disk' d d') (shape : Shape sb disk' data d')
    (named : ∀ i, Fs.State.known sb.ninodes.toNat i → nodes' i = nodeOf disk' (d' i))
    (free : space'.free = space.free) (blocks : space'.mapped = space.mapped) (indirect : space'.indirect = space.indirect) :
    Denotes sb disk' data d' nodes' space' := by
  refine ⟨shape,named,?_,fun i known k short => ?_,fun i known => ?_⟩
  · rw [free,denotes.free]
    exact (vacant_congr alike.bits).symm
  · rw [blocks,denotes.mapped i known k short,alike.holding]
  · rw [indirect,denotes.indirect i known,alike.holding]

theorem Denotes.outside {nodes : Nat → Node} {space : Space} (denotes : Denotes sb disk data d nodes space)
    (bits : ∀ b < sb.size.toNat, inUseOf sb disk' b = inUseOf sb disk b) (blocks : ∀ b, data ≤ b → disk' b = disk b)
    (dinodes : ∀ i, Fs.State.known sb.ninodes.toNat i → d' i = d i) : Denotes sb disk' data d' nodes space := by
  have shape := denotes.shape
  have alike : Alike sb disk disk' d d' := by
    refine ⟨bits,fun i known => by rw [dinodes i known],fun i alloc ref => ?_⟩
    rw [dinodes i alloc.known]
    cases ref with
    | addr k => rfl
    | entry e =>
      rw [target_entry,target_entry,entryOf,entryOf]
      split_ifs with none
      · rfl
      · have held : holding sb disk d (i,.addr indirectId) = some ((d i).addrs indirectId).toNat := holding_of alloc none
        rw [blocks _ (shape.owned.range held).1]
  refine denotes.alike alike (shape.alike alike (fun i alloc => ?_) fun i alloc => ?_) (fun i known => ?_) rfl rfl rfl
  · rw [dinodes i alloc.known]
    exact shape.small i alloc
  · rw [dinodes i alloc.known]
    exact shape.mapped i alloc
  · rw [denotes.nodes i known,dinodes i known]
    by_cases free : (d i).attr.type = 0
    · rw [nodeOf_free free,nodeOf_free free]
    · have alloc : Allocated sb d i := ⟨known,free⟩
      refine (nodeOf_congr rfl (contents_congr rfl fun pos inside => ?_)).symm
      obtain ⟨short,place,there⟩ := shape.block alloc inside
      have block := alike.blockAt alloc short
      rw [dinodes i known] at block
      rw [← place] at there
      have high := (shape.owned.range (holding_of alloc there)).1
      rw [byteAt,block,byteAt,blocks _ (by rw [← place]; exact high)]

end frame

/-! Allocation. -/

/-- A free block has been marked and zeroed. -/
structure Fresh (sb : Superblock) (disk disk' : Disk) (data b : Nat) : Prop where
  inside : b < sb.size.toNat
  free : inUseOf sb disk b = false
  bits : ∀ c < sb.size.toNat, inUseOf sb disk' c = if c = b then true else inUseOf sb disk c
  zero : disk' b = fun _ => 0
  blocks : ∀ c, data ≤ c → c ≠ b → disk' c = disk c
  dinodes : ∀ i < sb.ninodes.toNat, dinodeAt sb.inodestart.toNat disk' i = dinodeAt sb.inodestart.toNat disk i

theorem Fresh.high {b : Nat} (fresh : Fresh sb disk disk' data b) (shape : Shape sb disk data d) : data ≤ b := by
  by_contra low
  have taken := shape.areas b (by omega)
  rw [fresh.free] at taken
  cases taken

theorem Fresh.number {b : Nat} (fresh : Fresh sb disk disk' data b) : (BitVec.ofNat 32 b).toNat = b := by
  rw [BitVec.toNat_ofNat]
  exact Nat.mod_eq_of_lt (Nat.lt_trans fresh.inside sb.size.isLt)

theorem Fresh.nonzero {b : Nat} (fresh : Fresh sb disk disk' data b) (shape : Shape sb disk data d) :
    BitVec.ofNat 32 b ≠ 0 := by
  intro zero
  have number := fresh.number
  rw [zero] at number
  have high := fresh.high shape
  have low := shape.geometry.bitmap b fresh.inside
  change 0 = b at number
  omega

theorem Fresh.other {b : Nat} (fresh : Fresh sb disk disk' data b) (shape : Shape sb disk data d) {place : Nat × Ref} {c : Nat}
    (held : holding sb disk d place = some c) : c ≠ b := by
  rintro rfl
  exact shape.owned.fresh (fresh.high shape) fresh.inside fresh.free place held

/-- Block `b` has been given to inode `i` at `ref`. -/
structure Placed (sb : Superblock) (disk disk' : Disk) (data : Nat) (d d' : Nat → Dinode) (i : Nat) (ref : Ref) (b : Nat) :
    Prop where
  inside : b < sb.size.toNat
  high : data ≤ b
  free : inUseOf sb disk b = false
  nonzero : BitVec.ofNat 32 b ≠ 0
  bits : ∀ c < sb.size.toNat, inUseOf sb disk' c = if c = b then true else inUseOf sb disk c
  empty : target disk (d i) ref = 0
  attr : ∀ j, (d' j).attr = (d j).attr
  size : ∀ j, (d' j).size = (d j).size
  targets : ∀ j, Allocated sb d j → ∀ r, target disk' (d' j) r = if (j,r) = (i,ref) then BitVec.ofNat 32 b else target disk (d j) r
  blocks : ∀ j k short c, holding sb disk d (j,dataRef k short) = some c → disk' c = disk c

namespace Placed
variable {ref : Ref} {b : Nat}

theorem allocated (placed : Placed sb disk disk' data d d' i ref b) : Allocated sb d' j ↔ Allocated sb d j := by
  have same := placed.attr j
  exact ⟨fun alloc => ⟨alloc.known,by rw [← same]; exact alloc.type⟩,fun alloc => ⟨alloc.known,by rw [same]; exact alloc.type⟩⟩

theorem number (placed : Placed sb disk disk' data d d' i ref b) : (BitVec.ofNat 32 b).toNat = b := by
  rw [BitVec.toNat_ofNat]
  exact Nat.mod_eq_of_lt (Nat.lt_trans placed.inside sb.size.isLt)

theorem holding (placed : Placed sb disk disk' data d d' i ref b) (alloc : Allocated sb d i) (place : Nat × Ref) :
    holding sb disk' d' place = if place = (i,ref) then some b else holding sb disk d place := by
  obtain ⟨j,r⟩ := place
  by_cases there : Allocated sb d j
  · unfold Blocks.holding
    rw [placed.targets j there r]
    by_cases here : (j,r) = (i,ref)
    · rw [if_pos here,if_pos here,if_pos ⟨placed.allocated.mpr there,placed.nonzero⟩,placed.number]
    · rw [if_neg here,if_neg here]
      simp only [there,placed.allocated.mpr there,true_and]
  · have other : (j,r) ≠ (i,ref) := fun same => there (by cases same; exact alloc)
    rw [if_neg other]
    unfold Blocks.holding
    rw [if_neg fun both => there (placed.allocated.mp both.1),if_neg fun both => there both.1]

theorem blockAt (placed : Placed sb disk disk' data d d' i ref b) (alloc : Allocated sb d j) {k : Nat} (short : k < maxfile)
    (there : blockAt disk (d j) k ≠ 0) : blockAt disk' (d' j) k = blockAt disk (d j) k := by
  rw [← target_dataRef disk' _ short,placed.targets j alloc,if_neg,target_dataRef]
  intro here
  cases here
  rw [← target_dataRef disk _ short] at there
  exact there placed.empty

theorem shape (placed : Placed sb disk disk' data d d' i ref b) (before : Shape sb disk data d) (alloc : Allocated sb d i) :
    Shape sb disk' data d' := by
  have empty : Blocks.holding sb disk d (i,ref) = none := by
    rw [Blocks.holding,if_neg]
    exact fun there => there.2 placed.empty
  refine ⟨before.geometry,fun c low => ?_,before.owned.take placed.high placed.inside placed.free empty
    (fun c _ high => placed.bits c high) (placed.holding alloc),fun j there => ?_,fun j there k inside => ?_⟩
  · rw [placed.bits c (Nat.lt_of_lt_of_le low before.geometry.inside),before.areas c low]
    split_ifs <;> rfl
  · rw [placed.size]
    exact before.small j (placed.allocated.mp there)
  · have there := placed.allocated.mp there
    rw [placed.size] at inside
    have short : k < maxfile := Nat.lt_of_mul_lt_mul_right (Nat.lt_of_lt_of_le inside (before.small j there))
    have old := before.mapped j there k inside
    rw [placed.blockAt there short old]
    exact old

theorem nodeOf (placed : Placed sb disk disk' data d d' i ref b) (before : Shape sb disk data d)
    (known : Fs.State.known sb.ninodes.toNat j) : nodeOf disk' (d' j) = nodeOf disk (d j) := by
  by_cases free : (d j).attr.type = 0
  · rw [nodeOf_free free,nodeOf_free (by rw [placed.attr]; exact free),placed.attr]
  · have alloc : Allocated sb d j := ⟨known,free⟩
    refine nodeOf_congr (placed.attr j) (contents_congr (placed.size j) fun pos inside => ?_)
    obtain ⟨short,place,there⟩ := before.block alloc inside
    have held : Blocks.holding sb disk d (j,dataRef _ short) = some _ := holding_of alloc (by rw [place]; exact there)
    rw [place] at held
    rw [byteAt,placed.blockAt alloc short there,placed.blocks j _ short _ held,byteAt]

end Placed

namespace Fresh
variable {b : Nat}

theorem indirect (fresh : Fresh sb disk disk' data b) (shape : Shape sb disk data d) (alloc : Allocated sb d j)
    (there : (d j).addrs indirectId ≠ 0) :
    disk' ((d j).addrs indirectId).toNat = disk ((d j).addrs indirectId).toNat := by
  have held : holding sb disk d (j,.addr indirectId) = some ((d j).addrs indirectId).toNat := holding_of alloc there
  exact fresh.blocks _ (shape.owned.range held).1 (fresh.other shape held)

theorem targets (fresh : Fresh sb disk disk' data b) (shape : Shape sb disk data d) (alloc : Allocated sb d j) (ref : Ref) :
    target disk' (d j) ref = target disk (d j) ref := by
  cases ref with
  | addr k => rfl
  | entry e =>
    unfold target
    split_ifs with none
    · rfl
    · rw [fresh.indirect shape alloc none]

theorem kept (fresh : Fresh sb disk disk' data b) (shape : Shape sb disk data d) {place : Nat × Ref} {c : Nat}
    (held : holding sb disk d place = some c) : disk' c = disk c :=
  fresh.blocks c (shape.owned.range held).1 (fresh.other shape held)

/-- The block's address goes into the inode itself. -/
theorem addr (fresh : Fresh sb disk disk' data b) (shape : Shape sb disk data d) (alloc : Allocated sb d i) {k : AddrId}
    (empty : (d i).addrs k = 0) : Placed sb disk disk' data d
      (update d i { d i with addrs := update (d i).addrs k (BitVec.ofNat 32 b) }) i (.addr k) b := by
  refine ⟨fresh.inside,fresh.high shape,fresh.free,fresh.nonzero shape,fresh.bits,empty,fun j => ?_,fun j => ?_,
    fun j there r => ?_,fun j l short c held => fresh.kept shape held⟩
  · rw [update_apply]
    split_ifs with same
    · rw [same]
    · rfl
  · rw [update_apply]
    split_ifs with same
    · rw [same]
    · rfl
  · by_cases mine : j = i
    · subst mine
      rw [update_self]
      cases r with
      | addr l =>
        change update (d j).addrs k _ l = _
        rw [update_apply]
        simp only [Prod.mk.injEq,true_and,Ref.addr.injEq]
        rfl
      | entry e =>
        rw [if_neg nofun]
        by_cases last : k = indirectId
        · subst last
          have now : update (d j).addrs indirectId (BitVec.ofNat 32 b) indirectId = BitVec.ofNat 32 b :=
            update_self ..
          rw [target_entry,target_entry,empty]
          refine (congrArg (entryOf disk' · e) now).trans ?_
          rw [entryOf,if_neg (fresh.nonzero shape),fresh.number,fresh.zero,get32_zero]
          rfl
        · have now : update (d j).addrs k (BitVec.ofNat 32 b) indirectId = (d j).addrs indirectId :=
            update_of_ne (Ne.symm last) ..
          rw [← fresh.targets shape alloc,target_entry,target_entry]
          exact congrArg (entryOf disk' · e) now
    · rw [update_of_ne mine,if_neg fun same => mine (congrArg Prod.fst same)]
      exact fresh.targets shape there r

/-- The block's address goes into the inode's indirect block. -/
theorem entry (fresh : Fresh sb disk disk' data b) (shape : Shape sb disk data d) (alloc : Allocated sb d i)
    (there : (d i).addrs indirectId ≠ 0) {e : Fin nindirect} (empty : target disk (d i) (.entry e) = 0) :
    Placed sb disk (update disk' ((d i).addrs indirectId).toNat
      (set32 (disk' ((d i).addrs indirectId).toNat) e (BitVec.ofNat 32 b))) data d d i (.entry e) b := by
  have held : holding sb disk d (i,.addr indirectId) = some ((d i).addrs indirectId).toNat := holding_of alloc there
  have high := (shape.owned.range held).1
  refine ⟨fresh.inside,fresh.high shape,fresh.free,fresh.nonzero shape,fun c small => ?_,empty,fun _ => rfl,fun _ => rfl,
    fun j alloc' r => ?_,fun j k short c held' => ?_⟩
  · rw [inUseOf_update shape.geometry small high,fresh.bits c small]
  · cases r with
    | addr k =>
      rw [if_neg nofun]
      rfl
    | entry e' =>
      by_cases mine : j = i
      · subst mine
        rw [target_entry,target_entry,entryOf,entryOf,if_neg there,if_neg there,update_self]
        by_cases here : e' = e
        · rw [here,if_pos rfl,get32_set32_same]
        · rw [if_neg fun same => here (Ref.entry.inj (congrArg Prod.snd same)),
            get32_set32_ne _ _ fun same => here (Fin.ext same),fresh.indirect shape alloc there]
      · rw [if_neg fun same => mine (congrArg Prod.fst same),← fresh.targets shape alloc']
        rw [target_entry,target_entry,entryOf,entryOf]
        split_ifs with none
        · rfl
        · rw [update_of_ne]
          intro same
          have held' : holding sb disk d (j,.addr indirectId) = some ((d j).addrs indirectId).toNat := holding_of alloc' none
          rw [same] at held'
          exact mine (congrArg Prod.fst (shape.owned.once held' held))
  · rw [update_of_ne,fresh.kept shape held']
    rintro rfl
    exact dataRef_ne_indirect short (congrArg Prod.snd (shape.owned.once held' held))

end Fresh

def placed (space : Space) (i : Nat) : Ref → Space
  | .addr k =>
    if k = indirectId then { space with free := space.free - 1, indirect := update space.indirect i true }
    else space.setMapped i k.val
  | .entry e => space.setMapped i (ndirect + e.val)

theorem placed_dataRef (space : Space) (i : Nat) {k : Nat} (short : k < maxfile) :
    placed space i (dataRef k short) = space.setMapped i k := by
  unfold dataRef
  split_ifs with direct
  · refine if_neg fun same => ?_
    have value : k = ndirect := congrArg Fin.val same
    omega
  · change space.setMapped i (ndirect + (k - ndirect)) = _
    rw [Nat.add_sub_cancel' (by omega)]

theorem Denotes.place {nodes : Nat → Node} {space : Space} {ref : Ref} {b : Nat} (denotes : Denotes sb disk data d nodes space)
    (alloc : Allocated sb d i) (at_ : Placed sb disk disk' data d d' i ref b) :
    Denotes sb disk' data d' nodes (placed space i ref) := by
  have one := vacant_take at_.inside at_.free at_.bits
  have free : ∀ ref, (placed space i ref).free = space.free - 1 := by
    intro ref
    rcases ref_cases ref with rfl | ⟨l,short,rfl⟩
    · rfl
    · rw [placed_dataRef]
      rfl
  refine ⟨at_.shape denotes.shape alloc,fun j known => ?_,?_,fun j known k short => ?_,fun j known => ?_⟩
  · rw [at_.nodeOf denotes.shape known,denotes.nodes j known]
  · rw [free,denotes.free]
    omega
  · rw [at_.holding alloc]
    rcases ref_cases ref with rfl | ⟨l,short',rfl⟩
    · rw [if_neg fun same => dataRef_ne_indirect short (congrArg Prod.snd same)]
      exact denotes.mapped j known k short
    · rw [placed_dataRef,Space.setMapped]
      dsimp only
      rw [update_apply]
      by_cases mine : j = i
      · rw [if_pos mine,update_apply]
        by_cases here : k = l
        · subst here mine
          rw [if_pos rfl,if_pos rfl]
          rfl
        · rw [if_neg here,if_neg fun same => here (dataRef_inj short short' (congrArg Prod.snd same)),← mine]
          exact denotes.mapped j known k short
      · rw [if_neg mine,if_neg fun same => mine (congrArg Prod.fst same)]
        exact denotes.mapped j known k short
  · rw [at_.holding alloc]
    rcases ref_cases ref with rfl | ⟨l,short',rfl⟩
    · change update space.indirect i true j = _
      rw [update_apply]
      by_cases mine : j = i
      · rw [if_pos mine,mine,if_pos rfl]
        rfl
      · rw [if_neg mine,if_neg fun same => mine (congrArg Prod.fst same)]
        exact denotes.indirect j known
    · rw [placed_dataRef,if_neg fun same => dataRef_ne_indirect short' (congrArg Prod.snd same).symm]
      exact denotes.indirect j known

end Xv6.Fs.Blocks
