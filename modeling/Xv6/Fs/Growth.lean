import Xv6.Fs.Volume

/-! How a file grows: bmap gives an inode the blocks that it lacks, and writei
copies bytes into them. Both do on the blocks what the abstract store does on the
contents. -/
namespace Xv6.Fs.Blocks
open Lib Lib.Bytes Function List
open Log (Block Disk)

variable {s s' s'' : State} {ip : Slot} {data i : Nat} {d : Nat → Dinode} {nodes : Nat → Node} {space : Space}

structure Extends (s s' : State) (ip : Slot) : Prop where
  sb : s'.sb = s.sb
  handles : s'.handles = s.handles
  others : ∀ j, j ≠ ip → s'.inode j = s.inode j
  same : s'.inode ip = { s.inode ip with din := { (s.inode ip).din with addrs := (s'.inode ip).din.addrs } }
  dinodes : ∀ i < s.sb.ninodes.toNat, s'.dinode i = s.dinode i

theorem Extends.refl (s : State) (ip : Slot) : Extends s s ip := ⟨rfl,rfl,fun _ _ => rfl,rfl,fun _ _ => rfl⟩

theorem Extends.trans (first : Extends s s' ip) (second : Extends s' s'' ip) : Extends s s'' ip := by
  refine ⟨second.sb.trans first.sb,second.handles.trans first.handles,fun j other => ?_,?_,fun i small => ?_⟩
  · rw [second.others j other,first.others j other]
  · rw [second.same,first.same]
  · rw [second.dinodes i (by rw [first.sb]; exact small),first.dinodes i small]

def withAddrs (d : Nat → Dinode) (i : Nat) (addrs : AddrId → BitVec 32) : Nat → Dinode :=
  update d i { d i with addrs := addrs }

theorem withAddrs_eq {addrs : AddrId → BitVec 32} (same : (d i).addrs = addrs) : withAddrs d i addrs = d := by
  rw [withAddrs,← same]
  exact update_eq_self ..

theorem withAddrs_withAddrs (d : Nat → Dinode) (i : Nat) (addrs addrs' : AddrId → BitVec 32) :
    withAddrs (withAddrs d i addrs) i addrs' = withAddrs d i addrs' := by
  simp only [withAddrs,update_idem,update_self]

@[simp] theorem addrs_withAddrs (d : Nat → Dinode) (i : Nat) (addrs : AddrId → BitVec 32) :
    (withAddrs d i addrs i).addrs = addrs := by
  rw [withAddrs,update_self]

theorem Allocated.withAddrs {sb : Superblock} {j : Nat} (alloc : Allocated sb d j) (addrs : AddrId → BitVec 32) :
    Allocated sb (Blocks.withAddrs d i addrs) j := by
  refine ⟨alloc.known,?_⟩
  rw [Blocks.withAddrs,update_apply]
  split_ifs with same
  · rw [← same]
    exact alloc.type
  · exact alloc.type

/-! Which blocks an inode has. -/

theorem Denotes.mapped_iff {sb : Superblock} {disk : Disk} (denotes : Denotes sb disk data d nodes space)
    (alloc : Allocated sb d i) {k : Nat} (short : k < maxfile) : space.mapped i k = true ↔ blockAt disk (d i) k ≠ 0 := by
  rw [denotes.mapped i alloc.known k short,Option.isSome_iff_exists,← target_dataRef disk _ short]
  exact ⟨fun ⟨b,held⟩ => (holding_some.mp held).2.1,fun there => ⟨_,holding_of alloc there⟩⟩

theorem Denotes.indirect_iff {sb : Superblock} {disk : Disk} (denotes : Denotes sb disk data d nodes space)
    (alloc : Allocated sb d i) : space.indirect i = true ↔ (d i).addrs indirectId ≠ 0 := by
  rw [denotes.indirect i alloc.known,Option.isSome_iff_exists]
  exact ⟨fun ⟨b,held⟩ => (holding_some.mp held).2.1,fun there => ⟨_,holding_of alloc there⟩⟩

/-! Allocation. -/

theorem balloc_fresh (ip : Slot) (shape : Shape s.sb s.disk data d) :
    (vacant s.sb.size.toNat (inUseOf s.sb s.disk) = 0 ∧ s.balloc = (0,s)) ∨
      ∃ b s', s.balloc = (BitVec.ofNat 32 b,s') ∧ Fresh s.sb s.disk s'.disk data b ∧ Extends s s' ip ∧ s'.inode = s.inode := by
  rcases balloc_cases s with ⟨full,used⟩ | ⟨b,inside,free,-,found⟩
  · exact .inl ⟨vacant_eq_zero.mpr used,full⟩
  · have high : data ≤ b := by
      by_contra low
      have taken : s.used b = true := shape.areas b (by omega)
      rw [free] at taken
      cases taken
    have bitmap := shape.geometry.bitmap b inside
    have dinodes : ∀ i < s.sb.ninodes.toNat, dinodeAt s.sb.inodestart.toNat ((s.mark b true).setBlock b fun _ => 0).disk i =
        dinodeAt s.sb.inodestart.toNat s.disk i := by
      intro i small
      have low := shape.geometry.inodes i small
      have apart := shape.geometry.apart i small b inside
      unfold dinodeAt State.setBlock State.mark State.setBlock
      dsimp only
      rw [update_of_ne (by omega),update_of_ne apart]
    refine .inr ⟨b,_,found,⟨inside,free,fun c small => ?_,update_self ..,fun c large other => ?_,dinodes⟩,
      ⟨rfl,rfl,fun _ _ => rfl,rfl,dinodes⟩,rfl⟩
    · refine (inUseOf_update shape.geometry small high _).trans ?_
      exact used_mark s b c true
    · change update (update s.disk _ _) b _ c = _
      rw [update_of_ne other,update_of_ne (by omega)]

/-- What bmap has done about one address: it was there, there is no block for it,
or it is a new block's. -/
inductive Grew (s : State) (ip : Slot) (data i : Nat) (d : Nat → Dinode) (nodes : Nat → Node) (space : Space) (ref : Ref) :
    BitVec 32 × State → Prop
  | there (nonzero : target s.disk (d i) ref ≠ 0) : Grew s ip data i d nodes space ref (target s.disk (d i) ref,s)
  | full (empty : target s.disk (d i) ref = 0) (none : space.free = 0) : Grew s ip data i d nodes space ref (0,s)
  | new (addr : BitVec 32) (s' : State) (empty : target s.disk (d i) ref = 0) (some : space.free ≠ 0)
      (more : Extends s s' ip)
      (denotes : Denotes s'.sb s'.disk data (withAddrs d i (s'.inode ip).din.addrs) nodes (placed space i ref))
      (address : target s'.disk (withAddrs d i (s'.inode ip).din.addrs i) ref = addr) (nonzero : addr ≠ 0) :
      Grew s ip data i d nodes space ref (addr,s')

theorem bmapAddr_grew (denotes : Denotes s.sb s.disk data d nodes space) (alloc : Allocated s.sb d i)
    (same : (d i).addrs = (s.inode ip).din.addrs) (k : AddrId) :
    Grew s ip data i d nodes space (.addr k) (s.bmapAddr ip k) := by
  unfold State.bmapAddr
  dsimp only
  rw [← same]
  by_cases empty : (d i).addrs k = 0
  · rw [if_pos empty]
    rcases balloc_fresh ip denotes.shape with ⟨none,full⟩ | ⟨b,s1,found,fresh,more,inodes⟩
    · rw [full]
      exact .full empty (denotes.free.trans none)
    · rw [found]
      have nonzero := fresh.nonzero denotes.shape
      have at_ := fresh.addr denotes.shape alloc empty
      dsimp only
      rw [if_neg nonzero]
      have addrs : ((s1.setAddr ip k (BitVec.ofNat 32 b)).inode ip).din.addrs =
          update (d i).addrs k (BitVec.ofNat 32 b) := by
        simp [State.setAddr,State.setDin,State.setInode,inodes,same]
      have now : withAddrs d i ((s1.setAddr ip k (BitVec.ofNat 32 b)).inode ip).din.addrs =
          update d i { d i with addrs := update (d i).addrs k (BitVec.ofNat 32 b) } := by
        rw [withAddrs,addrs]
      have address : target (s1.setAddr ip k (BitVec.ofNat 32 b)).disk
          (withAddrs d i ((s1.setAddr ip k (BitVec.ofNat 32 b)).inode ip).din.addrs i) (.addr k) = BitVec.ofNat 32 b := by
        rw [target,addrs_withAddrs,addrs,update_self]
      refine .new _ _ empty (fun none => ?_) ?_ ?_ address nonzero
      · have used := vacant_eq_zero.mp (denotes.free.symm.trans none) b fresh.inside
        rw [fresh.free] at used
        cases used
      · refine ⟨more.sb,more.handles,fun j other => ?_,?_,more.dinodes⟩
        · simp [State.setAddr,State.setDin,State.setInode,other,inodes]
        · simp [State.setAddr,State.setDin,State.setInode,inodes]
      · rw [now]
        change Denotes s1.sb s1.disk data _ nodes _
        rw [more.sb]
        exact denotes.place alloc at_
  · rw [if_neg empty]
    exact .there empty

theorem bmapEntry_grew (denotes : Denotes s.sb s.disk data d nodes space) (alloc : Allocated s.sb d i)
    (same : (d i).addrs = (s.inode ip).din.addrs) (there : (d i).addrs indirectId ≠ 0) (e : Fin nindirect) :
    Grew s ip data i d nodes space (.entry e) (s.bmapEntry ((d i).addrs indirectId).toNat e) := by
  have value : get32 (s.disk ((d i).addrs indirectId).toNat) e = target s.disk (d i) (.entry e) := (if_neg there).symm
  unfold State.bmapEntry
  dsimp only
  rw [value]
  by_cases empty : target s.disk (d i) (.entry e) = 0
  · rw [if_pos empty]
    rcases balloc_fresh ip denotes.shape with ⟨none,full⟩ | ⟨b,s1,found,fresh,more,inodes⟩
    · rw [full]
      exact .full empty (denotes.free.trans none)
    · rw [found]
      have nonzero := fresh.nonzero denotes.shape
      have at_ := fresh.entry denotes.shape alloc there empty
      dsimp only
      rw [if_neg nonzero]
      generalize after : s1.setBlock ((d i).addrs indirectId).toNat
        (set32 (s1.disk ((d i).addrs indirectId).toNat) e (BitVec.ofNat 32 b)) = s2
      have disk2 : s2.disk = update s1.disk ((d i).addrs indirectId).toNat
          (set32 (s1.disk ((d i).addrs indirectId).toNat) e (BitVec.ofNat 32 b)) := by rw [← after]; rfl
      have inodes2 : s2.inode = s.inode := by rw [← after]; exact inodes
      have sb2 : s2.sb = s.sb := by rw [← after]; exact more.sb
      have now : withAddrs d i (s2.inode ip).din.addrs = d := withAddrs_eq (by rw [inodes2,same])
      have address : target s2.disk (withAddrs d i (s2.inode ip).din.addrs i) (.entry e) = BitVec.ofNat 32 b := by
        rw [now,disk2,at_.targets i alloc,if_pos rfl]
      have held : holding s.sb s.disk d (i,.addr indirectId) = some ((d i).addrs indirectId).toNat := holding_of alloc there
      have high := (denotes.shape.owned.range held).1
      refine .new _ _ empty (fun none => ?_) ?_ ?_ address nonzero
      · have used := vacant_eq_zero.mp (denotes.free.symm.trans none) b fresh.inside
        rw [fresh.free] at used
        cases used
      · refine ⟨sb2,?_,fun j _ => congrFun inodes2 j,by rw [inodes2],fun j small => ?_⟩
        · rw [← after]
          exact more.handles
        · have low := denotes.shape.geometry.inodes j small
          rw [← more.dinodes j small,← after]
          unfold State.dinode dinodeAt State.setBlock
          dsimp only
          rw [more.sb,update_of_ne (by omega)]
      · rw [now,disk2,sb2]
        exact denotes.place alloc at_
  · rw [if_neg empty]
    exact .there empty

/-! bmap. -/

/-- bmap gives the inode the block that the abstract store gives it, and returns 0
where there is no block left. -/
theorem bmap_grow (denotes : Denotes s.sb s.disk data d nodes space) (alloc : Allocated s.sb d i)
    (same : (d i).addrs = (s.inode ip).din.addrs) {bn : Nat} (short : bn < maxfile) :
    ∃ addr s', s.bmap ip bn = .ok (addr,s') ∧ Extends s s' ip ∧
      Denotes s'.sb s'.disk data (withAddrs d i (s'.inode ip).din.addrs) nodes (space.grow i bn).2 ∧
      (space.grow i bn).1 = decide (addr ≠ 0) ∧
      addr = blockAt s'.disk (withAddrs d i (s'.inode ip).din.addrs i) bn := by
  have still := withAddrs_eq same
  -- the inode has the block
  by_cases there : blockAt s.disk (d i) bn ≠ 0
  · have mapped := (denotes.mapped_iff alloc short).mpr there
    have address : s.addr ip bn = blockAt s.disk (d i) bn := by
      unfold State.addr blockAt
      rw [same]
    have ran := bmap_mapped short (by rw [address]; exact there)
    refine ⟨_,s,ran,.refl s ip,?_,?_,by rw [still,address]⟩
    · rw [still,Space.grow,if_pos mapped]
      exact denotes
    · rw [Space.grow,if_pos mapped,address]
      exact (decide_eq_true there).symm
  rw [not_not] at there
  have unmapped : space.mapped i bn ≠ true := fun mapped => (denotes.mapped_iff alloc short).mp mapped there
  unfold State.bmap Space.grow
  rw [if_neg unmapped]
  by_cases direct : bn < ndirect
  · rw [dif_pos direct]
    have place : dataRef bn short = .addr ⟨bn,by omega⟩ := by rw [dataRef,dif_pos direct]
    have grew := bmapAddr_grew denotes alloc same ⟨bn,by omega⟩
    generalize s.bmapAddr ip ⟨bn,_⟩ = result at grew ⊢
    rw [← place] at grew
    cases grew with
    | there nonzero => exact absurd there (by rwa [target_dataRef] at nonzero)
    | full empty none =>
      rw [if_pos none]
      exact ⟨0,s,rfl,.refl s ip,by rw [still]; exact denotes,by simp,by rw [still,there]⟩
    | new addr s' empty some more denotes' address nonzero =>
      rw [if_neg some,if_pos (.inl direct)]
      rw [placed_dataRef] at denotes'
      rw [target_dataRef] at address
      exact ⟨addr,s',rfl,more,denotes',(decide_eq_true nonzero).symm,address.symm⟩
  · have near : bn - ndirect < nindirect := by
      unfold maxfile at short
      omega
    rw [dif_neg direct,if_pos near]
    have place : dataRef bn short = .entry ⟨bn - ndirect,near⟩ := by rw [dataRef,dif_neg direct]
    have first := bmapAddr_grew denotes alloc same indirectId
    generalize s.bmapAddr ip indirectId = result at first ⊢
    cases first with
    | there present =>
      have present : (d i).addrs indirectId ≠ 0 := present
      have known := (denotes.indirect_iff alloc).mpr present
      have second := bmapEntry_grew denotes alloc same present ⟨bn - ndirect,near⟩
      change ∃ addr s', (if (d i).addrs indirectId = 0 then _ else Except.ok (s.bmapEntry ((d i).addrs indirectId).toNat _)) = _ ∧ _
      rw [if_neg present]
      generalize s.bmapEntry ((d i).addrs indirectId).toNat _ = result at second ⊢
      rw [← place] at second
      cases second with
      | there nonzero => exact absurd there (by rwa [target_dataRef] at nonzero)
      | full empty none =>
        rw [if_pos none]
        exact ⟨0,s,rfl,.refl s ip,by rw [still]; exact denotes,by simp,by rw [still,there]⟩
      | new addr s' empty some more denotes' address nonzero =>
        rw [if_neg some,if_pos (.inr known)]
        rw [placed_dataRef] at denotes'
        rw [target_dataRef] at address
        exact ⟨addr,s',rfl,more,denotes',(decide_eq_true nonzero).symm,address.symm⟩
    | full empty none =>
      dsimp only
      rw [if_pos rfl,if_pos none]
      exact ⟨0,s,rfl,.refl s ip,by rw [still]; exact denotes,by simp,by rw [still,there]⟩
    | new ind s1 empty some more1 denotes1 present nonzero =>
      have absent : ¬(bn < ndirect ∨ space.indirect i = true) := by
        rintro (low | known)
        · exact direct low
        · exact (denotes.indirect_iff alloc).mp known empty
      rw [if_neg some,if_neg absent]
      have present : (withAddrs d i (s1.inode ip).din.addrs i).addrs indirectId = ind := present
      have held : (withAddrs d i (s1.inode ip).din.addrs i).addrs indirectId ≠ 0 := by rwa [present]
      change ∃ addr s', (if ind = 0 then _ else _) = _ ∧ _
      rw [if_neg nonzero]
      have alloc0 : Allocated s.sb (withAddrs d i (s1.inode ip).din.addrs) i := alloc.withAddrs _
      have alloc1 : Allocated s1.sb (withAddrs d i (s1.inode ip).din.addrs) i := by rwa [more1.sb]
      have same1 := addrs_withAddrs d i (s1.inode ip).din.addrs
      have second := bmapEntry_grew denotes1 alloc1 same1 held ⟨bn - ndirect,near⟩
      have absent1 : blockAt s1.disk (withAddrs d i (s1.inode ip).din.addrs i) bn = 0 := by
        by_contra nonzero
        exact unmapped ((denotes1.mapped_iff alloc1 short).mpr nonzero)
      rw [present] at second
      change ∃ addr s', Except.ok (s1.bmapEntry ind.toNat _) = _ ∧ _
      generalize s1.bmapEntry ind.toNat _ = result at second ⊢
      rw [← place] at second
      change ∃ addr s', _ ∧ _ ∧ Denotes _ _ _ _ _ (if (placed space i (.addr indirectId)).free = 0 then _ else _ : Bool × Space).2 ∧
        (if (placed space i (.addr indirectId)).free = 0 then _ else _ : Bool × Space).1 = _ ∧ _
      cases second with
      | there nonzero => exact absurd absent1 (by rwa [target_dataRef] at nonzero)
      | full empty none =>
        rw [if_pos none]
        exact ⟨0,s1,rfl,more1,denotes1,by simp,absent1.symm⟩
      | new addr s2 empty some more2 denotes2 address nonzero =>
        rw [if_neg some]
        rw [placed_dataRef,withAddrs_withAddrs] at denotes2
        rw [target_dataRef,withAddrs_withAddrs] at address
        exact ⟨addr,s2,rfl,more1.trans more2,denotes2,(decide_eq_true nonzero).symm,address.symm⟩

/-! Bytes in a block. -/

theorem target_write {sb : Superblock} {disk : Disk} (shape : Shape sb disk data d) {place : Nat × Ref} {b j : Nat}
    (held : holding sb disk d place = some b) (content : place.2 ≠ .addr indirectId) (alloc : Allocated sb d j) (block : Block)
    (ref : Ref) : target (update disk b block) (d j) ref = target disk (d j) ref := by
  cases ref with
  | addr k => rfl
  | entry e =>
    rw [target_entry,target_entry,entryOf,entryOf]
    split_ifs with none
    · rfl
    · rw [update_of_ne]
      rintro rfl
      have held' : holding sb disk d (j,.addr indirectId) = some ((d j).addrs indirectId).toNat := holding_of alloc none
      exact content (congrArg Prod.snd (shape.owned.once held held'))

theorem byteAt_copy {sb : Superblock} {disk : Disk} (shape : Shape sb disk data d) (alloc : Allocated sb d i)
    {off pos : Nat} (short : off / bsize < maxfile) (there : blockAt disk (d i) (off / bsize) ≠ 0) {bytes : List Byte}
    (chunk : off % bsize + bytes.length ≤ bsize) (short' : pos / bsize < maxfile)
    (there' : blockAt disk (d i) (pos / bsize) ≠ 0) :
    update disk (blockAt disk (d i) (off / bsize)).toNat
        (copyAt (disk (blockAt disk (d i) (off / bsize)).toNat) (off % bsize) bytes)
        (blockAt disk (d i) (pos / bsize)).toNat (pos % bsize) =
      if off ≤ pos ∧ pos < off + bytes.length then bytes.getD (pos - off) 0 else byteAt disk (d i) pos := by
  have split := Nat.div_add_mod off bsize
  have split' := Nat.div_add_mod pos bsize
  have low := Nat.mod_lt pos (show 0 < bsize by decide)
  by_cases same : pos / bsize = off / bsize
  · rw [byteAt,same,update_self,copyAt]
    rw [same] at split'
    by_cases inside : off ≤ pos ∧ pos < off + bytes.length
    · rw [if_pos inside,if_pos (by omega)]
      exact congrArg (bytes.getD · 0) (by omega)
    · rw [if_neg inside,if_neg (by omega)]
  · have other : (blockAt disk (d i) (pos / bsize)).toNat ≠ (blockAt disk (d i) (off / bsize)).toNat := by
      intro equal
      rw [← target_dataRef disk _ short] at there equal
      rw [← target_dataRef disk _ short'] at there' equal
      have once := shape.owned.once (holding_of alloc there') (equal ▸ holding_of alloc there)
      exact same (dataRef_inj short' short (congrArg Prod.snd once))
    rw [update_of_ne other,byteAt,if_neg]
    rintro ⟨least,most⟩
    have floor := Nat.div_le_div_right (c := bsize) least
    have ceiling : pos / bsize < off / bsize + 1 := by
      refine (Nat.div_lt_iff_lt_mul (by decide)).mpr ?_
      rw [Nat.add_mul,Nat.mul_comm (off / bsize),Nat.one_mul]
      omega
    omega

/-- Bytes are copied into a block of an inode, which may grow up to their end. -/
theorem Denotes.copy {sb : Superblock} {disk : Disk} (denotes : Denotes sb disk data d nodes space) {off : Nat}
    (bytes : List Byte) (size : BitVec 32) (node : Node) (alloc : Allocated sb d i) (short : off / bsize < maxfile)
    (there : blockAt disk (d i) (off / bsize) ≠ 0) (place : off ≤ (d i).size.toNat) (chunk : off % bsize + bytes.length ≤ bsize)
    (grows : (d i).size.toNat ≤ size.toNat) (end_ : size.toNat ≤ max (d i).size.toNat (off + bytes.length))
    (fits : size.toNat ≤ maxBytes) (attr : node.attr = (d i).attr)
    (content : node.content = (overwrite (contents disk (d i)) off bytes).take size.toNat) :
    Denotes sb (update disk (blockAt disk (d i) (off / bsize)).toNat
        (copyAt (disk (blockAt disk (d i) (off / bsize)).toNat) (off % bsize) bytes)) data
      (update d i { d i with size := size }) (update nodes i node) space := by
  have shape := denotes.shape
  have held : holding sb disk d (i,dataRef _ short) = some (blockAt disk (d i) (off / bsize)).toNat := by
    rw [← target_dataRef disk _ short] at there ⊢
    exact holding_of alloc there
  have high := (shape.owned.range held).1
  generalize copied : copyAt (disk (blockAt disk (d i) (off / bsize)).toNat) (off % bsize) bytes = block
  have alike : Alike sb disk (update disk (blockAt disk (d i) (off / bsize)).toNat block) d
      (update d i { d i with size := size }) := by
    refine ⟨fun b small => inUseOf_update shape.geometry small high block,fun j _ => ?_,fun j there' ref => ?_⟩
    · rw [update_apply]
      split_ifs with mine
      · rw [mine]
      · rfl
    · rw [← target_write shape held (dataRef_ne_indirect short) there' block ref,update_apply]
      split_ifs with mine
      · rw [mine]
        cases ref <;> rfl
      · rfl
  -- the inode has every block up to its new end
  have mapped : ∀ k, k * bsize < size.toNat → blockAt disk (d i) k ≠ 0 := by
    intro k inside
    by_cases old : k * bsize < (d i).size.toNat
    · exact shape.mapped i alloc k old
    · have split := Nat.div_add_mod off bsize
      have below : k * bsize < (off / bsize + 1) * bsize := by
        rw [Nat.add_mul,Nat.one_mul,Nat.mul_comm (off / bsize)]
        omega
      have above : off / bsize * bsize ≤ k * bsize := by
        rw [Nat.mul_comm]
        omega
      have last : k = off / bsize :=
        Nat.le_antisymm (Nat.lt_succ_iff.mp (Nat.lt_of_mul_lt_mul_right below)) (Nat.le_of_mul_le_mul_right above (by decide))
      rw [last]
      exact there
  have after : Shape sb (update disk (blockAt disk (d i) (off / bsize)).toNat block) data
      (update d i { d i with size := size }) := by
    refine shape.alike alike (fun j there' => ?_) fun j there' k inside => ?_
    · rw [update_apply]
      split_ifs
      · exact fits
      · exact shape.small j there'
    · rw [update_apply] at inside
      split_ifs at inside with mine
      · rw [mine]
        exact mapped k inside
      · exact shape.mapped j there' k inside
  refine denotes.alike alike after (fun j known => ?_) rfl rfl rfl
  rw [update_apply,update_apply]
  by_cases mine : j = i
  · rw [if_pos mine,if_pos mine]
    have now : Allocated sb (update d i { d i with size := size }) i := alike.allocated.mpr alloc
    have described := after.content now
    rw [update_self] at described
    refine Node.ext attr ?_
    have listed : contents (update disk (blockAt disk (d i) (off / bsize)).toNat block) { d i with size := size } =
        (range size.toNat).map (byteAt (update disk (blockAt disk (d i) (off / bsize)).toNat block)
          { d i with size := size }) := rfl
    rw [described,content,listed]
    refine ext_getElem? fun pos => ?_
    rw [getElem?_map]
    by_cases inside : pos < size.toNat
    · have short' : pos / bsize < maxfile :=
        (Nat.div_lt_iff_lt_mul (by decide)).mpr (by unfold maxBytes at fits; omega)
      have there' := mapped (pos / bsize) (Nat.lt_of_le_of_lt (Nat.div_mul_le_self ..) inside)
      have block' := alike.blockAt alloc short'
      rw [update_self] at block'
      rw [getElem?_take_of_lt inside,getElem?_overwrite (by rw [length_contents]; exact place),getElem?_range inside,
        Option.map_some,byteAt,block',← copied,byteAt_copy shape alloc short there chunk short' there']
      split_ifs with within
      · rw [getD_eq_getElem?_getD]
        have length : pos - off < bytes.length := by omega
        rw [getElem?_eq_getElem length]
        rfl
      · rw [contents,getElem?_map,getElem?_range (by omega)]
        rfl
    · rw [getElem?_eq_none (by rw [length_take]; omega),getElem?_eq_none (by rw [length_range]; omega)]
      rfl
  · rw [if_neg mine,if_neg mine,denotes.nodes j known]
    by_cases free : (d j).attr.type = 0
    · rw [nodeOf_free free,nodeOf_free free]
    · have alloc' : Allocated sb d j := ⟨known,free⟩
      refine (nodeOf_congr rfl (contents_congr rfl fun pos inside => ?_)).symm
      obtain ⟨short',target',there'⟩ := shape.block alloc' inside
      have block' := alike.blockAt alloc' short'
      rw [update_of_ne mine] at block'
      rw [byteAt,block',update_of_ne,byteAt]
      intro equal
      have held' : holding sb disk d (j,dataRef _ short') = some (blockAt disk (d j) (pos / bsize)).toNat := by
        rw [← target'] at there' ⊢
        exact holding_of alloc' there'
      rw [equal] at held'
      exact mine (congrArg Prod.fst (shape.owned.once held' held))

/-! writei. -/

theorem Extends.block (geometry : Geometry s.sb data) {b : Nat} (high : data ≤ b) {block : Block} (sb : s'.sb = s.sb)
    (handles : s'.handles = s.handles) (inodes : s'.inode = s.inode) (disk : s'.disk = update s.disk b block) :
    Extends s s' ip := by
  refine ⟨sb,handles,fun j _ => congrFun inodes j,by rw [inodes],fun i small => ?_⟩
  have low := geometry.inodes i small
  unfold State.dinode dinodeAt
  rw [sb,disk,update_of_ne (by omega)]

def growing (d : Nat → Dinode) (i : Nat) (addrs : AddrId → BitVec 32) (size : BitVec 32) : Nat → Dinode :=
  update d i { d i with addrs := addrs, size := size }

theorem length_copied (src : Nat → Option Byte) (tot m : Nat) :
    ((((range m).map fun k => src (tot + k)).takeWhile Option.isSome).filterMap id).length ≤ m := by
  refine (length_filterMap_le ..).trans ((takeWhile_sublist _).length_le.trans ?_)
  rw [length_map,length_range]

theorem Denotes.content {sb : Superblock} {disk : Disk} (denotes : Denotes sb disk data d nodes space)
    (alloc : Allocated sb d i) : (nodes i).content = contents disk (d i) := by
  rw [denotes.nodes i alloc.known,denotes.shape.content alloc]

theorem Denotes.growing {sb : Superblock} {disk : Disk} {addrs : AddrId → BitVec 32}
    (denotes : Denotes sb disk data (withAddrs d i addrs) nodes space) :
    Denotes sb disk data (Blocks.growing d i addrs (d i).size) (update nodes i (nodes i)) space := by
  rw [update_eq_self]
  exact denotes

/-- The loop of writei on the blocks is the loop of the abstract store on the
contents. -/
theorem writeiFrom_refines {src : Nat → Option Byte} {n turns tot off : Nat} (denotes : Denotes s.sb s.disk data d nodes space)
    (alloc : Allocated s.sb d i) (same : (d i).addrs = (s.inode ip).din.addrs) (place : off ≤ (d i).size.toNat)
    (inside : tot ≤ n) (fits : off + (n - tot) ≤ maxBytes) :
    ∃ tot' off' s' node space' size, State.writeiFrom ip src n turns tot off s = .ok (tot',off',s') ∧ Extends s s' ip ∧
      (tot ≤ tot' ∧ tot' ≤ n ∧ off' + tot = off + tot') ∧ size.toNat = max (d i).size.toNat off' ∧
      Fs.State.writeFrom i src n turns tot off (nodes i) space = (tot',node,space') ∧
      Denotes s'.sb s'.disk data (growing d i (s'.inode ip).din.addrs size) (update nodes i node) space' := by
  induction turns generalizing s d nodes space tot off with
  | zero =>
    refine ⟨tot,off,s,nodes i,space,(d i).size,rfl,.refl s ip,⟨Nat.le_refl tot,inside,rfl⟩,(Nat.max_eq_left place).symm,rfl,.growing ?_⟩
    rw [withAddrs_eq same]
    exact denotes
  | succ turns ih =>
    rw [State.writeiFrom,Fs.State.writeFrom]
    have most := Nat.max_eq_left place
    by_cases more : tot < n
    · rw [if_pos more,if_pos more]
      have short : off / bsize < maxfile := (Nat.div_lt_iff_lt_mul (by decide)).mpr (by unfold maxBytes at fits; omega)
      obtain ⟨addr,s1,ran,extends1,denotes1,grown,address⟩ := bmap_grow denotes alloc same short
      rw [ran]
      generalize space.grow i (off / bsize) = growth at denotes1 grown ⊢
      obtain ⟨there,space1⟩ := growth
      dsimp only at denotes1 grown ⊢
      change ∃ tot' off' s' node space' size, (if addr = 0 then _ else _) = _ ∧ _
      by_cases none : addr = 0
      · have absent : there = false := by rw [grown,none]; rfl
        rw [if_pos none,absent]
        exact ⟨tot,off,s1,nodes i,space1,(d i).size,rfl,extends1,⟨Nat.le_refl tot,inside,rfl⟩,most.symm,rfl,denotes1.growing⟩
      have present : there = true := by rw [grown]; exact decide_eq_true none
      rw [if_neg none,present]
      dsimp only
      have low := Nat.mod_lt off (show 0 < bsize by decide)
      generalize amount : min (n - tot) (bsize - off % bsize) = m
      have bound := length_copied src tot m
      generalize (((range m).map fun k => src (tot + k)).takeWhile Option.isSome).filterMap id = bytes at bound ⊢
      have alloc0 : Allocated s.sb (withAddrs d i (s1.inode ip).din.addrs) i := alloc.withAddrs _
      have alloc1 : Allocated s1.sb (withAddrs d i (s1.inode ip).din.addrs) i := by rwa [extends1.sb]
      have size1 : (withAddrs d i (s1.inode ip).din.addrs i).size = (d i).size := by rw [withAddrs,update_self]
      have content1 := denotes1.content alloc1
      have attr1 : (nodes i).attr = (withAddrs d i (s1.inode ip).din.addrs i).attr := by
        rw [denotes1.nodes i alloc1.known,attr_nodeOf]
      have held : holding s1.sb s1.disk (withAddrs d i (s1.inode ip).din.addrs) (i,dataRef _ short) = some addr.toNat := by
        rw [address] at none ⊢
        rw [← target_dataRef s1.disk _ short] at none ⊢
        exact holding_of alloc1 none
      have high := (denotes1.shape.owned.range held).1
      have length1 : (nodes i).content.length = (d i).size.toNat := by rw [content1,length_contents,size1]
      have resize : ∀ size : BitVec 32, update (withAddrs d i (s1.inode ip).din.addrs) i
          { withAddrs d i (s1.inode ip).din.addrs i with size := size } = growing d i (s1.inode ip).din.addrs size := by
        intro size
        simp only [growing,withAddrs,update_idem,update_self]
      by_cases failed : bytes.length < m
      · rw [if_pos failed,if_pos failed]
        refine ⟨tot,off,_,_,space1,(d i).size,rfl,extends1.trans (.block denotes1.shape.geometry high rfl rfl rfl rfl),
          ⟨Nat.le_refl tot,inside,rfl⟩,most.symm,rfl,?_⟩
        have copied := denotes1.copy bytes (d i).size ((nodes i).smudge off bytes) alloc1 short
          (by rw [← address]; exact none) (by rw [size1]; exact place) (by omega) (by rw [size1])
          (by rw [size1]; exact Nat.le_max_left ..) (by rw [← length1]; exact (nodes i).bound) attr1
          (by rw [Node.content_smudge,content1,length_contents,size1])
        rw [← address,resize] at copied
        exact copied
      · have full : bytes.length = m := by omega
        rw [if_neg failed,if_neg failed]
        have number : (BitVec.ofNat 32 (max (d i).size.toNat (off + m))).toNat = max (d i).size.toNat (off + m) := by
          rw [BitVec.toNat_ofNat]
          refine Nat.mod_eq_of_lt (Nat.max_lt.mpr ⟨(d i).size.isLt,?_⟩)
          have limit : maxBytes < 2 ^ 32 := by decide
          omega
        have within : max (d i).size.toNat (off + m) ≤ maxBytes :=
          Nat.max_le.mpr ⟨by rw [← length1]; exact (nodes i).bound,by omega⟩
        have written : ((nodes i).write off bytes).content =
            (overwrite (contents s1.disk (withAddrs d i (s1.inode ip).din.addrs i)) off bytes).take
              (BitVec.ofNat 32 (max (d i).size.toNat (off + m))).toNat := by
          rw [Node.content_write _ (by omega),content1,number]
          refine (take_of_length_le ?_).symm
          refine (length_overwrite_le ..).trans ?_
          rw [length_contents,size1,full]
        have copied := denotes1.copy bytes (BitVec.ofNat 32 (max (d i).size.toNat (off + m)))
          ((nodes i).write off bytes) alloc1 short (by rw [← address]; exact none) (by rw [size1]; exact place)
          (by omega) (by rw [size1,number]; exact Nat.le_max_left ..) (by rw [size1,number,full]) (by rw [number]; exact within)
          (by rw [Node.attr_write]; exact attr1) written
        rw [← address,resize] at copied
        generalize after : s1.setBlock addr.toNat (copyAt (s1.disk addr.toNat) (off % bsize) bytes) = s2
        have extends2 : Extends s1 s2 ip := by
          rw [← after]
          exact .block denotes1.shape.geometry high rfl rfl rfl rfl
        have inodes2 : s2.inode = s1.inode := by rw [← after]; rfl
        have denotes2 : Denotes s2.sb s2.disk data
            (growing d i (s2.inode ip).din.addrs (BitVec.ofNat 32 (max (d i).size.toNat (off + m))))
            (update nodes i ((nodes i).write off bytes)) space1 := by
          rw [inodes2,← after]
          exact copied
        have size2 : (growing d i (s2.inode ip).din.addrs (BitVec.ofNat 32 (max (d i).size.toNat (off + m))) i).size =
            BitVec.ofNat 32 (max (d i).size.toNat (off + m)) := by
          rw [growing,update_self]
        have alloc2 : Allocated s2.sb
            (growing d i (s2.inode ip).din.addrs (BitVec.ofNat 32 (max (d i).size.toNat (off + m)))) i := by
          refine ⟨by rw [extends2.sb]; exact alloc1.known,?_⟩
          rw [growing,update_self]
          exact alloc.type
        obtain ⟨tot',off',s',node,space',size,ran',extends',⟨least,most',moved⟩,ended,wrote,denotes'⟩ := @ih s2 _ _ _ (tot + m) (off + m) denotes2 alloc2
          (by rw [growing,update_self]) (by rw [size2,number]; exact Nat.le_max_right ..) (by omega) (by omega)
        rw [update_self] at wrote
        refine ⟨tot',off',s',node,space',size,ran',extends1.trans (extends2.trans extends'),⟨by omega,most',by omega⟩,?_,wrote,?_⟩
        · rw [ended,size2,number]
          omega
        · rw [update_idem] at denotes'
          convert denotes' using 1
          simp only [growing,update_idem,update_self]
    · rw [if_neg more,if_neg more]
      refine ⟨tot,off,s,nodes i,space,(d i).size,rfl,.refl s ip,⟨Nat.le_refl tot,inside,rfl⟩,most.symm,rfl,.growing ?_⟩
      rw [withAddrs_eq same]
      exact denotes

theorem Denotes.setDinode (denotes : Denotes s.sb s.disk data d nodes space) (known : Fs.State.known s.sb.ninodes.toNat i)
    (others : ∀ j, Fs.State.known s.sb.ninodes.toNat j → j ≠ i → d j = s.dinode j) :
    Denotes s.sb (s.setDinode i (d i)).disk data (s.setDinode i (d i)).dinode nodes space := by
  have geometry := denotes.shape.geometry
  refine denotes.outside (fun b small => geometry.setDinode_used known.2 (d i) small)
    (fun b high => geometry.setDinode_above known.2 (d i) high) fun j known' => ?_
  rw [dinode_setDinode]
  split_ifs with mine
  · rw [mine]
  · exact (others j known' mine).symm

/-- The slot has an allocated inode of the disk in memory. -/
structure Cached (s : State) (ip : Slot) (i : Nat) : Prop where
  number : (s.inode ip).inum = i
  allocated : Allocated s.sb s.dinode i
  din : (s.inode ip).din = s.dinode i

theorem writei_refused {src : Nat → Option Byte} {off n : BitVec 32}
    (bad : (s.inode ip).din.size.toNat < off.toNat ∨ 2 ^ 32 ≤ off.toNat + n.toNat ∨ maxBytes < off.toNat + n.toNat) :
    s.writei ip src off n = .ok (-1,s) := by
  have most : (BitVec.ofNat 32 (maxfile * bsize)).toNat = maxBytes := by decide
  have small := n.isLt
  unfold State.writei
  simp only [BitVec.lt_def,BitVec.toNat_add,most]
  split_ifs
  · rfl
  · rfl
  · omega

/-- writei on the blocks is the write of the abstract store on the contents. -/
theorem writei_refines (src : Nat → Option Byte) {off n : BitVec 32} (denotes : Denotes s.sb s.disk data s.dinode nodes space)
    (cached : Cached s ip i) (place : off.toNat ≤ (s.dinode i).size.toNat) (fits : off.toNat + n.toNat ≤ maxBytes) :
    ∃ (tot : Nat) (s' : State) (node : Node) (space' : Space), s.writei ip src off n = .ok (tot,s') ∧ tot ≤ n.toNat ∧
      Fs.State.writeFrom i src n.toNat n.toNat 0 off.toNat (nodes i) space = (tot,node,space') ∧
      s'.sb = s.sb ∧ s'.handles = s.handles ∧ s'.inode = update s.inode ip { s.inode ip with din := s'.dinode i } ∧
      (s'.dinode i).attr = (s.dinode i).attr ∧ (∀ j, Fs.State.known s.sb.ninodes.toNat j → j ≠ i → s'.dinode j = s.dinode j) ∧
      Denotes s'.sb s'.disk data s'.dinode (update nodes i node) space' := by
  have most : (BitVec.ofNat 32 (maxfile * bsize)).toNat = maxBytes := by decide
  have limit : maxBytes < 2 ^ 32 := by decide
  have small := n.isLt
  have alloc := cached.allocated
  unfold State.writei
  simp only [BitVec.lt_def,BitVec.toNat_add,most,cached.din]
  rw [if_neg (by omega),if_neg (by omega)]
  obtain ⟨tot,off',s1,node,space',size,ran,more,⟨-,least,moved⟩,ended,wrote,denotes1⟩ :=
    @writeiFrom_refines s ip data i s.dinode nodes space src n.toNat n.toNat 0 off.toNat denotes alloc
      (by rw [cached.din]) place (Nat.zero_le _) fits
  have din1 : (s1.inode ip).din = { s.dinode i with addrs := (s1.inode ip).din.addrs } := by
    conv_lhs => rw [more.same,cached.din]
  have number1 : (s1.inode ip).inum = i := by rw [more.same]; exact cached.number
  rw [ran]
  -- the size in memory becomes what the loop has reached
  generalize resized : (if (s1.inode ip).din.size.toNat < off' then
    s1.setDin ip { (s1.inode ip).din with size := BitVec.ofNat 32 off' } else s1 : State) = s2
  have number : (BitVec.ofNat 32 off').toNat = off' := by
    rw [BitVec.toNat_ofNat]
    exact Nat.mod_eq_of_lt (by omega)
  have frame2 : s2.sb = s1.sb ∧ s2.handles = s1.handles ∧ s2.disk = s1.disk ∧
      s2.inode = update s.inode ip { s.inode ip with din := growing s.dinode i (s1.inode ip).din.addrs size i } := by
    have slots : ∀ din : Dinode, update s1.inode ip { s1.inode ip with din := din } =
        update s.inode ip { s.inode ip with din := din } := by
      intro din
      funext j
      rw [update_apply,update_apply]
      split_ifs with mine
      · rw [more.same]
      · exact more.others j mine
    rw [growing,update_self,← slots,← resized]
    split_ifs with longer
    · refine ⟨rfl,rfl,rfl,?_⟩
      have grown : BitVec.ofNat 32 off' = size := by
        apply BitVec.eq_of_toNat_eq
        rw [din1] at longer
        dsimp only at longer
        rw [number,ended]
        omega
      conv_lhs => rw [State.setDin,State.setInode,din1,grown]
    · refine ⟨rfl,rfl,rfl,?_⟩
      have same : size = (s.dinode i).size := by
        apply BitVec.eq_of_toNat_eq
        rw [din1] at longer
        dsimp only at longer
        rw [ended]
        omega
      rw [same]
      conv_lhs => rw [← update_eq_self ip s1.inode]
      refine congrArg (update s1.inode ip) ?_
      conv_lhs => rw [more.same,cached.din]
      rw [more.same]
  obtain ⟨sb2,handles2,disk2,inodes2⟩ := frame2
  have slot2 : s2.inode ip = { s.inode ip with din := growing s.dinode i (s1.inode ip).din.addrs size i } := by
    rw [inodes2,update_self]
  have flush : s2.iupdate ip = s2.setDinode i (growing s.dinode i (s1.inode ip).din.addrs size i) := by
    rw [State.iupdate,slot2]
    dsimp only
    rw [cached.number]
  have denotes2 : Denotes s2.sb s2.disk data (growing s.dinode i (s1.inode ip).din.addrs size)
      (update nodes i node) space' := by rw [sb2,disk2]; exact denotes1
  have dinodes2 : ∀ j < s.sb.ninodes.toNat, s2.dinode j = s.dinode j := by
    intro j known
    rw [← more.dinodes j known,State.dinode,State.dinode,sb2,disk2]
  have known2 : Fs.State.known s2.sb.ninodes.toNat i := by rw [sb2,more.sb]; exact alloc.known
  refine ⟨tot,s2.iupdate ip,node,space',by rw [← resized]; rfl,least,wrote,sb2.trans more.sb,handles2.trans more.handles,?_,?_,fun j known other => ?_,?_⟩
  · change s2.inode = _
    rw [flush,dinode_setDinode,if_pos rfl,inodes2]
  · rw [flush,dinode_setDinode,if_pos rfl,growing,update_self]
  · rw [flush,dinode_setDinode,if_neg other]
    exact dinodes2 j known.2
  · rw [flush]
    refine denotes2.setDinode known2 fun j known other => ?_
    rw [growing,update_of_ne other,dinodes2 j]
    rw [sb2,more.sb] at known
    exact known.2

end Xv6.Fs.Blocks
