import Xv6.Fs.Logged

/-! Block ownership. A block is addressed from the addrs[] of an inode or from its
indirect block, and the bit map says which blocks are. Truncating an inode frees
exactly its blocks. -/
namespace Xv6.Fs.Blocks
open Lib Lib.Bytes Function
open Log (Block Disk)
variable {din : Dinode} {node : Inode} {b : Nat}

/-! The bit map. -/

theorem mask_bit {i j : Nat} (small : j < 8) : (BitVec.ofNat 8 (1 <<< i)).getLsbD j = decide (j = i) := by
  rw [BitVec.getLsbD_ofNat,decide_eq_true small,Bool.true_and,Nat.one_shiftLeft,Nat.testBit_two_pow]
  exact decide_eq_decide.mpr eq_comm

theorem setBit_same (data : Block) (bi : Nat) (used : Bool) : (State.setBit data bi used (bi / 8)).getLsbD (bi % 8) = used := by
  have small := Nat.mod_lt bi (show 0 < 8 by decide)
  have bit := mask_bit (i := bi % 8) small
  cases used <;> simp_all [State.setBit]

theorem setBit_ne (data : Block) {bi ci : Nat} (used : Bool) (other : ci ≠ bi) :
    (State.setBit data bi used (ci / 8)).getLsbD (ci % 8) = (data (ci / 8)).getLsbD (ci % 8) := by
  have small := Nat.mod_lt ci (show 0 < 8 by decide)
  by_cases byte : ci / 8 = bi / 8
  · have apart : ci % 8 ≠ bi % 8 := by omega
    have bit := mask_bit (i := bi % 8) small
    cases used <;> simp_all [State.setBit]
  · simp [State.setBit,byte]

theorem used_mark (s : State) (b c : Nat) (used : Bool) : (s.mark b used).used c = if c = b then used else s.used c := by
  have place : ∀ c, c % bpb % 8 = c % 8 := fun c => Nat.mod_mod_of_dvd c (by decide)
  unfold State.used State.mark State.setBlock inUse
  dsimp only
  rw [← place c,update_apply]
  split_ifs with block same same
  · rw [same,setBit_same]
  · rw [setBit_ne,block]
    unfold bblock bpb bsize at *
    omega
  · exact absurd (by rw [same]) block
  · rfl

/-! References. -/

inductive Ref
  | addr (k : AddrId)
  | entry (j : Fin nindirect)
  deriving DecidableEq

def target (disk : Disk) (din : Dinode) : Ref → BitVec 32
  | .addr k => din.addrs k
  | .entry j => if din.addrs indirectId = 0 then 0 else get32 (disk (din.addrs indirectId).toNat) j

/-- The blocks below `data` are boot, super, log, inode and bit map blocks. -/
structure Geometry (sb : Superblock) (data : Nat) : Prop where
  inside : data ≤ sb.size.toNat
  inodes : ∀ i < sb.ninodes.toNat, iblock sb.inodestart.toNat i < data
  bitmap : ∀ b < sb.size.toNat, bblock sb.bmapstart.toNat b < data
  apart : ∀ i < sb.ninodes.toNat, ∀ b < sb.size.toNat, iblock sb.inodestart.toNat i ≠ bblock sb.bmapstart.toNat b

structure Held (s : State) (data : Nat) (din : Dinode) : Prop where
  range : ∀ ref, target s.disk din ref ≠ 0 →
    data ≤ (target s.disk din ref).toNat ∧ (target s.disk din ref).toNat < s.sb.size.toNat
  used : ∀ ref, target s.disk din ref ≠ 0 → s.used (target s.disk din ref).toNat = true
  once : ∀ ref ref', target s.disk din ref ≠ 0 → target s.disk din ref = target s.disk din ref' → ref = ref'

/-! Truncation. -/

def Bitmap (sb : Superblock) (b : Nat) : Prop := ∃ c < sb.size.toNat, b = bblock sb.bmapstart.toNat c

/-- Bits of the bit map are cleared, and nothing else on the disk changes. -/
structure Frees (s s' : State) (freed : Nat → Prop) : Prop where
  sb : s'.sb = s.sb
  handles : s'.handles = s.handles
  log : Logs s s' (Bitmap s.sb)
  bits : ∀ b < s.sb.size.toNat, s'.used b = true ↔ s.used b = true ∧ ¬freed b
  blocks : ∀ b, (∀ c < s.sb.size.toNat, b ≠ bblock s.sb.bmapstart.toNat c) → s'.disk b = s.disk b

namespace Frees
variable {s s' s'' : State} {freed freed' : Nat → Prop}

theorem refl (s : State) : Frees s s fun _ => False := ⟨rfl,rfl,.refl s,fun _ _ => by simp,fun _ _ => rfl⟩

theorem trans (first : Frees s s' freed) (second : Frees s' s'' freed') :
    Frees s s'' fun b => freed b ∨ freed' b := by
  refine ⟨second.sb.trans first.sb,second.handles.trans first.handles,first.log.trans (first.sb ▸ second.log),
    fun b small => ?_,fun b other => ?_⟩
  · rw [second.bits b (by rw [first.sb]; exact small),first.bits b small,not_or,and_assoc]
  · rw [second.blocks b (by rw [first.sb]; exact other),first.blocks b other]

theorem congr (frees : Frees s s' freed) (same : ∀ b, freed b ↔ freed' b) : Frees s s' freed' :=
  ⟨frees.sb,frees.handles,frees.log,fun b small => by rw [frees.bits b small,same b],frees.blocks⟩

theorem inode (frees : Frees s s' freed) (table : Slot → Inode) : Frees s { s' with inode := table } freed :=
  ⟨frees.sb,frees.handles,frees.log.inode table,frees.bits,frees.blocks⟩

theorem above (frees : Frees s s' freed) {data : Nat} (geometry : Geometry s.sb data) (high : data ≤ b) :
    s'.disk b = s.disk b := by
  refine frees.blocks b fun c small same => ?_
  have low := geometry.bitmap c small
  omega

end Frees

/-! Dinodes. -/

theorem dinode_setDinode (s : State) (i j : Nat) (din : Dinode) :
    (s.setDinode i din).dinode j = if j = i then din else s.dinode j := by
  split_ifs with same
  · rw [same]
    exact dinodeAt_set_same ..
  · exact dinodeAt_set_ne _ _ _ same

namespace Geometry
variable {s : State} {data i : Nat}

theorem setDinode_used (geometry : Geometry s.sb data) (known : i < s.sb.ninodes.toNat) (din : Dinode)
    (inside : b < s.sb.size.toNat) : (s.setDinode i din).used b = s.used b := by
  unfold State.used State.setDinode State.setBlock inUse
  dsimp only
  rw [update_of_ne (geometry.apart i known b inside).symm]

theorem setDinode_above (geometry : Geometry s.sb data) (known : i < s.sb.ninodes.toNat) (din : Dinode)
    (high : data ≤ b) : (s.setDinode i din).disk b = s.disk b := by
  have low := geometry.inodes i known
  exact update_of_ne (by omega) ..

end Geometry

theorem Frees.dinode {s s' : State} {freed : Nat → Prop} {data i : Nat} (frees : Frees s s' freed)
    (geometry : Geometry s.sb data) (known : i < s.sb.ninodes.toNat) : s'.dinode i = s.dinode i := by
  have same := frees.blocks _ fun c small => geometry.apart i known c small
  unfold State.dinode dinodeAt
  rw [frees.sb,same]

theorem bfree_frees {s : State} {b : BitVec 32} (used : s.used b.toNat = true) (inside : b.toNat < s.sb.size.toNat) :
    ∃ s', s.bfree b = .ok s' ∧ s'.inode = s.inode ∧ Frees s s' (· = b.toNat) := by
  refine ⟨s.mark b.toNat false,if_pos used,rfl,rfl,rfl,(mark_logs s _ _).mono fun c same => ⟨_,inside,same⟩,
    fun c _ => ?_,fun c other => ?_⟩
  · rw [used_mark]
    split_ifs with same <;> simp [same]
  · exact update_of_ne (other _ inside) ..

section
variable {s : State} {ip : Slot}

def without (din : Dinode) (ids : List AddrId) : Dinode :=
  { din with addrs := fun k => if k ∈ ids then 0 else din.addrs k }

theorem without_nil (din : Dinode) : without din [] = din := by
  simp [without]

theorem without_cons (din : Dinode) (k : AddrId) (ids : List AddrId) :
    without din (k :: ids) = without { din with addrs := update din.addrs k 0 } ids := by
  simp only [without,Dinode.mk.injEq,true_and]
  funext k'
  by_cases same : k' = k
  · simp [same]
  · simp [same]

theorem truncDirect_frees (ids : List AddrId) (at_ : s.inode ip = node) (nodup : ids.Nodup)
    (used : ∀ k ∈ ids, node.din.addrs k ≠ 0 → s.used (node.din.addrs k).toNat = true ∧
      (node.din.addrs k).toNat < s.sb.size.toNat)
    (once : ∀ k k', node.din.addrs k ≠ 0 → node.din.addrs k = node.din.addrs k' → k = k') :
    ∃ s', State.truncDirect ip ids s = .ok s' ∧ s'.inode = update s.inode ip { node with din := without node.din ids } ∧
      Frees s s' fun b => ∃ k ∈ ids, node.din.addrs k ≠ 0 ∧ (node.din.addrs k).toNat = b := by
  induction ids generalizing s node with
  | nil =>
    refine ⟨s,rfl,?_,(Frees.refl s).congr (by simp)⟩
    rw [without_nil,← at_]
    exact (update_eq_self ip s.inode).symm
  | cons k rest ih =>
    obtain ⟨new,nodup⟩ := List.nodup_cons.mp nodup
    rw [State.truncDirect,at_]
    split_ifs with none
    · obtain ⟨s',ran,table,frees⟩ := ih at_ nodup (fun k' inside => used k' (.tail _ inside)) once
      have same : update node.din.addrs k 0 = node.din.addrs := by
        rw [← none]
        exact update_eq_self k _
      refine ⟨s',ran,by rw [table,without_cons,same],frees.congr fun b => by simp [none]⟩
    · obtain ⟨use,inside⟩ := used k (.head _) none
      obtain ⟨s1,freed,table1,frees1⟩ := bfree_frees use inside
      rw [freed]
      have here : s1.inode ip = node := by rw [table1,at_]
      have other : ∀ k' ∈ rest, k' ≠ k := fun k' later same => new (same ▸ later)
      have frees2 : Frees s (s1.setAddr ip k 0) (· = (node.din.addrs k).toNat) := frees1.inode _
      have used' : ∀ k' ∈ rest, update node.din.addrs k 0 k' ≠ 0 →
          (s1.setAddr ip k 0).used (update node.din.addrs k 0 k').toNat = true ∧
            (update node.din.addrs k 0 k').toNat < (s1.setAddr ip k 0).sb.size.toNat := by
        intro k' later nonzero
        rw [update_of_ne (other k' later)] at nonzero ⊢
        obtain ⟨use',inside'⟩ := used k' (.tail _ later) nonzero
        rw [frees2.bits _ inside',frees2.sb]
        refine ⟨⟨use',fun same => ?_⟩,inside'⟩
        exact other k' later (once k' k nonzero (BitVec.eq_of_toNat_eq same))
      have once' : ∀ k1 k2, update node.din.addrs k 0 k1 ≠ 0 →
          update node.din.addrs k 0 k1 = update node.din.addrs k 0 k2 → k1 = k2 := by
        intro k1 k2 nonzero equal
        by_cases first : k1 = k
        · rw [first,update_self] at nonzero
          exact absurd rfl nonzero
        · grind [update_apply]
      have there : (s1.setAddr ip k 0).inode ip =
          { node with din := { node.din with addrs := update node.din.addrs k 0 } } := by
        simp [State.setAddr,State.setDin,State.setInode,here]
      obtain ⟨s',ran,table,frees⟩ := ih there nodup used' once'
      refine ⟨s',ran,?_,(frees2.trans frees).congr fun b => ?_⟩
      · rw [table,without_cons]
        simp [State.setAddr,State.setDin,State.setInode,table1]
      · grind [Frees,update_apply]

theorem truncEntries_frees {a : Block} {entries : List Nat} (nodup : entries.Nodup)
    (used : ∀ j ∈ entries, get32 a j ≠ 0 → s.used (get32 a j).toNat = true ∧ (get32 a j).toNat < s.sb.size.toNat)
    (once : ∀ j ∈ entries, ∀ j' ∈ entries, get32 a j ≠ 0 → get32 a j = get32 a j' → j = j') :
    ∃ s', State.truncEntries a entries s = .ok s' ∧ s'.inode = s.inode ∧
      Frees s s' fun b => ∃ j ∈ entries, get32 a j ≠ 0 ∧ (get32 a j).toNat = b := by
  induction entries generalizing s with
  | nil => exact ⟨s,rfl,rfl,(Frees.refl s).congr (by simp)⟩
  | cons j rest ih =>
    obtain ⟨new,nodup⟩ := List.nodup_cons.mp nodup
    have once' : ∀ j' ∈ rest, ∀ j'' ∈ rest, get32 a j' ≠ 0 → get32 a j' = get32 a j'' → j' = j'' :=
      fun j' later j'' later' => once j' (.tail _ later) j'' (.tail _ later')
    rw [State.truncEntries]
    split_ifs with none
    · obtain ⟨s',ran,table,frees⟩ := ih nodup (fun j' later => used j' (.tail _ later)) once'
      exact ⟨s',ran,table,frees.congr fun b => by simp [none]⟩
    · obtain ⟨use,inside⟩ := used j (.head _) none
      obtain ⟨s1,freed,table1,frees1⟩ := bfree_frees use inside
      rw [freed]
      have used' : ∀ j' ∈ rest, get32 a j' ≠ 0 →
          s1.used (get32 a j').toNat = true ∧ (get32 a j').toNat < s1.sb.size.toNat := by
        intro j' later nonzero
        obtain ⟨use',inside'⟩ := used j' (.tail _ later) nonzero
        rw [frees1.bits _ inside',frees1.sb]
        refine ⟨⟨use',fun same => ?_⟩,inside'⟩
        exact new (once j' (.tail _ later) j (.head _) nonzero (BitVec.eq_of_toNat_eq same) ▸ later)
      obtain ⟨s',ran,table,frees⟩ := ih nodup used' once'
      refine ⟨s',ran,table.trans table1,(frees1.trans frees).congr fun b => ?_⟩
      simp only [List.exists_mem_cons_iff]
      exact or_congr ⟨fun same => ⟨none,same.symm⟩,fun same => same.2.symm⟩ Iff.rfl

def Ref.isIndirect : Ref → Prop
  | .addr k => k = indirectId
  | .entry _ => True

theorem truncIndirect_frees (at_ : s.inode ip = node)
    (used : ∀ ref, ref.isIndirect → target s.disk node.din ref ≠ 0 →
      s.used (target s.disk node.din ref).toNat = true ∧ (target s.disk node.din ref).toNat < s.sb.size.toNat)
    (once : ∀ ref ref', target s.disk node.din ref ≠ 0 → target s.disk node.din ref = target s.disk node.din ref' → ref = ref') :
    ∃ s', s.truncIndirect ip = .ok s' ∧ s'.inode = update s.inode ip { node with din := without node.din [indirectId] } ∧
      Frees s s' fun b => ∃ ref : Ref, ref.isIndirect ∧ target s.disk node.din ref ≠ 0 ∧
        (target s.disk node.din ref).toNat = b := by
  rw [State.truncIndirect,at_]
  split_ifs with none
  · refine ⟨s,rfl,?_,(Frees.refl s).congr fun b => ?_⟩
    · have same : update node.din.addrs indirectId 0 = node.din.addrs := by
        rw [← none]
        exact update_eq_self ..
      rw [without_cons,same,without_nil,← at_]
      exact (update_eq_self ip s.inode).symm
    · refine ⟨False.elim,?_⟩
      rintro ⟨ref,indirect,nonzero,-⟩
      cases ref with
      | addr k => exact nonzero (indirect ▸ none)
      | entry j => exact nonzero (if_pos none)
  · have entry : ∀ j : Fin nindirect, target s.disk node.din (.entry j) = get32 (s.disk (node.din.addrs indirectId).toNat) j :=
      fun j => if_neg none
    have index : ∀ j ∈ List.range nindirect, ∃ k : Fin nindirect, k.val = j := fun j inside => ⟨⟨j,List.mem_range.mp inside⟩,rfl⟩
    obtain ⟨s1,ran1,table1,frees1⟩ := truncEntries_frees (s := s) (a := s.disk (node.din.addrs indirectId).toNat)
      List.nodup_range
      (fun j inside nonzero => by
        obtain ⟨k,rfl⟩ := index j inside
        rw [← entry] at nonzero ⊢
        exact used (.entry k) trivial nonzero)
      (fun j inside j' inside' nonzero equal => by
        obtain ⟨k,rfl⟩ := index j inside
        obtain ⟨k',rfl⟩ := index j' inside'
        rw [← entry,← entry] at equal
        rw [← entry] at nonzero
        cases once _ _ nonzero equal
        rfl)
    have freed1 : ∀ b, (∃ j ∈ List.range nindirect, get32 (s.disk (node.din.addrs indirectId).toNat) j ≠ 0 ∧
        (get32 (s.disk (node.din.addrs indirectId).toNat) j).toNat = b) ↔
          ∃ j, target s.disk node.din (.entry j) ≠ 0 ∧ (target s.disk node.din (.entry j)).toNat = b := by
      intro b
      constructor
      · rintro ⟨j,inside,nonzero,same⟩
        obtain ⟨k,rfl⟩ := index j inside
        exact ⟨k,by rwa [entry],by rwa [entry]⟩
      · rintro ⟨j,nonzero,same⟩
        rw [entry] at nonzero same
        exact ⟨j,List.mem_range.mpr j.isLt,nonzero,same⟩
    have frees1 := frees1.congr freed1
    obtain ⟨use,inside⟩ := used (.addr indirectId) rfl none
    have use1 : s1.used (node.din.addrs indirectId).toNat = true := by
      refine (frees1.bits _ inside).mpr ⟨use,?_⟩
      rintro ⟨j,nonzero,same⟩
      cases once _ (.addr indirectId) nonzero (BitVec.eq_of_toNat_eq same)
    obtain ⟨s2,ran2,table2,frees2⟩ := bfree_frees use1 (by rw [frees1.sb]; exact inside)
    have here : s2.inode ip = node := by rw [table2,table1,at_]
    refine ⟨s2.setAddr ip indirectId 0,?_,?_,((frees1.trans frees2).inode _).congr fun b => ?_⟩
    · rw [ran1]
      change (s1.bfree (node.din.addrs indirectId) >>= fun s => pure (s.setAddr ip indirectId 0)) = _
      rw [ran2]
      rfl
    · simp only [State.setAddr,State.setDin,State.setInode,here,table2,table1]
      rw [without_cons,without_nil]
    · constructor
      · rintro (⟨j,nonzero,same⟩ | same)
        · exact ⟨.entry j,trivial,nonzero,same⟩
        · exact ⟨.addr indirectId,rfl,none,same.symm⟩
      · rintro ⟨ref,indirect,nonzero,same⟩
        cases ref with
        | addr k =>
          cases indirect
          exact .inr same.symm
        | entry j => exact .inl ⟨j,nonzero,same⟩

def directIds : List AddrId := (List.finRange ndirect).map Fin.castSucc

theorem mem_directIds {k : AddrId} : k ∈ directIds ↔ k ≠ indirectId := by
  revert k
  decide

theorem target_without {s' : State} {data : Nat} {freed : Nat → Prop} (geometry : Geometry s.sb data)
    (held : Held s data din) (frees : Frees s s' freed) (ref : Ref) :
    (ref.isIndirect → target s'.disk (without din directIds) ref = target s.disk din ref) ∧
      (¬ref.isIndirect → target s'.disk (without din directIds) ref = 0) := by
  have kept : (without din directIds).addrs indirectId = din.addrs indirectId := by
    simp [without,mem_directIds]
  cases ref with
  | addr k =>
    refine ⟨?_,fun direct => if_pos (mem_directIds.mpr direct)⟩
    rintro rfl
    exact kept
  | entry j =>
    refine ⟨fun _ => ?_,fun none => absurd trivial none⟩
    rw [target,target,kept]
    split_ifs with none
    · rfl
    · have same : s'.disk (din.addrs indirectId).toNat = s.disk (din.addrs indirectId).toNat :=
        frees.above geometry (held.range (.addr indirectId) none).1
      rw [same]

theorem itrunc_frees {data : Nat} (at_ : s.inode ip = node) (geometry : Geometry s.sb data)
    (held : Held s data node.din) :
    ∃ s1, s.itrunc ip = .ok (s1.iupdate ip) ∧
      s1.inode = update s.inode ip { node with din := ⟨node.din.attr,0,fun _ => 0⟩ } ∧
      Frees s s1 fun b => ∃ ref, target s.disk node.din ref ≠ 0 ∧ (target s.disk node.din ref).toNat = b := by
  obtain ⟨s1,ran1,table1,frees1⟩ := truncDirect_frees directIds at_ (by decide)
    (fun k _ nonzero => ⟨held.used (.addr k) nonzero,(held.range (.addr k) nonzero).2⟩)
    (fun k k' nonzero equal => by
      cases held.once (.addr k) (.addr k') nonzero equal
      rfl)
  have here : s1.inode ip = { node with din := without node.din directIds } := by rw [table1,update_self]
  have left := target_without geometry held frees1
  obtain ⟨s2,ran2,table2,frees2⟩ := truncIndirect_frees here
    (fun ref indirect nonzero => by
      rw [(left ref).1 indirect] at nonzero ⊢
      obtain ⟨-,inside⟩ := held.range ref nonzero
      rw [frees1.bits _ inside,frees1.sb]
      refine ⟨⟨held.used ref nonzero,?_⟩,inside⟩
      rintro ⟨k,direct,nonzero',same⟩
      cases held.once ref (.addr k) nonzero (BitVec.eq_of_toNat_eq same.symm)
      exact mem_directIds.mp direct indirect)
    (fun ref ref' nonzero equal => by
      have keeps : ∀ ref, target s1.disk (without node.din directIds) ref ≠ 0 → ref.isIndirect := by
        intro ref nonzero
        by_contra direct
        exact nonzero ((left ref).2 direct)
      have first := keeps ref nonzero
      have second := keeps ref' (equal ▸ nonzero)
      rw [(left ref).1 first] at nonzero equal
      rw [(left ref').1 second] at equal
      exact held.once ref ref' nonzero equal)
  have gone : without (without node.din directIds) [indirectId] = { node.din with addrs := fun _ => 0 } := by
    simp only [without,Dinode.mk.injEq,true_and]
    funext k
    by_cases last : k = indirectId
    · simp [last]
    · simp [last,mem_directIds]
  have table : s2.inode = update s.inode ip { node with din := { node.din with addrs := fun _ => 0 } } := by
    rw [table2,table1,update_idem,gone]
  have there : s2.inode ip = { node with din := { node.din with addrs := fun _ => 0 } } := by
    rw [table,update_self]
  refine ⟨s2.setDin ip ⟨node.din.attr,0,fun _ => 0⟩,?_,?_,((frees1.trans frees2).inode _).congr fun b => ?_⟩
  · rw [State.itrunc]
    change (State.truncDirect ip directIds s >>= fun s => s.truncIndirect ip >>= fun s => pure _) = _
    rw [ran1]
    change (s1.truncIndirect ip >>= fun s => pure _) = _
    rw [ran2]
    change Except.ok _ = _
    rw [there]
  · simp only [State.setDin,State.setInode,there]
    rw [table,update_idem]
  · constructor
    · rintro (⟨k,-,nonzero,same⟩ | ⟨ref,indirect,nonzero,same⟩)
      · exact ⟨.addr k,nonzero,same⟩
      · rw [(left ref).1 indirect] at nonzero same
        exact ⟨ref,nonzero,same⟩
    · rintro ⟨ref,nonzero,same⟩
      by_cases indirect : ref.isIndirect
      · refine .inr ⟨ref,indirect,?_⟩
        rw [(left ref).1 indirect]
        exact ⟨nonzero,same⟩
      · cases ref with
        | addr k => exact .inl ⟨k,mem_directIds.mpr indirect,nonzero,same⟩
        | entry j => exact absurd trivial indirect

/-- The last reference to an inode without links frees its blocks and the inode. -/
structure Released (s s' : State) (data : Nat) (ip : Slot) (inum : Nat) (din : Dinode) : Prop where
  sb : s'.sb = s.sb
  handles : s'.handles = s.handles
  log : Logs s s' fun b => Bitmap s.sb b ∨ b = iblock s.sb.inodestart.toNat inum
  table : s'.inode = update s.inode ip ⟨inum,0,false,false,⟨{ din.attr with type := 0 },0,fun _ => 0⟩⟩
  dinodes : ∀ i < s.sb.ninodes.toNat,
    s'.dinode i = if i = inum then ⟨{ din.attr with type := 0 },0,fun _ => 0⟩ else s.dinode i
  blocks : ∀ b, data ≤ b → s'.disk b = s.disk b
  bits : ∀ b < s.sb.size.toNat, s'.used b = true ↔
    s.used b = true ∧ ¬∃ ref, target s.disk din ref ≠ 0 ∧ (target s.disk din ref).toNat = b

theorem iput_released {data inum : Nat} (at_ : s.inode ip = ⟨inum,1,true,false,din⟩)
    (geometry : Geometry s.sb data) (known : inum < s.sb.ninodes.toNat) (held : Held s data din)
    (orphan : din.attr.nlink = 0) : ∃ s', s.iput ip = .ok s' ∧ Released s s' data ip inum din := by
  obtain ⟨s1,ran,table,frees⟩ := itrunc_frees at_ geometry held
  have here : s1.inode ip = ⟨inum,1,true,false,⟨din.attr,0,fun _ => 0⟩⟩ := by rw [table,update_self]
  have geometry1 : Geometry s1.sb data := by rwa [frees.sb]
  have known1 : inum < s1.sb.ninodes.toNat := by rwa [frees.sb]
  refine ⟨{ (s1.setDinode inum ⟨din.attr,0,fun _ => 0⟩).setDinode inum ⟨{ din.attr with type := 0 },0,fun _ => 0⟩ with
    inode := update s1.inode ip ⟨inum,0,false,false,⟨{ din.attr with type := 0 },0,fun _ => 0⟩⟩ },?_,?_⟩
  · rw [State.iput,at_]
    simp only [orphan,and_self,if_true,ran]
    simp [Except.bind,bind,pure,Except.pure,State.iupdate,State.setDin,State.setInode,State.setDinode,State.setBlock,here,orphan]
  · refine ⟨frees.sb,frees.handles,?_,?_,fun i small => ?_,fun b high => ?_,fun b inside => ?_⟩
    · refine (frees.log.mono fun b bitmap => .inl bitmap).trans ?_
      have number : iblock s1.sb.inodestart.toNat inum = iblock s.sb.inodestart.toNat inum := by rw [frees.sb]
      exact ((Logs.setDinode s1 _ (.inr number)).trans (.setDinode (s1.setDinode inum _) _ (.inr number))).inode _
    · simp [table]
    · change ((s1.setDinode inum _).setDinode inum _).dinode i = _
      rw [dinode_setDinode,dinode_setDinode,frees.dinode geometry small]
      split_ifs <;> rfl
    · change ((s1.setDinode inum _).setDinode inum _).disk b = _
      rw [Geometry.setDinode_above (s := s1.setDinode inum _) geometry1 known1 _ high,
        geometry1.setDinode_above known1 _ high,frees.above geometry high]
    · change ((s1.setDinode inum _).setDinode inum _).used b = _ ↔ _
      rw [Geometry.setDinode_used (s := s1.setDinode inum _) geometry1 known1 _ (by rwa [← frees.sb] at inside),
        geometry1.setDinode_used known1 _ (by rwa [← frees.sb] at inside),frees.bits b inside]

end

/-! Consistent images. -/

/-- Inode `i` refers to block `b`. -/
structure Owns (s : State) (i : Nat) (ref : Ref) (b : Nat) : Prop where
  first : 0 < i
  last : i < s.sb.ninodes.toNat
  allocated : (s.dinode i).attr.type ≠ 0
  nonzero : target s.disk (s.dinode i) ref ≠ 0
  block : (target s.disk (s.dinode i) ref).toNat = b

/-- The bit map marks the blocks below `data` and those that an allocated inode
refers to, and no block is referred to twice. -/
structure Consistent (s : State) (data : Nat) : Prop where
  geometry : Geometry s.sb data
  areas : ∀ b < data, s.used b = true
  blocks : ∀ b, data ≤ b → b < s.sb.size.toNat → (s.used b = true ↔ ∃ i ref, Owns s i ref b)
  range : ∀ i ref b, Owns s i ref b → data ≤ b ∧ b < s.sb.size.toNat
  once : ∀ i ref i' ref' b, Owns s i ref b → Owns s i' ref' b → i = i' ∧ ref = ref'

/-- Every block below the end of an allocated inode has an address. -/
structure HoleFree (s : State) : Prop where
  size : ∀ i, 0 < i → i < s.sb.ninodes.toNat → (s.dinode i).attr.type ≠ 0 → (s.dinode i).size.toNat ≤ maxfile * bsize
  mapped : ∀ i, 0 < i → i < s.sb.ninodes.toNat → (s.dinode i).attr.type ≠ 0 → ∀ k, k * bsize < (s.dinode i).size.toNat →
    blockAt s.disk (s.dinode i) k ≠ 0

theorem Consistent.held {s : State} {data i : Nat} (consistent : Consistent s data) (first : 0 < i)
    (last : i < s.sb.ninodes.toNat) (allocated : (s.dinode i).attr.type ≠ 0) : Held s data (s.dinode i) := by
  have owns : ∀ ref, target s.disk (s.dinode i) ref ≠ 0 → Owns s i ref (target s.disk (s.dinode i) ref).toNat :=
    fun ref nonzero => ⟨first,last,allocated,nonzero,rfl⟩
  refine ⟨fun ref nonzero => consistent.range i ref _ (owns ref nonzero),fun ref nonzero => ?_,fun ref ref' nonzero equal => ?_⟩
  · obtain ⟨low,high⟩ := consistent.range i ref _ (owns ref nonzero)
    exact (consistent.blocks _ low high).mpr ⟨i,ref,owns ref nonzero⟩
  · exact (consistent.once i ref i ref' _ (owns ref nonzero) (equal ▸ owns ref' (equal ▸ nonzero))).2

end Xv6.Fs.Blocks
