import Xv6.Lib.Keyed
import Xv6.Fs.Entries
import Xv6.Fs.Transfers

/-! Directories on the disk as finite maps from names to inode numbers. -/
namespace Xv6.Fs
open Lib Lib.Bytes Function
variable {inum off : Nat}

/-! The entries as a map. -/

def Dirent.key (de : Dirent) : Option (List Byte) := if de.inum = 0 then none else some (text dirsiz de.name)

theorem Dirent.key_eq_some {de : Dirent} {name : List Byte} : de.key = some (text dirsiz name) ↔ Matches name de := by
  unfold Dirent.key Matches
  rw [namecmp,strncmp_eq_zero]
  by_cases free : de.inum = 0
  · rw [if_pos free]
    exact ⟨by rintro ⟨⟩,fun used => absurd free used.1⟩
  · rw [if_neg free]
    exact ⟨fun same => ⟨free,(Option.some.inj same).symm⟩,fun used => congrArg some used.2.symm⟩

def lookup (entries : List Dirent) (name : List Byte) : Option (Nat × Nat) :=
  (Keyed.find Dirent.key entries (text dirsiz name)).bind fun k => entries[k]?.map fun de => (de.inum.toNat,direntSize * k)

section lookup
variable {entries : List Dirent} {name : List Byte} {k : Nat} {de old : Dirent}

theorem lookup_eq_none : lookup entries name = none ↔ Keyed.find Dirent.key entries (text dirsiz name) = none := by
  rw [lookup,Option.bind_eq_none_iff]
  constructor
  · intro absent
    cases found : Keyed.find Dirent.key entries (text dirsiz name) with
    | none => rfl
    | some k =>
      have missing := absent k found
      rw [Option.map_eq_none_iff] at missing
      have inside := (List.findIdx?_eq_some_iff_getElem.mp found).1
      rw [List.getElem?_eq_getElem inside] at missing
      cases missing
  · intro absent k found
    rw [absent] at found
    cases found

theorem lookup_eq_some (distinct : Keyed.Distinct Dirent.key entries) :
    lookup entries name = some (inum,off) ↔
      ∃ k de, entries[k]? = some de ∧ Matches name de ∧ inum = de.inum.toNat ∧ off = direntSize * k := by
  rw [lookup,Option.bind_eq_some_iff]
  constructor
  · rintro ⟨k,found,read⟩
    obtain ⟨de,here,hit⟩ := (Keyed.find_eq_some distinct).mp found
    rw [here,Option.map_some] at read
    obtain ⟨rfl,rfl⟩ := Prod.mk.inj (Option.some.inj read)
    exact ⟨k,de,here,Dirent.key_eq_some.mp hit,rfl,rfl⟩
  · rintro ⟨k,de,here,hit,rfl,rfl⟩
    exact ⟨k,(Keyed.find_eq_some distinct).mpr ⟨de,here,Dirent.key_eq_some.mpr hit⟩,by rw [here]; rfl⟩

theorem lookup_put_ne (distinct : Keyed.Distinct Dirent.key entries) (inside : k ≤ entries.length)
    (other : ∀ old, entries[k]? = some old → ¬Matches name old)
    (same : Keyed.find Dirent.key (Keyed.put entries k de) (text dirsiz name) = Keyed.find Dirent.key entries (text dirsiz name)) :
    lookup (Keyed.put entries k de) name = lookup entries name := by
  rw [lookup,same,lookup]
  refine Option.bind_congr fun j found => ?_
  obtain ⟨old,here,hit⟩ := (Keyed.find_eq_some distinct).mp found
  rw [Keyed.getElem?_put inside,if_neg]
  rintro rfl
  exact other old here (Dirent.key_eq_some.mp hit)

/-- A new entry is found under its name, and the other names are found as before. -/
theorem lookup_put (distinct : Keyed.Distinct Dirent.key entries) (inside : k ≤ entries.length)
    (free : ∀ old, entries[k]? = some old → old.key = none) (hit : Matches name de) (absent : lookup entries name = none)
    (other : List Byte) : lookup (Keyed.put entries k de) other =
      if text dirsiz other = text dirsiz name then some (de.inum.toNat,direntSize * k) else lookup entries other := by
  have found := Keyed.find_put distinct inside free (Dirent.key_eq_some.mpr hit) (lookup_eq_none.mp absent) (text dirsiz other)
  by_cases same : text dirsiz other = text dirsiz name
  · rw [if_pos same] at found ⊢
    rw [lookup,found,Option.bind_some,Keyed.getElem?_put inside,if_pos rfl]
    rfl
  · rw [if_neg same] at found ⊢
    refine lookup_put_ne distinct inside (fun old here matched => ?_) found
    have vacant := free old here
    rw [Dirent.key_eq_some.mpr matched] at vacant
    cases vacant

/-- A cleared entry takes its name out, and no other. -/
theorem lookup_clear (distinct : Keyed.Distinct Dirent.key entries) (empty : de.key = none)
    (here : entries[k]? = some old) (hit : Matches name old) (other : List Byte) :
    lookup (Keyed.put entries k de) other = if text dirsiz other = text dirsiz name then none else lookup entries other := by
  have inside : k ≤ entries.length := Nat.le_of_lt (List.getElem?_eq_some_iff.mp here).1
  have found := Keyed.find_clear distinct inside empty
    ((Keyed.find_eq_some distinct).mpr ⟨old,here,Dirent.key_eq_some.mpr hit⟩) (text dirsiz other)
  by_cases same : text dirsiz other = text dirsiz name
  · rw [if_pos same] at found ⊢
    exact lookup_eq_none.mpr found
  · rw [if_neg same] at found ⊢
    refine lookup_put_ne distinct inside (fun older there matched => same ?_) found
    obtain rfl : old = older := Option.some.inj (here.symm.trans there)
    have first := Dirent.key_eq_some.mpr matched
    rw [Dirent.key_eq_some.mpr hit] at first
    exact (Option.some.inj first).symm

end lookup

def seek (name : List Byte) : Nat → List Dirent → Option (Nat × Nat)
  | _, [] => none
  | k, de :: rest => if de.inum ≠ 0 ∧ namecmp name de.name = 0 then some (de.inum.toNat,direntSize * k) else seek name (k + 1) rest

theorem seek_eq (name : List Byte) (k : Nat) (entries : List Dirent) :
    seek name k entries = (Keyed.find Dirent.key entries (text dirsiz name)).bind fun j =>
      entries[j]?.map fun de => (de.inum.toNat,direntSize * (k + j)) := by
  induction entries generalizing k with
  | nil => rfl
  | cons de rest ih =>
    rw [seek,Keyed.find,List.findIdx?_cons]
    by_cases hit : Matches name de
    · rw [if_pos (show de.inum ≠ 0 ∧ _ from hit),if_pos (decide_eq_true (Dirent.key_eq_some.mpr hit))]
      rfl
    · rw [if_neg (show ¬(de.inum ≠ 0 ∧ _) from hit),if_neg fun same => hit (Dirent.key_eq_some.mp (of_decide_eq_true same)),ih,
        Option.bind_map]
      refine Option.bind_congr fun j _ => ?_
      rw [Function.comp_apply,List.getElem?_cons_succ,show k + 1 + j = k + (j + 1) by omega]

theorem seek_zero (name : List Byte) (entries : List Dirent) : seek name 0 entries = lookup entries name := by
  rw [seek_eq,lookup]
  simp only [Nat.zero_add]

/-! Entries of a directory on the disk. -/

theorem toBytes_chunk (de : Dirent) :
    (((List.range direntSize).map fun k => some (de.toBytes (0 + k))).takeWhile Option.isSome).filterMap id = de.bytes := by
  have all : ((List.range direntSize).map fun k => some (de.toBytes (0 + k))).takeWhile Option.isSome =
      (List.range direntSize).map fun k => some (de.toBytes (0 + k)) := by
    rw [List.takeWhile_eq_self_iff]
    intro byte member
    obtain ⟨k,-,rfl⟩ := List.mem_map.mp member
    rfl
  rw [all,List.filterMap_map,Dirent.bytes]
  simp only [Nat.zero_add]
  exact List.filterMap_eq_map.symm ▸ rfl

/-- The write of an entry is the write of all its bytes, or of none. -/
theorem State.writeFrom_entry {i : Nat} (aligned : off % direntSize = 0) (de : Dirent) (node : Node) (space : Space) :
    State.writeFrom i (fun k => some (de.toBytes k)) direntSize direntSize 0 off node space =
      if (space.grow i (off / bsize)).1 = true then (direntSize,node.write off de.bytes,(space.grow i (off / bsize)).2)
      else (0,node,(space.grow i (off / bsize)).2) := by
  change State.writeFrom i _ 16 (15 + 1) 0 off node space = _
  rw [State.writeFrom,if_pos (by decide)]
  generalize space.grow i (off / bsize) = grown
  obtain ⟨there,space'⟩ := grown
  cases there with
  | false => rfl
  | true =>
    have inside : min (16 - 0) (bsize - off % bsize) = direntSize := by
      unfold direntSize bsize at *
      omega
    dsimp only
    rw [inside,toBytes_chunk,Dirent.length_bytes,if_neg (Nat.lt_irrefl _),if_pos rfl]
    rfl

namespace Blocks
open Log (Disk)

variable {s s' : State} {ip dp : Slot} {data i : Nat} {name : List Byte}

def State.entries (s : State) (i : Nat) : List Dirent := (nodeOf s.disk (s.dinode i)).entries

theorem Cached.readDirent (cached : Cached s ip i) (shape : Shape s.sb s.disk data s.dinode)
    (place : Fs.State.entryOff off) : s.readDirent ip off = .ok ((s.entries i)[off / direntSize]?,s) := by
  have place32 : (BitVec.ofNat 32 off).toNat = off := by
    rw [BitVec.toNat_ofNat]
    exact Nat.mod_eq_of_lt (by have := place.2; omega)
  have length32 : (BitVec.ofNat 32 direntSize).toNat = direntSize := rfl
  have low := place.2
  have index : direntSize * (off / direntSize) = off := by
    have aligned := place.1
    unfold direntSize at *
    omega
  have read := cached.readi shape (BitVec.ofNat 32 off) (BitVec.ofNat 32 direntSize)
  rw [place32,length32,if_pos (by unfold direntSize; omega)] at read
  rw [State.readDirent,read]
  change Except.ok (if (_ : Int) = direntSize then some _ else none,s) = _
  have bytes : (((contents s.disk (s.dinode i)).drop off).take direntSize).length = direntSize ↔
      off + direntSize ≤ (s.dinode i).size.toNat := by
    rw [List.length_take,List.length_drop,length_contents]
    unfold direntSize
    omega
  refine congrArg (fun de => Except.ok (de,s)) ?_
  rw [State.entries,Node.getElem?_entries,index,shape.size_node cached.allocated,shape.content cached.allocated]
  by_cases inside : off + direntSize ≤ (s.dinode i).size.toNat
  · rw [if_pos inside,if_pos (by rw [bytes.mpr inside])]
    refine congrArg some (Dirent.ofBytes_congr fun k small => ?_)
    rw [List.getD_eq_getElem?_getD,List.getElem?_take,if_pos small,List.getElem?_drop,List.getD_eq_getElem?_getD]
  · rw [if_neg inside,if_neg fun same => inside (bytes.mp (by exact_mod_cast same))]

/-- Writing an entry of a directory is the write of the abstract store. -/
theorem writeDirent_refines {nodes : Nat → Node} {space : Space} (denotes : Denotes s.sb s.disk data s.dinode nodes space)
    (cached : Cached s ip i) (aligned : off % direntSize = 0) (place : off ≤ (s.dinode i).size.toNat)
    (fits : off + direntSize ≤ maxBytes) (de : Dirent) :
    ∃ s', s.writeDirent ip off de = .ok ((space.grow i (off / bsize)).1,s') ∧ s'.sb = s.sb ∧ s'.handles = s.handles ∧
      s'.inode = update s.inode ip { s.inode ip with din := s'.dinode i } ∧
      (s'.dinode i).attr = (s.dinode i).attr ∧ (∀ j, Fs.State.known s.sb.ninodes.toNat j → j ≠ i → s'.dinode j = s.dinode j) ∧
      Denotes s'.sb s'.disk data s'.dinode
        (update nodes i (if (space.grow i (off / bsize)).1 = true then (nodes i).write off de.bytes else nodes i))
        (space.grow i (off / bsize)).2 := by
  have limit : maxBytes < 2 ^ 32 := by decide
  have place32 : (BitVec.ofNat 32 off).toNat = off := by
    rw [BitVec.toNat_ofNat]
    exact Nat.mod_eq_of_lt (by omega)
  have length32 : (BitVec.ofNat 32 direntSize).toNat = direntSize := rfl
  obtain ⟨tot,s',node,space',ran,-,wrote,sb,handles,inodes,attr,others,denotes'⟩ :=
    @writei_refines s ip data i nodes space (fun k => some (de.toBytes k)) (BitVec.ofNat 32 off) (BitVec.ofNat 32 direntSize)
      denotes cached (by rw [place32]; exact place) (by rw [place32,length32]; exact fits)
  rw [length32,place32,Fs.State.writeFrom_entry aligned] at wrote
  refine ⟨s',?_,sb,handles,inodes,attr,others,?_⟩
  · rw [State.writeDirent,ran]
    change Except.ok (decide ((tot : Int) = direntSize),s') = _
    cases there : (space.grow i (off / bsize)).1 with
    | false =>
      rw [there,if_neg Bool.false_ne_true] at wrote
      rw [← (Prod.mk.inj wrote).1]
      rfl
    | true =>
      rw [there,if_pos rfl] at wrote
      rw [← (Prod.mk.inj wrote).1]
      rfl
  · grind

/-! Searching. -/

def State.fetch (s : State) : Option (Nat × Nat) → Except Stop (Option (Slot × Nat) × State)
  | none => .ok (none,s)
  | some (inum,off) => do
    let (ip,s) ← s.iget inum
    pure (some (ip,off),s)

theorem dirlookupFrom_run {entries : List Dirent} {k : Nat}
    (reads : ∀ j de, entries[j]? = some de → s.readDirent dp (direntSize * (k + j)) = .ok (some de,s)) :
    (dirlookupFrom dp name entries.length (direntSize * k)).run exec s = s.fetch (seek name k entries) := by
  induction entries generalizing k with
  | nil => rfl
  | cons de rest ih =>
    have first : exec (.readDirent dp (direntSize * k)) s = .ok (some de,s) := reads 0 de rfl
    rw [List.length_cons,dirlookupFrom,Prog.run_bind,readDirent,Prog.run_perform,first,seek]
    change (if de.inum ≠ 0 ∧ namecmp name de.name = 0 then _ else _ : Sys _).run exec s = _
    split_ifs with hit
    · rw [Prog.run_bind,iget,Prog.run_perform]
      rfl
    · refine ih (k := k + 1) fun j other there => ?_
      rw [show k + 1 + j = k + (j + 1) by omega]
      exact reads (j + 1) other there

theorem emptyFrom_run {entries : List Dirent} {k : Nat}
    (reads : ∀ j de, entries[j]? = some de → s.readDirent dp (direntSize * (k + j)) = .ok (some de,s)) :
    (emptyFrom dp entries.length (direntSize * k)).run exec s = .ok (direntSize * (k + Keyed.vacancy Dirent.key entries),s) := by
  induction entries generalizing k with
  | nil => rfl
  | cons de rest ih =>
    have first : exec (.readDirent dp (direntSize * k)) s = .ok (some de,s) := reads 0 de rfl
    rw [List.length_cons,emptyFrom,Prog.run_bind,readDirent,Prog.run_perform,first,Keyed.vacancy,List.findIdx_cons]
    change (if de.inum = 0 then _ else _ : Sys _).run exec s = _
    by_cases free : de.inum = 0
    · rw [if_pos free,Dirent.key,if_pos free]
      rfl
    · rw [if_neg free,Dirent.key,if_neg free]
      change (emptyFrom dp rest.length (direntSize * (k + 1))).run exec s = .ok (direntSize * (k + (Keyed.vacancy _ rest + 1)),s)
      rw [ih fun j other there => by rw [show k + 1 + j = k + (j + 1) by omega]; exact reads (j + 1) other there,
        show k + (Keyed.vacancy Dirent.key rest + 1) = k + 1 + Keyed.vacancy Dirent.key rest by omega]

/-- Looking the name up in the directory gives this inode number at this offset. -/
def LooksUp (s : State) (dp : Slot) (name : List Byte) (found : Option (Nat × Nat)) : Prop :=
  (dirlookup dp name).run exec s = s.fetch found

structure Directory (s : State) (data : Nat) (dp : Slot) (i : Nat) : Prop where
  consistent : Consistent s data
  whole : HoleFree s
  cached : Cached s dp i
  live : 0 < (s.inode dp).ref
  type : (s.dinode i).attr.type = tDir
  even : (s.dinode i).size.toNat % direntSize = 0
  distinct : Keyed.Distinct Dirent.key (s.entries i)

namespace Directory

theorem shape (directory : Directory s data dp i) : Shape s.sb s.disk data s.dinode :=
  shape_iff.mpr ⟨directory.consistent,directory.whole⟩

theorem length (directory : Directory s data dp i) :
    direntSize * (s.entries i).length = (s.dinode i).size.toNat ∧ slots (s.dinode i).size.toNat = (s.entries i).length := by
  have even := directory.even
  rw [State.entries,Node.length_entries,directory.shape.size_node directory.cached.allocated]
  unfold slots direntSize at *
  omega

theorem bound (directory : Directory s data dp i) : direntSize * (s.entries i).length ≤ maxBytes := by
  rw [directory.length.1]
  exact directory.shape.small i directory.cached.allocated

theorem reads (directory : Directory s data dp i) {k : Nat} {de : Dirent} (here : (s.entries i)[k]? = some de) :
    s.readDirent dp (direntSize * k) = .ok (some de,s) := by
  have listed := (List.getElem?_eq_some_iff.mp here).1
  have bound := directory.bound
  have most : maxBytes = 274432 := rfl
  have place : Fs.State.entryOff (direntSize * k) := by
    refine ⟨Nat.mul_mod_right ..,?_⟩
    unfold direntSize at *
    omega
  have index : direntSize * k / direntSize = k := Nat.mul_div_cancel_left k (by decide)
  rw [directory.cached.readDirent directory.shape place,index,here]

theorem looksUp (directory : Directory s data dp i) (name : List Byte) : LooksUp s dp name (lookup (s.entries i) name) := by
  have type : (s.inode dp).din.attr.type = tDir := by rw [directory.cached.din]; exact directory.type
  have size : slots (s.inode dp).din.size.toNat = (s.entries i).length := by
    rw [directory.cached.din]
    exact directory.length.2
  have run := @dirlookupFrom_run s dp name (s.entries i) 0 fun j de here => by
    rw [Nat.zero_add]
    exact directory.reads here
  rw [seek_zero] at run
  rw [LooksUp,dirlookup,Prog.run_bind,attrOf,Prog.run_perform]
  change (if (s.inode dp).din.attr.type ≠ tDir then _ else _ : Sys _).run exec s = _
  rw [if_neg (not_not.mpr type),Prog.run_bind,sizeOf,Prog.run_perform]
  change (dirlookupFrom dp name (slots (s.inode dp).din.size.toNat) 0).run exec s = _
  rw [size]
  exact run

theorem empty_run (directory : Directory s data dp i) :
    (sizeOf dp >>= fun size => emptyFrom dp (slots size) 0).run exec s =
      .ok (direntSize * Keyed.vacancy Dirent.key (s.entries i),s) := by
  have size : slots (s.inode dp).din.size.toNat = (s.entries i).length := by
    rw [directory.cached.din]
    exact directory.length.2
  have run := @emptyFrom_run s dp (s.entries i) 0 fun j de here => by
    rw [Nat.zero_add]
    exact directory.reads here
  rw [Nat.zero_add] at run
  rw [Prog.run_bind,sizeOf,Prog.run_perform]
  change (emptyFrom dp (slots (s.inode dp).din.size.toNat) 0).run exec s = _
  rw [size]
  exact run

theorem changed (directory : Directory s data dp i) (shape : Shape s'.sb s'.disk data s'.dinode) (sb : s'.sb = s.sb)
    (attr : (s'.dinode i).attr = (s.dinode i).attr)
    (inodes : s'.inode = update s.inode dp { s.inode dp with din := s'.dinode i })
    (even : (nodeOf s'.disk (s'.dinode i)).rest = 0) (distinct : Keyed.Distinct Dirent.key (s'.entries i)) :
    Directory s' data dp i := by
  have alloc : Allocated s'.sb s'.dinode i :=
    ⟨by rw [sb]; exact directory.cached.allocated.known,by rw [attr]; exact directory.cached.allocated.type⟩
  have slot : s'.inode dp = { s.inode dp with din := s'.dinode i } := by rw [inodes,update_self]
  obtain ⟨consistent,whole⟩ := shape_iff.mp shape
  refine ⟨consistent,whole,⟨?_,alloc,?_⟩,?_,?_,?_,distinct⟩
  · rw [slot]
    exact directory.cached.number
  · rw [slot]
  · rw [slot]
    exact directory.live
  · rw [attr]
    exact directory.type
  · rw [← shape.size_node alloc]
    exact even

/-- An entry is written into an old slot or after the last one, or not at all; an
old slot can always be written. -/
theorem write (directory : Directory s data dp i) {k : Nat} (inside : k ≤ (s.entries i).length) {de : Dirent}
    (full : de.name.length = dirsiz) : ∃ r s', s.writeDirent dp (direntSize * k) de = .ok (r,s') ∧ s'.sb = s.sb ∧
      (k < (s.entries i).length → r = true) ∧ (s'.entries i = if r = true then Keyed.put (s.entries i) k de else s.entries i) ∧
      (Keyed.Distinct Dirent.key (s'.entries i) → Directory s' data dp i) := by
  have shape := directory.shape
  have alloc := directory.cached.allocated
  obtain ⟨size,-⟩ := directory.length
  have low : direntSize * k ≤ (s.dinode i).size.toNat := by
    rw [← size]
    exact Nat.mul_le_mul_left _ inside
  have most := directory.bound
  have limit : maxBytes < 2 ^ 32 := by decide
  by_cases fits : direntSize * k + direntSize ≤ maxBytes
  · obtain ⟨nodes,space,denotes⟩ := shape.denotes
    have node : nodes i = nodeOf s.disk (s.dinode i) := denotes.nodes i alloc.known
    obtain ⟨s',ran,sb,-,inodes,attr,-,denotes'⟩ :=
      writeDirent_refines denotes directory.cached (Nat.mul_mod_right direntSize k) low fits de
    have alloc' : Allocated s'.sb s'.dinode i := ⟨by rw [sb]; exact alloc.known,by rw [attr]; exact alloc.type⟩
    have node' := denotes'.nodes i alloc'.known
    rw [update_self,node] at node'
    have even : (nodeOf s.disk (s.dinode i)).rest = 0 := by
      change (nodeOf s.disk (s.dinode i)).size % direntSize = 0
      rw [shape.size_node alloc]
      exact directory.even
    refine ⟨_,s',ran,sb,fun old => ?_,?_,fun distinct => directory.changed denotes'.shape sb attr inodes ?_ distinct⟩
    · have here : direntSize * k < (s.dinode i).size.toNat := by
        rw [← size]
        exact Nat.mul_lt_mul_of_pos_left old (by decide)
      obtain ⟨short,-,there⟩ := shape.block alloc here
      rw [Space.grow,if_pos ((denotes.mapped_iff alloc short).mpr there)]
    · rw [State.entries,← node']
      split_ifs with there
      · exact Node.entries_put fits inside full
      · rfl
    · rw [← node']
      split_ifs with there
      · exact Node.rest_put de fits inside even
      · exact even
  · have place32 : (BitVec.ofNat 32 (direntSize * k)).toNat = direntSize * k := by
      rw [BitVec.toNat_ofNat]
      exact Nat.mod_eq_of_lt (by omega)
    have refused : s.writei dp (fun b => some (de.toBytes b)) (BitVec.ofNat 32 (direntSize * k)) (BitVec.ofNat 32 direntSize) =
        .ok (-1,s) := by
      refine writei_refused (.inr (.inr ?_))
      rw [place32]
      change maxBytes < direntSize * k + direntSize
      omega
    refine ⟨false,s,?_,rfl,fun old => ?_,by rw [if_neg Bool.false_ne_true],fun _ => directory⟩
    · rw [State.writeDirent,refused]
      rfl
    · unfold direntSize at *
      omega

theorem released (directory : Directory s data dp i) {table : Slot → Inode}
    (kept : ∀ j, 0 < (s.inode j).ref → table j = s.inode j) : Directory { s with inode := table } data dp i := by
  have slot := kept dp directory.live
  have shape : Shape s.sb s.disk data s.dinode := directory.shape
  obtain ⟨consistent,whole⟩ : Consistent { s with inode := table } data ∧ HoleFree { s with inode := table } := shape_iff.mp shape
  refine ⟨consistent,whole,⟨?_,directory.cached.allocated,?_⟩,?_,directory.type,directory.even,directory.distinct⟩
  · change (table dp).inum = i
    rw [slot]
    exact directory.cached.number
  · change (table dp).din = _
    rw [slot]
    exact directory.cached.din
  · change 0 < (table dp).ref
    rw [slot]
    exact directory.live

end Directory

theorem iget_error {e : Stop} (failed : s.iget inum = .error e) : e = .igetNoInodes := by
  unfold State.iget at failed
  split at failed
  next => cases failed
  next =>
    split at failed
    next => cases failed
    next => exact (Except.error.inj failed).symm

theorem iput_iget (got : s.iget inum = .ok (ip,s')) :
    ∃ table, s'.iput ip = .ok { s with inode := table } ∧ ∀ j, 0 < (s.inode j).ref → table j = s.inode j := by
  unfold State.iget at got
  split at got
  next j seen =>
    obtain ⟨rfl,rfl⟩ := Prod.mk.inj (Except.ok.inj got)
    have live := List.find?_some seen
    simp only [decide_eq_true_eq] at live
    refine ⟨s.inode,?_,fun _ _ => rfl⟩
    unfold State.iput
    simp only [State.setInode,update_self]
    rw [if_neg (by omega)]
    simp [pure,Except.pure]
  next =>
    split at got
    next j seen =>
      obtain ⟨rfl,rfl⟩ := Prod.mk.inj (Except.ok.inj got)
      have free := List.find?_some seen
      simp only [decide_eq_true_eq] at free
      refine ⟨update s.inode j { s.inode j with inum := inum, ref := 0, valid := false },?_,fun l live => ?_⟩
      · unfold State.iput
        simp only [State.setInode,update_self]
        rw [if_neg fun all => by cases all.2.1]
        simp [pure,Except.pure]
      · rw [update_of_ne]
        rintro rfl
        omega
    next => cases got

/-! The operations on the map. -/

/-- What dirlink leaves: with 0 the new entry stands in the first free slot or is
the last of one more, and with -1 every name is found as before. -/
inductive Linked (s s' : State) (dp : Slot) (i : Nat) (name : List Byte) (inum : Nat) : Int → Prop
  | added (absent : lookup (s.entries i) name = none)
      (entries : s'.entries i = Keyed.put (s.entries i) (Keyed.vacancy Dirent.key (s.entries i))
        ⟨BitVec.ofNat 16 inum,strncpy name dirsiz⟩)
      (found : ∀ other, LooksUp s' dp other (if text dirsiz other = text dirsiz name then
        some (inum,direntSize * Keyed.vacancy Dirent.key (s.entries i)) else lookup (s.entries i) other)) :
      Linked s s' dp i name inum 0
  | refused (entries : s'.entries i = s.entries i) (found : ∀ other, LooksUp s' dp other (lookup (s.entries i) other)) :
      Linked s s' dp i name inum (-1)

theorem dirlink_absent (directory : Directory s data dp i) (absent : lookup (s.entries i) name = none) :
    (dirlink dp name inum).run exec s =
      (s.writeDirent dp (direntSize * Keyed.vacancy Dirent.key (s.entries i)) ⟨BitVec.ofNat 16 inum,strncpy name dirsiz⟩).map
        fun (r,s') => (if r = true then 0 else -1,s') := by
  have looked := directory.looksUp name
  rw [LooksUp,absent] at looked
  rw [dirlink,Prog.run_bind,looked]
  change (sizeOf dp >>= fun size => emptyFrom dp (slots size) 0 >>= fun off => _ : Sys Int).run exec s = _
  rw [← Prog.bind_assoc,Prog.run_bind,directory.empty_run]
  change (writeDirent dp _ _ >>= fun r => _ : Sys Int).run exec s = _
  rw [Prog.run_bind,writeDirent,Prog.run_perform]
  change (s.writeDirent dp _ _ >>= _) = _
  cases s.writeDirent dp (direntSize * Keyed.vacancy Dirent.key (s.entries i)) ⟨BitVec.ofNat 16 inum,strncpy name dirsiz⟩ with
  | error e => rfl
  | ok result =>
    obtain ⟨r,s'⟩ := result
    cases r <;> rfl

theorem dirlink_present {number : Nat} (directory : Directory s data dp i)
    (present : lookup (s.entries i) name = some (number,off)) :
    (dirlink dp name inum).run exec s = s.iget number >>= fun (ip,s1) => (s1.iput ip).map fun s2 => (-1,s2) := by
  have looked := directory.looksUp name
  rw [LooksUp,present] at looked
  rw [dirlink,Prog.run_bind,looked,State.fetch]
  cases s.iget number with
  | error e => rfl
  | ok got =>
    obtain ⟨ip,s1⟩ := got
    change (iput ip >>= fun _ => pure (-1) : Sys Int).run exec s1 = (s1.iput ip).map fun s2 => (-1,s2)
    rw [Prog.run_bind,iput,Prog.run_perform]
    change (done (s1.iput ip) >>= _) = _
    cases s1.iput ip with
    | error e => rfl
    | ok s2 => rfl

/-- dirlink returns, unless the name is there and the inode table has no slot for
its inode; it keeps the directory a map. -/
theorem Directory.dirlink (directory : Directory s data dp i) (name : List Byte) (some : inum ≠ 0)
    (small : inum < 2 ^ 16) :
    (∃ r s', (dirlink dp name inum).run exec s = .ok (r,s') ∧ Linked s s' dp i name inum r ∧ Directory s' data dp i) ∨
      ∃ number off, lookup (s.entries i) name = Option.some (number,off) ∧ s.iget number = .error .igetNoInodes ∧
        (dirlink dp name inum).run exec s = .error .igetNoInodes := by
  cases present : lookup (s.entries i) name with
  | some found =>
    obtain ⟨number,off⟩ := found
    rw [dirlink_present directory present]
    cases got : s.iget number with
    | error e =>
      obtain rfl := iget_error got
      exact .inr ⟨number,off,rfl,got,rfl⟩
    | ok result =>
      obtain ⟨ip,s1⟩ := result
      obtain ⟨table,put,kept⟩ := iput_iget got
      have directory' := directory.released kept
      refine .inl ⟨-1,{ s with inode := table },?_,.refused rfl directory'.looksUp,directory'⟩
      change (s1.iput ip).map _ = _
      rw [put]
      rfl
  | none =>
    have place := Keyed.vacancy_le Dirent.key (s.entries i)
    have number : (BitVec.ofNat 16 inum).toNat = inum := by
      rw [BitVec.toNat_ofNat]
      exact Nat.mod_eq_of_lt small
    have hit : Matches name ⟨BitVec.ofNat 16 inum,strncpy name dirsiz⟩ := by
      refine ⟨fun zero => some ?_,(namecmp_strncpy name name).mpr rfl⟩
      rw [← number,show BitVec.ofNat 16 inum = 0 from zero]
      rfl
    obtain ⟨r,s',ran,-,-,entries,directory'⟩ := directory.write place
      (show (⟨BitVec.ofNat 16 inum,strncpy name dirsiz⟩ : Dirent).name.length = dirsiz from length_strncpy name dirsiz)
    rw [dirlink_absent directory present,ran]
    cases r with
    | false =>
      rw [if_neg Bool.false_ne_true] at entries
      have later := directory' (by rw [entries]; exact directory.distinct)
      refine .inl ⟨-1,s',rfl,.refused entries fun other => ?_,later⟩
      rw [← entries]
      exact later.looksUp other
    | true =>
      rw [if_pos rfl] at entries
      have later := directory' (by
        rw [entries]
        exact directory.distinct.put place (Dirent.key_eq_some.mpr hit) (lookup_eq_none.mp present))
      refine .inl ⟨0,s',rfl,.added present entries fun other => ?_,later⟩
      have found := later.looksUp other
      rw [entries,lookup_put directory.distinct place (fun _ => Keyed.vacancy_free) hit present,number] at found
      exact found

/-- Directories are finite maps. -/
theorem directory_is_map (directory : Directory s data dp i) (few : s.sb.ninodes.toNat ≤ 65536) :
    (∀ name, LooksUp s dp name (lookup (s.entries i) name)) ∧
    (∀ name inum, inum ≠ 0 → inum < s.sb.ninodes.toNat →
      (∃ r s', (dirlink dp name inum).run exec s = .ok (r,s') ∧ Linked s s' dp i name inum r ∧ Directory s' data dp i) ∨
        ∃ number off, lookup (s.entries i) name = some (number,off) ∧ s.iget number = .error .igetNoInodes ∧
          (dirlink dp name inum).run exec s = .error .igetNoInodes) ∧
    ∀ name number off, lookup (s.entries i) name = some (number,off) →
      ∃ s', (writeDirent dp off ⟨0,List.replicate dirsiz 0⟩).run exec s = .ok (true,s') ∧ Directory s' data dp i ∧
        ∀ other, LooksUp s' dp other (if text dirsiz other = text dirsiz name then none else lookup (s.entries i) other) := by
  refine ⟨directory.looksUp,fun name inum some known => directory.dirlink name some (by omega),fun name number off found => ?_⟩
  obtain ⟨k,de,here,hit,-,rfl⟩ := (lookup_eq_some directory.distinct).mp found
  have listed := (List.getElem?_eq_some_iff.mp here).1
  obtain ⟨r,s',ran,-,always,entries,directory'⟩ := directory.write (Nat.le_of_lt listed)
    (show (⟨0,List.replicate dirsiz 0⟩ : Dirent).name.length = dirsiz from List.length_replicate)
  obtain rfl := always listed
  rw [if_pos rfl] at entries
  have later := directory' (by rw [entries]; exact directory.distinct.clear (Nat.le_of_lt listed) rfl)
  refine ⟨s',?_,later,fun other => ?_⟩
  · rw [writeDirent,Prog.run_perform]
    exact ran
  · have looked := later.looksUp other
    rw [entries,lookup_clear directory.distinct rfl here hit] at looked
    exact looked

def rooted : State := (boot (crashed 1)).setInode firstSlot ⟨1,1,true,true,crashedRoot 1⟩

theorem rooted_directory : Directory rooted 4 firstSlot 1 ∧ rooted.entries 1 = [] := by
  have dinode : rooted.dinode 1 = crashedRoot 1 := crashed_dinode 1 (by decide) (by decide)
  have shape : Shape rooted.sb rooted.disk 4 rooted.dinode :=
    (shape_iff.mpr ⟨crashed_consistent 1,crashed_holeFree 1⟩ : Shape (boot (crashed 1)).sb (boot (crashed 1)).disk 4 _)
  have alloc : Allocated rooted.sb rooted.dinode 1 := by
    refine ⟨?_,by rw [dinode]; decide⟩
    change Fs.State.known (boot (crashed 1)).sb.ninodes.toNat 1
    rw [crashed_sb]
    decide
  have none : rooted.entries 1 = [] := by
    rw [← List.length_eq_zero_iff,State.entries,Node.length_entries,shape.size_node alloc,dinode]
    rfl
  obtain ⟨consistent,whole⟩ := shape_iff.mp shape
  refine ⟨⟨consistent,whole,⟨rfl,alloc,dinode.symm⟩,by decide,by rw [dinode]; rfl,by rw [dinode]; rfl,?_⟩,none⟩
  rw [none]
  exact fun j l a b here => nomatch here

theorem directory_is_map_rooted : Directory rooted 4 firstSlot 1 ∧ rooted.sb.ninodes.toNat ≤ 65536 ∧
    ∃ r s', (dirlink firstSlot [97] 2).run exec rooted = .ok (r,s') ∧ Linked rooted s' firstSlot 1 [97] 2 r := by
  obtain ⟨directory,none⟩ := rooted_directory
  have number : rooted.sb.ninodes.toNat = 3 := congrArg (fun sb : Superblock => sb.ninodes.toNat) (crashed_sb 1)
  have few : rooted.sb.ninodes.toNat ≤ 65536 := by omega
  refine ⟨directory,few,?_⟩
  rcases (directory_is_map directory few).2.1 [97] 2 (by decide) (by omega) with ⟨r,s',ran,linked,-⟩ | ⟨_,_,present,-⟩
  · exact ⟨r,s',ran,linked⟩
  · rw [none] at present
    cases present

end Blocks

end Xv6.Fs
