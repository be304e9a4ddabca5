import Xv6.Mkfs.Checks
import Xv6.Fs.Contents
import Xv6.Fs.Entries

/-! The kernel on an image of mkfs: it starts up, finds every host file under its
name and reads the host file's bytes. -/
namespace Xv6.Mkfs
open Lib Lib.Bytes
open Log (Block Disk)
open Fs Fs.Blocks

variable {s s' : Blocks.State} {ip dp : Slot} {node root : Node} {more : List Node} {files : List HostFile} {img : Image}
  {disk : Disk} {α : Type}
variable {de : Dirent} {file : HostFile} {name : List Byte} {entries : List Dirent} {k pos : Nat} {p : ProcId}

/-! Contents. -/

theorem Holds.block (holds : Holds s.disk (s.inode ip).din node) (exact : Exact node) (some : ∀ b ∈ node.data, b ≠ 0)
    (inside : pos < node.content.length) :
    pos / bsize < maxfile ∧ s.addr ip (pos / bsize) ≠ 0 ∧ node.data[pos / bsize]? = Option.some (s.addr ip (pos / bsize)).toNat := by
  have size : 0 < bsize := by decide
  have covered : pos / bsize < node.data.length := by
    rw [exact.data,dataBlocks]
    have last : pos / bsize ≤ (node.content.length - 1) / bsize := Nat.div_le_div_right (by omega)
    have next : (node.content.length + bsize - 1) / bsize = (node.content.length - 1) / bsize + 1 := by
      rw [show node.content.length + bsize - 1 = node.content.length - 1 + bsize by omega,Nat.add_div_right _ size]
    omega
  have short := Nat.lt_of_lt_of_le covered holds.short
  have here := getElem?_of_getD (holds.addr _ short).symm covered
  refine ⟨short,fun none => ?_,here⟩
  refine some _ (List.mem_of_getElem? here) ?_
  change (s.addr ip (pos / bsize)).toNat = 0
  rw [none]
  rfl

theorem Holds.mapped (holds : Holds s.disk (s.inode ip).din node) (exact : Exact node) (some : ∀ b ∈ node.data, b ≠ 0)
    {n : Nat} (inside : pos + n ≤ node.content.length) : s.Mapped ip pos n := by
  intro k small
  have block := holds.block exact some (by omega : pos + k < node.content.length)
  exact ⟨block.1,block.2.1⟩

theorem Holds.byte (holds : Holds s.disk (s.inode ip).din node) (exact : Exact node) (some : ∀ b ∈ node.data, b ≠ 0)
    (inside : pos < node.content.length) : s.byte ip pos = node.content.getD pos 0 := by
  have here := (holds.block exact some inside).2.2
  have read := holds.bytes _ _ here (pos % bsize) (Nat.mod_lt _ (by decide))
  rw [State.byte,read,Nat.div_add_mod']

theorem map_getD_range (l : List Byte) : (List.range l.length).map (fun k => l.getD k 0) = l := by
  refine List.ext_getElem (by simp) fun k left right => ?_
  simp [right]

/-- The whole file, wherever its blocks are. -/
theorem Holds.readi (holds : Holds s.disk (s.inode ip).din node) (exact : Exact node) (some : ∀ b ∈ node.data, b ≠ 0)
    (size : (s.inode ip).din.size.toNat = node.content.length) :
    s.readi ip (fun _ => true) 0 (s.inode ip).din.size = .ok (node.content.length,node.content,s) := by
  have zero : (0 : BitVec 32).toNat = 0 := rfl
  have read : s.readi ip (fun _ => true) 0 (s.inode ip).din.size = _ := readi_mapped (fun _ => rfl)
    (by rw [zero,Nat.zero_add]) (by rw [zero,size]; exact holds.mapped exact some (by omega))
  have bytes : (List.range node.content.length).map (fun k => s.byte ip ((0 : BitVec 32).toNat + k)) = node.content := by
    conv_rhs => rw [← map_getD_range node.content]
    refine List.map_congr_left fun k inside => ?_
    rw [zero,Nat.zero_add]
    exact holds.byte exact some (List.mem_range.mp inside)
  rw [read,size,bytes]

/-! The entries of the root directory. -/

theorem Holds.readDirent (holds : Holds s.disk (s.inode ip).din node) (exact : Exact node)
    (some : ∀ b ∈ node.data, b ≠ 0) (content : node.content = entries.flatMap Dirent.bytes)
    (whole : ∀ de ∈ entries, de.name.length = dirsiz) (size : node.content.length ≤ (s.inode ip).din.size.toNat) {j : Nat}
    (here : entries[j]? = Option.some de) : s.readDirent ip (direntSize * j) = .ok (Option.some de,s) := by
  have listed : j < entries.length := (List.getElem?_eq_some_iff.mp here).1
  have length : node.content.length = direntSize * entries.length := by rw [content,length_flatMap_bytes]
  have inside : direntSize * j + direntSize ≤ node.content.length := by
    rw [length,← Nat.mul_succ]
    exact Nat.mul_le_mul_left _ listed
  rw [readDirent_mapped (by omega) (holds.mapped exact some inside)]
  have decoded : Dirent.ofBytes (fun k => s.byte ip (direntSize * j + k)) = de := by
    rw [← Dirent.ofBytes_toBytes de (whole de (List.mem_of_getElem? here))]
    refine Dirent.ofBytes_congr fun k small => ?_
    rw [holds.byte exact some (by omega),content,entry_bytes here small]
  rw [decoded]

/-! Lookups. -/

abbrev Does (program : Sys α) (post : α → Blocks.State → Prop) (s : Blocks.State) : Prop :=
  program.wp Blocks.exec (fun _ => False) post s

def Reads (s : Blocks.State) (dp : Slot) (entries : List Dirent) : Prop :=
  ∀ j de, entries[j]? = some de → s.readDirent dp (direntSize * j) = .ok (some de,s)

structure FirstHit (name : List Byte) (entries : List Dirent) (k : Nat) (de : Dirent) : Prop where
  here : entries[k]? = some de
  hit : Matches name de
  before : ∀ j < k, ∀ other, entries[j]? = some other → ¬Matches name other

theorem dirlookupFrom_does {d count : Nat} (reads : Reads s dp entries) (first : FirstHit name entries k de)
    (passed : d ≤ k) (more : k < d + count)
    (got : s.iget de.inum.toNat = .ok (ip,s')) :
    Does (dirlookupFrom dp name count (direntSize * d)) (fun r s'' => r = some (ip,direntSize * k) ∧ s'' = s') s := by
  induction count generalizing d with
  | zero => omega
  | succ count ih =>
    rw [dirlookupFrom]
    have listed : d < entries.length := by
      have last := (List.getElem?_eq_some_iff.mp first.here).1
      omega
    obtain ⟨other,there⟩ : ∃ other, entries[d]? = some other := ⟨_,List.getElem?_eq_getElem listed⟩
    refine Prog.wp_bind (Prog.wp_ran (reads d other there) ?_)
    dsimp only
    by_cases last : d = k
    · subst last
      obtain rfl : de = other := Option.some.inj (first.here.symm.trans there)
      rw [if_pos (show de.inum ≠ 0 ∧ _ from first.hit)]
      exact Prog.wp_bind (Prog.wp_ran got ⟨rfl,rfl⟩)
    · rw [if_neg (show ¬(other.inum ≠ 0 ∧ _) from first.before d (by omega) other there)]
      exact ih (d := d + 1) (by omega) (by omega)

theorem dirlookup_does (reads : Reads s dp entries)
    (first : FirstHit name entries k de) (isDir : (s.inode dp).din.attr.type = tDir)
    (size : direntSize * entries.length ≤ (s.inode dp).din.size.toNat) (got : s.iget de.inum.toNat = .ok (ip,s')) :
    Does (dirlookup dp name) (fun r s'' => r = some (ip,direntSize * k) ∧ s'' = s') s := by
  refine Prog.wp_bind (Prog.wp_ran rfl ?_)
  rw [if_neg (not_not.mpr isDir)]
  refine Prog.wp_bind (Prog.wp_ran rfl ?_)
  have listed := (List.getElem?_eq_some_iff.mp first.here).1
  refine dirlookupFrom_does (d := 0) reads first (Nat.zero_le k) ?_ got
  unfold slots
  unfold direntSize at *
  omega

/-! The table right after boot holds the root directory alone. -/

def holding (disk : Disk) (inode : Blocks.Inode) : Blocks.State :=
  { boot disk with inode := Function.update (fun _ => Blocks.emptyInode) firstSlot inode }

theorem holding_inode (disk : Disk) (inode : Blocks.Inode) (j : Slot) :
    (holding disk inode).inode j = if j = firstSlot then inode else Blocks.emptyInode :=
  Function.update_apply (fun _ => Blocks.emptyInode) firstSlot inode j

theorem slot_setInode (s : Blocks.State) (ip j : Slot) (inode : Blocks.Inode) :
    (s.setInode ip inode).inode j = if j = ip then inode else s.inode j := Function.update_apply ..

theorem setInode_holding (disk : Disk) (inode inode' : Blocks.Inode) :
    (holding disk inode).setInode firstSlot inode' = holding disk inode' := by
  simp [holding,Blocks.State.setInode]

theorem iget_holding (disk : Disk) (inode : Blocks.Inode) (some : 0 < inode.ref) (inum : Nat) :
    (inum = inode.inum ∧
      (holding disk inode).iget inum = .ok (firstSlot,holding disk { inode with ref := inode.ref + 1 })) ∨
    ∃ ip, ip ≠ firstSlot ∧ inum ≠ inode.inum ∧ (holding disk inode).iget inum =
      .ok (ip,(holding disk inode).setInode ip { Blocks.emptyInode with inum := inum, ref := 1 }) := by
  have empty : ∀ j, j ≠ firstSlot → ((holding disk inode).inode j).ref = 0 := by
    intro j other
    rw [holding_inode,if_neg other]
    rfl
  have mine : (holding disk inode).inode firstSlot = inode := by rw [holding_inode,if_pos rfl]
  unfold Blocks.State.iget
  split
  next ip seen =>
    have live := List.find?_some seen
    simp only [decide_eq_true_eq] at live
    have isRoot : ip = firstSlot := by
      by_contra other
      have none := empty ip other
      omega
    subst isRoot
    rw [mine] at live
    refine .inl ⟨live.2.symm,?_⟩
    rw [mine,setInode_holding]
  next unseen =>
    right
    split
    next ip seen =>
      have free := List.find?_some seen
      simp only [decide_eq_true_eq] at free
      have other : ip ≠ firstSlot := by
        rintro rfl
        rw [mine] at free
        omega
      have absent := List.find?_eq_none.mp unseen firstSlot (List.mem_finRange _)
      rw [mine] at absent
      refine ⟨ip,other,fun same => absent (by simp [some,same]),?_⟩
      have blank : (holding disk inode).inode ip = Blocks.emptyInode := by rw [holding_inode,if_neg other]
      rw [blank]
      rfl
    next full =>
      have second : (⟨1,by decide⟩ : Slot) ≠ firstSlot := by decide
      have busy := List.find?_eq_none.mp full ⟨1,by decide⟩ (List.mem_finRange _)
      simp only [decide_eq_true_eq] at busy
      exact absurd (empty _ second) busy

theorem iunlockput_does (locked : (s.inode dp).locked = true) (shared : 2 ≤ (s.inode dp).ref) :
    Does (iunlockput dp)
      (fun _ s' => s' = s.setInode dp { s.inode dp with locked := false, ref := (s.inode dp).ref - 1 }) s := by
  have unlock : s.iunlock dp = .ok (s.setInode dp { s.inode dp with locked := false }) := by
    unfold Blocks.State.iunlock
    rw [if_neg]
    rintro (free | dead)
    · rw [free] at locked
      cases locked
    · omega
  have mine : (s.setInode dp { s.inode dp with locked := false }).inode dp = { s.inode dp with locked := false } := by
    rw [slot_setInode,if_pos rfl]
  have put : (s.setInode dp { s.inode dp with locked := false }).iput dp =
      .ok (s.setInode dp { s.inode dp with locked := false, ref := (s.inode dp).ref - 1 }) := by
    unfold Blocks.State.iput
    simp only [mine]
    rw [if_neg (by omega)]
    simp [Blocks.State.setInode,pure,Except.pure]
  refine Prog.wp_bind (Prog.wp_ran (congrArg Blocks.done unlock) ?_)
  exact Prog.wp_ran (congrArg Blocks.done put) rfl

theorem namexFrom_nil (turns : Nat) (ip : Slot) (name : List Byte) :
    namexFrom false turns ip [] name = pure (some (ip,name)) := by
  cases turns with
  | zero => rfl
  | succ turns => rfl

/-- What a lookup of a name under the root leaves, for the inode number in the first
entry with that name. -/
structure Landed (image : Disk) (number : Nat) (ip : Slot) (s : Blocks.State) : Prop where
  disk : s.disk = image
  sb : s.sb = .ofBytes (image 1)
  inum : (s.inode ip).inum = number
  ref : 1 ≤ (s.inode ip).ref
  unlocked : (s.inode ip).locked = false
  agree : (s.inode ip).valid = true → (s.inode ip).din = s.dinode number

theorem namei_does (some : name ≠ [])
    (plain : slash ∉ name) (short : name.length ≤ dirsiz) (first : FirstHit name entries k de)
    (isDir : ((boot disk).dinode rootino).attr.type = tDir)
    (size : direntSize * entries.length ≤ ((boot disk).dinode rootino).size.toNat)
    (reads : ∀ s : Blocks.State, s.disk = disk → (s.inode firstSlot).din = (boot disk).dinode rootino → Reads s firstSlot entries) :
    Does (namei p (slash :: name)) (fun r s' => ∃ ip, r = Option.some ip ∧ Landed disk de.inum.toNat ip s') (boot disk) := by
  have start : (boot disk).iget rootino = .ok (firstSlot,holding disk { Blocks.emptyInode with inum := rootino, ref := 2 }) := by
    have found := iget_holding disk { Blocks.emptyInode with inum := rootino, ref := 1 } (by decide) rootino
    rcases found with ⟨_,got⟩ | ⟨_,_,other,_⟩
    · exact got
    · exact absurd rfl other
  have lock : (holding disk { Blocks.emptyInode with inum := rootino, ref := 2 }).ilock firstSlot =
      .ok (holding disk ⟨rootino,2,true,true,(boot disk).dinode rootino⟩) := by
    unfold Blocks.State.ilock
    simp only [holding_inode,if_true]
    rw [if_neg (by decide),if_neg (by decide),if_neg (by decide)]
    change (if ((boot disk).dinode rootino).attr.type = 0 then _ else _) = _
    rw [if_neg (by rw [isDir]; decide)]
    exact congrArg Except.ok (setInode_holding ..)
  refine Prog.wp_bind ?_
  unfold namex
  rw [if_pos (show (slash :: name).head? = Option.some slash from rfl)]
  refine Prog.wp_bind (Prog.wp_ran start ?_)
  rw [List.length_cons,namexFrom,skipelem_single some plain,List.take_of_length_le short]
  dsimp only
  refine Prog.wp_bind (Prog.wp_ran (congrArg Blocks.done lock) ?_)
  have root : (holding disk ⟨rootino,2,true,true,(boot disk).dinode rootino⟩).inode firstSlot =
      ⟨rootino,2,true,true,(boot disk).dinode rootino⟩ := by rw [holding_inode,if_pos rfl]
  refine Prog.wp_bind (Prog.wp_ran rfl ?_)
  rw [root,if_neg (not_not.mpr isDir),if_neg (fun up => by cases up.1)]
  -- the root itself, or an inode that the table does not have yet
  obtain ⟨ip,s',got,shared,locked,landed⟩ : ∃ ip s',
      (holding disk ⟨rootino,2,true,true,(boot disk).dinode rootino⟩).iget de.inum.toNat = .ok (ip,s') ∧
        2 ≤ (s'.inode firstSlot).ref ∧ (s'.inode firstSlot).locked = true ∧ Landed disk de.inum.toNat ip
          (s'.setInode firstSlot { s'.inode firstSlot with locked := false, ref := (s'.inode firstSlot).ref - 1 }) := by
    rcases iget_holding disk ⟨rootino,2,true,true,(boot disk).dinode rootino⟩ (by exact (by decide : (0 : Int) < 2))
      de.inum.toNat with ⟨isRoot,got⟩ | ⟨ip,other,fresh,got⟩
    · refine ⟨_,_,got,?_,?_,?_⟩
      · rw [holding_inode,if_pos rfl]
        exact (by decide : (2 : Int) ≤ 2 + 1)
      · rw [holding_inode,if_pos rfl]
      · rw [holding_inode,if_pos rfl,setInode_holding,isRoot]
        refine ⟨rfl,rfl,?_,?_,?_,fun _ => ?_⟩ <;> rw [holding_inode,if_pos rfl]
        · exact (by decide : (1 : Int) ≤ 2 + 1 - 1)
        · rfl
    · have kept : ((holding disk ⟨rootino,2,true,true,(boot disk).dinode rootino⟩).setInode ip
          { Blocks.emptyInode with inum := de.inum.toNat, ref := 1 }).inode firstSlot =
          ⟨rootino,2,true,true,(boot disk).dinode rootino⟩ := by rw [slot_setInode,if_neg (Ne.symm other),root]
      refine ⟨_,_,got,?_,?_,?_⟩
      · rw [kept]
      · rw [kept]
      · have mine : ∀ inode, (((holding disk ⟨rootino,2,true,true,(boot disk).dinode rootino⟩).setInode ip
            { Blocks.emptyInode with inum := de.inum.toNat, ref := 1 }).setInode firstSlot inode).inode ip =
            { Blocks.emptyInode with inum := de.inum.toNat, ref := 1 } := by
          intro inode
          rw [slot_setInode,if_neg other,slot_setInode,if_pos rfl]
        refine ⟨rfl,rfl,?_,?_,?_,fun valid => ?_⟩
        · rw [mine]
        · rw [mine]
        · rw [mine]
          rfl
        · rw [mine] at valid
          cases valid
  refine Prog.wp_then (dirlookup_does (reads _ rfl (by rw [root])) first (by rw [root]; exact isDir)
    (by rw [root]; exact size) got) ?_
  rintro r s3 ⟨rfl,rfl⟩
  refine Prog.wp_then (iunlockput_does locked shared) ?_
  rintro _ s4 rfl
  rw [namexFrom_nil]
  exact ⟨ip,rfl,landed⟩

theorem Landed.ilock {number : Nat} (landed : Landed disk number ip s) (typed : (s.dinode number).attr.type ≠ 0) :
    ∃ s', s.ilock ip = .ok s' ∧ s'.disk = disk ∧ (s'.inode ip).din = s.dinode number := by
  have ref := landed.ref
  unfold Blocks.State.ilock
  rw [if_neg (by omega),if_neg (by rw [landed.unlocked]; decide)]
  by_cases valid : (s.inode ip).valid = true
  · rw [if_pos valid]
    refine ⟨_,rfl,landed.disk,?_⟩
    rw [slot_setInode,if_pos rfl]
    exact landed.agree valid
  · rw [if_neg valid,landed.inum,if_neg typed]
    refine ⟨_,rfl,landed.disk,?_⟩
    rw [slot_setInode,if_pos rfl]

/-! Images. -/

theorem ireclaim_none {inums : List Nat} (linked : ∀ i ∈ inums, ¬((s.dinode i).attr.type ≠ 0 ∧ (s.dinode i).attr.nlink = 0)) :
    ireclaim inums s = .ok s := by
  induction inums with
  | nil => rfl
  | cons i inums ih =>
    rw [ireclaim,if_neg (linked i (.head _))]
    exact ih fun j inside => linked j (.tail _ inside)

theorem Written.superblock (written : Written files img root more) : (boot img.disk).sb = Mkfs.sb := by
  change Superblock.ofBytes (img.disk 1) = _
  rw [written.super,Superblock.ofBytes_toBytes]

theorem Written.dinode (written : Written files img root more) (disk : s.disk = img.disk) (sb : s.sb = Superblock.ofBytes (img.disk 1))
    (i : Nat) : s.dinode i = dinodeAt inodestart img.disk i := by
  rw [written.super,Superblock.ofBytes_toBytes] at sb
  rw [Blocks.State.dinode,disk,sb]
  rfl

theorem Written.fsinit (written : Written files img root more) :
    Blocks.fsinit img.disk = some (boot img.disk) := by
  have count : more.length = files.length := written.matched.length_eq
  have inodes : Mkfs.sb.ninodes.toNat = ninodes := by decide
  have room : ninodes < capacity := by decide
  unfold Blocks.fsinit
  dsimp only
  rw [written.superblock,if_pos (show Mkfs.sb.magic = fsmagic from rfl),ireclaim_none]
  · rfl
  intro i inside
  obtain ⟨low,high⟩ := List.mem_range'_1.mp inside
  rw [inodes] at high
  rw [written.dinode rfl rfl]
  by_cases listed : i - 1 < (root :: more).length
  · have holds := written.laid.holds (i - 1) _ (List.getElem?_eq_getElem listed)
    rw [Nat.sub_add_cancel low] at holds
    rw [holds.attr]
    exact fun orphan => absurd orphan.2 (by decide : (1 : BitVec 16) ≠ 0)
  · rw [List.length_cons] at listed
    exact fun orphan => orphan.1 (written.spare i (by omega) (by omega))

theorem Written.data_ne_zero (written : Written files img root more) {i : Nat} (here : (root :: more)[i]? = some node) :
    ∀ b ∈ node.data, b ≠ 0 := by
  intro b inside
  have past := written.laid.range b (Laid.mem here (List.mem_append_left _ inside))
  have first : 0 < nmeta := by decide
  omega

theorem Written.reads (written : Written files img root more) (disk : s.disk = img.disk)
    (din : (s.inode dp).din = dinodeAt inodestart img.disk 1) : Reads s dp (rootEntries (files.map HostFile.arg)) := by
  have holds : Holds s.disk (s.inode dp).din root := by
    rw [disk,din]
    exact written.laid.holds 0 root rfl
  have some := written.data_ne_zero (i := 0) rfl
  have size : root.content.length ≤ (s.inode dp).din.size.toNat := by
    rw [din,written.rootSize]
    have split := Nat.div_add_mod' root.content.length bsize
    have low := Nat.mod_lt root.content.length (by decide : 0 < bsize)
    rw [Nat.add_mul]
    omega
  refine fun j de here => holds.readDirent (written.exact root (.head _)) some written.isRoot.2 (fun de member => ?_) size here
  rcases List.mem_append.mp member with dots | hosts
  · rcases List.mem_cons.mp dots with rfl | rest
    · exact length_strncpy _ _
    · rw [List.mem_singleton.mp rest]
      exact length_strncpy _ _
  · obtain ⟨k,inside,rfl⟩ := List.mem_mapIdx.mp hosts
    exact length_strncpy _ _

theorem shortname_plain (file : HostFile) : 0 ∉ shortname file.arg := by
  intro inside
  have stripped : 0 ∈ (if userDir.isPrefixOf file.arg then file.arg.drop userDir.length else file.arg) := by
    unfold shortname at inside
    generalize (if userDir.isPrefixOf file.arg then file.arg.drop userDir.length else file.arg) = name at *
    by_cases first : name.head? = some underscore
    · rw [if_pos first] at inside
      exact List.mem_of_mem_tail inside
    · rwa [if_neg first] at inside
  refine file.text ?_
  split_ifs at stripped
  · exact List.mem_of_mem_drop stripped
  · exact stripped

theorem hit_iff {inum : BitVec 16} (ok : NameOk file) (short : name.length ≤ dirsiz)
    (plain : 0 ∉ name) : Matches (shortname file.arg) ⟨inum,strncpy name dirsiz⟩ ↔ inum ≠ 0 ∧ shortname file.arg = name := by
  rw [Matches,namecmp_strncpy,text_of_short ok.2 (shortname_plain file),text_of_short short plain]

/-- The host files that mkfs is meant for. -/
structure Fitting (files : List HostFile) : Prop where
  distinct : (files.map fun file => shortname file.arg).Nodup
  named : ∀ file ∈ files, shortname file.arg ≠ [] ∧ NameOk file
  sizes : ∀ file ∈ files, file.content.length ≤ maxfile * bsize
  inodes : files.length + 2 ≤ ninodes
  blocks : nmeta + need (direntSize * (files.length + 2)) + (files.map fun file => need file.content.length).sum ≤ fssize

theorem Fitting.fits (fitting : Fitting files) : ¬Unfit (nmeta + need rootLength) rootLength files := by
  have inodes := fitting.inodes
  have blocks := fitting.blocks
  have most : ninodes = 200 := rfl
  have large : maxfile * bsize = 274432 := rfl
  have same : rootLength + direntSize * files.length = direntSize * (files.length + 2) := by
    unfold rootLength direntSize
    omega
  rintro (⟨file,inside,bad⟩ | wide | full)
  · rcases bad with name | long
    · exact name (fitting.named file inside).2
    · exact absurd (fitting.sizes file inside) (by omega)
  · unfold rootLength direntSize at wide
    omega
  · rw [same] at full
    omega

theorem rootEntries_host (here : files[k]? = some file) :
    (rootEntries (files.map HostFile.arg))[k + 2]? = some ⟨BitVec.ofNat 16 (k + 2),strncpy (shortname file.arg) dirsiz⟩ := by
  change (hostEntries (files.map HostFile.arg))[k]? = _
  rw [hostEntries,List.getElem?_mapIdx,List.getElem?_map,here]
  rfl

theorem Fitting.firstHit (fitting : Fitting files) (plain : ∀ file ∈ files, shortname file.arg ≠ dot ∧ shortname file.arg ≠ dotdot)
    (here : files[k]? = some file) :
    FirstHit (shortname file.arg) (rootEntries (files.map HostFile.arg)) (k + 2)
      ⟨BitVec.ofNat 16 (k + 2),strncpy (shortname file.arg) dirsiz⟩ := by
  have member := List.mem_of_getElem? here
  have ok := (fitting.named file member).2
  have listed := (List.getElem?_eq_some_iff.mp here).1
  have small : k + 2 < 2 ^ 16 := by
    have inodes := fitting.inodes
    have most : ninodes = 200 := rfl
    omega
  refine ⟨rootEntries_host here,(hit_iff ok ok.2 (shortname_plain file)).mpr ⟨fun zero => ?_,rfl⟩,fun j early other there hit => ?_⟩
  · have number := congrArg BitVec.toNat zero
    rw [BitVec.toNat_ofNat,Nat.mod_eq_of_lt small] at number
    exact absurd number (Nat.succ_ne_zero _)
  · match j with
    | 0 =>
      obtain rfl := Option.some.inj there
      exact (plain file member).1 ((hit_iff ok (by decide) (by decide)).mp hit).2
    | 1 =>
      obtain rfl := Option.some.inj there
      exact (plain file member).2 ((hit_iff ok (by decide) (by decide)).mp hit).2
    | j + 2 =>
      have inside : j < files.length := by omega
      have earlier := List.getElem?_eq_getElem inside
      rw [rootEntries_host earlier] at there
      obtain rfl := Option.some.inj there
      have same := ((hit_iff ok (fitting.named _ (List.getElem_mem inside)).2.2 (shortname_plain _)).mp hit).2
      have equal : k = j := by
        refine (List.getElem?_inj (by rw [List.length_map]; exact listed) fitting.distinct).mp ?_
        rw [List.getElem?_map,List.getElem?_map,here,earlier]
        exact congrArg some same
      omega

/-- The kernel finds the file under its name in the root directory, and reads it. -/
def Served (p : ProcId) (s : Blocks.State) (file : HostFile) : Prop :=
  ∃ ip s1 s2, (namei p (slash :: shortname file.arg)).run Blocks.exec s = .ok (some ip,s1) ∧ s1.ilock ip = .ok s2 ∧
    (s2.inode ip).din.attr.type = tFile ∧ (s2.inode ip).din.attr.nlink = 1 ∧
    (s2.inode ip).din.size.toNat = file.content.length ∧
    s2.readi ip (fun _ => true) 0 (s2.inode ip).din.size = .ok (file.content.length,file.content,s2)

theorem Written.lookup (written : Written files img root more) (some : name ≠ []) (plain : slash ∉ name)
    (short : name.length ≤ dirsiz)
    (first : FirstHit name (rootEntries (files.map HostFile.arg)) k de) :
    ∃ ip s', (namei p (slash :: name)).run Blocks.exec (boot img.disk) = .ok (Option.some ip,s') ∧
      Landed img.disk de.inum.toNat ip s' := by
  have din : (boot img.disk).dinode rootino = dinodeAt inodestart img.disk 1 := written.dinode rfl rfl 1
  have holds := written.laid.holds 0 root rfl
  have size : direntSize * (rootEntries (files.map HostFile.arg)).length ≤ (dinodeAt inodestart img.disk 1).size.toNat := by
    have split := Nat.div_add_mod' root.content.length bsize
    have low := Nat.mod_lt root.content.length (by decide : 0 < bsize)
    rw [written.rootSize,← length_flatMap_bytes,← written.isRoot.2,Nat.add_mul]
    omega
  have does : Does (namei p (slash :: name)) _ (boot img.disk) := namei_does some plain short first
    (by rw [din,holds.attr]; exact written.isRoot.1) (by rw [din]; exact size)
    (fun s same mine => written.reads same (mine.trans din))
  obtain ⟨found,s',ran,ip,rfl,landed⟩ := Prog.wp_total does
  exact ⟨ip,s',ran,landed⟩

theorem Written.hosted (written : Written files img root more) (here : files[k]? = some file) :
    ∃ node, more[k]? = some node ∧ node.content = file.content ∧ node.type = tFile := by
  obtain ⟨listed,rfl⟩ := List.getElem?_eq_some_iff.mp here
  have inside : k < more.length := by rw [written.matched.length_eq]; exact listed
  exact ⟨more[k],List.getElem?_eq_getElem inside,List.forall₂_iff_get.mp written.matched |>.2 k inside listed⟩

def catFile : HostFile := ⟨userDir ++ [95,99,97,116],[[1,2,3],[4]],by decide,by decide⟩

def dotFile : HostFile := ⟨[95,46],[],by decide,plainFile.chunks⟩

theorem dotFile_fitting : Fitting [dotFile] := ⟨by decide,by decide,by decide,by decide,by decide⟩

end Xv6.Mkfs
