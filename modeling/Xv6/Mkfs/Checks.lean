import Xv6.Mkfs.Image
import Xv6.Fs.Entries

/-! Holes and overflows in the images of mkfs. The rounded size of the root
directory covers one block too many when its entries fill their last block, and
nothing checks the number of inodes. -/
namespace Xv6.Mkfs
open Lib.Bytes
open Log (Block Disk)
open Fs Image

variable {files : List HostFile} {img : Image} {root : Node} {more : List Node}

theorem bitmap_bit (used b : Nat) : (bitmap used (b / 8)).getLsbD (b % 8) = decide (b < used) := by
  induction used with
  | zero => simp [bitmap]
  | succ used ih =>
    have step : bitmap (used + 1) = Function.update (bitmap used) (used / 8) (bitmap used (used / 8) ||| (1 <<< (used % 8))) := by
      rw [bitmap,List.range_succ,List.foldl_append]
      rfl
    have bit : ∀ j < 8, (1 <<< (used % 8) : Byte).getLsbD j = decide (j = used % 8) := by
      intro j small
      have low : used % 8 < 8 := Nat.mod_lt _ (by decide)
      generalize used % 8 = k at *
      interval_cases j <;> interval_cases k <;> rfl
    rw [step,Function.update_apply]
    split_ifs with same
    · rw [BitVec.getLsbD_or,← same,ih,bit _ (Nat.mod_lt _ (by decide)),← Bool.decide_or]
      congr 1
      apply propext
      omega
    · rw [ih]
      congr 1
      apply propext
      omega

theorem Written.marked (written : Written files img root more) {b : Nat} (below : b < img.freeblock.toNat) :
    inUse bmapstart img.disk b = true := by
  have full := written.full
  have small : fssize < bpb := by decide
  have place : bblock bmapstart b = bmapstart := by
    rw [bblock,Nat.div_eq_of_lt (by omega),Nat.zero_add]
  rw [inUse,place,written.bits,Nat.mod_eq_of_lt (by omega : b < bpb),bitmap_bit,decide_eq_true below]

/-! Holes. -/

def InFile (img : Image) (i k : Nat) : Prop :=
  1 ≤ i ∧ i < img.freeinode.toNat ∧ k < dataBlocks (dinodeAt inodestart img.disk i).size.toNat

def address (img : Image) (i k : Nat) : Nat := (blockAt img.disk (dinodeAt inodestart img.disk i) k).toNat

/-- Every block of every inode has an address of its own, in the data area, handed
out by mkfs and marked in the bitmap. -/
structure HoleFree (img : Image) : Prop where
  inside : ∀ i k, InFile img i k → nmeta ≤ address img i k ∧ address img i k < fssize ∧
    address img i k < img.freeblock.toNat ∧ inUse bmapstart img.disk (address img i k) = true
  distinct : ∀ i j k l, InFile img i k → InFile img j l → address img i k = address img j l → i = j ∧ k = l

theorem Written.rootLength (written : Written files img root more) : root.content.length = direntSize * (files.length + 2) := by
  rw [written.isRoot.2,length_flatMap_bytes,rootEntries,hostEntries_eq,List.length_append,length_entriesFrom]
  congr 1
  exact Nat.add_comm 2 _

theorem dataBlocks_rounded (length : Nat) : dataBlocks ((length / bsize + 1) * bsize) = length / bsize + 1 := by
  have positive : 0 < bsize := by decide
  exact dataBlocks_of_lt (Nat.mul_lt_mul_of_pos_right (Nat.lt_succ_self _) positive) (Nat.le_refl _)

theorem Written.block (written : Written files img root more) {i k : Nat} {node : Node}
    (here : (root :: more)[i]? = some node) (mapped : k < node.data.length) : node.data[k]? = some (address img (i + 1) k) := by
  have holds := written.laid.holds i node here
  exact getElem?_of_getD (holds.addr k (Nat.lt_of_lt_of_le mapped holds.short)).symm mapped

def Loose (files : List HostFile) : Prop := (files.length + 2) % (bsize / direntSize) ≠ 0

instance (files : List HostFile) : Decidable (Loose files) := inferInstanceAs (Decidable (_ ≠ _))

theorem Written.covered (written : Written files img root more) (loose : Loose files) {i k : Nat} (inFile : InFile img i k) :
    ∃ node, (root :: more)[i - 1]? = some node ∧ k < node.data.length := by
  obtain ⟨first,last,mapped⟩ := inFile
  have count : more.length = files.length := written.matched.length_eq
  rw [written.freeinode] at last
  obtain ⟨j,rfl⟩ : ∃ j, i = j + 1 := ⟨i - 1,by omega⟩
  rw [Nat.add_sub_cancel]
  cases j with
  | zero =>
    refine ⟨root,rfl,?_⟩
    rw [written.rootSize,dataBlocks_rounded] at mapped
    rw [(written.exact root (.head _)).data]
    rw [written.rootLength] at mapped ⊢
    unfold Loose at loose
    unfold dataBlocks bsize direntSize at *
    omega
  | succ j =>
    have inside : j < more.length := by omega
    refine ⟨more[j],by simp [inside],?_⟩
    rw [written.sizes j more[j] (List.getElem?_eq_getElem inside)] at mapped
    rw [(written.exact more[j] (.tail _ (List.getElem_mem inside))).data]
    exact mapped

theorem Written.holeFree (written : Written files img root more) (loose : Loose files) : HoleFree img := by
  have listed : ∀ i k, InFile img i k → ∃ node, (root :: more)[i - 1]? = some node ∧ node.data[k]? = some (address img i k) := by
    intro i k inFile
    obtain ⟨node,here,mapped⟩ := written.covered loose inFile
    have there := written.block here mapped
    rw [Nat.sub_add_cancel inFile.1] at there
    exact ⟨node,here,there⟩
  refine ⟨fun i k inFile => ?_,fun i j k l inFile inFile' same => ?_⟩
  · obtain ⟨node,here,there⟩ := listed i k inFile
    have mine := Laid.mem here (mem_owned_of_data there)
    have below := written.laid.below _ mine
    have full := written.full
    exact ⟨written.laid.range _ mine,by omega,below,written.marked below⟩
  · obtain ⟨node,here,there⟩ := listed i k inFile
    obtain ⟨node',here',there'⟩ := listed j l inFile'
    rw [← same] at there'
    have owner := written.laid.one_owner here here' (mem_owned_of_data there) (mem_owned_of_data there')
    have equal : i = j := by
      have first := inFile.1
      have second := inFile'.1
      omega
    subst equal
    rw [here] at here'
    cases here'
    have once := (List.nodup_append.mp (written.laid.nodup here)).1
    exact ⟨rfl,(List.getElem?_inj (List.getElem?_eq_some_iff.mp there).1 once).mp (there.trans there'.symm)⟩

theorem Written.hole (written : Written files img root more) (tight : ¬Loose files) (few : files.length + 2 ≤ ninodes) :
    ¬HoleFree img := by
  intro free
  have length := written.rootLength
  have holds := written.laid.holds 0 root rfl
  have whole := (written.exact root (.head _)).data
  have inFile : InFile img 1 (root.content.length / bsize) := by
    refine ⟨Nat.le_refl _,?_,?_⟩
    · rw [written.freeinode]
      omega
    · rw [written.rootSize,dataBlocks_rounded]
      exact Nat.lt_succ_self _
  have last : root.data.length = root.content.length / bsize := by
    rw [whole,length]
    unfold Loose at tight
    unfold dataBlocks bsize direntSize at *
    omega
  have low := (free.inside 1 _ inFile).1
  have none := holds.addr (root.content.length / bsize) (by
    rw [length]
    have most : ninodes = 200 := rfl
    have large : maxfile = 268 := rfl
    unfold bsize direntSize
    omega)
  rw [← last,List.getD_eq_getElem?_getD,List.getElem?_eq_none (Nat.le_refl _),last] at none
  have zero : address img 1 (root.content.length / bsize) = 0 := none
  rw [zero] at low
  exact absurd low (by decide)

theorem mkfs_written (ran : mkfs files = .ok img) (few : files.length + 1 < capacity) : ∃ root more, Written files img root more := by
  have ends := mkfs_ends files few
  rw [ran] at ends
  exact ends

theorem mkfs_runs (few : files.length + 1 < capacity) (fits : ¬Unfit (nmeta + need rootLength) rootLength files) :
    ∃ img, mkfs files = .ok img := by
  have ends := mkfs_ends files few
  cases ran : mkfs files with
  | ok img => exact ⟨img,rfl⟩
  | error e =>
    rw [ran] at ends
    exact absurd ends fits

/-- An image has no hole if and only if the entries of its root directory, `.` and
`..` included, do not fill the root's last block. -/
theorem mkfs_hole_free_iff {files : List HostFile} {img : Image} (ran : mkfs files = .ok img) (fits : files.length + 2 ≤ ninodes) :
    HoleFree img ↔ (files.length + 2) % (bsize / direntSize) ≠ 0 := by
  have room : ninodes < capacity := by decide
  obtain ⟨root,more,written⟩ := mkfs_written ran (by omega)
  exact ⟨fun free => not_not.mp fun tight => written.hole tight fits free,written.holeFree⟩

def plainFile : HostFile := ⟨[97],[],by decide,fun _ inside => nomatch inside⟩

theorem plain_fits {n : Nat} (few : n ≤ ninodes) : ¬Unfit (nmeta + need rootLength) rootLength (List.replicate n plainFile) := by
  have most : ninodes = 200 := rfl
  have none : ((List.replicate n plainFile).map fun file => need file.content.length).sum = 0 := by
    have zero : need plainFile.content.length = 0 := by decide
    simp [zero]
  have blocks : need (rootLength + direntSize * n) ≤ 4 := by
    have largest : need 4096 = 4 := by decide
    have mono := need_mono (n := rootLength + direntSize * n) (k := 4096) (by unfold rootLength direntSize; omega)
    omega
  have length : (List.replicate n plainFile).length = n := List.length_replicate
  have meta_ : nmeta = 47 := rfl
  have size : fssize = 2000 := rfl
  rintro (⟨file,inside,why⟩ | wide | large)
  · rw [List.eq_of_mem_replicate inside] at why
    exact absurd why (by decide)
  · have large : maxfile * bsize = 274432 := rfl
    rw [length] at wide
    unfold rootLength direntSize at wide
    omega
  · rw [none,length] at large
    omega

theorem mkfs_hole_free_iff_no_files : ∃ img, mkfs [] = .ok img ∧ HoleFree img := by
  obtain ⟨img,ran⟩ : ∃ img, mkfs [] = .ok img := mkfs_runs (by decide) (plain_fits (n := 0) (by decide))
  exact ⟨img,ran,(mkfs_hole_free_iff ran (by decide)).mpr (by decide)⟩

/-- With 62 files the root directory has 64 entries, and its size covers a second
block that it does not have. -/
theorem root_of_62_files_has_hole : ∃ img, mkfs (List.replicate 62 plainFile) = .ok img ∧ ¬HoleFree img := by
  obtain ⟨img,ran⟩ := mkfs_runs (by decide) (plain_fits (n := 62) (by decide))
  obtain ⟨root,more,written⟩ := mkfs_written ran (by decide)
  exact ⟨img,ran,written.hole (by decide) (by decide)⟩

/-! Overflows. What follows holds for any number of files, also past the inode blocks. -/

variable {m m' : Image}

def Keeps (m m' : Image) : Prop := m'.freeinode = m.freeinode ∧ m.trace ⊆ m'.trace

theorem Keeps.trans {m'' : Image} (first : Keeps m m') (second : Keeps m' m'') : Keeps m m'' :=
  ⟨second.1.trans first.1,List.Subset.trans first.2 second.2⟩

theorem rsect_keeps (m : Image) (sec : BitVec 32) : Ends (m.rsect sec) True fun _ => True := by
  unfold rsect
  split_ifs <;> trivial

theorem fresh_keeps (m : Image) : Keeps m m.fresh.2 := ⟨rfl,List.subset_append_left ..⟩

theorem winode_keeps (m : Image) (inum : BitVec 32) (din : Dinode) : Ends (m.winode inum din) True (Keeps m) :=
  (rsect_keeps m _).bind fun _ _ => ⟨rfl,List.subset_append_left ..⟩

theorem needAddr_keeps (m : Image) (din : Dinode) (k : AddrId) : Keeps m (m.needAddr din k).2 := by
  unfold needAddr
  split_ifs
  · exact fresh_keeps m
  · exact ⟨rfl,List.Subset.refl _⟩

theorem needEntry_keeps (m : Image) (b : BitVec 32) (k : Nat) : Ends (m.needEntry b k) True fun r => Keeps m r.2 := by
  refine (rsect_keeps m b).bind fun indirect _ => ?_
  split_ifs
  · exact fresh_keeps m
  · exact ⟨rfl,List.Subset.refl _⟩

theorem iaddr_keeps (m : Image) (din : Dinode) (fbn : Nat) : Ends (m.iaddr din fbn) True fun r => Keeps m r.2.2 := by
  unfold iaddr
  split_ifs with direct
  · exact needAddr_keeps m din _
  · have first := needAddr_keeps m din indirectId
    refine (needEntry_keeps _ _ _).bind fun r second => ?_
    exact first.trans second

theorem iappendFrom_keeps (turns : Nat) (m : Image) (din : Dinode) (off : Nat) (p : List Byte) :
    Ends (iappendFrom turns m din off p) True fun r => Keeps m r.1 := by
  induction turns generalizing m din off p with
  | zero => exact ⟨rfl,List.Subset.refl _⟩
  | succ turns ih =>
    unfold iappendFrom
    split_ifs
    · exact ⟨rfl,List.Subset.refl _⟩
    · trivial
    · refine (iaddr_keeps m din _).bind fun r first => ?_
      refine (rsect_keeps _ _).bind fun buf _ => ?_
      exact (ih _ _ _ _).mono id fun _ second => first.trans second

theorem iappend_keeps (m : Image) (inum : BitVec 32) (p : List Byte) : Ends (m.iappend inum p) True (Keeps m) := by
  have read : Ends (m.rinode inum) True fun _ => True := (rsect_keeps m _).bind fun _ _ => trivial
  refine read.bind fun din _ => ?_
  refine (iappendFrom_keeps _ m din _ p).bind fun r first => ?_
  exact (winode_keeps _ _ _).mono id fun _ second => first.trans second

theorem reads_keeps (m : Image) (inum : BitVec 32) (reads : List (List Byte)) :
    Ends (reads.foldlM (fun m chunk => m.iappend inum chunk) m) True (Keeps m) := by
  induction reads generalizing m with
  | nil => exact ⟨rfl,List.Subset.refl _⟩
  | cons chunk reads ih =>
    rw [List.foldlM_cons]
    refine (iappend_keeps m inum chunk).bind fun m1 first => ?_
    exact (ih m1).mono id fun _ second => first.trans second

def Takes (m m' : Image) : Prop :=
  m'.freeinode = m.freeinode + 1 ∧ .ialloc m.freeinode.toNat ∈ m'.trace ∧ m.trace ⊆ m'.trace

theorem Takes.keeps {m'' : Image} (first : Takes m m') (second : Keeps m' m'') : Takes m m'' :=
  ⟨second.1.trans first.1,second.2 first.2.1,List.Subset.trans first.2.2 second.2⟩

theorem ialloc_takes (m : Image) (type : BitVec 16) : Ends (m.ialloc type) True fun r => Takes m r.2 := by
  refine (winode_keeps _ _ _).bind fun m1 ⟨inode,trace⟩ => ?_
  refine ⟨inode,trace (List.mem_append_right _ (List.mem_singleton_self _)),fun e old => ?_⟩
  exact trace (List.mem_append_left _ old)

theorem addFile_takes (root : BitVec 32) (m : Image) (file : HostFile) : Ends (m.addFile root file) True (Takes m) := by
  refine Ends.ite (fun _ => trivial) fun _ => Ends.ite (fun _ => trivial) fun _ => ?_
  refine (ialloc_takes m tFile).bind fun r first => ?_
  refine (iappend_keeps _ _ _).bind fun m2 second => ?_
  exact (reads_keeps m2 _ file.reads).mono id fun _ third => first.keeps (second.trans third)

theorem files_take (root : BitVec 32) (m : Image) (files : List HostFile) :
    Ends (files.foldlM (addFile root) m) True fun m' =>
      m.trace ⊆ m'.trace ∧ ∀ k < files.length, .ialloc (m.freeinode + BitVec.ofNat 32 k).toNat ∈ m'.trace := by
  induction files generalizing m with
  | nil => exact ⟨List.Subset.refl _,fun k inside => absurd inside (Nat.not_lt_zero k)⟩
  | cons file files ih =>
    rw [List.foldlM_cons]
    refine (addFile_takes root m file).bind fun m1 ⟨inode,taken,before⟩ => ?_
    refine (ih m1).mono id fun m' ⟨kept,rest⟩ => ⟨List.Subset.trans before kept,fun k inside => ?_⟩
    cases k with
    | zero =>
      have number : m.freeinode + BitVec.ofNat 32 0 = m.freeinode := BitVec.add_zero _
      rw [number]
      exact kept taken
    | succ k =>
      have next := rest k (Nat.lt_of_succ_lt_succ inside)
      have number : BitVec.ofNat 32 (k + 1) = BitVec.ofNat 32 k + 1 := BitVec.ofNat_add ..
      rwa [inode,BitVec.add_assoc,BitVec.add_comm 1,← number] at next

theorem build_takes (files : List HostFile) :
    Ends (build files) True fun m' => ∀ k < files.length, .ialloc (2 + BitVec.ofNat 32 k).toNat ∈ m'.trace := by
  have start : Image.blank.freeinode = 1 := by rw [blank_eq]
  unfold build
  generalize Image.blank = m0 at start
  refine (ialloc_takes m0 tDir).bind fun r ⟨inode,_,_⟩ => ?_
  rw [start] at inode
  refine Ends.ite (fun _ => trivial) fun _ => ?_
  refine (iappend_keeps _ _ _).bind fun m1 first => ?_
  refine (iappend_keeps _ _ _).bind fun m2 second => ?_
  refine (files_take r.1 m2 files).mono id fun m' ⟨_,taken⟩ k inside => ?_
  have number := taken k inside
  rwa [(first.trans second).1,inode] at number

theorem mkfs_takes (ran : mkfs files = .ok img) {k : Nat} (inside : k < files.length) :
    .ialloc (2 + BitVec.ofNat 32 k).toNat ∈ img.trace := by
  have ends : Ends (mkfs files) True fun img => ∀ k < files.length, .ialloc (2 + BitVec.ofNat 32 k).toNat ∈ img.trace := by
    refine (build_takes files).bind fun m1 taken => ?_
    have read : Ends (m1.rinode (BitVec.ofNat 32 rootino)) True fun _ => True := (rsect_keeps m1 _).bind fun _ _ => trivial
    refine (read.bind fun din _ => winode_keeps _ _ _).bind fun m2 kept => ?_
    unfold balloc
    split_ifs
    · trivial
    · exact fun k inside => kept.2 (taken k inside)
  rw [ran] at ends
  exact ends k inside

theorem mkfs_past_ninodes (ran : mkfs files = .ok img) (many : ninodes < files.length + 2) :
    ¬∀ e ∈ img.trace, e.Inside ninodes fssize := by
  intro all
  have last : ninodes - 2 < files.length := by
    have most : ninodes = 200 := rfl
    omega
  have taken := all _ (mkfs_takes ran last)
  have number : (2 + BitVec.ofNat 32 (ninodes - 2)).toNat = ninodes := by decide
  rw [number] at taken
  exact Nat.lt_irrefl _ taken

/-- mkfs keeps every inode number below sb.ninodes, every block number below sb.size
and every inode write in the inode blocks if and only if there are few enough files;
it does not check their number. -/
theorem mkfs_overflow_iff {files : List HostFile} {img : Image} (ran : mkfs files = .ok img) :
    (∀ e ∈ img.trace, e.Inside sb.ninodes.toNat sb.size.toNat) ↔ files.length + 2 ≤ ninodes := by
  have numbers : sb.ninodes.toNat = ninodes ∧ sb.size.toNat = fssize := by decide
  rw [numbers.1,numbers.2]
  refine ⟨fun all => Nat.le_of_not_lt fun many => mkfs_past_ninodes ran many all,fun few e inside => ?_⟩
  have room : ninodes < capacity := by decide
  obtain ⟨root,more,written⟩ := mkfs_written ran (by omega)
  have inodes := written.freeinode
  exact (written.inside e inside).mono (by omega) written.full

theorem mkfs_overflow_iff_no_files : ∃ img, mkfs [] = .ok img ∧ ∀ e ∈ img.trace, e.Inside sb.ninodes.toNat sb.size.toNat := by
  obtain ⟨img,ran⟩ : ∃ img, mkfs [] = .ok img := mkfs_runs (by decide) (plain_fits (n := 0) (by decide))
  exact ⟨img,ran,(mkfs_overflow_iff ran).mpr (by decide)⟩

theorem mkfs_199_files_overflow :
    ∃ img, mkfs (List.replicate 199 plainFile) = .ok img ∧ ¬∀ e ∈ img.trace, e.Inside sb.ninodes.toNat sb.size.toNat := by
  have length : (List.replicate 199 plainFile).length = 199 := List.length_replicate
  obtain ⟨img,ran⟩ := mkfs_runs (by rw [length]; decide) (plain_fits (n := 199) (by decide))
  have past := mkfs_past_ninodes ran (by rw [length]; decide)
  exact ⟨img,ran,past⟩

end Xv6.Mkfs
