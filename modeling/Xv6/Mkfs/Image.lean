import Xv6.Mkfs.Layout

/-! The image that mkfs writes. As long as the inodes fit in the inode blocks, every
inode has its contents and its own blocks; a run that does not end in exit(0) was
given files that do not fit. -/
namespace Xv6.Mkfs
open Lib.Bytes Function
open Log (Block Disk)
open Fs Image
variable {disk : Disk} {others : List Node} {inum : Nat} {root : Node}

def capacity : Nat := ninodeblocks * ipb

variable {m m' : Image} {nodes : List Node} {i : Nat} {node node' : Node}

theorem iblock_inside (few : inum < capacity) :
    inodestart ≤ iblock inodestart inum ∧ iblock inodestart inum < bmapstart := by
  have room : inum < 208 := few
  have start : inodestart = 33 := rfl
  have stop : bmapstart = 46 := rfl
  unfold iblock ipb bsize
  omega

theorem iblock_sector {inum : BitVec 32} (few : inum.toNat < capacity) :
    sector (BitVec.ofNat 32 (iblock inodestart inum.toNat)) = iblock inodestart inum.toNat ∧
      (BitVec.ofNat 32 (iblock inodestart inum.toNat)).toNat = iblock inodestart inum.toNat := by
  have inside := (iblock_inside few).2
  have stop : bmapstart = 46 := rfl
  have number : (BitVec.ofNat 32 (iblock inodestart inum.toNat)).toNat = iblock inodestart inum.toNat := by
    rw [BitVec.toNat_ofNat]
    exact Nat.mod_eq_of_lt (by omega)
  exact ⟨by rw [sector_of_lt (by omega),number],number⟩

theorem rinode_eq {inum : BitVec 32} (blocks : m.blocks = fssize) (few : inum.toNat < capacity) :
    m.rinode inum = .ok (dinodeAt inodestart m.disk inum.toNat) := by
  have inside := (iblock_inside few).2
  have stop : bmapstart < fssize := by decide
  simp only [rinode,rsect,(iblock_sector few).1,blocks]
  rw [if_pos (by omega)]
  rfl

theorem winode_eq {inum : BitVec 32} (blocks : m.blocks = fssize) (few : inum.toNat < capacity) (din : Dinode) :
    m.winode inum din = .ok { m with
      disk := setDinodeAt inodestart m.disk inum.toNat din
      trace := m.trace ++ [.winode (iblock inodestart inum.toNat)] } := by
  have inside := (iblock_inside few).2
  have stop : bmapstart < fssize := by decide
  simp only [winode,rsect,(iblock_sector few).1,blocks]
  rw [if_pos (by omega)]
  have length : max fssize (iblock inodestart inum.toNat + 1) = fssize := by omega
  simp only [wsect,note,(iblock_sector few).1,blocks,length,bind,Except.bind,pure,Except.pure]
  rfl

def Event.Inside (inodes blocks : Nat) : Event → Prop
  | .ialloc inum => inum < inodes
  | .addr b => b < blocks
  | .winode b => inodestart ≤ b ∧ b < bmapstart

/-- The image while mkfs runs. -/
structure Rep (m : Image) (nodes : List Node) : Prop where
  laid : Laid m (dinodeAt inodestart m.disk) nodes
  exact : ∀ node ∈ nodes, Exact node
  sizes : ∀ i node, nodes[i]? = some node → (dinodeAt inodestart m.disk (i + 1)).size.toNat = node.content.length
  full : m.freeblock.toNat ≤ fssize
  few : nodes.length < capacity
  freeinode : m.freeinode.toNat = nodes.length + 1
  super : m.disk 1 = sb.toBytes
  inside : ∀ e ∈ m.trace, e.Inside m.freeinode.toNat m.freeblock.toNat
  spare : ∀ i, nodes.length < i → i < capacity → (dinodeAt inodestart m.disk i).attr.type = 0

theorem Laid.reread {d d' : Nat → Dinode} (laid : Laid m d nodes) (disk : ∀ b, nmeta ≤ b → m'.disk b = m.disk b)
    (blocks : m'.blocks = m.blocks) (free : m'.freeblock = m.freeblock)
    (same : ∀ i < nodes.length, (d' (i + 1)).attr = (d (i + 1)).attr ∧ (d' (i + 1)).addrs = (d (i + 1)).addrs) :
    Laid m' d' nodes := by
  have low := laid.nmeta_le
  refine ⟨blocks.trans laid.blocks,fun i node here => ?_,laid.range,laid.distinct,free ▸ laid.below,fun b above => ?_,free ▸ laid.count⟩
  · obtain ⟨attr,addrs⟩ := same i (List.getElem?_eq_some_iff.mp here).1
    have holds : Holds m'.disk (d (i + 1)) node :=
      (laid.holds i node here).frame fun b mine => disk b (laid.range b (Laid.mem here mine))
    refine ⟨attr.trans holds.attr,holds.room,holds.short,fun k inside => ?_,?_,holds.split,holds.bytes⟩
    · rw [← holds.addr k inside]
      unfold blockAt
      rw [addrs]
    · rw [addrs]
      exact holds.ind
  · rw [free] at above
    rw [disk b (by omega)]
    exact laid.zero b above

theorem Event.Inside.mono {e : Event} {inodes inodes' blocks blocks' : Nat} (inside : e.Inside inodes blocks)
    (more : inodes ≤ inodes') (larger : blocks ≤ blocks') : e.Inside inodes' blocks' := by
  cases e with
  | ialloc inum => exact Nat.lt_of_lt_of_le inside more
  | addr b => exact Nat.lt_of_lt_of_le inside larger
  | winode b => exact inside

def need (length : Nat) : Nat := blocksFor (dataBlocks length)

theorem need_mono {n k : Nat} (le : n ≤ k) : need n ≤ need k := blocksFor_mono (dataBlocks_mono le)

theorem Rep.owned (rep : Rep m nodes) (here : nodes[i]? = some node) : node.owned.length = need node.content.length := by
  have whole := rep.exact node (List.mem_of_getElem? here)
  rw [owned_length (rep.laid.holds i node here).split whole.ind,whole.data]
  rfl

theorem dinodeAt_congr {disk' : Disk} (same : ∀ b < nmeta, disk' b = disk b) (few : inum < capacity) :
    dinodeAt inodestart disk' inum = dinodeAt inodestart disk inum := by
  have inside := (iblock_inside few).2
  have stop : bmapstart < nmeta := by decide
  rw [dinodeAt,dinodeAt,same _ (by omega)]

theorem setDinodeAt_other {b : Nat} (few : inum < capacity) (other : nmeta ≤ b ∨ b < inodestart) (din : Dinode) :
    setDinodeAt inodestart disk inum din b = disk b := by
  have inside := iblock_inside few
  have stop : bmapstart < nmeta := by decide
  exact update_of_ne (by omega) _ _

theorem iappend_rep (rep : Rep m nodes) (here : nodes[i]? = some node) (inum : BitVec 32) (isNumber : inum.toNat = i + 1)
    (p : List Byte) :
    Ends (m.iappend inum p)
      (maxfile * bsize < node.content.length + p.length ∨
        fssize + need node.content.length < m.freeblock.toNat + need (node.content.length + p.length))
      fun m' => m'.freeinode = m.freeinode ∧
        m'.freeblock.toNat + need node.content.length = m.freeblock.toNat + need (node.content.length + p.length) ∧
        ∃ node', node'.content = node.content ++ p ∧ node'.type = node.type ∧ Rep m' (nodes.set i node') := by
  have listed : i < nodes.length := (List.getElem?_eq_some_iff.mp here).1
  have few : inum.toNat < capacity := by
    have room := rep.few
    omega
  have size := rep.sizes i node here
  have owned := rep.owned here
  have loop := iappendFrom_ends p.length rep.laid here (rep.exact node (List.mem_of_getElem? here)) rep.full (Nat.le_refl _)
  rw [iappend,rinode_eq rep.laid.blocks few,isNumber]
  change Ends (iappendFrom p.length m (dinodeAt inodestart m.disk (i + 1)) (dinodeAt inodestart m.disk (i + 1)).size.toNat p >>= _) _ _
  rw [size]
  have first : Ends (iappendFrom p.length m (dinodeAt inodestart m.disk (i + 1)) node.content.length p)
      (maxfile * bsize < node.content.length + p.length ∨
        fssize + need node.content.length < m.freeblock.toNat + need (node.content.length + p.length))
      (Appended m (dinodeAt inodestart m.disk) nodes i node p) := by
    refine loop.mono (fun failed => failed.imp id fun large => ?_) fun _ done => done
    have total := rep.laid.count
    unfold need at *
    omega
  refine first.bind ?_
  rintro ⟨m1,din,off⟩ ⟨grows,rfl,full,node',content,type,exact_,laid⟩
  dsimp only at grows full laid ⊢
  rw [winode_eq laid.blocks few,isNumber]
  have few' : i + 1 < capacity := isNumber ▸ few
  have length : node'.content.length = node.content.length + p.length := by rw [content,List.length_append]
  have here' : (nodes.set i node')[i]? = some node' := List.getElem?_set_self listed
  have owned' : node'.owned.length = need (node.content.length + p.length) := by
    rw [owned_length (laid.holds i node' here').split exact_.ind,exact_.data,length]
    rfl
  have blocks := rep.laid.freeblock_set here laid
  have mine : dinodeAt inodestart (setDinodeAt inodestart m1.disk (i + 1)
      { din with size := BitVec.ofNat 32 (node.content.length + p.length) }) (i + 1) =
      { din with size := BitVec.ofNat 32 (node.content.length + p.length) } := dinodeAt_set_same ..
  have others : ∀ j, j ≠ i + 1 → j < capacity → dinodeAt inodestart (setDinodeAt inodestart m1.disk (i + 1)
      { din with size := BitVec.ofNat 32 (node.content.length + p.length) }) j = dinodeAt inodestart m.disk j := by
    intro j other inside
    rw [dinodeAt_set_ne _ _ _ other]
    exact dinodeAt_congr grows.inodes inside
  refine ⟨grows.freeinode,by change m1.freeblock.toNat + _ = _; omega,node',content,type,⟨?_,fun other member => ?_,fun j other there => ?_,full,?_,?_,?_,fun e member => ?_,
    fun j above inside => ?_⟩⟩
  · grind [laid.reread,rep.few,setDinodeAt_other,update_apply]
  · rcases List.mem_or_eq_of_mem_set member with old | new
    · exact rep.exact other old
    · rw [new]
      exact exact_
  · by_cases isMe : j = i
    · subst isMe
      rw [here'] at there
      have short := (laid.holds j node' here').room
      have most := (laid.holds j node' here').short
      have large : maxfile * bsize < 2 ^ 32 := by decide
      have bound : node'.data.length * bsize ≤ maxfile * bsize := Nat.mul_le_mul_right _ most
      rw [mine,← Option.some.inj there,length,BitVec.toNat_ofNat,Nat.mod_eq_of_lt (by omega)]
    · grind [Rep,update_apply]
  · rw [List.length_set]
    exact rep.few
  · rw [List.length_set]
    exact (congrArg BitVec.toNat grows.freeinode).trans rep.freeinode
  · have kept : setDinodeAt inodestart m1.disk _ _ 1 = m1.disk 1 := setDinodeAt_other few' (.inr (by decide : 1 < inodestart))
      { din with size := BitVec.ofNat 32 (node.content.length + p.length) }
    exact kept.trans ((grows.inodes 1 (by decide)).trans rep.super)
  · obtain ⟨more,traced,all⟩ := grows.trace
    change e ∈ m1.trace ++ [_] at member
    change e.Inside m1.freeinode.toNat m1.freeblock.toNat
    rw [traced,List.append_assoc] at member
    rcases List.mem_append.mp member with old | new
    · exact (rep.inside e old).mono (by rw [grows.freeinode]) grows.freeblock
    · rcases List.mem_append.mp new with added | written
      · obtain ⟨b,rfl,below⟩ := all e added
        exact below
      · rw [List.mem_singleton.mp written]
        exact iblock_inside few'
  · rw [List.length_set] at above
    rw [others j (by omega) inside]
    exact rep.spare j above inside

theorem getElem?_concat {α : Type*} {l : List α} {a a' : α} {j : Nat} (there : (l ++ [a])[j]? = some a') :
    (j < l.length ∧ l[j]? = some a') ∨ (j = l.length ∧ a' = a) := by
  rcases Nat.lt_or_ge j l.length with old | past
  · rw [List.getElem?_append_left old] at there
    exact .inl ⟨old,there⟩
  · grind

theorem ialloc_rep (rep : Rep m nodes) (room : nodes.length + 1 < capacity) (type : BitVec 16) :
    ∃ m', m.ialloc type = .ok (m.freeinode,m') ∧ m'.freeblock = m.freeblock ∧ Rep m' (nodes ++ [⟨type,[],[],0⟩]) := by
  have number := rep.freeinode
  have few : m.freeinode.toNat < capacity := by omega
  have least : capacity < 2 ^ 31 := by decide
  have next : (m.freeinode + 1).toNat = m.freeinode.toNat + 1 := by
    rw [BitVec.toNat_add,Nat.mod_eq_of_lt]
    · rfl
    · have one : (1 : BitVec 32).toNat = 1 := rfl
      omega
  have written := winode_eq (m := { m with freeinode := m.freeinode + 1 }.note (.ialloc m.freeinode.toNat)) rep.laid.blocks few
    ⟨⟨type,0,0,1⟩,0,fun _ => 0⟩
  have ran : m.ialloc type = .ok (m.freeinode,{ m with
      disk := setDinodeAt inodestart m.disk m.freeinode.toNat ⟨⟨type,0,0,1⟩,0,fun _ => 0⟩
      freeinode := m.freeinode + 1
      trace := m.trace ++ [.ialloc m.freeinode.toNat] ++ [.winode (iblock inodestart m.freeinode.toNat)] }) := by
    simp only [Image.ialloc,written]
    rfl
  refine ⟨_,ran,rfl,?_⟩
  rw [number] at few ⊢
  have mine : dinodeAt inodestart (setDinodeAt inodestart m.disk (nodes.length + 1) ⟨⟨type,0,0,1⟩,0,fun _ => 0⟩) (nodes.length + 1) =
      ⟨⟨type,0,0,1⟩,0,fun _ => 0⟩ := dinodeAt_set_same ..
  have others : ∀ j, j < nodes.length →
      dinodeAt inodestart (setDinodeAt inodestart m.disk (nodes.length + 1) ⟨⟨type,0,0,1⟩,0,fun _ => 0⟩) (j + 1) =
        dinodeAt inodestart m.disk (j + 1) := fun j inside => dinodeAt_set_ne _ _ _ (by omega)
  have same : (nodes ++ [(⟨type,[],[],0⟩ : Node)]).flatMap Node.owned = nodes.flatMap Node.owned := by
    simp [Node.owned]
  have laid : Laid { m with
      disk := setDinodeAt inodestart m.disk (nodes.length + 1) ⟨⟨type,0,0,1⟩,0,fun _ => 0⟩
      freeinode := m.freeinode + 1
      trace := m.trace ++ [.ialloc (nodes.length + 1)] ++ [.winode (iblock inodestart (nodes.length + 1))] }
      (dinodeAt inodestart (setDinodeAt inodestart m.disk (nodes.length + 1) ⟨⟨type,0,0,1⟩,0,fun _ => 0⟩)) nodes :=
    rep.laid.reread (fun b data => setDinodeAt_other few (.inl data) _) rfl rfl fun j inside => by rw [others j inside]; exact ⟨rfl,rfl⟩
  refine ⟨⟨laid.blocks,fun j other there => ?_,?_,?_,?_,laid.zero,?_⟩,fun other member => ?_,fun j other there => ?_,rep.full,?_,?_,?_,
    fun e member => ?_,fun j above inside => ?_⟩
  · rcases getElem?_concat there with ⟨inside,old⟩ | ⟨rfl,rfl⟩
    · exact laid.holds j other old
    · rw [mine]
      refine ⟨rfl,Nat.zero_le _,Nat.zero_le _,fun k inside => ?_,rfl,fun _ => Nat.zero_le _,fun k b here => ?_⟩
      · unfold blockAt
        by_cases direct : k < ndirect
        · rw [dif_pos direct]
          rfl
        · rw [dif_neg direct,if_pos rfl]
          rfl
      · simp at here
  · rw [same]
    exact laid.range
  · rw [same]
    exact laid.distinct
  · rw [same]
    exact laid.below
  · rw [same]
    exact laid.count
  · rcases List.mem_append.mp member with old | new
    · exact rep.exact other old
    · rw [List.mem_singleton.mp new]
      exact ⟨(by decide : 0 = dataBlocks 0),fun some => absurd rfl some⟩
  · rcases getElem?_concat there with ⟨inside,old⟩ | ⟨rfl,rfl⟩
    · rw [others j inside]
      exact rep.sizes j other old
    · rw [mine]
      rfl
  · rw [List.length_append]
    exact room
  · rw [List.length_append]
    exact next.trans (by rw [number]; rfl)
  · exact (setDinodeAt_other few (.inr (by decide)) ⟨⟨type,0,0,1⟩,0,fun _ => 0⟩).trans rep.super
  · change e.Inside (m.freeinode + 1).toNat m.freeblock.toNat
    rw [next]
    rcases List.mem_append.mp member with before | written
    · rcases List.mem_append.mp before with old | new
      · exact (rep.inside e old).mono (Nat.le_succ _) (Nat.le_refl _)
      · rw [List.mem_singleton.mp new,number]
        exact Nat.lt_succ_self _
    · rw [List.mem_singleton.mp written]
      exact iblock_inside few
  · rw [List.length_append,List.length_singleton] at above
    change (dinodeAt inodestart (setDinodeAt _ _ _ _) j).attr.type = 0
    rw [dinodeAt_set_ne _ _ _ (by omega)]
    exact rep.spare j (by omega) inside

/-! Whole runs. -/

theorem reads_rep (reads : List (List Byte)) (rep : Rep m nodes) (here : nodes[i]? = some node) (inum : BitVec 32)
    (isNumber : inum.toNat = i + 1) :
    Ends (reads.foldlM (fun m chunk => m.iappend inum chunk) m)
      (maxfile * bsize < node.content.length + reads.flatten.length ∨
        fssize + need node.content.length < m.freeblock.toNat + need (node.content.length + reads.flatten.length))
      fun m' => m'.freeblock.toNat + need node.content.length = m.freeblock.toNat + need (node.content.length + reads.flatten.length) ∧
        ∃ node', node'.content = node.content ++ reads.flatten ∧ node'.type = node.type ∧ Rep m' (nodes.set i node') := by
  induction reads generalizing m nodes node with
  | nil =>
    refine ⟨rfl,node,by simp,rfl,?_⟩
    rw [set_same here]
    exact rep
  | cons chunk reads ih =>
    have listed : i < nodes.length := (List.getElem?_eq_some_iff.mp here).1
    have total : (chunk :: reads).flatten.length = chunk.length + reads.flatten.length := by simp
    have mono := need_mono (n := node.content.length + chunk.length) (k := node.content.length + (chunk :: reads).flatten.length) (by omega)
    rw [List.foldlM_cons]
    refine ((iappend_rep rep here inum isNumber chunk).mono (fun failed => ?_) fun _ done => done).bind ?_
    · rcases failed with long | large
      · exact .inl (by omega)
      · exact .inr (by omega)
    rintro m1 ⟨_,free,node1,content,type,rep1⟩
    have length : node1.content.length = node.content.length + chunk.length := by rw [content,List.length_append]
    have sum : node.content.length + chunk.length + reads.flatten.length = node.content.length + (chunk :: reads).flatten.length := by omega
    have next := ih rep1 (List.getElem?_set_self listed)
    rw [length,sum] at next
    refine next.mono (fun failed => ?_) ?_
    · rcases failed with long | large
      · exact .inl long
      · exact .inr (by omega)
    · rintro m' ⟨free',node',content',type',rep'⟩
      refine ⟨by omega,node',?_,type'.trans type,?_⟩
      · rw [content',content,List.append_assoc,List.flatten_cons]
      · rwa [List.set_set] at rep'

def NameOk (file : HostFile) : Prop := slash ∉ shortname file.arg ∧ (shortname file.arg).length ≤ dirsiz

instance (file : HostFile) : Decidable (NameOk file) := inferInstanceAs (Decidable (_ ∧ _))

theorem slash_stripped (arg : List Byte) :
    slash ∈ (if userDir.isPrefixOf arg then arg.drop userDir.length else arg) ↔ slash ∈ shortname arg := by
  unfold shortname
  generalize (if userDir.isPrefixOf arg then arg.drop userDir.length else arg) = name
  by_cases first : name.head? = some underscore
  · rw [if_pos first]
    cases name with
    | nil => rfl
    | cons c rest =>
      have isLow : c = underscore := by simpa using first
      have other : slash ≠ underscore := by decide
      simp [isLow,other]
  · rw [if_neg first]

def entry (inum : Nat) (file : HostFile) : Dirent := ⟨BitVec.ofNat 16 inum,strncpy (shortname file.arg) dirsiz⟩

theorem addFile_rep (rep : Rep m (root :: others)) (room : others.length + 2 < capacity)
    (file : HostFile) :
    Ends (addFile (BitVec.ofNat 32 rootino) m file)
      (¬NameOk file ∨ maxfile * bsize < root.content.length + direntSize ∨ maxfile * bsize < file.content.length ∨
        fssize + need root.content.length < m.freeblock.toNat + need (root.content.length + direntSize) + need file.content.length)
      fun m' => m'.freeblock.toNat + need root.content.length =
          m.freeblock.toNat + need (root.content.length + direntSize) + need file.content.length ∧
        ∃ root' node, root'.content = root.content ++ (entry (others.length + 2) file).bytes ∧ root'.type = root.type ∧
          node.content = file.content ∧ node.type = tFile ∧ Rep m' (root' :: (others ++ [node])) := by
  have number := rep.freeinode
  rw [List.length_cons] at number
  simp only [addFile,slash_stripped]
  split_ifs with slashed long
  · exact .inl fun ok => ok.1 slashed
  · exact .inl fun ok => by
      have short := ok.2
      omega
  · obtain ⟨m1,ran,free1,rep1⟩ := ialloc_rep rep (by rw [List.length_cons]; omega) tFile
    rw [ran]
    change Ends (m1.enter _ m.freeinode _ >>= _) _ _
    have inum : m.freeinode.setWidth 16 = BitVec.ofNat 16 (others.length + 2) := by
      apply BitVec.eq_of_toNat_eq
      rw [BitVec.toNat_setWidth,BitVec.toNat_ofNat,number]
    have zero : need 0 = 0 := by decide
    have entered := iappend_rep rep1 List.getElem?_cons_zero (BitVec.ofNat 32 rootino) rfl (entry (others.length + 2) file).bytes
    rw [Dirent.length_bytes,free1] at entered
    rw [enter,inum]
    refine (entered.mono (fun failed => ?_) fun _ done => done).bind ?_
    · rcases failed with wide | large
      · exact .inr (.inl wide)
      · exact .inr (.inr (.inr (by omega)))
    rintro m2 ⟨_,free2,root',content,type,rep2⟩
    have last : (root' :: (others ++ [(⟨tFile,[],[],0⟩ : Node)]))[others.length + 1]? = some ⟨tFile,[],[],0⟩ := by simp
    have read := reads_rep file.reads rep2 last m.freeinode (by omega)
    change Ends _ (maxfile * bsize < 0 + file.content.length ∨ fssize + need 0 < m2.freeblock.toNat + need (0 + file.content.length)) _ at read
    rw [Nat.zero_add,zero] at read
    refine read.mono (fun failed => ?_) ?_
    · rcases failed with wide | large
      · exact .inr (.inr (.inl wide))
      · exact .inr (.inr (.inr (by omega)))
    · rintro m' ⟨free3,node,content',type',rep3⟩
      change m'.freeblock.toNat + need 0 = m2.freeblock.toNat + need (0 + file.content.length) at free3
      rw [Nat.zero_add,zero] at free3
      refine ⟨by omega,root',node,content,type,content',type',?_⟩
      have set_last : (root' :: (others ++ [(⟨tFile,[],[],0⟩ : Node)])).set (others.length + 1) node = root' :: (others ++ [node]) := by
        simp
      exact set_last ▸ rep3

def entriesFrom : (inum : Nat) → List HostFile → List Dirent
  | _, [] => []
  | inum, file :: files => entry inum file :: entriesFrom (inum + 1) files

theorem length_entriesFrom (inum : Nat) (files : List HostFile) : (entriesFrom inum files).length = files.length := by
  induction files generalizing inum with
  | nil => rfl
  | cons file files ih => rw [entriesFrom,List.length_cons,ih,List.length_cons]

def Unfit (start rootLength : Nat) (files : List HostFile) : Prop :=
  (∃ file ∈ files, ¬NameOk file ∨ maxfile * bsize < file.content.length) ∨
    maxfile * bsize < rootLength + direntSize * files.length ∨
    fssize + need rootLength < start + need (rootLength + direntSize * files.length) +
      (files.map fun file => need file.content.length).sum

theorem files_rep (rep : Rep m (root :: others)) (files : List HostFile)
    (room : others.length + files.length + 1 < capacity) :
    Ends (files.foldlM (addFile (BitVec.ofNat 32 rootino)) m) (Unfit m.freeblock.toNat root.content.length files)
      fun m' => ∃ root' more, root'.content = root.content ++ (entriesFrom (others.length + 2) files).flatMap Dirent.bytes ∧
        root'.type = root.type ∧ List.Forall₂ (fun node file => node.content = file.content ∧ node.type = tFile) more files ∧
        Rep m' (root' :: (others ++ more)) := by
  induction files generalizing m root others with
  | nil =>
    refine ⟨root,[],by simp [entriesFrom],rfl,.nil,?_⟩
    rw [List.append_nil]
    exact rep
  | cons file files ih =>
    rw [List.length_cons] at room
    have sum : ((file :: files).map fun file => need file.content.length).sum =
      need file.content.length + (files.map fun file => need file.content.length).sum := List.sum_cons
    have total : root.content.length + direntSize * (file :: files).length =
        root.content.length + direntSize + direntSize * files.length := by
      rw [List.length_cons,Nat.mul_add]
      omega
    have mono := need_mono (n := root.content.length + direntSize) (k := root.content.length + direntSize * (file :: files).length) (by omega)
    rw [List.foldlM_cons]
    refine ((addFile_rep rep (by omega) file).mono (fun failed => ?_) fun _ done => done).bind ?_
    · rcases failed with name | wide | long | large
      · exact .inl ⟨file,.head _,.inl name⟩
      · exact .inr (.inl (by omega))
      · exact .inl ⟨file,.head _,.inr long⟩
      · exact .inr (.inr (by omega))
    rintro m1 ⟨free,root1,node,content,type,content',type',rep1⟩
    have length : root1.content.length = root.content.length + direntSize := by rw [content,List.length_append,Dirent.length_bytes]
    have next := ih rep1 (by rw [List.length_append,List.length_singleton]; omega)
    rw [length] at next
    refine next.mono (fun failed => ?_) ?_
    · rcases failed with ⟨bad,inside,why⟩ | wide | large
      · exact .inl ⟨bad,.tail _ inside,why⟩
      · exact .inr (.inl (by omega))
      · exact .inr (.inr (by rw [total]; omega))
    · rintro m' ⟨root2,more,content2,type2,matched,rep2⟩
      refine ⟨root2,node :: more,?_,type2.trans type,.cons ⟨content',type'⟩ matched,?_⟩
      · rw [content2,content,List.append_assoc,List.length_append,List.length_singleton,entriesFrom,List.flatMap_cons]
      · rwa [List.append_assoc] at rep2

theorem zeroed (n : Nat) (small : n ≤ fssize) (m : Image) (empty : m.disk = fun _ _ => 0) (none : m.blocks = 0) :
    (List.range n).foldl (fun m i => m.wsect (BitVec.ofNat 32 i) fun _ => 0) m = { m with blocks := n } := by
  have large : fssize < 2 ^ 22 := by decide
  induction n with
  | zero =>
    have same : m = { m with blocks := 0 } := by rw [← none]
    exact same
  | succ n ih =>
    have number : (BitVec.ofNat 32 n).toNat = n := by
      rw [BitVec.toNat_ofNat]
      exact Nat.mod_eq_of_lt (by omega)
    have sec : sector (BitVec.ofNat 32 n) = n := by rw [sector_of_lt (by omega),number]
    have same : update m.disk n (fun _ => 0) = m.disk := by
      rw [empty]
      exact update_eq_self n _
    rw [List.range_succ,List.foldl_append,ih (by omega)]
    simp only [List.foldl_cons,List.foldl_nil,wsect,sec,same]
    congr 1
    omega

theorem blank_eq : Image.blank = ⟨update (fun _ _ => 0) 1 sb.toBytes,fssize,1,BitVec.ofNat 32 nmeta,[]⟩ := by
  have zero := zeroed fssize (Nat.le_refl _) ⟨fun _ _ => 0,0,1,BitVec.ofNat 32 nmeta,[]⟩ rfl rfl
  exact (congrArg (fun m => m.wsect 1 sb.toBytes) zero).trans rfl

theorem blank_rep : Rep Image.blank [] := by
  rw [blank_eq]
  refine ⟨⟨rfl,fun i node here => by simp at here,fun b inside => by simp at inside,List.nodup_nil,fun b inside => by simp at inside,
    fun b above => ?_,rfl⟩,fun node inside => by simp at inside,fun i node here => by simp at here,by decide,by decide,rfl,rfl,
    fun e inside => by simp at inside,fun i _ inside => ?_⟩
  · have low : 47 ≤ b := above
    have other : b ≠ 1 := by omega
    change update (fun _ _ => 0) 1 sb.toBytes b = fun _ => 0
    rw [update_of_ne other]
  · have low : inodestart = 33 := rfl
    have place := (iblock_inside inside).1
    change (dinodeIn (update (fun _ _ => 0) 1 sb.toBytes (iblock inodestart i)) (i % ipb)).attr.type = 0
    rw [update_of_ne (by omega)]
    exact (by decide : (0 : Byte) ++ (0 : Byte) = (0 : BitVec 16))

def Node.isRoot (node : Node) (files : List HostFile) : Prop :=
  node.type = tDir ∧ node.content = (rootEntries (files.map HostFile.arg)).flatMap Dirent.bytes

theorem hostEntries_eq (files : List HostFile) : hostEntries (files.map HostFile.arg) = entriesFrom 2 files := by
  have shifted : ∀ k, (files.map HostFile.arg).mapIdx (fun j arg => (⟨BitVec.ofNat 16 (j + k),strncpy (shortname arg) dirsiz⟩ : Dirent)) =
      entriesFrom k files := by
    induction files with
    | nil => exact fun _ => rfl
    | cons file files ih =>
      intro k
      rw [entriesFrom,← ih (k + 1),List.map_cons,List.mapIdx_cons]
      simp only [entry,Nat.zero_add,Nat.add_assoc,Nat.add_comm 1]
  exact shifted 2

def rootLength : Nat := 2 * direntSize

/-- The run of mkfs up to the rounding of the root's size: it stops only when the
files do not fit. -/
theorem build_ends (files : List HostFile) (room : files.length + 1 < capacity) :
    Ends (build files) (Unfit (nmeta + need rootLength) rootLength files)
      fun m => ∃ root more, root.isRoot files ∧
        List.Forall₂ (fun node file => node.content = file.content ∧ node.type = tFile) more files ∧ Rep m (root :: more) := by
  have rep := blank_rep
  have free : Image.blank.freeblock = BitVec.ofNat 32 nmeta := by rw [blank_eq]
  have inode : Image.blank.freeinode = 1 := by rw [blank_eq]
  unfold build
  generalize Image.blank = m0 at *
  obtain ⟨m1,ran1,free1,rep1⟩ := ialloc_rep rep (by decide : 1 < capacity) tDir
  rw [inode] at ran1
  rw [free] at free1
  simp only [ran1]
  have first := iappend_rep rep1 List.getElem?_cons_zero 1 rfl (Dirent.bytes ⟨1,strncpy dot dirsiz⟩)
  have none : need 0 = 0 := by decide
  have one : need direntSize = 1 := by decide
  have two : need rootLength = 1 := by decide
  have start : (BitVec.ofNat 32 nmeta).toNat = nmeta := by decide
  have fits : nmeta + 1 < fssize := by decide
  have short : rootLength < maxfile * bsize := by decide
  have double : rootLength = direntSize + direntSize := rfl
  rw [Dirent.length_bytes,free1,start] at first
  simp only [List.length_nil,Nat.zero_add,none,one] at first
  refine (first.mono (fun failed => ?_) fun _ done => done).bind ?_
  · omega
  rintro m2 ⟨_,free2,root2,content2,type2,rep2⟩
  have length2 : root2.content.length = direntSize := by
    rw [content2]
    exact Dirent.length_bytes _
  have second := iappend_rep rep2 List.getElem?_cons_zero 1 rfl (Dirent.bytes ⟨1,strncpy dotdot dirsiz⟩)
  rw [Dirent.length_bytes,length2,← double,one,two] at second
  refine (second.mono (fun failed => ?_) fun _ done => done).bind ?_
  · omega
  rintro m3 ⟨_,free3,root3,content3,type3,rep3⟩
  have length3 : root3.content.length = rootLength := by
    rw [content3,List.length_append,Dirent.length_bytes,length2]
    rfl
  have third := files_rep rep3 files (by simpa using room)
  rw [length3] at third
  have freed : m3.freeblock.toNat = nmeta + need rootLength := by omega
  rw [freed] at third
  refine third.mono (fun failed => failed) ?_
  rintro m' ⟨root,more,content,type,matched,rep'⟩
  refine ⟨root,more,⟨type.trans (type3.trans type2),?_⟩,matched,rep'⟩
  rw [content,content3,content2,rootEntries,hostEntries_eq]
  simp

/-- The finished image. -/
structure Written (files : List HostFile) (img : Image) (root : Node) (more : List Node) : Prop where
  laid : Laid img (dinodeAt inodestart img.disk) (root :: more)
  isRoot : root.isRoot files
  matched : List.Forall₂ (fun node file => node.content = file.content ∧ node.type = tFile) more files
  exact : ∀ node ∈ root :: more, Exact node
  rootSize : (dinodeAt inodestart img.disk 1).size.toNat = (root.content.length / bsize + 1) * bsize
  sizes : ∀ i node, more[i]? = some node → (dinodeAt inodestart img.disk (i + 2)).size.toNat = node.content.length
  full : img.freeblock.toNat ≤ fssize
  freeinode : img.freeinode.toNat = files.length + 2
  super : img.disk 1 = sb.toBytes
  bits : img.disk bmapstart = bitmap img.freeblock.toNat
  inside : ∀ e ∈ img.trace, e.Inside img.freeinode.toNat img.freeblock.toNat
  spare : ∀ i, files.length + 1 < i → i < capacity → (dinodeAt inodestart img.disk i).attr.type = 0

theorem Rep.finish {more : List Node} {files : List HostFile} {img : Image} (rep : Rep m (root :: more))
    (isRoot : root.isRoot files)
    (matched : List.Forall₂ (fun node file => node.content = file.content ∧ node.type = tFile) more files)
    (disk : ∀ b, img.disk b = if b = bmapstart then bitmap m.freeblock.toNat else
      setDinodeAt inodestart m.disk 1 { dinodeAt inodestart m.disk 1 with
        size := BitVec.ofNat 32 ((root.content.length / bsize + 1) * bsize) } b)
    (blocks : img.blocks = m.blocks) (free : img.freeblock = m.freeblock) (inode : img.freeinode = m.freeinode)
    (trace : ∀ e ∈ img.trace, e ∈ m.trace ∨ e = .winode (iblock inodestart 1)) : Written files img root more := by
  have few : 1 < capacity := by decide
  have least := rep.few
  rw [List.length_cons] at least
  have read : ∀ i < capacity, dinodeAt inodestart img.disk i = dinodeAt inodestart (setDinodeAt inodestart m.disk 1
      { dinodeAt inodestart m.disk 1 with size := BitVec.ofNat 32 ((root.content.length / bsize + 1) * bsize) }) i := by
    intro i inside
    have place := (iblock_inside inside).2
    rw [dinodeAt,dinodeAt,disk,if_neg (by omega)]
  have other : ∀ i, i < capacity → i ≠ 1 → dinodeAt inodestart img.disk i = dinodeAt inodestart m.disk i := by
    intro i inside apart
    rw [read i inside,dinodeAt_set_ne _ _ _ apart]
  have first := read 1 few
  rw [dinodeAt_set_same] at first
  have data : ∀ b, nmeta ≤ b → img.disk b = m.disk b := by
    intro b past
    have stop : bmapstart < nmeta := by decide
    rw [disk,if_neg (by omega),setDinodeAt_other few (.inl past)]
  have stays : 1 ≠ bmapstart := by decide
  refine ⟨rep.laid.reread data blocks free fun i inside => ?_,isRoot,matched,rep.exact,?_,fun i node here => ?_,free ▸ rep.full,?_,?_,?_,
    fun e member => ?_,fun i above inside => ?_⟩
  · rw [List.length_cons] at inside
    by_cases isFirst : i = 0
    · rw [isFirst,first]
      exact ⟨rfl,rfl⟩
    · rw [other (i + 1) (by omega) (by omega)]
      exact ⟨rfl,rfl⟩
  · have room := (rep.laid.holds 0 root rfl).room
    have short := (rep.laid.holds 0 root rfl).short
    have bound : root.data.length * bsize ≤ maxfile * bsize := Nat.mul_le_mul_right _ short
    have large : (maxfile + 1) * bsize < 2 ^ 32 := by decide
    have quotient : root.content.length / bsize ≤ maxfile := Nat.div_le_of_le_mul (by rw [Nat.mul_comm]; omega)
    have rounded : (root.content.length / bsize + 1) * bsize ≤ (maxfile + 1) * bsize := Nat.mul_le_mul_right _ (by omega)
    rw [first]
    change (BitVec.ofNat 32 _).toNat = _
    rw [BitVec.toNat_ofNat,Nat.mod_eq_of_lt (by omega)]
  · have inside : i < more.length := (List.getElem?_eq_some_iff.mp here).1
    rw [other (i + 2) (by omega) (by omega)]
    exact rep.sizes (i + 1) node here
  · rw [inode,rep.freeinode,List.length_cons,matched.length_eq]
  · rw [disk,if_neg stays,setDinodeAt_other few (.inr (by decide))]
    exact rep.super
  · rw [disk,if_pos rfl,free]
  · rw [inode,free]
    rcases trace e member with old | rfl
    · exact rep.inside e old
    · exact iblock_inside few
  · rw [other i inside (by omega)]
    refine rep.spare i ?_ inside
    rw [List.length_cons,matched.length_eq]
    exact above

theorem mkfs_ends (files : List HostFile) (room : files.length + 1 < capacity) :
    Ends (mkfs files) (Unfit (nmeta + need rootLength) rootLength files) fun img => ∃ root more, Written files img root more := by
  unfold mkfs
  refine (build_ends files room).bind ?_
  rintro m ⟨root,more,isRoot,matched,rep⟩
  have few : (BitVec.ofNat 32 rootino).toNat < capacity := by decide
  have blocks := rep.laid.blocks
  have size : (dinodeAt inodestart m.disk 1).size.toNat = root.content.length := rep.sizes 0 root rfl
  have ran : m.fixRoot (BitVec.ofNat 32 rootino) = .ok { m with
      disk := setDinodeAt inodestart m.disk 1 { dinodeAt inodestart m.disk 1 with
        size := BitVec.ofNat 32 ((root.content.length / bsize + 1) * bsize) }
      trace := m.trace ++ [.winode (iblock inodestart 1)] } := by
    rw [fixRoot,rinode_eq blocks few,← size]
    exact winode_eq blocks few _
  have full := rep.full
  have small : fssize < bpb := by decide
  have wide : bpb < 2 ^ 30 := by decide
  have used : m.freeblock.toInt = m.freeblock.toNat := by
    rw [BitVec.toInt_eq_toNat_cond,if_pos (by omega)]
  have sec : sector (BitVec.ofNat 32 bmapstart) = bmapstart := by decide
  have length : max fssize (bmapstart + 1) = fssize := by decide
  rw [ran]
  change Ends (Image.balloc _ m.freeblock.toInt) _ _
  rw [Image.balloc,used,if_neg (by omega),Int.toNat_natCast]
  refine ⟨root,more,rep.finish isRoot matched (fun b => ?_) ?_ rfl rfl fun e member => ?_⟩
  · rw [wsect,sec]
    exact update_apply ..
  · rw [wsect,sec]
    exact (congrArg (max · (bmapstart + 1)) blocks).trans (length.trans blocks.symm)
  · simpa [wsect] using member

end Xv6.Mkfs
