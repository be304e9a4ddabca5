import Xv6.Fs.Growth
import Xv6.Fs.Reclaim

/-! What readi and writei transfer. -/
namespace Xv6.Fs
open Lib Lib.Bytes Function List

/-! Writes of the abstract store. -/

def bytesOf (src : Nat → Option Byte) (a b : Nat) : List Byte := (range' a (b - a)).map fun k => (src k).getD 0

@[simp] theorem length_bytesOf (src : Nat → Option Byte) (a b : Nat) : (bytesOf src a b).length = b - a := by
  simp [bytesOf]

theorem bytesOf_append (src : Nat → Option Byte) {a b c : Nat} (first : a ≤ b) (second : b ≤ c) :
    bytesOf src a b ++ bytesOf src b c = bytesOf src a c := by
  unfold bytesOf
  have split : c - a = (b - a) + (c - b) := by omega
  have start : a + 1 * (b - a) = b := by omega
  rw [split,← range'_append,start,map_append]

theorem bytesOf_self (src : Nat → Option Byte) (a : Nat) : bytesOf src a a = [] := by
  simp [bytesOf]

theorem copied_eq (src : Nat → Option Byte) (tot m : Nat) :
    ∃ g ≤ m, (((range m).map fun k => src (tot + k)).takeWhile Option.isSome).filterMap id = bytesOf src tot (tot + g) ∧
      (∀ k, tot ≤ k → k < tot + g → (src k).isSome) ∧ (g < m → src (tot + g) = none) := by
  induction m generalizing tot with
  | zero => exact ⟨0,Nat.le_refl _,by simp [bytesOf],fun k low high => absurd high (by omega),fun none => absurd none (by omega)⟩
  | succ m ih =>
    have shift : ((range m).map Nat.succ).map (fun k => src (tot + k)) = (range m).map fun k => src (tot + 1 + k) := by
      rw [map_map]
      exact map_congr_left fun k _ => congrArg src (by simp only [Nat.succ_eq_add_one]; omega)
    rw [range_succ_eq_map,map_cons,shift,Nat.add_zero]
    cases here : src tot with
    | none => exact ⟨0,Nat.zero_le _,by simp [bytesOf],fun k low high => absurd high (by omega),fun _ => by rw [Nat.add_zero,here]⟩
    | some b =>
      obtain ⟨g,least,same,readable,none⟩ := ih (tot + 1)
      refine ⟨g + 1,by omega,?_,fun k low high => ?_,fun short => ?_⟩
      · rw [takeWhile_cons_of_pos rfl,filterMap_cons_some (show id (some b) = some b from rfl),same]
        have one : bytesOf src tot (tot + 1) = [b] := by simp [bytesOf,here]
        have end_ : tot + (g + 1) = tot + 1 + g := by omega
        rw [end_,← bytesOf_append src (show tot ≤ tot + 1 by omega) (show tot + 1 ≤ tot + 1 + g by omega),one]
        rfl
      · by_cases first : k = tot
        · rw [first,here]
          rfl
        · exact readable k (by omega) (by omega)
      · have end_ : tot + (g + 1) = tot + 1 + g := by omega
        rw [end_]
        exact none (by omega)

theorem Space.grow_full {space space' : Space} {i bn : Nat} (full : space.grow i bn = (false,space')) :
    space'.free = 0 ∧ space.mapped i bn = false := by
  unfold Space.grow at full
  dsimp only at full
  split_ifs at full with mapped none near last <;> cases full
  · exact ⟨none,Bool.eq_false_iff.mpr mapped⟩
  · exact ⟨last,Bool.eq_false_iff.mpr mapped⟩

theorem Space.mapped_of_grow {space space' : Space} {i bn : Nat} {there : Bool} (grown : space.grow i bn = (there,space'))
    {k : Nat} (absent : space'.mapped i k = false) : space.mapped i k = false := by
  have update : ∀ old : Space, old.mapped = space.mapped → (old.setMapped i bn).mapped i k = false → space.mapped i k = false := by
    intro old same absent
    rw [Space.setMapped] at absent
    dsimp only at absent
    rw [update_self,update_apply,same] at absent
    split_ifs at absent
    exact absent
  unfold Space.grow at grown
  dsimp only at grown
  split_ifs at grown <;> cases grown
  · exact absent
  · exact absent
  · exact update _ rfl absent
  · exact absent
  · exact update _ rfl absent

/-- How a write ends: after all bytes, for want of a block, or because byte `f` of
the buffer cannot be read, after a part of its block has been copied. -/
inductive WriteEnds (src : Nat → Option Byte) (n off tot free : Nat) (mapped : Nat → Bool) : Nat → Prop
  | all (whole : tot = n) : WriteEnds src n off tot free mapped tot
  | full (short : tot < n) (none : free = 0) (absent : mapped ((off + tot) / bsize) = false) : WriteEnds src n off tot free mapped tot
  | unreadable {f : Nat} (least : tot ≤ f) (short : f < n) (bad : src f = none) (block : (off + tot) / bsize = (off + f) / bsize)
      (start : tot = 0 ∨ (off + tot) % bsize = 0) : WriteEnds src n off tot free mapped f

/-- The outcome of a write at `off` once `done` bytes of its buffer are written. -/
structure Wrote (src : Nat → Option Byte) (n off done : Nat) (mapped : Nat → Bool) (node : Node) (result : Nat × Node × Space)
    (f : Nat) : Prop where
  least : done ≤ result.1
  copied : result.1 ≤ f
  readable : ∀ k, done ≤ k → k < f → (src k).isSome
  content : result.2.1.content =
    (overwrite node.content (off + done) (bytesOf src done f)).take (max node.size (off + result.1))
  ends : WriteEnds src n off result.1 result.2.2.free mapped f

theorem Wrote.stop {src : Nat → Option Byte} {n off done : Nat} {mapped : Nat → Bool} {node : Node} {space : Space}
    (ends : WriteEnds src n off done space.free mapped done) : Wrote src n off done mapped node (done,node,space) done where
  least := Nat.le_refl _
  copied := Nat.le_refl _
  readable := fun k low high => absurd high (by omega)
  content := by
    rw [bytesOf_self,overwrite_nil]
    exact (take_of_length_le (Nat.le_max_left ..)).symm
  ends := ends

namespace State

theorem writeFrom_wrote {i n turns : Nat} {src : Nat → Option Byte} {done off : Nat} {node : Node} {space : Space}
    (inside : done ≤ n) (enough : n - done ≤ turns) (place : off + done ≤ node.size) (fits : off + n ≤ maxBytes)
    (start : done = 0 ∨ (off + done) % bsize = 0 ∨ done = n) :
    ∃ f, Wrote src n off done (space.mapped i) node (writeFrom i src n turns done (off + done) node space) f := by
  induction turns generalizing done node space with
  | zero => exact ⟨_,.stop (.all (by omega))⟩
  | succ turns ih =>
    rw [writeFrom]
    by_cases more : done < n
    · rw [if_pos more]
      generalize grown : space.grow i ((off + done) / bsize) = growth
      obtain ⟨there,space1⟩ := growth
      cases there with
      | false =>
        obtain ⟨none,absent⟩ := Space.grow_full grown
        exact ⟨_,.stop (.full more none absent)⟩
      | true =>
        dsimp only
        have low := Nat.mod_lt (off + done) (show 0 < bsize by decide)
        have split := Nat.div_add_mod (off + done) bsize
        generalize amount : min (n - done) (bsize - (off + done) % bsize) = m
        obtain ⟨g,least,same,readable,bad⟩ := copied_eq src done m
        rw [same]
        by_cases failed : (bytesOf src done (done + g)).length < m
        · rw [if_pos failed]
          rw [length_bytesOf] at failed
          refine ⟨done + g,Nat.le_refl _,by simp,readable,?_,.unreadable (by simp) (by omega) (bad (by omega)) ?_ ?_⟩
          · change (Node.smudge _ _ _).content = _
            rw [Node.content_smudge,Nat.max_eq_left place]
            rfl
          · change (off + done) / bsize = _
            rw [← Nat.add_assoc]
            refine (Nat.div_eq_of_lt_le (by rw [Nat.mul_comm]; omega) ?_).symm
            rw [Nat.add_mul,Nat.one_mul,Nat.mul_comm ((off + done) / bsize)]
            omega
          · rcases start with first | aligned | last
            · exact .inl first
            · exact .inr aligned
            · omega
        · rw [if_neg failed]
          rw [length_bytesOf] at failed
          have whole : g = m := by omega
          subst whole
          have content : (node.write (off + done) (bytesOf src done (done + g))).content =
              overwrite node.content (off + done) (bytesOf src done (done + g)) :=
            node.content_write (by rw [length_bytesOf]; omega)
          have length : (node.write (off + done) (bytesOf src done (done + g))).size = max node.size (off + done + g) := by
            rw [Node.size,content,length_overwrite place,length_bytesOf,Node.size]
            omega
          rw [Nat.add_assoc off done g] at length ⊢
          have later : done + g = 0 ∨ (off + (done + g)) % bsize = 0 ∨ done + g = n := by
            by_cases last : n - done ≤ bsize - (off + done) % bsize
            · exact .inr (.inr (by omega))
            · have end_ : off + (done + g) = bsize * ((off + done) / bsize + 1) := by
                rw [Nat.mul_add,Nat.mul_one]
                omega
              rw [end_]
              exact .inr (.inl (Nat.mul_mod_right ..))
          obtain ⟨f,wrote⟩ := ih (by omega) (by omega) (by rw [length]; omega) later
          have copied := wrote.copied
          have far := wrote.least
          refine ⟨f,by omega,copied,fun k low high => ?_,?_,?_⟩
          · by_cases early : k < done + g
            · exact readable k low early
            · exact wrote.readable k (by omega) high
          · have joined := overwrite_append place (bytesOf src done (done + g)) (bytesOf src (done + g) f)
            have next : off + done + (done + g - done) = off + (done + g) := by omega
            rw [length_bytesOf,bytesOf_append src (by omega) (by omega),next] at joined
            rw [wrote.content,length,content,joined]
            refine congrArg (take · _) ?_
            omega
          · cases wrote.ends with
            | all whole => exact .all whole
            | full short used absent => exact .full short used (Space.mapped_of_grow grown absent)
            | unreadable least short bad block start => exact .unreadable least short bad block start
    · rw [if_neg more]
      exact ⟨_,.stop (.all (by omega))⟩

end State

namespace Blocks
open Log (Block Disk)

variable {s s' : State} {ip : Slot} {data i : Nat}

theorem Shape.denotes {sb : Superblock} {disk : Disk} {d : Nat → Dinode} (shape : Shape sb disk data d) :
    ∃ nodes space, Denotes sb disk data d nodes space := by
  refine ⟨fun i => nodeOf disk (d i),{
    free := vacant sb.size.toNat (inUseOf sb disk)
    mapped := fun i k => if short : k < maxfile then (holding sb disk d (i,dataRef k short)).isSome else false
    indirect := fun i => (holding sb disk d (i,.addr indirectId)).isSome
    touched := []
    outstanding := 0
    transactions := [] },shape,fun i _ => rfl,rfl,fun i _ k short => ?_,fun i _ => rfl⟩
  exact dif_pos short

/-! Reading. -/

theorem contents_drop_take (disk : Disk) (din : Dinode) (off n : Nat) :
    ((contents disk din).drop off).take n = (range (min n (din.size.toNat - off))).map fun k => byteAt disk din (off + k) := by
  refine ext_getElem (by simp) fun k inside _ => ?_
  simp [contents]

theorem Cached.mapped (cached : Cached s ip i) (shape : Shape s.sb s.disk data s.dinode) {off n : Nat}
    (inside : off + n ≤ (s.dinode i).size.toNat) : s.Mapped ip off n := by
  intro k small
  obtain ⟨short,-,there⟩ := shape.block cached.allocated (show off + k < (s.dinode i).size.toNat by omega)
  refine ⟨short,?_⟩
  rw [State.addr,cached.din]
  exact there

theorem Cached.readi_refused (cached : Cached s ip i) {good : Nat → Bool} {off n : BitVec 32}
    (bad : (s.dinode i).size.toNat < off.toNat ∨ 2 ^ 32 ≤ off.toNat + n.toNat) : s.readi ip good off n = .ok (0,[],s) := by
  have small := n.isLt
  unfold State.readi
  rw [cached.din]
  simp only [BitVec.lt_def,BitVec.toNat_add]
  rw [if_pos (by omega)]

/-- The bytes that a read of an inode stores: those of the file in the range, up to
the first that cannot be stored. -/
theorem Cached.readi_stores (cached : Cached s ip i) (shape : Shape s.sb s.disk data s.dinode) {good : Nat → Bool} {off n : BitVec 32}
    (place : off.toNat ≤ (s.dinode i).size.toNat) (unwrapped : off.toNat + n.toNat < 2 ^ 32) :
    s.readi ip good off n = .ok
      (if (range (min n.toNat ((s.dinode i).size.toNat - off.toNat))).all good then
          (min n.toNat ((s.dinode i).size.toNat - off.toNat) : Nat) else -1,
        ((range (min n.toNat ((s.dinode i).size.toNat - off.toNat))).takeWhile good).map fun k =>
          byteAt s.disk (s.dinode i) (off.toNat + k),s) := by
  unfold State.readi
  rw [cached.din]
  simp only [BitVec.lt_def,BitVec.toNat_add]
  rw [Nat.mod_eq_of_lt unwrapped,if_neg (by omega)]
  have amount : (if (s.dinode i).size.toNat < off.toNat + n.toNat then (s.dinode i).size - off else n).toNat =
      min n.toNat ((s.dinode i).size.toNat - off.toNat) := by
    split_ifs with longer
    · rw [BitVec.toNat_sub_of_le (by rw [BitVec.le_def]; omega)]
      omega
    · omega
  rw [amount,readiFrom_copies (Nat.zero_le _) (Nat.sub_le ..) (cached.mapped shape (by omega)),Nat.sub_zero]
  simp only [Nat.zero_add]
  have bytes : s.byte ip = byteAt s.disk (s.dinode i) := by
    rw [← cached.din]
    rfl
  rw [bytes]

/-- readi returns the bytes of the file from `off` on, and none if the end of the
range wraps. -/
theorem Cached.readi (cached : Cached s ip i) (shape : Shape s.sb s.disk data s.dinode) (off n : BitVec 32) :
    s.readi ip (fun _ => true) off n = .ok
      ((if off.toNat + n.toNat < 2 ^ 32 then ((contents s.disk (s.dinode i)).drop off.toNat).take n.toNat else []).length,
        if off.toNat + n.toNat < 2 ^ 32 then ((contents s.disk (s.dinode i)).drop off.toNat).take n.toNat else [],s) := by
  by_cases wraps : off.toNat + n.toNat < 2 ^ 32
  · rw [if_pos wraps,contents_drop_take]
    by_cases place : off.toNat ≤ (s.dinode i).size.toNat
    · rw [cached.readi_stores shape place wraps,if_pos (all_eq_true.mpr fun _ _ => rfl),
        takeWhile_eq_self_iff.mpr fun _ _ => rfl,length_map,length_range]
    · rw [cached.readi_refused (.inl (by omega)),Nat.sub_eq_zero_of_le (by omega),Nat.min_zero]
      rfl
  · rw [if_neg wraps,cached.readi_refused (.inr (by omega))]
    rfl

/-! Writing. -/

/-- What writei does to the contents: `f` is the first byte of the buffer that it
does not copy. -/
theorem Cached.writei (cached : Cached s ip i) (shape : Shape s.sb s.disk data s.dinode) (src : Nat → Option Byte)
    {off n : BitVec 32} (place : off.toNat ≤ (s.dinode i).size.toNat) (fits : off.toNat + n.toNat ≤ maxBytes) :
    ∃ (tot f : Nat) (s' : State), s.writei ip src off n = .ok (tot,s') ∧ tot ≤ f ∧ f ≤ n.toNat ∧ (∀ k < f, (src k).isSome) ∧
      contents s'.disk (s'.dinode i) =
        (overwrite (contents s.disk (s.dinode i)) off.toNat (bytesOf src 0 f)).take (max (s.dinode i).size.toNat (off.toNat + tot)) ∧
      WriteEnds src n.toNat off.toNat tot (vacant s'.sb.size.toNat s'.used)
        (fun k => decide (blockAt s.disk (s.dinode i) k ≠ 0)) f ∧
      s'.sb = s.sb ∧ Cached s' ip i ∧ Shape s'.sb s'.disk data s'.dinode ∧
      ∀ j, Allocated s.sb s.dinode j → j ≠ i → s'.dinode j = s.dinode j ∧
        contents s'.disk (s'.dinode j) = contents s.disk (s.dinode j) := by
  obtain ⟨nodes,space,denotes⟩ := shape.denotes
  obtain ⟨tot,s',node,space',ran,least,wrote,sb,handles,inodes,attr,others,denotes'⟩ := 
    writei_refines src denotes cached place fits
  have alloc' : Allocated s'.sb s'.dinode i := ⟨by rw [sb]; exact cached.allocated.known,by rw [attr]; exact cached.allocated.type⟩
  have size : (nodes i).size = (s.dinode i).size.toNat := by
    rw [Node.size,denotes.content cached.allocated,length_contents]
  obtain ⟨f,run⟩ := @Fs.State.writeFrom_wrote i n.toNat n.toNat src 0 off.toNat (nodes i) space (Nat.zero_le _)
    (Nat.sub_le ..) (by rw [size]; exact place) fits (.inl rfl)
  rw [Nat.add_zero,wrote] at run
  have ends : WriteEnds src n.toNat off.toNat tot (vacant s'.sb.size.toNat s'.used)
      (fun k => decide (blockAt s.disk (s.dinode i) k ≠ 0)) f := by
    have free := denotes'.free
    have ends := run.ends
    rw [free] at ends
    cases ends with
    | all whole => exact .all whole
    | full short used absent =>
      refine .full short used (decide_eq_false fun there => ?_)
      have block : (off.toNat + tot) / bsize < maxfile :=
        (Nat.div_lt_iff_lt_mul (by decide)).mpr (by unfold maxBytes at fits; omega)
      rw [(denotes.mapped_iff cached.allocated block).mpr there] at absent
      cases absent
    | unreadable least short bad block start => exact .unreadable least short bad block start
  have copied : f ≤ n.toNat := by
    cases run.ends with
    | all whole => exact Nat.le_of_eq whole
    | full short | unreadable _ short => exact Nat.le_of_lt short
  refine ⟨tot,f,s',ran,run.copied,copied,fun k small => run.readable k (Nat.zero_le _) small,?_,ends,sb,
    ⟨by rw [inodes,update_self]; exact cached.number,alloc',by rw [inodes,update_self]⟩,denotes'.shape,
    fun j alloc other => ?_⟩
  · have content := run.content
    rw [Nat.add_zero,size,denotes.content cached.allocated] at content
    rw [← denotes'.content alloc',update_self]
    exact content
  · have same := others j alloc.known other
    have allocj : Allocated s'.sb s'.dinode j := ⟨by rw [sb]; exact alloc.known,by rw [same]; exact alloc.type⟩
    rw [← denotes'.content allocj,update_of_ne other,denotes.content alloc]
    exact ⟨same,rfl⟩

theorem readable_all {buffer : Nat → Byte} {n off tot free : Nat} {mapped : Nat → Bool} {f : Nat}
    (ends : WriteEnds (fun k => some (buffer k)) n off tot free mapped f) : f = tot ∧ (tot < n → free = 0) := by
  cases ends with
  | all whole => exact ⟨rfl,fun short => by omega⟩
  | full short used absent => exact ⟨rfl,fun _ => used⟩
  | unreadable least short bad block start => cases bad

def openSlot : Slot := ⟨1,by decide⟩

def opened : State := (boot (crashed 1)).setInode openSlot ⟨2,1,true,true,crashedFile⟩

theorem opened_dinode : opened.dinode 2 = crashedFile := crashed_dinode 1 (by decide) (by decide)

theorem opened_shape : Shape opened.sb opened.disk 4 opened.dinode :=
  (shape_iff.mpr ⟨crashed_consistent 1,crashed_holeFree 1⟩ : Shape (boot (crashed 1)).sb (boot (crashed 1)).disk 4 _)

theorem opened_cached : Cached opened openSlot 2 := by
  refine ⟨rfl,⟨?_,?_⟩,opened_dinode.symm⟩
  · change Fs.State.known (boot (crashed 1)).sb.ninodes.toNat 2
    rw [crashed_sb]
    decide
  · rw [opened_dinode]
    decide

end Blocks

end Xv6.Fs
