import Xv6.Fs.Transfers

/-! Writes that stop because the buffer cannot be read. copyin stores into the
cached block until it fails, and the block is then not passed to log_write. -/
namespace Xv6.Fs.Blocks
open Lib Lib.Bytes Function List
open Log (Block Disk)

variable {s s' s'' : State} {ip : Slot} {data i : Nat} {src : Nat → Option Byte}

def Settled (s s' : State) : Prop := ∀ b, s.store b = s.disk b → s'.store b = s'.disk b

namespace Settled

theorem refl (s : State) : Settled s s := fun _ same => same

theorem trans (first : Settled s s') (second : Settled s' s'') : Settled s s'' := fun b same => second b (first b same)

theorem setBlock (s : State) (b : Nat) (block : Block) : Settled s (s.setBlock b block) := by
  intro c same
  change update s.store b block c = update s.disk b block c
  rw [update_apply,update_apply,same]

theorem balloc (s : State) : Settled s s.balloc.2 := by
  rcases balloc_cases s with ⟨full,-⟩ | ⟨b,-,-,-,found⟩
  · rw [full]
    exact refl s
  · rw [found]
    exact (setBlock s _ _).trans (setBlock _ _ _)

theorem bmapAddr (s : State) (ip : Slot) (k : AddrId) : Settled s (s.bmapAddr ip k).2 := by
  unfold State.bmapAddr
  dsimp only
  split_ifs
  · exact balloc s
  · exact balloc s
  · exact refl s

theorem bmapEntry (s : State) (b k : Nat) : Settled s (s.bmapEntry b k).2 := by
  unfold State.bmapEntry
  dsimp only
  split_ifs
  · exact balloc s
  · exact (balloc s).trans (setBlock _ _ _)
  · exact refl s

theorem bmap {bn : Nat} {addr : BitVec 32} (ran : s.bmap ip bn = .ok (addr,s')) : Settled s s' := by
  unfold State.bmap at ran
  dsimp only at ran
  split_ifs at ran
  · obtain rfl : (s.bmapAddr ip _).2 = s' := congrArg Prod.snd (Except.ok.inj ran)
    exact bmapAddr s ip _
  · obtain rfl : (s.bmapAddr ip _).2 = s' := congrArg Prod.snd (Except.ok.inj ran)
    exact bmapAddr s ip _
  · obtain rfl : ((s.bmapAddr ip _).2.bmapEntry _ _).2 = s' := congrArg Prod.snd (Except.ok.inj ran)
    exact (bmapAddr s ip _).trans (bmapEntry _ _ _)

end Settled

def cut (src : Nat → Option Byte) (r : Nat) (k : Nat) : Option Byte := if k < r then src k else none

/-- `s'` is `s''` but for bytes of one cached block that are not logged. -/
def Smudged (s s' s'' : State) : Prop :=
  (Settled s s' ∧ s'' = s') ∨
    ∃ s1 b block, Settled s s1 ∧ s' = s1.setCached b block ∧ s''.sb = s1.sb ∧ s''.disk = s1.disk ∧ s''.inode = s1.inode

theorem Smudged.before {s0 : State} (settled : Settled s0 s) (smudged : Smudged s s' s'') : Smudged s0 s' s'' := by
  rcases smudged with ⟨later,same⟩ | ⟨s1,b,block,later,rest⟩
  · exact .inl ⟨settled.trans later,same⟩
  · exact .inr ⟨s1,b,block,settled.trans later,rest⟩

/-- Without the bytes that it does not report a write does the same, but for the
bytes that it leaves in the cached block. -/
theorem writeiFrom_cut {n turns tot off tot' off' : Nat} (ran : State.writeiFrom ip src n turns tot off s = .ok (tot',off',s')) :
    tot ≤ tot' ∧ ∃ s'', State.writeiFrom ip (cut src tot') n turns tot off s = .ok (tot',off',s'') ∧ Smudged s s' s'' := by
  induction turns generalizing tot off s with
  | zero =>
    cases ran
    exact ⟨Nat.le_refl _,_,rfl,.inl ⟨.refl _,rfl⟩⟩
  | succ turns ih =>
    rw [State.writeiFrom] at ran
    by_cases more : tot < n
    · rw [if_pos more] at ran
      cases found : s.bmap ip (off / bsize) with
      | error why =>
        rw [found] at ran
        cases ran
      | ok result =>
        obtain ⟨addr,s1⟩ := result
        have settled := Settled.bmap found
        rw [found] at ran
        change (if addr = 0 then _ else _) = _ at ran
        by_cases none : addr = 0
        · rw [if_pos none] at ran
          cases ran
          refine ⟨Nat.le_refl _,s',?_,.inl ⟨settled,rfl⟩⟩
          rw [State.writeiFrom,if_pos more,found]
          exact if_pos none
        rw [if_neg none] at ran
        generalize amount : min (n - tot) (bsize - off % bsize) = m at ran
        have positive : 0 < m := by
          have low := Nat.mod_lt off (show 0 < bsize by decide)
          omega
        by_cases failed : ((((range m).map fun k => src (tot + k)).takeWhile Option.isSome).filterMap id).length < m
        · rw [if_pos failed] at ran
          cases ran
          have nothing : (((range m).map fun k => cut src tot' (tot' + k)).takeWhile Option.isSome).filterMap id = [] := by
            obtain ⟨m',rfl⟩ : ∃ m', m = m' + 1 := ⟨m - 1,by omega⟩
            have first : cut src tot' (tot' + 0) = Option.none := if_neg (by omega)
            rw [range_succ_eq_map,map_cons,first]
            rfl
          refine ⟨Nat.le_refl _,s1.setCached addr.toNat (s1.disk addr.toNat),?_,.inr ⟨s1,_,_,settled,rfl,rfl,?_,rfl⟩⟩
          · rw [State.writeiFrom,if_pos more,found]
            change (if addr = 0 then _ else _) = _
            rw [if_neg none,amount,nothing,if_pos (by simpa using positive),copyAt_nil]
            rfl
          · exact update_eq_self ..
        · rw [if_neg failed] at ran
          obtain ⟨least,s'',again,smudged⟩ := ih ran
          have same : ((range m).map fun k => cut src tot' (tot + k)) = (range m).map fun k => src (tot + k) :=
            map_congr_left fun k member => if_pos (by have := mem_range.mp member; omega)
          refine ⟨by omega,s'',?_,smudged.before (settled.trans (.setBlock _ _ _))⟩
          rw [State.writeiFrom,if_pos more,found]
          change (if addr = 0 then _ else _) = _
          rw [if_neg none,amount,same,if_neg failed]
          exact again
    · rw [if_neg more] at ran
      cases ran
      refine ⟨Nat.le_refl _,_,?_,.inl ⟨.refl _,rfl⟩⟩
      rw [State.writeiFrom,if_neg more]

def finishWrite (s : State) (ip : Slot) (off : Nat) : State :=
  (if (s.inode ip).din.size.toNat < off then s.setDin ip { (s.inode ip).din with size := BitVec.ofNat 32 off } else s).iupdate ip

theorem finishWrite_eq (s : State) (ip : Slot) (off : Nat) : ∃ inum din,
    ∀ s' : State, s'.inode = s.inode →
      (finishWrite s' ip off).disk = update s'.disk (iblock s'.sb.inodestart.toNat inum)
        (setDinodeIn (s'.disk (iblock s'.sb.inodestart.toNat inum)) (inum % ipb) din) ∧
      (finishWrite s' ip off).store = update s'.store (iblock s'.sb.inodestart.toNat inum)
        (setDinodeIn (s'.disk (iblock s'.sb.inodestart.toNat inum)) (inum % ipb) din) ∧
      (finishWrite s' ip off).sb = s'.sb := by
  by_cases longer : (s.inode ip).din.size.toNat < off
  · refine ⟨(s.inode ip).inum,{ (s.inode ip).din with size := BitVec.ofNat 32 off },fun s' same => ?_⟩
    have slot : ∀ din, (s'.setDin ip din).inode ip = { s.inode ip with din := din } := by
      intro din
      rw [State.setDin,State.setInode,same]
      exact update_self ..
    rw [finishWrite,State.iupdate,same,if_pos longer,slot]
    exact ⟨rfl,rfl,rfl⟩
  · refine ⟨(s.inode ip).inum,(s.inode ip).din,fun s' same => ?_⟩
    rw [finishWrite,State.iupdate,same,if_neg longer,same]
    exact ⟨rfl,rfl,rfl⟩

theorem evict_of_settled {b : Nat} (same : s.store b = s.disk b) : (s.evict b).disk = s.disk := by
  change update s.disk b (s.store b) = s.disk
  rw [same]
  exact update_eq_self ..

/-- A block that leaves the buffer cache after a write is as the write has left it,
or as one without the bytes that the write does not report. -/
theorem writei_evict {off n : BitVec 32} {r : Int} (ran : s.writei ip src off n = .ok (r,s')) {b : Nat}
    (clean : s.store b = s.disk b) :
    (s'.evict b).disk = s'.disk ∨
      ∃ s'', s.writei ip (cut src r.toNat) off n = .ok (r,s'') ∧ s''.sb = s'.sb ∧ (s'.evict b).disk = s''.disk := by
  unfold State.writei at ran ⊢
  by_cases past : (s.inode ip).din.size < off ∨ off + n < off
  · rw [if_pos past] at ran
    cases ran
    exact .inl (evict_of_settled clean)
  by_cases large : BitVec.ofNat 32 (maxfile * bsize) < off + n
  · rw [if_neg past,if_pos large] at ran
    cases ran
    exact .inl (evict_of_settled clean)
  rw [if_neg past,if_neg large] at ran ⊢
  cases wrote : State.writeiFrom ip src n.toNat n.toNat 0 off.toNat s with
  | error why =>
    rw [wrote] at ran
    cases ran
  | ok result =>
    obtain ⟨tot,off',s1⟩ := result
    rw [wrote] at ran
    obtain ⟨rfl,rfl⟩ : (tot : Int) = r ∧ finishWrite s1 ip off' = s' := Prod.ext_iff.mp (Except.ok.inj ran)
    obtain ⟨-,s2,again,smudged⟩ := writeiFrom_cut wrote
    obtain ⟨inum,din,finish⟩ := finishWrite_eq s1 ip off'
    obtain ⟨disk,store,sb⟩ := finish s1 rfl
    -- the dinode's block is logged, and others are unless they are smudged
    have dinode : b = iblock s1.sb.inodestart.toNat inum → (finishWrite s1 ip off').store b = (finishWrite s1 ip off').disk b := by
      rintro rfl
      rw [disk,store,update_self,update_self]
    have other : b ≠ iblock s1.sb.inodestart.toNat inum → s1.store b = s1.disk b →
        (finishWrite s1 ip off').store b = (finishWrite s1 ip off').disk b := by
      intro other same
      rw [disk,store,update_of_ne other,update_of_ne other,same]
    by_cases mine : b = iblock s1.sb.inodestart.toNat inum
    · exact .inl (evict_of_settled (dinode mine))
    by_cases same : s1.store b = s1.disk b
    · exact .inl (evict_of_settled (other mine same))
    rcases smudged with ⟨settled,-⟩ | ⟨s0,c,block,settled,smudge,sb2,disk2,inodes2⟩
    · exact absurd (settled b clean) same
    have disk1 : s1.disk = update s0.disk c block := by rw [smudge]; rfl
    have store1 : s1.store = if c ∈ s0.logged then update s0.store c block else s0.store := by rw [smudge]; rfl
    have here : b = c := by
      by_contra other
      refine same ?_
      rw [disk1,store1,update_of_ne other]
      split_ifs
      · rw [update_of_ne other,settled b clean]
      · exact settled b clean
    have unlogged : c ∉ s0.logged := by
      intro logged
      refine same ?_
      rw [disk1,store1,if_pos logged,here,update_self,update_self]
    have sb1 : s2.sb = s1.sb := by rw [sb2,smudge]; rfl
    obtain ⟨disk3,-,sb3⟩ := finish s2 (by rw [inodes2,smudge]; rfl)
    refine .inr ⟨finishWrite s2 ip off',?_,by rw [sb3,sb,sb1],?_⟩
    · rw [Int.toNat_natCast,again]
      rfl
    · change update (finishWrite s1 ip off').disk b ((finishWrite s1 ip off').store b) = _
      rw [disk,store,update_of_ne mine,disk3,sb1,disk2,store1,if_neg unlogged,settled b clean,disk1,here]
      rw [here] at mine
      funext a
      by_cases first : a = c
      · rw [first,update_self,update_of_ne mine]
      · grind [update_apply]

/-! What a short write leaves. -/

def SameOutside (old new : List Byte) (off : Nat) (r : Int) : Prop :=
  ∀ pos : Nat, ¬(off ≤ pos ∧ (pos : Int) < off + r) → new[pos]? = old[pos]?

theorem sameOutside_overwrite {content content' : List Byte} {off tot f : Nat} (place : off ≤ content.length)
    (wrote : content' = (overwrite content off (bytesOf src 0 f)).take (max content.length (off + tot)))
    (readable : ∀ k < f, (src k).isSome) :
    SameOutside content content' off tot ↔ ∀ k, tot ≤ k → k < f → off + k < content.length → src k = content[off + k]? := by
  have byte : ∀ k < f, (bytesOf src 0 f)[k]? = src k := by
    intro k small
    obtain ⟨b,here⟩ := Option.isSome_iff_exists.mp (readable k small)
    rw [bytesOf,getElem?_map,getElem?_range' (by omega)]
    simp [here]
  constructor
  · intro same k least small inside
    have here := same (off + k) (by omega)
    rw [wrote,getElem?_take_of_lt (by omega),getElem?_overwrite place,length_bytesOf,if_pos (by omega),
      Nat.add_sub_cancel_left,byte k small] at here
    exact here
  · intro same pos outside
    rw [wrote]
    by_cases inside : pos < content.length
    · rw [getElem?_take_of_lt (by omega),getElem?_overwrite place,length_bytesOf]
      split_ifs
      · have here := same (pos - off) (by omega) (by omega) (by omega)
        rw [byte _ (by omega),here]
        congr 1
        omega
      · rfl
    · rw [getElem?_eq_none (by rw [length_take]; omega),getElem?_eq_none (by omega)]

def State.file (s : State) (i : Nat) : List Byte := contents s.disk (s.dinode i)

/-- A write that returns less than `n` has changed only the bytes that it reports,
at once and after a block has left the buffer cache. -/
def Reports (s : State) (ip : Slot) (i : Nat) (src : Nat → Option Byte) (off n : BitVec 32) : Prop :=
  ∀ r s', s.writei ip src off n = .ok (r,s') → r < n.toNat →
    SameOutside (s.file i) (s'.file i) off.toNat r ∧
      ∀ b, s.store b = s.disk b → SameOutside (s.file i) ((s'.evict b).file i) off.toNat r

/-- If the write is accepted and byte `f` is the first of the buffer that cannot be
read, the bytes before it that go into the same block of the file are what the file
has there. -/
def Repeats (s : State) (i : Nat) (src : Nat → Option Byte) (off n : Nat) : Prop :=
  off ≤ (s.dinode i).size.toNat → off + n ≤ maxfile * bsize → ∀ f < n, src f = none → (∀ k < f, (src k).isSome) →
    ∀ k < f, (off + k) / bsize = (off + f) / bsize → off + k < (s.dinode i).size.toNat → src k = (s.file i)[off + k]?

theorem reports_iff (shape : Shape s.sb s.disk data s.dinode) (cached : Cached s ip i) {off n : BitVec 32} :
    Reports s ip i src off n ↔ Repeats s i src off.toNat n.toNat := by
  by_cases bad : (s.dinode i).size.toNat < off.toNat ∨ maxBytes < off.toNat + n.toNat
  · -- the write is refused
    have refused : s.writei ip src off n = .ok (-1,s) := writei_refused (by rw [cached.din]; tauto)
    refine ⟨fun _ place fits => by unfold maxBytes at bad; omega,fun _ r s' ran _ => ?_⟩
    rw [refused] at ran
    cases ran
    refine ⟨fun pos _ => rfl,fun b clean pos _ => ?_⟩
    have disk := evict_of_settled clean
    unfold State.file State.dinode
    rw [disk]
    rfl
  obtain ⟨place,fits⟩ : off.toNat ≤ (s.dinode i).size.toNat ∧ off.toNat + n.toNat ≤ maxBytes := by omega
  have length : (s.file i).length = (s.dinode i).size.toNat := length_contents ..
  obtain ⟨tot,f,s',ran,copied,most,readable,content,ends,sb,-⟩ := cached.writei shape src place fits
  rw [← length] at content
  have immediate := sameOutside_overwrite (by rw [length]; exact place) content readable
  constructor
  · intro reports _ _ f' small bad' first k early block inside
    -- the write has come to the block with byte f'
    have short : f ≤ f' := by
      by_contra later
      have readable' := readable f' (by omega)
      rw [bad'] at readable'
      cases readable'
    have same : f = f' ∧ tot ≤ k := by
      cases ends with
      | all whole => omega
      | full less used absent =>
        exfalso
        refine of_decide_eq_false absent (shape.mapped i cached.allocated _ ?_)
        have blocks : (off.toNat + tot) / bsize ≤ (off.toNat + k) / bsize := by
          rw [block]
          exact Nat.div_le_div_right (by omega)
        have start : (off.toNat + tot) / bsize * bsize ≤ off.toNat + k :=
          (Nat.mul_le_mul_right bsize blocks).trans (Nat.div_mul_le_self ..)
        exact Nat.lt_of_le_of_lt start inside
      | unreadable least less none' here start =>
        have last : f = f' := by
          by_contra other
          have readable' := first f (by omega)
          rw [none'] at readable'
          cases readable'
        subst last
        refine ⟨rfl,?_⟩
        rcases start with zero | aligned
        · omega
        · by_contra before
          have division := Nat.div_add_mod (off.toNat + tot) bsize
          have division' := Nat.div_add_mod (off.toNat + k) bsize
          rw [here,← block] at division
          omega
    obtain ⟨rfl,start⟩ := same
    exact immediate.mp (reports tot s' ran (by omega)).1 k start early (by rw [length]; exact inside)
  · intro repeats r s1 ran' less
    rw [ran] at ran'
    cases ran'
    have now : SameOutside (s.file i) (s'.file i) off.toNat tot := by
      refine immediate.mpr fun k least early inside => ?_
      cases ends with
      | all whole => omega
      | full less used absent => omega
      | @unreadable f least' short none' here start =>
        refine repeats place fits f short none' readable k early ?_ (by rw [← length]; exact inside)
        have upper : (off.toNat + k) / bsize ≤ (off.toNat + f) / bsize := Nat.div_le_div_right (by omega)
        have lower : (off.toNat + tot) / bsize ≤ (off.toNat + k) / bsize := Nat.div_le_div_right (by omega)
        rw [here] at lower
        exact Nat.le_antisymm upper lower
    refine ⟨now,fun b clean => ?_⟩
    rcases writei_evict ran clean with kept | ⟨s'',again,sb'',lost⟩
    · have file : (s'.evict b).file i = s'.file i := by
        unfold State.file State.dinode
        rw [kept]
        rfl
      rw [file]
      exact now
    · have file : (s'.evict b).file i = s''.file i := by
        unfold State.file State.dinode
        rw [lost,sb'']
        rfl
      rw [Int.toNat_natCast] at again
      obtain ⟨tot',f',s2,ran2,-,-,readable2,content2,-⟩ := cached.writei shape (cut src tot) place fits
      rw [again] at ran2
      obtain ⟨number,rfl⟩ := Prod.ext_iff.mp (Except.ok.inj ran2)
      have number : tot = tot' := Int.ofNat.inj number
      subst number
      rw [← length] at content2
      rw [file]
      refine (sameOutside_overwrite (by rw [length]; exact place) content2 readable2).mpr fun k least early => ?_
      have there := readable2 k early
      rw [cut,if_neg (by omega)] at there
      cases there

def halfBuffer (k : Nat) : Option Byte := if k = 0 then some 1 else none

theorem opened_file : (opened.file 2)[0]? = some 0 := by
  rw [State.file,contents,opened_dinode]
  rfl

theorem opened_not_repeats : ¬Repeats opened 2 halfBuffer 0 2 := by
  intro repeats
  have same := repeats (Nat.zero_le _) (by decide) 1 (by decide) rfl (fun k first => ?_) 0 (by decide) rfl (by rw [opened_dinode]; decide)
  · rw [opened_file] at same
    cases same
  · rw [show k = 0 by omega]
    rfl

end Xv6.Fs.Blocks
