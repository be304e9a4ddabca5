import Xv6.Fs.Contents

/-! The blocks that an operation passes to log_write. -/
namespace Xv6.Fs.Blocks
open Lib Lib.Bytes
open Log (Block Disk)

variable {s s' s'' : State} {ip : Slot} {may may' : Nat → Prop}

/-- Between two states of one transaction only blocks in `may` are passed to
log_write. -/
structure Logs (s s' : State) (may : Nat → Prop) : Prop where
  blocks : ∃ new, s'.logged = new ++ s.logged ∧ ∀ b ∈ new, may b
  outstanding : s'.outstanding = s.outstanding
  transactions : s'.transactions = s.transactions

namespace Logs

theorem same (logged : s'.logged = s.logged) (outstanding : s'.outstanding = s.outstanding)
    (transactions : s'.transactions = s.transactions) : Logs s s' may :=
  ⟨⟨[],logged,by simp⟩,outstanding,transactions⟩

theorem refl (s : State) : Logs s s may := same rfl rfl rfl

theorem trans (first : Logs s s' may) (second : Logs s' s'' may) : Logs s s'' may := by
  obtain ⟨new,logged,inside⟩ := first.blocks
  obtain ⟨new',logged',inside'⟩ := second.blocks
  refine ⟨⟨new' ++ new,by rw [logged',logged,List.append_assoc],fun b member => ?_⟩,
    second.outstanding.trans first.outstanding,second.transactions.trans first.transactions⟩
  rcases List.mem_append.mp member with later | earlier
  · exact inside' b later
  · exact inside b earlier

theorem mono (logs : Logs s s' may) (imp : ∀ b, may b → may' b) : Logs s s' may' := by
  obtain ⟨new,logged,inside⟩ := logs.blocks
  exact ⟨⟨new,logged,fun b member => imp b (inside b member)⟩,logs.outstanding,logs.transactions⟩

theorem setBlock (s : State) {b : Nat} (data : Block) (allowed : may b) : Logs s (s.setBlock b data) may :=
  ⟨⟨[b],rfl,by simpa using allowed⟩,rfl,rfl⟩

theorem setDinode (s : State) {i : Nat} (din : Dinode) (allowed : may (iblock s.sb.inodestart.toNat i)) :
    Logs s (s.setDinode i din) may := setBlock s _ allowed

theorem inode (logs : Logs s s' may) (table : Slot → Inode) : Logs s { s' with inode := table } may :=
  ⟨logs.blocks,logs.outstanding,logs.transactions⟩

end Logs

/-! Allocation. -/

theorem mark_logs (s : State) (b : Nat) (used : Bool) : Logs s (s.mark b used) (· = bblock s.sb.bmapstart.toNat b) :=
  .setBlock s _ rfl

def Marks (s : State) (addr b : Nat) : Prop := b = addr ∨ b = bblock s.sb.bmapstart.toNat addr

theorem balloc_cases (s : State) :
    (s.balloc = (0,s) ∧ ∀ b < s.sb.size.toNat, s.used b = true) ∨
      ∃ b < s.sb.size.toNat, s.used b = false ∧ (∀ c < b, s.used c = true) ∧
        s.balloc = (BitVec.ofNat 32 b,(s.mark b true).setBlock b fun _ => 0) := by
  unfold State.balloc
  cases found : (List.range s.sb.size.toNat).find? fun b => !s.used b with
  | none =>
    refine .inl ⟨rfl,fun b small => ?_⟩
    simpa using List.find?_eq_none.mp found b (List.mem_range.mpr small)
  | some b =>
    obtain ⟨free,before,after,split,none⟩ := List.find?_eq_some_iff_append.mp found
    have member : b ∈ List.range s.sb.size.toNat := List.mem_of_find?_eq_some found
    refine .inr ⟨b,List.mem_range.mp member,by simpa using free,fun c early => ?_,rfl⟩
    have inside : c ∈ before := by
      have length : before.length = b := by
        have here : (List.range s.sb.size.toNat)[before.length]? = some b := by rw [split]; simp
        exact (List.getElem?_eq_some_iff.mp here).2 ▸ (List.getElem_range _).symm
      have there : (List.range s.sb.size.toNat)[c]? = some c := List.getElem?_range (by have := List.mem_range.mp member; omega)
      rw [split,List.getElem?_append_left (by omega)] at there
      exact List.mem_of_getElem? there
    simpa using none c inside

theorem balloc_logs (s : State) : Logs s s.balloc.2 (Marks s s.balloc.1.toNat) := by
  rcases balloc_cases s with ⟨full,-⟩ | ⟨b,small,-,-,found⟩
  · rw [full]
    exact .refl s
  · have number : (BitVec.ofNat 32 b).toNat = b := by
      rw [BitVec.toNat_ofNat]
      exact Nat.mod_eq_of_lt (by have := s.sb.size.isLt; omega)
    rw [found,number]
    exact ((mark_logs s b true).mono fun c same => .inr same).trans (.setBlock _ _ (.inl rfl))

@[simp] theorem balloc_inode (s : State) : s.balloc.2.inode = s.inode := by
  rcases balloc_cases s with ⟨full,-⟩ | ⟨b,-,-,-,found⟩
  · rw [full]
  · rw [found]
    rfl

@[simp] theorem balloc_sb (s : State) : s.balloc.2.sb = s.sb := by
  rcases balloc_cases s with ⟨full,-⟩ | ⟨b,-,-,-,found⟩
  · rw [full]
  · rw [found]
    rfl

def State.indirect (s : State) (ip : Slot) : BitVec 32 := (s.inode ip).din.addrs indirectId

theorem bmapAddr_logs (s : State) (ip : Slot) (k : AddrId) :
    Logs s (s.bmapAddr ip k).2 (Marks s (s.bmapAddr ip k).1.toNat) := by
  unfold State.bmapAddr
  dsimp only
  split_ifs with absent none
  · rw [show (0 : BitVec 32).toNat = s.balloc.1.toNat by rw [none]]
    exact balloc_logs s
  · exact (balloc_logs s).trans (.same rfl rfl rfl)
  · exact .refl s

theorem bmapEntry_logs (s : State) (b k : Nat) :
    Logs s (s.bmapEntry b k).2 fun c => c = b ∨ Marks s (s.bmapEntry b k).1.toNat c := by
  unfold State.bmapEntry
  dsimp only
  split_ifs with absent none
  · rw [show (0 : BitVec 32).toNat = s.balloc.1.toNat by rw [none]]
    exact (balloc_logs s).mono fun c marked => .inr marked
  · exact ((balloc_logs s).mono fun c marked => .inr marked).trans (.setBlock _ _ (.inl rfl))
  · exact .refl s

@[simp] theorem bmapAddr_sb (s : State) (ip : Slot) (k : AddrId) : (s.bmapAddr ip k).2.sb = s.sb := by
  unfold State.bmapAddr
  dsimp only
  split_ifs
  · exact balloc_sb s
  · exact balloc_sb s
  · rfl

@[simp] theorem bmapEntry_sb (s : State) (b k : Nat) : (s.bmapEntry b k).2.sb = s.sb := by
  unfold State.bmapEntry
  dsimp only
  split_ifs
  · exact balloc_sb s
  · exact balloc_sb s
  · rfl

@[simp] theorem bmapEntry_inode (s : State) (b k : Nat) : (s.bmapEntry b k).2.inode = s.inode := by
  unfold State.bmapEntry
  dsimp only
  split_ifs
  · exact balloc_inode s
  · exact balloc_inode s
  · rfl

theorem bmapAddr_indirect (s : State) (ip : Slot) :
    (s.bmapAddr ip indirectId).1 = (s.bmapAddr ip indirectId).2.indirect ip ∧
      (s.indirect ip ≠ 0 → (s.bmapAddr ip indirectId).2 = s) := by
  unfold State.bmapAddr
  dsimp only
  split_ifs with absent none
  · refine ⟨?_,fun there => absurd absent there⟩
    rw [State.indirect,balloc_inode,absent]
  · refine ⟨?_,fun there => absurd absent there⟩
    simp [State.indirect,State.setAddr,State.setDin,State.setInode]
  · exact ⟨rfl,fun _ => rfl⟩

theorem bmapAddr_direct (s : State) (ip : Slot) {k : AddrId} (direct : k ≠ indirectId) :
    (s.bmapAddr ip k).2.indirect ip = s.indirect ip := by
  unfold State.bmapAddr
  dsimp only
  split_ifs with absent none
  · rw [State.indirect,balloc_inode]
    rfl
  · simp [State.indirect,State.setAddr,State.setDin,State.setInode,Function.update_of_ne direct.symm]
  · rfl

def Mapping (s s' : State) (ip : Slot) (addr b : Nat) : Prop :=
  Marks s addr b ∨ s'.indirect ip ≠ 0 ∧ Marks s (s'.indirect ip).toNat b

theorem bmap_logs (s : State) (ip : Slot) {bn : Nat} (short : bn < maxfile) :
    ∃ addr s', s.bmap ip bn = .ok (addr,s') ∧ Logs s s' (Mapping s s' ip addr.toNat) ∧ s'.sb = s.sb ∧
      (s.indirect ip ≠ 0 → s'.indirect ip = s.indirect ip) := by
  unfold State.bmap
  split_ifs with direct near
  · have other : (⟨bn,by omega⟩ : AddrId) ≠ indirectId := fun same => absurd (congrArg Fin.val same) (by simp [indirectId]; omega)
    exact ⟨_,_,rfl,(bmapAddr_logs s ip _).mono fun b marked => .inl marked,bmapAddr_sb s ip _,fun _ => bmapAddr_direct s ip other⟩
  · obtain ⟨address,kept⟩ := bmapAddr_indirect s ip
    have first := bmapAddr_logs s ip indirectId
    have sb := bmapAddr_sb s ip indirectId
    generalize s.bmapAddr ip indirectId = result at address kept first sb
    obtain ⟨addr,s1⟩ := result
    dsimp only at address kept first sb ⊢
    split_ifs with none
    · rw [none] at first
      exact ⟨0,s1,rfl,first.mono fun b marked => .inl marked,sb,fun there => by rw [kept there]⟩
    · have second := bmapEntry_logs s1 addr.toNat (bn - ndirect)
      have sb2 := bmapEntry_sb s1 addr.toNat (bn - ndirect)
      have inode := bmapEntry_inode s1 addr.toNat (bn - ndirect)
      generalize s1.bmapEntry addr.toNat (bn - ndirect) = result at second sb2 inode
      obtain ⟨addr2,s2⟩ := result
      dsimp only at second sb2 inode
      have there : s2.indirect ip = addr := by rw [State.indirect,inode,address]; rfl
      refine ⟨addr2,s2,rfl,(first.mono fun b marked => ?_).trans (second.mono fun b marked => ?_),sb2.trans sb,fun old => ?_⟩
      · exact .inr ⟨by rwa [there],by rwa [there]⟩
      · rcases marked with same | marked
        · exact .inr ⟨by rwa [there],.inl (by rw [same,there])⟩
        · rw [Marks,sb] at marked
          exact .inl marked
      · rw [there,address,kept old]
  · unfold maxfile at short
    omega

theorem bmap_touches (s : State) (ip : Slot) {bn : Nat} (short : bn < maxfile) :
    ∃ addr s', s.bmap ip bn = .ok (addr,s') ∧ s'.sb = s.sb ∧ (s.indirect ip ≠ 0 → s'.indirect ip = s.indirect ip) ∧
      ∃ E : Finset Nat, addr.toNat ∈ E ∧ E.card + (if s.addr ip bn ≠ 0 then 1 else 0) ≤ 2 ∧
        Logs s s' fun b => b ∈ E ∨ s'.indirect ip ≠ 0 ∧ Marks s (s'.indirect ip).toNat b := by
  by_cases mapped : s.addr ip bn ≠ 0
  · refine ⟨_,s,bmap_mapped short mapped,rfl,fun _ => rfl,{(s.addr ip bn).toNat},by simp,?_,.refl s⟩
    rw [if_pos mapped,Finset.card_singleton]
  · obtain ⟨addr,s',ran,logs,sb,kept⟩ := bmap_logs s ip short
    refine ⟨addr,s',ran,sb,kept,{addr.toNat,bblock s.sb.bmapstart.toNat addr.toNat},by simp,?_,logs.mono fun b marked => ?_⟩
    · rw [if_neg mapped]
      exact Finset.card_le_two
    · rcases marked with (same | same) | indirect
      · exact .inl (by simp [same])
      · exact .inl (by simp [same])
      · exact .inr indirect

/-! writei. -/

def span (off len : Nat) : Nat := if len = 0 then 0 else (off + len - 1) / bsize - off / bsize + 1

theorem span_turn {off len m : Nat} (some : 0 < len) (amount : min len (bsize - off % bsize) = m) :
    span (off + m) (len - m) + 1 = span off len := by
  unfold span bsize at *
  split_ifs <;> omega

theorem writeiFrom_logs {src : Nat → Option Byte} {n turns tot off : Nat} (inside : tot ≤ n) (enough : n - tot ≤ turns)
    (fits : off + (n - tot) ≤ maxfile * bsize) :
    ∃ tot' off' s', State.writeiFrom ip src n turns tot off s = .ok (tot',off',s') ∧ s'.sb = s.sb ∧
      ∃ (D : Finset Nat) (ind : Nat), (s.indirect ip ≠ 0 → ind = (s.indirect ip).toNat) ∧
        D.card + (if s.addr ip (off / bsize) ≠ 0 ∧ tot < n then 1 else 0) ≤ 2 * span off (n - tot) ∧
        Logs s s' fun b => b ∈ D ∨ Marks s ind b := by
  induction turns generalizing s tot off with
  | zero =>
    have last : n - tot = 0 := by omega
    refine ⟨tot,off,s,rfl,rfl,∅,(s.indirect ip).toNat,fun _ => rfl,?_,.refl s⟩
    rw [last,if_neg (by omega)]
    simp
  | succ turns ih =>
    rw [State.writeiFrom]
    by_cases more : tot < n
    · have short : off / bsize < maxfile := Nat.div_lt_of_lt_mul (by rw [Nat.mul_comm]; omega)
      obtain ⟨addr,s1,ran,sb1,kept,E,member,count,logs⟩ := bmap_touches s ip short
      have blocks : 0 < span off (n - tot) := by
        rw [span,if_neg (by omega)]
        omega
      rw [if_pos more,ran]
      simp only [more,and_true]
      generalize (if s.addr ip (off / bsize) ≠ 0 then 1 else 0) = saved at count ⊢
      -- what the turn logs if it is the last
      have stop : ∀ s2, Logs s1 s2 (fun _ => False) → ∃ (D : Finset Nat) (ind : Nat),
          (s.indirect ip ≠ 0 → ind = (s.indirect ip).toNat) ∧ D.card + saved ≤ 2 * span off (n - tot) ∧
          Logs s s2 fun b => b ∈ D ∨ Marks s ind b := by
        intro s2 quiet
        refine ⟨E,(s1.indirect ip).toNat,fun old => by rw [kept old],by omega,?_⟩
        exact (logs.mono fun b marked => marked.imp id And.right).trans (quiet.mono fun _ => False.elim)
      change ∃ tot' off' s', (if addr = 0 then _ else _) = _ ∧ _
      by_cases none : addr = 0
      · rw [if_pos none]
        exact ⟨tot,off,s1,rfl,sb1,stop s1 (.refl s1)⟩
      rw [if_neg none]
      dsimp only
      generalize amount : min (n - tot) (bsize - off % bsize) = m
      split_ifs with failed
      · exact ⟨tot,off,_,rfl,sb1,stop _ (.same rfl rfl rfl)⟩
      · generalize copyAt (s1.disk addr.toNat) (off % bsize) _ = block
        obtain ⟨tot',off',s',ran',sb',D,ind,fixed,count',logs'⟩ := @ih (s1.setBlock addr.toNat block)
          (tot + m) (off + m) (by omega) (by unfold bsize at *; omega) (by omega)
        have turn := span_turn (by omega) amount
        have left : n - (tot + m) = n - tot - m := by omega
        refine ⟨tot',off',s',ran',sb'.trans sb1,E ∪ D,ind,fun old => ?_,?_,?_⟩
        · rw [← kept old]
          exact fixed (by change s1.indirect ip ≠ 0; rwa [kept old])
        · rw [left] at count'
          have union := Finset.card_union_le E D
          omega
        · refine (logs.mono fun b marked => ?_).trans ((Logs.setBlock _ _ (.inl (Finset.mem_union_left _ member))).trans
            (logs'.mono fun b marked => ?_))
          · refine marked.imp (Finset.mem_union_left D) fun ⟨there,marks⟩ => ?_
            rw [show ind = (s1.indirect ip).toNat from fixed there]
            exact marks
          · refine marked.imp (Finset.mem_union_right E) fun marks => ?_
            rw [Marks,← sb1]
            exact marks
    · have last : n - tot = 0 := by omega
      refine ⟨tot,off,s,by rw [if_neg more],rfl,∅,(s.indirect ip).toNat,fun _ => rfl,?_,.refl s⟩
      rw [last,if_neg (by omega)]
      simp

def State.HoleFree (s : State) (ip : Slot) : Prop := ∀ k, k * bsize < (s.inode ip).din.size.toNat → s.addr ip k ≠ 0

theorem span_chunk (off : Nat) {n : Nat} (few : n ≤ maxWrite) : span off n ≤ 3 ∨ span off n = 4 ∧ off % bsize ≠ 0 ∧ 0 < n := by
  have most : maxWrite = 3072 := rfl
  unfold span bsize
  split_ifs <;> omega

def wideSb : Superblock := ⟨fsmagic,20000,0,16,0,2,2,3⟩

def wide : State := boot fun b => if b = 1 then wideSb.toBytes else fun _ => 0

theorem wide_holeFree : wide.HoleFree firstSlot := fun _ below => absurd below (Nat.not_lt_zero _)

end Xv6.Fs.Blocks
