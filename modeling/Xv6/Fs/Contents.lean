import Xv6.Fs.Blocks
import Mathlib.Tactic
import Mathlib.Data.List.TakeWhile

/-! Reading the contents of an inode whose blocks are all there: readi returns the
bytes and changes nothing. -/
namespace Xv6.Fs.Blocks
open Lib Lib.Bytes List

variable {s : State} {ip : Slot}
variable {n off tot turns : Nat} {good : Nat → Bool}

def State.addr (s : State) (ip : Slot) (bn : Nat) : BitVec 32 := blockAt s.disk (s.inode ip).din bn

def State.byte (s : State) (ip : Slot) (pos : Nat) : Byte := s.disk (s.addr ip (pos / bsize)).toNat (pos % bsize)

theorem bmapAddr_mapped {k : AddrId} (mapped : (s.inode ip).din.addrs k ≠ 0) :
    s.bmapAddr ip k = ((s.inode ip).din.addrs k,s) := if_neg mapped

theorem bmap_mapped {bn : Nat} (short : bn < maxfile) (mapped : s.addr ip bn ≠ 0) : s.bmap ip bn = .ok (s.addr ip bn,s) := by
  unfold State.addr blockAt at mapped ⊢
  unfold State.bmap
  split_ifs at mapped ⊢ with direct near none
  · rw [bmapAddr_mapped mapped]
  · exact absurd rfl mapped
  · rw [bmapAddr_mapped none]
    dsimp only
    rw [if_neg none,State.bmapEntry]
    exact congrArg Except.ok (if_neg mapped)
  · unfold maxfile at short
    omega
  · unfold maxfile at short
    omega

def State.Mapped (s : State) (ip : Slot) (pos n : Nat) : Prop :=
  ∀ k < n, (pos + k) / bsize < maxfile ∧ s.addr ip ((pos + k) / bsize) ≠ 0

theorem byte_chunk {k : Nat} (inside : k < bsize - off % bsize) :
    s.disk (s.addr ip (off / bsize)).toNat (off % bsize + k) = s.byte ip (off + k) := by
  have split := Nat.div_add_mod off bsize
  have block : (off + k) / bsize = off / bsize :=
    Nat.div_eq_of_lt_le (by rw [Nat.mul_comm]; omega) (by rw [Nat.add_mul,Nat.mul_comm]; omega)
  have place : (off + k) % bsize = off % bsize + k := by
    have split' := Nat.div_add_mod (off + k) bsize
    rw [block] at split'
    omega
  rw [State.byte,block,place]

/-- A read of bytes that are there copies them out up to the first that cannot be
stored. -/
theorem readiFrom_copies (inside : tot ≤ n) (enough : n - tot ≤ turns)
    (mapped : s.Mapped ip off (n - tot)) :
    State.readiFrom ip good n turns tot off s = .ok (if (range (n - tot)).all fun k => good (tot + k) then n else -1,
      ((range (n - tot)).takeWhile fun k => good (tot + k)).map fun k => s.byte ip (off + k),s) := by
  induction turns generalizing tot off with
  | zero =>
    have last : n - tot = 0 := by omega
    have same : tot = n := by omega
    rw [State.readiFrom,last,same]
    rfl
  | succ turns ih =>
    rw [State.readiFrom]
    by_cases more : tot < n
    · have size : 0 < bsize := by decide
      have low := Nat.mod_lt off size
      obtain ⟨short,here⟩ := mapped 0 (by omega)
      rw [Nat.add_zero] at short here
      rw [if_pos more,bmap_mapped short here]
      change (if s.addr ip (off / bsize) = 0 then _ else _) = _
      rw [if_neg here]
      dsimp only
      generalize amount : min (n - tot) (bsize - off % bsize) = m
      have rest : n - tot = m + (n - (tot + m)) := by omega
      have data : ∀ list : List Nat, (∀ k ∈ list, k < m) →
          list.map (fun k => s.disk (s.addr ip (off / bsize)).toNat (off % bsize + k)) = list.map fun k => s.byte ip (off + k) :=
        fun list small => map_congr_left fun k member => byte_chunk (by have := small k member; omega)
      have small : ∀ k ∈ (range m).takeWhile fun k => good (tot + k), k < m :=
        fun k member => mem_range.mp ((takeWhile_sublist _).subset member)
      rw [rest,range_add,all_append,takeWhile_append,length_range,takeWhile_map,all_map,
        data _ small]
      have shift : ((fun k => good (tot + k)) ∘ fun k => m + k) = fun k => good (tot + m + k) :=
        funext fun k => congrArg good (Nat.add_assoc tot m k).symm
      rw [shift]
      by_cases whole : ((range m).takeWhile fun k => good (tot + k)).length = m
      · have chunk : (range m).takeWhile (fun k => good (tot + k)) = range m :=
          (takeWhile_sublist _).eq_of_length (by rw [whole,length_range])
        have goods : ((range m).all fun k => good (tot + k)) = true :=
          all_eq_true.mpr (takeWhile_eq_self_iff.mp chunk)
        have later : s.Mapped ip (off + m) (n - (tot + m)) := by
          intro k early
          have there := mapped (m + k) (by omega)
          rwa [← Nat.add_assoc] at there
        rw [if_pos whole,if_pos whole,ih (by omega) (by omega) later,chunk,goods,Bool.true_and,map_append,map_map]
        refine congrArg Except.ok (Prod.ext rfl (Prod.ext (congrArg₂ (· ++ ·) rfl ?_) rfl))
        exact map_congr_left fun k _ => congrArg (s.byte ip) (Nat.add_assoc off m k)
      · have bad : ((range m).all fun k => good (tot + k)) = false := by
          by_contra goods
          rw [Bool.not_eq_false,all_eq_true] at goods
          rw [takeWhile_eq_self_iff.mpr goods,length_range] at whole
          exact whole rfl
        rw [if_neg whole,if_neg whole,bad,Bool.false_and]
        rfl
    · have last : n - tot = 0 := by omega
      have same : tot = n := by omega
      rw [if_neg more,last,same]
      rfl

theorem readiFrom_mapped (all : ∀ k, good k = true) (inside : tot ≤ n)
    (enough : n - tot ≤ turns) (mapped : s.Mapped ip off (n - tot)) :
    State.readiFrom ip good n turns tot off s = .ok (n,(range (n - tot)).map fun k => s.byte ip (off + k),s) := by
  have goods : ((range (n - tot)).all fun k => good (tot + k)) = true := by simp [all]
  have whole : ((range (n - tot)).takeWhile fun k => good (tot + k)) = range (n - tot) :=
    takeWhile_eq_self_iff.mpr fun k _ => all (tot + k)
  rw [readiFrom_copies inside enough mapped,if_pos goods,whole]

/-- A read inside the file returns the bytes that stand there. -/
theorem readi_mapped {off n : BitVec 32} (all : ∀ k, good k = true)
    (inside : off.toNat + n.toNat ≤ (s.inode ip).din.size.toNat) (mapped : s.Mapped ip off.toNat n.toNat) :
    s.readi ip good off n = .ok (n.toNat,(range n.toNat).map fun k => s.byte ip (off.toNat + k),s) := by
  have bound := (s.inode ip).din.size.isLt
  have total : (off + n).toNat = off.toNat + n.toNat := by
    rw [BitVec.toNat_add]
    exact Nat.mod_eq_of_lt (by omega)
  unfold State.readi
  simp only [BitVec.lt_def,total]
  rw [if_neg (by omega),if_neg (by omega)]
  exact readiFrom_mapped all (Nat.zero_le _) (Nat.le_refl _) mapped

theorem readDirent_mapped (inside : off + direntSize ≤ (s.inode ip).din.size.toNat)
    (mapped : s.Mapped ip off direntSize) :
    s.readDirent ip off = .ok (some (.ofBytes fun k => s.byte ip (off + k)),s) := by
  have bound := (s.inode ip).din.size.isLt
  have place : (BitVec.ofNat 32 off).toNat = off := by
    rw [BitVec.toNat_ofNat]
    exact Nat.mod_eq_of_lt (by omega)
  have length : (BitVec.ofNat 32 direntSize).toNat = direntSize := rfl
  have read : s.readi ip (fun _ => true) (BitVec.ofNat 32 off) (BitVec.ofNat 32 direntSize) = _ :=
    readi_mapped (fun _ => rfl) (by rw [place,length]; exact inside) (by rw [place,length]; exact mapped)
  rw [place,length] at read
  have decoded : Dirent.ofBytes (fun k => ((range direntSize).map fun k => s.byte ip (off + k)).getD k 0) =
      .ofBytes fun k => s.byte ip (off + k) := by
    refine Dirent.ofBytes_congr fun k small => ?_
    rw [getD_eq_getElem?_getD,getElem?_map,getElem?_range small]
    rfl
  rw [State.readDirent,read,← decoded]
  rfl

end Xv6.Fs.Blocks
