import Mathlib.Data.BitVec

/-! Little-endian 16-bit, 32-bit and 64-bit words inside a byte-addressed block. -/
namespace Lib.Bytes
open List

/-- The word at index `i` of a block seen as an array of 32-bit words. -/
def get32 (block : Nat → BitVec 8) (i : Nat) : BitVec 32 :=
  block (4 * i + 3) ++ (block (4 * i + 2) ++ (block (4 * i + 1) ++ block (4 * i)))

def set32 (block : Nat → BitVec 8) (i : Nat) (word : BitVec 32) : Nat → BitVec 8 :=
  fun k => if k / 4 = i then word.extractLsb' (8 * (k % 4)) 8 else block k

private theorem join_bytes (word : BitVec 32) :
    word.extractLsb' 24 8 ++ (word.extractLsb' 16 8 ++ (word.extractLsb' 8 8 ++ word.extractLsb' 0 8)) = word := by
  apply BitVec.eq_of_getLsbD_eq
  intro i bound
  simp only [BitVec.getLsbD_append,BitVec.getLsbD_extractLsb']
  split_ifs
  all_goals
    rw [decide_eq_true (by omega),Bool.true_and]
    exact congrArg word.getLsbD (by omega)

@[simp] theorem get32_set32_same (block : Nat → BitVec 8) (i : Nat) (word : BitVec 32) :
    get32 (set32 block i word) i = word := by
  have low : 4 * i / 4 = i ∧ 4 * i % 4 = 0 := by omega
  have second : (4 * i + 1) / 4 = i ∧ (4 * i + 1) % 4 = 1 := by omega
  have third : (4 * i + 2) / 4 = i ∧ (4 * i + 2) % 4 = 2 := by omega
  have high : (4 * i + 3) / 4 = i ∧ (4 * i + 3) % 4 = 3 := by omega
  simp only [get32,set32,low,second,third,high,if_true]
  exact join_bytes word

theorem get32_set32_ne (block : Nat → BitVec 8) {i j : Nat} (word : BitVec 32) (ne : j ≠ i) :
    get32 (set32 block i word) j = get32 block j := by
  have low : 4 * j / 4 ≠ i := by omega
  have second : (4 * j + 1) / 4 ≠ i := by omega
  have third : (4 * j + 2) / 4 ≠ i := by omega
  have high : (4 * j + 3) / 4 ≠ i := by omega
  simp only [get32,set32,low,second,third,high,if_false]

-- the bytes of an array of 32-bit words
def words (word : Nat → BitVec 32) : Nat → BitVec 8 := fun k => (word (k / 4)).extractLsb' (8 * (k % 4)) 8

theorem get32_congr {block other : Nat → BitVec 8} {i j : Nat} (same : ∀ k < 4, block (4 * i + k) = other (4 * j + k)) :
    get32 block i = get32 other j := by
  have first := same 0 (by omega)
  have second := same 1 (by omega)
  have third := same 2 (by omega)
  have fourth := same 3 (by omega)
  simp only [Nat.add_zero] at first
  rw [get32,get32,first,second,third,fourth]

@[simp] theorem get32_zero (i : Nat) : get32 (fun _ => 0) i = 0 := by
  simp only [get32]
  decide

@[simp] theorem get32_words (word : Nat → BitVec 32) (i : Nat) : get32 (words word) i = word i := by
  rw [← get32_set32_same (fun _ => 0) i (word i)]
  apply get32_congr
  intro k small
  have here : (4 * i + k) / 4 = i := by omega
  rw [words,set32,here,if_pos rfl]

/-- The word at index `i` of a block seen as an array of 16-bit words. -/
def get16 (block : Nat → BitVec 8) (i : Nat) : BitVec 16 := block (2 * i + 1) ++ block (2 * i)

-- the bytes of an array of 16-bit words
def halves (half : Nat → BitVec 16) : Nat → BitVec 8 := fun k => (half (k / 2)).extractLsb' (8 * (k % 2)) 8

theorem get16_congr {block other : Nat → BitVec 8} {i j : Nat} (same : ∀ k < 2, block (2 * i + k) = other (2 * j + k)) :
    get16 block i = get16 other j := by
  have low := same 0 (by omega)
  have high := same 1 (by omega)
  simp only [Nat.add_zero] at low
  rw [get16,get16,low,high]

@[simp] theorem get16_halves (half : Nat → BitVec 16) (i : Nat) : get16 (halves half) i = half i := by
  have low : 2 * i / 2 = i ∧ 2 * i % 2 = 0 := by omega
  have high : (2 * i + 1) / 2 = i ∧ (2 * i + 1) % 2 = 1 := by omega
  simp only [get16,halves,low,high]
  apply BitVec.eq_of_getLsbD_eq
  intro j bound
  simp only [BitVec.getLsbD_append,BitVec.getLsbD_extractLsb']
  split_ifs
  all_goals
    rw [decide_eq_true (by omega),Bool.true_and]
    exact congrArg (half i).getLsbD (by omega)

/-- The word at index `i` of a block seen as an array of 64-bit words. -/
def get64 (block : Nat → BitVec 8) (i : Nat) : BitVec 64 := get32 block (2 * i + 1) ++ get32 block (2 * i)

def set64 (block : Nat → BitVec 8) (i : Nat) (word : BitVec 64) : Nat → BitVec 8 :=
  set32 (set32 block (2 * i) (word.extractLsb' 0 32)) (2 * i + 1) (word.extractLsb' 32 32)

@[simp] theorem get64_set64_same (block : Nat → BitVec 8) (i : Nat) (word : BitVec 64) :
    get64 (set64 block i word) i = word := by
  have apart : 2 * i ≠ 2 * i + 1 := by omega
  rw [get64,set64,get32_set32_same,get32_set32_ne _ _ apart,get32_set32_same]
  apply BitVec.eq_of_getLsbD_eq
  intro j bound
  simp only [BitVec.getLsbD_append,BitVec.getLsbD_extractLsb']
  split_ifs
  all_goals
    rw [decide_eq_true (by omega),Bool.true_and]
    exact congrArg word.getLsbD (by omega)

theorem get64_set64_ne (block : Nat → BitVec 8) {i j : Nat} (word : BitVec 64) (ne : j ≠ i) :
    get64 (set64 block i word) j = get64 block j := by
  rw [get64,get64,set64,get32_set32_ne _ _ (by omega),get32_set32_ne _ _ (by omega),get32_set32_ne _ _ (by omega),
    get32_set32_ne _ _ (by omega)]

@[simp] theorem get64_zero (i : Nat) : get64 (fun _ => 0) i = 0 := by
  rw [get64,get32_zero,get32_zero]
  decide

-- a block after some bytes have been copied to position at_
def copyAt (block : Nat → BitVec 8) (at_ : Nat) (bytes : List (BitVec 8)) : Nat → BitVec 8 :=
  fun k => if at_ ≤ k ∧ k < at_ + bytes.length then bytes.getD (k - at_) 0 else block k

@[simp] theorem copyAt_nil (block : Nat → BitVec 8) (at_ : Nat) : copyAt block at_ [] = block :=
  funext fun _ => if_neg fun ⟨low,high⟩ => absurd high (Nat.not_lt.mpr low)

/-! Lists of bytes. -/

-- bytes written over a list from position off on, and past its end
def overwrite (content : List (BitVec 8)) (off : Nat) (bytes : List (BitVec 8)) : List (BitVec 8) :=
  content.take off ++ bytes ++ content.drop (off + bytes.length)

theorem length_overwrite_le (content : List (BitVec 8)) (off : Nat) (bytes : List (BitVec 8)) :
    (overwrite content off bytes).length ≤ max content.length (off + bytes.length) := by
  simp only [overwrite,length_append,length_take,length_drop]
  omega

theorem length_overwrite {content : List (BitVec 8)} {off : Nat} (inside : off ≤ content.length) (bytes : List (BitVec 8)) :
    (overwrite content off bytes).length = max content.length (off + bytes.length) := by
  simp only [overwrite,length_append,length_take,length_drop]
  omega

theorem getElem?_overwrite {content : List (BitVec 8)} {off : Nat} (inside : off ≤ content.length) (bytes : List (BitVec 8))
    (k : Nat) : (overwrite content off bytes)[k]? =
      if off ≤ k ∧ k < off + bytes.length then bytes[k - off]? else content[k]? := by
  have short : (content.take off).length = off := by
    rw [length_take]
    omega
  rw [overwrite,append_assoc,getElem?_append,short]
  split_ifs with before within within
  · omega
  · exact getElem?_take_of_lt before
  · rw [getElem?_append_left (by omega)]
  · rw [getElem?_append_right (by omega),getElem?_drop]
    exact congrArg (content[·]?) (by omega)

@[simp] theorem overwrite_nil (content : List (BitVec 8)) (off : Nat) : overwrite content off [] = content := by
  simp [overwrite]

theorem overwrite_append {content : List (BitVec 8)} {off : Nat} (inside : off ≤ content.length) (first second : List (BitVec 8)) :
    overwrite (overwrite content off first) (off + first.length) second = overwrite content off (first ++ second) := by
  refine ext_getElem? fun k => ?_
  rw [getElem?_overwrite (by rw [length_overwrite inside]; exact Nat.le_max_right ..),getElem?_overwrite inside,
    getElem?_overwrite inside,length_append,getElem?_append]
  by_cases late : off + first.length ≤ k ∧ k < off + first.length + second.length
  · rw [if_pos late,if_pos (by omega),if_neg (by omega)]
    exact congrArg (second[·]?) (by omega)
  · rw [if_neg late]
    by_cases early : off ≤ k ∧ k < off + first.length
    · rw [if_pos early,if_pos (by omega),if_pos (by omega)]
    · rw [if_neg early,if_neg (by omega)]

end Lib.Bytes
