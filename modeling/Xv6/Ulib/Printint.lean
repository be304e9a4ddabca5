import Mathlib.Data.BitVec
import Mathlib.Data.Nat.Digits.Lemmas
import Xv6.Param

/-! printint in kernel/printf.c and in user/printf.c, which print a 64-bit number by way
of a buffer of 20 bytes. -/
namespace Xv6.Ulib
open List

def bufSize : Nat := 20

def put (buf : List Byte) (c : Byte) : Option (List Byte) := if buf.length < bufSize then some (buf ++ [c]) else none

def convert (digits : List Byte) (base : BitVec 64) : (turns : Nat) → (x : BitVec 64) → (buf : List Byte) → Option (List Byte)
  | 0, _, _ => none
  | turns + 1, x, buf =>
    match put buf (digits.getD (x % base).toNat 0) with
    | none => none
    | some buf => if x / base ≠ 0 then convert digits base turns (x / base) buf else some buf

def kernelDigits : List Byte := [0x30,0x31,0x32,0x33,0x34,0x35,0x36,0x37,0x38,0x39,0x61,0x62,0x63,0x64,0x65,0x66]

def digits : List Byte := [0x30,0x31,0x32,0x33,0x34,0x35,0x36,0x37,0x38,0x39,0x41,0x42,0x43,0x44,0x45,0x46]

def minus : Byte := 0x2D

/-- What the kernel's printint gives to consputc, in at most so many turns of its loop;
none also if it writes beyond the end of its buffer. -/
def kernelPrintint (turns : Nat) (xx : BitVec 64) (base sign : BitVec 32) : Option (List Byte) :=
  -- sign && (sign = (xx < 0))
  let sign : BitVec 32 := if sign ≠ 0 then (if xx.toInt < 0 then 1 else 0) else sign
  let x := if sign ≠ 0 then -xx else xx
  match convert kernelDigits (base.signExtend 64) turns x [] with
  | none => none
  | some buf => (if sign ≠ 0 then put buf minus else some buf).map reverse

/-- What the user library's printint gives to putc. -/
def printint (turns : Nat) (xx : BitVec 64) (base sgn : BitVec 32) : Option (List Byte) :=
  let neg := decide (sgn ≠ 0 ∧ xx.toInt < 0)
  let x := if neg then -xx else xx
  match convert digits (base.signExtend 64) turns x [] with
  | none => none
  | some buf => (if neg then put buf minus else some buf).map reverse

/-! The digits of a number. -/

def lowDigits (base n : Nat) : List Nat := if n = 0 then [0] else Nat.digits base n

theorem lowDigits_step {base : Nat} (n : Nat) (large : 1 < base) :
    lowDigits base n = n % base :: if n / base = 0 then [] else lowDigits base (n / base) := by
  unfold lowDigits
  rcases Nat.eq_zero_or_pos n with rfl | positive
  · rw [if_pos rfl,Nat.zero_mod,Nat.zero_div,if_pos rfl]
  · rw [if_neg (by omega),Nat.digits_def' large positive]
    by_cases last : n / base = 0
    · rw [if_pos last,last,Nat.digits_zero]
    · rw [if_neg last,if_neg last]

theorem length_lowDigits {base n k : Nat} (large : 1 < base) (some : 0 < k) (bound : n < base ^ k) : (lowDigits base n).length ≤ k := by
  unfold lowDigits
  split_ifs
  · exact some
  · exact (Nat.digits_length_le_iff large n).mpr bound

/-- The canonical numeral of a number: digits without leading zeros, after a minus sign
if it is negative. -/
def Numeral (digits : List Byte) (base : Nat) (value : Int) (text : List Byte) : Prop :=
  ∃ ds : List Nat, text = (if value < 0 then [minus] else []) ++ ds.map (fun d => digits.getD d 0) ∧ ds ≠ [] ∧ (∀ d ∈ ds, d < base) ∧
    (ds.head? = some 0 → ds = [0]) ∧ Nat.ofDigits base ds.reverse = value.natAbs

theorem numeral_lowDigits (digits : List Byte) {base : Nat} (large : 1 < base) (value : Int) :
    Numeral digits base value
      ((if value < 0 then [minus] else []) ++ ((lowDigits base value.natAbs).map fun d => digits.getD d 0).reverse) := by
  refine ⟨(lowDigits base value.natAbs).reverse,by rw [map_reverse],?_,fun d member => ?_,fun zero => ?_,?_⟩
  · rw [ne_eq,reverse_eq_nil_iff,lowDigits_step _ large]
    exact cons_ne_nil _ _
  · rw [mem_reverse] at member
    unfold lowDigits at member
    split_ifs at member
    · rw [mem_singleton.mp member]
      omega
    · exact Nat.digits_lt_base large member
  · unfold lowDigits at zero ⊢
    split_ifs at zero ⊢ with none
    · rfl
    · rw [head?_reverse,getLast?_eq_getLast_of_ne_nil (Nat.digits_ne_nil_iff_ne_zero.mpr none)] at zero
      exact absurd (Option.some.inj zero) (Nat.getLast_digit_ne_zero base none)
  · rw [reverse_reverse]
    unfold lowDigits
    split_ifs with none
    · rw [none]
      rfl
    · exact Nat.ofDigits_digits ..

/-! The loop. -/

theorem convert_digits (table : List Byte) {base : BitVec 64} (large : 1 < base.toNat) {turns : Nat} {x : BitVec 64} {buf : List Byte}
    (room : buf.length + (lowDigits base.toNat x.toNat).length ≤ bufSize) (enough : (lowDigits base.toNat x.toNat).length ≤ turns) :
    convert table base turns x buf = some (buf ++ (lowDigits base.toNat x.toNat).map fun d => table.getD d 0) := by
  induction turns generalizing x buf with
  | zero =>
    rw [lowDigits_step _ large] at enough
    exact absurd enough (Nat.not_succ_le_zero _)
  | succ turns ih =>
    rw [lowDigits_step _ large] at room enough ⊢
    rw [length_cons] at room enough
    rw [convert,put,if_pos (by omega)]
    dsimp only
    have quotient : (x / base).toNat = x.toNat / base.toNat := BitVec.toNat_udiv
    by_cases last : x / base = 0
    · have zero : x.toNat / base.toNat = 0 := by rw [← quotient,last]; rfl
      rw [if_neg (not_not.mpr last),if_pos zero,BitVec.toNat_umod]
      rfl
    · have more : x.toNat / base.toNat ≠ 0 := by
        rw [← quotient]
        exact fun zero => last (BitVec.eq_of_toNat_eq zero)
      rw [if_neg more] at room enough ⊢
      rw [if_pos last,ih (by rw [quotient,length_append,length_singleton]; omega) (by rw [quotient]; omega),quotient,
        BitVec.toNat_umod,append_assoc]
      rfl

/-! Both functions. -/

variable {xx : BitVec 64} {base : BitVec 32}

theorem length_decimal {b n : Nat} (choice : b = 10 ∨ b = 16) (small : n < 2^64) : (lowDigits b n).length ≤ 20 ∧
    (n ≤ 2^63 → (lowDigits b n).length ≤ 19) := by
  rcases choice with rfl | rfl
  · exact ⟨length_lowDigits (by decide) (by decide) (small.trans (by decide)),
      fun half => length_lowDigits (by decide) (by decide) (Nat.lt_of_le_of_lt half (by decide))⟩
  · exact ⟨length_lowDigits (by decide) (by decide) (small.trans (by decide)),
      fun half => length_lowDigits (by decide) (by decide) (small.trans (by decide))⟩

theorem toNat_neg_of_neg (negative : xx.toInt < 0) : (-xx).toNat = xx.toInt.natAbs ∧ (-xx).toNat ≤ 2^63 := by
  have small := xx.isLt
  rw [BitVec.toInt_eq_toNat_cond] at negative ⊢
  rw [BitVec.toNat_neg]
  split_ifs at negative ⊢ with half
  · omega
  · rw [Nat.mod_eq_of_lt (by omega)]
    omega

def argument (xx : BitVec 64) (sign : BitVec 32) : Int := if sign = 0 then xx.toNat else xx.toInt

theorem argument_neg {sign : BitVec 32} : argument xx sign < 0 ↔ sign ≠ 0 ∧ xx.toInt < 0 := by
  unfold argument
  split_ifs with unsigned
  · exact ⟨fun less => by omega,fun both => absurd unsigned both.1⟩
  · exact ⟨fun less => ⟨unsigned,less⟩,And.right⟩

theorem argument_natAbs (xx : BitVec 64) (sign : BitVec 32) :
    (if argument xx sign < 0 then -xx else xx).toNat = (argument xx sign).natAbs ∧ (argument xx sign < 0 → (argument xx sign).natAbs ≤ 2^63) := by
  split_ifs with negative
  · obtain ⟨signed,less⟩ := argument_neg.mp negative
    obtain ⟨same,half⟩ := toNat_neg_of_neg less
    rw [argument,if_neg signed]
    exact ⟨same,fun _ => by omega⟩
  · grind [xx.isLt,argument]

theorem prints (table : List Byte) (choice : base = 10 ∨ base = 16) (sign : BitVec 32) {turns : Nat} (enough : bufSize ≤ turns) :
    (match convert table (base.signExtend 64) turns (if argument xx sign < 0 then -xx else xx) [] with
      | none => none
      | some buf => (if argument xx sign < 0 then put buf minus else some buf).map reverse) =
      some ((if argument xx sign < 0 then [minus] else []) ++
        ((lowDigits base.toNat (argument xx sign).natAbs).map fun d => table.getD d 0).reverse) := by
  have wide : (base.signExtend 64).toNat = base.toNat := by rcases choice with rfl | rfl <;> rfl
  have number : base.toNat = 10 ∨ base.toNat = 16 := choice.imp (congrArg BitVec.toNat) (congrArg BitVec.toNat)
  obtain ⟨same,half⟩ := argument_natAbs xx sign
  have small := (if argument xx sign < 0 then -xx else xx).isLt
  rw [same] at small
  obtain ⟨most,fewer⟩ := length_decimal number small
  have sized : bufSize = 20 := rfl
  rw [convert_digits table (by rw [wide]; omega) (by rw [wide,same]; exact (Nat.zero_add _).trans_le most) (by rw [wide,same]; omega),wide,same,
    nil_append]
  dsimp only
  split_ifs with negative
  · have room := fewer (half negative)
    rw [put,if_pos (by rw [length_map]; omega),Option.map_some,reverse_append]
    rfl
  · rfl

theorem kernelPrintint_prints (choice : base = 10 ∨ base = 16) (sign : BitVec 32) {turns : Nat} (enough : bufSize ≤ turns) :
    kernelPrintint turns xx base sign = some ((if argument xx sign < 0 then [minus] else []) ++
      ((lowDigits base.toNat (argument xx sign).natAbs).map fun d => kernelDigits.getD d 0).reverse) := by
  have negative : (if sign ≠ 0 then (if xx.toInt < 0 then 1 else 0) else sign) ≠ (0 : BitVec 32) ↔ argument xx sign < 0 := by
    rw [argument_neg]
    split_ifs with signed less
    · exact iff_of_true (by decide) ⟨signed,less⟩
    · exact iff_of_false (not_not.mpr rfl) fun both => less both.2
    · exact iff_of_false signed fun both => signed both.1
  rw [← prints kernelDigits choice sign enough,kernelPrintint]
  simp only [negative]

theorem printint_prints (choice : base = 10 ∨ base = 16) (sgn : BitVec 32) {turns : Nat} (enough : bufSize ≤ turns) :
    printint turns xx base sgn = some ((if argument xx sgn < 0 then [minus] else []) ++
      ((lowDigits base.toNat (argument xx sgn).natAbs).map fun d => digits.getD d 0).reverse) := by
  rw [← prints digits choice sgn enough,printint]
  simp only [decide_eq_true_iff,argument_neg]

def upper (c : Byte) : Byte := if 0x61 ≤ c ∧ c ≤ 0x66 then c - 0x20 else c

theorem upper_digits (d : Nat) : upper (kernelDigits.getD d 0) = digits.getD d 0 := by
  rcases Nat.lt_or_ge d 16 with low | high
  · interval_cases d <;> rfl
  · have kernel : kernelDigits[d]? = none := getElem?_eq_none high
    have user : digits[d]? = none := getElem?_eq_none high
    rw [getD_eq_getElem?_getD,getD_eq_getElem?_getD,kernel,user]
    rfl

/-- Both print the canonical numeral of their argument, from a buffer that they do not
overrun, and differ in the case of the hexadecimal digits only. -/
theorem printints_exact (xx : BitVec 64) (base sign : BitVec 32) (choice : base = 10 ∨ base = 16) : ∃ text, text.length ≤ bufSize ∧
    (∀ turns, bufSize ≤ turns → kernelPrintint turns xx base sign = some text ∧ printint turns xx base sign = some (text.map upper)) ∧
    Numeral kernelDigits base.toNat (argument xx sign) text ∧ Numeral digits base.toNat (argument xx sign) (text.map upper) := by
  have large : 1 < base.toNat := by rcases choice with rfl | rfl <;> decide
  have converts : ((if argument xx sign < 0 then [minus] else []) ++
      ((lowDigits base.toNat (argument xx sign).natAbs).map fun d => kernelDigits.getD d 0).reverse).map upper =
        (if argument xx sign < 0 then [minus] else []) ++
          ((lowDigits base.toNat (argument xx sign).natAbs).map fun d => digits.getD d 0).reverse := by
    rw [List.map_append,List.map_reverse,List.map_map]
    refine congrArg₂ (· ++ ·) (by split_ifs <;> rfl) (congrArg List.reverse (List.map_congr_left fun d _ => upper_digits d))
  refine ⟨_,?_,fun turns enough => ⟨kernelPrintint_prints choice sign enough,?_⟩,numeral_lowDigits kernelDigits large _,?_⟩
  · obtain ⟨same,half⟩ := argument_natAbs xx sign
    have small := (if argument xx sign < 0 then -xx else xx).isLt
    rw [same] at small
    obtain ⟨most,fewer⟩ := length_decimal (choice.imp (congrArg BitVec.toNat) (congrArg BitVec.toNat)) small
    rw [List.length_append,List.length_reverse,List.length_map]
    split_ifs with negative
    · have room := fewer (half negative)
      exact (Nat.add_comm 1 _).trans_le (Nat.succ_le_succ room)
    · exact (Nat.zero_add _).trans_le most
  · rw [converts]
    exact printint_prints choice sign enough
  · rw [converts]
    exact numeral_lowDigits digits large _

theorem printints_exact_least : ∃ text, text.length ≤ bufSize ∧
    (∀ turns, bufSize ≤ turns → kernelPrintint turns (BitVec.intMin 64) 10 1 = some text ∧ printint turns (BitVec.intMin 64) 10 1 = some (text.map upper)) ∧
    Numeral kernelDigits (10 : BitVec 32).toNat (argument (BitVec.intMin 64) 1) text ∧
      Numeral digits (10 : BitVec 32).toNat (argument (BitVec.intMin 64) 1) (text.map upper) :=
  printints_exact (BitVec.intMin 64) 10 1 (.inl rfl)

end Xv6.Ulib
