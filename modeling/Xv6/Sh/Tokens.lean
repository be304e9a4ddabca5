import Mathlib.Data.List.TakeWhile
import Xv6.Sh.Model

/-! The tokens of a line, and gettoken and peek in terms of them. -/
namespace Xv6.Sh
open List

inductive Token
  | word (text : List Byte)
  | less
  | greater
  | append
  | bar
  | ampersand
  | semicolon
  | left
  | right
  deriving DecidableEq

def wordChar (c : Byte) : Prop := c ∉ whitespace ∧ c ∉ symbols

instance (c : Byte) : Decidable (wordChar c) := inferInstanceAs (Decidable (_ ∧ _))

def operator (c : Byte) : Option Token :=
  if c = 0x3C then some .less
  else if c = 0x3E then some .greater
  else if c = 0x7C then some .bar
  else if c = 0x26 then some .ampersand
  else if c = 0x3B then some .semicolon
  else if c = 0x28 then some .left
  else if c = 0x29 then some .right
  else none

/-- A word is as long as it can be, and so is an operator. -/
def tokens : List Byte → List Token
  | [] => []
  | c :: s =>
    if c ∈ whitespace then tokens s
    else if c = 0x3E ∧ s.head? = some 0x3E then .append :: tokens s.tail
    else
      match operator c with
      | some t => t :: tokens s
      | none => .word (c :: s.takeWhile fun c => decide (wordChar c)) :: tokens (s.dropWhile fun c => decide (wordChar c))
termination_by s => s.length
decreasing_by
  · exact Nat.lt_succ_self _
  · exact Nat.lt_succ_of_le (by rw [length_tail]; omega)
  · exact Nat.lt_succ_self _
  · exact Nat.lt_succ_of_le (dropWhile_suffix _).length_le

def Token.code : Token → Byte
  | .word _ => 0x61
  | .less => 0x3C
  | .greater => 0x3E
  | .append => 0x2B
  | .bar => 0x7C
  | .ampersand => 0x26
  | .semicolon => 0x3B
  | .left => 0x28
  | .right => 0x29

def Token.first : Token → Option Byte
  | .word _ => none
  | .append => some 0x3E
  | t => some t.code

variable {s line : List Byte} {t : Token} {ts : List Token} {es : Nat}

theorem skipSpace_suffix (s : List Byte) : skipSpace s <:+ s := by
  induction s with
  | nil => exact suffix_refl _
  | cons c s ih =>
    rw [skipSpace]
    split_ifs
    · exact ih.trans (suffix_cons c s)
    · exact suffix_refl _

@[simp] theorem skipSpace_skipSpace (s : List Byte) : skipSpace (skipSpace s) = skipSpace s := by
  induction s with
  | nil => rfl
  | cons c s ih =>
    rw [skipSpace]
    split_ifs with blank
    · exact ih
    · rw [skipSpace,if_neg blank]

@[simp] theorem tokens_skipSpace (s : List Byte) : tokens (skipSpace s) = tokens s := by
  induction s with
  | nil => rfl
  | cons c s ih =>
    rw [skipSpace]
    split_ifs with blank
    · rw [ih]
      conv_rhs => rw [tokens,if_pos blank]
    · rfl

theorem head_skipSpace {c : Byte} {rest : List Byte} (start : skipSpace s = c :: rest) : c ∉ whitespace := by
  induction s with
  | nil => cases start
  | cons d s ih =>
    rw [skipSpace] at start
    split_ifs at start with blank
    · exact ih start
    · cases start
      exact blank

theorem skipWord_eq (s : List Byte) : skipWord s = s.dropWhile fun c => decide (wordChar c) := by
  induction s with
  | nil => rfl
  | cons c s ih =>
    rw [skipWord]
    by_cases inWord : wordChar c
    · rw [if_pos (show c ∉ whitespace ∧ c ∉ symbols from inWord),dropWhile_cons_of_pos (p := fun c => decide (wordChar c)) (decide_eq_true inWord),ih]
    · rw [if_neg (show ¬(c ∉ whitespace ∧ c ∉ symbols) from inWord),dropWhile_cons_of_neg (by rw [decide_eq_false inWord]; exact Bool.false_ne_true)]

theorem operator_symbol {c : Byte} : operator c = none ↔ c ∉ symbols := by
  unfold operator symbols
  simp only [mem_cons,not_mem_nil,or_false,not_or]
  split_ifs <;> simp_all

theorem operator_some {c : Byte} (op : operator c = some t) : c = 0x3C ∧ t = .less ∨ c = 0x3E ∧ t = .greater ∨ c = 0x7C ∧ t = .bar ∨
    c = 0x26 ∧ t = .ampersand ∨ c = 0x3B ∧ t = .semicolon ∨ c = 0x28 ∧ t = .left ∨ c = 0x29 ∧ t = .right := by
  unfold operator at op
  split_ifs at op <;> cases op <;> simp_all

/-- The first token and what follows it. -/
theorem tokens_cut (s : List Byte) : (skipSpace s = [] ∧ tokens s = []) ∨ ∃ c s' t rest, skipSpace s = c :: s' ∧ tokens s = t :: tokens rest ∧
    cutToken (c :: s') = (t.code,rest) ∧ rest <:+ s' ∧ (t.first = some c ∨ t.first = none ∧ c ∉ symbols) ∧
      ∀ w, t = .word w → w ++ rest = c :: s' ∧ (∀ c ∈ w, wordChar c) ∧ w ≠ [] ∧ ∀ c, rest.head? = some c → ¬wordChar c := by
  rw [← tokens_skipSpace s]
  cases start : skipSpace s with
  | nil => exact .inl ⟨rfl,by rw [tokens]⟩
  | cons c s' =>
    refine .inr ⟨c,s',?_⟩
    have blank := head_skipSpace start
    rw [tokens,if_neg blank]
    by_cases double : c = 0x3E ∧ s'.head? = some 0x3E
    · obtain ⟨rfl,next⟩ := double
      obtain ⟨s'',rfl⟩ := head?_eq_some_iff.mp next
      rw [if_pos ⟨rfl,next⟩]
      exact ⟨.append,s'',rfl,rfl,rfl,suffix_cons _ _,.inl rfl,nofun⟩
    rw [if_neg double]
    cases op : operator c with
    | some t =>
      rcases operator_some op with ⟨rfl,rfl⟩ | ⟨rfl,rfl⟩ | ⟨rfl,rfl⟩ | ⟨rfl,rfl⟩ | ⟨rfl,rfl⟩ | ⟨rfl,rfl⟩ | ⟨rfl,rfl⟩
      on_goal 2 =>
        refine ⟨.greater,s',rfl,rfl,?_,suffix_refl _,.inl rfl,nofun⟩
        cases s' with
        | nil => rfl
        | cons d s'' =>
          have other : d ≠ 0x3E := fun same => double ⟨rfl,congrArg some same⟩
          change (if d = 0x3E then _ else _) = _
          rw [if_neg other]
          rfl
      all_goals exact ⟨_,s',rfl,rfl,rfl,suffix_refl _,.inl rfl,nofun⟩
    | none =>
      have plain := operator_symbol.mp op
      have inWord : decide (wordChar c) = true := decide_eq_true ⟨blank,plain⟩
      have others : ¬(c = 0x7C ∨ c = 0x28 ∨ c = 0x29 ∨ c = 0x3B ∨ c = 0x26 ∨ c = 0x3C) ∧ c ≠ 0x3E := by
        simp only [symbols,mem_cons,not_mem_nil,or_false,not_or] at plain
        tauto
      refine ⟨_,_,rfl,rfl,?_,dropWhile_suffix _,.inr ⟨rfl,plain⟩,fun w same => ?_⟩
      · unfold cutToken
        dsimp only
        rw [if_neg others.1,if_neg others.2,skipWord_eq,dropWhile_cons_of_pos (p := fun c => decide (wordChar c)) inWord]
        rfl
      · cases same
        refine ⟨by rw [cons_append,takeWhile_append_dropWhile],fun d member => ?_,cons_ne_nil _ _,fun d first => ?_⟩
        · rcases mem_cons.mp member with rfl | member
          · exact ⟨blank,plain⟩
          · exact of_decide_eq_true (mem_takeWhile_imp (p := fun c => decide (wordChar c)) member)
        · have stops := head?_dropWhile_not (fun c => decide (wordChar c)) s'
          rw [first] at stops
          exact of_decide_eq_false (by simpa using stops)

/-! Pointers. -/

def slice (line : List Byte) (q eq : Nat) : List Byte := (line.take eq).drop q

/-- There is a word of the line between the two pointers. -/
structure Word (line : List Byte) (q eq : Nat) : Prop where
  nonempty : q < eq
  inside : eq ≤ line.length
  chars : ∀ k c, q ≤ k → k < eq → (line)[k]? = some c → wordChar c
  ends : ∀ c, (line)[eq]? = some c → ¬wordChar c

theorem word_between {w rest : List Byte} (suffix : w ++ rest <:+ line) (nonempty : w ≠ []) (chars : ∀ c ∈ w, wordChar c)
    (ends : ∀ c, rest.head? = some c → ¬wordChar c) :
    Word line (line.length - (w ++ rest).length) (line.length - rest.length) ∧
      slice line (line.length - (w ++ rest).length) (line.length - rest.length) = w := by
  obtain ⟨before,rfl⟩ := suffix
  have positive := length_pos_iff.mpr nonempty
  have start : (before ++ (w ++ rest)).length - (w ++ rest).length = before.length := by rw [length_append]; omega
  have stop : (before ++ (w ++ rest)).length - rest.length = before.length + w.length := by simp only [length_append]; omega
  rw [start,stop]
  refine ⟨⟨by omega,by simp only [length_append]; omega,fun k c low high there => ?_,fun c there => ?_⟩,?_⟩
  · rw [getElem?_append_right low,getElem?_append_left (by omega)] at there
    exact chars c (mem_of_getElem? there)
  · rw [getElem?_append_right (by omega),getElem?_append_right (by omega),← head?_drop] at there
    rw [show before.length + w.length - before.length - w.length = 0 by omega,drop_zero] at there
    exact ends c there
  · rw [slice,← append_assoc,← length_append,take_left,drop_left]

/-! gettoken and peek. -/

theorem gettoken_skipSpace (es : Nat) (s : List Byte) : gettoken es (skipSpace s) = gettoken es s := by
  rw [gettoken,gettoken,skipSpace_skipSpace]

theorem gettoken_nil (none : tokens s = []) : gettoken es s = (0,es,es,[]) := by
  rcases tokens_cut s with ⟨start,-⟩ | ⟨c,s',t,rest,-,first,-⟩
  · rw [gettoken,start]
    rfl
  · rw [first] at none
    cases none

/-- gettoken takes the first token. -/
theorem gettoken_cons (first : tokens s = t :: ts) : ∃ q eq s', gettoken es s = (t.code,q,eq,s') ∧ tokens s' = ts ∧ s' <:+ s ∧
    s'.length < s.length ∧ ∀ w line, t = .word w → es = line.length → s <:+ line → Word line q eq ∧ slice line q eq = w := by
  rcases tokens_cut s with ⟨-,none⟩ | ⟨c,s',t',rest,start,first',cut,suffix,-,word⟩
  · rw [none] at first
    cases first
  rw [first] at first'
  obtain ⟨rfl,rfl⟩ := cons.inj first'
  have tail : s' <:+ s := (suffix_cons c s').trans (start ▸ skipSpace_suffix s)
  have shorter : s'.length < s.length := by
    have length := (skipSpace_suffix s).length_le
    rw [start,length_cons] at length
    omega
  refine ⟨es - (c :: s').length,es - rest.length,skipSpace rest,?_,tokens_skipSpace rest,((skipSpace_suffix rest).trans suffix).trans tail,
    Nat.lt_of_le_of_lt ((skipSpace_suffix rest).trans suffix).length_le shorter,fun w line same ends inside => ?_⟩
  · rw [gettoken,start,cut]
  · subst ends
    obtain ⟨whole,chars,nonempty,stops⟩ := word w same
    rw [← whole]
    refine word_between ?_ nonempty chars stops
    rw [whole,← start]
    exact (skipSpace_suffix s).trans inside

theorem peek_nil (none : tokens s = []) (toks : List Byte) : peek s toks = (false,skipSpace s) := by
  rcases tokens_cut s with ⟨start,-⟩ | ⟨c,s',t,rest,-,first,-⟩
  · rw [peek,start]
  · rw [first] at none
    cases none

theorem peek_cons (first : tokens s = t :: ts) {toks : List Byte} (plain : ∀ c ∈ toks, c ∈ symbols) :
    peek s toks = (t.first.any fun c => decide (c ∈ toks),skipSpace s) := by
  rcases tokens_cut s with ⟨-,none⟩ | ⟨c,s',t',rest,start,first',-,-,seen,-⟩
  · rw [none] at first
    cases first
  rw [first] at first'
  obtain ⟨rfl,rfl⟩ := cons.inj first'
  rw [peek,start]
  rcases seen with symbol | ⟨none,other⟩
  · rw [symbol]
    rfl
  · rw [none]
    exact congrArg (·,c :: s') (decide_eq_false fun member => other (plain c member))

end Xv6.Sh
