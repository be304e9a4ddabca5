import Mathlib.Data.List.Basic
import Xv6.Param

/-! The matcher of user/grep.c. A string is the list of the characters before its NUL.
A pattern is read as a list of items, and matches where its items can be laid over the
text one after the other. -/
namespace Xv6.Grep
open List

def caret : Byte := 0x5E

def dollar : Byte := 0x24

def dot : Byte := 0x2E

def asterisk : Byte := 0x2A

mutual

def matchhere : (fuel : Nat) → (re text : List Byte) → Option Bool
  | 0, _, _ => none
  | _ + 1, [], _ => some true
  | fuel + 1, c :: re, text =>
    if re.head? = some asterisk then matchstar fuel c re.tail text
    else if c = dollar ∧ re = [] then some text.isEmpty
    else
      match text with
      | [] => some false
      | t :: text => if c = dot ∨ c = t then matchhere fuel re text else some false

def matchstar : (fuel : Nat) → (c : Byte) → (re text : List Byte) → Option Bool
  | 0, _, _, _ => none
  | fuel + 1, c, re, text =>
    match matchhere fuel re text with
    | none => none
    | some true => some true
    | some false =>
      match text with
      | [] => some false
      | t :: text => if t = c ∨ c = dot then matchstar fuel c re text else some false

end

def matchAnywhere (fuel : Nat) (re : List Byte) : (text : List Byte) → Option Bool
  | [] => matchhere fuel re []
  | t :: text =>
    match matchhere fuel re (t :: text) with
    | none => none
    | some true => some true
    | some false => matchAnywhere fuel re text

/-- match(re, text), with a bound on the depth of the calls. -/
def match_ (fuel : Nat) (re text : List Byte) : Option Bool :=
  match re with
  | [] => matchAnywhere fuel [] text
  | c :: re => if c = caret then matchhere fuel re text else matchAnywhere fuel (c :: re) text

/-! What a pattern means. -/

inductive Item
  | star (c : Byte)
  | last
  | any
  | literal (c : Byte)
  deriving DecidableEq

def single (c : Byte) : Item := if c = dot then .any else .literal c

def items : List Byte → List Item
  | [] => []
  | [c] => [if c = dollar then .last else single c]
  | c :: d :: re => if d = asterisk then .star c :: items re else single c :: items (d :: re)

def Accepts (c t : Byte) : Prop := c = dot ∨ c = t

/-- The items match `taken` where `rest` follows it. -/
inductive Matches : List Item → (taken rest : List Byte) → Prop
  | nil (rest : List Byte) : Matches [] [] rest
  | star {c : Byte} {items : List Item} {run taken rest : List Byte} : (∀ t ∈ run, Accepts c t) → Matches items taken rest →
    Matches (.star c :: items) (run ++ taken) rest
  | last {items : List Item} : Matches items [] [] → Matches (.last :: items) [] []
  | any {items : List Item} {taken rest : List Byte} (t : Byte) : Matches items taken rest → Matches (.any :: items) (t :: taken) rest
  | literal {items : List Item} {taken rest : List Byte} (c : Byte) : Matches items taken rest → Matches (.literal c :: items) (c :: taken) rest

def Here (re text : List Byte) : Prop := ∃ taken rest, text = taken ++ rest ∧ Matches (items re) taken rest

/-- The pattern matches the text: at its start after ^, and otherwise anywhere. -/
def Finds (re text : List Byte) : Prop :=
  if re.head? = some caret then Here re.tail text else ∃ before after, text = before ++ after ∧ Here re after

variable {re text : List Byte} {c : Byte}

theorem here_nil (text : List Byte) : Here [] text := ⟨[],text,rfl,.nil text⟩

theorem here_star : Here (c :: asterisk :: re) text ↔ ∃ run rest, text = run ++ rest ∧ (∀ t ∈ run, Accepts c t) ∧ Here re rest := by
  have read : items (c :: asterisk :: re) = .star c :: items re := if_pos rfl
  unfold Here
  rw [read]
  constructor
  · rintro ⟨taken,rest,rfl,matched⟩
    cases matched with
    | @star _ _ run taken _ run' inner => exact ⟨run,taken ++ rest,append_assoc ..,run',taken,rest,rfl,inner⟩
  · rintro ⟨run,_,rfl,accepted,taken,rest,rfl,inner⟩
    exact ⟨run ++ taken,rest,(append_assoc ..).symm,.star accepted inner⟩

theorem here_last : Here [dollar] text ↔ text = [] := by
  have read : items [dollar] = [.last] := rfl
  unfold Here
  rw [read]
  constructor
  · rintro ⟨taken,rest,rfl,matched⟩
    cases matched
    rfl
  · rintro rfl
    exact ⟨[],[],rfl,.last (.nil [])⟩

theorem items_single (notStar : re.head? ≠ some asterisk) (notLast : ¬(c = dollar ∧ re = [])) : items (c :: re) = single c :: items re := by
  cases re with
  | nil =>
    have other : c ≠ dollar := fun same => notLast ⟨same,rfl⟩
    change [if c = dollar then Item.last else single c] = _
    rw [if_neg other]
    rfl
  | cons d re => exact if_neg fun same => notStar (congrArg some same)

theorem here_single (notStar : re.head? ≠ some asterisk) (notLast : ¬(c = dollar ∧ re = [])) :
    Here (c :: re) text ↔ ∃ t rest, text = t :: rest ∧ Accepts c t ∧ Here re rest := by
  unfold Here Accepts
  rw [items_single notStar notLast,single]
  constructor
  · rintro ⟨taken,rest,rfl,matched⟩
    split_ifs at matched with wild
    · cases matched with
      | @any _ taken _ t inner => exact ⟨t,taken ++ rest,rfl,.inl wild,taken,rest,rfl,inner⟩
    · cases matched with
      | @literal _ taken _ _ inner => exact ⟨c,taken ++ rest,rfl,.inr rfl,taken,rest,rfl,inner⟩
  · rintro ⟨t,_,rfl,accepted,taken,rest,rfl,inner⟩
    refine ⟨t :: taken,rest,rfl,?_⟩
    split_ifs with wild
    · exact .any t inner
    · cases accepted.resolve_left wild
      exact .literal c inner

def Star (c : Byte) (re text : List Byte) : Prop := ∃ run rest, text = run ++ rest ∧ (∀ t ∈ run, Accepts c t) ∧ Here re rest

theorem star_nil : Star c re [] ↔ Here re [] := by
  constructor
  · rintro ⟨run,rest,empty,-,here⟩
    obtain ⟨-,rfl⟩ := append_eq_nil_iff.mp empty.symm
    exact here
  · intro here
    exact ⟨[],[],rfl,nofun,here⟩

theorem star_cons {t : Byte} : Star c re (t :: text) ↔ Here re (t :: text) ∨ Accepts c t ∧ Star c re text := by
  constructor
  · rintro ⟨run,rest,split,accepted,here⟩
    cases run with
    | nil =>
      cases split
      exact .inl here
    | cons u run =>
      obtain ⟨rfl,rfl⟩ := cons.inj split
      exact .inr ⟨accepted t mem_cons_self,run,rest,rfl,fun u member => accepted u (mem_cons_of_mem _ member),here⟩
  · rintro (here | ⟨first,run,rest,rfl,accepted,here⟩)
    · exact ⟨[],t :: text,rfl,nofun,here⟩
    · exact ⟨t :: run,rest,rfl,forall_mem_cons.mpr ⟨first,accepted⟩,here⟩

/-! The matcher. -/

theorem matchhere_cons (fuel : Nat) (c : Byte) (re text : List Byte) : matchhere (fuel + 1) (c :: re) text =
    if re.head? = some asterisk then matchstar fuel c re.tail text
    else if c = dollar ∧ re = [] then some text.isEmpty
    else
      match text with
      | [] => some false
      | t :: text => if c = dot ∨ c = t then matchhere fuel re text else some false := by
  cases text <;> rfl

theorem matchstar_succ (fuel : Nat) (c : Byte) (re text : List Byte) : matchstar (fuel + 1) c re text =
    match matchhere fuel re text with
    | none => none
    | some true => some true
    | some false =>
      match text with
      | [] => some false
      | t :: text => if t = c ∨ c = dot then matchstar fuel c re text else some false := by
  cases text <;> rfl

/-- matchhere and matchstar return within that many calls, and decide what they are to
decide. -/
theorem matchhere_matchstar (fuel : Nat) :
    (∀ re text, re.length + text.length < fuel → ∃ b, matchhere fuel re text = some b ∧ (b = true ↔ Here re text)) ∧
      ∀ c re text, re.length + text.length + 1 < fuel → ∃ b, matchstar fuel c re text = some b ∧ (b = true ↔ Star c re text) := by
  induction fuel with
  | zero => exact ⟨fun _ _ less => absurd less (Nat.not_lt_zero _),fun _ _ _ less => absurd less (Nat.not_lt_zero _)⟩
  | succ fuel ih =>
    obtain ⟨here,star⟩ := ih
    refine ⟨fun re text enough => ?_,fun c re text enough => ?_⟩
    · cases re with
      | nil => exact ⟨true,by rw [matchhere],iff_of_true rfl (here_nil text)⟩
      | cons c re =>
        rw [length_cons] at enough
        rw [matchhere_cons]
        by_cases starred : re.head? = some asterisk
        · obtain ⟨re,rfl⟩ : ∃ re', re = asterisk :: re' := head?_eq_some_iff.mp starred
          rw [length_cons] at enough
          rw [if_pos starred,here_star]
          exact star c re text (by omega)
        rw [if_neg starred]
        by_cases ends : c = dollar ∧ re = []
        · obtain ⟨rfl,rfl⟩ := ends
          rw [if_pos ⟨rfl,rfl⟩,here_last]
          exact ⟨_,rfl,isEmpty_iff⟩
        rw [if_neg ends,here_single starred ends]
        cases text with
        | nil => exact ⟨false,rfl,iff_of_false Bool.false_ne_true fun ⟨_,_,empty,_⟩ => nomatch empty⟩
        | cons t text =>
          rw [length_cons] at enough
          dsimp only
          by_cases accepted : c = dot ∨ c = t
          · obtain ⟨b,ran,iff⟩ := here re text (by omega)
            refine ⟨b,by rw [if_pos accepted,ran],iff.trans ⟨fun inner => ⟨t,text,rfl,accepted,inner⟩,?_⟩⟩
            rintro ⟨_,_,split,-,inner⟩
            cases split
            exact inner
          · refine ⟨false,if_neg accepted,iff_of_false Bool.false_ne_true ?_⟩
            rintro ⟨_,_,split,accepted',-⟩
            cases split
            exact accepted accepted'
    · obtain ⟨b,ran,iff⟩ := here re text (by omega)
      rw [matchstar_succ,ran]
      cases b with
      | true =>
        refine ⟨true,rfl,iff_of_true rfl ?_⟩
        exact ⟨[],text,rfl,nofun,iff.mp rfl⟩
      | false =>
        have not : ¬Here re text := fun inner => Bool.false_ne_true (iff.mpr inner)
        cases text with
        | nil => exact ⟨false,rfl,iff_of_false Bool.false_ne_true fun inner => not (star_nil.mp inner)⟩
        | cons t text =>
          rw [length_cons] at enough
          dsimp only
          rw [star_cons]
          have accepts : (t = c ∨ c = dot) ↔ Accepts c t := or_comm.trans (or_congr_right eq_comm)
          by_cases accepted : t = c ∨ c = dot
          · obtain ⟨b,ran,iff⟩ := star c re text (by omega)
            exact ⟨b,by rw [if_pos accepted,ran],
              iff.trans ⟨fun inner => .inr ⟨accepts.mp accepted,inner⟩,fun either => (either.resolve_left not).2⟩⟩
          · refine ⟨false,if_neg accepted,iff_of_false Bool.false_ne_true fun either => ?_⟩
            exact accepted (accepts.mpr (either.resolve_left not).1)

theorem matchAnywhere_iff {fuel : Nat} (enough : re.length + text.length < fuel) :
    ∃ b, matchAnywhere fuel re text = some b ∧ (b = true ↔ ∃ before after, text = before ++ after ∧ Here re after) := by
  induction text with
  | nil =>
    obtain ⟨b,ran,iff⟩ := (matchhere_matchstar fuel).1 re [] enough
    refine ⟨b,ran,iff.trans ⟨fun here => ⟨[],[],rfl,here⟩,?_⟩⟩
    rintro ⟨before,after,empty,here⟩
    obtain ⟨-,rfl⟩ := append_eq_nil_iff.mp empty.symm
    exact here
  | cons t text ih =>
    obtain ⟨b,ran,iff⟩ := (matchhere_matchstar fuel).1 re (t :: text) enough
    rw [matchAnywhere,ran]
    cases b with
    | true => exact ⟨true,rfl,iff_of_true rfl ⟨[],t :: text,rfl,iff.mp rfl⟩⟩
    | false =>
      rw [length_cons] at enough
      obtain ⟨b,ran,iff'⟩ := ih (by omega)
      refine ⟨b,ran,iff'.trans ⟨?_,?_⟩⟩
      · rintro ⟨before,after,rfl,here⟩
        exact ⟨t :: before,after,rfl,here⟩
      · rintro ⟨before,after,split,here⟩
        cases before with
        | nil =>
          cases split
          exact absurd (iff.mpr here) Bool.false_ne_true
        | cons u before =>
          obtain ⟨-,rfl⟩ := cons.inj split
          exact ⟨before,after,rfl,here⟩

theorem match_finds {fuel : Nat} (enough : re.length + text.length < fuel) :
    ∃ b, match_ fuel re text = some b ∧ (b = true ↔ Finds re text) := by
  cases re with
  | nil => exact matchAnywhere_iff enough
  | cons c re =>
    unfold match_ Finds
    dsimp only
    by_cases anchored : c = caret
    · rw [length_cons] at enough
      rw [if_pos anchored,if_pos (show (c :: re).head? = some caret from congrArg some anchored)]
      exact (matchhere_matchstar fuel).1 re text (by omega)
    · rw [if_neg anchored,if_neg (show (c :: re).head? ≠ some caret from fun same => anchored (Option.some.inj same))]
      exact matchAnywhere_iff enough

instance (re text : List Byte) : Decidable (Finds re text) :=
  decidable_of_iff (match_ (re.length + text.length + 1) re text = some true) <| by
    obtain ⟨b,ran,iff⟩ := @match_finds re text (re.length + text.length + 1) (Nat.lt_succ_self _)
    rw [ran]
    exact Option.some_inj.trans iff

theorem match_eq {fuel : Nat} (enough : re.length + text.length < fuel) : match_ fuel re text = some (decide (Finds re text)) := by
  obtain ⟨b,ran,iff⟩ := match_finds enough
  rw [ran]
  exact congrArg some (Bool.eq_iff_iff.mpr (iff.trans decide_eq_true_iff.symm))

/-- match returns, and finds exactly what the pattern means. -/
theorem match_decides (re text : List Byte) :
    ∃ b, (∀ fuel, re.length + text.length < fuel → match_ fuel re text = some b) ∧ (b = true ↔ Finds re text) :=
  ⟨decide (Finds re text),fun _ enough => match_eq enough,decide_eq_true_iff⟩

end Xv6.Grep
