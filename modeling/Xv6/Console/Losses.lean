import Xv6.Console.Model

/-! Characters that consoleread loses. A character leaves the ring before it is
copied to the caller, so a copy that fails loses it, and the count of what was
stored is lost when a process is killed while it waits for more. -/
namespace Xv6.Console
open Lib Lib.Ring List
open Pipes (Env)

variable {env : Env} {dst : BitVec 64} {cons cons' : Cons}

def ready (cons : Cons) : List Byte := window cons.buf cons.r (held cons.r cons.w)

def gone (before after : Cons) : List Byte := window before.buf before.r (held before.r after.r)

/-! The loop on the list of committed characters. -/

def takes (env : Env) (dst : BitVec 64) : (todo i : Nat) → List Byte → ReadEnd × Nat × List Byte
  | 0, i, _ => (.returned i,0,[])
  | _ + 1, i, [] => if env.killed i = true then (.returned (-1),0,[]) else (.asleep i,0,[])
  | todo + 1, i, c :: rest =>
    if c = ctrlD then (.returned i,if 0 < i then 0 else 1,[])
    else if env.copyout (dst + BitVec.ofNat 64 i) c = false then (.returned i,1,[])
    else if c = newline then (.returned (i + 1 : Nat),1,[c])
    else
      let (ended,passed,stored) := takes env dst todo (i + 1) rest
      (ended,passed + 1,c :: stored)

theorem takes_le (todo i : Nat) (line : List Byte) : (takes env dst todo i line).2.1 ≤ line.length := by
  induction todo generalizing i line with
  | zero => exact Nat.zero_le _
  | succ todo ih =>
    cases line with
    | nil =>
      rw [takes]
      split_ifs <;> exact Nat.le_refl _
    | cons c rest =>
      rw [takes,length_cons]
      split_ifs
      · exact Nat.zero_le _
      · exact Nat.succ_le_succ (Nat.zero_le _)
      · exact Nat.succ_le_succ (Nat.zero_le _)
      · exact Nat.succ_le_succ (Nat.zero_le _)
      · exact Nat.succ_le_succ (ih (i + 1) rest)

theorem consolereadLoop_takes (todo i : Nat) (cons : Cons) : consolereadLoop env dst todo i cons =
    ((takes env dst todo i (ready cons)).1,
      { cons with r := cons.r + BitVec.ofNat 32 (takes env dst todo i (ready cons)).2.1 },
      (takes env dst todo i (ready cons)).2.2) := by
  have still : ∀ cons : Cons, { cons with r := cons.r + BitVec.ofNat 32 0 } = cons := by
    intro cons
    rw [show cons.r + BitVec.ofNat 32 0 = cons.r by simp]
  induction todo generalizing i cons with
  | zero => rw [consolereadLoop,takes,still]
  | succ todo ih =>
    rw [consolereadLoop]
    by_cases empty : cons.r = cons.w
    · have none : ready cons = [] := by
        rw [ready,held_eq_zero.mpr empty]
        rfl
      rw [if_pos empty,none,takes]
      split_ifs <;> rw [still]
    · have some : ready cons = cons.buf (slot inputBufSize cons.r) :: ready { cons with r := cons.r + 1 } :=
        window_pop cons.buf empty
      rw [if_neg empty,some,takes]
      dsimp only
      split_ifs
      · rw [still]
      · rfl
      · rfl
      · rfl
      · rw [ih]
        refine congrArg (fun r => (_,{ cons with r := r },_)) ?_
        dsimp only
        rw [BitVec.add_assoc,show (1 : BitVec 32) = BitVec.ofNat 32 1 from rfl,← BitVec.ofNat_add,Nat.add_comm]

theorem gone_takes (todo i : Nat) (cons : Cons) : gone cons (consolereadLoop env dst todo i cons).2.1 =
    (ready cons).take (takes env dst todo i (ready cons)).2.1 := by
  have most : (takes env dst todo i (ready cons)).2.1 ≤ (ready cons).length := takes_le ..
  rw [consolereadLoop_takes]
  dsimp only
  generalize (takes env dst todo i (ready cons)).2.1 = k at most ⊢
  rw [ready,length_window] at most
  have bound := (cons.w - cons.r).isLt
  have passed : held cons.r (cons.r + BitVec.ofNat 32 k) = k := by
    rw [held,BitVec.add_comm,BitVec.add_sub_cancel,BitVec.toNat_ofNat]
    unfold held at most
    exact Nat.mod_eq_of_lt (by omega)
  change window cons.buf cons.r (held cons.r (cons.r + BitVec.ofNat 32 k)) = _
  rw [passed,ready]
  unfold window
  rw [← map_take,take_range,Nat.min_eq_left most]

/-! What a call keeps. -/

def Counted (i : Nat) (taken stored : List Byte) : ReadEnd → Prop
  | .returned r => taken.filter (· ≠ ctrlD) = stored ∧ (0 < i + stored.length → r = (i + stored.length : Nat))
  | .asleep _ => taken.filter (· ≠ ctrlD) = stored

/-- A call of consoleread with these stretches loses no character. -/
def Lossless (dst : BitVec 64) (n : Int) : List (Env × Cons) → Nat → Prop
  | [], _ => True
  | (env,cons) :: finds, i =>
    match consolereadLoop env dst (n.toNat - i) i cons with
    | (ended,after,stored) => Counted i (gone cons after) stored ended ∧
      match ended with
      | .returned _ => True
      | .asleep j => Lossless dst n finds j

/-! When it does. -/

def wanted : (todo : Nat) → List Byte → List Byte
  | 0, _ => []
  | _ + 1, [] => []
  | todo + 1, c :: rest => if c = ctrlD then [] else if c = newline then [c] else c :: wanted todo rest

def RunsDry : (todo : Nat) → List Byte → Prop
  | 0, _ => False
  | _ + 1, [] => True
  | todo + 1, c :: rest => c ≠ ctrlD ∧ c ≠ newline ∧ RunsDry todo rest

def Writable (env : Env) (dst : BitVec 64) (i : Nat) (chars : List Byte) : Prop :=
  ∀ k c, chars[k]? = some c → env.copyout (dst + BitVec.ofNat 64 (i + k)) c = true

structure Served (env : Env) (dst : BitVec 64) (todo i : Nat) (line : List Byte) : Prop where
  writable : Writable env dst i (wanted todo line)
  alive : RunsDry todo line → 0 < i + line.length → env.killed (i + line.length) = false

def ServedCall (dst : BitVec 64) (n : Int) : List (Env × Cons) → Nat → Prop
  | [], _ => True
  | (env,cons) :: finds, i => Served env dst (n.toNat - i) i (ready cons) ∧
    (RunsDry (n.toNat - i) (ready cons) → env.killed (i + (ready cons).length) = false →
      ServedCall dst n finds (i + (ready cons).length))

theorem writable_cons {i : Nat} {c : Byte} {chars : List Byte} : Writable env dst i (c :: chars) ↔
    env.copyout (dst + BitVec.ofNat 64 i) c = true ∧ Writable env dst (i + 1) chars := by
  constructor
  · intro all
    refine ⟨all 0 c rfl,fun k d here => ?_⟩
    rw [show i + 1 + k = i + (k + 1) by omega]
    exact all (k + 1) d here
  · rintro ⟨first,rest⟩ k d here
    cases k with
    | zero =>
      cases here
      exact first
    | succ k =>
      rw [show i + (k + 1) = i + 1 + k by omega]
      exact rest k d here

theorem writable_nil {i : Nat} : Writable env dst i [] := fun _ _ here => nomatch here

theorem counted_cons {i : Nat} {c : Byte} {taken stored : List Byte} {ended : ReadEnd} (plain : c ≠ ctrlD) :
    Counted i (c :: taken) (c :: stored) ended ↔ Counted (i + 1) taken stored ended := by
  have kept : (c :: taken).filter (· ≠ ctrlD) = c :: taken.filter (· ≠ ctrlD) := filter_cons_of_pos (by simpa using plain)
  have count : i + (c :: stored).length = i + 1 + stored.length := by rw [length_cons]; omega
  cases ended with
  | returned r =>
    unfold Counted
    rw [kept,cons_inj_right,count]
  | asleep j =>
    unfold Counted
    rw [kept,cons_inj_right]

theorem served_cons {todo i : Nat} {c : Byte} {rest : List Byte} (eof : c ≠ ctrlD) (line : c ≠ newline) :
    Served env dst (todo + 1) i (c :: rest) ↔
      env.copyout (dst + BitVec.ofNat 64 i) c = true ∧ Served env dst todo (i + 1) rest := by
  have chars : wanted (todo + 1) (c :: rest) = c :: wanted todo rest := by rw [wanted,if_neg eof,if_neg line]
  have dry : RunsDry (todo + 1) (c :: rest) ↔ RunsDry todo rest := ⟨fun all => all.2.2,fun more => ⟨eof,line,more⟩⟩
  have count : i + (c :: rest).length = i + 1 + rest.length := by rw [length_cons]; omega
  constructor
  · rintro ⟨writable,alive⟩
    rw [chars,writable_cons] at writable
    rw [dry,count] at alive
    exact ⟨writable.1,writable.2,alive⟩
  · rintro ⟨first,writable,alive⟩
    refine ⟨?_,?_⟩
    · rw [chars,writable_cons]
      exact ⟨first,writable⟩
    · rw [dry,count]
      exact alive

theorem takes_counted_iff (todo i : Nat) (line : List Byte) :
    Counted i (line.take (takes env dst todo i line).2.1) (takes env dst todo i line).2.2 (takes env dst todo i line).1 ↔
      Served env dst todo i line := by
  induction todo generalizing i line with
  | zero => exact ⟨fun _ => ⟨writable_nil,nofun⟩,fun _ => ⟨rfl,fun _ => rfl⟩⟩
  | succ todo ih =>
    cases line with
    | nil =>
      rw [takes]
      by_cases killed : env.killed i = true
      · rw [if_pos killed]
        constructor
        · rintro ⟨-,counted⟩
          refine ⟨writable_nil,fun _ some => ?_⟩
          have impossible := counted some
          have sign := Int.natCast_nonneg (i + ([] : List Byte).length)
          omega
        · rintro ⟨-,alive⟩
          refine ⟨rfl,fun some => ?_⟩
          have waits := alive trivial some
          rw [length_nil,Nat.add_zero,killed] at waits
          cases waits
      · rw [if_neg killed]
        exact ⟨fun _ => ⟨writable_nil,fun _ _ => Bool.eq_false_iff.mpr killed⟩,fun _ => rfl⟩
    | cons c rest =>
      rw [takes]
      by_cases eof : c = ctrlD
      · rw [if_pos eof]
        refine ⟨fun _ => ⟨?_,fun dry => absurd eof dry.1⟩,fun _ => ⟨?_,fun _ => rfl⟩⟩
        · rw [wanted,if_pos eof]
          exact writable_nil
        · subst eof
          by_cases more : 0 < i
          · rw [if_pos more]
            rfl
          · rw [if_neg more]
            rfl
      rw [if_neg eof]
      by_cases bad : env.copyout (dst + BitVec.ofNat 64 i) c = false
      · rw [if_pos bad]
        constructor
        · rintro ⟨all,-⟩
          change [c].filter (· ≠ ctrlD) = [] at all
          rw [filter_cons_of_pos (by simpa using eof)] at all
          cases all
        · rintro ⟨writable,-⟩
          have first : (wanted (todo + 1) (c :: rest))[0]? = some c := by
            rw [wanted,if_neg eof]
            split_ifs <;> rfl
          have stored := writable 0 c first
          rw [Nat.add_zero,bad] at stored
          cases stored
      rw [if_neg bad]
      have good : env.copyout (dst + BitVec.ofNat 64 i) c = true := Bool.not_eq_false _ ▸ bad
      by_cases line : c = newline
      · rw [if_pos line]
        refine ⟨fun _ => ⟨?_,fun dry => absurd line dry.2.1⟩,fun _ => ⟨?_,fun _ => rfl⟩⟩
        · rw [wanted,if_neg eof,if_pos line,writable_cons]
          exact ⟨good,writable_nil⟩
        · exact filter_cons_of_pos (by simpa using eof)
      rw [if_neg line]
      dsimp only
      rw [take_succ_cons,counted_cons eof,ih (i + 1) rest,served_cons eof line]
      exact ⟨fun served => ⟨good,served⟩,fun both => both.2⟩

theorem takes_asleep_iff (todo i j : Nat) (line : List Byte) : (takes env dst todo i line).1 = .asleep j ↔
    Writable env dst i (wanted todo line) ∧ RunsDry todo line ∧ env.killed (i + line.length) = false ∧ j = i + line.length := by
  induction todo generalizing i line with
  | zero => exact ⟨nofun,fun all => all.2.1.elim⟩
  | succ todo ih =>
    cases line with
    | nil =>
      rw [takes]
      change _ ↔ _ ∧ _ ∧ env.killed i = false ∧ j = i
      by_cases killed : env.killed i = true
      · rw [if_pos killed,killed]
        exact ⟨nofun,fun all => nomatch all.2.2.1⟩
      · rw [if_neg killed]
        constructor
        · intro same
          cases same
          exact ⟨writable_nil,trivial,Bool.eq_false_iff.mpr killed,rfl⟩
        · rintro ⟨-,-,-,rfl⟩
          rfl
    | cons c rest =>
      rw [takes]
      by_cases eof : c = ctrlD
      · rw [if_pos eof]
        exact ⟨nofun,fun all => absurd eof all.2.1.1⟩
      rw [if_neg eof]
      by_cases bad : env.copyout (dst + BitVec.ofNat 64 i) c = false
      · rw [if_pos bad]
        refine ⟨nofun,fun all => ?_⟩
        have first : (wanted (todo + 1) (c :: rest))[0]? = some c := by
          rw [wanted,if_neg eof]
          split_ifs <;> rfl
        have stored := all.1 0 c first
        rw [Nat.add_zero,bad] at stored
        cases stored
      rw [if_neg bad]
      have good : env.copyout (dst + BitVec.ofNat 64 i) c = true := Bool.not_eq_false _ ▸ bad
      by_cases line : c = newline
      · rw [if_pos line]
        exact ⟨nofun,fun all => absurd line all.2.1.2.1⟩
      rw [if_neg line]
      dsimp only
      rw [ih (i + 1) rest,wanted,if_neg eof,if_neg line,writable_cons,length_cons,
        show i + (rest.length + 1) = i + 1 + rest.length by omega]
      constructor
      · rintro ⟨writable,dry,alive,same⟩
        exact ⟨⟨good,writable⟩,⟨eof,line,dry⟩,alive,same⟩
      · rintro ⟨⟨-,writable⟩,⟨-,-,dry⟩,alive,same⟩
        exact ⟨writable,dry,alive,same⟩

/-- A call loses nothing exactly if the caller's buffer takes every character that
the call reaches and the process is not killed while it waits with characters
stored. -/
theorem lossless_from_iff (n : Int) (finds : List (Env × Cons)) (i : Nat) : Lossless dst n finds i ↔ ServedCall dst n finds i := by
  induction finds generalizing i with
  | nil => exact Iff.rfl
  | cons find finds ih =>
    obtain ⟨env,cons⟩ := find
    have counted := @takes_counted_iff env dst (n.toNat - i) i (ready cons)
    have asleep := fun j => @takes_asleep_iff env dst (n.toNat - i) i j (ready cons)
    have left := @gone_takes env dst (n.toNat - i) i cons
    have ran := @consolereadLoop_takes env dst (n.toNat - i) i cons
    rw [Lossless,ServedCall]
    rw [← left] at counted
    rw [ran] at counted ⊢
    dsimp only at counted ⊢
    generalize ended_eq : (takes env dst (n.toNat - i) i (ready cons)).1 = ended at *
    cases ended with
    | returned r =>
      rw [counted]
      refine ⟨fun ⟨served,_⟩ => ⟨served,fun dry alive => ?_⟩,fun ⟨served,_⟩ => ⟨served,trivial⟩⟩
      cases (asleep _).mpr ⟨served.writable,dry,alive,rfl⟩
    | asleep j => grind

/-- Console input survives bad buffers exactly in the calls whose copies succeed. -/
theorem consoleread_lossless_iff (dst : BitVec 64) (n : Int) (finds : List (Env × Cons)) :
    Lossless dst n finds 0 ↔ ServedCall dst n finds 0 := lossless_from_iff n finds 0

def typed : Cons := ⟨fun k => if k = 1 then newline else 97,0,2,2⟩

def unmapped : Env := ⟨fun _ => none,fun _ _ => false,fun _ => false⟩

theorem bad_buffer_loses_input : ¬Lossless 0 1 [(unmapped,typed)] 0 ∧
    (consoleread 0 1 [(unmapped,typed)]).1 = some 0 ∧ ready (consolereadLoop unmapped 0 1 0 typed).2.1 = [newline] := by
  refine ⟨fun lossless => ?_,by decide,by decide⟩
  obtain ⟨⟨writable,-⟩,-⟩ := (lossless_from_iff 1 [(unmapped,typed)] 0).mp lossless
  cases writable 0 97 (by decide)

end Xv6.Console
