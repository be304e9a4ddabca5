import Xv6.Pipe.Model

/-! The console's input (console.c): a ring of `INPUT_BUF_SIZE` characters with
the indexes r, w and e that run freely modulo 2^32, consoleintr and the loop of
consoleread. A stretch of consoleread ends when it returns or sleeps, with `cons.lock`
given up. -/
namespace Xv6.Console
open Lib Lib.Ring
open Pipes (Env)

def inputBufSize : Nat := 128

instance : NeZero inputBufSize := ⟨by decide⟩

structure Cons where
  buf : Fin inputBufSize → Byte
  r : BitVec 32 -- Read index
  w : BitVec 32 -- Write index
  e : BitVec 32 -- Edit index

def ctrlD : Byte := 4
def newline : Byte := 10

def ctrlP : Byte := 16
def ctrlU : Byte := 21
def ctrlH : Byte := 8
def delete : Byte := 127
def carriageReturn : Byte := 13

-- the loop of ^U; it makes at most e - w turns
def killLine : (turns : Nat) → Cons → Cons
  | 0, cons => cons
  | turns + 1, cons =>
    if cons.e ≠ cons.w ∧ cons.buf (slot inputBufSize (cons.e - 1)) ≠ newline then killLine turns { cons with e := cons.e - 1 }
    else cons

def consoleintr (c : Byte) (cons : Cons) : Cons :=
  if c = ctrlP then cons
  else if c = ctrlU then killLine (held cons.w cons.e) cons
  else if c = ctrlH ∨ c = delete then
    if cons.e ≠ cons.w then { cons with e := cons.e - 1 } else cons
  else if c ≠ 0 ∧ held cons.r cons.e < inputBufSize then
    let c := if c = carriageReturn then newline else c
    let cons := { cons with buf := Function.update cons.buf (slot inputBufSize cons.e) c, e := cons.e + 1 }
    if c = newline ∨ c = ctrlD ∨ held cons.r cons.e = inputBufSize then { cons with w := cons.e } else cons
  else cons

-- how a stretch of consoleread ends; i characters have been stored
inductive ReadEnd
  | returned (r : Int)
  | asleep (i : Nat)
  deriving DecidableEq

/-- The loop `while(n > 0)` of consoleread with `todo` characters to go and `i`
stored: how it ends, the console, and the characters stored in this stretch. -/
def consolereadLoop (env : Env) (dst : BitVec 64) : (todo i : Nat) → Cons → ReadEnd × Cons × List Byte
  | 0, i, cons => (.returned i,cons,[])
  | todo + 1, i, cons =>
    if cons.r = cons.w then
      if env.killed i = true then (.returned (-1),cons,[]) else (.asleep i,cons,[])
    else
      let c := cons.buf (slot inputBufSize cons.r)
      let next := { cons with r := cons.r + 1 }
      if c = ctrlD then
        -- ^D is kept for the next call if something has been read
        (.returned i,if 0 < i then cons else next,[])
      else if env.copyout (dst + BitVec.ofNat 64 i) c = false then (.returned i,next,[])
      else if c = newline then (.returned (i + 1 : Nat),next,[c])
      else
        let (ended,cons,stored) := consolereadLoop env dst todo (i + 1) next
        (ended,cons,c :: stored)

-- what a stretch says about the characters that it has stored
def ReadEnd.Counts (i most : Nat) (stored : List Byte) : ReadEnd → Prop
  | .returned r => i + stored.length ≤ most ∧ r ≤ (i + stored.length : Nat)
  | .asleep j => j = i + stored.length ∧ j ≤ most

theorem consolereadLoop_counts (env : Env) (dst : BitVec 64) (todo i : Nat) (cons : Cons) :
    (consolereadLoop env dst todo i cons).1.Counts i (i + todo) (consolereadLoop env dst todo i cons).2.2 := by
  induction todo generalizing i cons with
  | zero => exact ⟨Nat.le_refl _,Int.le_refl _⟩
  | succ todo ih =>
    rw [consolereadLoop]
    by_cases empty : cons.r = cons.w
    · rw [if_pos empty]
      by_cases killed : env.killed i = true
      · rw [if_pos killed]
        exact ⟨by simp,by simp⟩
      · rw [if_neg killed]
        exact ⟨rfl,by omega⟩
    rw [if_neg empty]
    dsimp only
    by_cases eof : cons.buf (slot inputBufSize cons.r) = ctrlD
    · rw [if_pos eof]
      exact ⟨by simp,Int.le_refl _⟩
    rw [if_neg eof]
    by_cases bad : env.copyout (dst + BitVec.ofNat 64 i) (cons.buf (slot inputBufSize cons.r)) = false
    · rw [if_pos bad]
      exact ⟨by simp,Int.le_refl _⟩
    rw [if_neg bad]
    by_cases line : cons.buf (slot inputBufSize cons.r) = newline
    · rw [if_pos line]
      exact ⟨by simp,Int.le_refl _⟩
    rw [if_neg line]
    have rest := ih (i + 1) { cons with r := cons.r + 1 }
    generalize consolereadLoop env dst todo (i + 1) { cons with r := cons.r + 1 } = result at rest ⊢
    obtain ⟨ended,cons',stored⟩ := result
    cases ended with
    | returned r =>
      obtain ⟨most,value⟩ := rest
      dsimp only at most value
      change i + (stored.length + 1) ≤ i + (todo + 1) ∧ r ≤ (i + (stored.length + 1) : Nat)
      omega
    | asleep j =>
      obtain ⟨same,most⟩ := rest
      dsimp only at same
      change j = i + (stored.length + 1) ∧ j ≤ i + (todo + 1)
      omega

/-- A call of consoleread. `finds` is what each stretch of it finds when it takes
the lock; the call still sleeps, and has no result, if they are used up. -/
def consolereadFrom (dst : BitVec 64) (n : Int) : List (Env × Cons) → Nat → Option Int × List Byte
  | [], _ => (none,[])
  | (env,cons) :: finds, i =>
    match consolereadLoop env dst (n.toNat - i) i cons with
    | (.returned r,_,stored) => (some r,stored)
    | (.asleep j,_,stored) =>
      let (r,more) := consolereadFrom dst n finds j
      (r,stored ++ more)

def consoleread (dst : BitVec 64) (n : Int) (finds : List (Env × Cons)) : Option Int × List Byte :=
  consolereadFrom dst n finds 0

theorem consolereadFrom_bounded {dst : BitVec 64} {n : Int} {finds : List (Env × Cons)} {i : Nat} (inside : i ≤ n.toNat) :
    i + (consolereadFrom dst n finds i).2.length ≤ n.toNat ∧
      ∀ r, (consolereadFrom dst n finds i).1 = some r → r ≤ (i + (consolereadFrom dst n finds i).2.length : Nat) := by
  induction finds generalizing i with
  | nil => exact ⟨by simpa [consolereadFrom] using inside,nofun⟩
  | cons find finds ih =>
    obtain ⟨env,cons⟩ := find
    rw [consolereadFrom]
    have counts := consolereadLoop_counts env dst (n.toNat - i) i cons
    generalize consolereadLoop env dst (n.toNat - i) i cons = result at counts ⊢
    obtain ⟨ended,cons',stored⟩ := result
    cases ended with
    | returned r =>
      obtain ⟨most,value⟩ := counts
      dsimp only at most value ⊢
      refine ⟨by omega,fun r' same => ?_⟩
      cases same
      exact value
    | asleep j =>
      obtain ⟨same,most⟩ := counts
      dsimp only at same most ⊢
      obtain ⟨most',value⟩ := ih (i := j) (by omega)
      rw [List.length_append]
      refine ⟨by omega,fun r found => ?_⟩
      have bound := value r found
      omega

end Xv6.Console
