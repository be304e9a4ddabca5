import Mathlib.Data.List.Forall2
import Mathlib.Logic.Function.Iterate
import Xv6.Sh.Tokens

/-! The grammar of the shell, with the tree of each derivation. -/
namespace Xv6.Sh
open List
variable {cmd : Cmd} {as : List (Nat × Nat)} {pointers : List Nat} {rs : List Redir}

inductive Tree
  | exec (words : List (List Byte))
  | redir (tree : Tree) (file : List Byte) (mode fd : Nat)
  | pipe (left right : Tree)
  | list (left right : Tree)
  | back (tree : Tree)

inductive Kind
  | less
  | greater
  | append

def Kind.token : Kind → Token
  | .less => .less
  | .greater => .greater
  | .append => .append

def Kind.mode : Kind → Nat
  | .less => oRdonly
  | .greater => oWronly ||| oCreate ||| oTrunc
  | .append => oWronly ||| oCreate

def Kind.fd : Kind → Nat
  | .less => 0
  | .greater => 1
  | .append => 1

structure Redirection where
  kind : Kind
  file : List Byte

def Redirection.tokens (r : Redirection) : List Token := [r.kind.token,.word r.file]

inductive Part
  | word (text : List Byte)
  | redir (r : Redirection)

def Part.tokens : Part → List Token
  | .word text => [.word text]
  | .redir r => r.tokens

def Part.word? : Part → Option (List Byte)
  | .word text => some text
  | .redir _ => none

def Part.redir? : Part → Option Redirection
  | .word _ => none
  | .redir r => some r

def around (tree : Tree) (redirs : List Redirection) : Tree := redirs.foldl (fun tree r => .redir tree r.file r.kind.mode r.kind.fd) tree

inductive Symbol
  | line
  | pipe
  | exec

/-- The derivations of
line ::= pipe '&'* [';' line], pipe ::= exec ['|' pipe], exec ::= '(' line ')' redir* | (redir | word)*. -/
inductive Derives : Symbol → List Token → Tree → Prop
  | simple (parts : List Part) :
    Derives .exec (parts.flatMap Part.tokens) (around (.exec (parts.filterMap Part.word?)) (parts.filterMap Part.redir?))
  | block {ts : List Token} {tree : Tree} (inner : Derives .line ts tree) (redirs : List Redirection) :
    Derives .exec (.left :: (ts ++ .right :: redirs.flatMap Redirection.tokens)) (around tree redirs)
  | exec {ts : List Token} {tree : Tree} (only : Derives .exec ts tree) : Derives .pipe ts tree
  | pipe {ts us : List Token} {left right : Tree} (first : Derives .exec ts left) (second : Derives .pipe us right) :
    Derives .pipe (ts ++ .bar :: us) (.pipe left right)
  | line {ts : List Token} {tree : Tree} (only : Derives .pipe ts tree) (n : Nat) :
    Derives .line (ts ++ replicate n .ampersand) (Tree.back^[n] tree)
  | list {ts us : List Token} {left right : Tree} (first : Derives .pipe ts left) (n : Nat) (second : Derives .line us right) :
    Derives .line (ts ++ (replicate n .ampersand ++ .semicolon :: us)) (.list (Tree.back^[n] left) right)

/-- Every simple command has less than maxargs words. -/
def Tree.Small : Tree → Prop
  | .exec words => words.length < maxargs
  | .redir tree _ _ _ => tree.Small
  | .pipe left right => left.Small ∧ right.Small
  | .list left right => left.Small ∧ right.Small
  | .back tree => tree.Small

theorem small_around {tree : Tree} (redirs : List Redirection) : (around tree redirs).Small ↔ tree.Small := by
  unfold around
  induction redirs generalizing tree with
  | nil => rfl
  | cons r redirs ih => exact ih

theorem small_backs {tree : Tree} (n : Nat) : (Tree.back^[n] tree).Small ↔ tree.Small := by
  induction n generalizing tree with
  | zero => rfl
  | succ n ih => exact ih

/-! What a command stands for. -/

def args : List (Option Nat) → List (Option Nat) → List (Nat × Nat)
  | some q :: argv, some e :: eargv => (q,e) :: args argv eargv
  | _, _ => []

/-- The tree with the characters that are between its pointers. -/
def Cmd.tree (line : List Byte) : Cmd → Tree
  | .exec argv eargv => .exec ((args argv eargv).map fun a => slice line a.1 a.2)
  | .redir cmd file efile mode fd => .redir (cmd.tree line) (slice line file efile) mode fd
  | .pipe left right => .pipe (left.tree line) (right.tree line)
  | .list left right => .list (left.tree line) (right.tree line)
  | .back cmd => .back (cmd.tree line)

def padded (pointers : List Nat) : List (Option Nat) := pointers.map some ++ replicate (maxargs - pointers.length) none

/-- All pointers are to words, and the arrays end within their bounds. -/
def Cmd.Sound (line : List Byte) : Cmd → Prop
  | .exec argv eargv => ∃ as : List (Nat × Nat), as.length < maxargs ∧ argv = padded (as.map Prod.fst) ∧ eargv = padded (as.map Prod.snd) ∧
      ∀ a ∈ as, Word line a.1 a.2
  | .redir cmd file efile _ _ => cmd.Sound line ∧ Word line file efile
  | .pipe left right => left.Sound line ∧ right.Sound line
  | .list left right => left.Sound line ∧ right.Sound line
  | .back cmd => cmd.Sound line

variable {line : List Byte}

theorem args_append (as : List (Nat × Nat)) (n : Nat) :
    args ((as.map Prod.fst).map some ++ replicate n none) ((as.map Prod.snd).map some ++ replicate n none) = as := by
  induction as with
  | nil => cases n <;> rfl
  | cons a as ih => exact congrArg (a :: ·) ih

theorem args_padded (as : List (Nat × Nat)) : args (padded (as.map Prod.fst)) (padded (as.map Prod.snd)) = as := by
  unfold padded
  rw [length_map,length_map]
  exact args_append as _

theorem Cmd.Sound.small (sound : cmd.Sound line) : (cmd.tree line).Small := by
  induction cmd with
  | exec argv eargv =>
    obtain ⟨as,short,rfl,rfl,-⟩ := sound
    rw [Cmd.tree,args_padded]
    exact (length_map _).trans_lt short
  | redir cmd file efile mode fd ih => exact ih sound.1
  | pipe left right ihl ihr => exact ⟨ihl sound.1,ihr sound.2⟩
  | list left right ihl ihr => exact ⟨ihl sound.1,ihr sound.2⟩
  | back cmd ih => exact ih sound

theorem tree_backs (cmd : Cmd) (n : Nat) : (Cmd.back^[n] cmd).tree line = Tree.back^[n] (cmd.tree line) := by
  induction n generalizing cmd with
  | zero => rfl
  | succ n ih => exact ih (.back cmd)

theorem sound_backs (sound : cmd.Sound line) (n : Nat) : (Cmd.back^[n] cmd).Sound line := by
  induction n generalizing cmd with
  | zero => exact sound
  | succ n ih => exact @ih (.back cmd) sound

/-- A redirection of the parser and what it stands for. -/
structure Redir.Shows (line : List Byte) (r : Redir) (d : Redirection) : Prop where
  mode : r.mode = d.kind.mode
  fd : r.fd = d.kind.fd
  word : Word line r.file r.efile
  file : slice line r.file r.efile = d.file

theorem tree_wrap {ds : List Redirection} (shown : List.Forall₂ (Redir.Shows line) rs ds) :
    (wrap cmd rs).tree line = around (cmd.tree line) ds := by
  unfold wrap around
  induction shown generalizing cmd with
  | nil => rfl
  | @cons r d rs ds first rest ih =>
    rw [foldl_cons,foldl_cons,ih,Cmd.tree,first.file,first.mode,first.fd]

theorem sound_wrap {ds : List Redirection} (shown : List.Forall₂ (Redir.Shows line) rs ds) (sound : cmd.Sound line) :
    (wrap cmd rs).Sound line := by
  unfold wrap
  induction shown generalizing cmd with
  | nil => exact sound
  | @cons r d rs ds first rest ih => exact ih ⟨sound,first.word⟩

theorem setEntry_padded {pointer : Nat} (room : pointers.length < maxargs) :
    setEntry (padded pointers) pointers.length (some pointer) = .ok (padded (pointers ++ [pointer])) := by
  obtain ⟨k,more⟩ : ∃ k, maxargs - pointers.length = k + 1 := ⟨maxargs - pointers.length - 1,by omega⟩
  have length : (pointers.map some).length = pointers.length := length_map _
  have less : maxargs - (pointers ++ [pointer]).length = k := by rw [length_append,length_singleton]; omega
  rw [setEntry,padded,padded,more,less,if_pos (by rw [length_append,length_replicate,length]; omega),
    set_append_right _ _ (Nat.le_of_eq length),length,Nat.sub_self,replicate_succ,set_cons_zero,map_append,append_assoc]
  rfl

theorem setEntry_null (room : pointers.length < maxargs) :
    setEntry (padded pointers) pointers.length none = .ok (padded pointers) := by
  obtain ⟨k,more⟩ : ∃ k, maxargs - pointers.length = k + 1 := ⟨maxargs - pointers.length - 1,by omega⟩
  have length : (pointers.map some).length = pointers.length := length_map _
  rw [setEntry,padded,more,if_pos (by rw [length_append,length_replicate,length]; omega),
    set_append_right _ _ (Nat.le_of_eq length),length,Nat.sub_self,replicate_succ,set_cons_zero]

theorem setEntries_padded (a : Nat × Nat) (room : as.length < maxargs) :
    setEntries (padded (as.map Prod.fst)) (padded (as.map Prod.snd)) as.length (some a.1) (some a.2) =
      .ok (padded ((as ++ [a]).map Prod.fst),padded ((as ++ [a]).map Prod.snd)) := by
  have first := @setEntry_padded (as.map Prod.fst) a.1 (by rw [length_map]; exact room)
  have second := @setEntry_padded (as.map Prod.snd) a.2 (by rw [length_map]; exact room)
  rw [length_map] at first second
  rw [setEntries,first,second,map_append,map_append]
  rfl

theorem setEntries_null (room : as.length < maxargs) :
    setEntries (padded (as.map Prod.fst)) (padded (as.map Prod.snd)) as.length none none = .ok (padded (as.map Prod.fst),padded (as.map Prod.snd)) := by
  have first := @setEntry_null (as.map Prod.fst) (by rw [length_map]; exact room)
  have second := @setEntry_null (as.map Prod.snd) (by rw [length_map]; exact room)
  rw [length_map] at first second
  rw [setEntries,first,second]
  rfl

end Xv6.Sh
