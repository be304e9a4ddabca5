import Mathlib.Data.List.Basic
import Xv6.Param

/-! The parser of user/sh.c. The line is the list of the characters before its NUL, *ps
is what is left of it, and a pointer is an offset into the line: es is its length, so
that what is left begins es minus its length characters after the start. -/
namespace Xv6.Sh

def maxargs : Nat := 10

-- " \t\r\n\v"
def whitespace : List Byte := [0x20,0x09,0x0D,0x0A,0x0B]

-- "<|>&;()"
def symbols : List Byte := [0x3C,0x7C,0x3E,0x26,0x3B,0x28,0x29]

def oRdonly : Nat := 0

def oWronly : Nat := 0x001

def oCreate : Nat := 0x200

def oTrunc : Nat := 0x400

/-- struct cmd, where an array of pointers has maxargs entries and none is the null
pointer. -/
inductive Cmd
  | exec (argv eargv : List (Option Nat))
  | redir (cmd : Cmd) (file efile mode fd : Nat)
  | pipe (left right : Cmd)
  | list (left right : Cmd)
  | back (cmd : Cmd)
  deriving DecidableEq

inductive Panic
  | missingFile -- missing file for redirection
  | parseblock -- parseblock
  | missingParen -- syntax - missing )
  | wrong -- syntax
  | tooMany -- too many args
  | leftovers (s : List Byte) -- leftovers: s, and then syntax
  deriving DecidableEq

/-- Why there is no tree: the shell has panicked, an array has been left, or the turns
did not suffice. -/
inductive Stop
  | panic (reason : Panic)
  | overrun
  | fuel
  deriving DecidableEq

/-! Tokens. -/

-- while(s < es && strchr(whitespace, *s)) s++;
def skipSpace : List Byte → List Byte
  | [] => []
  | c :: s => if c ∈ whitespace then skipSpace s else c :: s

-- while(s < es && !strchr(whitespace, *s) && !strchr(symbols, *s)) s++;
def skipWord : List Byte → List Byte
  | [] => []
  | c :: s => if c ∉ whitespace ∧ c ∉ symbols then skipWord s else c :: s

-- from the first character of a token on: what gettoken returns, and what follows the token
def cutToken : List Byte → Byte × List Byte
  | [] => (0,[])
  | c :: s =>
    if c = 0x7C ∨ c = 0x28 ∨ c = 0x29 ∨ c = 0x3B ∨ c = 0x26 ∨ c = 0x3C then (c,s)
    else if c = 0x3E then
      match s with
      | [] => (0x3E,[])
      | d :: s => if d = 0x3E then (0x2B,s) else (0x3E,d :: s)
    else (0x61,skipWord (c :: s))

/-- gettoken: what it returns, *q, *eq and *ps. -/
def gettoken (es : Nat) (s : List Byte) : Byte × Nat × Nat × List Byte :=
  let s := skipSpace s
  let (ret,rest) := cutToken s
  (ret,es - s.length,es - rest.length,skipSpace rest)

/-- peek: what it returns, and *ps. -/
def peek (s toks : List Byte) : Bool × List Byte :=
  let s := skipSpace s
  match s with
  | [] => (false,s)
  | c :: _ => (decide (c ∈ toks),s)

/-! Commands. -/

structure Redir where
  file : Nat
  efile : Nat
  mode : Nat
  fd : Nat
  deriving DecidableEq

-- redircmd around cmd, the first one innermost
def wrap (cmd : Cmd) (redirs : List Redir) : Cmd := redirs.foldl (fun cmd r => .redir cmd r.file r.efile r.mode r.fd) cmd

-- switch(tok)
def redirOf (tok : Byte) (q eq : Nat) : List Redir :=
  if tok = 0x3C then [⟨q,eq,oRdonly,0⟩]
  else if tok = 0x3E then [⟨q,eq,oWronly ||| oCreate ||| oTrunc,1⟩]
  else if tok = 0x2B then [⟨q,eq,oWronly ||| oCreate,1⟩]
  else []

-- parseredirs, which puts these around its command
def parseredirs (es : Nat) : (fuel : Nat) → (redirs : List Redir) → (s : List Byte) → Except Stop (List Redir × List Byte)
  | 0, _, _ => .error .fuel
  | fuel + 1, redirs, s =>
    let (more,s) := peek s [0x3C,0x3E]
    if more then
      let (tok,_,_,s) := gettoken es s
      let (word,q,eq,s) := gettoken es s
      if word ≠ 0x61 then .error (.panic .missingFile)
      else parseredirs es fuel (redirs ++ redirOf tok q eq) s
    else .ok (redirs,s)

-- a[i] = pointer
def setEntry (a : List (Option Nat)) (i : Nat) (pointer : Option Nat) : Except Stop (List (Option Nat)) :=
  if i < a.length then .ok (a.set i pointer) else .error .overrun

-- argv[argc] = q and eargv[argc] = eq
def setEntries (argv eargv : List (Option Nat)) (argc : Nat) (q eq : Option Nat) : Except Stop (List (Option Nat) × List (Option Nat)) :=
  match setEntry argv argc q with
  | .error e => .error e
  | .ok argv => (setEntry eargv argc eq).map fun eargv => (argv,eargv)

-- the loop of parseexec and what follows it; ret is the command with the redirections around it
def parseargs (es : Nat) : (fuel : Nat) → (argv eargv : List (Option Nat)) → (argc : Nat) → (redirs : List Redir) → (s : List Byte) →
    Except Stop (Cmd × List Byte)
  | 0, _, _, _, _, _ => .error .fuel
  | fuel + 1, argv, eargv, argc, redirs, s =>
    let (stops,s) := peek s [0x7C,0x29,0x26,0x3B]
    if stops then (setEntries argv eargv argc none none).map fun (argv,eargv) => (wrap (.exec argv eargv) redirs,s)
    else
      let (tok,q,eq,s) := gettoken es s
      if tok = 0 then (setEntries argv eargv argc none none).map fun (argv,eargv) => (wrap (.exec argv eargv) redirs,s)
      else if tok ≠ 0x61 then .error (.panic .wrong)
      else
        match setEntries argv eargv argc (some q) (some eq) with
        | .error e => .error e
        | .ok (argv,eargv) =>
          if maxargs ≤ argc + 1 then .error (.panic .tooMany)
          else
            match parseredirs es fuel redirs s with
            | .error e => .error e
            | .ok (redirs,s) => parseargs es fuel argv eargv (argc + 1) redirs s

-- while(peek(ps, es, "&")) of parseline
def parsebacks (es : Nat) : (fuel : Nat) → (cmd : Cmd) → (s : List Byte) → Except Stop (Cmd × List Byte)
  | 0, _, _ => .error .fuel
  | fuel + 1, cmd, s =>
    let (more,s) := peek s [0x26]
    if more then
      let (_,_,_,s) := gettoken es s
      parsebacks es fuel (.back cmd) s
    else .ok (cmd,s)

mutual

def parseline (es : Nat) : (fuel : Nat) → (s : List Byte) → Except Stop (Cmd × List Byte)
  | 0, _ => .error .fuel
  | fuel + 1, s =>
    match parsepipe es fuel s with
    | .error e => .error e
    | .ok (cmd,s) =>
      match parsebacks es fuel cmd s with
      | .error e => .error e
      | .ok (cmd,s) =>
        let (more,s) := peek s [0x3B]
        if more then
          let (_,_,_,s) := gettoken es s
          (parseline es fuel s).map fun (right,s) => (.list cmd right,s)
        else .ok (cmd,s)

def parsepipe (es : Nat) : (fuel : Nat) → (s : List Byte) → Except Stop (Cmd × List Byte)
  | 0, _ => .error .fuel
  | fuel + 1, s =>
    match parseexec es fuel s with
    | .error e => .error e
    | .ok (cmd,s) =>
      let (more,s) := peek s [0x7C]
      if more then
        let (_,_,_,s) := gettoken es s
        (parsepipe es fuel s).map fun (right,s) => (.pipe cmd right,s)
      else .ok (cmd,s)

def parseexec (es : Nat) : (fuel : Nat) → (s : List Byte) → Except Stop (Cmd × List Byte)
  | 0, _ => .error .fuel
  | fuel + 1, s =>
    let (block,s) := peek s [0x28]
    if block then parseblock es fuel s
    else
      match parseredirs es fuel [] s with
      | .error e => .error e
      | .ok (redirs,s) => parseargs es fuel (List.replicate maxargs none) (List.replicate maxargs none) 0 redirs s

def parseblock (es : Nat) : (fuel : Nat) → (s : List Byte) → Except Stop (Cmd × List Byte)
  | 0, _ => .error .fuel
  | fuel + 1, s =>
    let (opens,s) := peek s [0x28]
    if ¬opens then .error (.panic .parseblock)
    else
      let (_,_,_,s) := gettoken es s
      match parseline es fuel s with
      | .error e => .error e
      | .ok (cmd,s) =>
        let (closes,s) := peek s [0x29]
        if ¬closes then .error (.panic .missingParen)
        else
          let (_,_,_,s) := gettoken es s
          (parseredirs es fuel [] s).map fun (redirs,s) => (wrap cmd redirs,s)

end

-- for(i=0; argv[i]; i++) *eargv[i] = 0, with the turns that the arrays allow
def terminateArgs (argv eargv : List (Option Nat)) : (turns i : Nat) → (buf : List Byte) → Option (List Byte)
  | 0, _, _ => none
  | turns + 1, i, buf =>
    match argv[i]? with
    | none => none
    | some none => some buf
    | some (some _) =>
      match eargv[i]? with
      | some (some e) => if e < buf.length then terminateArgs argv eargv turns (i + 1) (buf.set e 0) else none
      | _ => none

/-- nulterminate: the buffer then, none if it writes or reads where it must not. -/
def nulterminate : Cmd → (buf : List Byte) → Option (List Byte)
  | .exec argv eargv, buf => terminateArgs argv eargv (argv.length + 1) 0 buf
  | .redir cmd _ efile _ _, buf => (nulterminate cmd buf).bind fun buf => if efile < buf.length then some (buf.set efile 0) else none
  | .pipe left right, buf => (nulterminate left buf).bind (nulterminate right)
  | .list left right, buf => (nulterminate left buf).bind (nulterminate right)
  | .back cmd, buf => nulterminate cmd buf

/-- parsecmd of a line: the tree, and the buffer with the line then. -/
def parsecmd (fuel : Nat) (line : List Byte) : Except Stop (Cmd × List Byte) :=
  match parseline line.length fuel line with
  | .error e => .error e
  | .ok (cmd,s) =>
    let (_,s) := peek s []
    if s ≠ [] then .error (.panic (.leftovers s))
    else
      match nulterminate cmd (line ++ [0]) with
      | none => .error .overrun
      | some buf => .ok (cmd,buf)

end Xv6.Sh
