import Mathlib.Data.List.Basic
import Mathlib.Tactic.Common
import Xv6.Params

/-!
The command parser of the shell (user/sh.c).

A line is the list of its bytes before the NUL, and a pointer into it is an offset. The parser
is a recursive descent over mutable pointers; each function takes the offset and returns the
new one. Its calls are counted by `fuel`, which `parsecmd` gives enough of.
-/

namespace Xv6.Sh

open Params

def MAXARGS : ℕ := 10

/-- Parsed command representation. The arrays of an `exec` have `MAXARGS` elements. -/
inductive Cmd
  | exec (argv eargv : List (Option ℕ))
  | redir (cmd : Cmd) (file efile mode fd : ℕ)
  | pipe (left right : Cmd)
  | list (left right : Cmd)
  | back (cmd : Cmd)
  deriving DecidableEq, Repr

inductive Panic
  | syntaxError
  | missingFile
  | parseblock
  | missingParen
  | tooManyArgs
  deriving DecidableEq, Repr

/-- Why the parser stops: a `panic`, an index outside of an array, or too little fuel. -/
inductive Stop
  | panic (msg : Panic)
  | outside
  | fuel
  deriving DecidableEq, Repr

/-! ### Tokens -/

def whitespace : List UInt8 := " \t\r\n\x0b".toList.map (·.toUInt8)

def symbols : List UInt8 := "<|>&;()".toList.map (·.toUInt8)

def deref (s : List UInt8) (p : ℕ) : UInt8 := s.getD p 0

/-- `while(s < es && f(*s)) s++;` -/
def scan (f : UInt8 → Bool) (s : List UInt8) (p : ℕ) : ℕ :=
  if p < s.length ∧ f (deref s p) then scan f s (p + 1) else p
termination_by s.length - p

def isSpace (c : UInt8) : Bool := c ∈ whitespace

def isWord (c : UInt8) : Bool := c ∉ whitespace ∧ c ∉ symbols

def gettoken (s : List UInt8) (ps : ℕ) : UInt8 × ℕ × ℕ × ℕ :=
  let q := scan isSpace s ps
  let c := deref s q
  let r : UInt8 × ℕ :=
    if c = 0 then (0, q)
    else if c = '|'.toUInt8 ∨ c = '('.toUInt8 ∨ c = ')'.toUInt8 ∨ c = ';'.toUInt8 ∨
        c = '&'.toUInt8 ∨ c = '<'.toUInt8 then (c, q + 1)
    else if c = '>'.toUInt8 then
      if deref s (q + 1) = '>'.toUInt8 then ('+'.toUInt8, q + 2) else (c, q + 1)
    else ('a'.toUInt8, scan isWord s q)
  (r.1, q, r.2, scan isSpace s r.2)

def peek (s : List UInt8) (ps : ℕ) (toks : String) : Bool × ℕ :=
  let p := scan isSpace s ps
  (deref s p ≠ 0 ∧ deref s p ∈ toks.toList.map (·.toUInt8), p)

/-! ### The parser -/

/-- A redirection: its file, where the name ends, and the mode and descriptor to open. -/
structure Redir where
  file : ℕ
  efile : ℕ
  mode : ℕ
  fd : ℕ
  deriving DecidableEq, Repr

def redirOf (tok : UInt8) (q eq : ℕ) : Redir :=
  if tok = '<'.toUInt8 then ⟨q, eq, O_RDONLY, 0⟩
  else if tok = '>'.toUInt8 then ⟨q, eq, O_WRONLY ||| O_CREATE ||| O_TRUNC, 1⟩
  else ⟨q, eq, O_WRONLY ||| O_CREATE, 1⟩

/-- Redirections put around a command, the first of them innermost. -/
def wrap (rs : List Redir) (cmd : Cmd) : Cmd :=
  rs.foldl (fun cmd r => .redir cmd r.file r.efile r.mode r.fd) cmd

def parseredirs (s : List UInt8) : ℕ → ℕ → Except Stop (List Redir × ℕ)
  | 0, _ => .error .fuel
  | fuel + 1, ps => do
    let (more, ps) := peek s ps "<>"
    if !more then return ([], ps)
    let (tok, _, _, ps) := gettoken s ps
    let (a, q, eq, ps) := gettoken s ps
    if a ≠ 'a'.toUInt8 then throw (.panic .missingFile)
    let (rs, ps) ← parseredirs s fuel ps
    return (redirOf tok q eq :: rs, ps)

def store (a : List (Option ℕ)) (i : ℕ) (v : Option ℕ) : Except Stop (List (Option ℕ)) :=
  if i < MAXARGS then .ok (a.set i v) else .error .outside

/-- The end of `parseexec`. The `exec` node has been filled in while redirections were put
around it. -/
def endExec (argv eargv : List (Option ℕ)) (argc : ℕ) (rs : List Redir) (ps : ℕ) :
    Except Stop (Cmd × ℕ) := do
  let argv ← store argv argc none
  let eargv ← store eargv argc none
  return (wrap rs (.exec argv eargv), ps)

def argLoop (s : List UInt8) : ℕ → List (Option ℕ) → List (Option ℕ) → ℕ → List Redir → ℕ →
    Except Stop (Cmd × ℕ)
  | 0, _, _, _, _, _ => .error .fuel
  | fuel + 1, argv, eargv, argc, rs, ps => do
    let (stop, ps) := peek s ps "|)&;"
    if stop then endExec argv eargv argc rs ps
    else
      let (tok, q, eq, ps) := gettoken s ps
      if tok = 0 then endExec argv eargv argc rs ps
      else if tok ≠ 'a'.toUInt8 then throw (.panic .syntaxError)
      else
        let argv ← store argv argc (some q)
        let eargv ← store eargv argc (some eq)
        let argc := argc + 1
        if MAXARGS ≤ argc then throw (.panic .tooManyArgs)
        let (more, ps) ← parseredirs s fuel ps
        argLoop s fuel argv eargv argc (rs ++ more) ps

def backLoop (s : List UInt8) : ℕ → Cmd → ℕ → Except Stop (Cmd × ℕ)
  | 0, _, _ => .error .fuel
  | fuel + 1, cmd, ps => do
    let (more, ps) := peek s ps "&"
    if !more then return (cmd, ps)
    let (_, _, _, ps) := gettoken s ps
    backLoop s fuel (.back cmd) ps

def noArgs : List (Option ℕ) := List.replicate MAXARGS none

mutual

def parseline (s : List UInt8) : ℕ → ℕ → Except Stop (Cmd × ℕ)
  | 0, _ => .error .fuel
  | fuel + 1, ps => do
    let (cmd, ps) ← parsepipe s fuel ps
    let (cmd, ps) ← backLoop s fuel cmd ps
    let (more, ps) := peek s ps ";"
    if !more then return (cmd, ps)
    let (_, _, _, ps) := gettoken s ps
    let (right, ps) ← parseline s fuel ps
    return (.list cmd right, ps)

def parsepipe (s : List UInt8) : ℕ → ℕ → Except Stop (Cmd × ℕ)
  | 0, _ => .error .fuel
  | fuel + 1, ps => do
    let (cmd, ps) ← parseexec s fuel ps
    let (more, ps) := peek s ps "|"
    if !more then return (cmd, ps)
    let (_, _, _, ps) := gettoken s ps
    let (right, ps) ← parsepipe s fuel ps
    return (.pipe cmd right, ps)

def parseexec (s : List UInt8) : ℕ → ℕ → Except Stop (Cmd × ℕ)
  | 0, _ => .error .fuel
  | fuel + 1, ps => do
    let (block, ps) := peek s ps "("
    if block then parseblock s fuel ps
    else
      let (rs, ps) ← parseredirs s fuel ps
      argLoop s fuel noArgs noArgs 0 rs ps

def parseblock (s : List UInt8) : ℕ → ℕ → Except Stop (Cmd × ℕ)
  | 0, _ => .error .fuel
  | fuel + 1, ps => do
    let (opened, ps) := peek s ps "("
    if !opened then throw (.panic .parseblock)
    let (_, _, _, ps) := gettoken s ps
    let (cmd, ps) ← parseline s fuel ps
    let (closed, ps) := peek s ps ")"
    if !closed then throw (.panic .missingParen)
    let (_, _, _, ps) := gettoken s ps
    let (rs, ps) ← parseredirs s fuel ps
    return (wrap rs cmd, ps)

end

/-! ### NUL-terminating the strings -/

/-- The loop over the arguments of an `exec`, from the `i`-th on. -/
def nulArgs (argv eargv : List (Option ℕ)) : ℕ → ℕ → List UInt8 → Except Stop (List UInt8)
  | 0, _, _ => .error .fuel
  | fuel + 1, i, buf =>
    if MAXARGS ≤ i then .error .outside
    else
      match argv.getD i none, eargv.getD i none with
      | some _, some e => nulArgs argv eargv fuel (i + 1) (buf.set e 0)
      | _, _ => .ok buf

def nulterminate : Cmd → List UInt8 → Except Stop (List UInt8)
  | .exec argv eargv, buf => nulArgs argv eargv (MAXARGS + 1) 0 buf
  | .redir cmd _ efile _ _, buf => do
    let buf ← nulterminate cmd buf
    return buf.set efile 0
  | .pipe left right, buf => do
    let buf ← nulterminate left buf
    nulterminate right buf
  | .list left right, buf => do
    let buf ← nulterminate left buf
    nulterminate right buf
  | .back cmd, buf => nulterminate cmd buf

def parsecmd (s : List UInt8) : Except Stop (Cmd × List UInt8) := do
  let (cmd, ps) ← parseline s (4 * s.length + 5) 0
  let (_, ps) := peek s ps ""
  if ps ≠ s.length then throw (.panic .syntaxError)
  let buf ← nulterminate cmd (s ++ [0])
  return (cmd, buf)

end Xv6.Sh
