import Mathlib.Data.List.Basic
import Mathlib.Logic.Function.Basic
import Mathlib.Tactic.Common

/-!
# The parser of the shell

`gettoken`, `peek` and the parser of `sh.c`.  A command line is the list of its
characters in front of the NUL, and pointers into it are offsets.  The
recursion and the loops take fuel; the constructors get the memory they ask
for.
-/

namespace SlabStudy.Xv6.Shell

/-- The character that ends a string. -/
def nul : Char := Char.ofNat 0

def whitespace : List Char := [' ', '\t', '\r', '\n', Char.ofNat 11]

def symbols : List Char := ['<', '|', '>', '&', ';', '(', ')']

/-- `*p`, where the string ends with its NUL. -/
def charAt (s : List Char) (p : Nat) : Char := (s[p]?).getD nul

/-- Step over the characters that pass a test, up to the end of the string. -/
def scan (test : Char → Bool) (s : List Char) (p : Nat) : Nat := p + ((s.drop p).takeWhile test).length

def isSpace (c : Char) : Bool := whitespace.contains c

/-- A character of a word. -/
def isWord (c : Char) : Bool := !whitespace.contains c && !symbols.contains c

/-- What `gettoken` returns, and where the token starts and ends. -/
structure Token where
  ret : Char
  q : Nat
  eq : Nat
  deriving DecidableEq, Repr

/-- The next token, and the position behind it and the white space that follows. -/
def gettoken (s : List Char) (ps : Nat) : Token × Nat :=
  let q := scan isSpace s ps
  let c := charAt s q
  let (ret, eq) :=
    if c = nul then (c, q)
    else if c ∈ ['|', '(', ')', ';', '&', '<'] then (c, q + 1)
    else if c = '>' then if charAt s (q + 1) = '>' then ('+', q + 2) else (c, q + 1)
    else ('a', scan isWord s q)
  (⟨ret, q, eq⟩, scan isSpace s eq)

/-- Whether the next token starts with one of `toks`, and the position of the token. -/
def peek (s : List Char) (ps : Nat) (toks : List Char) : Bool × Nat :=
  let p := scan isSpace s ps
  (charAt s p ≠ nul && toks.contains (charAt s p), p)

/-! ## Commands -/

/-- `MAXARGS` -/
abbrev maxargs : Nat := 10

/-- Parsed command representation; a counted string is where it starts and ends. -/
inductive Cmd where
  | exec (argv : List (Nat × Nat))
  | redir (cmd : Cmd) (file efile mode fd : Nat)
  | pipe (left right : Cmd)
  | list (left right : Cmd)
  | back (cmd : Cmd)
  deriving DecidableEq, Repr

/-- `cmd->argv[argc] = q; cmd->eargv[argc] = eq`, where `ret` may already be redirected. -/
def Cmd.addArg (arg : Nat × Nat) : Cmd → Cmd
  | .exec argv => .exec (argv ++ [arg])
  | .redir cmd file efile mode fd => .redir (cmd.addArg arg) file efile mode fd
  | cmd => cmd

/-! ## The parser -/

/-- The calls of `panic`. -/
inductive Panic where
  | missingFile
  | parseblock
  | missingParen
  | unexpected
  | tooManyArgs
  | leftovers
  deriving DecidableEq, Repr

/-- What `panic` prints; for leftovers they are printed first. -/
def Panic.message : Panic → String
  | .missingFile => "missing file for redirection"
  | .parseblock => "parseblock"
  | .missingParen => "syntax - missing )"
  | .unexpected => "syntax"
  | .tooManyArgs => "too many args"
  | .leftovers => "syntax"

/-- Why there is no command. -/
inductive Stop where
  | fuel
  | panic (reason : Panic)
  deriving DecidableEq, Repr

/-- The constants of `fcntl.h`. -/
def oRdonly : Nat := 0
def oWronly : Nat := 1
def oCreate : Nat := 0x200

/-- The redirection of a command by the operator `tok`. -/
def redirected (cmd : Cmd) (tok : Char) (file : Token) : Cmd :=
  if tok = '<' then .redir cmd file.q file.eq oRdonly 0
  else if tok = '>' ∨ tok = '+' then .redir cmd file.q file.eq (oWronly ||| oCreate) 1
  else cmd

def parseredirs (s : List Char) : Nat → Cmd → Nat → Except Stop (Cmd × Nat)
  | 0, _, _ => .error .fuel
  | fuel + 1, cmd, ps =>
      let (more, ps) := peek s ps ['<', '>']
      if more then
        let (tok, ps) := gettoken s ps
        let (file, ps) := gettoken s ps
        if file.ret ≠ 'a' then .error (.panic .missingFile)
        else parseredirs s fuel (redirected cmd tok.ret file) ps
      else .ok (cmd, ps)

/-- The loop of `parseexec`. -/
def parseargs (s : List Char) : Nat → Cmd → Nat → Nat → Except Stop (Cmd × Nat)
  | 0, _, _, _ => .error .fuel
  | fuel + 1, ret, argc, ps =>
      let (done, ps) := peek s ps ['|', ')', '&', ';']
      if done then .ok (ret, ps)
      else
        let (tok, ps) := gettoken s ps
        if tok.ret = nul then .ok (ret, ps)
        else if tok.ret ≠ 'a' then .error (.panic .unexpected)
        else if argc + 1 ≥ maxargs then .error (.panic .tooManyArgs)
        else do
          let (ret, ps) ← parseredirs s fuel (ret.addArg (tok.q, tok.eq)) ps
          parseargs s fuel ret (argc + 1) ps

/-- The loop of `parseline`. -/
def parseback (s : List Char) : Nat → Cmd → Nat → Except Stop (Cmd × Nat)
  | 0, _, _ => .error .fuel
  | fuel + 1, cmd, ps =>
      let (amp, ps) := peek s ps ['&']
      if amp then parseback s fuel (.back cmd) (gettoken s ps).2 else .ok (cmd, ps)

mutual

def parseline (s : List Char) : Nat → Nat → Except Stop (Cmd × Nat)
  | 0, _ => .error .fuel
  | fuel + 1, ps => do
      let (cmd, ps) ← parsepipe s fuel ps
      let (cmd, ps) ← parseback s fuel cmd ps
      let (semi, ps) := peek s ps [';']
      if semi then do
        let (right, ps) ← parseline s fuel (gettoken s ps).2
        .ok (.list cmd right, ps)
      else .ok (cmd, ps)

def parsepipe (s : List Char) : Nat → Nat → Except Stop (Cmd × Nat)
  | 0, _ => .error .fuel
  | fuel + 1, ps => do
      let (cmd, ps) ← parseexec s fuel ps
      let (bar, ps) := peek s ps ['|']
      if bar then do
        let (right, ps) ← parsepipe s fuel (gettoken s ps).2
        .ok (.pipe cmd right, ps)
      else .ok (cmd, ps)

def parseexec (s : List Char) : Nat → Nat → Except Stop (Cmd × Nat)
  | 0, _ => .error .fuel
  | fuel + 1, ps =>
      let (paren, ps) := peek s ps ['(']
      if paren then parseblock s fuel ps
      else do
        let (ret, ps) ← parseredirs s fuel (.exec []) ps
        parseargs s fuel ret 0 ps

def parseblock (s : List Char) : Nat → Nat → Except Stop (Cmd × Nat)
  | 0, _ => .error .fuel
  | fuel + 1, ps =>
      let (paren, ps) := peek s ps ['(']
      if !paren then .error (.panic .parseblock)
      else do
        let (cmd, ps) ← parseline s fuel (gettoken s ps).2
        let (close, ps) := peek s ps [')']
        if !close then .error (.panic .missingParen)
        else parseredirs s fuel cmd (gettoken s ps).2

end

/-- NUL-terminate all the counted strings. -/
def nulterminate : Cmd → (Nat → Char) → Nat → Char
  | .exec argv, buf => argv.foldl (fun buf arg => Function.update buf arg.2 nul) buf
  | .redir cmd _ efile _ _, buf => Function.update (nulterminate cmd buf) efile nul
  | .pipe left right, buf => nulterminate right (nulterminate left buf)
  | .list left right, buf => nulterminate right (nulterminate left buf)
  | .back cmd, buf => nulterminate cmd buf

/-- The command of a line, and the buffer of the line with its strings terminated. -/
def parsecmd (s : List Char) (fuel : Nat) : Except Stop (Cmd × (Nat → Char)) := do
  let (cmd, ps) ← parseline s fuel 0
  let (_, ps) := peek s ps []
  if ps ≠ s.length then .error (.panic .leftovers)
  else .ok (cmd, nulterminate cmd (charAt s))

end SlabStudy.Xv6.Shell
