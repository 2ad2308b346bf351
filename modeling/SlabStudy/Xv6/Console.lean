import SlabStudy.Library.Ring
import SlabStudy.Library.Runs
import Mathlib.Data.Fintype.Basic

/-!
# Console input

`consoleintr` and `consoleread` with the line that is being edited.  Both hold
`cons.lock`: an interrupt handles all its characters in one section, and a
read runs in sections from its start or from `sleep` to its return or to the
next `sleep`.  The readers are not killed; the echo on the screen is left out.
-/

namespace SlabStudy.Xv6

open Library

/-- `INPUT_BUF` -/
abbrev inputBuf : Nat := 128

/-- The struct `input`. -/
structure Input where
  buf : Fin inputBuf → UInt8
  /-- Read index. -/
  r : UInt32
  /-- Write index. -/
  w : UInt32
  /-- Edit index. -/
  e : UInt32

/-- The macro `C`: Control-x. -/
def control (x : Char) : UInt8 := UInt8.ofNat (x.toNat - '@'.toNat)

def newline : UInt8 := UInt8.ofNat '\n'.toNat

def carriageReturn : UInt8 := UInt8.ofNat '\r'.toNat

/-- `'\x7f'` -/
def delete : UInt8 := 0x7f

namespace Input

/-- `input.buf[index % INPUT_BUF]` -/
def char (i : Input) (index : UInt32) : UInt8 := i.buf (Fin.ofNat inputBuf index.toNat)

/-- The loop of kill line. -/
def killLine (i : Input) : Input :=
  if _more : i.e ≠ i.w ∧ i.char (i.e - 1) ≠ newline then killLine { i with e := i.e - 1 } else i
termination_by (i.e - i.w).toNat
decreasing_by
  have apart : i.e.toNat ≠ i.w.toNat := fun same => _more.1 (UInt32.toNat_inj.mp same)
  have edit := i.e.toNat_lt
  have write := i.w.toNat_lt
  change (i.e - 1 - i.w).toNat < (i.e - i.w).toNat
  simp only [UInt32.toNat_sub]
  change (2 ^ 32 - i.w.toNat + (2 ^ 32 - 1 + i.e.toNat) % 2 ^ 32) % 2 ^ 32 < _
  omega

/-- `input.buf[input.e++ % INPUT_BUF] = c` -/
def store (i : Input) (c : UInt8) : Input :=
  { i with buf := Function.update i.buf (Fin.ofNat inputBuf i.e.toNat) c, e := i.e + 1 }

/-- The loop body of `consoleintr`, and whether it wakes the readers. -/
def key (i : Input) (c : UInt8) : Input × Bool :=
  if c = control 'P' then (i, false)
  else if c = control 'U' then (i.killLine, false)
  else if c = control 'H' ∨ c = delete then
    (if i.e ≠ i.w then { i with e := i.e - 1 } else i, false)
  else if c ≠ 0 ∧ i.e - i.r < 128 then
    let c := if c = carriageReturn then newline else c
    let i := i.store c
    if c = newline ∨ c = control 'D' ∨ i.e = i.r + 128 then ({ i with w := i.e }, true)
    else (i, false)
  else (i, false)

/-- The loop of `consoleintr` over the characters that `getc` returns. -/
def intr (i : Input) : List UInt8 → Input × Bool
  | [] => (i, false)
  | c :: rest =>
      let (i, woke) := i.key c
      let (i, later) := i.intr rest
      (i, woke || later)

end Input

/-- How a section of `consoleread` ends. -/
inductive ReadEnd where
  | sleeps
  /-- There was room for nothing more. -/
  | full
  | newline
  | eof
  deriving DecidableEq

/-- A section of the loop of `consoleread`. -/
structure Section where
  input : Input
  /-- The bytes it stores to `dst`. -/
  bytes : List UInt8
  how : ReadEnd

/-- The loop of `consoleread` with `n` bytes to go. -/
def Input.readLoop (i : Input) (target : Nat) : Nat → Section
  | 0 => ⟨i, [], .full⟩
  | n + 1 =>
      if i.r = i.w then ⟨i, [], .sleeps⟩
      else
        let c := i.char i.r
        let i := { i with r := i.r + 1 }
        if c = control 'D' then
          if n + 1 < target then ⟨{ i with r := i.r - 1 }, [], .eof⟩ else ⟨i, [], .eof⟩
        else if c = newline then ⟨i, [c], .newline⟩
        else
          let rest := i.readLoop target n
          { rest with bytes := c :: rest.bytes }

/-- A call of `consoleread`, with the bytes it has stored. -/
structure Reading where
  target : Nat
  dst : List UInt8
  asleep : Bool

structure ConsoleState (P : Type) where
  input : Input
  call : P → Option Reading

/-- The characters between two indices. -/
def Input.between (i : Input) (a b : UInt32) : List UInt8 :=
  (List.range (b - a).toNat).map fun k => i.char (a + UInt32.ofNat k)

/-- The characters that have been committed and not read. -/
def Input.pending (i : Input) : List UInt8 := i.between i.r i.w

/-- What happens at the console. -/
inductive ConsoleLabel (P : Type) where
  /-- An interrupt with these characters, and those that it commits. -/
  | intr (chars committed : List UInt8)
  /-- A section of a read that stores `bytes`, so that the read has stored `dst`.  In the first
  section of a read `starts` is its size. -/
  | reads (p : P) (starts : Option Nat) (bytes : List UInt8) (how : ReadEnd) (dst : List UInt8)

namespace ConsoleState

variable {P : Type} [DecidableEq P]

/-- `consoleintr`; a `wakeup` reaches every reader that sleeps. -/
def intr (s : ConsoleState P) (chars : List UInt8) : ConsoleState P :=
  { s with
    input := (s.input.intr chars).1
    call := fun p =>
      if (s.input.intr chars).2 then (s.call p).map fun c => { c with asleep := false }
      else s.call p }

/-- The state behind a section of a read. -/
def read (s : ConsoleState P) (p : P) (c : Reading) (ran : Section) : ConsoleState P :=
  { s with
    input := ran.input
    call := Function.update s.call p
      (if ran.how = .sleeps then some { c with dst := c.dst ++ ran.bytes, asleep := true } else none) }

end ConsoleState

inductive ConsoleStep {P : Type} [DecidableEq P] (s : ConsoleState P) :
    ConsoleLabel P → ConsoleState P → Prop where
  | intr (chars : List UInt8) :
      ConsoleStep s (.intr chars ((s.intr chars).input.between s.input.w (s.intr chars).input.w))
        (s.intr chars)
  | start {p : P} {n : Nat} {ran : Section} (idle : s.call p = none)
      (runs : s.input.readLoop n n = ran) :
      ConsoleStep s (.reads p (some n) ran.bytes ran.how ran.bytes) (s.read p ⟨n, [], false⟩ ran)
  | resume {p : P} {c : Reading} {ran : Section} (call : s.call p = some c) (woken : c.asleep = false)
      (runs : s.input.readLoop c.target (c.target - c.dst.length) = ran) :
      ConsoleStep s (.reads p none ran.bytes ran.how (c.dst ++ ran.bytes)) (s.read p c ran)

/-- The console after `consoleinit`. -/
def ConsoleState.Initial {P : Type} (s : ConsoleState P) : Prop :=
  s.input = ⟨fun _ => 0, 0, 0, 0⟩ ∧ ∀ p, s.call p = none

def consoleSystem (P : Type) [DecidableEq P] : System (ConsoleState P) (ConsoleLabel P) :=
  ⟨ConsoleState.Initial, ConsoleStep⟩

end SlabStudy.Xv6
