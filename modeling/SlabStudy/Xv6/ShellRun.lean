import Mathlib.Data.List.Basic
import SlabStudy.Library.Runs
import SlabStudy.Library.Scripts
import SlabStudy.Xv6.Shell

/-!
# The shell runs its commands

`runcmd` and the loop of `main`, with the processes they fork and the file
descriptors these have.  A file is named by the place in the commands at which
the shell opens it.
-/

namespace SlabStudy.Xv6.Shell

open Library

/-- One step down into a command: a line of the session, the command of a
redirection, a side of a pipe or list, the command of a background command. -/
inductive Turn where
  | line (k : Nat)
  | body
  | left
  | right
  | back
  deriving DecidableEq, Repr

/-- The way to a command from the main shell. -/
abbrev Place := List Turn

/-- An open file: one that the shell has not opened, one that a redirection
opens, an end of a pipe. -/
inductive File where
  | other (n : Nat)
  | opened (place : Place)
  | readEnd (place : Place)
  | writeEnd (place : Place)
  deriving DecidableEq, Repr

/-! ## File descriptors -/

/-- `NOFILE` -/
abbrev nofile : Nat := 16

abbrev Fds := Nat → Option File

/-- The descriptor that `fdalloc` takes. -/
def lowest (fds : Fds) : Option Nat := (List.range nofile).find? fun fd => (fds fd).isNone

/-- The two descriptors in `p`. -/
inductive End where
  | read
  | write
  deriving DecidableEq, Repr

/-- What a shell process has of its own: its descriptors, `p[0]` and `p[1]`, the
children that it will wait for, and whether it has one that it will not. -/
structure Local where
  fds : Fds
  p0 : Nat
  p1 : Nat
  kids : List Nat
  away : Bool

def Local.p (l : Local) : End → Nat
  | .read => l.p0
  | .write => l.p1

/-! ## The code -/

/-- The system calls of the shell.  Each knows its command's place, where that matters. -/
inductive Act where
  | close (fd : Nat)
  | closeEnd (which : End)
  | dup (which : End)
  | open (place : Place) (file efile mode : Nat)
  | pipe (place : Place)
  | wait (place : Place)
  | exec (place : Place) (argv : List (Nat × Nat))
  | exit (place : Place) (status : Nat)
  deriving DecidableEq, Repr

/-- Whether the shell waits for the child. -/
inductive Tag where
  | foreground
  | background
  deriving DecidableEq, Repr

abbrev Code := Script Act Tag

/-- The calls one after the other. -/
def calls (acts : List Act) (next : Code) : Code := acts.foldr .act next

/-- Execute a command.  Never returns. -/
def runcmd (place : Place) : Cmd → Code
  | .exec [] => calls [.exit place 1] .stop
  | .exec argv => calls [.exec place argv, .exit place 0] .stop
  | .redir cmd file efile mode fd =>
    calls [.close fd, .open place file efile mode] (runcmd (place ++ [.body]) cmd)
  | .list left right =>
    .fork .foreground (runcmd (place ++ [.left]) left)
      (calls [.wait place] (runcmd (place ++ [.right]) right))
  | .pipe left right =>
    calls [.pipe place] (.fork .foreground
      (calls [.close 1, .dup .write, .closeEnd .read, .closeEnd .write]
        (runcmd (place ++ [.left]) left))
      (.fork .foreground
        (calls [.close 0, .dup .read, .closeEnd .read, .closeEnd .write]
          (runcmd (place ++ [.right]) right))
        (calls [.closeEnd .read, .closeEnd .write, .wait place, .wait place, .exit place 0] .stop)))
  | .back cmd =>
    .fork .background (runcmd (place ++ [.back]) cmd) (calls [.exit place 0] .stop)

/-- Read and run input commands: the lines from the `k`-th on. -/
def mainLoop : Nat → List Cmd → Code
  | _, [] => calls [.exit [] 0] .stop
  | k, cmd :: lines =>
    .fork .foreground (runcmd [.line k] cmd) (calls [.wait []] (mainLoop (k + 1) lines))

/-! ## What the calls do -/

/-- A call that goes on with the next one.  `wait` takes a child that has
exited; a failed `exec` returns. -/
def Does : Act → Local → Local → Prop
  | .close fd, l, l' => l' = { l with fds := Function.update l.fds fd none }
  | .closeEnd which, l, l' => l' = { l with fds := Function.update l.fds (l.p which) none }
  | .dup which, l, l' =>
    l' = match l.fds (l.p which), lowest l.fds with
      | some file, some fd => { l with fds := Function.update l.fds fd (some file) }
      | _, _ => l
  | .open place _ _ _, l, l' => ∃ fd, lowest l.fds = some fd ∧
    l' = { l with fds := Function.update l.fds fd (some (.opened place)) }
  | .pipe place, l, l' => ∃ fd0 fd1, lowest l.fds = some fd0 ∧
    lowest (Function.update l.fds fd0 (some (.readEnd place))) = some fd1 ∧
    l' = { l with
      fds := Function.update (Function.update l.fds fd0 (some (.readEnd place))) fd1
        (some (.writeEnd place))
      p0 := fd0
      p1 := fd1 }
  | .wait _, l, l' => ∃ kid ∈ l.kids, l' = { l with kids := l.kids.erase kid }
  | .exec _ _, l, l' => l' = l
  | .exit _ _, _, _ => False

/-- The calls whose failure makes the process exit, with the place of the command. -/
def Act.fatal : Act → Option Place
  | .open place _ _ _ | .pipe place => some place
  | .close _ | .closeEnd _ | .dup _ | .wait _ | .exec _ _ | .exit _ _ => none

/-- The parent of a fork remembers the child. -/
def Stays : Tag → Local → Local → Prop
  | .foreground, l, l' => ∃ kid, kid ∉ l.kids ∧ l' = { l with kids := kid :: l.kids }
  | .background, l, l' => l' = { l with away := true }

/-- The child has a copy of the descriptors and no children. -/
def Starts (_ : Tag) (l l' : Local) : Prop := l' = { l with kids := [], away := false }

def effects : Script.Effects Act Tag Local := ⟨Does, Stays, Starts⟩

end SlabStudy.Xv6.Shell
