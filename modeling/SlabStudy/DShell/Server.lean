import Mathlib.Data.List.Nodup
import Mathlib.Logic.Function.Basic
import Mathlib.Tactic.Common
import SlabStudy.Library.Runs

/-!
# The server of the distributed shell

The thread `UI` reads a command and the id of a client, and signals the thread
of that client, which sends the command and gives `atomic_inst` back.  Every
operation on a mutex or a condition variable is a step, and so is every access
to a variable that no mutex protects; a signal for which no thread waits is lost.
-/

namespace SlabStudy.DShell

open Library

/-- Where a thread is in `child_proc`. -/
inductive ChildPc where
  /-- There is no such thread yet. -/
  | absent
  /-- At `*(int*)sock_fd`, which is `new_socket` of `main`. -/
  | readSocket
  /-- At the reading of `list_n` in `list_n++`. -/
  | newId
  /-- At the writing, with what was read. -/
  | count (n : Int)
  | append
  | lockMutex
  | condWait
  | waiting
  /-- Signalled: it has to take `mutex` again. -/
  | woken
  | lockInstruct
  | sending
  | unlockInstruct
  | unlockAtomic
  | unlockMutex
  deriving DecidableEq

/-- Where `UI` is; `find_wake` is at a place of the list. -/
inductive UiPc where
  | poll
  | lockAtomic
  | lockInstruct
  | typing
  /-- `get_char` has written behind `instruct`. -/
  | overrun
  | unlockInstruct
  | quit
  | readTurn
  | walk (c : Nat)
  | modeOff
  | exited
  deriving DecidableEq

inductive Thread where
  | ui
  | child (i : Nat)
  deriving DecidableEq

/-- The globals of the server and `new_socket`, and of each thread where it is, its descriptor
and the id of its node; `instruct` is what stands there before the terminating zero.  The `i`-th
connection is the one for which thread `i` is created.  `typed` and `sent` are what has happened: a
line with its turn, and a command with the connection on which it went out. -/
structure Shell where
  ui : UiPc
  pc : Nat → ChildPc
  conn : Nat → Nat
  id : Nat → Int
  threads : Nat
  newSocket : Nat
  list : List Nat
  listN : Int
  mode : Bool
  atomicInst : Bool
  mutex : Option Nat
  instructM : Option Thread
  instruct : List UInt8
  turn : Int
  typed : List (Int × List UInt8)
  sent : List (Nat × List UInt8)

def Shell.start : Shell where
  ui := .poll
  pc _ := .absent
  conn _ := 0
  id _ := 0
  threads := 0
  newSocket := 0
  list := []
  listN := 0
  mode := false
  atomicInst := false
  mutex := none
  instructM := none
  instruct := []
  turn := 0
  typed := []
  sent := []

inductive Label where
  /-- `handler`. -/
  | interrupt
  /-- `main` accepts a connection and creates its thread. -/
  | connect
  /-- The operator types a line. -/
  | command (line : List UInt8)
  /-- The operator types a number. -/
  | number (n : Int)
  | ui
  | child (i : Nat)
  deriving DecidableEq

namespace Shell

def goto (s : Shell) (i : Nat) (pc : ChildPc) : Shell :=
  { s with pc := Function.update s.pc i pc }

/-- `pthread_cond_signal(&c->cond)`: only the thread of the node can wait there. -/
def signal (s : Shell) (i : Nat) : Shell := if s.pc i = .waiting then s.goto i .woken else s

/-- `char instruct[128]`. -/
abbrev instructSize : Nat := 128

/-- `instruct` as a string. -/
def command (s : Shell) : List UInt8 := s.instruct.takeWhile (· ≠ 0)

/-- `q`. -/
def quitLine : List UInt8 := [113]

def uiStep (s : Shell) : Option Shell :=
  match s.ui with
  | .poll => if s.mode then some { s with ui := .lockAtomic } else some s
  | .lockAtomic =>
      if s.atomicInst then none else some { s with atomicInst := true, ui := .lockInstruct }
  | .lockInstruct =>
      if s.instructM = none then some { s with instructM := some .ui, ui := .typing } else none
  | .typing => none
  | .overrun => none
  | .unlockInstruct => some { s with instructM := none, ui := .quit }
  | .quit =>
      if s.command = quitLine then some { s with ui := .exited }
      else some { s with ui := .readTurn }
  | .readTurn => none
  | .walk c =>
      match s.list[c]? with
      | none => some { s with ui := .modeOff }
      | some i =>
          let s := if s.turn = s.id i then s.signal i else s
          some { s with ui := .walk (c + 1) }
  | .modeOff => some { s with mode := false, ui := .poll }
  | .exited => none

def childStep (s : Shell) (i : Nat) : Option Shell :=
  match s.pc i with
  | .absent => none
  | .readSocket => some { s.goto i .newId with conn := Function.update s.conn i s.newSocket }
  | .newId => some (s.goto i (.count s.listN))
  | .count n => some { s.goto i .append with id := Function.update s.id i n, listN := n + 1 }
  | .append => some { s.goto i .lockMutex with list := s.list ++ [i] }
  | .lockMutex =>
      if s.mutex = none then some { s.goto i .condWait with mutex := some i } else none
  | .condWait => some { s.goto i .waiting with mutex := none }
  | .waiting => none
  | .woken => if s.mutex = none then some { s.goto i .lockInstruct with mutex := some i } else none
  | .lockInstruct =>
      if s.instructM = none then some { s.goto i .sending with instructM := some (.child i) }
      else none
  | .sending =>
      some { s.goto i .unlockInstruct with sent := s.sent ++ [(s.conn i, s.command)] }
  | .unlockInstruct => some { s.goto i .unlockAtomic with instructM := none }
  | .unlockAtomic => some { s.goto i .unlockMutex with atomicInst := false }
  | .unlockMutex => some { s.goto i .lockMutex with mutex := none }

def step (s : Shell) (label : Label) : Option Shell :=
  -- `quit` ends the process; and nothing is known of it after `instruct` is overrun
  if s.ui = .exited ∨ s.ui = .overrun then none
  else match label with
    | .interrupt => some { s with mode := true }
    | .connect => some { s.goto s.threads .readSocket with
        threads := s.threads + 1
        newSocket := s.threads }
    | .command line =>
        if s.ui = .typing then
          if line.length < instructSize then
            some { s with instruct := line, ui := .unlockInstruct }
          else some { s with instruct := line.take instructSize, ui := .overrun }
        else none
    | .number n =>
        if s.ui = .readTurn then
          some { s with turn := n, ui := .walk 0, typed := s.typed ++ [(n, s.instruct)] }
        else none
    | .ui => s.uiStep
    | .child i => s.childStep i

end Shell

def shell : System Shell Label where
  initial s := s = Shell.start
  step s label t := s.step label = some t

/-! ## The steps one by one -/

namespace Shell

/-- The steps of `UI`. -/
inductive UiMove (s : Shell) : Shell → Prop where
  | spin (here : s.ui = .poll) : UiMove s s
  | poll (here : s.ui = .poll) (on : s.mode = true) : UiMove s { s with ui := .lockAtomic }
  | lockAtomic (here : s.ui = .lockAtomic) (free : s.atomicInst = false) :
      UiMove s { s with atomicInst := true, ui := .lockInstruct }
  | lockInstruct (here : s.ui = .lockInstruct) (free : s.instructM = none) :
      UiMove s { s with instructM := some .ui, ui := .typing }
  | unlockInstruct (here : s.ui = .unlockInstruct) :
      UiMove s { s with instructM := none, ui := .quit }
  | quit (here : s.ui = .quit) : UiMove s { s with ui := .exited }
  | stay (here : s.ui = .quit) : UiMove s { s with ui := .readTurn }
  | found (c i : Nat) (here : s.ui = .walk c) (node : s.list[c]? = some i) (named : s.turn = s.id i) :
      UiMove s { s.signal i with ui := .walk (c + 1) }
  | other (c i : Nat) (here : s.ui = .walk c) (node : s.list[c]? = some i)
      (named : s.turn ≠ s.id i) : UiMove s { s with ui := .walk (c + 1) }
  | last (c : Nat) (here : s.ui = .walk c) (none : s.list[c]? = none) :
      UiMove s { s with ui := .modeOff }
  | modeOff (here : s.ui = .modeOff) : UiMove s { s with mode := false, ui := .poll }

/-- The steps of thread `i`. -/
inductive ChildMove (s : Shell) (i : Nat) : Shell → Prop where
  | readSocket (here : s.pc i = .readSocket) : ChildMove s i { s.goto i .newId with
      conn := Function.update s.conn i s.newSocket }
  | newId (here : s.pc i = .newId) : ChildMove s i (s.goto i (.count s.listN))
  | count (n : Int) (here : s.pc i = .count n) : ChildMove s i { s.goto i .append with
      id := Function.update s.id i n, listN := n + 1 }
  | append (here : s.pc i = .append) :
      ChildMove s i { s.goto i .lockMutex with list := s.list ++ [i] }
  | lockMutex (here : s.pc i = .lockMutex) (free : s.mutex = none) :
      ChildMove s i { s.goto i .condWait with mutex := some i }
  | condWait (here : s.pc i = .condWait) : ChildMove s i { s.goto i .waiting with mutex := none }
  | woken (here : s.pc i = .woken) (free : s.mutex = none) :
      ChildMove s i { s.goto i .lockInstruct with mutex := some i }
  | lockInstruct (here : s.pc i = .lockInstruct) (free : s.instructM = none) :
      ChildMove s i { s.goto i .sending with instructM := some (.child i) }
  | send (here : s.pc i = .sending) :
      ChildMove s i { s.goto i .unlockInstruct with sent := s.sent ++ [(s.conn i, s.command)] }
  | unlockInstruct (here : s.pc i = .unlockInstruct) :
      ChildMove s i { s.goto i .unlockAtomic with instructM := none }
  | unlockAtomic (here : s.pc i = .unlockAtomic) :
      ChildMove s i { s.goto i .unlockMutex with atomicInst := false }
  | unlockMutex (here : s.pc i = .unlockMutex) :
      ChildMove s i { s.goto i .lockMutex with mutex := none }

variable {s t : Shell} {i : Nat}

theorem uiMove_of_step (stepped : s.uiStep = some t) : UiMove s t := by
  unfold uiStep at stepped
  split at stepped
  next here =>
    split at stepped <;> cases stepped
    · exact .poll here ‹_›
    · exact .spin here
  next here =>
    split at stepped <;> cases stepped
    exact .lockAtomic here (Bool.eq_false_iff.mpr ‹_›)
  next here =>
    split at stepped <;> cases stepped
    exact .lockInstruct here ‹_›
  next => cases stepped
  next => cases stepped
  next here =>
    cases stepped
    exact .unlockInstruct here
  next here =>
    split at stepped <;> cases stepped
    · exact .quit here
    · exact .stay here
  next => cases stepped
  next c here =>
    split at stepped <;> cases stepped
    · exact .last c here ‹_›
    · next i node =>
      by_cases named : s.turn = s.id i
      · rw [if_pos named]
        exact .found c i here node named
      · rw [if_neg named]
        exact .other c i here node named
  next here =>
    cases stepped
    exact .modeOff here
  next => cases stepped

theorem childMove_of_step (stepped : s.childStep i = some t) : ChildMove s i t := by
  unfold childStep at stepped
  split at stepped
  next => cases stepped
  next here =>
    cases stepped
    exact .readSocket here
  next here =>
    cases stepped
    exact .newId here
  next n here =>
    cases stepped
    exact .count n here
  next here =>
    cases stepped
    exact .append here
  next here =>
    split at stepped <;> cases stepped
    exact .lockMutex here ‹_›
  next here =>
    cases stepped
    exact .condWait here
  next => cases stepped
  next here =>
    split at stepped <;> cases stepped
    exact .woken here ‹_›
  next here =>
    split at stepped <;> cases stepped
    exact .lockInstruct here ‹_›
  next here =>
    cases stepped
    exact .send here
  next here =>
    cases stepped
    exact .unlockInstruct here
  next here =>
    cases stepped
    exact .unlockAtomic here
  next here =>
    cases stepped
    exact .unlockMutex here

/-- The steps of the whole server. -/
inductive Move (s : Shell) : Label → Shell → Prop where
  | interrupt : Move s .interrupt { s with mode := true }
  | connect : Move s .connect
      { s.goto s.threads .readSocket with threads := s.threads + 1, newSocket := s.threads }
  | command (line : List UInt8) (here : s.ui = .typing) (fits : line.length < instructSize) :
      Move s (.command line) { s with instruct := line, ui := .unlockInstruct }
  | overrun (line : List UInt8) (here : s.ui = .typing) (long : ¬ line.length < instructSize) :
      Move s (.command line) { s with instruct := line.take instructSize, ui := .overrun }
  | number (n : Int) (here : s.ui = .readTurn) :
      Move s (.number n)
        { s with turn := n, ui := .walk 0, typed := s.typed ++ [(n, s.instruct)] }
  | ui {t : Shell} (move : UiMove s t) : Move s .ui t
  | child {t : Shell} (i : Nat) (move : ChildMove s i t) : Move s (.child i) t

theorem move_of_step {label : Label} (stepped : s.step label = some t) : Move s label t := by
  obtain ⟨-, stepped⟩ := Option.ite_none_left_eq_some.mp stepped
  cases label with
  | interrupt =>
      cases stepped
      exact .interrupt
  | connect =>
      cases stepped
      exact .connect
  | command line =>
      obtain ⟨here, stepped⟩ := Option.ite_none_right_eq_some.mp stepped
      split at stepped
      · next fits =>
        cases stepped
        exact .command line here fits
      · next long =>
        cases stepped
        exact .overrun line here long
  | number n =>
      obtain ⟨here, stepped⟩ := Option.ite_none_right_eq_some.mp stepped
      cases stepped
      exact .number n here
  | ui => exact .ui (uiMove_of_step stepped)
  | child i => exact .child i (childMove_of_step stepped)

end Shell

/-! ## The nodes -/

def ChildPc.counts : ChildPc → Bool
  | .count _ => true
  | _ => false

/-- A step that no race, no overrun and no lost signal is in.  Every thread has its descriptor when
the next client connects; no thread is at the writing of `list_n` when another reads it; a line
fits into `instruct` and has no zero in it; where `find_wake` comes to the node with the turn, the
thread of that node waits, and it comes to such a node before it has come to the end of the list. -/
def careful (s : Shell) : Label → Bool
  | .connect => (List.range s.threads).all fun i => s.pc i ≠ .readSocket
  | .command line => line.length < Shell.instructSize && 0 ∉ line
  | .child i => s.pc i ≠ .newId || (List.range s.threads).all fun j => !(s.pc j).counts
  | .ui =>
      match s.ui with
      | .walk c =>
          match s.list[c]? with
          | none => s.list.any fun i => s.turn = s.id i
          | some i => s.turn ≠ s.id i || s.pc i = .waiting
      | _ => true
  | _ => true

/-- The thread has its descriptor. -/
def ChildPc.connected : ChildPc → Bool
  | .absent | .readSocket => false
  | _ => true

/-- The thread has its id. -/
def ChildPc.named : ChildPc → Bool
  | .absent | .readSocket | .newId | .count _ => false
  | _ => true

/-- The node of the thread is in the list. -/
def ChildPc.listed : ChildPc → Bool
  | .absent | .readSocket | .newId | .count _ | .append => false
  | _ => true

/-- Each thread has its own connection, ids are given once, and the list is the nodes that have been
appended. -/
structure Nodes (s : Shell) : Prop where
  fresh : ∀ i, s.threads ≤ i → s.pc i = .absent
  reads : ∀ i, s.pc i = .readSocket → s.newSocket = i
  conn : ∀ i, (s.pc i).connected = true → s.conn i = i
  counts : ∀ i n, s.pc i = .count n → n = s.listN ∧ ∀ j m, s.pc j = .count m → j = i
  low : ∀ i, (s.pc i).named = true → s.id i < s.listN
  distinct : ∀ i j, (s.pc i).named = true → (s.pc j).named = true → s.id i = s.id j → i = j
  listed : ∀ i, i ∈ s.list ↔ (s.pc i).listed = true
  nodup : s.list.Nodup
  sent : ∀ entry ∈ s.sent, entry.1 ∈ s.list

variable {s t : Shell} {i j c : Nat} {label : Label} {pc other : ChildPc}

theorem ChildPc.named_of_listed (listed : pc.listed = true) : pc.named = true := by
  cases pc <;> first | rfl | cases listed

theorem ChildPc.connected_of_named (named : pc.named = true) : pc.connected = true := by
  cases pc <;> first | rfl | cases named

@[simp] theorem Shell.goto_self : (s.goto i pc).pc i = pc := Function.update_self ..

theorem Shell.goto_other (other : j ≠ i) : (s.goto i pc).pc j = s.pc j :=
  Function.update_of_ne other ..

/-- A thread that is where none has gone was there before. -/
theorem Shell.of_goto (here : (s.goto i pc).pc j = other) (elsewhere : pc ≠ other) :
    j ≠ i ∧ s.pc j = other := by
  have apart : j ≠ i := by
    rintro rfl
    exact elsewhere (goto_self.symm.trans here)
  exact ⟨apart, (goto_other apart).symm.trans here⟩

/-- What a test says of the threads does not change if it does not change for the one that moves. -/
theorem Shell.goto_test (test : ChildPc → Bool) (kept : test pc = test (s.pc i)) (j : Nat) :
    test ((s.goto i pc).pc j) = test (s.pc j) := by
  by_cases same : j = i
  · subst same
    rw [goto_self, kept]
  · rw [goto_other same]

namespace Nodes

theorem congr (nodes : Nodes s) (pc : t.pc = s.pc) (conn : t.conn = s.conn) (id : t.id = s.id)
    (threads : t.threads = s.threads) (newSocket : t.newSocket = s.newSocket)
    (list : t.list = s.list) (listN : t.listN = s.listN) (sent : t.sent = s.sent) : Nodes t := by
  refine ⟨?_, ?_, ?_, ?_, ?_, ?_, ?_, ?_, ?_⟩
  · rw [threads, pc]
    exact nodes.fresh
  · rw [pc, newSocket]
    exact nodes.reads
  · rw [pc, conn]
    exact nodes.conn
  · rw [pc, listN]
    exact nodes.counts
  · rw [pc, id, listN]
    exact nodes.low
  · rw [pc, id]
    exact nodes.distinct
  · rw [list, pc]
    exact nodes.listed
  · rw [list]
    exact nodes.nodup
  · rw [sent, list]
    exact nodes.sent

/-- A thread that is there is no new one. -/
theorem fresh_goto (nodes : Nodes s) (here : s.pc i ≠ .absent) (late : s.threads ≤ j) :
    (s.goto i pc).pc j = .absent := by
  have apart : j ≠ i := by
    rintro rfl
    exact here (nodes.fresh j late)
  rw [Shell.goto_other apart]
  exact nodes.fresh j late

/-- A thread that has its id, and stays in the list or outside of it, keeps the nodes. -/
theorem goto {before : ChildPc} (nodes : Nodes s) (here : s.pc i = before)
    (has : before.named = true) (named : pc.named = true) (listed : pc.listed = before.listed) :
    Nodes (s.goto i pc) := by
  subst here
  have namedAt := Shell.goto_test ChildPc.named (named.trans has.symm)
  have connectedAt := Shell.goto_test ChildPc.connected
    ((ChildPc.connected_of_named named).trans (ChildPc.connected_of_named has).symm)
  have counting : ∀ j n, (s.goto i pc).pc j = .count n → s.pc j = .count n := fun j n at_ =>
    (Shell.of_goto at_ (by rintro rfl; cases named)).2
  refine ⟨fun j late => nodes.fresh_goto (fun gone => ?_) late, fun j at_ => nodes.reads j ?_,
    fun j has => nodes.conn j (connectedAt j ▸ has), fun j n at_ => ?_,
    fun j has => nodes.low j (namedAt j ▸ has),
    fun j k hasJ hasK => nodes.distinct j k (namedAt j ▸ hasJ) (namedAt k ▸ hasK), fun j => ?_,
    nodes.nodup, nodes.sent⟩
  · rw [gone] at has
    cases has
  · exact (Shell.of_goto at_ (by rintro rfl; cases named)).2
  · obtain ⟨fresh, only⟩ := nodes.counts j n (counting j n at_)
    exact ⟨fresh, fun k m at_ => only k m (counting k m at_)⟩
  · rw [Shell.goto_test ChildPc.listed listed]
    exact nodes.listed j

theorem signal (nodes : Nodes s) : Nodes (s.signal i) := by
  unfold Shell.signal
  split
  · next waits => exact nodes.goto waits rfl rfl rfl
  · exact nodes

/-- A client connects when all others have their descriptors. -/
theorem connect (nodes : Nodes s) (alone : ∀ j, s.pc j ≠ .readSocket) :
    Nodes { s.goto s.threads .readSocket with
      threads := s.threads + 1, newSocket := s.threads } := by
  have gone := nodes.fresh s.threads (Nat.le_refl _)
  have namedAt : ∀ j, ((s.goto s.threads .readSocket).pc j).named = (s.pc j).named :=
    Shell.goto_test ChildPc.named (by rw [gone]; rfl)
  have connectedAt : ∀ j,
      ((s.goto s.threads .readSocket).pc j).connected = (s.pc j).connected :=
    Shell.goto_test ChildPc.connected (by rw [gone]; rfl)
  refine ⟨fun j late => ?_, fun j at_ => ?_, fun j has => nodes.conn j (connectedAt j ▸ has),
    fun j n at_ => ?_, fun j has => nodes.low j (namedAt j ▸ has),
    fun j k hasJ hasK => nodes.distinct j k (namedAt j ▸ hasJ) (namedAt k ▸ hasK), fun j => ?_,
    nodes.nodup, nodes.sent⟩
  · change s.threads + 1 ≤ j at late
    exact (Shell.goto_other (by omega)).trans (nodes.fresh j (by omega))
  · by_contra other
    exact alone j ((Shell.goto_other (Ne.symm other)).symm.trans at_)
  · obtain ⟨fresh, only⟩ := nodes.counts j n (Shell.of_goto at_ nofun).2
    exact ⟨fresh, fun k m at_ => only k m (Shell.of_goto at_ nofun).2⟩
  · refine (nodes.listed j).trans (Eq.congr_left ?_)
    exact (Shell.goto_test ChildPc.listed (by rw [gone]; rfl) j).symm

/-- `*(int*)sock_fd` is the connection of the thread. -/
theorem readSocket (nodes : Nodes s) (here : s.pc i = .readSocket) :
    Nodes { s.goto i .newId with conn := Function.update s.conn i s.newSocket } := by
  have namedAt : ∀ j, ((s.goto i .newId).pc j).named = (s.pc j).named :=
    Shell.goto_test ChildPc.named (by rw [here]; rfl)
  refine ⟨fun j late => nodes.fresh_goto (by rw [here]; nofun) late,
    fun j at_ => nodes.reads j (Shell.of_goto at_ nofun).2, fun j has => ?_, fun j n at_ => ?_,
    fun j has => nodes.low j (namedAt j ▸ has),
    fun j k hasJ hasK => nodes.distinct j k (namedAt j ▸ hasJ) (namedAt k ▸ hasK), fun j => ?_,
    nodes.nodup, nodes.sent⟩
  · change Function.update s.conn i s.newSocket j = j
    by_cases mine : j = i
    · subst mine
      rw [Function.update_self]
      exact nodes.reads j here
    · rw [Function.update_of_ne mine]
      exact nodes.conn j ((congrArg ChildPc.connected (Shell.goto_other mine)).symm.trans has)
  · obtain ⟨fresh, only⟩ := nodes.counts j n (Shell.of_goto at_ nofun).2
    exact ⟨fresh, fun k m at_ => only k m (Shell.of_goto at_ nofun).2⟩
  · refine (nodes.listed j).trans (Eq.congr_left ?_)
    exact (Shell.goto_test ChildPc.listed (by rw [here]; rfl) j).symm

/-- A thread reads `list_n` when no other is about to write it. -/
theorem newId (nodes : Nodes s) (here : s.pc i = .newId) (alone : ∀ j m, s.pc j ≠ .count m) :
    Nodes (s.goto i (.count s.listN)) := by
  have namedAt : ∀ j, ((s.goto i (.count s.listN)).pc j).named = (s.pc j).named :=
    Shell.goto_test ChildPc.named (by rw [here]; rfl)
  have connectedAt : ∀ j,
      ((s.goto i (.count s.listN)).pc j).connected = (s.pc j).connected :=
    Shell.goto_test ChildPc.connected (by rw [here]; rfl)
  have mine : ∀ j m, (s.goto i (.count s.listN)).pc j = .count m → j = i := by
    intro j m at_
    by_contra apart
    exact alone j m ((Shell.goto_other apart).symm.trans at_)
  refine ⟨fun j late => nodes.fresh_goto (by rw [here]; nofun) late,
    fun j at_ => nodes.reads j (Shell.of_goto at_ nofun).2,
    fun j has => nodes.conn j (connectedAt j ▸ has), fun j n at_ => ?_,
    fun j has => nodes.low j (namedAt j ▸ has),
    fun j k hasJ hasK => nodes.distinct j k (namedAt j ▸ hasJ) (namedAt k ▸ hasK), fun j => ?_,
    nodes.nodup, nodes.sent⟩
  · obtain rfl := mine j n at_
    rw [Shell.goto_self] at at_
    exact ⟨(ChildPc.count.inj at_).symm, mine⟩
  · refine (nodes.listed j).trans (Eq.congr_left ?_)
    exact (Shell.goto_test ChildPc.listed (by rw [here]; rfl) j).symm

/-- The id of the thread is a new one. -/
theorem count {n : Int} (nodes : Nodes s) (here : s.pc i = .count n) :
    Nodes { s.goto i .append with id := Function.update s.id i n, listN := n + 1 } := by
  obtain ⟨rfl, only⟩ := nodes.counts i n here
  have old : ∀ j, j ≠ i → ((s.goto i .append).pc j).named = true →
      Function.update s.id i s.listN j = s.id j ∧ (s.pc j).named = true := by
    intro j other has
    rw [Shell.goto_other other] at has
    exact ⟨Function.update_of_ne other _ _, has⟩
  have connectedAt : ∀ j, ((s.goto i .append).pc j).connected = (s.pc j).connected :=
    Shell.goto_test ChildPc.connected (by rw [here]; rfl)
  refine ⟨fun j late => nodes.fresh_goto (by rw [here]; nofun) late,
    fun j at_ => nodes.reads j (Shell.of_goto at_ nofun).2,
    fun j has => nodes.conn j (connectedAt j ▸ has), fun j n at_ => ?_, fun j has => ?_,
    fun j k hasJ hasK same => ?_, fun j => ?_, nodes.nodup, nodes.sent⟩
  · -- the other threads were not counting
    obtain ⟨apart, before⟩ := Shell.of_goto at_ nofun
    exact absurd (only j n before) apart
  · change Function.update s.id i s.listN j < s.listN + 1
    by_cases mine : j = i
    · subst mine
      rw [Function.update_self]
      omega
    · obtain ⟨id, before⟩ := old j mine has
      have low := nodes.low j before
      omega
  · change Function.update s.id i s.listN j = Function.update s.id i s.listN k at same
    by_contra apart
    by_cases mine : j = i
    · subst mine
      obtain ⟨id, before⟩ := old k (Ne.symm apart) hasK
      rw [Function.update_self, id] at same
      have low := nodes.low k before
      omega
    · obtain ⟨id, before⟩ := old j mine hasJ
      by_cases other : k = i
      · subst other
        rw [Function.update_self, id] at same
        have low := nodes.low j before
        omega
      · obtain ⟨id', before'⟩ := old k other hasK
        rw [id, id'] at same
        exact apart (nodes.distinct j k before before' same)
  · refine (nodes.listed j).trans (Eq.congr_left ?_)
    exact (Shell.goto_test ChildPc.listed (by rw [here]; rfl) j).symm

/-- The node goes behind the others. -/
theorem append (nodes : Nodes s) (here : s.pc i = .append) :
    Nodes { s.goto i .lockMutex with list := s.list ++ [i] } := by
  have namedAt : ∀ j, ((s.goto i .lockMutex).pc j).named = (s.pc j).named :=
    Shell.goto_test ChildPc.named (by rw [here]; rfl)
  have connectedAt : ∀ j, ((s.goto i .lockMutex).pc j).connected = (s.pc j).connected :=
    Shell.goto_test ChildPc.connected (by rw [here]; rfl)
  have outside : i ∉ s.list := by
    rw [nodes.listed, here]
    exact Bool.false_ne_true
  refine ⟨fun j late => nodes.fresh_goto (by rw [here]; nofun) late,
    fun j at_ => nodes.reads j (Shell.of_goto at_ nofun).2,
    fun j has => nodes.conn j (connectedAt j ▸ has), fun j n at_ => ?_,
    fun j has => nodes.low j (namedAt j ▸ has),
    fun j k hasJ hasK => nodes.distinct j k (namedAt j ▸ hasJ) (namedAt k ▸ hasK), fun j => ?_, ?_,
    fun entry member => List.mem_append_left _ (nodes.sent entry member)⟩
  · obtain ⟨fresh, only⟩ := nodes.counts j n (Shell.of_goto at_ nofun).2
    exact ⟨fresh, fun k m at_ => only k m (Shell.of_goto at_ nofun).2⟩
  · change j ∈ s.list ++ [i] ↔ ((s.goto i .lockMutex).pc j).listed = true
    rw [List.mem_append, List.mem_singleton]
    by_cases mine : j = i
    · subst mine
      exact iff_of_true (.inr rfl) (by rw [Shell.goto_self]; rfl)
    · rw [Shell.goto_other mine, ← nodes.listed]
      exact or_iff_left mine
  · exact List.nodup_append.mpr ⟨nodes.nodup, List.nodup_singleton i, fun j member k single same =>
      outside (List.mem_singleton.mp single ▸ same ▸ member)⟩

/-- What is sent is sent to the client of a thread of the list. -/
theorem send (nodes : Nodes s) (here : s.pc i = .sending) :
    Nodes { s.goto i .unlockInstruct with sent := s.sent ++ [(s.conn i, s.command)] } := by
  have moved : Nodes (s.goto i .unlockInstruct) :=
    nodes.goto here rfl rfl rfl
  refine ⟨moved.fresh, moved.reads, moved.conn, moved.counts, moved.low, moved.distinct,
    moved.listed, moved.nodup, fun entry member => ?_⟩
  obtain before | now := List.mem_append.mp member
  · exact nodes.sent entry before
  · obtain rfl := List.mem_singleton.mp now
    show s.conn i ∈ s.list
    rw [nodes.conn i (by rw [here]; rfl), nodes.listed, here]
    rfl

theorem start : Nodes Shell.start := by
  refine ⟨fun _ _ => rfl, nofun, nofun, nofun, nofun, nofun, fun i => ?_, List.nodup_nil, nofun⟩
  exact iff_of_false List.not_mem_nil Bool.false_ne_true

theorem uiMove (nodes : Nodes s) (move : s.UiMove t) : Nodes t := by
  cases move with
  | found c i here node named => exact nodes.signal.congr rfl rfl rfl rfl rfl rfl rfl rfl
  | spin here => exact nodes
  | _ => exact nodes.congr rfl rfl rfl rfl rfl rfl rfl rfl

/-- No thread at all is where none of those that exist is. -/
theorem none_of_range (nodes : Nodes s) (test : ChildPc → Bool) (absent : test .absent = true)
    (all : ((List.range s.threads).all fun j => test (s.pc j)) = true) (j : Nat) :
    test (s.pc j) = true := by
  rcases Nat.lt_or_ge j s.threads with early | late
  · exact List.all_eq_true.mp all j (List.mem_range.mpr early)
  · rw [nodes.fresh j late]
    exact absent

theorem childMove (nodes : Nodes s) (good : careful s (.child i) = true) (move : s.ChildMove i t) :
    Nodes t := by
  cases move with
  | readSocket here => exact nodes.readSocket here
  | newId here =>
      have all : ((List.range s.threads).all fun j => !(s.pc j).counts) = true := by
        simpa [careful, here] using good
      refine nodes.newId here fun j m at_ => ?_
      have quiet := nodes.none_of_range (fun pc => !pc.counts) rfl all j
      rw [at_] at quiet
      cases quiet
  | count n here => exact nodes.count here
  | append here => exact nodes.append here
  | send here => exact nodes.send here
  | lockMutex here | condWait here | woken here | lockInstruct here | unlockInstruct here
  | unlockAtomic here | unlockMutex here =>
      refine (nodes.goto here ?_ ?_ ?_).congr rfl rfl rfl rfl rfl rfl rfl rfl <;> rfl

theorem step (nodes : Nodes s) (good : careful s label = true) (stepped : s.step label = some t) :
    Nodes t := by
  cases Shell.move_of_step stepped with
  | connect =>
      refine nodes.connect fun j at_ => ?_
      have read := nodes.none_of_range (fun pc => pc ≠ .readSocket) rfl good j
      exact of_decide_eq_true read at_
  | ui move => exact nodes.uiMove move
  | child i move => exact nodes.childMove good move
  | _ => exact nodes.congr rfl rfl rfl rfl rfl rfl rfl rfl

end Nodes

end SlabStudy.DShell
