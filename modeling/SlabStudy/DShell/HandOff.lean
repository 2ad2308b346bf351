import Mathlib.Data.List.TakeWhile
import SlabStudy.DShell.Server

/-!
# The command hand-off of the distributed shell

Between the keyboard and a client a command is in one of four phases, as long as
every command fits into `instruct` and names a client whose thread waits when
`find_wake` comes to it, and clients do not connect into each other.
-/

namespace SlabStudy.DShell

open Library

/-- The thread has been signalled, or is on its way to give `atomic_inst` back. -/
def ChildPc.releases : ChildPc → Bool
  | .woken | .lockInstruct | .sending | .unlockInstruct | .unlockAtomic => true
  | _ => false

/-- The thread has been signalled, and has not sent its command. -/
def ChildPc.unsent : ChildPc → Bool
  | .woken | .lockInstruct | .sending => true
  | _ => false

/-- What has been sent, with the id in the list of the client it was sent to. -/
def Shell.delivered (s : Shell) : List (Int × List UInt8) :=
  s.sent.map fun (client, line) => (s.id client, line)

/-- Nothing blocks, and every command has been sent once to the client of its turn: all of them
whenever the next one can be typed, all but the last one while it is being handed over. -/
structure HandedOff (s : Shell) : Prop where
  unblocked : s.ui = .lockAtomic → s.atomicInst = true → ∃ i, (s.pc i).releases = true
  ready : s.atomicInst = false → s.delivered = s.typed
  once : s.delivered = s.typed ∨ ∃ command, s.delivered ++ [command] = s.typed ∧
    ((∃ c, s.ui = .walk c) ∨ ∃ i ∈ s.list, (s.pc i).unsent = true ∧ s.id i = command.1)
  distinct : ∀ i ∈ s.list, ∀ j ∈ s.list, s.id i = s.id j → i = j

/-- The operator names client 5, which does not exist: the command is lost, and at the next
interrupt `UI` is blocked for ever. -/
theorem command_lost : ∃ s, shell.Reachable s ∧ s.typed = [(5, [108, 115])] ∧ s.sent = [] ∧
    s.ui = .lockAtomic ∧ s.atomicInst = true ∧ ¬ ∃ i, (s.pc i).releases = true := by
  have ran : shell.Run Shell.start _ _ := System.Run.of_fold (fun _ _ _ stepped => stepped)
    (show [Label.interrupt, .ui, .ui, .ui, .command [108, 115], .ui, .ui, .number 5, .ui, .ui,
      .interrupt, .ui].foldlM Shell.step Shell.start = some _ from rfl)
  refine ⟨_, ⟨_, _, rfl, ran⟩, rfl, rfl, rfl, rfl, ?_⟩
  rintro ⟨i, releases⟩
  cases releases

/-! ## The phases of a command -/

variable {s t : Shell} {i j : Nat} {label : Label} {pc : ChildPc}

theorem ChildPc.listed_of_releases (releases : pc.releases = true) : pc.listed = true := by
  cases pc <;> first | rfl | cases releases

theorem ChildPc.releases_of_unsent (unsent : pc.unsent = true) : pc.releases = true := by
  cases pc <;> first | rfl | cases unsent

/-- `UI` takes a command from the keyboard, or has ended the process. -/
def UiPc.enters : UiPc → Bool
  | .lockInstruct | .typing | .overrun | .unlockInstruct | .quit | .readTurn | .exited => true
  | _ => false

/-- `UI` is not at the keyboard, and past the node of the turn if it is in `find_wake`. -/
def Shell.Rests (s : Shell) : Prop :=
  s.ui = .poll ∨ s.ui = .lockAtomic ∨ s.ui = .modeOff ∨
    ∃ c k i, s.ui = .walk c ∧ k < c ∧ s.list[k]? = some i ∧ s.id i = s.turn

inductive Phase (s : Shell) : Prop where
  /-- All commands are sent, and the next one may be typed. -/
  | idle (free : s.atomicInst = false) (rests : s.Rests) (none : ∀ i, (s.pc i).releases = false)
      (sent : s.delivered = s.typed)
  /-- A command is being typed. -/
  | entering (locked : s.atomicInst = true) (enters : s.ui.enters = true)
      (none : ∀ i, (s.pc i).releases = false) (sent : s.delivered = s.typed)
  /-- `find_wake` has not come to the node of the turn. -/
  | calling (c : Nat) (locked : s.atomicInst = true) (walks : s.ui = .walk c)
      (inside : c ≤ s.list.length)
      (passed : ∀ k < c, ∀ i, s.list[k]? = some i → s.id i ≠ s.turn)
      (none : ∀ i, (s.pc i).releases = false)
      (sent : s.delivered ++ [(s.turn, s.instruct)] = s.typed)
  /-- The thread of the node has been signalled, and has not given `atomic_inst` back. -/
  | releasing (i : Nat) (locked : s.atomicInst = true) (rests : s.Rests)
      (only : ∀ j, (s.pc j).releases = true ↔ j = i)
      (sent : s.delivered ++ (if (s.pc i).unsent then [(s.id i, s.instruct)] else []) = s.typed)

/-- A step that does not concern the command. -/
structure Quiet (s t : Shell) : Prop where
  ui : t.ui = s.ui
  atomicInst : t.atomicInst = s.atomicInst
  turn : t.turn = s.turn
  instruct : t.instruct = s.instruct
  typed : t.typed = s.typed
  delivered : t.delivered = s.delivered
  releases : ∀ j, (t.pc j).releases = (s.pc j).releases
  unsent : ∀ j, (t.pc j).unsent = (s.pc j).unsent
  id : ∀ j ∈ s.list, t.id j = s.id j
  list : ∃ more, t.list = s.list ++ more

theorem Quiet.found (quiet : Quiet s t) {k : Nat} (found : s.list[k]? = some i) :
    t.list[k]? = some i := by
  obtain ⟨more, list⟩ := quiet.list
  rw [list, List.getElem?_append_left (List.getElem?_eq_some_iff.mp found).1, found]

theorem Quiet.rests (quiet : Quiet s t) (rests : s.Rests) : t.Rests := by
  unfold Shell.Rests
  rw [quiet.ui, quiet.turn]
  obtain poll | lock | off | ⟨c, k, i, walks, past, found, named⟩ := rests
  · exact .inl poll
  · exact .inr (.inl lock)
  · exact .inr (.inr (.inl off))
  · refine .inr (.inr (.inr ⟨c, k, i, walks, past, quiet.found found, ?_⟩))
    rw [quiet.id i (List.mem_of_getElem? found), named]

theorem Quiet.phase (quiet : Quiet s t) (nodes : Nodes s) (phase : Phase s) : Phase t := by
  cases phase with
  | idle free rests none sent =>
      exact .idle (quiet.atomicInst.trans free) (quiet.rests rests)
        (fun j => (quiet.releases j).trans (none j))
        (quiet.delivered.trans (sent.trans quiet.typed.symm))
  | entering locked enters none sent =>
      exact .entering (quiet.atomicInst.trans locked) (quiet.ui ▸ enters)
        (fun j => (quiet.releases j).trans (none j))
        (quiet.delivered.trans (sent.trans quiet.typed.symm))
  | calling c locked walks inside passed none sent =>
      obtain ⟨more, list⟩ := quiet.list
      refine .calling c (quiet.atomicInst.trans locked) (quiet.ui.trans walks) ?_ ?_
        (fun j => (quiet.releases j).trans (none j)) ?_
      · rw [list, List.length_append]
        omega
      · intro k before i found
        rw [list, List.getElem?_append_left (by omega)] at found
        rw [quiet.id i (List.mem_of_getElem? found), quiet.turn]
        exact passed k before i found
      · rw [quiet.delivered, quiet.turn, quiet.instruct, quiet.typed]
        exact sent
  | releasing i locked rests only sent =>
      have member : i ∈ s.list :=
        (nodes.listed i).mpr (ChildPc.listed_of_releases ((only i).mpr rfl))
      refine .releasing i (quiet.atomicInst.trans locked) (quiet.rests rests) (fun j => ?_) ?_
      · rw [quiet.releases j]
        exact only j
      · rw [quiet.delivered, quiet.unsent i, quiet.id i member, quiet.instruct, quiet.typed]
        exact sent

/-! ## One step -/

theorem Quiet.refl (s : Shell) : Quiet s s :=
  ⟨rfl, rfl, rfl, rfl, rfl, rfl, fun _ => rfl, fun _ => rfl, fun _ _ => rfl, [],
    (List.append_nil _).symm⟩

/-- A thread moves, and may take or give back a mutex. -/
theorem Quiet.goto {before : ChildPc} (here : s.pc i = before)
    (releases : pc.releases = before.releases) (unsent : pc.unsent = before.unsent)
    (threads newSocket : Nat) (conn : Nat → Nat) (mutex : Option Nat) (instructM : Option Thread) :
    Quiet s { s.goto i pc with
      threads := threads
      newSocket := newSocket
      conn := conn
      mutex := mutex
      instructM := instructM } := by
  subst here
  exact ⟨rfl, rfl, rfl, rfl, rfl, rfl, Shell.goto_test ChildPc.releases releases,
    Shell.goto_test ChildPc.unsent unsent, fun _ _ => rfl, [], (List.append_nil _).symm⟩

theorem Quiet.count {n : Int} (nodes : Nodes s) (here : s.pc i = .count n) :
    Quiet s { s.goto i .append with id := Function.update s.id i n, listN := n + 1 } := by
  have other : ∀ j ∈ s.list, Function.update s.id i n j = s.id j := by
    intro j member
    refine Function.update_of_ne ?_ _ _
    rintro rfl
    have listed := (nodes.listed j).mp member
    rw [here] at listed
    cases listed
  refine ⟨rfl, rfl, rfl, rfl, rfl, ?_, Shell.goto_test ChildPc.releases (by rw [here]; rfl),
    Shell.goto_test ChildPc.unsent (by rw [here]; rfl), other, [], (List.append_nil _).symm⟩
  exact List.map_congr_left fun entry member =>
    congrArg (·, entry.2) (other entry.1 (nodes.sent entry member))

theorem Quiet.append (here : s.pc i = .append) :
    Quiet s { s.goto i .lockMutex with list := s.list ++ [i] } :=
  ⟨rfl, rfl, rfl, rfl, rfl, rfl, Shell.goto_test ChildPc.releases (by rw [here]; rfl),
    Shell.goto_test ChildPc.unsent (by rw [here]; rfl), fun _ _ => rfl, [i], rfl⟩

theorem Shell.Rests.not_enters (rests : s.Rests) : s.ui.enters = false := by
  obtain at_ | at_ | at_ | ⟨c, k, i, at_, -⟩ := rests <;> rw [at_] <;> rfl

/-- While `UI` is at the keyboard, all commands but that one have been sent. -/
theorem Phase.of_enters (phase : Phase s) (enters : s.ui.enters = true) :
    s.atomicInst = true ∧ (∀ i, (s.pc i).releases = false) ∧ s.delivered = s.typed := by
  cases phase with
  | idle free rests => cases rests.not_enters.symm.trans enters
  | entering locked _ none sent => exact ⟨locked, none, sent⟩
  | calling c _ walks =>
      rw [walks] at enters
      cases enters
  | releasing i _ rests => cases rests.not_enters.symm.trans enters

/-- A command in the hands of a thread, or none, and `UI` goes on. -/
theorem Phase.resume (phase : Phase s) (rested : s.Rests) (ui : UiPc) (mode : Bool)
    (rests : Shell.Rests { s with ui := ui, mode := mode }) :
    Phase { s with ui := ui, mode := mode } := by
  cases phase with
  | idle free _ none sent => exact .idle free rests none sent
  | entering _ enters => cases rested.not_enters.symm.trans enters
  | calling c _ walks _ passed =>
      obtain at_ | at_ | at_ | ⟨c', k, i, at_, before, found, named⟩ := rested
      · cases walks.symm.trans at_
      · cases walks.symm.trans at_
      · cases walks.symm.trans at_
      · cases walks.symm.trans at_
        exact absurd named (passed k before i found)
  | releasing i locked _ only sent => exact .releasing i locked rests only sent

/-- A thread that sends is the one that was signalled. -/
theorem Phase.of_releases (phase : Phase s) (moves : (s.pc i).releases = true) :
    s.atomicInst = true ∧ s.Rests ∧ (∀ j, (s.pc j).releases = true ↔ j = i) ∧
    s.delivered ++ (if (s.pc i).unsent then [(s.id i, s.instruct)] else []) = s.typed := by
  cases phase with
  | idle _ _ none => cases (none i).symm.trans moves
  | entering _ _ none => cases (none i).symm.trans moves
  | calling _ _ _ _ _ none => cases (none i).symm.trans moves
  | releasing j locked rests only sent =>
      obtain rfl := (only i).mp moves
      exact ⟨locked, rests, only, sent⟩

theorem Phase.childMove (phase : Phase s) (nodes : Nodes s) (whole : s.command = s.instruct)
    (move : s.ChildMove i t) : Phase t := by
  cases move with
  | count n here => exact (Quiet.count nodes here).phase nodes phase
  | append here => exact (Quiet.append here).phase nodes phase
  | readSocket here | newId here | lockMutex here | condWait here | woken here | lockInstruct here
  | unlockInstruct here | unlockMutex here =>
      refine Quiet.phase (Quiet.goto here ?_ ?_ _ _ _ _ _) nodes phase <;> rfl
  | send here =>
      obtain ⟨locked, rests, only, sent⟩ := phase.of_releases (by rw [here]; rfl)
      refine .releasing i locked rests (fun j => ?_) ?_
      · exact (Eq.congr_left (Shell.goto_test ChildPc.releases (by rw [here]; rfl) j)).trans (only j)
      · have last : (s.delivered ++ [(s.id i, s.instruct)]) = s.typed := by
          rw [here] at sent
          exact sent
        have done : ((s.goto i .unlockInstruct).pc i).unsent = false := by
          rw [Shell.goto_self]
          rfl
        have mine : s.conn i = i := nodes.conn i (by rw [here]; rfl)
        change (s.sent ++ [(s.conn i, s.command)]).map (fun (client, line) => (s.id client, line)) ++
          (if ((s.goto i .unlockInstruct).pc i).unsent then _ else _) = s.typed
        rw [done, mine, whole, List.map_append, ← last]
        exact List.append_nil _
  | unlockAtomic here =>
      obtain ⟨locked, rests, only, sent⟩ := phase.of_releases (by rw [here]; rfl)
      refine .idle rfl rests (fun j => ?_) ?_
      · by_cases mine : j = i
        · subst mine
          exact congrArg ChildPc.releases Shell.goto_self
        · refine (congrArg ChildPc.releases (Shell.goto_other mine)).trans ?_
          exact Bool.eq_false_iff.mpr fun releases => mine ((only j).mp releases)
      · rw [here] at sent
        exact (List.append_nil _).symm.trans sent

/-- In `find_wake` the command waits for its node, or `UI` has come past it. -/
theorem Phase.of_walk {c : Nat} (phase : Phase s) (walks : s.ui = .walk c) :
    (s.atomicInst = true ∧ c ≤ s.list.length ∧
      (∀ k < c, ∀ i, s.list[k]? = some i → s.id i ≠ s.turn) ∧
      (∀ i, (s.pc i).releases = false) ∧
      s.delivered ++ [(s.turn, s.instruct)] = s.typed) ∨
    s.Rests ∧ ∃ k i, k < c ∧ s.list[k]? = some i ∧ s.id i = s.turn := by
  have past : s.Rests → s.Rests ∧ ∃ k i, k < c ∧ s.list[k]? = some i ∧ s.id i = s.turn := by
    intro rests
    obtain at_ | at_ | at_ | ⟨c', k, i, at_, before, found, named⟩ := id rests
    · cases walks.symm.trans at_
    · cases walks.symm.trans at_
    · cases walks.symm.trans at_
    · cases walks.symm.trans at_
      exact ⟨rests, k, i, before, found, named⟩
  cases phase with
  | idle _ rests => exact .inr (past rests)
  | entering _ enters =>
      rw [walks] at enters
      cases enters
  | calling c' locked here inside passed none sent =>
      cases walks.symm.trans here
      exact .inl ⟨locked, inside, passed, none, sent⟩
  | releasing _ _ rests => exact .inr (past rests)

/-- `find_wake` comes to the node of the turn once, and its thread waits. -/
theorem Phase.found {c : Nat} (phase : Phase s) (nodes : Nodes s) (walks : s.ui = .walk c)
    (node : s.list[c]? = some i) (named : s.turn = s.id i) (waits : s.pc i = .waiting) :
    Phase { s.signal i with ui := .walk (c + 1) } := by
  have signalled : s.signal i = s.goto i .woken := if_pos waits
  obtain ⟨locked, -, passed, none, sent⟩ | ⟨-, k, j, before, found, same⟩ := phase.of_walk walks
  · rw [signalled]
    refine .releasing i locked (.inr (.inr (.inr ⟨c + 1, c, i, rfl, Nat.lt_succ_self c, node,
      named.symm⟩))) (fun j => ?_) ?_
    · by_cases mine : j = i
      · subst mine
        exact iff_of_true (congrArg ChildPc.releases Shell.goto_self) rfl
      · refine iff_of_false (fun releases => ?_) mine
        rw [Shell.goto_other mine, none j] at releases
        cases releases
    · have unsent : ((s.goto i .woken).pc i).unsent = true := congrArg ChildPc.unsent Shell.goto_self
      change s.delivered ++ (if ((s.goto i .woken).pc i).unsent then [(s.id i, s.instruct)] else []) =
        s.typed
      rw [if_pos unsent, ← named]
      exact sent
  · have listed : ∀ j ∈ s.list, (s.pc j).named = true :=
      fun j member => ChildPc.named_of_listed ((nodes.listed j).mp member)
    have one := nodes.distinct j i (listed j (List.mem_of_getElem? found))
      (listed i (List.mem_of_getElem? node)) (same.trans named)
    subst one
    have places := (List.getElem?_inj (List.getElem?_eq_some_iff.mp found).1 nodes.nodup).mp
      (found.trans node.symm)
    omega

theorem Phase.uiMove (phase : Phase s) (nodes : Nodes s) (good : careful s .ui = true)
    (move : s.UiMove t) : Phase t := by
  cases move with
  | spin => exact phase
  | poll here => exact phase.resume (.inl here) _ _ (.inr (.inl rfl))
  | lockAtomic here free =>
      cases phase with
      | idle _ _ none sent => exact .entering rfl rfl none sent
      | entering locked => cases free.symm.trans locked
      | calling _ locked => cases free.symm.trans locked
      | releasing _ locked => cases free.symm.trans locked
  | lockInstruct here | unlockInstruct here | quit here | stay here =>
      obtain ⟨locked, none, sent⟩ := phase.of_enters (by rw [here]; rfl)
      exact .entering locked rfl none sent
  | found c i here node named =>
      refine phase.found nodes here node named ?_
      unfold careful at good
      simp only [here, node, named] at good
      simpa using good
  | other c i here node named =>
      obtain ⟨locked, -, passed, none, sent⟩ | ⟨rests, k, j, before, found, same⟩ :=
        phase.of_walk here
      · have inside := (List.getElem?_eq_some_iff.mp node).1
        refine .calling (c + 1) locked rfl inside (fun k before j found => ?_) none sent
        obtain earlier | rfl := Nat.lt_or_eq_of_le (Nat.le_of_lt_succ before)
        · exact passed k earlier j found
        · obtain rfl := Option.some.inj (node.symm.trans found)
          exact named.symm
      · exact phase.resume rests _ _
          (.inr (.inr (.inr ⟨c + 1, k, j, rfl, Nat.lt_succ_of_lt before, found, same⟩)))
  | last c here none =>
      obtain ⟨-, inside, passed, -, -⟩ | ⟨rests, -⟩ := phase.of_walk here
      · unfold careful at good
        simp only [here, none, List.any_eq_true, decide_eq_true_eq] at good
        obtain ⟨i, member, named⟩ := good
        obtain ⟨k, place, found⟩ := List.getElem_of_mem member
        have all := List.getElem?_eq_none_iff.mp none
        exact absurd named.symm
          (passed k (by omega) i (List.getElem?_eq_some_iff.mpr ⟨place, found⟩))
      · exact phase.resume rests _ _ (.inr (.inr (.inl rfl)))
  | modeOff here => exact phase.resume (.inr (.inr (.inl here))) _ _ (.inl rfl)

theorem Phase.step (phase : Phase s) (nodes : Nodes s) (whole : s.command = s.instruct)
    (good : careful s label = true) (stepped : s.step label = some t) : Phase t := by
  cases Shell.move_of_step stepped with
  | interrupt =>
      refine Quiet.phase ?_ nodes phase
      exact ⟨rfl, rfl, rfl, rfl, rfl, rfl, fun _ => rfl, fun _ => rfl, fun _ _ => rfl, [],
        (List.append_nil _).symm⟩
  | connect =>
      have gone := nodes.fresh s.threads (Nat.le_refl _)
      refine Quiet.phase (Quiet.goto gone ?_ ?_ _ _ _ _ _) nodes phase <;> rfl
  | command line here | overrun line here =>
      obtain ⟨locked, none, sent⟩ := phase.of_enters (by rw [here]; rfl)
      exact .entering locked rfl none sent
  | number n here =>
      obtain ⟨locked, none, sent⟩ := phase.of_enters (by rw [here]; rfl)
      exact .calling 0 locked rfl (Nat.zero_le _) nofun none
        (congrArg (· ++ [(n, s.instruct)]) sent)
  | ui move => exact phase.uiMove nodes good move
  | child i move => exact phase.childMove nodes whole move

/-! ## The other mutexes -/

def ChildPc.holdsMutex : ChildPc → Bool
  | .condWait | .lockInstruct | .sending | .unlockInstruct | .unlockAtomic | .unlockMutex => true
  | _ => false

def ChildPc.holdsInstruct : ChildPc → Bool
  | .sending | .unlockInstruct => true
  | _ => false

def UiPc.holdsInstruct : UiPc → Bool
  | .typing | .overrun | .unlockInstruct => true
  | _ => false

theorem UiPc.enters_of_holdsInstruct {ui : UiPc} (holds : ui.holdsInstruct = true) :
    ui.enters = true := by
  cases ui <;> first | rfl | cases holds

theorem ChildPc.releases_of_holdsInstruct (holds : pc.holdsInstruct = true) :
    pc.releases = true := by
  cases pc <;> first | rfl | cases holds

/-- A thread that has `mutex` and no command is about to give it back. -/
theorem ChildPc.of_holdsMutex (holds : pc.holdsMutex = true) (idle : pc.releases = false) :
    pc = .condWait ∨ pc = .unlockMutex := by
  cases pc with
  | condWait => exact .inl rfl
  | unlockMutex => exact .inr rfl
  | lockInstruct | sending | unlockInstruct | unlockAtomic => cases idle
  | _ => cases holds

/-- Who holds `mutex` and `instruct_m`. -/
structure Locks (s : Shell) : Prop where
  mutex : ∀ i, (s.pc i).holdsMutex = true ↔ s.mutex = some i
  instruct : ∀ i, (s.pc i).holdsInstruct = true ↔ s.instructM = some (.child i)
  ui : s.ui.holdsInstruct = true ↔ s.instructM = some .ui

section

variable {test : ChildPc → Bool} {holds : Nat → Prop}

theorem Shell.goto_holds (owned : ∀ j, test (s.pc j) = true ↔ holds j)
    (kept : test pc = test (s.pc i)) (j : Nat) : test ((s.goto i pc).pc j) = true ↔ holds j := by
  rw [goto_test test kept]
  exact owned j

theorem Shell.goto_takes (owned : ∀ j, test (s.pc j) = true ↔ holds j) (free : ∀ j, ¬ holds j)
    (taken : test pc = true) (j : Nat) : test ((s.goto i pc).pc j) = true ↔ j = i := by
  by_cases mine : j = i
  · subst mine
    exact iff_of_true (by rw [goto_self, taken]) rfl
  · rw [goto_other mine, owned]
    exact iff_of_false (free j) mine

theorem Shell.goto_gives (owned : ∀ j, test (s.pc j) = true ↔ holds j)
    (mine : ∀ j, holds j → j = i) (given : test pc = false) (j : Nat) :
    test ((s.goto i pc).pc j) = false := by
  by_cases same : j = i
  · subst same
    rw [goto_self, given]
  · rw [goto_other same]
    exact Bool.eq_false_iff.mpr fun holding => same (mine j ((owned j).mp holding))

end

namespace Locks

theorem start : Locks Shell.start :=
  ⟨fun _ => iff_of_false Bool.false_ne_true nofun, fun _ => iff_of_false Bool.false_ne_true nofun,
    iff_of_false Bool.false_ne_true nofun⟩

/-- A thread that moves with the mutexes it has. -/
theorem goto {before : ChildPc} (locks : Locks s) (here : s.pc i = before)
    (mutex : pc.holdsMutex = before.holdsMutex)
    (instruct : pc.holdsInstruct = before.holdsInstruct) : Locks (s.goto i pc) := by
  subst here
  exact ⟨Shell.goto_holds locks.mutex mutex, Shell.goto_holds locks.instruct instruct, locks.ui⟩

theorem takeMutex {before : ChildPc} (locks : Locks s) (here : s.pc i = before)
    (free : s.mutex = none) (taken : pc.holdsMutex = true)
    (instruct : pc.holdsInstruct = before.holdsInstruct) :
    Locks { s.goto i pc with mutex := some i } := by
  subst here
  refine ⟨fun j => ?_, Shell.goto_holds locks.instruct instruct, locks.ui⟩
  have none : ∀ j, ¬ s.mutex = some j := fun j => by rw [free]; nofun
  exact (Shell.goto_takes locks.mutex none taken j).trans (by rw [Option.some_inj, eq_comm])

theorem giveMutex {before : ChildPc} (locks : Locks s) (here : s.pc i = before)
    (had : before.holdsMutex = true) (given : pc.holdsMutex = false)
    (instruct : pc.holdsInstruct = before.holdsInstruct) :
    Locks { s.goto i pc with mutex := none } := by
  subst here
  refine ⟨fun j => ?_, Shell.goto_holds locks.instruct instruct, locks.ui⟩
  have mine : ∀ j, s.mutex = some j → j = i := fun j other =>
    Option.some.inj (other.symm.trans ((locks.mutex i).mp had))
  exact iff_of_false (Bool.eq_false_iff.mp (Shell.goto_gives locks.mutex mine given j)) nofun

theorem takeInstruct (locks : Locks s) (here : s.pc i = .lockInstruct)
    (free : s.instructM = none) :
    Locks { s.goto i .sending with instructM := some (.child i) } := by
  refine ⟨Shell.goto_holds locks.mutex (by rw [here]; rfl), fun j => ?_, ?_⟩
  · have none : ∀ j, ¬ s.instructM = some (.child j) := fun j => by rw [free]; nofun
    refine (Shell.goto_takes locks.instruct none rfl j).trans ?_
    rw [Option.some_inj, Thread.child.injEq, eq_comm]
  · refine iff_of_false (fun holding => ?_) nofun
    cases free.symm.trans (locks.ui.mp holding)

theorem giveInstruct (locks : Locks s) (here : s.pc i = .unlockInstruct) :
    Locks { s.goto i .unlockAtomic with instructM := none } := by
  have had : s.instructM = some (.child i) := (locks.instruct i).mp (by rw [here]; rfl)
  have mine : ∀ j, s.instructM = some (.child j) → j = i := fun j other =>
    Thread.child.inj (Option.some.inj (other.symm.trans had))
  refine ⟨Shell.goto_holds locks.mutex (by rw [here]; rfl), fun j => ?_, ?_⟩
  · exact iff_of_false (Bool.eq_false_iff.mp (Shell.goto_gives locks.instruct mine rfl j)) nofun
  · refine iff_of_false (fun holding => ?_) nofun
    cases had.symm.trans (locks.ui.mp holding)

theorem congr (locks : Locks s) (pc : t.pc = s.pc) (mutex : t.mutex = s.mutex)
    (instructM : t.instructM = s.instructM)
    (ui : t.ui.holdsInstruct = s.ui.holdsInstruct) : Locks t := by
  refine ⟨?_, ?_, ?_⟩
  · rw [pc, mutex]
    exact locks.mutex
  · rw [pc, instructM]
    exact locks.instruct
  · rw [ui, instructM]
    exact locks.ui

theorem childMove (locks : Locks s) (move : s.ChildMove i t) : Locks t := by
  cases move with
  | readSocket here | newId here | count n here | append here | send here | unlockAtomic here =>
      refine (locks.goto here ?_ ?_).congr rfl rfl rfl rfl <;> rfl
  | lockMutex here free | woken here free => exact locks.takeMutex here free rfl rfl
  | condWait here | unlockMutex here => exact locks.giveMutex here rfl rfl rfl
  | lockInstruct here free => exact locks.takeInstruct here free
  | unlockInstruct here => exact locks.giveInstruct here

theorem signal (locks : Locks s) : Locks (s.signal i) := by
  unfold Shell.signal
  split
  · next waits => exact locks.goto waits rfl rfl
  · exact locks

theorem uiMove (locks : Locks s) (move : s.UiMove t) : Locks t := by
  cases move with
  | spin => exact locks
  | poll here | lockAtomic here | quit here | stay here | other _ _ here | last _ here
  | modeOff here =>
      refine locks.congr rfl rfl rfl ?_
      rw [here]
      rfl
  | lockInstruct here free =>
      refine ⟨locks.mutex, fun j => ?_, iff_of_true rfl rfl⟩
      exact (locks.instruct j).trans (iff_of_false (by rw [free]; nofun) nofun)
  | unlockInstruct here =>
      have had : s.instructM = some .ui := locks.ui.mp (by rw [here]; rfl)
      refine ⟨locks.mutex, fun j => ?_, iff_of_false nofun nofun⟩
      exact (locks.instruct j).trans (iff_of_false (by rw [had]; nofun) nofun)
  | found c i here node named =>
      refine locks.signal.congr rfl rfl rfl ?_
      unfold Shell.signal
      split <;> exact (congrArg UiPc.holdsInstruct here).symm

theorem step (locks : Locks s) (nodes : Nodes s) (stepped : s.step label = some t) : Locks t := by
  cases Shell.move_of_step stepped with
  | interrupt => exact locks.congr rfl rfl rfl rfl
  | connect =>
      have gone := nodes.fresh s.threads (Nat.le_refl _)
      refine (locks.goto gone ?_ ?_).congr rfl rfl rfl rfl <;> rfl
  | command line here | overrun line here | number n here =>
      refine locks.congr rfl rfl rfl ?_
      rw [here]
      rfl
  | ui move => exact locks.uiMove move
  | child i move => exact locks.childMove move

end Locks

/-! ## Every run -/

theorem Phase.start : Phase Shell.start := .idle rfl (.inl rfl) (fun _ => rfl) rfl

theorem Phase.handedOff (phase : Phase s) (nodes : Nodes s) : HandedOff s := by
  have distinct : ∀ i ∈ s.list, ∀ j ∈ s.list, s.id i = s.id j → i = j :=
    fun i inside j inside' => nodes.distinct i j
      (ChildPc.named_of_listed ((nodes.listed i).mp inside))
      (ChildPc.named_of_listed ((nodes.listed j).mp inside'))
  cases phase with
  | idle free rests none sent =>
      exact ⟨fun _ locked => (nomatch free.symm.trans locked), fun _ => sent, .inl sent, distinct⟩
  | entering locked enters none sent =>
      refine ⟨fun at_ => ?_, fun _ => sent, .inl sent, distinct⟩
      rw [at_] at enters
      cases enters
  | calling c locked walks inside passed none sent =>
      exact ⟨fun at_ => (nomatch walks.symm.trans at_), fun free => (nomatch free.symm.trans locked),
        .inr ⟨_, sent, .inl ⟨c, walks⟩⟩, distinct⟩
  | releasing i locked rests only sent =>
      refine ⟨fun _ _ => ⟨i, (only i).mpr rfl⟩, fun free => (nomatch free.symm.trans locked), ?_,
        distinct⟩
      cases unsent : (s.pc i).unsent with
      | false =>
          rw [unsent] at sent
          exact .inl ((List.append_nil _).symm.trans sent)
      | true =>
          rw [unsent] at sent
          refine .inr ⟨_, sent, .inr ⟨i, ?_, unsent, rfl⟩⟩
          exact (nodes.listed i).mpr
            (ChildPc.listed_of_releases (ChildPc.releases_of_unsent unsent))

/-- The threads alone can have everything sent that has been typed. -/
def Delivers (s : Shell) : Prop :=
  ∃ labels t, (∀ label ∈ labels, ∃ i, label = .child i) ∧ shell.Run s labels t ∧
    t.typed = s.typed ∧ t.delivered = s.typed

theorem Delivers.child (stepped : shell.step s (.child i) t) (typed : t.typed = s.typed)
    (later : Delivers t) : Delivers s := by
  obtain ⟨labels, last, threads, run, same, sent⟩ := later
  refine ⟨.child i :: labels, last, ?_, ((System.Run.nil s).snoc stepped).append run,
    same.trans typed, sent.trans typed⟩
  exact List.forall_mem_cons.mpr ⟨⟨i, rfl⟩, threads⟩

theorem Shell.step_of_childMove (runs : ¬ (s.ui = .exited ∨ s.ui = .overrun))
    (move : s.ChildMove i t) : s.step (.child i) = some t := by
  rw [step, if_neg runs]
  cases move with
  | readSocket here | newId here | count n here | append here | condWait here | send here | unlockInstruct here | unlockAtomic here
  | unlockMutex here =>
      rw [childStep, here]
  | lockMutex here free | woken here free | lockInstruct here free =>
      rw [childStep, here]
      exact if_pos free

/-- What holds of every state of a run whose commands are answered. -/
structure Served (s : Shell) : Prop where
  nodes : Nodes s
  locks : Locks s
  phase : Phase s
  /-- There is no zero in the line. -/
  whole : s.command = s.instruct

namespace Served

theorem start : Served Shell.start := ⟨.start, .start, .start, rfl⟩

/-- What is in `instruct` is sent whole. -/
theorem whole_step (served : Served s) (good : careful s label = true)
    (stepped : s.step label = some t) : t.command = t.instruct := by
  cases Shell.move_of_step stepped with
  | command line =>
      have clean : 0 ∉ line := by
        simp only [careful, Bool.and_eq_true, decide_eq_true_eq] at good
        exact good.2
      refine List.takeWhile_eq_self_iff.mpr fun byte member => ?_
      have other : byte ≠ 0 := fun zero => clean (zero ▸ member)
      exact decide_eq_true other
  | overrun line here long =>
      simp only [careful, Bool.and_eq_true, decide_eq_true_eq] at good
      exact absurd good.1 long
  | ui move =>
      cases move with
      | found c i =>
          show (s.signal i).command = (s.signal i).instruct
          unfold Shell.signal
          split
          · exact served.whole
          · exact served.whole
      | _ => exact served.whole
  | child i move =>
      cases move with
      | _ => exact served.whole
  | _ => exact served.whole

theorem step (served : Served s) (good : careful s label = true)
    (stepped : s.step label = some t) : Served t :=
  ⟨served.nodes.step good stepped, served.locks.step served.nodes stepped,
    served.phase.step served.nodes served.whole good stepped, served.whole_step good stepped⟩

/-- While a thread has to send, `UI` has not ended the process. -/
theorem runs (served : Served s) (releases : (s.pc i).releases = true) :
    ¬ (s.ui = .exited ∨ s.ui = .overrun) := by
  have rests := (served.phase.of_releases releases).2.1.not_enters
  rintro (ended | ended)
  · rw [ended] at rests
    cases rests
  · rw [ended] at rests
    cases rests

/-- A step of a thread with an id, towards the sending. -/
theorem towards (served : Served s) (releases : (s.pc i).releases = true)
    (move : s.ChildMove j t) (named : (s.pc j).named = true) (typed : t.typed = s.typed)
    (later : Served t → Delivers t) : Delivers s := by
  have stepped := Shell.step_of_childMove (served.runs releases) move
  have good : careful s (.child j) = true := by
    have past : s.pc j ≠ .newId := by
      intro new
      rw [new] at named
      cases named
    simp [careful, past]
  exact Delivers.child stepped typed (later (served.step good stepped))

theorem delivers_sending (served : Served s) (here : s.pc i = .sending) : Delivers s := by
  have releases : (s.pc i).releases = true := by
    rw [here]
    rfl
  refine served.towards releases (.send here) (by rw [here]; rfl) rfl fun next => ?_
  have gone : (s.goto i .unlockInstruct).pc i = .unlockInstruct := Shell.goto_self
  have sent := (next.phase.of_releases (congrArg ChildPc.releases gone)).2.2.2
  refine ⟨[], _, nofun, .nil _, rfl, ?_⟩
  rw [gone] at sent
  exact (List.append_nil _).symm.trans sent

theorem delivers_lockInstruct (served : Served s) (here : s.pc i = .lockInstruct) :
    Delivers s := by
  have releases : (s.pc i).releases = true := by
    rw [here]
    rfl
  obtain ⟨-, rests, only, -⟩ := served.phase.of_releases releases
  have free : s.instructM = none := by
    cases held : s.instructM with
    | none => rfl
    | some holder =>
        cases holder with
        | ui =>
            have types := UiPc.enters_of_holdsInstruct (served.locks.ui.mpr held)
            cases rests.not_enters.symm.trans types
        | child j =>
            have holding := (served.locks.instruct j).mpr held
            obtain rfl := (only j).mp (ChildPc.releases_of_holdsInstruct holding)
            rw [here] at holding
            cases holding
  exact served.towards releases (.lockInstruct here free) (by rw [here]; rfl) rfl
    fun next => next.delivers_sending Shell.goto_self

theorem delivers_free (served : Served s) (here : s.pc i = .woken) (free : s.mutex = none) :
    Delivers s := by
  have releases : (s.pc i).releases = true := by
    rw [here]
    rfl
  exact served.towards releases (.woken here free) (by rw [here]; rfl) rfl
    fun next => next.delivers_lockInstruct Shell.goto_self

/-- A thread that has `mutex` and no command gives it back at once. -/
theorem delivers_woken (served : Served s) (here : s.pc i = .woken) : Delivers s := by
  have releases : (s.pc i).releases = true := by
    rw [here]
    rfl
  obtain ⟨-, -, only, -⟩ := served.phase.of_releases releases
  cases held : s.mutex with
  | none => exact served.delivers_free here held
  | some j =>
      have holding := (served.locks.mutex j).mpr held
      have other : j ≠ i := by
        rintro rfl
        rw [here] at holding
        cases holding
      have idle : (s.pc j).releases = false :=
        Bool.eq_false_iff.mpr fun moving => other ((only j).mp moving)
      have stays : ∀ pc, (s.goto j pc).pc i = .woken := fun pc =>
        (Shell.goto_other (Ne.symm other)).trans here
      obtain at_ | at_ := ChildPc.of_holdsMutex holding idle
      · exact served.towards releases (.condWait at_) (by rw [at_]; rfl) rfl
          fun next => next.delivers_free (stays _) rfl
      · exact served.towards releases (.unlockMutex at_) (by rw [at_]; rfl) rfl
          fun next => next.delivers_free (stays _) rfl

/-- Once `find_wake` is done, the threads have the command sent. -/
theorem delivers (served : Served s) (called : ∀ c, s.ui ≠ .walk c) : Delivers s := by
  cases served.phase with
  | idle _ _ _ sent => exact ⟨[], s, nofun, .nil s, rfl, sent⟩
  | entering _ _ _ sent => exact ⟨[], s, nofun, .nil s, rfl, sent⟩
  | calling c _ walks => exact absurd walks (called c)
  | releasing i locked rests only sent =>
      cases here : s.pc i with
      | woken => exact served.delivers_woken here
      | lockInstruct => exact served.delivers_lockInstruct here
      | sending => exact served.delivers_sending here
      | _ =>
          rw [here] at sent
          exact ⟨[], s, nofun, .nil s, rfl, (List.append_nil _).symm.trans sent⟩

end Served

/-- In every run in which each turn finds its client waiting, the hand-off neither blocks nor
misdelivers, and the threads can always send what has been called out. -/
theorem hand_off {labels : List Label}
    (run : (shell.guarded fun s label => careful s label = true).Run Shell.start labels s) :
    HandedOff s ∧ ((∀ c, s.ui ≠ .walk c) → Delivers s) := by
  have served : Served s := by
    refine run.preserves ?_ Served.start
    rintro state label next served ⟨good, stepped⟩
    exact served.step good stepped
  exact ⟨served.phase.handedOff served.nodes, served.delivers⟩

/-- Thread `i` comes to its wait. -/
def comes (i : Nat) : List Label := .connect :: List.replicate 6 (.child i)

/-- The operator has this line sent by thread `i`, the one at place `i` of two. -/
def calls (i : Nat) (line : List UInt8) : List Label :=
  [.interrupt, .ui, .ui, .ui, .command line, .ui, .ui, .number i, .ui, .ui, .ui, .ui] ++
    List.replicate 8 (.child i)

/-- Two clients connect; the second one gets `ls`, and then the first one gets `pwd`. -/
def servedRun : List Label :=
  comes 0 ++ comes 1 ++ calls 1 [108, 115] ++ calls 0 [112, 119, 100]

theorem hand_off_ls : ∃ s,
    (shell.guarded fun s label => careful s label = true).Run Shell.start servedRun s ∧
    s.sent = [(1, [108, 115]), (0, [112, 119, 100])] ∧ HandedOff s ∧ ((∀ c, s.ui ≠ .walk c) → Delivers s) := by
  have run : (shell.guarded fun s label => careful s label = true).Run Shell.start servedRun _ :=
    System.Run.of_fold
      (fun s label t stepped => Option.ite_none_right_eq_some.mp stepped)
      (show servedRun.foldlM (fun s label => if careful s label = true then s.step label else none)
        Shell.start = some _ from rfl)
  exact ⟨_, run, rfl, hand_off run⟩

end SlabStudy.DShell
