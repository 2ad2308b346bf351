import Mathlib.Data.List.Induction
import Mathlib.Logic.Basic

/-!
# Labelled runs

A transition system is a set of initial states and a labelled step relation.
Runs keep their labels in the order of execution, so a statement may speak
about the history of a run as well as about the state it ends in.  A guarded
system keeps only the steps whose state and label meet a condition.
-/

namespace SlabStudy.Library

/-- A labelled transition system. -/
structure System (State Label : Type) where
  initial : State → Prop
  step : State → Label → State → Prop

namespace System

variable {State Label : Type}

/-- Finite runs, grown at their end. -/
inductive Run (system : System State Label) : State → List Label → State → Prop where
  | nil (start : State) : Run system start [] start
  | snoc {start middle last : State} {labels : List Label} {label : Label}
      (earlier : Run system start labels middle)
      (next : system.step middle label last) :
      Run system start (labels ++ [label]) last

/-- The states some run from an initial state ends in. -/
def Reachable (system : System State Label) (state : State) : Prop :=
  ∃ start labels, system.initial start ∧ system.Run start labels state

/-- The same system with only the steps that meet `good`. -/
def guarded (system : System State Label) (good : State → Label → Prop) :
    System State Label where
  initial := system.initial
  step state label next := good state label ∧ system.step state label next

variable {system : System State Label}

/-- What holds at the start and is kept by every step holds at the end. -/
theorem Run.preserves {P : State → Prop}
    (kept : ∀ {state label next}, P state → system.step state label next → P next)
    {first last : State} {labels : List Label}
    (run : system.Run first labels last) (holds : P first) : P last := by
  induction run with
  | nil => exact holds
  | snoc _ next ih => exact kept ih next

/-- The same rule for a property of the labels met so far and the state. -/
theorem Run.preservesHistory {P : List Label → State → Prop}
    (kept : ∀ {labels state label next}, P labels state →
      system.step state label next → P (labels ++ [label]) next)
    {first last : State} {labels : List Label}
    (run : system.Run first labels last) (holds : P [] first) : P labels last := by
  induction run with
  | nil => exact holds
  | snoc _ next ih => exact kept ih next

/-- An initial state is reachable. -/
theorem Reachable.start {state : State} (first : system.initial state) :
    system.Reachable state :=
  ⟨state, [], first, .nil state⟩

/-- A step from a reachable state ends in a reachable state. -/
theorem Reachable.step {state next : State} {label : Label}
    (reached : system.Reachable state) (edge : system.step state label next) :
    system.Reachable next := by
  obtain ⟨start, labels, first, run⟩ := reached
  exact ⟨start, labels ++ [label], first, .snoc run edge⟩

/-- A run is computed by a step function that agrees with the system. -/
theorem Run.of_fold {step : State → Label → Option State}
    (agrees : ∀ state label next, step state label = some next → system.step state label next)
    {labels : List Label} {first last : State} (ran : labels.foldlM step first = some last) :
    system.Run first labels last := by
  induction labels using List.reverseRecOn generalizing last with
  | nil =>
    cases ran
    exact .nil first
  | append_singleton labels label ih =>
    rw [List.foldlM_append] at ran
    obtain ⟨middle, earlier, final⟩ := Option.bind_eq_some_iff.mp ran
    rw [List.foldlM_cons] at final
    obtain ⟨next, taken, same⟩ := Option.bind_eq_some_iff.mp final
    cases same
    exact (ih earlier).snoc (agrees _ _ _ taken)

/-- Runs can be put together. -/
theorem Run.append {first middle last : State} {labels more : List Label}
    (earlier : system.Run first labels middle) (later : system.Run middle more last) :
    system.Run first (labels ++ more) last := by
  induction later with
  | nil =>
      rw [List.append_nil]
      exact earlier
  | snoc _ next ih =>
      rw [← List.append_assoc]
      exact .snoc ih next

/-- The last step of a run. -/
theorem Run.unsnoc {first last : State} {labels : List Label} {label : Label}
    (run : system.Run first (labels ++ [label]) last) :
    ∃ middle, system.Run first labels middle ∧ system.step middle label last := by
  generalize whole : labels ++ [label] = history at run
  cases run with
  | nil => exact absurd whole (List.append_ne_nil_of_right_ne_nil _ (List.cons_ne_nil _ _))
  | snoc earlier next =>
      obtain ⟨rfl, same⟩ := List.append_inj' whole rfl
      cases same
      exact ⟨_, earlier, next⟩

/-- A run can be cut between two labels. -/
theorem Run.split {first last : State} {before after : List Label}
    (run : system.Run first (before ++ after) last) :
    ∃ middle, system.Run first before middle ∧ system.Run middle after last := by
  induction after using List.reverseRecOn generalizing last with
  | nil =>
      rw [List.append_nil] at run
      exact ⟨last, run, .nil last⟩
  | append_singleton after label ih =>
      rw [← List.append_assoc] at run
      obtain ⟨almost, earlier, next⟩ := run.unsnoc
      obtain ⟨middle, start, rest⟩ := ih earlier
      exact ⟨middle, start, .snoc rest next⟩

/-- A run without labels stays where it is. -/
theorem Run.eq_of_nil {first last : State} (run : system.Run first [] last) : last = first := by
  generalize none : ([] : List Label) = labels at run
  cases run with
  | nil => rfl
  | snoc _ _ => exact absurd none.symm (List.append_ne_nil_of_right_ne_nil _ (List.cons_ne_nil _ _))

/-- The first step of a run. -/
theorem Run.uncons {first last : State} {labels : List Label} {label : Label}
    (run : system.Run first (label :: labels) last) :
    ∃ middle, system.step first label middle ∧ system.Run middle labels last := by
  have cut : system.Run first ([label] ++ labels) last := run
  obtain ⟨middle, single, rest⟩ := cut.split
  have only : system.Run first ([] ++ [label]) middle := single
  obtain ⟨start, none, step⟩ := only.unsnoc
  rw [none.eq_of_nil] at step
  exact ⟨middle, step, rest⟩

/-- A run from a reachable state ends in a reachable state. -/
theorem Reachable.run {state last : State} {labels : List Label}
    (reached : system.Reachable state) (run : system.Run state labels last) :
    system.Reachable last := by
  obtain ⟨start, before, first, earlier⟩ := reached
  exact ⟨start, before ++ labels, first, earlier.append run⟩

/-- The invariant rule: true initially and kept by every step. -/
theorem Reachable.invariant {P : State → Prop}
    (first : ∀ {state}, system.initial state → P state)
    (kept : ∀ {state label next}, P state → system.step state label next → P next)
    {state : State} (reached : system.Reachable state) : P state := by
  obtain ⟨start, labels, begins, run⟩ := reached
  exact run.preserves kept (first begins)

/-- Forgetting the guard of a guarded run gives a run. -/
theorem Run.ofGuarded {good : State → Label → Prop} {first last : State}
    {labels : List Label} (run : (system.guarded good).Run first labels last) :
    system.Run first labels last := by
  induction run with
  | nil => exact .nil _
  | snoc _ next ih => exact .snoc ih next.2

/-- A run all of whose labels meet a condition is a run under that condition. -/
theorem Run.toGuarded {good : Label → Prop} {first last : State} {labels : List Label}
    (run : system.Run first labels last) (all : ∀ label ∈ labels, good label) :
    (system.guarded fun _ label => good label).Run first labels last := by
  induction run with
  | nil => exact .nil _
  | snoc _ next ih =>
      exact .snoc (ih fun label member => all label (List.mem_append_left _ member))
        ⟨all _ (by simp), next⟩

/-- States reachable under a guard are reachable. -/
theorem Reachable.ofGuarded {good : State → Label → Prop} {state : State}
    (reached : (system.guarded good).Reachable state) : system.Reachable state := by
  obtain ⟨start, labels, first, run⟩ := reached
  exact ⟨start, labels, first, run.ofGuarded⟩

/-- A weaker guard admits more runs. -/
theorem Run.weaken {good weak : State → Label → Prop} {first last : State} {labels : List Label}
    (run : (system.guarded good).Run first labels last)
    (weaker : ∀ state label, good state label → weak state label) :
    (system.guarded weak).Run first labels last := by
  induction run with
  | nil => exact .nil _
  | snoc _ next ih => exact .snoc ih ⟨weaker _ _ next.1, next.2⟩

/-- A weaker guard leaves more states reachable. -/
theorem Reachable.weaken {good weak : State → Label → Prop} {state : State}
    (weaker : ∀ state label, good state label → weak state label)
    (reached : (system.guarded good).Reachable state) : (system.guarded weak).Reachable state := by
  obtain ⟨start, labels, first, run⟩ := reached
  exact ⟨start, labels, first, run.weaken weaker⟩

end System

end SlabStudy.Library
