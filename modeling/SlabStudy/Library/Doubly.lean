import Mathlib.Data.List.Nodup
import Mathlib.Logic.Function.Basic
import Mathlib.Tactic.Common

/-!
# Doubly linked lists in a heap

Nodes are allocated and freed, and hold a pointer in each direction; a pointer
is an address or `none`.  A segment is a part of such a list, with the pointers
that enter and leave it at both ends.
-/

namespace SlabStudy.Library

/-- A node with a value. -/
structure Cell (α β : Type) where
  prev : Option α
  value : β
  next : Option α
  deriving DecidableEq

variable {α β : Type}

/-- From `cur`, entered from `prev`, through the nodes of a list up to `after`, which is entered
from `last`. -/
def Segment (heap : α → Option (Cell α β)) (last after : Option α) :
    Option α → Option α → List (α × β) → Prop
  | prev, cur, [] => prev = last ∧ cur = after
  | prev, cur, (a, value) :: nodes =>
      cur = some a ∧ ∃ next, heap a = some ⟨prev, value, next⟩ ∧
        Segment heap last after (some a) next nodes

/-- A whole list with its front. -/
def Doubly (heap : α → Option (Cell α β)) (front : Option α) (nodes : List (α × β)) : Prop :=
  (nodes.map Prod.fst).Nodup ∧ ∃ last, Segment heap last none none front nodes

namespace Segment

variable {heap heap' : α → Option (Cell α β)} {last after prev cur : Option α} {a : α} {value : β}
  {cell : Cell α β} {nodes front back : List (α × β)}

/-- A segment only depends on its own nodes. -/
theorem congr (segment : Segment heap last after prev cur nodes)
    (same : ∀ node ∈ nodes, heap' node.1 = heap node.1) :
    Segment heap' last after prev cur nodes := by
  induction nodes generalizing prev cur with
  | nil => exact segment
  | cons node nodes ih =>
      obtain ⟨here, next, found, rest⟩ := segment
      refine ⟨here, next, (same node List.mem_cons_self).trans found, ?_⟩
      exact ih rest fun node member => same node (.tail _ member)

theorem append : Segment heap last after prev cur (front ++ back) ↔
    ∃ before next, Segment heap before next prev cur front ∧
      Segment heap last after before next back := by
  induction front generalizing prev cur with
  | nil =>
      constructor
      · exact fun segment => ⟨prev, cur, ⟨rfl, rfl⟩, segment⟩
      · rintro ⟨_, _, ⟨rfl, rfl⟩, segment⟩
        exact segment
  | cons node front ih =>
      constructor
      · rintro ⟨here, next, found, rest⟩
        obtain ⟨before, next', left, right⟩ := ih.mp rest
        exact ⟨before, next', ⟨here, next, found, left⟩, right⟩
      · rintro ⟨before, next', ⟨here, next, found, left⟩, right⟩
        exact ⟨here, next, found, ih.mpr ⟨before, next', left, right⟩⟩

/-- A list is entered at its first node. -/
theorem front_eq (segment : Segment heap last none prev cur nodes) :
    cur = nodes.head?.map Prod.fst := by
  cases nodes with
  | nil => exact segment.2
  | cons node nodes => exact segment.1

/-- Every node of a segment is allocated. -/
theorem alive (segment : Segment heap last after prev cur nodes) :
    ∀ node ∈ nodes, ∃ cell, heap node.1 = some cell ∧ cell.value = node.2 := by
  induction nodes generalizing prev cur with
  | nil => nofun
  | cons node nodes ih =>
      obtain ⟨-, next, found, rest⟩ := segment
      exact List.forall_mem_cons.mpr ⟨⟨_, found, rfl⟩, ih rest⟩

/-- The links leave no choice. -/
theorem unique {last' after' prev' : Option α} {nodes' : List (α × β)}
    (segment : Segment heap last after prev cur nodes)
    (other : Segment heap last' after' prev' cur nodes')
    (same : nodes'.length = nodes.length) (some : nodes ≠ []) :
    prev' = prev ∧ after' = after := by
  induction nodes generalizing prev prev' cur nodes' with
  | nil => exact absurd rfl some
  | cons node nodes ih =>
      obtain ⟨rfl, next, found, rest⟩ := segment
      cases nodes' with
      | nil => cases same
      | cons node' nodes' =>
          obtain ⟨here, next', found', rest'⟩ := other
          have address := Option.some.inj here
          rw [← address, found] at found'
          injection Option.some.inj found' with prevs _ nexts
          subst nexts
          refine ⟨prevs.symm, ?_⟩
          cases nodes with
          | nil =>
              obtain rfl := List.length_eq_zero_iff.mp (Nat.succ.inj same)
              exact rest'.2.symm.trans rest.2
          | cons second nodes => exact (ih rest rest' (Nat.succ.inj same) nofun).2

variable [DecidableEq α]

/-- Assignments to a node outside leave a segment alone. -/
theorem update_other (segment : Segment heap last after prev cur nodes) (cell : Option (Cell α β))
    (other : a ∉ nodes.map Prod.fst) :
    Segment (Function.update heap a cell) last after prev cur nodes := by
  refine segment.congr fun node member => Function.update_of_ne ?_ _ _
  rintro rfl
  exact other (List.mem_map_of_mem member)

/-- The pointer out of a segment is turned at its last node. -/
theorem turn_next (segment : Segment heap last after prev cur (nodes ++ [(a, value)]))
    (nodup : ((nodes ++ [(a, value)]).map Prod.fst).Nodup) (found : heap a = some cell)
    (after' : Option α) :
    last = some a ∧ cell.next = after ∧
    Segment (Function.update heap a (some { cell with next := after' })) (some a) after' prev cur
      (nodes ++ [(a, value)]) := by
  obtain ⟨before, next, left, here, next', found', rfl, rfl⟩ := append.mp segment
  obtain rfl := Option.some.inj (found.symm.trans found')
  refine ⟨rfl, rfl, append.mpr ⟨before, next, ?_, here, after', ?_, rfl, rfl⟩⟩
  · refine left.update_other _ fun member => ?_
    rw [List.map_append, List.nodup_append] at nodup
    exact nodup.2.2 a member a List.mem_cons_self rfl
  · exact Function.update_self ..

/-- The pointer back out of a segment is turned at its first node. -/
theorem turn_prev (segment : Segment heap last after prev cur ((a, value) :: nodes))
    (nodup : (((a, value) :: nodes).map Prod.fst).Nodup) (found : heap a = some cell)
    (prev' : Option α) :
    cur = some a ∧ cell.prev = prev ∧
    Segment (Function.update heap a (some { cell with prev := prev' })) last after prev' (some a)
      ((a, value) :: nodes) := by
  obtain ⟨here, next, found', rest⟩ := segment
  obtain rfl := Option.some.inj (found.symm.trans found')
  refine ⟨here, rfl, rfl, next, Function.update_self .., ?_⟩
  exact rest.update_other _ (List.nodup_cons.mp nodup).1

end Segment

variable {heap : α → Option (Cell α β)} {front : Option α} {a : α} {value : β}
  {before behind : List (α × β)}

/-- A node that is not the first is not where the list is entered. -/
theorem Doubly.front_ne (doubly : Doubly heap front (before ++ (a, value) :: behind))
    (filled : before ≠ []) : front ≠ some a := by
  obtain ⟨nodup, last, segment⟩ := doubly
  cases before with
  | nil => exact absurd rfl filled
  | cons node before =>
      intro entered
      have same : node.1 = a := Option.some.inj (segment.1.symm.trans entered)
      exact (List.nodup_cons.mp nodup).1 (List.mem_map.mpr
        ⟨(a, value), List.mem_append_right _ List.mem_cons_self, same.symm⟩)

/-- A node apart from the others, and the two parts of the list around it. -/
theorem Doubly.around (doubly : Doubly heap front (before ++ (a, value) :: behind)) :
    ∃ prev next last, Segment heap prev (some a) none front before ∧
      heap a = some ⟨prev, value, next⟩ ∧ Segment heap last none (some a) next behind ∧
      ((before ++ behind).map Prod.fst).Nodup ∧ a ∉ before.map Prod.fst ∧
      a ∉ behind.map Prod.fst := by
  obtain ⟨nodup, last, segment⟩ := doubly
  obtain ⟨prev, _, left, rfl, next, found, right⟩ := Segment.append.mp segment
  rw [List.map_append, List.map_cons, List.nodup_middle, List.nodup_cons,
    List.mem_append, not_or, ← List.map_append] at nodup
  exact ⟨prev, next, last, left, found, right, nodup.2, nodup.1⟩

end SlabStudy.Library
