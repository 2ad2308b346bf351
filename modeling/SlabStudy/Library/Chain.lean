import Mathlib.Data.List.Nodup
import Mathlib.Data.Option.Basic
import Mathlib.Logic.Function.Basic
import Mathlib.Order.Lattice
import Mathlib.Tactic.Common

/-!
# Chains of links

Nodes that are linked in one direction, from a pointer through the nodes of a
list to another pointer.  A pointer is a node or `none`.
-/

namespace SlabStudy.Library

variable {β : Type}

/-- From the pointer `a` the links lead through the nodes of a list to `z`. -/
def Chain (next : β → Option β) : Option β → List β → Option β → Prop
  | a, [], z => a = z
  | a, x :: l, z => a = some x ∧ Chain next (next x) l z

namespace Chain

variable {next next' : β → Option β} {a z : Option β} {l front back : List β} {b x : β}

/-- A chain only depends on the links of its nodes. -/
theorem congr (chain : Chain next a l z) (same : ∀ x ∈ l, next' x = next x) :
    Chain next' a l z := by
  induction l generalizing a with
  | nil => exact chain
  | cons x l ih =>
      refine ⟨chain.1, ?_⟩
      rw [same x List.mem_cons_self]
      exact ih chain.2 fun y member => same y (List.mem_cons_of_mem _ member)

theorem append : Chain next a (front ++ back) z ↔
    ∃ middle, Chain next a front middle ∧ Chain next middle back z := by
  induction front generalizing a with
  | nil => exact ⟨fun chain => ⟨a, rfl, chain⟩, fun ⟨_, same, chain⟩ => same ▸ chain⟩
  | cons x front ih =>
      change _ ∧ Chain next (next x) (front ++ back) z ↔ ∃ middle, (_ ∧ _) ∧ _
      rw [ih]
      exact ⟨fun ⟨first, middle, left, right⟩ => ⟨middle, ⟨first, left⟩, right⟩,
        fun ⟨middle, ⟨first, left⟩, right⟩ => ⟨first, middle, left, right⟩⟩

/-- The pointers met on the way. -/
theorem links (chain : Chain next a l z) : a :: l.map next = l.map some ++ [z] := by
  induction l generalizing a with
  | nil =>
      cases chain
      rfl
  | cons x l ih =>
      obtain ⟨rfl, rest⟩ := chain
      exact congrArg (List.cons (some x)) (ih rest)

/-! ## Rings -/

/-- A ring can be entered at any of its nodes. -/
theorem rotate (ring : Chain next (some b) (b :: front ++ x :: back) (some b)) :
    Chain next (some x) (x :: back ++ b :: front) (some x) := by
  obtain ⟨middle, first, second⟩ := append.mp ring
  have same : middle = some x := second.1
  subst same
  exact append.mpr ⟨some b, second, first⟩

theorem enter (ring : Chain next (some b) (b :: l) (some b)) (member : x ∈ b :: l) :
    ∃ rest, Chain next (some x) (x :: rest) (some x) ∧ (x :: rest).Perm (b :: l) := by
  obtain ⟨front, back, split⟩ := List.append_of_mem member
  cases front with
  | nil =>
      obtain ⟨rfl, rfl⟩ := List.cons.inj split
      exact ⟨l, ring, .refl _⟩
  | cons y front =>
      obtain ⟨rfl, rfl⟩ := List.cons.inj split
      refine ⟨back ++ b :: front, ring.rotate, ?_⟩
      exact @List.perm_append_comm _ (x :: back) (b :: front)

/-- The nodes that a ring links to are its nodes. -/
theorem mem_next (ring : Chain next (some b) (b :: l) (some b)) (member : x ∈ b :: l) :
    ∃ y ∈ b :: l, next x = some y := by
  have pointers := ring.links
  have target : next x ∈ some b :: (b :: l).map next :=
    List.mem_cons_of_mem _ (List.mem_map_of_mem member)
  rw [pointers, List.mem_append, List.mem_map] at target
  rcases target with ⟨y, inside, same⟩ | last
  · exact ⟨y, inside, same.symm⟩
  · exact ⟨b, List.mem_cons_self, List.mem_singleton.mp last⟩

/-- Each node of a ring has one predecessor. -/
theorem next_inj (ring : Chain next (some b) (b :: l) (some b)) (nodup : (b :: l).Nodup) {y : β}
    (left : x ∈ b :: l) (right : y ∈ b :: l) (same : next x = next y) : x = y := by
  have pointers : (b :: l).map next = l.map some ++ [some b] :=
    (List.cons.inj ring.links).2
  have distinct : ((b :: l).map next).Nodup := by
    rw [pointers, ← List.map_singleton, ← List.map_append]
    refine List.Nodup.map (Option.some_injective β) ?_
    rw [List.nodup_append_comm]
    exact nodup
  exact List.inj_on_of_nodup_map distinct left right same

/-- Where a ring is ordered, a node links to the next one in order, and the last to the first. -/
theorem adjacent [LinearOrder β] (ring : Chain next (some b) (b :: l) (some b))
    (sorted : (b :: l).Pairwise (· < ·)) (member : x ∈ b :: l) :
    (∃ y ∈ b :: l, next x = some y ∧ x < y ∧ ∀ u ∈ b :: l, u ≤ x ∨ y ≤ u) ∨
    next x = some b ∧ ∀ u ∈ b :: l, u ≤ x := by
  obtain ⟨front, back, split⟩ := List.append_of_mem member
  rw [split] at ring sorted ⊢
  obtain ⟨middle, _, here, rest⟩ := append.mp ring
  obtain ⟨_, behind, order⟩ := List.pairwise_append.mp sorted
  obtain ⟨above, sortedBack⟩ := List.pairwise_cons.mp behind
  have below : ∀ u ∈ front, u ≤ x := fun u inside => (order u inside x List.mem_cons_self).le
  cases back with
  | nil =>
      refine .inr ⟨rest, fun u inside => ?_⟩
      rcases List.mem_append.mp inside with early | last
      · exact below u early
      · exact (List.mem_singleton.mp last).le
  | cons y back =>
      refine .inl ⟨y, by simp, rest.1, above y List.mem_cons_self, fun u inside => ?_⟩
      rcases List.mem_append.mp inside with early | late
      · exact .inl (below u early)
      · rcases List.mem_cons.mp late with rfl | late
        · exact .inl le_rfl
        · refine .inr ?_
          rcases List.mem_cons.mp late with rfl | late
          · exact le_rfl
          · exact ((List.pairwise_cons.mp sortedBack).1 u late).le

/-- The last node of a chain that ends at `none`, within as many steps as there are. -/
def end? (next : β → Option β) : Nat → β → Option β
  | 0, _ => none
  | fuel + 1, x =>
      match next x with
      | none => some x
      | some y => end? next fuel y

theorem end?_eq {fuel : Nat} (chain : Chain next (some b) (front ++ [x]) none)
    (short : front.length < fuel) : end? next fuel b = some x := by
  induction front generalizing b fuel with
  | nil =>
      obtain ⟨fuel, rfl⟩ := Nat.exists_eq_succ_of_ne_zero (Nat.ne_of_gt short)
      obtain ⟨same, link⟩ := chain
      cases same
      rw [end?, show next x = none from link]
  | cons y front ih =>
      obtain ⟨fuel, rfl⟩ := Nat.exists_eq_succ_of_ne_zero (Nat.ne_of_gt (Nat.zero_lt_of_lt short))
      obtain ⟨same, rest⟩ := chain
      cases same
      have more : next y ≠ none := by
        intro none
        rw [none] at rest
        cases front <;> exact nomatch rest.1
      obtain ⟨c, link⟩ := Option.ne_none_iff_exists'.mp more
      rw [link] at rest
      rw [end?, link]
      exact ih rest (Nat.lt_of_succ_lt_succ short)

variable [DecidableEq β]

/-- The last node is given another link. -/
theorem relink (chain : Chain next a (front ++ [x]) z) (apart : x ∉ front) (w : Option β) :
    Chain (Function.update next x w) a (front ++ [x]) w := by
  obtain ⟨middle, first, here, _⟩ := append.mp chain
  refine append.mpr ⟨middle, first.congr fun y member => ?_, here, Function.update_self ..⟩
  refine Function.update_of_ne ?_ ..
  rintro rfl
  exact apart member

/-- A node that is linked to behind the last one. -/
theorem snoc (chain : Chain next a (front ++ [x]) none) (nodup : (front ++ [x]).Nodup)
    (new : b ∉ front ++ [x]) (free : next b = none) :
    Chain (Function.update next x (some b)) a (front ++ [x] ++ [b]) none := by
  have apart : x ∉ front := fun member =>
    (List.nodup_append.mp nodup).2.2 x member x (List.mem_singleton_self x) rfl
  have other : b ≠ x := fun same => new (by simp [same])
  refine append.mpr ⟨some b, chain.relink apart (some b), rfl, ?_⟩
  change Function.update next x (some b) b = none
  rw [Function.update_of_ne other]
  exact free

end Chain

end SlabStudy.Library
