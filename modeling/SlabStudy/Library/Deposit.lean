import Mathlib.Data.List.Basic

/-!
# Ranges written through a translation

Virtual addresses are translated to places, some to none and several perhaps
to one.  Data deposited at an address goes to the places of consecutive
addresses; where two of them are one place, the later value stays.
-/

namespace SlabStudy.Library

variable {α β : Type} {place : Nat → Option α} {start : Nat} {front back : List β}
  {m m₁ m' : α → β}

/-- The data is at the places of the addresses from `start` on, and nothing else has changed. -/
structure Deposited (place : Nat → Option α) (start : Nat) (data : List β) (m m' : α → β) :
    Prop where
  written : ∀ i x, data[i]? = some x → ∀ p, place (start + i) = some p →
    (∀ j, i < j → j < data.length → place (start + j) ≠ some p) → m' p = x
  kept : ∀ p, (∀ i, i < data.length → place (start + i) ≠ some p) → m' p = m p

namespace Deposited

theorem nil (place : Nat → Option α) (start : Nat) (m : α → β) :
    Deposited place start [] m m where
  written i x found := by cases found
  kept _ _ := rfl

/-- Data is deposited piece by piece. -/
theorem append (first : Deposited place start front m m₁)
    (second : Deposited place (start + front.length) back m₁ m') :
    Deposited place start (front ++ back) m m' where
  written := by
    intro i x found p here last
    rw [List.length_append] at last
    by_cases early : i < front.length
    · rw [List.getElem?_append_left early] at found
      rw [second.kept p fun k inside => ?_]
      · refine first.written i x found p here fun j later inside => last j later ?_
        exact Nat.lt_of_lt_of_le inside (Nat.le_add_right _ _)
      · rw [Nat.add_assoc]
        exact last _ (by omega) (by omega)
    · rw [List.getElem?_append_right (Nat.le_of_not_lt early)] at found
      have inside : start + front.length + (i - front.length) = start + i := by omega
      refine second.written _ x found p (by rw [inside]; exact here) fun j later bound => ?_
      rw [Nat.add_assoc]
      exact last _ (by omega) (by omega)
  kept := by
    intro p apart
    rw [List.length_append] at apart
    rw [second.kept p fun k inside => ?_, first.kept p fun k inside => ?_]
    · exact apart k (by omega)
    · rw [Nat.add_assoc]
      exact apart _ (by omega)

/-- Where every address has a place of its own, each place holds its value. -/
theorem value (deposited : Deposited place start front m m')
    (apart : ∀ a b p, place a = some p → place b = some p → a = b) {i : Nat} {x : β}
    (found : front[i]? = some x) {p : α} (here : place (start + i) = some p) : m' p = x := by
  refine deposited.written i x found p here fun j later _ same => ?_
  have equal := apart _ _ p here same
  omega

end Deposited

end SlabStudy.Library
