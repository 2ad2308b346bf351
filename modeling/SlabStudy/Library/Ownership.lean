import Mathlib.Logic.Basic
import Mathlib.Logic.Function.Basic
import Mathlib.Data.List.Nodup

/-!
# Units owned by places

Units are numbers below `size`, of which the first `reserved` belong to
nobody.  Places hold units, with `0` for none, and a map of marks says which
units are in use.  The marks are exact when every marked unit is reserved or
held, and no unit is held by two places.
-/

namespace SlabStudy.Library

variable {ι : Type} [DecidableEq ι]

/-- The marks are exactly the reserved units and the units that some place holds. -/
structure Owns (reserved size : Nat) (used : Nat → Bool) (ref : ι → Nat) : Prop where
  range : ∀ i, ref i ≠ 0 → reserved ≤ ref i ∧ ref i < size
  once : ∀ i j, ref i ≠ 0 → ref i = ref j → i = j
  marked : ∀ b, b < size → (used b = true ↔ b < reserved ∨ b ≠ 0 ∧ ∃ i, ref i = b)

namespace Owns

variable {reserved size b : Nat} {used : Nat → Bool} {ref : ι → Nat} {i : ι}

omit [DecidableEq ι] in
/-- A unit that is held is marked. -/
theorem used_of_ref (owns : Owns reserved size used ref) (held : ref i ≠ 0) :
    used (ref i) = true :=
  (owns.marked _ (owns.range i held).2).mpr (.inr ⟨held, i, rfl⟩)

omit [DecidableEq ι] in
/-- A unit without a mark is neither reserved nor held. -/
theorem fresh (owns : Owns reserved size used ref) (inside : b < size) (free : used b = false) :
    reserved ≤ b ∧ ∀ i, ref i ≠ 0 → ref i ≠ b := by
  have unmarked : ¬ used b = true := by simp [free]
  constructor
  · by_contra below
    exact unmarked ((owns.marked b inside).mpr (.inl (by omega)))
  · rintro i held rfl
    exact unmarked (owns.used_of_ref held)

/-- An empty place takes an unmarked unit. -/
theorem claim (owns : Owns reserved size used ref) (inside : b < size) (free : used b = false)
    (positive : 0 < reserved) (empty : ref i = 0) :
    Owns reserved size (Function.update used b true) (Function.update ref i b) := by
  obtain ⟨above, other⟩ := owns.fresh inside free
  have some : b ≠ 0 := by omega
  refine ⟨fun j held => ?_, fun j k held same => ?_, fun c small => ?_⟩
  · by_cases self : j = i
    · subst self
      simpa using ⟨above, inside⟩
    · simp only [Function.update_of_ne self] at held ⊢
      exact owns.range j held
  · by_cases left : j = i
    · by_cases right : k = i
      · rw [left, right]
      · subst left
        simp only [Function.update_self, Function.update_of_ne right] at same
        exact absurd same.symm (other k (by omega))
    · simp only [Function.update_of_ne left] at held same
      by_cases right : k = i
      · subst right
        simp only [Function.update_self] at same
        exact absurd same (other j held)
      · simp only [Function.update_of_ne right] at same
        exact owns.once j k held same
  · by_cases here : c = b
    · subst here
      simp only [Function.update_self, true_iff]
      exact .inr ⟨some, i, Function.update_self _ _ _⟩
    · rw [Function.update_of_ne here, owns.marked c small]
      refine or_congr_right (and_congr_right fun positive => ⟨?_, ?_⟩)
      · rintro ⟨j, rfl⟩
        refine ⟨j, Function.update_of_ne ?_ _ _⟩
        rintro rfl
        exact positive empty
      · rintro ⟨j, same⟩
        by_cases self : j = i
        · subst self
          simp only [Function.update_self] at same
          exact absurd same.symm here
        · exact ⟨j, by simpa [Function.update_of_ne self] using same⟩

/-- A place gives its unit back. -/
theorem release (owns : Owns reserved size used ref) (held : ref i ≠ 0) :
    Owns reserved size (Function.update used (ref i) false) (Function.update ref i 0) := by
  refine ⟨fun j there => ?_, fun j k there same => ?_, fun c small => ?_⟩
  · by_cases self : j = i
    · subst self
      simp at there
    · simp only [Function.update_of_ne self] at there ⊢
      exact owns.range j there
  · by_cases left : j = i
    · subst left
      simp at there
    · simp only [Function.update_of_ne left] at there same
      by_cases right : k = i
      · subst right
        simp only [Function.update_self] at same
        exact absurd same there
      · simp only [Function.update_of_ne right] at same
        exact owns.once j k there same
  · by_cases here : c = ref i
    · subst here
      simp only [Function.update_self, Bool.false_eq_true, false_iff, not_or, not_and, not_exists]
      refine ⟨by have := (owns.range i held).1; omega, fun _ j same => ?_⟩
      by_cases self : j = i
      · subst self
        simp only [Function.update_self] at same
        exact held same.symm
      · simp only [Function.update_of_ne self] at same
        exact self (owns.once j i (by omega) same)
    · rw [Function.update_of_ne here, owns.marked c small]
      refine or_congr_right (and_congr_right fun positive => ⟨?_, ?_⟩)
      · rintro ⟨j, rfl⟩
        refine ⟨j, Function.update_of_ne ?_ _ _⟩
        rintro rfl
        exact here rfl
      · rintro ⟨j, same⟩
        by_cases self : j = i
        · subst self
          simp only [Function.update_self] at same
          exact absurd same.symm positive
        · exact ⟨j, by simpa [Function.update_of_ne self] using same⟩

end Owns

end SlabStudy.Library
