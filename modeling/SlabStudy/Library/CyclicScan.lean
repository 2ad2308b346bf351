import Mathlib.Data.Fin.Tuple.Basic
import Mathlib.Tactic.Common

/-!
# Cyclic first-match search

A table of `n` entries is searched from a cursor to its end and then from its
start to the cursor.  The result is the first match in cyclic order, measured
by the gap from the cursor.  Moving the cursor behind the match shortens the
gap to every other match, which bounds how often an entry can be passed over.
-/

namespace SlabStudy.Library

variable {n : Nat}

/-- Number of slots passed when walking cyclically from `cur` to `q`. -/
def gap (cur q : Fin n) : Nat :=
  if cur ≤ q then q.val - cur.val else q.val + n - cur.val

/-- The slot after `p`, with the first slot after the last one. -/
def nextSlot (p : Fin n) : Fin n :=
  if inside : p.val + 1 < n then ⟨p.val + 1, inside⟩ else ⟨0, p.pos⟩

/-- First match in `[cur, n)`, otherwise first match in `[0, cur)`. -/
def scanFrom (cur : Fin n) (wanted : Fin n → Bool) : Option (Fin n) :=
  match Fin.find? fun p => decide (cur ≤ p) && wanted p with
  | some p => some p
  | none => Fin.find? fun p => decide (p < cur) && wanted p

theorem gap_lt (cur q : Fin n) : gap cur q < n := by
  unfold gap
  have := q.isLt
  split <;> omega

theorem gap_injective {cur p q : Fin n} (same : gap cur p = gap cur q) : p = q := by
  unfold gap at same
  apply Fin.ext
  split at same <;> split at same <;> omega

/-- Every slot strictly before `q`, seen from `cur`, has a successor nearer to `q`. -/
theorem gap_nextSlot_lt {cur p q : Fin n} (before : gap cur p < gap cur q) :
    gap (nextSlot p) q < gap cur q := by
  unfold gap nextSlot at *
  simp only [Fin.le_def] at *
  split at before <;> split at before <;> split <;> split <;> simp_all <;> omega

theorem scanFrom_eq_none_iff {cur : Fin n} {wanted : Fin n → Bool} :
    scanFrom cur wanted = none ↔ ∀ q, wanted q = false := by
  unfold scanFrom
  constructor
  · intro missed q
    split at missed
    · cases missed
    · next high =>
        have above := Fin.find?_eq_none_iff.mp high q
        have below := Fin.find?_eq_none_iff.mp missed q
        rcases Nat.lt_or_ge q.val cur.val with lt | ge
        · simpa [Fin.lt_def, lt] using below
        · simpa [Fin.le_def, ge] using above
  · intro absent
    have high : Fin.find? (fun p => decide (cur ≤ p) && wanted p) = none :=
      Fin.find?_eq_none_iff.mpr fun p => by simp [absent p]
    rw [high]
    exact Fin.find?_eq_none_iff.mpr fun p => by simp [absent p]

/-- The result matches, and no match lies nearer to the cursor. -/
theorem scanFrom_eq_some {cur p : Fin n} {wanted : Fin n → Bool}
    (found : scanFrom cur wanted = some p) :
    wanted p = true ∧ ∀ q, wanted q = true → gap cur p ≤ gap cur q := by
  unfold scanFrom at found
  split at found
  · next first high =>
      cases found
      obtain ⟨holds, least⟩ := Fin.find?_eq_some_iff.mp high
      simp only [Bool.and_eq_true, decide_eq_true_eq] at holds
      refine ⟨holds.2, fun q matched => ?_⟩
      have notBefore : cur ≤ q → ¬ q < p := by
        intro above lt
        simpa [above, matched] using least q lt
      simp only [gap, Fin.le_def, Fin.lt_def] at *
      split <;> split <;> omega
  · next high =>
      obtain ⟨holds, least⟩ := Fin.find?_eq_some_iff.mp found
      simp only [Bool.and_eq_true, decide_eq_true_eq] at holds
      refine ⟨holds.2, fun q matched => ?_⟩
      have below : q < cur := by
        have missed := Fin.find?_eq_none_iff.mp high q
        simpa [matched] using missed
      have notBefore : ¬ q < p := by
        intro lt
        simpa [below, matched] using least q lt
      simp only [gap, Fin.le_def, Fin.lt_def] at *
      split <;> split <;> omega

/-- A match exists exactly when the search finds one. -/
theorem scanFrom_isSome_iff {cur : Fin n} {wanted : Fin n → Bool} :
    (∃ p, scanFrom cur wanted = some p) ↔ ∃ q, wanted q = true := by
  constructor
  · rintro ⟨p, found⟩
    exact ⟨p, (scanFrom_eq_some found).1⟩
  · rintro ⟨q, matched⟩
    cases found : scanFrom cur wanted with
    | none => simp [scanFrom_eq_none_iff.mp found q] at matched
    | some p => exact ⟨p, rfl⟩

/-- A search that stops at another slot leaves the cursor nearer to `q`. -/
theorem gap_nextSlot_lt_of_nearest {cur p q : Fin n} (nearest : gap cur p ≤ gap cur q)
    (other : p ≠ q) : gap (nextSlot p) q < gap cur q :=
  gap_nextSlot_lt (Nat.lt_of_le_of_ne nearest fun same => other (gap_injective same))

theorem val_nextSlot (p : Fin n) : (nextSlot p).val = (p.val + 1) % n := by
  unfold nextSlot
  split
  · next inside => exact (Nat.mod_eq_of_lt inside).symm
  · next last =>
      have whole : p.val + 1 = n := Nat.le_antisymm p.isLt (Nat.le_of_not_lt last)
      rw [whole, Nat.mod_self]

end SlabStudy.Library
