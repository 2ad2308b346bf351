import Mathlib.Algebra.Ring.Nat
import Mathlib.Data.Fin.Basic
import Mathlib.Data.List.Basic
import Mathlib.Logic.Function.Basic
import Mathlib.Tactic.Common

/-!
# Ring buffers with free-running counters

A ring of `c` cells is addressed by two counters that are never reset: they
wrap at a modulus `m`, and a cell is chosen by the counter modulo `c`.  When
`c` divides `m` and is smaller, the wrapped counters still tell a full ring
from an empty one, and the ring is a queue of at most `c` values.
-/

namespace SlabStudy.Library

/-- The cells, the counter of values taken and the counter of values put. -/
structure Ring (c : Nat) (α : Type) where
  cell : Fin c → α
  head : Nat
  tail : Nat

namespace Ring

variable {c : Nat} {α : Type} [NeZero c] (m : Nat)

/-- Number of values in the ring, as the counters have it. -/
def count (r : Ring c α) : Nat := (r.tail + m - r.head) % m

/-- The values in the ring, oldest first. -/
def contents (r : Ring c α) : List α :=
  (List.range (r.count m)).map fun k => r.cell (Fin.ofNat c ((r.head + k) % m))

def put (r : Ring c α) (x : α) : Ring c α :=
  { r with cell := Function.update r.cell (Fin.ofNat c r.tail) x, tail := (r.tail + 1) % m }

/-- The value that has been in the ring for the longest time. -/
def front (r : Ring c α) : α := r.cell (Fin.ofNat c r.head)

def drop (r : Ring c α) : Ring c α := { r with head := (r.head + 1) % m }

/-- The ring after `stored` has been put into it and `taken` values have left it. -/
structure Holds (r : Ring c α) (stored : List α) (taken : Nat) : Prop where
  head : r.head = taken % m
  tail : r.tail = stored.length % m
  order : taken ≤ stored.length
  room : stored.length ≤ taken + c
  cells : ∀ k (inside : k < stored.length), taken ≤ k → r.cell (Fin.ofNat c k) = stored[k]

variable {m} {r : Ring c α} {stored : List α} {taken : Nat}

/-- Wrapped counters that differ by less than the modulus are equal when they agree. -/
theorem eq_of_mod_eq {a b : Nat} (same : a % m = b % m) (below : a ≤ b) (near : b < a + m) :
    a = b := by
  have gap : (b - a) % m = 0 := Nat.sub_mod_eq_zero_of_mod_eq same.symm
  rw [Nat.mod_eq_of_lt (by omega)] at gap
  omega

/-- Two counters that select the same cell and are less than a round apart are equal. -/
theorem ofNat_inj {a b : Nat} (same : Fin.ofNat c a = Fin.ofNat c b) (below : a ≤ b)
    (near : b < a + c) : a = b :=
  eq_of_mod_eq (congrArg Fin.val same) below near

theorem ofNat_mod (whole : c ∣ m) (k : Nat) : Fin.ofNat c (k % m) = Fin.ofNat c k :=
  Fin.ext (Nat.mod_mod_of_dvd k whole)

namespace Holds

/-- A new ring is empty, whatever its cells hold. -/
theorem empty {r : Ring c α} (head : r.head = 0) (tail : r.tail = 0) : Holds m r [] 0 where
  head := by rw [head, Nat.zero_mod]
  tail := by rw [tail, List.length_nil, Nat.zero_mod]
  order := Nat.le_refl _
  room := Nat.zero_le _
  cells _ inside _ := absurd inside (Nat.not_lt_zero _)

theorem full_iff (holds : Holds m r stored taken) (small : c < m) :
    r.tail = (r.head + c) % m ↔ stored.length = taken + c := by
  rw [holds.tail, holds.head, Nat.mod_add_mod]
  constructor
  · intro same
    have room := holds.room
    have order := holds.order
    exact eq_of_mod_eq same room (by omega)
  · intro same
    rw [same]

theorem empty_iff (holds : Holds m r stored taken) (small : c < m) :
    r.head = r.tail ↔ stored.length = taken := by
  rw [holds.tail, holds.head]
  constructor
  · intro same
    have room := holds.room
    exact (eq_of_mod_eq same holds.order (by omega)).symm
  · intro same
    rw [same]

/-- The difference of the wrapped counters is the number of values in the ring. -/
theorem count_eq (holds : Holds m r stored taken) (small : c < m) :
    r.count m = stored.length - taken := by
  have room := holds.room
  have order := holds.order
  have positive : 0 < m := by omega
  have head := Nat.mod_lt taken positive
  have split := Nat.mod_add_div taken m
  rw [count, holds.tail, holds.head]
  have sum : (stored.length % m + m - taken % m) % m =
      (stored.length + (m - taken % m)) % m := by
    rw [Nat.add_sub_assoc (Nat.le_of_lt head), Nat.mod_add_mod]
  rw [sum]
  have whole : stored.length + (m - taken % m) =
      (stored.length - taken) + m * (taken / m + 1) := by
    rw [Nat.mul_add, Nat.mul_one]
    omega
  rw [whole, Nat.add_mul_mod_self_left, Nat.mod_eq_of_lt (by omega)]

/-- What has been put and not yet taken is in the ring, in order. -/
theorem contents_eq (holds : Holds m r stored taken) (small : c < m) (whole : c ∣ m) :
    r.contents m = stored.drop taken := by
  apply List.ext_getElem
  · rw [contents, List.length_map, List.length_range, holds.count_eq small, List.length_drop]
  · intro k left right
    rw [List.length_drop] at right
    have cell := holds.cells (taken + k) (by omega) (Nat.le_add_right _ _)
    simp only [contents, List.getElem_map, List.getElem_range, List.getElem_drop]
    rw [← cell, holds.head, Nat.mod_add_mod, ofNat_mod whole]

/-- Putting a value into a ring with room appends it. -/
theorem put (holds : Holds m r stored taken) (small : c < m) (whole : c ∣ m)
    (room : r.tail ≠ (r.head + c) % m) (x : α) :
    Holds m (r.put m x) (stored ++ [x]) taken := by
  have most := holds.room
  have least := holds.order
  have less : stored.length ≠ taken + c := mt (holds.full_iff small).mpr room
  refine ⟨holds.head, ?_, ?_, ?_, fun k inside later => ?_⟩
  · rw [Ring.put, holds.tail, Nat.mod_add_mod, List.length_append, List.length_singleton]
  · rw [List.length_append, List.length_singleton]
    omega
  · rw [List.length_append, List.length_singleton]
    omega
  · rw [List.length_append, List.length_singleton] at inside
    have last : Fin.ofNat c r.tail = Fin.ofNat c stored.length := by
      rw [holds.tail, ofNat_mod whole]
    change Function.update r.cell (Fin.ofNat c r.tail) x (Fin.ofNat c k) = _
    rw [last]
    by_cases new : k = stored.length
    · subst new
      rw [Function.update_self, List.getElem_concat_length rfl]
    · have old : k < stored.length := by omega
      have apart : Fin.ofNat c k ≠ Fin.ofNat c stored.length := fun same =>
        new (ofNat_inj same (Nat.le_of_lt old) (by omega))
      rw [Function.update_of_ne apart, List.getElem_append_left old]
      exact holds.cells k old later

/-- The front of a ring that is not empty is the oldest value, and dropping it takes it. -/
theorem drop (holds : Holds m r stored taken) (small : c < m) (whole : c ∣ m)
    (some : r.head ≠ r.tail) :
    stored[taken]? = Option.some r.front ∧ Holds m (r.drop m) stored (taken + 1) := by
  have most := holds.room
  have least := holds.order
  have more : stored.length ≠ taken := mt (holds.empty_iff small).mpr some
  have inside : taken < stored.length := by omega
  constructor
  · rw [front, holds.head, ofNat_mod whole, holds.cells taken inside (Nat.le_refl _)]
    exact List.getElem?_eq_getElem inside
  · refine ⟨?_, holds.tail, by omega, by omega, fun k small later => ?_⟩
    · rw [Ring.drop, holds.head, Nat.mod_add_mod]
    · exact holds.cells k small (by omega)

/-- Counters between the two of a ring select a part of what it holds. -/
theorem window (holds : Holds m r stored taken) {a b : Nat} (first : taken ≤ a) (order : a ≤ b)
    (last : b ≤ stored.length) : Holds m ⟨r.cell, a % m, b % m⟩ (stored.take b) a := by
  have room := holds.room
  have length : (stored.take b).length = b := List.length_take_of_le last
  refine ⟨rfl, by rw [length], by rw [length]; exact order, by rw [length]; omega,
    fun k inside later => ?_⟩
  rw [List.getElem_take]
  exact holds.cells k (by omega) (Nat.le_trans first later)

end Holds

end Ring

end SlabStudy.Library
