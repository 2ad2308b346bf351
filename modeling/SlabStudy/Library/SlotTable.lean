import Mathlib.Data.List.Basic
import Mathlib.Logic.Function.Basic

/-!
# Finite maps in slots

A table of slots, each empty or with a key and a value.  A scan finds the first
slot with a key.  As long as no key is in two slots the table is a finite map,
to which an entry is added in any empty slot, and from which one is removed by
emptying its slot.
-/

namespace SlabStudy.Library

/-- The slots below `size`. -/
structure SlotTable (K V : Type) where
  slot : Nat → Option (K × V)
  size : Nat

namespace SlotTable

variable {K V : Type} {t : SlotTable K V} {i j : Nat} {k k' : K} {v w : V}

/-- No key is in two slots. -/
def Distinct (t : SlotTable K V) : Prop :=
  ∀ i j k v w, i < t.size → j < t.size → t.slot i = some (k, v) → t.slot j = some (k, w) → i = j

/-- The entry goes into slot `i`, which may be the one behind the last. -/
def put (t : SlotTable K V) (i : Nat) (k : K) (v : V) : SlotTable K V :=
  ⟨Function.update t.slot i (some (k, v)), max t.size (i + 1)⟩

def clear (t : SlotTable K V) (i : Nat) : SlotTable K V := ⟨Function.update t.slot i none, t.size⟩

/-- The slot is empty, or the one behind the last. -/
def Vacant (t : SlotTable K V) (i : Nat) : Prop := i = t.size ∨ i < t.size ∧ t.slot i = none

theorem Vacant.empty (vacant : t.Vacant i) (inside : i < t.size) : t.slot i = none := by
  rcases vacant with last | ⟨_, empty⟩
  · omega
  · exact empty

theorem Vacant.le (vacant : t.Vacant i) : i ≤ t.size := by
  rcases vacant with last | ⟨inside, _⟩
  · exact Nat.le_of_eq last
  · exact Nat.le_of_lt inside

theorem put_slot_self : (t.put i k v).slot i = some (k, v) := Function.update_self ..

theorem put_slot_other (other : j ≠ i) : (t.put i k v).slot j = t.slot j :=
  Function.update_of_ne other ..

theorem clear_slot_self : (t.clear i).slot i = none := Function.update_self ..

theorem clear_slot_other (other : j ≠ i) : (t.clear i).slot j = t.slot j :=
  Function.update_of_ne other ..

/-- What is in the slots behind one that was vacant. -/
theorem put_inside (vacant : t.Vacant i) (other : j ≠ i) (inside : j < (t.put i k v).size) :
    j < t.size := by
  have order := vacant.le
  change j < max t.size (i + 1) at inside
  omega

theorem Distinct.clear (distinct : t.Distinct) (i : Nat) : (t.clear i).Distinct := by
  intro a b c x y insideA insideB entryA entryB
  by_cases left : a = i
  · rw [left, clear_slot_self] at entryA
    cases entryA
  · by_cases right : b = i
    · rw [right, clear_slot_self] at entryB
      cases entryB
    · rw [clear_slot_other left] at entryA
      rw [clear_slot_other right] at entryB
      exact distinct a b c x y insideA insideB entryA entryB

variable [DecidableEq K]

/-- The entry of a slot, if it is one for the key. -/
def hit (t : SlotTable K V) (k : K) (i : Nat) : Option (Nat × V) :=
  match t.slot i with
  | some (k', v) => if k' = k then some (i, v) else none
  | none => none

/-- The first slot with the key, and its value. -/
def lookup (t : SlotTable K V) (k : K) : Option (Nat × V) := (List.range t.size).findSome? (t.hit k)

theorem hit_iff : t.hit k i = some (j, v) ↔ j = i ∧ t.slot i = some (k, v) := by
  unfold hit
  constructor
  · intro found
    split at found
    · next k' v' entry =>
        split at found
        · next same =>
            cases found
            exact ⟨rfl, same ▸ entry⟩
        · cases found
    · cases found
  · rintro ⟨rfl, entry⟩
    rw [entry]
    exact if_pos rfl

theorem lookup_eq_none : t.lookup k = none ↔ ∀ i < t.size, ∀ v, t.slot i ≠ some (k, v) := by
  unfold lookup
  rw [List.findSome?_eq_none_iff]
  constructor
  · intro none i inside v entry
    have found : t.hit k i = some (i, v) := hit_iff.mpr ⟨rfl, entry⟩
    rw [none i (List.mem_range.mpr inside)] at found
    cases found
  · intro absent i member
    cases found : t.hit k i with
    | none => rfl
    | some r =>
        obtain ⟨rfl, entry⟩ := hit_iff.mp found
        exact absurd entry (absent _ (List.mem_range.mp member) _)

/-- What a scan finds is there. -/
theorem lookup_some (found : t.lookup k = some (i, v)) : i < t.size ∧ t.slot i = some (k, v) := by
  obtain ⟨j, member, hit⟩ := List.exists_of_findSome?_eq_some found
  obtain ⟨rfl, entry⟩ := hit_iff.mp hit
  exact ⟨List.mem_range.mp member, entry⟩

/-- What is there is found, since it is there once. -/
theorem lookup_iff (distinct : t.Distinct) :
    t.lookup k = some (i, v) ↔ i < t.size ∧ t.slot i = some (k, v) := by
  refine ⟨lookup_some, ?_⟩
  rintro ⟨inside, entry⟩
  cases found : t.lookup k with
  | none => exact absurd entry (lookup_eq_none.mp found i inside v)
  | some r =>
      obtain ⟨inside', entry'⟩ := lookup_some (v := r.2) (i := r.1) found
      have same := distinct r.1 i k r.2 v inside' inside entry' entry
      rw [same, entry] at entry'
      cases entry'
      rw [← same]

/-! ## Adding and removing entries -/

theorem Distinct.put (distinct : t.Distinct) (vacant : t.Vacant i) (absent : t.lookup k = none) :
    (t.put i k v).Distinct := by
  intro a b c x y insideA insideB entryA entryB
  by_contra apart
  have absent := lookup_eq_none.mp absent
  by_cases left : a = i
  · have right : b ≠ i := fun same => apart (left.trans same.symm)
    rw [left, put_slot_self] at entryA
    cases entryA
    rw [put_slot_other right] at entryB
    exact absent b (put_inside vacant right insideB) y entryB
  · rw [put_slot_other left] at entryA
    by_cases right : b = i
    · rw [right, put_slot_self] at entryB
      cases entryB
      exact absent a (put_inside vacant left insideA) x entryA
    · rw [put_slot_other right] at entryB
      exact apart (distinct a b c x y (put_inside vacant left insideA)
        (put_inside vacant right insideB) entryA entryB)

theorem lookup_put_self (distinct : t.Distinct) (vacant : t.Vacant i) (absent : t.lookup k = none) :
    (t.put i k v).lookup k = some (i, v) :=
  (lookup_iff (distinct.put vacant absent)).mpr ⟨Nat.lt_of_lt_of_le (Nat.lt_succ_self i)
    (Nat.le_max_right ..), put_slot_self⟩

theorem lookup_put_other (distinct : t.Distinct) (vacant : t.Vacant i) (absent : t.lookup k = none)
    (other : k' ≠ k) : (t.put i k v).lookup k' = t.lookup k' := by
  refine Option.ext fun ⟨j, w⟩ => ?_
  rw [lookup_iff (distinct.put vacant absent), lookup_iff distinct]
  by_cases self : j = i
  · subst self
    rw [put_slot_self]
    refine iff_of_false ?_ ?_
    · rintro ⟨_, same⟩
      cases same
      exact other rfl
    · rintro ⟨inside, entry⟩
      rw [vacant.empty inside] at entry
      cases entry
  · rw [put_slot_other self]
    exact and_congr_left fun _ => ⟨put_inside vacant self, fun inside =>
      Nat.lt_of_lt_of_le inside (Nat.le_max_left ..)⟩

theorem lookup_clear_self (distinct : t.Distinct) (found : t.lookup k = some (i, v)) :
    (t.clear i).lookup k = none := by
  obtain ⟨inside, entry⟩ := lookup_some found
  refine lookup_eq_none.mpr fun j inside' w entry' => ?_
  by_cases self : j = i
  · rw [self, clear_slot_self] at entry'
    cases entry'
  · rw [clear_slot_other self] at entry'
    exact self (distinct j i k w v inside' inside entry' entry)

theorem lookup_clear_other (distinct : t.Distinct) (found : t.lookup k = some (i, v))
    (other : k' ≠ k) : (t.clear i).lookup k' = t.lookup k' := by
  obtain ⟨_, entry⟩ := lookup_some found
  refine Option.ext fun ⟨j, w⟩ => ?_
  rw [lookup_iff (distinct.clear i), lookup_iff distinct]
  refine and_congr_right fun _ => ?_
  by_cases self : j = i
  · rw [self, clear_slot_self, entry]
    refine iff_of_false nofun fun same => ?_
    cases same
    exact other rfl
  · rw [clear_slot_other self]

end SlotTable

end SlabStudy.Library
