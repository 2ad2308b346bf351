import Mathlib.Data.List.Basic

/-!
# Lists in which one place is written

A record file grows by writing the place behind its last record.  Writing at a
place trades the element there, if there is one, for the new element; counts
over the list change by exactly this trade, stated without subtraction.  A
range may be written piece by piece, each piece behind the one before.
-/

namespace SlabStudy.Library

variable {α β : Type} {k : Nat} {l : List α}

/-- The list with `x` at place `k`, which may be the one behind the last. -/
def writeAt (l : List α) (k : Nat) (x : α) : List α := l.take k ++ x :: l.drop (k + 1)

theorem countP_writeAt (p : α → Bool) (x : α) :
    (writeAt l k x).countP p + (l[k]?.elim 0 fun y => if p y then 1 else 0) =
      l.countP p + if p x then 1 else 0 := by
  by_cases inside : k < l.length
  · have whole : l = l.take k ++ l[k] :: l.drop (k + 1) := by simp
    have count : l.countP p = (l.take k).countP p + ((l.drop (k + 1)).countP p +
        if p l[k] then 1 else 0) := by
      conv_lhs => rw [whole]
      rw [List.countP_append, List.countP_cons]
    rw [count, writeAt, List.countP_append, List.countP_cons, List.getElem?_eq_getElem inside]
    simp only [Option.elim_some]
    omega
  · have behind : l.drop (k + 1) = [] := List.drop_eq_nil_of_le (by omega)
    have before : l.take k = l := List.take_of_length_le (by omega)
    have none : l[k]? = Option.none := List.getElem?_eq_none (by omega)
    rw [writeAt, behind, before, none, List.countP_append, List.countP_singleton]
    rfl

theorem map_writeAt (f : α → β) (x : α) : (writeAt l k x).map f = writeAt (l.map f) k (f x) := by
  simp [writeAt, List.map_take, List.map_drop]

/-- Writing behind the first places leaves them alone. -/
theorem drop_writeAt {n : Nat} (x : α) (late : n ≤ k) (inside : k ≤ l.length) :
    (writeAt l k x).drop n = writeAt (l.drop n) (k - n) x := by
  have long : n ≤ (l.take k).length := by
    rw [List.length_take]
    omega
  have rest : k + 1 = n + (k - n + 1) := by omega
  rw [writeAt, List.drop_append_of_le_length long, List.drop_take, writeAt, List.drop_drop, ← rest]

theorem getElem?_writeAt_before {n : Nat} (x : α) (early : n < k) (inside : k ≤ l.length) :
    (writeAt l k x)[n]? = l[n]? := by
  have long : n < (l.take k).length := by
    rw [List.length_take]
    omega
  rw [writeAt, List.getElem?_append_left long, List.getElem?_take_of_lt early]

theorem length_writeAt (x : α) (inside : k ≤ l.length) :
    (writeAt l k x).length = max l.length (k + 1) := by
  simp only [writeAt, List.length_append, List.length_take, List.length_cons, List.length_drop]
  omega

theorem mem_writeAt {x y : α} (member : y ∈ writeAt l k x) : y = x ∨ y ∈ l := by
  simp only [writeAt, List.mem_append, List.mem_cons] at member
  obtain before | same | behind := member
  · exact .inr (List.mem_of_mem_take before)
  · exact .inl same
  · exact .inr (List.mem_of_mem_drop behind)

/-- The list with `data` in place of what it has from place `k` on, extended if need be. -/
def splice (l : List α) (k : Nat) (data : List α) : List α :=
  l.take k ++ data ++ l.drop (k + data.length)

theorem splice_nil (l : List α) (k : Nat) : splice l k [] = l := by
  rw [splice, List.append_nil, List.length_nil, Nat.add_zero, List.take_append_drop]

theorem length_splice (data : List α) :
    (splice l k data).length = min k l.length + data.length + (l.length - (k + data.length)) := by
  rw [splice, List.length_append, List.length_append, List.length_take, List.length_drop]

/-- Two pieces in a row are one range. -/
theorem splice_splice (inside : k ≤ l.length) (first second : List α) :
    splice (splice l k first) (k + first.length) second = splice l k (first ++ second) := by
  have front : (l.take k ++ first).length = k + first.length := by
    rw [List.length_append, List.length_take, Nat.min_eq_left inside]
  unfold splice
  rw [List.take_left' front, List.drop_append, front, Nat.add_sub_cancel_left, List.drop_drop,
    List.drop_eq_nil_of_le (by omega), List.nil_append, List.length_append, ← Nat.add_assoc,
    List.append_assoc (l.take k)]

end SlabStudy.Library
