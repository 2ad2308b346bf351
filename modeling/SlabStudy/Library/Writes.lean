import Mathlib.Data.List.Nodup
import Mathlib.Logic.Function.Basic

/-!
# Sequences of writes

A store maps addresses to values, and a list of writes is applied to it in
order.  The lemmas say what an address holds afterwards, and that writing a
list once more, after any prefix of it, gives the same store.
-/

namespace SlabStudy.Library

variable {α β : Type} [DecidableEq α]

/-- Apply writes in order. -/
def applyWrites (writes : List (α × β)) (store : α → β) : α → β :=
  writes.foldl (fun store write => Function.update store write.1 write.2) store

@[simp] theorem applyWrites_nil (store : α → β) : applyWrites [] store = store := rfl

@[simp] theorem applyWrites_cons (write : α × β) (writes : List (α × β)) (store : α → β) :
    applyWrites (write :: writes) store =
      applyWrites writes (Function.update store write.1 write.2) := rfl

/-- An address that no write names keeps its value. -/
theorem applyWrites_other {writes : List (α × β)} {a : α} (store : α → β)
    (apart : ∀ write ∈ writes, write.1 ≠ a) : applyWrites writes store a = store a := by
  induction writes generalizing store with
  | nil => rfl
  | cons write writes ih =>
      rw [applyWrites_cons, ih _ fun later member => apart later (List.mem_cons_of_mem _ member)]
      exact Function.update_of_ne (Ne.symm (apart write List.mem_cons_self)) _ _

theorem applyWrites_append (first second : List (α × β)) (store : α → β) :
    applyWrites (first ++ second) store = applyWrites second (applyWrites first store) :=
  List.foldl_append

/-- What an address holds afterwards depends on no other address. -/
theorem applyWrites_congr (writes : List (α × β)) {a : α} {store other : α → β}
    (agree : store a = other a) : applyWrites writes store a = applyWrites writes other a := by
  induction writes generalizing store other with
  | nil => exact agree
  | cons write writes ih =>
      rw [applyWrites_cons, applyWrites_cons]
      refine ih ?_
      by_cases same : a = write.1
      · rw [same, Function.update_self, Function.update_self]
      · rw [Function.update_of_ne same, Function.update_of_ne same, agree]

/-- The last write is there. -/
theorem applyWrites_snoc (writes : List (α × β)) (a : α) (value : β) (store : α → β) :
    applyWrites (writes ++ [(a, value)]) store = Function.update (applyWrites writes store) a value :=
  applyWrites_append _ _ _

/-- With distinct addresses each address holds what was written to it. -/
theorem applyWrites_mem {writes : List (α × β)} {a : α} {value : β} (store : α → β)
    (nodup : (writes.map Prod.fst).Nodup) (member : (a, value) ∈ writes) :
    applyWrites writes store a = value := by
  induction writes generalizing store with
  | nil => cases member
  | cons write writes ih =>
      rw [List.map_cons, List.nodup_cons] at nodup
      rcases List.mem_cons.mp member with rfl | later
      · rw [applyWrites_cons, applyWrites_other]
        · exact Function.update_self _ _ _
        · intro write member same
          exact nodup.1 (List.mem_map.mpr ⟨write, member, same⟩)
      · exact ih _ nodup.2 later

/-- The prefixes of two lists in a row. -/
theorem prefix_append_cases {γ : Type} {part first second : List γ}
    (cut : part <+: first ++ second) :
    part <+: first ∨ ∃ rest, part = first ++ rest ∧ rest <+: second := by
  induction first generalizing part with
  | nil => exact .inr ⟨part, rfl, cut⟩
  | cons x first ih =>
      rcases List.prefix_cons_iff.mp cut with rfl | ⟨tail, rfl, shorter⟩
      · exact .inl List.nil_prefix
      · rcases ih shorter with inside | ⟨rest, rfl, later⟩
        · exact .inl (List.cons_prefix_cons.mpr ⟨rfl, inside⟩)
        · exact .inr ⟨rest, rfl, later⟩

end SlabStudy.Library
