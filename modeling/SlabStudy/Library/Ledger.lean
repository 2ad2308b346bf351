import Mathlib.Algebra.BigOperators.Group.Finset.Basic
import Mathlib.Data.Fintype.BigOperators
import Mathlib.Algebra.Order.Group.Multiset

/-!
# Ledgers over indexed holders

Resources are counted as a sum over finitely many holders.  Changing what one
holder stores changes the sum by exactly the difference of the two holdings;
stated without subtraction, so that it applies to multisets of resources.
-/

namespace SlabStudy.Library

variable {ι α M : Type} [DecidableEq ι] [AddCommMonoid M]

/-- Replacing what one of the holders stores trades its old holding for the new one. -/
theorem sum_holding_update_of_mem (holders : Finset ι) (holding : ι → α → M) (store : ι → α)
    {i : ι} (counted : i ∈ holders) (value : α) :
    ∑ j ∈ holders, holding j (Function.update store i value j) + holding i (store i) =
      ∑ j ∈ holders, holding j (store j) + holding i value := by
  have split (amount : ι → M) :
      ∑ j ∈ holders, amount j = amount i + ∑ j ∈ holders.erase i, amount j :=
    (Finset.add_sum_erase _ _ counted).symm
  have others : ∑ j ∈ holders.erase i, holding j (Function.update store i value j) =
      ∑ j ∈ holders.erase i, holding j (store j) :=
    Finset.sum_congr rfl fun j member => by
      rw [Function.update_of_ne (Finset.ne_of_mem_erase member)]
  rw [split, split fun j => holding j (store j), others, Function.update_self]
  ac_rfl

variable [Fintype ι]

/-- The same when everyone is counted. -/
theorem sum_holding_update (holding : ι → α → M) (store : ι → α) (i : ι) (value : α) :
    ∑ j, holding j (Function.update store i value j) + holding i (store i) =
      ∑ j, holding j (store j) + holding i value :=
  sum_holding_update_of_mem Finset.univ holding store (Finset.mem_univ i) value

/-- A sum to which at most one holder contributes. -/
theorem sum_at_option (chosen : Option ι) (amount : ι → M) :
    (∑ j, if chosen = some j then amount j else 0) = chosen.elim 0 amount := by
  cases chosen with
  | none => simp
  | some i => simp [Finset.sum_ite_eq]

/-- A resource of which there is one copy has one holder. -/
theorem holder_unique {R : Type} {holding : ι → Multiset R} {total : Multiset R}
    (counted : ∑ i, holding i = total) (nodup : total.Nodup) {i j : ι} {resource : R}
    (left : resource ∈ holding i) (right : resource ∈ holding j) : i = j := by
  by_contra apart
  rw [← counted, ← Finset.add_sum_erase _ _ (Finset.mem_univ i), Multiset.nodup_add] at nodup
  refine Multiset.disjoint_left.mp nodup.2.2 left (Multiset.mem_sum.mpr ⟨j, ?_, right⟩)
  exact Finset.mem_erase.mpr ⟨Ne.symm apart, Finset.mem_univ j⟩

/-! ## Ledgers with tags -/

section Tags

variable {P : Type} {tags : Multiset (P × α)} {total : Multiset α}

/-- A resource of which there is one copy has one tag. -/
theorem existsUnique_tag (counted : tags.map Prod.snd = total) (nodup : total.Nodup) {a : α}
    (member : a ∈ total) : ∃! p, (p, a) ∈ tags := by
  subst counted
  obtain ⟨⟨p, b⟩, tagged, same⟩ := Multiset.mem_map.mp member
  cases same
  refine ⟨p, tagged, fun q other => ?_⟩
  exact congrArg Prod.fst (Multiset.inj_on_of_nodup_map nodup _ other _ tagged rfl)

theorem mem_of_tag (counted : tags.map Prod.snd = total) {p : P} {a : α}
    (tagged : (p, a) ∈ tags) : a ∈ total := by
  subst counted
  exact Multiset.mem_map_of_mem Prod.snd tagged

omit [Fintype ι] in
theorem map_snd_sum {κ : Type} (holders : Finset κ) (part : κ → Multiset (P × α)) :
    (∑ i ∈ holders, part i).map Prod.snd = ∑ i ∈ holders, (part i).map Prod.snd :=
  map_sum (Multiset.mapAddMonoidHom Prod.snd) part holders

end Tags

end SlabStudy.Library
