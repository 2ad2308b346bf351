import Mathlib.Logic.Function.Basic

/-!
# Who has a lock

The parties that use a lock are each at some place of their code, and the lock
records its owner.  The owner tracks a set of places if it is the only party
at one of them.
-/

namespace SlabStudy.Library

variable {P Place : Type}

/-- The owner is the party at one of these places, if there is one. -/
def Tracks (owner : Option P) (inside : Place → Prop) (place : P → Place) : Prop :=
  ∀ p, owner = some p ↔ inside (place p)

namespace Tracks

variable {owner : Option P} {inside : Place → Prop} {place : P → Place} {new : Place} {p q : P}

theorem unique (tracks : Tracks owner inside place) (first : inside (place p))
    (second : inside (place q)) : p = q :=
  Option.some.inj (((tracks p).mpr first).symm.trans ((tracks q).mpr second))

theorem outside (tracks : Tracks none inside place) (p : P) : ¬ inside (place p) :=
  fun here => nomatch (tracks p).mpr here

/-- A lock nobody has is as good as one whose owner is at none of the places. -/
theorem of_outside (outside : ∀ p, ¬ inside (place p)) : Tracks none inside place :=
  fun p => iff_of_false nofun (outside p)

variable [DecidableEq P]

/-- A party moves among the places, or among the others. -/
theorem stays (tracks : Tracks owner inside place) (same : inside new ↔ inside (place p)) :
    Tracks owner inside (Function.update place p new) := by
  intro q
  rw [Function.update_apply]
  split
  · next this => rw [same, this, tracks p]
  · exact tracks q

/-- A party takes the free lock. -/
theorem enters (tracks : Tracks none inside place) (here : inside new) :
    Tracks (some p) inside (Function.update place p new) := by
  intro q
  rw [Function.update_apply]
  split
  · next this => exact iff_of_true (congrArg some this.symm) here
  · next other =>
      exact iff_of_false (fun same => other (Option.some.inj same).symm) (tracks.outside q)

/-- The owner gives the lock up. -/
theorem leaves (tracks : Tracks owner inside place) (here : inside (place p))
    (gone : ¬ inside new) : Tracks none inside (Function.update place p new) := by
  apply of_outside
  intro q
  rw [Function.update_apply]
  split
  · exact gone
  · next other => exact fun there => other (tracks.unique there here)

end Tracks

end SlabStudy.Library
