/-!
# Scripts that fork

Straight-line code whose processes split in two.  A script meets an assertion
when it holds in front of every action, of its own and of those it starts,
whatever the actions before have done.
-/

namespace SlabStudy.Library

/-- Actions and forks one after the other; a fork has a tag and the code of the child. -/
inductive Script (A F : Type) where
  | stop
  | act (a : A) (next : Script A F)
  | fork (tag : F) (child next : Script A F)

namespace Script

variable {A F L : Type}

/-- What the actions and the forks of a script do to the state of their process. -/
structure Effects (A F L : Type) where
  does : A → L → L → Prop
  stays : F → L → L → Prop
  starts : F → L → L → Prop

section

variable (effects : Effects A F L) (guard : A → L → Prop)

/-- `guard` holds in front of every action. -/
def Meets : Script A F → L → Prop
  | .stop, _ => True
  | .act a next, l => guard a l ∧ ∀ l', effects.does a l l' → next.Meets l'
  | .fork tag child next, l =>
    (∀ l', effects.starts tag l l' → child.Meets l') ∧ ∀ l', effects.stays tag l l' → next.Meets l'

end

variable {effects : Effects A F L} {guard : A → L → Prop} {a : A} {tag : F}
  {child next : Script A F} {l l' : L}

theorem Meets.here (meets : (act a next).Meets effects guard l) : guard a l := meets.1

theorem Meets.of_act (meets : (act a next).Meets effects guard l) (does : effects.does a l l') :
    next.Meets effects guard l' := meets.2 l' does

theorem Meets.of_starts (meets : (fork tag child next).Meets effects guard l)
    (starts : effects.starts tag l l') : child.Meets effects guard l' := meets.1 l' starts

theorem Meets.of_stays (meets : (fork tag child next).Meets effects guard l)
    (stays : effects.stays tag l l') : next.Meets effects guard l' := meets.2 l' stays

end Script

end SlabStudy.Library
