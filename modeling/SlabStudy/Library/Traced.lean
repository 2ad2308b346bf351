import Mathlib.Data.Finset.Card

/-!
# Traced computations

A computation that may stop, together with what it reported before it returned
or stopped.
-/

namespace SlabStudy.Library

/-- What a computation reported, and how it ended. -/
@[ext]
structure Traced (ε ι α : Type) where
  trace : List ι
  result : Except ε α

namespace Traced

variable {ε ι α β : Type}

instance : Monad (Traced ε ι) where
  pure a := ⟨[], .ok a⟩
  bind m f := match m.result with
    | .ok a => ⟨m.trace ++ (f a).trace, (f a).result⟩
    | .error e => ⟨m.trace, .error e⟩

def report (i : ι) : Traced ε ι Unit := ⟨[i], .ok ()⟩

/-- A computation that reports nothing. -/
def quiet (r : Except ε α) : Traced ε ι α := ⟨[], r⟩

@[simp] theorem pure_result (a : α) : (pure a : Traced ε ι α).result = .ok a := rfl

@[simp] theorem pure_trace (a : α) : (pure a : Traced ε ι α).trace = [] := rfl

@[simp] theorem report_result (i : ι) : (report i : Traced ε ι Unit).result = .ok () := rfl

@[simp] theorem report_trace (i : ι) : (report i : Traced ε ι Unit).trace = [i] := rfl

@[simp] theorem quiet_result (r : Except ε α) : (quiet r : Traced ε ι α).result = r := rfl

@[simp] theorem quiet_trace (r : Except ε α) : (quiet r : Traced ε ι α).trace = [] := rfl

@[simp] theorem bind_result (m : Traced ε ι α) (f : α → Traced ε ι β) :
    (m >>= f).result = m.result >>= fun a => (f a).result := by
  change (match m.result with | .ok a => _ | .error e => _ : Traced ε ι β).result = _
  cases m.result <;> rfl

theorem pure_bind (a : α) (f : α → Traced ε ι β) : (pure a >>= f) = f a := rfl

theorem bind_ok {m : Traced ε ι α} {a : α} (returns : m.result = .ok a) (f : α → Traced ε ι β) :
    (m >>= f).trace = m.trace ++ (f a).trace := by
  change (match m.result with | .ok a => _ | .error e => _ : Traced ε ι β).trace = _
  rw [returns]

theorem bind_error {m : Traced ε ι α} {e : ε} (stops : m.result = .error e)
    (f : α → Traced ε ι β) : (m >>= f).trace = m.trace := by
  change (match m.result with | .ok a => _ | .error e => _ : Traced ε ι β).trace = _
  rw [stops]

theorem bind_assoc {γ : Type} (m : Traced ε ι α) (f : α → Traced ε ι β) (g : β → Traced ε ι γ) :
    ((m >>= f) >>= g) = (m >>= fun a => f a >>= g) := by
  cases ended : m.result with
  | error e =>
      have stops : (m >>= f).result = .error e := by
        rw [bind_result, ended]
        rfl
      refine Traced.ext ?_ ?_
      · rw [bind_error stops, bind_error ended, bind_error ended]
      · simp only [bind_result, ended]
        rfl
  | ok a =>
      have first : (m >>= f).result = (f a).result := by
        rw [bind_result, ended]
        rfl
      refine Traced.ext ?_ ?_
      · rw [bind_ok ended]
        cases next : (f a).result with
        | error e =>
            rw [bind_error (first.trans next), bind_error next, bind_ok ended]
        | ok b =>
            rw [bind_ok (first.trans next), bind_ok next, bind_ok ended, List.append_assoc]
      · simp only [bind_result, ended]
        rfl

/-! ## What is reported -/

/-- Everything reported satisfies `P`, also when the computation stops. -/
def Within (P : ι → Prop) (m : Traced ε ι α) : Prop := ∀ i ∈ m.trace, P i

variable {P : ι → Prop}

theorem within_pure (a : α) : Within P (pure a : Traced ε ι α) := fun _ member => by cases member

theorem within_quiet (r : Except ε α) : Within P (quiet r : Traced ε ι α) :=
  fun _ member => by cases member

theorem within_report {i : ι} (holds : P i) : Within P (report i : Traced ε ι Unit) := by
  intro j member
  rw [report_trace, List.mem_singleton] at member
  exact member ▸ holds

theorem Within.bind {m : Traced ε ι α} {f : α → Traced ε ι β} (first : Within P m)
    (second : ∀ a, m.result = .ok a → Within P (f a)) : Within P (m >>= f) := by
  intro i member
  cases ended : m.result with
  | ok a =>
      rw [bind_ok ended, List.mem_append] at member
      exact member.elim (first i) (second a ended i)
  | error e =>
      rw [bind_error ended] at member
      exact first i member

end Traced

end SlabStudy.Library
