import SlabStudy.Xv6.Effects

/-!
# Looking up a pid

`kill`, `setpriority` and `waitpid` compare the pid of every entry, also of
unused ones.  Reaping clears the pid, and a `fork` that fails leaves the pid
it had allotted in the unused slot.  So a lookup is right for every pid but 0
in runs without failing forks, and wrong exactly for the pids that only
unused slots hold.
-/

namespace SlabStudy.Xv6

open Library

variable {ld : Linkage} {s s' : Kernel}

/-- A process has this pid. -/
def InUse (s : Kernel) (pid : Int) : Prop :=
  ∃ q, (s.proc q).pid = pid ∧ (s.proc q).state ≠ .unused

/-- An unused slot has this pid. -/
def IsStale (s : Kernel) (pid : Int) : Prop :=
  ∃ q, (s.proc q).pid = pid ∧ (s.proc q).state = .unused

/-- A pid that no process has is not found, by no operation on pids. -/
def LookupSound (ld : Linkage) (s : Kernel) (c : Fin ncpu) (p : Slot) (pid : Int) : Prop :=
  InUse s pid ∨
    (kill s pid = (-1, s) ∧ (∀ priority, pid ≠ 0 → setpriority s p pid priority = (-1, s)) ∧
      waitpid ld s c p pid = .ok (.returned (-1), s))

/-- A pid that no entry holds is refused. -/
theorem lookup_none (c : Fin ncpu) (p : Slot) {pid : Int}
    (missing : s.first (fun pr => pr.pid = pid) = none) :
    kill s pid = (-1, s) ∧ (∀ priority, pid ≠ 0 → setpriority s p pid priority = (-1, s)) ∧
      waitpid ld s c p pid = .ok (.returned (-1), s) := by
  refine ⟨?_, fun priority nonzero => ?_, ?_⟩
  · unfold kill
    rw [missing]
  · unfold setpriority
    rw [if_neg nonzero]
    simp only
    rw [missing, ite_self]
  · unfold waitpid
    rw [missing]

/-- The lookups are right exactly when the pid is not held by unused slots alone. -/
theorem lookupSound_iff (c : Fin ncpu) (p : Slot) (pid : Int) :
    LookupSound ld s c p pid ↔ (IsStale s pid → InUse s pid) := by
  constructor
  · rintro (used | ⟨killed, _⟩) ⟨q, matched, unused⟩
    · exact used
    · cases found : s.first fun pr => pr.pid = pid with
      | none => exact absurd matched (of_decide_eq_false (Kernel.first_eq_none.mp found q))
      | some r =>
          unfold kill at killed
          rw [found] at killed
          cases killed
  · intro distinct
    cases found : s.first fun pr => pr.pid = pid with
    | none => exact .inr (lookup_none c p found)
    | some q =>
        have matched : (s.proc q).pid = pid := of_decide_eq_true (Kernel.first_eq_some found).1
        by_cases unused : (s.proc q).state = .unused
        · exact .inl (distinct ⟨q, matched, unused⟩)
        · exact .inl ⟨q, matched, unused⟩

/-- No `fork` gives up a slot that it has claimed. -/
def ForkSucceeds : Label → Prop
  | .copy _ _ false => False
  | _ => True

/-- One step keeps the pids of unused slots at zero. -/
theorem unused_pid_step {label : Label} {z : Option Slot} (effect : Effect s s' label z)
    (forks : ForkSucceeds label) (zero : ∀ q, (s.proc q).state = .unused → (s.proc q).pid = 0)
    (q : Slot) (unused : (s'.proc q).state = .unused) : (s'.proc q).pid = 0 := by
  cases effect.entry q with
  | same kept _ _ =>
      rw [kept.pid]
      exact zero q ((kept.state_iff (by decide) (by decide) (by decide)).mp unused)
  | claimed _ _ _ result =>
      rw [result] at unused
      cases unused
  | copied _ _ _ state _ _ =>
      rw [state] at unused
      cases unused
  | failed _ label_eq _ _ _ =>
      subst label_eq
      exact forks.elim
  | started _ _ _ result =>
      rw [result] at unused
      cases unused
  | exited _ _ _ state _ _ _ =>
      rw [state] at unused
      cases unused
  | orphaned _ _ _ _ _ _ pid state _ =>
      rcases state with same | ⟨_, alive⟩
      · rw [pid]
        exact zero q (same.symm.trans unused)
      · simp [Alive, unused] at alive
  | reaped _ _ result =>
      rw [result]
      rfl

/-- Without failing forks every unused slot has pid 0. -/
theorem unused_pid_zero
    (reached : ((system ld).guarded fun _ label => ForkSucceeds label).Reachable s) :
    ∀ q, (s.proc q).state = .unused → (s.proc q).pid = 0 := by
  have both : Inv ld s ∧ ∀ q, (s.proc q).state = .unused → (s.proc q).pid = 0 := by
    refine reached.invariant (P := fun s => Inv ld s ∧
      ∀ q, (s.proc q).state = .unused → (s.proc q).pid = 0) ?_ ?_
    · intro s first
      have inv := Inv.reachable (.start first)
      obtain ⟨km, initcode, root, free, ran⟩ := first
      obtain ⟨kstack, d, boot⟩ := userinit_booted free ran
      refine ⟨inv, fun q unused => ?_⟩
      by_cases here : q = 0
      · subst here
        rw [boot.first] at unused
        cases unused
      · rw [boot.others q here]
        rfl
    · rintro s label s' ⟨inv, zero⟩ ⟨forks, step⟩
      obtain ⟨z, effect⟩ := step_effect inv step
      exact ⟨inv.step step, unused_pid_step effect forks zero⟩
  exact both.2

/--
In every state a lookup is sound exactly when the pid is not held by unused
slots alone.  In every state reached without a failing fork, every pid other
than 0 is of this kind.
-/
theorem lookups_sound (ld : Linkage) :
    (∀ s c p pid, LookupSound ld s c p pid ↔ (IsStale s pid → InUse s pid)) ∧
      ∀ s, ((system ld).guarded fun _ label => ForkSucceeds label).Reachable s →
        ∀ c p pid, pid ≠ 0 → LookupSound ld s c p pid := by
  refine ⟨fun s c p pid => lookupSound_iff c p pid, fun s reached c p pid nonzero => ?_⟩
  refine (lookupSound_iff c p pid).mpr ?_
  rintro ⟨q, matched, unused⟩
  rw [unused_pid_zero reached q unused] at matched
  exact absurd matched.symm nonzero

/-- On the booted machine no process has pid 7, and no operation finds one. -/
theorem lookups_sound_boot : ∃ s, (system sampleLinkage).Reachable s ∧
    LookupSound sampleLinkage s 0 0 7 := by
  obtain ⟨s, kstack, d, first, _⟩ := sample_boots (Nat.zero_le _)
  exact ⟨s, .start first, (lookups_sound sampleLinkage).2 s (.start first) 0 0 7 (by decide)⟩

/-- `kill(0)` succeeds although no process has pid 0. -/
theorem kill_zero_succeeds : ∃ s, (system sampleLinkage).Reachable s ∧ ¬ InUse s 0 ∧
    (kill s 0).1 = 0 ∧ ((kill s 0).2.proc 1).killed = true ∧ (s.proc 1).killed = false ∧
    ¬ LookupSound sampleLinkage s 0 0 0 := by
  obtain ⟨s, d, started⟩ := sample_started (Nat.zero_le _)
  have vacant := started.others 1 (by decide)
  have found : s.first (fun pr => pr.pid = 0) = some 1 :=
    started.first_pid rfl (by rw [vacant]; rfl) (by decide)
  have free : ¬ InUse s 0 := by
    rintro ⟨q, matched, used⟩
    by_cases here : q = 0
    · subst here
      rw [started.pid] at matched
      cases matched
    · rw [started.others q here] at used
      exact used rfl
  refine ⟨s, started.reached, free, ?_, ?_, ?_, fun sound => ?_⟩
  · unfold kill
    rw [found]
  · unfold kill
    rw [found]
    simp
  · rw [vacant]
    rfl
  · refine free ((lookupSound_iff 0 0 0).mp sound ⟨1, ?_, ?_⟩)
    · rw [vacant]
      rfl
    · rw [vacant]
      rfl

end SlabStudy.Xv6
