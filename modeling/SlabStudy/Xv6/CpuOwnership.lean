import SlabStudy.Xv6.Boot
import SlabStudy.Xv6.Effects

/-!
# Processes and CPUs

A CPU runs the process it has as `c->proc`, and only that one.  A kernel stack
is given up only when no CPU is on it.
-/

namespace SlabStudy.Xv6

open Library

variable {ld : Linkage} {s s' : Kernel}

/-- A process that can run, and one that has exited, has a kernel stack and an address space. -/
theorem StateOk.equipped {self : Slot} {pr : Proc} {thread : Thread}
    (ok : StateOk self pr thread) (state : Alive pr ∨ pr.state = .zombie) : Equipped pr := by
  rcases state with (sleeping | runnable | running) | zombie
  · exact (ok.sleeping sleeping).1
  · exact (ok.runnable runnable).1
  · exact (ok.running running).1
  · exact ok.zombie zombie

/-- A step leaves a running process with its kernel stack. -/
theorem Entry.running {label : Label} {z : Option Slot} {q : Slot} {old new : Proc}
    (entry : Entry s label z q old new) (running : old.state = .running) :
    Alive new ∨ new.state = .zombie := by
  have alive : Alive old := .inr (.inr running)
  cases entry with
  | same kept _ _ =>
      rcases kept.state with same | ⟨_, later⟩
      · exact .inl (.inr (.inr (same.trans running)))
      · exact .inl later
  | claimed _ _ unused _ => rw [running] at unused; cases unused
  | copied _ _ embryo _ _ _ => rw [running] at embryo; cases embryo
  | failed _ _ embryo _ _ => rw [running] at embryo; cases embryo
  | started _ _ embryo _ => rw [running] at embryo; cases embryo
  | exited _ _ _ state _ _ _ => exact .inr state
  | orphaned _ _ _ _ _ _ _ state _ =>
      rcases state with same | ⟨_, later⟩
      · exact .inl (.inr (.inr (same.trans running)))
      · exact .inl later
  | reaped _ zombie _ => rw [running] at zombie; cases zombie

/-- A kernel stack that a step takes away is under no CPU. -/
theorem Inv.stack_released (inv : Inv ld s) {label : Label} (step : Step ld s label s') {q : Slot}
    (released : (s'.proc q).kstack = none) (c : Fin ncpu) :
    (s.cpu c).proc ≠ some q ∧ (s'.cpu c).proc ≠ some q := by
  have later := inv.step step
  have bare : ¬ Equipped (s'.proc q) := fun equipped => by
    have stack := equipped.kstack
    rw [released] at stack
    cases stack
  constructor
  · intro busy
    obtain ⟨z, effect⟩ := step_effect inv step
    exact bare ((later.states q).equipped ((effect.entry q).running (inv.cpus.current busy).1))
  · intro busy
    exact bare ((later.states q).equipped (.inl (.inr (.inr (later.cpus.current busy).1))))

/-- Whenever `ptable.lock` is free, processes and CPUs agree, and a step that frees a kernel stack
frees that of a process which no CPU has. -/
theorem cpus_agree (reached : (system ld).Reachable s) :
    (∀ c p, (s.cpu c).proc = some p → (s.proc p).state = .running) ∧
    (∀ p, (s.proc p).state = .running → ∃! c, (s.cpu c).proc = some p) ∧
    (∀ p, (s.proc p).state = .runnable ∨ (s.proc p).state = .running →
      (s.proc p).kstack ≠ none ∧ (s.proc p).pgdir.isSome = true) ∧
    ∀ label s' q, Step ld s label s' → (s.proc q).kstack ≠ none → (s'.proc q).kstack = none →
      ∀ c, (s.cpu c).proc ≠ some q ∧ (s'.cpu c).proc ≠ some q := by
  have inv := Inv.reachable reached
  refine ⟨fun c p busy => (inv.cpus.current busy).1, fun p running => ?_, fun p state => ?_,
    fun label s' q step _ released c => inv.stack_released step released c⟩
  · obtain ⟨c, busy⟩ := inv.cpus.placed running
    exact ⟨c, busy, fun other same => inv.cpus.unique same busy⟩
  · have equipped := (inv.states p).equipped (.inl (.inr state))
    refine ⟨fun none => ?_, equipped.pgdir⟩
    have stack := equipped.kstack
    rw [none] at stack
    cases stack

/-- The first process of a small machine is on the one CPU that runs it. -/
theorem started_cpus_agree :
    ∃ s, (s.proc 0).state = .running ∧ ∃! c, (Kernel.cpu s c).proc = some 0 := by
  obtain ⟨s, d, started⟩ := sample_started (by decide : 0 ≤ 0x800)
  have agree := cpus_agree started.reached
  have running := agree.1 0 0 started.free.running
  exact ⟨s, running, agree.2.1 0 running⟩

end SlabStudy.Xv6
