import SlabStudy.Xv6.Effects

/-!
# Sleeping in wait and waitpid

Nobody is stuck in `wait`: the channel is the sleeper itself, and every exit
or re-parenting of a child wakes it.  `waitpid` sleeps on the parent that the
first entry with the pid has at that moment.  The sleeper is woken by the
exit of its target as long as this entry is another live process and its
parent pointer does not change.
-/

namespace SlabStudy.Xv6

open Library

variable {ld : Linkage} {s s' : Kernel} {p : Slot}

/-! ## wait -/

/-- Who sleeps in `wait` is not killed, has a child, and has no child that has exited. -/
theorem wait_not_stuck (reached : (system ld).Reachable s) (asleep : SleepsIn s p .wait) :
    (s.proc p).killed = false ∧
      (∃ q, (s.proc q).parent = some p ∧ (s.proc q).state ≠ .unused) ∧
      ∀ q, (s.proc q).parent = some p → (s.proc q).state ≠ .zombie := by
  have inv := Inv.reachable reached
  refine ⟨?_, ?_, fun q => inv.waits.alive asleep⟩
  · exact (((inv.states p).sleeping asleep.1).2.2.2.2 asleep.2).2
  · obtain ⟨q, child⟩ := inv.waits.child asleep
    refine ⟨q, child, fun unused => ?_⟩
    rw [((inv.states q).unused unused).parent] at child
    cases child

/-- The first process has a child and goes to sleep in `wait`. -/
theorem sample_waits : ∃ s, (system sampleLinkage).Reachable s ∧ SleepsIn s 0 .wait := by
  obtain ⟨s, d, started⟩ := sample_started (by decide : 100 ≤ 0x800)
  obtain ⟨t, child, frame, ran, forked⟩ := started.forks (Nat.zero_le _) (Nat.le_refl _)
  obtain ⟨quiet, free⟩ := started.afterFork ran forked
  have parent : (t.proc 1).parent = some 0 := by
    rw [forked.proc]
    rfl
  have killed : (t.proc 0).killed = false := by
    rw [forked.others 0 (by decide)]
    exact started.killed
  have exited : t.first (fun pr => pr.parent = some 0 ∧ pr.state = .zombie) = none := by
    refine Kernel.first_eq_none.mpr fun q => decide_eq_false ?_
    rintro ⟨isChild, zombie⟩
    by_cases here : q = 1
    · subst here
      rw [forked.proc] at zombie
      cases zombie
    · rw [forked.others q here] at isChild zombie
      by_cases first : q = 0
      · subst first
        rw [started.running] at zombie
        cases zombie
      · rw [started.others q first] at zombie
        cases zombie
  have ran : wait sampleLinkage t 0 0 = .ok (.slept, sleep t 0 0 (some (.proc 0)) .wait) := by
    unfold wait
    rw [exited]
    simp only
    rw [if_neg]
    rintro (childless | isKilled)
    · have none := Kernel.first_eq_none.mp (Option.isNone_iff_eq_none.mp childless) 1
      exact of_decide_eq_false none parent
    · rw [killed] at isKilled
      cases isKilled
  refine ⟨_, quiet.ofGuarded.step (.wait free ran), ?_, ?_⟩
  · simp [sleep, sched]
  · simp [sleep, sched, Kernel.setThread]

theorem wait_not_stuck_first : ∃ s, SleepsIn s 0 .wait ∧ (s.proc 0).killed = false ∧
    (∃ q, (s.proc q).parent = some 0 ∧ (s.proc q).state ≠ .unused) ∧
      ∀ q, (s.proc q).parent = some 0 → (s.proc q).state ≠ .zombie := by
  obtain ⟨s, reached, asleep⟩ := sample_waits
  exact ⟨s, asleep, wait_not_stuck reached asleep⟩

/-! ## waitpid -/

/-- Process `w` sleeps on what the exit of process `target` will wake. -/
structure Awaits (s : Kernel) (w target : Slot) (pid : Int) : Prop where
  other : target ≠ w
  pid : (s.proc target).pid = pid
  used : (s.proc target).state ≠ .unused
  unexited : (s.proc target).state ≠ .zombie
  chan : (s.proc w).chan = (s.proc target).parent.map .proc

/-- Every sleeper in `waitpid` has a target whose exit makes it runnable. -/
def Attentive (s : Kernel) : Prop :=
  ∀ w pid, SleepsIn s w (.waitpid pid) → ∃ target, Awaits s w target pid ∧
    ∀ c status s', exit s c target status = .ok s' → (s'.proc w).state = .runnable

/-- The first entry with the pid, if `w` were to sleep for it, is another process. -/
def SoundTarget (s : Kernel) (w : Slot) (pid : Int) : Prop :=
  (s.proc w).killed = false → ∀ target, s.first (fun pr => pr.pid = pid) = some target →
    target ≠ w ∧ (s.proc target).state ≠ .unused

/--
The steps that do not break the connection between a sleeper and its target:
`waitpid` finds another process, no parent of an awaited process exits, and
nobody awaits an embryo whose `fork` has not yet copied the parent.
-/
def Careful (s : Kernel) : Label → Prop
  | .waitpid w pid _ => SoundTarget s w pid
  | .round _ (some w) _ => ∀ pid, (s.thread w).resume = .waitpid pid → SoundTarget s w pid
  | .exit p _ => ∀ w pid, SleepsIn s w (.waitpid pid) → (s.proc w).chan ≠ some (.proc p)
  | .copy _ np _ => ∀ w, ¬ SleepsIn s w (.waitpid (s.proc np).pid)
  | _ => True

/-- An entry that stays is awaited as before. -/
theorem Same.awaits {w target : Slot} {pid : Int}
    (kept : Same (s.proc target) (s'.proc target)) (other : target ≠ w)
    (matched : (s.proc target).pid = pid) (used : (s.proc target).state ≠ .unused)
    (unexited : (s.proc target).state ≠ .zombie)
    (chan : (s'.proc w).chan = (s.proc target).parent.map .proc) : Awaits s' w target pid := by
  refine ⟨other, kept.pid.trans matched, ?_, ?_, by rw [chan, kept.parent]⟩
  · rwa [Ne, kept.state_iff (by decide) (by decide) (by decide)]
  · rwa [Ne, kept.state_iff (by decide) (by decide) (by decide)]

/-- Exit wakes those who sleep on the parent of the exiting process. -/
theorem exit_wakes {corpse : Corpse} {w : Slot} (step : Step ld s (.exit p corpse) s')
    (asleep : (s'.proc w).state = .sleeping) : (s.proc w).chan ≠ (s.proc p).parent.map .proc := by
  cases step with
  | exit free ran =>
      have exits := exit_exited ran
      have apart : w ≠ p := by
        rintro rfl
        rw [exits.self] at asleep
        cases asleep
      intro chan
      obtain ⟨state, result, same | ⟨_, runs⟩⟩ := exits.others w apart
      · rw [result] at asleep
        have woken := exits.wakesParent w apart (same.symm.trans asleep) chan
        rw [result] at woken
        rw [show state = .sleeping from asleep] at woken
        cases woken
      · rw [result, runs] at asleep
        cases asleep

/-- A target stays a target while its sleeper sleeps. -/
theorem Awaits.step {label : Label} {w target : Slot} {pid : Int} {z : Option Slot}
    (step : Step ld s label s') (effect : Effect s s' label z) (careful : Careful s label)
    (asleep : SleepsIn s w (.waitpid pid)) (still : (s'.proc w).state = .sleeping)
    (chan : (s'.proc w).chan = (s.proc w).chan) (awaits : Awaits s w target pid) :
    Awaits s' w target pid := by
  cases effect.entry target with
  | same kept _ _ =>
      exact kept.awaits awaits.other awaits.pid awaits.used awaits.unexited
        (chan.trans awaits.chan)
  | claimed _ _ unused _ => exact absurd unused awaits.used
  | copied _ label_eq _ _ _ _ =>
      subst label_eq
      exact absurd (awaits.pid.symm ▸ asleep) (careful w)
  | failed _ label_eq _ _ _ =>
      subst label_eq
      exact absurd (awaits.pid.symm ▸ asleep) (careful w)
  | started _ _ _ result =>
      refine ⟨awaits.other, ?_, ?_, ?_, ?_⟩
      · rw [result]
        exact awaits.pid
      · rw [result]
        exact ProcState.noConfusion
      · rw [result]
        exact ProcState.noConfusion
      · rw [result, chan]
        exact awaits.chan
  | exited _ label_eq _ _ _ _ _ =>
      subst label_eq
      exact absurd awaits.chan (exit_wakes step still)
  | orphaned _ _ label_eq _ child _ _ _ _ =>
      subst label_eq
      refine absurd ?_ (careful w pid asleep)
      rw [awaits.chan, child]
      rfl
  | reaped _ zombie _ => exact absurd zombie awaits.unexited

/-- A process that has just gone to sleep has found its target. -/
theorem FallsAsleep.awaits {label : Label} {w : Slot} {pid : Int} {z : Option Slot}
    (effect : Effect s s' label z) (careful : Careful s label)
    (falls : FallsAsleep s s' label w pid) : ∃ target, Awaits s' w target pid := by
  obtain ⟨target, found, unexited, chan⟩ := falls.target
  have matched : (s.proc target).pid = pid := of_decide_eq_true (Kernel.first_eq_some found).1
  have sound : SoundTarget s w pid := by
    rcases falls.label with rfl | ⟨c, rfl, resume⟩
    · exact careful
    · exact careful pid resume
  obtain ⟨other, used⟩ := sound falls.killed target found
  refine ⟨target, ?_⟩
  rcases (effect.entry target).ofSlept falls.label with kept | zombie
  · exact kept.awaits other matched used unexited chan
  · exact absurd zombie unexited

/-- Every sleeper in `waitpid` has a target. -/
def Attending (s : Kernel) : Prop :=
  ∀ w pid, SleepsIn s w (.waitpid pid) → ∃ target, Awaits s w target pid

theorem Attending.step {label : Label} (inv : Inv ld s) (attending : Attending s)
    (careful : Careful s label) (step : Step ld s label s') : Attending s' := by
  intro w pid asleep
  obtain ⟨z, effect⟩ := step_effect inv step
  rcases effect.sleeper asleep with ⟨before, chan⟩ | falls
  · obtain ⟨target, awaits⟩ := attending w pid before
    exact ⟨target, awaits.step step effect careful before asleep.1 chan⟩
  · exact falls.awaits effect careful

/--
In every run of careful steps a sleeper in `waitpid(pid)` awaits another
process with that pid, and the exit of that process makes it runnable.
-/
theorem waitpid_attentive (reached : ((system ld).guarded Careful).Reachable s) :
    Attentive s := by
  have both : Inv ld s ∧ Attending s := by
    refine reached.invariant (P := fun s => Inv ld s ∧ Attending s) ?_ ?_
    · intro s first
      have inv := Inv.reachable (.start first)
      obtain ⟨km, initcode, root, free, ran⟩ := first
      obtain ⟨kstack, d, boot⟩ := userinit_booted free ran
      refine ⟨inv, fun w pid asleep => ?_⟩
      rw [SleepsIn, boot.thread] at asleep
      cases asleep.2
    · rintro s label s' ⟨inv, attending⟩ ⟨careful, step⟩
      exact ⟨inv.step step, attending.step inv careful step⟩
  intro w pid asleep
  obtain ⟨target, awaits⟩ := both.2 w pid asleep
  refine ⟨target, awaits, fun c status s' ran => ?_⟩
  exact (exit_exited ran).wakesParent w awaits.other.symm asleep.1 awaits.chan

/-- A process resumed in `waitpid` ends its pass in some way. -/
theorem round_waitpid {c : Fin ncpu} {w : Slot} {outcome : Option Outcome} {pid : Int}
    (ran : scheduler ld s c = .ok (some w, outcome, s'))
    (call : (s.thread w).resume = .waitpid pid) : outcome ≠ none := by
  obtain ⟨_, ⟨impossible, _⟩ | ⟨p, same, resumed⟩⟩ := scheduler_eq_ok ran
  · cases impossible
  · cases same
    unfold resume at resumed
    rw [dispatch_thread, call] at resumed
    obtain ⟨⟨ended, t⟩, _, last⟩ := Kern.bind_eq_ok.mp resumed
    cases last
    exact Option.some_ne_none ended

/-- Where nobody goes through the loops, nobody sleeps in `waitpid` and all steps are careful. -/
theorem quiet_careful (reached : (quietSystem ld).Reachable s) :
    ((system ld).guarded Careful).Reachable s ∧ Inv ld s ∧
      ∀ w pid, ¬ SleepsIn s w (.waitpid pid) := by
  refine reached.invariant (P := fun s => ((system ld).guarded Careful).Reachable s ∧ Inv ld s ∧
    ∀ w pid, ¬ SleepsIn s w (.waitpid pid)) ?_ ?_
  · intro s first
    have inv := Inv.reachable (.start first)
    have careful : ((system ld).guarded Careful).Reachable s := .start first
    obtain ⟨km, initcode, root, free, ran⟩ := first
    obtain ⟨kstack, d, boot⟩ := userinit_booted free ran
    refine ⟨careful, inv, fun w pid asleep => ?_⟩
    rw [SleepsIn, boot.thread] at asleep
    cases asleep.2
  · rintro s label s' ⟨reached, inv, awake⟩ ⟨⟨silent, _⟩, step⟩
    have careful : Careful s label := by
      cases step with
      | waitpid free ran => cases silent
      | copyFails busy pending ran => exact fun w => awake w _
      | copyDone busy pending ran => exact fun w => awake w _
      | exit free ran => exact fun w pid asleep => absurd asleep (awake w pid)
      | @round c chosen outcome s' idle ran =>
          cases chosen with
          | none => trivial
          | some w => exact fun pid call => absurd silent (round_waitpid ran call)
      | _ => trivial
    refine ⟨reached.step ⟨careful, step⟩, inv.step step, fun w pid asleep => ?_⟩
    obtain ⟨z, effect⟩ := step_effect inv step
    rcases effect.sleeper asleep with ⟨before, _⟩ | falls
    · exact awake w pid before
    · rcases falls.label with rfl | ⟨c, rfl, _⟩
      · cases silent
      · cases silent

/-- The first process sleeps for its child, which will wake it. -/
theorem waitpid_attentive_first : ∃ s, SleepsIn s 0 (.waitpid 2) ∧ Attentive s := by
  obtain ⟨s, d, started⟩ := sample_started (by decide : 100 ≤ 0x800)
  obtain ⟨t, child, frame, ran, forked⟩ := started.forks (Nat.zero_le _) (Nat.le_refl _)
  obtain ⟨quiet, free⟩ := started.afterFork ran forked
  obtain ⟨reached, _, _⟩ := quiet_careful quiet
  have unmoved := forked.others 0 (by decide)
  have found : t.first (fun pr => pr.pid = 2) = some 1 := by
    refine started.first_pid unmoved ?_ (by decide)
    rw [forked.proc]
    exact started.nextpid
  have state : (t.proc 1).state = .runnable := by rw [forked.proc]
  have ran : waitpid sampleLinkage t 0 0 2 =
      .ok (.slept, sleep t 0 0 ((t.proc 1).parent.map .proc) (.waitpid 2)) := by
    unfold waitpid
    rw [found]
    simp only
    rw [if_neg (by rw [state]; exact ProcState.noConfusion), unmoved, if_neg]
    rw [started.killed]
    exact Bool.false_ne_true
  have careful : Careful t (.waitpid 0 2 .slept) := by
    intro _ target matched
    rw [found] at matched
    cases matched
    refine ⟨by decide, ?_⟩
    rw [state]
    exact ProcState.noConfusion
  refine ⟨_, ⟨?_, ?_⟩, waitpid_attentive (reached.step ⟨careful, .waitpid free ran⟩)⟩
  · simp [sleep, sched]
  · simp [sleep, sched, Kernel.setThread]

/-- A process that waits for pid 0 sleeps on behalf of an unused slot. -/
theorem waitpid_zero_sleeps : ∃ s t, (system sampleLinkage).Reachable s ∧
    waitpid sampleLinkage s 0 0 0 = .ok (.slept, t) ∧ (system sampleLinkage).Reachable t ∧
    ¬ Attentive t := by
  obtain ⟨s, d, started⟩ := sample_started (Nat.zero_le _)
  have vacant := started.others 1 (by decide)
  have found : s.first (fun pr => pr.pid = 0) = some 1 :=
    started.first_pid rfl (by rw [vacant]; rfl) (by decide)
  have ran : waitpid sampleLinkage s 0 0 0 =
      .ok (.slept, sleep s 0 0 ((s.proc 1).parent.map .proc) (.waitpid 0)) := by
    unfold waitpid
    rw [found]
    simp only
    rw [if_neg (by rw [vacant]; exact ProcState.noConfusion), if_neg]
    rw [started.killed]
    exact Bool.false_ne_true
  generalize slept : sleep s 0 0 ((s.proc 1).parent.map .proc) (.waitpid 0) = t at ran
  have asleep : SleepsIn t 0 (.waitpid 0) := by
    rw [← slept]
    refine ⟨?_, ?_⟩
    · simp [sleep, sched]
    · simp [sleep, sched, Kernel.setThread]
  refine ⟨s, t, started.reached, ran, started.reached.step (.waitpid started.free ran),
    fun attentive => ?_⟩
  obtain ⟨target, awaits, _⟩ := attentive 0 0 asleep
  -- every other slot is unused
  have unused : t.proc target = .zero := by
    rw [← slept, ← started.others target awaits.other]
    exact Function.update_of_ne awaits.other _ _
  exact awaits.used (by rw [unused]; rfl)

end SlabStudy.Xv6
