import SlabStudy.Xv6.Preserve

/-!
# Reaping and scheduling keep the invariant

A zombie is reaped without stopping the machine, and its pages become free.
A scheduler round takes up a runnable process; one that was asleep in `wait`
or `waitpid` goes through its loop again before `ptable.lock` is released.
-/

namespace SlabStudy.Xv6

open Library

variable {ld : Linkage} {s s' : Kernel} {c : Fin ncpu} {p q : Slot}

/-! ## Reaping -/

/-- The zombie's kernel stack and address space are freed, and nothing else. -/
theorem reap_succeeds (memory : MemoryOk ld s) (equipped : Equipped (s.proc q)) :
    ∃ km, reap ld s q = .ok (.reaped (s.proc q).corpse, (s.setKmem km).modify q Proc.clear) ∧
      (km.freelist : Multiset Frame) = s.kmem.freelist + (s.proc q).pages ∧
      ∀ frame, frame ∉ km.freelist → km.mem frame = s.kmem.mem frame := by
  obtain ⟨kstack, stack⟩ := Option.isSome_iff_exists.mp equipped.kstack
  obtain ⟨d, own⟩ := Option.isSome_iff_exists.mp equipped.pgdir
  obtain ⟨km₁, freed⟩ := kfree_of_valid s.kmem (memory.validStack stack)
  obtain ⟨_, listed, kept⟩ := kfree_eq_ok freed
  obtain ⟨km, gone, total, untouched⟩ := freevm_ok km₁ (memory.owned stack own).validFrames
  refine ⟨km, ?_, ?_, fun frame used => ?_⟩
  · simp only [reap, stack, own, freed, bind, Except.bind, gone]
    rfl
  · rw [total, listed, Proc.pages_of_some stack own, ← Multiset.cons_coe,
      ← Multiset.singleton_add]
    abel
  · have apart : frame ≠ kstack := by
      rintro rfl
      have inside : frame ∈ (km.freelist : Multiset Frame) := by
        rw [total, listed]
        simp
      exact used (Multiset.mem_coe.mp inside)
    rw [untouched frame used, kept frame apart]

/-- The pages of the zombie are free again. -/
theorem reap_pages (inv : Inv ld s) (zombie : (s.proc q).state = .zombie) {outcome : Outcome}
    (ran : reap ld s q = .ok (outcome, s')) : s'.pages = s.pages := by
  obtain ⟨km, result, total, _⟩ := reap_succeeds inv.memory ((inv.states q).zombie zombie)
  rw [result] at ran
  cases ran
  refine Kernel.pages_trade (fun r apart => Kernel.modify_of_ne _ _ _ apart) ?_
  have nothing : (s.proc q).clear.pages = 0 := Proc.pages_of_none rfl
  rw [Kernel.modify_self, Kernel.setKmem_proc, nothing, add_zero]
  exact total

theorem Inv.reap (inv : Inv ld s) (zombie : (s.proc q).state = .zombie) {outcome : Outcome}
    (ran : reap ld s q = .ok (outcome, s')) : Inv ld s' := by
  have ok := inv.states q
  simp only [StateOk, zombie] at ok
  obtain ⟨equipped, chan, files, idle⟩ := ok
  have pages := reap_pages inv zombie ran
  obtain ⟨km, result, _⟩ := reap_succeeds inv.memory equipped
  rw [result] at ran
  cases ran
  have self : ((s.setKmem km).modify q Proc.clear).proc q = (s.proc q).clear :=
    Kernel.modify_self _ _ _
  have others : ∀ r, r ≠ q → ((s.setKmem km).modify q Proc.clear).proc r = s.proc r :=
    fun r apart => Kernel.modify_of_ne _ _ _ apart
  have bounded := inv.bounded q
  refine ⟨fun r => ?_, fun r => ?_, ?_, ?_, ⟨fun {p} asleep => ?_, fun {p r} asleep child => ?_⟩,
    inv.init.keep rfl (fun r alive => ?_) (fun r => ?_), inv.memory.of_pages pages⟩
  · by_cases here : r = q
    · subst here
      rw [self]
      exact ⟨bounded.low, bounded.high, bounded.size, bounded.stack⟩
    · rw [others r here]
      exact inv.bounded r
  · by_cases here : r = q
    · subst here
      rw [self]
      exact ⟨⟨rfl, rfl, chan, files⟩, idle⟩
    · rw [others r here]
      exact inv.states r
  · refine inv.cpus.same rfl fun r => ?_
    by_cases here : r = q
    · subst here
      rw [self, zombie]
      constructor
      · intro impossible
        cases impossible
      · intro impossible
        cases impossible
    · rw [others r here]
  · refine inv.forks.keep (fun _ => rfl) fun np embryo => ?_
    have apart : np ≠ q := by
      rintro rfl
      rw [zombie] at embryo
      cases embryo
    rw [others np apart]
    exact ⟨embryo, id, id, fun _ _ parent => parent⟩
  · have apart : p ≠ q := by
      rintro rfl
      rw [SleepsIn, self] at asleep
      cases asleep.1
    rw [SleepsIn, others p apart] at asleep
    -- the zombie was no child of the sleeper, so the sleeper keeps its child
    obtain ⟨r, child⟩ := inv.waits.child asleep
    have other : r ≠ q := by
      rintro rfl
      exact inv.waits.alive asleep child zombie
    exact ⟨r, by rw [others r other]; exact child⟩
  · have apart : p ≠ q := by
      rintro rfl
      rw [SleepsIn, self] at asleep
      cases asleep.1
    have other : r ≠ q := by
      rintro rfl
      rw [self] at child
      cases child
    rw [SleepsIn, others p apart] at asleep
    rw [others r other] at child ⊢
    exact inv.waits.alive asleep child
  · have other : r ≠ q := by
      rintro rfl
      simp [Alive, zombie] at alive
    rw [others r other]
    exact alive
  · by_cases here : r = q
    · subst here
      exact .inr (.inl (by rw [self]; rfl))
    · exact .inl (by rw [others r here])

/-! ## The loops of wait and waitpid -/

/-- The three ways in which a pass through the loop of `wait` ends. -/
theorem wait_cases {outcome : Outcome} (ran : wait ld s c p = .ok (outcome, s')) :
    (∃ q, (s.proc q).parent = some p ∧ (s.proc q).state = .zombie ∧
        reap ld s q = .ok (outcome, s')) ∨
      (outcome = .returned (-1) ∧ s' = s) ∨
      (outcome = .slept ∧ s' = sleep s c p (some (.proc p)) .wait ∧
        (s.proc p).killed = false ∧ (∃ q, (s.proc q).parent = some p) ∧
        ∀ q, (s.proc q).parent = some p → (s.proc q).state ≠ .zombie) := by
  unfold wait at ran
  cases found : s.first fun pr => pr.parent = some p ∧ pr.state = .zombie with
  | some q =>
      rw [found] at ran
      have zombie := (Kernel.first_eq_some found).1
      rw [decide_eq_true_eq] at zombie
      exact .inl ⟨q, zombie.1, zombie.2, ran⟩
  | none =>
      rw [found] at ran
      have noZombie := Kernel.first_eq_none.mp found
      simp only at ran
      split at ran
      · cases ran
        exact .inr (.inl ⟨rfl, rfl⟩)
      · next stays =>
          rw [not_or] at stays
          cases ran
          refine .inr (.inr ⟨rfl, rfl, Bool.eq_false_of_not_eq_true stays.2, ?_, ?_⟩)
          · cases kids : s.first fun pr => pr.parent = some p with
            | none =>
                rw [kids] at stays
                exact absurd rfl stays.1
            | some q => exact ⟨q, of_decide_eq_true (Kernel.first_eq_some kids).1⟩
          · intro q child zombie
            exact of_decide_eq_false (noZombie q) ⟨child, zombie⟩

/-- The three ways in which a pass through the loop of `waitpid` ends. -/
theorem waitpid_cases {pid : Int} {outcome : Outcome}
    (ran : waitpid ld s c p pid = .ok (outcome, s')) :
    (∃ q, s.first (fun pr => pr.pid = pid) = some q ∧ (s.proc q).state = .zombie ∧
        reap ld s q = .ok (outcome, s')) ∨
      (outcome = .returned (-1) ∧ s' = s) ∨
      (outcome = .slept ∧ ∃ q, s.first (fun pr => pr.pid = pid) = some q ∧
        (s.proc q).state ≠ .zombie ∧ (s.proc p).killed = false ∧
        s' = sleep s c p ((s.proc q).parent.map .proc) (.waitpid pid)) := by
  unfold waitpid at ran
  cases found : s.first fun pr => pr.pid = pid with
  | none =>
      rw [found] at ran
      cases ran
      exact .inr (.inl ⟨rfl, rfl⟩)
  | some q =>
      rw [found] at ran
      simp only at ran
      split at ran
      · next zombie => exact .inl ⟨q, rfl, zombie, ran⟩
      · next alive =>
          split at ran
          · cases ran
            exact .inr (.inl ⟨rfl, rfl⟩)
          · next notKilled =>
              cases ran
              exact .inr (.inr ⟨rfl, q, rfl, alive, Bool.eq_false_of_not_eq_true notKilled, rfl⟩)

theorem Inv.wait (inv : Inv ld s) (free : Free s c p) {outcome : Outcome}
    (ran : wait ld s c p = .ok (outcome, s')) : Inv ld s' := by
  rcases wait_cases ran with ⟨q, _, zombie, reaped⟩ | ⟨_, rfl⟩ | ⟨_, rfl, killed, kids, alive⟩
  · exact inv.reap zombie reaped
  · exact inv
  · exact inv.sleep free Resume.noConfusion Resume.noConfusion
      fun _ => ⟨rfl, killed, kids, alive⟩

theorem Inv.waitpid (inv : Inv ld s) (free : Free s c p) {pid : Int} {outcome : Outcome}
    (ran : waitpid ld s c p pid = .ok (outcome, s')) : Inv ld s' := by
  rcases waitpid_cases ran with ⟨q, _, zombie, reaped⟩ | ⟨_, rfl⟩ | ⟨_, q, _, _, _, rfl⟩
  · exact inv.reap zombie reaped
  · exact inv
  · exact inv.sleep free Resume.noConfusion Resume.noConfusion
      fun inWait => Resume.noConfusion inWait

/-! ## The scheduler -/

/-- A chosen process is runnable. -/
theorem choose_runnable {table : Slot → Proc} {cur : Slot} (chosen : choose table cur = some p) :
    (table p).state = .runnable := by
  unfold choose at chosen
  split at chosen
  · have wanted := (scanFrom_eq_some chosen).1
    rw [Bool.and_eq_true, decide_eq_true_eq] at wanted
    exact wanted.1
  · cases chosen

/-- The state in which the chosen process goes on: running and on no channel. -/
theorem Inv.enter (inv : Inv ld s) (idle : (s.cpu c).proc = none)
    (runnable : (s.proc p).state = .runnable) : Inv ld (sleepTidy (dispatch s c p) p) := by
  generalize result : sleepTidy (dispatch s c p) p = t
  have equipped := ((inv.states p).runnable runnable).1
  have bounded := inv.bounded p
  have self : t.proc p = { s.proc p with state := .running, chan := none } := by
    rw [← result, sleepTidy, Kernel.modify_self]
    simp [dispatch]
  have others : ∀ q, q ≠ p → t.proc q = s.proc q := by
    intro q apart
    rw [← result, sleepTidy, Kernel.modify_of_ne _ _ _ apart]
    exact Function.update_of_ne apart _ _
  have thread : t.thread = s.thread := by
    rw [← result]
    rfl
  have parents : ∀ q, (t.proc q).parent = (s.proc q).parent := by
    intro q
    by_cases here : q = p
    · subst here
      rw [self]
    · rw [others q here]
  have states : ∀ q, (t.proc q).state ≠ .running → (t.proc q).state = (s.proc q).state := by
    intro q stopped
    by_cases here : q = p
    · subst here
      rw [self] at stopped
      exact absurd rfl stopped
    · rw [others q here]
  refine ⟨fun q => ?_, fun q => ?_, ?_, ?_, ?_,
    inv.init.keep (by rw [← result]; rfl) (fun q alive => ?_) fun q => .inl (parents q), ?_⟩
  · by_cases here : q = p
    · subst here
      rw [self]
      exact ⟨bounded.low, bounded.high, bounded.size, bounded.stack⟩
    · rw [others q here]
      exact inv.bounded q
  · rw [thread]
    by_cases here : q = p
    · subst here
      rw [self]
      exact ⟨⟨equipped.kstack, equipped.pgdir⟩, rfl⟩
    · rw [others q here]
      exact inv.states q
  · refine inv.cpus.enter idle (by rw [← result]; rfl) ?_ (by rw [self]) fun q apart => by
      rw [others q apart]
    rw [runnable]
    exact ProcState.noConfusion
  · refine inv.forks.keep (fun q => by rw [thread]) fun np embryo => ?_
    have apart : np ≠ p := by
      rintro rfl
      rw [runnable] at embryo
      cases embryo
    rw [others np apart]
    exact ⟨embryo, id, id, fun _ _ parent => parent⟩
  · refine inv.waits.keep (fun q asleep => ?_) parents fun q zombie => ?_
    · rw [SleepsIn, thread] at asleep
      have stopped : (t.proc q).state ≠ .running := by
        rw [asleep.1]
        exact ProcState.noConfusion
      exact ⟨(states q stopped).symm.trans asleep.1, asleep.2⟩
    · have stopped : (t.proc q).state ≠ .running := by
        rw [zombie]
        exact ProcState.noConfusion
      exact (states q stopped).symm.trans zombie
  · by_cases here : q = p
    · subst here
      exact .inr (.inr (by rw [self]))
    · rw [others q here]
      exact alive
  · exact inv.memory.of_pages
      (Kernel.pages_one (by rw [← result]; rfl) others (by rw [self]) (by rw [self]))

/-- After the switch the process runs on this CPU, with no system call in progress. -/
theorem free_enter (inv : Inv ld s) (runnable : (s.proc p).state = .runnable)
    (notYield : (s.thread p).resume ≠ .yield) : Free (sleepTidy (dispatch s c p) p) c p := by
  refine ⟨?_, ?_⟩
  · change (Function.update s.cpu c ⟨some p, p⟩ c).proc = some p
    rw [Function.update_self]
  · exact (((inv.states p).runnable runnable).2.2).resolve_left notYield

/-- A process that was not asleep is on no channel already. -/
theorem sleepTidy_dispatch (inv : Inv ld s) (runnable : (s.proc p).state = .runnable)
    (awake : (s.thread p).resume = .forkret ∨ (s.thread p).resume = .yield) :
    sleepTidy (dispatch s c p) p = dispatch s c p := by
  have chan := ((inv.states p).runnable runnable).2.1 awake
  apply Kernel.modify_eq_self
  simp [dispatch, chan]

/-- What the switched-to process does before `ptable.lock` is released. -/
theorem resume_cases (inv : Inv ld s) (runnable : (s.proc p).state = .runnable)
    {outcome : Option Outcome} (ran : resume ld (dispatch s c p) c p = .ok (outcome, s')) :
    (outcome = none ∧ s' = sleepTidy (dispatch s c p) p) ∨
      ((s.thread p).resume = .wait ∧ ∃ ended, outcome = some ended ∧
        wait ld (sleepTidy (dispatch s c p) p) c p = .ok (ended, s')) ∨
      ∃ pid, (s.thread p).resume = .waitpid pid ∧ ∃ ended, outcome = some ended ∧
        waitpid ld (sleepTidy (dispatch s c p) p) c p pid = .ok (ended, s') := by
  have thread : (dispatch s c p).thread = s.thread := rfl
  unfold resume at ran
  rw [thread] at ran
  cases call : (s.thread p).resume with
  | forkret =>
      rw [call] at ran
      cases ran
      exact .inl ⟨rfl, (sleepTidy_dispatch inv runnable (.inl call)).symm⟩
  | yield =>
      rw [call] at ran
      cases ran
      exact .inl ⟨rfl, (sleepTidy_dispatch inv runnable (.inr call)).symm⟩
  | sleep =>
      rw [call] at ran
      cases ran
      exact .inl ⟨rfl, rfl⟩
  | wait =>
      rw [call] at ran
      obtain ⟨⟨ended, t⟩, waited, last⟩ := Kern.bind_eq_ok.mp ran
      cases last
      exact .inr (.inl ⟨rfl, ended, rfl, waited⟩)
  | waitpid pid =>
      rw [call] at ran
      obtain ⟨⟨ended, t⟩, waited, last⟩ := Kern.bind_eq_ok.mp ran
      cases last
      exact .inr (.inr ⟨pid, rfl, ended, rfl, waited⟩)

/-- A round that returns has chosen nobody, or has switched to the chosen process. -/
theorem scheduler_eq_ok {chosen : Option Slot} {outcome : Option Outcome}
    (ran : scheduler ld s c = .ok (chosen, outcome, s')) :
    chosen = choose s.proc (s.cpu c).cur ∧
      ((chosen = none ∧ outcome = none ∧ s' = s) ∨
        ∃ p, chosen = some p ∧ resume ld (dispatch s c p) c p = .ok (outcome, s')) := by
  unfold scheduler at ran
  cases found : choose s.proc (s.cpu c).cur with
  | none =>
      rw [found] at ran
      cases ran
      exact ⟨rfl, .inl ⟨rfl, rfl, rfl⟩⟩
  | some p =>
      rw [found] at ran
      obtain ⟨_, _, tail⟩ := Kern.bind_eq_ok.mp ran
      obtain ⟨⟨ended, t⟩, resumed, last⟩ := Kern.bind_eq_ok.mp tail
      cases last
      exact ⟨rfl, .inr ⟨p, rfl, resumed⟩⟩

theorem Inv.scheduler (inv : Inv ld s) (idle : (s.cpu c).proc = none) {chosen : Option Slot}
    {outcome : Option Outcome} (ran : scheduler ld s c = .ok (chosen, outcome, s')) :
    Inv ld s' := by
  obtain ⟨found, ⟨_, _, rfl⟩ | ⟨p, rfl, resumed⟩⟩ := scheduler_eq_ok ran
  · exact inv
  · have runnable := choose_runnable found.symm
    have entered := inv.enter (c := c) idle runnable
    rcases resume_cases inv runnable resumed with
      ⟨_, rfl⟩ | ⟨call, ended, _, waited⟩ | ⟨pid, call, ended, _, waited⟩
    · exact entered
    · exact entered.wait (free_enter inv runnable (by rw [call]; exact Resume.noConfusion)) waited
    · exact entered.waitpid (free_enter inv runnable (by rw [call]; exact Resume.noConfusion))
        waited

end SlabStudy.Xv6
