import SlabStudy.Xv6.Reachable

/-!
# Which process a scheduler round dispatches

The maximum scan finds the highest priority because no priority lies below
`LOWPRIO`, and the two half scans together are one cyclic search.  A round in
a reachable state never stops the machine.
-/

namespace SlabStudy.Xv6

open Library

/-! ## The maximum scan -/

/-- Process `p` is runnable, and no runnable process has a higher priority. -/
def TopPriority (table : Slot → Proc) (p : Slot) : Prop :=
  (table p).state = .runnable ∧
    ∀ q, (table q).state = .runnable → (table q).priority ≤ (table p).priority

section Choose

variable {table : Slot → Proc}

/-- What the scan knows after some of the slots, started from `best`. -/
structure Scanned (table : Slot → Proc) (slots : List Slot) (best result : Int × Bool) : Prop where
  found : result.2 = true ↔ best.2 = true ∨ ∃ p ∈ slots, (table p).state = .runnable
  above : best.1 ≤ result.1
  upper : ∀ p ∈ slots, (table p).state = .runnable → (table p).priority ≤ result.1
  attained : result.1 = best.1 ∨
    ∃ p ∈ slots, (table p).state = .runnable ∧ (table p).priority = result.1

theorem foldl_prioStep (bounded : ∀ p, lowprio ≤ (table p).priority) (slots : List Slot)
    (best : Int × Bool) (start : best.2 = false → best.1 ≤ lowprio) :
    Scanned table slots best (slots.foldl (prioStep table) best) := by
  induction slots generalizing best with
  | nil =>
      refine ⟨?_, Int.le_refl _, fun _ member => (List.not_mem_nil member).elim, .inl rfl⟩
      constructor
      · exact Or.inl
      · rintro (found | ⟨_, member, _⟩)
        · exact found
        · exact (List.not_mem_nil member).elim
  | cons p rest ih =>
      rw [List.foldl_cons]
      by_cases runnable : (table p).state = .runnable
      · by_cases higher : best.1 ≤ (table p).priority
        · have step : prioStep table best p = ((table p).priority, true) := by
            simp [prioStep, runnable, higher]
          rw [step]
          obtain ⟨found, above, upper, attained⟩ := ih ((table p).priority, true)
            fun impossible => by cases impossible
          refine ⟨⟨fun _ => .inr ⟨p, List.mem_cons_self .., runnable⟩, fun _ => found.mpr (.inl rfl)⟩,
            Int.le_trans higher above, List.forall_mem_cons.mpr ⟨fun _ => above, upper⟩, ?_⟩
          rcases attained with same | ⟨q, member, state, same⟩
          · exact .inr ⟨p, List.mem_cons_self .., runnable, same.symm⟩
          · exact .inr ⟨q, List.mem_cons_of_mem _ member, state, same⟩
        · -- a lower priority is passed over, so something was found before
          have step : prioStep table best p = best := by simp [prioStep, runnable, higher]
          have earlier : best.2 = true := by
            by_contra missing
            have low := start (Bool.eq_false_of_not_eq_true missing)
            exact higher (Int.le_trans low (bounded p))
          rw [step]
          obtain ⟨found, above, upper, attained⟩ := ih best start
          refine ⟨⟨fun _ => .inl earlier, fun _ => found.mpr (.inl earlier)⟩, above,
            List.forall_mem_cons.mpr ⟨fun _ => ?_, upper⟩, ?_⟩
          · exact Int.le_trans (Int.le_of_lt (Int.not_le.mp higher)) above
          · rcases attained with same | ⟨q, member, state, same⟩
            · exact .inl same
            · exact .inr ⟨q, List.mem_cons_of_mem _ member, state, same⟩
      · have step : prioStep table best p = best := by simp [prioStep, runnable]
        rw [step]
        obtain ⟨found, above, upper, attained⟩ := ih best start
        refine ⟨?_, above, List.forall_mem_cons.mpr ⟨fun run => absurd run runnable, upper⟩, ?_⟩
        · rw [found]
          constructor
          · rintro (earlier | ⟨q, member, state⟩)
            · exact .inl earlier
            · exact .inr ⟨q, List.mem_cons_of_mem _ member, state⟩
          · rintro (earlier | ⟨q, member, state⟩)
            · exact .inl earlier
            · rcases List.mem_cons.mp member with rfl | member
              · exact absurd state runnable
              · exact .inr ⟨q, member, state⟩
        · rcases attained with same | ⟨q, member, state, same⟩
          · exact .inl same
          · exact .inr ⟨q, List.mem_cons_of_mem _ member, state, same⟩

theorem highestPrio_scanned (bounded : ∀ p, lowprio ≤ (table p).priority) :
    Scanned table (List.finRange nproc) (lowprio - 1, false) (highestPrio table) :=
  foldl_prioStep bounded _ _ fun _ => by decide

/-- The half scans look for exactly the processes of top priority. -/
theorem wanted_iff (bounded : ∀ p, lowprio ≤ (table p).priority) (p : Slot) :
    ((table p).state = .runnable && (table p).priority = (highestPrio table).1 : Bool) = true ↔
      TopPriority table p := by
  obtain ⟨_, _, upper, attained⟩ := highestPrio_scanned bounded
  rw [Bool.and_eq_true, decide_eq_true_eq, decide_eq_true_eq]
  constructor
  · rintro ⟨runnable, highest⟩
    refine ⟨runnable, fun q state => ?_⟩
    rw [highest]
    exact upper q (List.mem_finRange q) state
  · rintro ⟨runnable, top⟩
    refine ⟨runnable, Int.le_antisymm (upper p (List.mem_finRange p) runnable) ?_⟩
    rcases attained with same | ⟨q, _, state, same⟩
    · have low := bounded p
      rw [same]
      omega
    · rw [← same]
      exact top q state

theorem choose_eq_none_iff (bounded : ∀ p, lowprio ≤ (table p).priority) (cur : Slot) :
    choose table cur = none ↔ ∀ q, (table q).state ≠ .runnable := by
  have scanned := highestPrio_scanned bounded
  unfold choose
  constructor
  · intro missed q runnable
    have found : (highestPrio table).2 = true :=
      scanned.found.mpr (.inr ⟨q, List.mem_finRange q, runnable⟩)
    rw [if_pos found] at missed
    have none := scanFrom_eq_none_iff.mp missed
    rcases scanned.attained with same | ⟨r, _, state, same⟩
    · have upper := scanned.upper q (List.mem_finRange q) runnable
      have low := bounded q
      rw [same] at upper
      omega
    · have wanted := none r
      simp [state, same] at wanted
  · intro idle
    rw [if_neg]
    intro found
    rcases scanned.found.mp found with impossible | ⟨q, _, runnable⟩
    · cases impossible
    · exact idle q runnable

/-- The chosen process is the first one of top priority, in cyclic order from the cursor. -/
theorem choose_eq_some (bounded : ∀ p, lowprio ≤ (table p).priority) {cur p : Slot}
    (chosen : choose table cur = some p) :
    TopPriority table p ∧ ∀ q, TopPriority table q → gap cur p ≤ gap cur q := by
  unfold choose at chosen
  split at chosen
  · obtain ⟨wanted, nearest⟩ := scanFrom_eq_some chosen
    exact ⟨(wanted_iff bounded p).mp wanted, fun q top => nearest q ((wanted_iff bounded q).mpr top)⟩
  · cases chosen

/-- A process that alone is runnable is chosen from every cursor. -/
theorem choose_only (bounded : ∀ p, lowprio ≤ (table p).priority) (cur : Slot) {p : Slot}
    (runnable : (table p).state = .runnable)
    (only : ∀ q, (table q).state = .runnable → q = p) : choose table cur = some p := by
  cases chosen : choose table cur with
  | none => exact absurd runnable ((choose_eq_none_iff bounded cur).mp chosen p)
  | some q => rw [only q (choose_eq_some bounded chosen).1.1]

end Choose

/-! ## A round always succeeds -/

section Succeeds

variable {ld : Linkage} {s : Kernel} {c : Fin ncpu} {p : Slot}

theorem zombie_reaped (inv : Inv ld s) {q : Slot} (zombie : (s.proc q).state = .zombie) :
    ∃ outcome s', reap ld s q = .ok (outcome, s') := by
  obtain ⟨km, ran, _⟩ := reap_succeeds inv.memory ((inv.states q).zombie zombie)
  exact ⟨_, _, ran⟩

theorem wait_succeeds (inv : Inv ld s) (c : Fin ncpu) (p : Slot) :
    ∃ outcome s', wait ld s c p = .ok (outcome, s') := by
  unfold wait
  cases found : s.first fun pr => pr.parent = some p ∧ pr.state = .zombie with
  | some q =>
      have zombie := (Kernel.first_eq_some found).1
      rw [decide_eq_true_eq] at zombie
      exact zombie_reaped inv zombie.2
  | none =>
      simp only
      split
      · exact ⟨_, _, rfl⟩
      · exact ⟨_, _, rfl⟩

theorem waitpid_succeeds (inv : Inv ld s) (c : Fin ncpu) (p : Slot) (pid : Int) :
    ∃ outcome s', waitpid ld s c p pid = .ok (outcome, s') := by
  unfold waitpid
  cases s.first fun pr => pr.pid = pid with
  | none => exact ⟨_, _, rfl⟩
  | some q =>
      simp only
      split
      · next zombie => exact zombie_reaped inv zombie
      · split
        · exact ⟨_, _, rfl⟩
        · exact ⟨_, _, rfl⟩

theorem resume_succeeds (inv : Inv ld s) (idle : (s.cpu c).proc = none)
    (runnable : (s.proc p).state = .runnable) :
    ∃ outcome s', resume ld (dispatch s c p) c p = .ok (outcome, s') := by
  have entered := inv.enter idle runnable
  unfold resume
  cases (dispatch s c p).thread p |>.resume with
  | forkret => exact ⟨_, _, rfl⟩
  | yield => exact ⟨_, _, rfl⟩
  | sleep => exact ⟨_, _, rfl⟩
  | wait =>
      obtain ⟨outcome, s', ran⟩ := wait_succeeds entered c p
      exact ⟨some outcome, s', Kern.bind_eq_ok.mpr ⟨_, ran, rfl⟩⟩
  | waitpid pid =>
      obtain ⟨outcome, s', ran⟩ := waitpid_succeeds entered c p pid
      exact ⟨some outcome, s', Kern.bind_eq_ok.mpr ⟨_, ran, rfl⟩⟩

/-- The process to be dispatched has a kernel stack and an address space. -/
theorem switchuvm_succeeds {pr : Proc} (equipped : Equipped pr) : switchuvm pr = .ok () := by
  obtain ⟨kstack, stack⟩ := Option.isSome_iff_exists.mp equipped.kstack
  obtain ⟨d, own⟩ := Option.isSome_iff_exists.mp equipped.pgdir
  simp [switchuvm, stack, own]

/-- A scheduler round does not stop the machine. -/
theorem scheduler_succeeds (inv : Inv ld s) (idle : (s.cpu c).proc = none) :
    ∃ outcome s', scheduler ld s c = .ok (choose s.proc (s.cpu c).cur, outcome, s') := by
  unfold scheduler
  cases chosen : choose s.proc (s.cpu c).cur with
  | none => exact ⟨none, s, rfl⟩
  | some p =>
      have runnable := choose_runnable chosen
      obtain ⟨outcome, s', ran⟩ := resume_succeeds inv idle runnable
      refine ⟨outcome, s', Kern.bind_eq_ok.mpr ⟨(), ?_, Kern.bind_eq_ok.mpr ⟨_, ran, rfl⟩⟩⟩
      exact switchuvm_succeeds ((inv.states p).runnable runnable).1

/-- A chosen process that was not asleep is entered. -/
theorem step_round_chosen (inv : Inv ld s) (idle : (s.cpu c).proc = none)
    (chosen : choose s.proc (s.cpu c).cur = some p)
    (awake : (s.thread p).resume = .forkret ∨ (s.thread p).resume = .yield) :
    Step ld s (.round c (some p) none) (dispatch s c p) := by
  refine .round idle ?_
  unfold scheduler
  rw [chosen]
  refine Kern.bind_eq_ok.mpr ⟨(), ?_, Kern.bind_eq_ok.mpr ⟨(none, dispatch s c p), ?_, rfl⟩⟩
  · exact switchuvm_succeeds ((inv.states p).runnable (choose_runnable chosen)).1
  · unfold resume
    rw [dispatch_thread]
    rcases awake with call | call
    · rw [call]
    · rw [call]

/-- A process that alone is runnable, and was not asleep, is entered by the next round. -/
theorem step_round_only (inv : Inv ld s) (idle : (s.cpu c).proc = none)
    (runnable : (s.proc p).state = .runnable)
    (only : ∀ q, (s.proc q).state = .runnable → q = p)
    (awake : (s.thread p).resume = .forkret ∨ (s.thread p).resume = .yield) :
    Step ld s (.round c (some p) none) (dispatch s c p) :=
  step_round_chosen inv idle
    (choose_only (fun q => (inv.bounded q).low) (s.cpu c).cur runnable only) awake

end Succeeds

end SlabStudy.Xv6
