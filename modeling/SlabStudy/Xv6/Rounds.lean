import SlabStudy.Xv6.Fork

/-!
# Rounds of one CPU

The cursor of a CPU moves behind the process that a round has dispatched, at
the moment when that process gives the CPU back.  Until the next round no
other step moves it.  Each round that passes over a process of top priority
therefore brings the cursor nearer to it.
-/

namespace SlabStudy.Xv6

open Library

variable {ld : Linkage} {s s' : Kernel} {c : Fin ncpu} {p q : Slot}

/-! ## How a step moves the cursors -/

/-- The CPUs after a call of `sched` on CPU `c`, if there was one. -/
def MayLeave (s s' : Kernel) (c : Fin ncpu) : Prop :=
  s'.cpu = s.cpu ∨
    ((s.cpu c).proc.isSome = true ∧
      s'.cpu = Function.update s.cpu c ⟨none, nextSlot (s.cpu c).cur⟩)

theorem reap_cpu {outcome : Outcome} (ran : reap ld s q = .ok (outcome, s')) :
    s'.cpu = s.cpu := by
  unfold reap at ran
  split at ran
  · cases ran
  · obtain ⟨km, _, tail⟩ := Kern.bind_eq_ok.mp ran
    obtain ⟨km', _, last⟩ := Kern.bind_eq_ok.mp tail
    cases last
    rfl

theorem wait_cpu (busy : (s.cpu c).proc = some p) {outcome : Outcome}
    (ran : wait ld s c p = .ok (outcome, s')) : MayLeave s s' c := by
  rcases wait_cases ran with ⟨q, _, _, reaped⟩ | ⟨_, rfl⟩ | ⟨_, rfl, _⟩
  · exact .inl (reap_cpu reaped)
  · exact .inl rfl
  · exact .inr ⟨by rw [busy]; rfl, rfl⟩

theorem waitpid_cpu (busy : (s.cpu c).proc = some p) {pid : Int} {outcome : Outcome}
    (ran : waitpid ld s c p pid = .ok (outcome, s')) : MayLeave s s' c := by
  rcases waitpid_cases ran with ⟨q, _, _, reaped⟩ | ⟨_, rfl⟩ | ⟨_, q, _, _, _, rfl⟩
  · exact .inl (reap_cpu reaped)
  · exact .inl rfl
  · exact .inr ⟨by rw [busy]; rfl, rfl⟩

theorem growproc_cpu {d : Pgdir} {n value : Int} (own : (s.proc p).pgdir = some d)
    (ran : growproc ld s p n = .ok (value, s')) : s'.cpu = s.cpu := by
  rcases growproc_eq_ok own ran with
    ⟨_, result, km, d', _, resized⟩ | ⟨_, result, km, d', _, resized⟩ | ⟨_, _, rfl⟩
  · rcases growprocResize_eq_ok resized with ⟨_, _, rfl⟩ | ⟨_, _, rfl⟩
    · rfl
    · rfl
  · rcases growprocResize_eq_ok resized with ⟨_, _, rfl⟩ | ⟨_, _, rfl⟩
    · rfl
    · rfl
  · rfl

/-- A round enters the chosen process, which may leave again before the lock is free. -/
theorem scheduler_cpu (inv : Inv ld s) {chosen : Option Slot} {outcome : Option Outcome}
    (ran : scheduler ld s c = .ok (chosen, outcome, s')) :
    (chosen = none ∧ s' = s) ∨
      ∃ p, chosen = some p ∧ (s'.cpu = Function.update s.cpu c ⟨some p, p⟩ ∨
        s'.cpu = Function.update s.cpu c ⟨none, nextSlot p⟩) := by
  obtain ⟨found, ⟨rfl, _, rfl⟩ | ⟨p, rfl, resumed⟩⟩ := scheduler_eq_ok ran
  · exact .inl ⟨rfl, rfl⟩
  · refine .inr ⟨p, rfl, ?_⟩
    have entered : (sleepTidy (dispatch s c p) p).cpu = Function.update s.cpu c ⟨some p, p⟩ := rfl
    have busy : ((sleepTidy (dispatch s c p) p).cpu c).proc = some p := by
      rw [entered, Function.update_self]
    have leaves : MayLeave (sleepTidy (dispatch s c p) p) s' c := by
      rcases resume_cases inv (choose_runnable found.symm) resumed with
        ⟨_, rfl⟩ | ⟨_, ended, _, waited⟩ | ⟨pid, _, ended, _, waited⟩
      · exact .inl rfl
      · exact wait_cpu busy waited
      · exact waitpid_cpu busy waited
    rcases leaves with same | ⟨_, left⟩
    · exact .inl (same.trans entered)
    · rw [entered, Function.update_self, Function.update_idem] at left
      exact .inr left

/-- Iterations of the scheduler of CPU `c`. -/
def Label.isRound (c : Fin ncpu) : Label → Bool
  | .round c' _ _ => c' = c
  | _ => false

/-- Other steps than its own rounds let a CPU be, or end the turn of its process. -/
theorem step_cpu {label : Label} (inv : Inv ld s) (step : Step ld s label s')
    (other : label.isRound c = false) :
    s'.cpu c = s.cpu c ∨
      ((s.cpu c).proc.isSome = true ∧ s'.cpu c = ⟨none, nextSlot (s.cpu c).cur⟩) := by
  have leave : ∀ {c'}, MayLeave s s' c' → s'.cpu c = s.cpu c ∨
      ((s.cpu c).proc.isSome = true ∧ s'.cpu c = ⟨none, nextSlot (s.cpu c).cur⟩) := by
    rintro c' (same | ⟨busy, left⟩)
    · exact .inl (by rw [same])
    · by_cases here : c = c'
      · subst here
        exact .inr ⟨busy, by rw [left, Function.update_self]⟩
      · exact .inl (by rw [left, Function.update_of_ne here])
  cases step with
  | @round c' chosen outcome s' idle ran =>
      have apart : c ≠ c' := fun same => of_decide_eq_false other same.symm
      rcases scheduler_cpu inv ran with ⟨_, rfl⟩ | ⟨p, _, entered | left⟩
      · exact .inl rfl
      · exact .inl (by rw [entered, Function.update_of_ne apart])
      · exact .inl (by rw [left, Function.update_of_ne apart])
  | claimNone free full => exact .inl rfl
  | claimSome free claimed =>
      obtain ⟨_, _, rfl⟩ := allocprocClaim_eq_some claimed
      exact .inl rfl
  | copyFails running pending ran =>
      obtain ⟨_, ⟨_, failed⟩ | ⟨impossible, _⟩⟩ := inv.copyStep running pending ran
      · exact .inl (congrFun failed.cpu c)
      · cases impossible
  | copyDone running pending ran =>
      obtain ⟨_, ⟨impossible, _⟩ | ⟨_, d, frame, child, _, done⟩⟩ :=
        inv.copyStep running pending ran
      · cases impossible
      · exact .inl (congrFun done.cpu c)
  | start running pending => exact .inl rfl
  | @exit c' p status s' free ran =>
      exact leave (.inr ⟨by rw [free.running]; rfl, (exit_exited ran).cpu⟩)
  | wait free ran => exact leave (wait_cpu free.running ran)
  | waitpid free ran => exact leave (waitpid_cpu free.running ran)
  | kill pid free => exact .inl (by rw [(kill_nudges inv.bounded pid).cpu])
  | @setpriority c' p pid priority free =>
      have same := congrFun (setpriority_nudges inv.bounded p pid priority).cpu c
      refine .inl ?_
      split
      · exact same
      · exact same
  | priorityYield running pending => exact leave (.inr ⟨by rw [running]; rfl, rfl⟩)
  | preempt running => exact leave (.inr ⟨by rw [running]; rfl, rfl⟩)
  | sleep address free => exact leave (.inr ⟨by rw [free.running]; rfl, rfl⟩)
  | wakeup address => exact .inl rfl
  | pages free apart => exact .inl rfl
  | sbrk free ran =>
      obtain ⟨_, d, _, own⟩ := inv.equipped free.running
      exact .inl (by rw [growproc_cpu own ran])
  | pgflt free ran =>
      obtain ⟨_, d, _, own⟩ := inv.equipped free.running
      rcases pgflt_eq_ok own ran with ⟨_, _, _, _, _, _, _, _, rfl⟩ | ⟨_, _, rfl⟩
      · exact .inl rfl
      · exact .inl rfl
  | exec free old conserved untouched bounded => exact .inl rfl
  | user free own stores => exact .inl rfl

/-- The cursor with which the next round of a CPU will start. -/
def Cpu.nextCursor (cpu : Cpu) : Slot := if cpu.proc.isSome then nextSlot cpu.cur else cpu.cur

theorem step_nextCursor {label : Label} (inv : Inv ld s) (step : Step ld s label s')
    (other : label.isRound c = false) : (s'.cpu c).nextCursor = (s.cpu c).nextCursor := by
  rcases step_cpu inv step other with same | ⟨busy, left⟩
  · rw [same]
  · rw [left, Cpu.nextCursor, Cpu.nextCursor, if_pos busy]
    rfl

/-- Until the next round of its CPU the cursor stays behind the dispatched process. -/
theorem run_nextCursor {labels : List Label} (inv : Inv ld s)
    (run : (system ld).Run s labels s') (others : ∀ label ∈ labels, label.isRound c = false) :
    (s'.cpu c).nextCursor = (s.cpu c).nextCursor := by
  induction run with
  | nil => rfl
  | snoc earlier next ih =>
      have before := earlier.preserves (fun inv step => inv.step step) inv
      rw [step_nextCursor before next (others _ (by simp))]
      exact ih fun label member => others label (List.mem_append_left _ member)

/-! ## One round -/

/-- A round of its CPU moves the cursor behind the chosen process. -/
theorem round_nextCursor {chosen : Option Slot} {outcome : Option Outcome} (inv : Inv ld s)
    (idle : (s.cpu c).proc = none) (ran : scheduler ld s c = .ok (chosen, outcome, s')) :
    chosen = choose s.proc (s.cpu c).nextCursor ∧
      ∀ p, chosen = some p → (s'.cpu c).nextCursor = nextSlot p := by
  have cursor : (s.cpu c).nextCursor = (s.cpu c).cur := by
    rw [Cpu.nextCursor, idle]
    rfl
  refine ⟨by rw [cursor]; exact (scheduler_eq_ok ran).1, fun p chosen => ?_⟩
  rcases scheduler_cpu inv ran with ⟨impossible, _⟩ | ⟨p', same, entered | left⟩
  · rw [chosen] at impossible
    cases impossible
  · rw [chosen] at same
    cases same
    rw [entered, Function.update_self]
    rfl
  · rw [chosen] at same
    cases same
    rw [left, Function.update_self]
    rfl

/-- The same state with another cursor. -/
def Kernel.setCursor (s : Kernel) (c : Fin ncpu) (cur : Slot) : Kernel :=
  { s with cpu := Function.update s.cpu c ⟨(s.cpu c).proc, cur⟩ }

theorem setCursor_proc (s : Kernel) (c c' : Fin ncpu) (cur : Slot) :
    ((s.setCursor c cur).cpu c').proc = (s.cpu c').proc := by
  by_cases here : c' = c
  · subst here
    simp [Kernel.setCursor]
  · simp [Kernel.setCursor, here]

/-- The cursor of an idle CPU is no part of the invariant. -/
theorem Inv.setCursor (inv : Inv ld s) (idle : (s.cpu c).proc = none) (cur : Slot) :
    Inv ld (s.setCursor c cur) := by
  refine ⟨inv.bounded, inv.states, ⟨fun {c' p} busy => ?_, fun {p} running => ?_,
    fun {c₁ c₂ p} first second => ?_⟩, ⟨inv.forks.copying, inv.forks.starting, inv.forks.distinct⟩,
    ⟨inv.waits.child, inv.waits.alive⟩, ⟨inv.init.alive, inv.init.root, inv.init.proper⟩,
    inv.memory.of_pages (Kernel.pages_congr rfl fun _ => rfl)⟩
  · rw [setCursor_proc] at busy
    have apart : c' ≠ c := by
      rintro rfl
      rw [idle] at busy
      cases busy
    have elsewhere : (s.setCursor c cur).cpu c' = s.cpu c' := Function.update_of_ne apart _ _
    rw [elsewhere]
    exact inv.cpus.current busy
  · obtain ⟨c', busy⟩ := inv.cpus.placed running
    exact ⟨c', by rw [setCursor_proc]; exact busy⟩
  · rw [setCursor_proc] at first second
    exact inv.cpus.unique first second

/--
A round with any cursor succeeds.  It dispatches a process exactly when one is
runnable; that process is the first of top priority in cyclic order, it is
entered as running, and whenever the CPU is idle again before its next round,
the cursor stands behind it.
-/
theorem scheduler_dispatches (reached : (system ld).Reachable s)
    (idle : (s.cpu c).proc = none) (cur : Slot) :
    ∃ chosen outcome s', scheduler ld (s.setCursor c cur) c = .ok (chosen, outcome, s') ∧
      (chosen.isSome = true ↔ ∃ p, (s.proc p).state = .runnable) ∧
      ∀ p, chosen = some p →
        resume ld (dispatch (s.setCursor c cur) c p) c p = .ok (outcome, s') ∧
        TopPriority s.proc p ∧ (∀ q, TopPriority s.proc q → gap cur p ≤ gap cur q) ∧
        ∀ labels t, (system ld).Run s' labels t →
          (∀ label ∈ labels, label.isRound c = false) → (t.cpu c).proc = none →
          (t.cpu c).cur.val = (p.val + 1) % nproc := by
  have inv := (Inv.reachable reached).setCursor idle cur
  have table : (s.setCursor c cur).proc = s.proc := rfl
  have still : ((s.setCursor c cur).cpu c).proc = none := by
    rw [setCursor_proc]
    exact idle
  have cursor : ((s.setCursor c cur).cpu c).cur = cur := by
    simp [Kernel.setCursor]
  have bounded : ∀ p, lowprio ≤ (s.proc p).priority := fun p => (inv.bounded p).low
  obtain ⟨outcome, s', ran⟩ := scheduler_succeeds inv still
  rw [cursor, table] at ran
  refine ⟨choose s.proc cur, outcome, s', ran, ?_, fun p chosen => ?_⟩
  · rw [← Option.ne_none_iff_isSome, Ne, choose_eq_none_iff bounded]
    push Not
    rfl
  · obtain ⟨top, nearest⟩ := choose_eq_some bounded chosen
    obtain ⟨_, ⟨missed, _⟩ | ⟨p', same, resumed⟩⟩ := scheduler_eq_ok ran
    · rw [chosen] at missed
      cases missed
    · rw [chosen] at same
      cases same
      refine ⟨resumed, top, nearest, fun labels t run others idle' => ?_⟩
      have behind := (round_nextCursor inv still ran).2 p chosen
      have kept := run_nextCursor (inv.scheduler still ran) run others
      rw [behind, Cpu.nextCursor, idle'] at kept
      rw [← val_nextSlot, ← kept]
      rfl

/-- From the last slot on, a round of the booted machine finds its first process. -/
theorem scheduler_dispatches_first : ∃ s outcome s', (system sampleLinkage).Reachable s ∧
    scheduler sampleLinkage (s.setCursor 0 63) 0 = .ok (some 0, outcome, s') := by
  obtain ⟨s, kstack, d, first, boot, _⟩ := sample_boots (Nat.zero_le _)
  have reached := System.Reachable.start first
  obtain ⟨chosen, outcome, s', ran, isSome, best⟩ :=
    scheduler_dispatches reached (by rw [boot.cpu] : (s.cpu 0).proc = none) 63
  obtain ⟨p, rfl⟩ := Option.isSome_iff_exists.mp (isSome.mpr ⟨0, by rw [boot.first]⟩)
  have runnable := (best p rfl).2.1.1
  have same : p = 0 := by
    by_contra apart
    rw [boot.others p apart] at runnable
    cases runnable
  exact ⟨s, outcome, s', reached, same ▸ ran⟩

/-! ## Many rounds -/

/-- A step that is a round of CPU `c` runs its scheduler. -/
theorem step_round {label : Label} (step : Step ld s label s') (isRound : label.isRound c = true) :
    ∃ chosen outcome, label = .round c chosen outcome ∧ (s.cpu c).proc = none ∧
      scheduler ld s c = .ok (chosen, outcome, s') := by
  cases step with
  | @round c' chosen outcome s' idle ran =>
      have same : c' = c := of_decide_eq_true isRound
      subst same
      exact ⟨chosen, outcome, rfl, idle, ran⟩
  | _ => cases isRound

/-- Number of rounds of CPU `c` among the labels of a run. -/
def roundsOf (c : Fin ncpu) (labels : List Label) : Nat := labels.countP (Label.isRound c)

/-- While process `q` is passed over, the cursor comes nearer to it in every round. -/
theorem passed_over {labels : List Label} (inv : Inv ld s)
    (run : ((system ld).guarded fun t label =>
      label.isRound c = true → TopPriority t.proc q).Run s labels s')
    (passed : ∀ outcome, Label.round c (some q) outcome ∉ labels) :
    gap (s'.cpu c).nextCursor q + roundsOf c labels ≤ gap (s.cpu c).nextCursor q := by
  induction run with
  | nil => exact Nat.le_refl _
  | @snoc t t' labels label earlier next ih =>
      obtain ⟨guard, step⟩ := next
      have before := earlier.ofGuarded.preserves (fun inv step => inv.step step) inv
      have nearer := ih fun outcome member => passed outcome (List.mem_append_left _ member)
      have total : roundsOf c (labels ++ [label]) =
          roundsOf c labels + if label.isRound c = true then 1 else 0 := by
        simp [roundsOf, List.countP_append, List.countP_cons]
      rw [total]
      by_cases isRound : label.isRound c = true
      · rw [if_pos isRound]
        have top := guard isRound
        have bounded : ∀ p, lowprio ≤ (t.proc p).priority := fun p => (before.bounded p).low
        obtain ⟨chosen, outcome, rfl, idle, ran⟩ := step_round step isRound
        obtain ⟨found, moved⟩ := round_nextCursor before idle ran
        cases chosen with
        | none => exact absurd top.1 ((choose_eq_none_iff bounded _).mp found.symm q)
        | some p =>
            have nearest := (choose_eq_some bounded found.symm).2 q top
            have other : p ≠ q := by
              rintro rfl
              exact passed outcome (by simp)
            have closer := gap_nextSlot_lt_of_nearest nearest other
            rw [moved p rfl]
            omega
      · rw [if_neg isRound, step_nextCursor before step (Bool.eq_false_of_not_eq_true isRound)]
        exact nearer

/--
In every run with `NPROC` rounds of one CPU, at the start of each of which `q`
is runnable and of top priority, one of these rounds dispatches `q`.
-/
theorem no_starvation {labels : List Label} (reached : (system ld).Reachable s)
    (run : ((system ld).guarded fun t label =>
      label.isRound c = true → TopPriority t.proc q).Run s labels s')
    (enough : nproc ≤ roundsOf c labels) :
    ∃ outcome, Label.round c (some q) outcome ∈ labels := by
  by_contra passed
  push Not at passed
  have shrunk := passed_over (Inv.reachable reached) run passed
  have bound := gap_lt (s.cpu c).nextCursor q
  omega

/-- CPU 0 is idle, and two processes of the same priority wait for their next turns. -/
structure Sharing (s : Kernel) : Prop where
  inv : Inv sampleLinkage s
  idle : (s.cpu 0).proc = none
  runnable : ∀ q, (s.proc q).state = .runnable ↔ q = 0 ∨ q = 1
  equal : ∀ q, q = 0 ∨ q = 1 → (s.proc q).priority = 0
  awake : ∀ q, q = 0 ∨ q = 1 → (s.thread q).resume = .forkret ∨ (s.thread q).resume = .yield

/-- Both are of top priority. -/
theorem Sharing.top (share : Sharing s) (one : q = 0 ∨ q = 1) : TopPriority s.proc q := by
  refine ⟨(share.runnable q).mpr one, fun r runnable => ?_⟩
  rw [share.equal q one, share.equal r ((share.runnable r).mp runnable)]

/-- One of them runs until the next clock interrupt. -/
theorem Sharing.turn (share : Sharing s) : ∃ p,
    Step sampleLinkage s (.round 0 (some p) none) (dispatch s 0 p) ∧
      Step sampleLinkage (dispatch s 0 p) (.yield p) (yield (dispatch s 0 p) 0 p) ∧
      Sharing (yield (dispatch s 0 p) 0 p) := by
  have bounded (q : Slot) : lowprio ≤ (s.proc q).priority := (share.inv.bounded q).low
  cases chosen : choose s.proc (s.cpu 0).cur with
  | none =>
      exact absurd ((share.runnable 0).mpr (.inl rfl))
        ((choose_eq_none_iff bounded (s.cpu 0).cur).mp chosen 0)
  | some p =>
      have one : p = 0 ∨ p = 1 := (share.runnable p).mp (choose_runnable chosen)
      have round := step_round_chosen share.inv share.idle chosen (share.awake p one)
      have busy : ((dispatch s 0 p).cpu 0).proc = some p := by
        rw [dispatch_cpu, Function.update_self]
      have left : Step sampleLinkage (dispatch s 0 p) (.yield p) (yield (dispatch s 0 p) 0 p) :=
        .preempt busy
      refine ⟨p, round, left, (share.inv.step round).step left, ?_, fun q => ?_, fun q both => ?_,
        fun q both => ?_⟩
      · simp [yield, sched]
      · rw [← share.runnable q]
        by_cases self : q = p
        · simp [self, yield, sched, Kernel.modify, (share.runnable p).mpr one]
        · simp [self, yield, sched, Kernel.modify, dispatch]
      · rw [← share.equal q both]
        by_cases self : q = p
        · simp [self, yield, sched, Kernel.modify, dispatch]
        · simp [self, yield, sched, Kernel.modify, dispatch]
      · by_cases self : q = p
        · simp [self, yield, sched, Kernel.setThread]
        · simpa [self, yield, sched, Kernel.setThread, Kernel.modify, dispatch] using
            share.awake q both

/-- They take any number of turns. -/
theorem Sharing.turns (share : Sharing s) (n : Nat) :
    ∃ labels s', ((system sampleLinkage).guarded fun t label =>
        label.isRound 0 = true → ∀ q, q = 0 ∨ q = 1 → TopPriority t.proc q).Run s labels s' ∧
      roundsOf 0 labels = n ∧ Sharing s' := by
  induction n with
  | zero => exact ⟨[], s, .nil s, rfl, share⟩
  | succ n ih =>
      obtain ⟨labels, t, run, count, sharing⟩ := ih
      obtain ⟨p, round, left, again⟩ := sharing.turn
      refine ⟨_, _, .snoc (.snoc run ⟨fun _ _ => sharing.top, round⟩) ⟨fun isRound => ?_, left⟩,
        ?_, again⟩
      · cases isRound
      · simp only [roundsOf, List.countP_append] at count ⊢
        rw [count]
        rfl

/-- In 64 turns of two processes of the same priority, each of them gets one. -/
theorem no_starvation_first : ∃ s labels s', (system sampleLinkage).Reachable s ∧
    (system sampleLinkage).Run s labels s' ∧ roundsOf 0 labels = nproc ∧
      (∃ outcome, Label.round 0 (some 0) outcome ∈ labels) ∧
      ∃ outcome, Label.round 0 (some 1) outcome ∈ labels := by
  obtain ⟨s, kstack, d, first, boot, layout, enough⟩ := sample_boots (by decide : 100 ≤ 0x800)
  have started := boot.started (sampleKmem_free (by decide)) first layout enough
  obtain ⟨u, child, frame, ran, forked⟩ := started.forks (by decide) (by decide)
  obtain ⟨quiet, free⟩ := started.afterFork ran forked
  have left : Step sampleLinkage u (.yield 0) (yield u 0 0) := .preempt free.running
  have reached := quiet.ofGuarded.step left
  have share : Sharing (yield u 0 0) := by
    refine ⟨Inv.reachable reached, ?_, fun q => ?_, ?_, ?_⟩
    · simp [yield, sched]
    · by_cases parent : q = 0
      · simp [parent, yield, sched, Kernel.modify]
      by_cases isChild : q = 1
      · simp [isChild, yield, sched, Kernel.modify, forked.proc]
      · simp [parent, isChild, yield, sched, Kernel.modify, forked.others q isChild,
          started.others q parent, Proc.zero]
    · rintro q (rfl | rfl)
      · simp [yield, sched, Kernel.modify, forked.others 0 (by decide), dispatch, boot.first,
          Proc.zero]
      · simp [yield, sched, Kernel.modify, forked.proc]
    · rintro q (rfl | rfl)
      · simp [yield, sched, Kernel.setThread]
      · simp [yield, sched, Kernel.setThread, Kernel.modify, forked.thread]
  obtain ⟨labels, s', run, count, _⟩ := share.turns nproc
  have turn (q : Slot) (both : q = 0 ∨ q = 1) :
      ∃ outcome, Label.round 0 (some q) outcome ∈ labels :=
    no_starvation reached (run.weaken fun _ _ top isRound => top isRound q both)
      (Nat.le_of_eq count.symm)
  exact ⟨_, labels, s', reached, run.ofGuarded, count, turn 0 (.inl rfl), turn 1 (.inr rfl)⟩

end SlabStudy.Xv6
