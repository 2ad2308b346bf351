import SlabStudy.Xv6.Delivery
import SlabStudy.Xv6.Fetch

/-!
# What getpriority reports

A record of every run says which priority was set last for each pid since the
process was forked.  The process table holds this priority, but `getpriority`
assigns to its pointer parameter instead of storing through it, and the word
that the caller has passed the address of keeps what it held.
-/

namespace SlabStudy.Xv6

open Library

variable {ld : Linkage} {s s' : Kernel} {label : Label} {labels : List Label}

/-! ## sysproc.c -/

/-- The pid that a call by `p` means, 0 being the caller. -/
def target (s : Kernel) (p : Slot) (pid : Int) : Int := if pid = 0 then (s.proc p).pid else pid

/-- `getpriority(pid, priority)`: the pointer to the field is assigned to the parameter. -/
def getpriorityTo (s : Kernel) (p : Slot) (pid : Int) (_priority : Nat) : Int × Kernel :=
  (getpriority s p pid, s)

def sysGetpriority (ld : Linkage) (s : Kernel) (p : Slot) : Kern (Int × Kernel) := do
  let (pid, s) ← argint ld s p 0
  match pid with
  | none => return (-1, s)
  | some pid => do
      let (priority, s) ← argptr ld s p 1 4
      match priority with
      | none => return (-1, s)
      | some priority => return getpriorityTo s p (int pid) priority

def sysSetpriority (ld : Linkage) (s : Kernel) (p : Slot) : Kern (Int × Kernel) := do
  let (pid, s) ← argint ld s p 0
  match pid with
  | none => return (-1, s)
  | some pid => do
      let (priority, s) ← argint ld s p 1
      match priority with
      | none => return (-1, s)
      | some priority => return setpriority s p (int pid) (int priority)

/-- The `int` at an address of the process's memory. -/
def Kernel.intAt (s : Kernel) (p : Slot) (addr : Nat) : Int :=
  match (s.proc p).pgdir with
  | some d => int (wordAt s.kmem d addr)
  | none => 0

/-! ## The record of a run -/

/-- The priorities set last, by pid; a `fork` sets that of the child to 0. -/
def Label.record (s : Kernel) (record : Int → Int) : Label → Int → Int
  | .start _ np => Function.update record (s.proc np).pid 0
  | .setpriority p pid priority 0 => Function.update record (target s p pid) priority
  | _ => record

/-- The kernel together with the record. -/
def recording (ld : Linkage) : System (Kernel × (Int → Int)) Label where
  initial s := (system ld).initial s.1 ∧ s.2 = fun _ => 0
  step s label s' := Step ld s.1 label s'.1 ∧ s'.2 = label.record s.1 s.2

theorem recording_run {first last : Kernel × (Int → Int)}
    (run : (recording ld).Run first labels last) : (system ld).Run first.1 labels last.1 := by
  induction run with
  | nil => exact .nil _
  | snoc _ next ih => exact ih.snoc next.1

/-! ## Steps that leave the priorities alone -/

/-- No entry gets another priority. -/
def SamePriorities (s s' : Kernel) : Prop := ∀ q, (s'.proc q).priority = (s.proc q).priority

theorem SamePriorities.trans {t : Kernel} (first : SamePriorities s t)
    (second : SamePriorities t s') : SamePriorities s s' := fun q => (second q).trans (first q)

theorem SamePriorities.ofOthers (np : Slot) (self : (s'.proc np).priority = (s.proc np).priority)
    (others : ∀ q, q ≠ np → s'.proc q = s.proc q) : SamePriorities s s' := by
  intro q
  by_cases here : q = np
  · rw [here]
    exact self
  · rw [others q here]

/-- One entry is replaced by one of the same priority. -/
theorem SamePriorities.update {p : Slot} {pr : Proc}
    (table : s'.proc = Function.update s.proc p pr)
    (same : pr.priority = (s.proc p).priority) : SamePriorities s s' := by
  refine .ofOthers p ?_ fun q other => ?_
  · rw [table, Function.update_self]
    exact same
  · rw [table, Function.update_of_ne other]

section Kept

variable {c : Fin ncpu} {p : Slot}

theorem reap_samePriorities {q : Slot} {outcome : Outcome}
    (ran : reap ld s q = .ok (outcome, s')) : SamePriorities s s' := by
  unfold reap at ran
  split at ran
  · cases ran
  · obtain ⟨km, _, ran⟩ := Kern.bind_eq_ok.mp ran
    obtain ⟨km', _, ran⟩ := Kern.bind_eq_ok.mp ran
    cases ran
    exact .update rfl rfl

theorem wait_samePriorities {outcome : Outcome} (ran : wait ld s c p = .ok (outcome, s')) :
    SamePriorities s s' := by
  rcases wait_cases ran with ⟨q, _, _, reaped⟩ | ⟨_, rfl⟩ | ⟨_, rfl, _⟩
  · exact reap_samePriorities reaped
  · exact fun _ => rfl
  · exact .update rfl rfl

theorem waitpid_samePriorities {pid : Int} {outcome : Outcome}
    (ran : waitpid ld s c p pid = .ok (outcome, s')) : SamePriorities s s' := by
  rcases waitpid_cases ran with ⟨q, _, _, reaped⟩ | ⟨_, rfl⟩ | ⟨_, q, _, _, _, rfl⟩
  · exact reap_samePriorities reaped
  · exact fun _ => rfl
  · exact .update rfl rfl

theorem round_samePriorities {chosen : Option Slot} {outcome : Option Outcome} (inv : Inv ld s)
    (ran : scheduler ld s c = .ok (chosen, outcome, s')) : SamePriorities s s' := by
  obtain ⟨found, ⟨_, _, rfl⟩ | ⟨p, rfl, resumed⟩⟩ := scheduler_eq_ok ran
  · exact fun _ => rfl
  · have entered : SamePriorities s (sleepTidy (dispatch s c p) p) :=
      SamePriorities.trans (t := dispatch s c p) (.update rfl rfl) (.update rfl rfl)
    rcases resume_cases inv (choose_runnable found.symm) resumed with
      ⟨_, rfl⟩ | ⟨_, _, _, waited⟩ | ⟨_, _, _, _, waited⟩
    · exact entered
    · exact entered.trans (wait_samePriorities waited)
    · exact entered.trans (waitpid_samePriorities waited)

theorem exit_samePriorities {status : Int} (ran : exit s c p status = .ok s') :
    SamePriorities s s' := by
  have exited := exit_exited ran
  intro q
  by_cases here : q = p
  · rw [here, exited.self]
  · obtain ⟨_, same, _⟩ := exited.others q here
    rw [same]

theorem growproc_samePriorities {n value : Int} {d : Pgdir} (own : (s.proc p).pgdir = some d)
    (ran : growproc ld s p n = .ok (value, s')) : SamePriorities s s' := by
  have resize {result : Nat} {km : Kmem} {d : Pgdir}
      (ended : growprocResize s p (result, km, d) = .ok (value, s')) : SamePriorities s s' := by
    rcases growprocResize_eq_ok ended with ⟨_, _, rfl⟩ | ⟨_, _, rfl⟩
    · exact .update rfl rfl
    · exact .update rfl rfl
  rcases growproc_eq_ok own ran with ⟨_, _, _, _, _, ended⟩ | ⟨_, _, _, _, _, ended⟩ | ⟨_, _, rfl⟩
  · exact resize ended
  · exact resize ended
  · exact fun _ => rfl

/-- Only the last part of a `fork` and `setpriority` give a priority to an entry. -/
theorem step_samePriorities (inv : Inv ld s) (step : Step ld s label s')
    (notStart : ∀ p np, label ≠ .start p np)
    (notSet : ∀ p pid priority value, label ≠ .setpriority p pid priority value) :
    SamePriorities s s' := by
  cases step with
  | round idle ran => exact round_samePriorities inv ran
  | claimNone => exact fun _ => rfl
  | claimSome free claim =>
      have claimed := allocprocClaim_claimed claim
      exact .ofOthers _ (congrArg Proc.priority claimed.proc :) claimed.others
  | copyFails busy pending ran =>
      obtain ⟨_, ⟨_, failed⟩ | ⟨impossible, _⟩⟩ := inv.copyStep busy pending ran
      · obtain ⟨pgdir, result⟩ := failed.proc
        exact .ofOthers _ (congrArg Proc.priority result :) failed.others
      · cases impossible
  | copyDone busy pending ran =>
      obtain ⟨_, ⟨impossible, _⟩ | ⟨_, d, frame, child, _, done⟩⟩ := inv.copyStep busy pending ran
      · cases impossible
      · exact .ofOthers _ (congrArg Proc.priority done.proc :) done.others
  | start => exact absurd rfl (notStart _ _)
  | exit free ran => exact exit_samePriorities ran
  | wait free ran => exact wait_samePriorities ran
  | waitpid free ran => exact waitpid_samePriorities ran
  | kill pid free =>
      unfold kill
      split
      · exact fun _ => rfl
      · exact .update rfl rfl
  | setpriority => exact absurd rfl (notSet _ _ _ _)
  | priorityYield => exact .update rfl rfl
  | preempt => exact .update rfl rfl
  | sleep => exact .update rfl rfl
  | wakeup address =>
      intro q
      obtain ⟨_, same, _⟩ := wakeup1_fields (some (.other address)) s.proc q
      change (wakeup1 _ s.proc q).priority = _
      rw [same]
  | pages => exact fun _ => rfl
  | sbrk free ran =>
      obtain ⟨_, d, _, own⟩ := inv.equipped free.running
      exact growproc_samePriorities own ran
  | pgflt free ran =>
      obtain ⟨_, d, _, own⟩ := inv.equipped free.running
      rcases pgflt_eq_ok own ran with ⟨_, _, _, km, _, _, _, _, rfl⟩ | ⟨_, _, rfl⟩
      · exact .update rfl rfl
      · exact .update rfl rfl
  | exec => exact .update rfl rfl
  | user => exact .update rfl rfl

end Kept

/-! ## Pids -/

/-- No two entries have a pid in common, other than that of an empty slot. -/
structure PidsApart (s : Kernel) : Prop where
  below : ∀ q, (s.proc q).pid < s.nextpid
  apart : ∀ q r, (s.proc q).pid = (s.proc r).pid → (s.proc q).pid ≠ 0 → q = r

/-- Where the pid of an entry comes from. -/
theorem Entry.pid_cases {z : Option Slot} {q : Slot} {old new : Proc}
    (entry : Entry s label z q old new) :
    new.pid = old.pid ∨ new.pid = 0 ∨
      (label.claims = true ∧ label.subject = some q ∧ new.pid = s.nextpid) := by
  cases entry with
  | same kept _ _ => exact .inl kept.pid
  | claimed p label_eq _ result =>
      rw [label_eq, result]
      exact .inr (.inr ⟨rfl, rfl, rfl⟩)
  | copied _ _ _ _ pid _ => exact .inl pid
  | failed _ _ _ _ pid => exact .inl pid
  | started _ _ _ result =>
      rw [result]
      exact .inl rfl
  | exited _ _ _ _ _ pid _ => exact .inl pid
  | orphaned _ _ _ _ _ _ pid _ _ => exact .inl pid
  | reaped _ _ result =>
      rw [result]
      exact .inr (.inl rfl)

theorem PidsApart.step {z : Option Slot} (pids : PidsApart s) (effect : Effect s s' label z)
    (positive : 0 < s.nextpid) (counts : label.claims = true → s'.nextpid = s.nextpid + 1) :
    PidsApart s' := by
  have grows : s.nextpid ≤ s'.nextpid := by
    cases allots : label.claims with
    | true =>
        have next := counts allots
        omega
    | false =>
        have same := effect.nextpid
        rw [allots] at same
        exact same.ge
  constructor
  · intro q
    have before := pids.below q
    rcases (effect.entry q).pid_cases with same | zero | ⟨allots, _, new⟩
    · omega
    · omega
    · have next := counts allots
      omega
  · intro q r equal nonzero
    have left := pids.below q
    have right := pids.below r
    rcases (effect.entry q).pid_cases with same | zero | ⟨_, here, new⟩
    · rcases (effect.entry r).pid_cases with same' | zero | ⟨_, _, new⟩
      · exact pids.apart q r (by omega) (by omega)
      · omega
      · omega
    · exact absurd zero nonzero
    · rcases (effect.entry r).pid_cases with same | zero | ⟨_, here', _⟩
      · omega
      · omega
      · rw [here] at here'
        exact Option.some.inj here'

theorem Books.pid_pos (books : Books labels s) {q : Slot} (used : (s.proc q).state ≠ .unused) :
    0 < (s.proc q).pid := by
  refine (books.range _ (Multiset.mem_add.mpr (.inr (Multiset.mem_sum.mpr
    ⟨q, Finset.mem_univ _, ?_⟩)))).1
  rw [Proc.livePid, if_neg used]
  exact Multiset.mem_singleton_self _

/-! ## The record is right -/

/-- The process has been forked, and has not been reaped. -/
def Begun (pr : Proc) : Prop := pr.state ≠ .unused ∧ pr.state ≠ .embryo

theorem Alive.begun {pr : Proc} (alive : Alive pr) : Begun pr := by
  unfold Begun
  rcases alive with state | state | state
  · rw [state]
    exact ⟨nofun, nofun⟩
  · rw [state]
    exact ⟨nofun, nofun⟩
  · rw [state]
    exact ⟨nofun, nofun⟩

/-- The table holds the recorded priorities. -/
def Recorded (s : Kernel) (record : Int → Int) : Prop :=
  ∀ q, Begun (s.proc q) → (s.proc q).priority = record (s.proc q).pid

/-- Outside of `fork` a process that is there was there before. -/
theorem Entry.begun {z : Option Slot} {q : Slot} {old new : Proc}
    (entry : Entry s label z q old new) (notStart : ∀ p, label ≠ .start p q) (now : Begun new) :
    Begun old ∧ new.pid = old.pid := by
  obtain ⟨used, forked⟩ := now
  cases entry with
  | same kept _ _ =>
      refine ⟨?_, kept.pid⟩
      rcases kept.state with same | ⟨before, _⟩
      · rw [Begun, ← same]
        exact ⟨used, forked⟩
      · exact before.begun
  | claimed _ _ _ result => exact absurd (by rw [result]) forked
  | copied _ _ _ state _ _ => exact absurd state forked
  | failed _ _ _ state _ => exact absurd state used
  | started p label_eq _ _ => exact absurd label_eq (notStart p)
  | exited _ _ running _ _ pid _ => exact ⟨Alive.begun (.inr (.inr running)), pid⟩
  | orphaned _ _ _ _ _ _ pid state _ =>
      refine ⟨?_, pid⟩
      rcases state with same | ⟨before, _⟩
      · rw [Begun, ← same]
        exact ⟨used, forked⟩
      · exact before.begun
  | reaped _ _ result => exact absurd (by rw [result]; rfl) used

/-- What a successful `setpriority` has done. -/
theorem setpriority_eq_zero {p : Slot} {pid priority : Int}
    (ran : setpriority s p pid priority = (0, s')) :
    ∃ q, (s.proc q).pid = target s p pid ∧
      s' = s.modify q fun pr => { pr with priority := priority } := by
  unfold setpriority at ran
  split at ran
  · cases ran
  · dsimp only at ran
    cases found : s.first fun pr => pr.pid = if pid = 0 then (s.proc p).pid else pid with
    | none =>
        rw [found] at ran
        cases ran
    | some q =>
        rw [found] at ran
        cases ran
        exact ⟨q, of_decide_eq_true (Kernel.first_eq_some found).1, rfl⟩

theorem setpriority_cases (s : Kernel) (p : Slot) (pid priority : Int) :
    (∃ t, setpriority s p pid priority = (0, t)) ∨ setpriority s p pid priority = (-1, s) := by
  unfold setpriority
  split
  · exact .inr rfl
  · dsimp only
    split
    · exact .inr rfl
    · exact .inl ⟨_, rfl⟩

theorem Label.record_other {record : Int → Int} (notStart : ∀ p np, label ≠ .start p np)
    (notSet : ∀ p pid priority value, label ≠ .setpriority p pid priority value) :
    label.record s record = record := by
  cases label with
  | start p np => exact absurd rfl (notStart p np)
  | setpriority p pid priority value => exact absurd rfl (notSet p pid priority value)
  | _ => rfl

/-- Storing a priority in an entry and in the record. -/
theorem Recorded.set {record : Int → Int} (recorded : Recorded s record) (pids : PidsApart s)
    (positive : ∀ q, (s.proc q).state ≠ .unused → (s.proc q).pid ≠ 0) {r : Slot} {priority : Int}
    (self : (s'.proc r).priority = priority) (pid : (s'.proc r).pid = (s.proc r).pid)
    (others : ∀ q, q ≠ r → s'.proc q = s.proc q) :
    Recorded s' (Function.update record (s.proc r).pid priority) := by
  intro q begun
  by_cases here : q = r
  · rw [here, self, pid, Function.update_self]
  · rw [others q here] at begun ⊢
    have other : (s.proc q).pid ≠ (s.proc r).pid := fun same =>
      here (pids.apart q r same (positive q begun.1))
    rw [Function.update_of_ne other]
    exact recorded q begun

/-- One step keeps the table in agreement with the record. -/
theorem Recorded.step {record : Int → Int} {z : Option Slot} (recorded : Recorded s record)
    (pids : PidsApart s) (positive : ∀ q, (s.proc q).state ≠ .unused → (s.proc q).pid ≠ 0)
    (inv : Inv ld s) (step : Step ld s label s') (effect : Effect s s' label z) :
    Recorded s' (label.record s record) := by
  by_cases start : ∃ p np, label = .start p np
  · obtain ⟨p, np, rfl⟩ := start
    cases step with
    | start busy pending =>
        have self : ((forkStart s np).setPending p .idle).proc np =
            { s.proc np with priority := 0, state := .runnable } := Function.update_self _ _ _
        refine recorded.set pids positive ?_ ?_ fun q other => Function.update_of_ne other _ _
        · rw [self]
        · rw [self]
  · by_cases set : ∃ p pid priority value, label = .setpriority p pid priority value
    · obtain ⟨p, pid, priority, value, rfl⟩ := set
      cases step with
      | setpriority pid priority free =>
          rcases setpriority_cases s p pid priority with ⟨t, ran⟩ | failed
          · obtain ⟨r, found, result⟩ := setpriority_eq_zero ran
            rw [ran, if_pos rfl]
            change Recorded _ (Function.update record (target s p pid) priority)
            have self : (t.proc r).priority = priority ∧ (t.proc r).pid = (s.proc r).pid := by
              rw [result, Kernel.modify_self]
              exact ⟨rfl, rfl⟩
            rw [← found]
            refine recorded.set pids positive self.1 self.2 fun q other => ?_
            change t.proc q = s.proc q
            rw [result, Kernel.modify_of_ne _ _ _ other]
          · rw [failed]
            exact recorded
    · have notStart : ∀ p np, label ≠ .start p np := fun p np same => start ⟨p, np, same⟩
      have notSet : ∀ p pid priority value, label ≠ .setpriority p pid priority value :=
        fun p pid priority value same => set ⟨p, pid, priority, value, same⟩
      rw [Label.record_other notStart notSet]
      intro q begun
      obtain ⟨before, pid⟩ := (effect.entry q).begun (fun p => notStart p q) begun
      rw [step_samePriorities inv step notStart notSet q, pid]
      exact recorded q before

/-- In a run that does not exhaust the pids the table agrees with the record. -/
theorem run_recorded {first : Kernel} {record : Int → Int} (start : (system ld).initial first)
    (run : (recording ld).Run (first, fun _ => 0) labels (s, record))
    (few : claims labels + 1 < 2 ^ 31 - 1) : PidsApart s ∧ Recorded s record := by
  have both : (system ld).Run first labels s ∧
      (claims labels + 1 < 2 ^ 31 - 1 → PidsApart s ∧ Recorded s record) := by
    refine run.preservesHistory (P := fun labels t => (system ld).Run first labels t.1 ∧
      (claims labels + 1 < 2 ^ 31 - 1 → PidsApart t.1 ∧ Recorded t.1 t.2)) ?_ ⟨.nil _, fun _ => ?_⟩
    · rintro labels ⟨s, record⟩ label ⟨s', record'⟩ ⟨earlier, kept⟩ ⟨step, rfl⟩
      refine ⟨earlier.snoc step, fun few => ?_⟩
      rw [claims_append] at few
      obtain ⟨inv, books⟩ := run_books start earlier (by omega)
      obtain ⟨pids, recorded⟩ := kept (by omega)
      obtain ⟨z, effect⟩ := step_effect inv step
      have counter := books.nextpid
      refine ⟨pids.step effect (by omega) fun allots => ?_, recorded.step pids
        (fun q used => (books.pid_pos used).ne') inv step effect⟩
      have next := effect.nextpid
      rw [if_pos allots] at few next
      rw [next, int, Int.bmod_eq_of_le (by omega) (by omega)]
    · obtain ⟨km, initcode, root, free, ran⟩ := start
      obtain ⟨kstack, d, boot⟩ := userinit_booted free ran
      have pid : ∀ q, q ≠ 0 → (first.proc q).pid = 0 := fun q other => by
        rw [boot.others q other]
        rfl
      refine ⟨⟨fun q => ?_, fun q r same nonzero => ?_⟩, fun q _ => ?_⟩
      · rw [boot.nextpid]
        by_cases here : q = 0
        · rw [here, boot.first]
          change (1 : Int) < 2
          decide
        · rw [pid q here]
          decide
      · by_cases here : q = 0
        · by_cases there : r = 0
          · rw [here, there]
          · rw [same, pid r there] at nonzero
            exact absurd rfl nonzero
        · rw [pid q here] at nonzero
          exact absurd rfl nonzero
      · by_cases here : q = 0
        · rw [here, boot.first]
          rfl
        · rw [boot.others q here]
          rfl
  exact both.2 few

/-! ## The calls -/

/-- A live process with this pid. -/
def HasPid (s : Kernel) (pid : Int) : Prop := ∃ q, (s.proc q).pid = pid ∧ Alive (s.proc q)

/-- `getpriority(pid, x)` called by `p` returns 0, and the `int` at `x` is `value` then. -/
def Reports (s : Kernel) (p : Slot) (pid : Int) (x : Nat) (value : Int) : Prop :=
  (getpriorityTo s p pid x).1 = 0 ∧ (getpriorityTo s p pid x).2.intAt p x = value

theorem getpriority_found {p : Slot} {pid : Int} (live : HasPid s (target s p pid)) :
    getpriority s p pid = 0 := by
  obtain ⟨q, matched, _⟩ := live
  unfold getpriority
  dsimp only
  cases found : s.first fun pr => pr.pid = if pid = 0 then (s.proc p).pid else pid with
  | none => exact absurd matched (of_decide_eq_false (Kernel.first_eq_none.mp found q))
  | some q => rfl

/-! ## The arguments -/

section Arguments

variable {p : Slot} {d : Pgdir}

/-- Every process is as before, but for its stack. -/
def StackOnly (s s' : Kernel) : Prop :=
  ∀ q, ∃ psize pgdir, s'.proc q = { s.proc q with stackPsize := psize, pgdir := pgdir }

theorem StackOnly.refl (s : Kernel) : StackOnly s s := fun _ => ⟨_, _, rfl⟩

theorem StackOnly.trans {t : Kernel} (first : StackOnly s t) (second : StackOnly t s') :
    StackOnly s s' := by
  intro q
  obtain ⟨_, _, middle⟩ := first q
  obtain ⟨psize, pgdir, last⟩ := second q
  exact ⟨psize, pgdir, by rw [last, middle]⟩

theorem pgflt_stackOnly {va : Nat} (ran : pgflt ld s p va false = .ok s') : StackOnly s s' := by
  unfold pgflt at ran
  split at ran
  · split at ran
    · cases ran
    · obtain ⟨⟨result, km, d⟩, _, ran⟩ := Kern.bind_eq_ok.mp ran
      dsimp only at ran
      split at ran
      · cases ran
      · cases ran
        intro q
        by_cases self : q = p
        · subst self
          exact ⟨_, _, Kernel.modify_self _ _ _⟩
        · exact ⟨_, _, Kernel.modify_of_ne _ _ _ self⟩
  · cases ran

theorem loadRetry_stackOnly {va fuel : Nat} {byte : UInt8}
    (ran : loadRetry ld p va fuel s = .ok (byte, s')) : StackOnly s s' := by
  induction fuel generalizing s with
  | zero => cases ran
  | succ fuel ih =>
      unfold loadRetry at ran
      split at ran
      · cases ran
        exact .refl _
      · obtain ⟨t, faulted, ran⟩ := Kern.bind_eq_ok.mp ran
        exact (pgflt_stackOnly faulted).trans (ih ran)

theorem argint_stackOnly {n : Int} {word : Option Nat}
    (ran : argint ld s p n = .ok (word, s')) : StackOnly s s' := by
  unfold argint fetchint at ran
  split at ran
  · cases ran
    exact .refl s
  · obtain ⟨⟨_, t⟩, loaded, ran⟩ := Kern.bind_eq_ok.mp ran
    cases ran
    obtain ⟨⟨_, s₀⟩, load0, loaded⟩ := Kern.bind_eq_ok.mp loaded
    obtain ⟨⟨_, s₁⟩, load1, loaded⟩ := Kern.bind_eq_ok.mp loaded
    obtain ⟨⟨_, s₂⟩, load2, loaded⟩ := Kern.bind_eq_ok.mp loaded
    obtain ⟨⟨_, s₃⟩, load3, loaded⟩ := Kern.bind_eq_ok.mp loaded
    cases loaded
    exact (((loadRetry_stackOnly load0).trans (loadRetry_stackOnly load1)).trans
      (loadRetry_stackOnly load2)).trans (loadRetry_stackOnly load3)

/-- The word of the caller's stack that is argument `n`. -/
def argWord (s : Kernel) (p : Slot) (d : Pgdir) (n : Int) : Nat :=
  wordAt s.kmem d (argAddr s p n)

/-- What fetching arguments does to the caller: its stack may grow, and no byte changes. -/
structure Fetches (ld : Linkage) (s s' : Kernel) (p : Slot) (d d' : Pgdir) : Prop where
  table : StackOnly s s'
  grows : ∃ n, StackGrows ld s s' p d d' n

theorem Fetches.trans {t : Kernel} {d₁ d' : Pgdir} (first : Fetches ld s t p d d₁)
    (second : Fetches ld t s' p d₁ d') : Fetches ld s s' p d d' := by
  obtain ⟨n, before⟩ := first.grows
  obtain ⟨m, after⟩ := second.grows
  exact ⟨first.table.trans second.table, n + m, before.trans after⟩

theorem Fetches.image {d' : Pgdir} (fetches : Fetches ld s s' p d d') : UserImage ld s' p d' :=
  fetches.grows.elim fun _ grown => grown.image

theorem Fetches.argAddr {d' : Pgdir} (fetches : Fetches ld s s' p d d') (n : Int) :
    Xv6.argAddr s' p n = Xv6.argAddr s p n := by
  obtain ⟨_, _, same⟩ := fetches.table p
  rw [Xv6.argAddr, Xv6.argAddr, same]

theorem Fetches.target {d' : Pgdir} (fetches : Fetches ld s s' p d d') (pid : Int) :
    Xv6.target s' p pid = Xv6.target s p pid := by
  obtain ⟨_, _, same⟩ := fetches.table p
  rw [Xv6.target, Xv6.target, same]

theorem Fetches.hasPid {d' : Pgdir} {pid : Int} (fetches : Fetches ld s s' p d d')
    (live : HasPid s pid) : HasPid s' pid := by
  obtain ⟨q, matched, alive⟩ := live
  obtain ⟨_, _, same⟩ := fetches.table q
  refine ⟨q, ?_, ?_⟩
  · rw [same]
    exact matched
  · rw [same]
    exact alive

theorem Fetches.wordAt {d' : Pgdir} {addr : Nat} (fetches : Fetches ld s s' p d d')
    (low : addr + 4 ≤ stackbase) : Xv6.wordAt s'.kmem d' addr = Xv6.wordAt s.kmem d addr := by
  obtain ⟨_, grown⟩ := fetches.grows
  have user (k : Nat) (inside : k < 4) :
      byteAt s'.kmem d' (addr + k) = byteAt s.kmem d (addr + k) := by
    refine grown.bytes _ ?_
    change addr + 4 ≤ 2147483647 at low
    change addr + k < 2147483648
    omega
  have first := user 0 (by decide)
  rw [Nat.add_zero] at first
  rw [Xv6.wordAt, Xv6.wordAt, first, user 1 (by decide), user 2 (by decide), user 3 (by decide)]

theorem Fetches.intAt {d' : Pgdir} {addr : Nat} (image : UserImage ld s p d)
    (fetches : Fetches ld s s' p d d') (low : addr + 4 ≤ stackbase) :
    s'.intAt p addr = s.intAt p addr := by
  rw [Kernel.intAt, Kernel.intAt, image.own, fetches.image.own]
  exact congrArg (fun word : Nat => int word) (fetches.wordAt low)

/-- `argint` refuses an address at the end of the user addresses, and else fetches the word. -/
theorem argint_fetches {n : Int} {word : Option Nat} (image : UserImage ld s p d)
    (ran : argint ld s p n = .ok (word, s')) : ∃ d', Fetches ld s s' p d d' ∧
      word = if argAddr s p n + 4 ≤ stackbase then some (argWord s p d n) else none := by
  have table := argint_stackOnly ran
  rcases fetchint_ok image ran with ⟨rfl, rfl, high⟩ | ⟨low, rfl, d', grown⟩
  · exact ⟨d, ⟨table, 0, .refl image⟩, (if_neg high).symm⟩
  · exact ⟨d', ⟨table, _, grown⟩, (if_pos low).symm⟩

/-- The second argument is read as if it were fetched first. -/
theorem Fetches.argWord {d' : Pgdir} {n : Int} (fetches : Fetches ld s s' p d d')
    (low : Xv6.argAddr s p n + 4 ≤ stackbase) :
    Xv6.argWord s' p d' n = Xv6.argWord s p d n := by
  rw [Xv6.argWord, fetches.argAddr]
  exact fetches.wordAt low

/-- Both arguments of a call lie below the end of the user addresses. -/
def ArgsInside (s : Kernel) (p : Slot) : Prop :=
  argAddr s p 0 + 4 ≤ stackbase ∧ argAddr s p 1 + 4 ≤ stackbase

/-- `sys_getpriority` returns what `getpriority` returns, and leaves every byte of its caller. -/
theorem sysGetpriority_fetches {value : Int} (image : UserImage ld s p d)
    (ran : sysGetpriority ld s p = .ok (value, s')) : ∃ d', Fetches ld s s' p d d' ∧
      (ArgsInside s p → argWord s p d 1 + 4 ≤ stackbase →
        value = getpriority s' p (int (argWord s p d 0))) := by
  obtain ⟨⟨pid, t⟩, fetched, rest⟩ := Kern.bind_eq_ok.mp ran
  obtain ⟨d₁, first, words⟩ := argint_fetches image fetched
  subst words
  by_cases low : argAddr s p 0 + 4 ≤ stackbase
  · rw [if_pos low] at rest
    obtain ⟨⟨priority, u⟩, checked, last⟩ := Kern.bind_eq_ok.mp rest
    obtain ⟨⟨word, v⟩, pointer, accepted⟩ := Kern.bind_eq_ok.mp checked
    obtain ⟨d₂, second, words⟩ := argint_fetches first.image pointer
    have both := first.trans second
    subst words
    by_cases low' : argAddr t p 1 + 4 ≤ stackbase
    · rw [if_pos low'] at accepted
      rw [first.argAddr] at low'
      rw [first.argWord low'] at accepted
      dsimp only at accepted
      split at accepted
      · next refused =>
          cases accepted
          cases last
          refine ⟨d₂, both, fun _ fits => absurd refused ?_⟩
          unfold uint
          change _ ≤ 2147483647 at fits
          change ¬ ((4 : Int) < 0 ∨ 2147483647 ≤ Xv6.argWord s p d 1 ∨
            2147483647 < ((Xv6.argWord s p d 1 + (4 : Int)) % 4294967296).toNat)
          omega
      · cases accepted
        cases last
        exact ⟨d₂, both, fun _ _ => rfl⟩
    · rw [if_neg low'] at accepted
      cases accepted
      cases last
      rw [first.argAddr] at low'
      exact ⟨d₂, both, fun inside => absurd inside.2 low'⟩
  · rw [if_neg low] at rest
    cases rest
    exact ⟨d₁, first, fun inside => absurd inside.1 low⟩

/-- `sys_setpriority` is `setpriority` after the arguments have been fetched. -/
theorem sysSetpriority_fetches {value : Int} (image : UserImage ld s p d)
    (ran : sysSetpriority ld s p = .ok (value, s')) : ∃ t d', Fetches ld s t p d d' ∧
      ((value, s') = (-1, t) ∨
        (value, s') = setpriority t p (int (argWord s p d 0)) (int (argWord s p d 1))) := by
  obtain ⟨⟨pid, t⟩, fetched, rest⟩ := Kern.bind_eq_ok.mp ran
  obtain ⟨d₁, first, words⟩ := argint_fetches image fetched
  subst words
  by_cases low : argAddr s p 0 + 4 ≤ stackbase
  · rw [if_pos low] at rest
    obtain ⟨⟨priority, u⟩, fetched', last⟩ := Kern.bind_eq_ok.mp rest
    obtain ⟨d₂, second, words⟩ := argint_fetches first.image fetched'
    have both := first.trans second
    subst words
    by_cases low' : argAddr t p 1 + 4 ≤ stackbase
    · rw [if_pos low'] at last
      rw [first.argAddr] at low'
      rw [first.argWord low'] at last
      exact ⟨u, d₂, both, .inr (Except.ok.inj last).symm⟩
    · rw [if_neg low'] at last
      exact ⟨u, d₂, both, .inl (Except.ok.inj last).symm⟩
  · rw [if_neg low] at rest
    exact ⟨t, d₁, first, .inl (Except.ok.inj rest).symm⟩

end Arguments

/-! ## The system calls -/

section SystemCalls

variable {p : Slot} {d : Pgdir}

/-- A call of `sys_getpriority` for a live process returns 0, and the `int` at the address it was
passed is the recorded priority then if and only if it was before. -/
def SysReports (ld : Linkage) (s : Kernel) (p : Slot) (d : Pgdir) (record : Int → Int) : Prop :=
  ∀ value s', sysGetpriority ld s p = .ok (value, s') → ArgsInside s p →
    argWord s p d 1 + 4 ≤ stackbase → HasPid s (target s p (int (argWord s p d 0))) →
      value = 0 ∧ (s'.intAt p (argWord s p d 1) = record (target s p (int (argWord s p d 0))) ↔
        s.intAt p (argWord s p d 1) = record (target s p (int (argWord s p d 0))))

/-- A call of `sys_setpriority` that returns 0 sets the priority of one process, which has the pid,
and another one sets none; a priority out of range is refused. -/
def SysSets (ld : Linkage) (s : Kernel) (p : Slot) (d : Pgdir) : Prop :=
  ∀ value s', sysSetpriority ld s p = .ok (value, s') →
    (value = 0 → ∃ q, (s.proc q).pid = target s p (int (argWord s p d 0)) ∧
      (s'.proc q).priority = int (argWord s p d 1) ∧
      ∀ r, r ≠ q → (s'.proc r).priority = (s.proc r).priority) ∧
    (value ≠ 0 → value = -1 ∧ SamePriorities s s') ∧
    (int (argWord s p d 1) < lowprio ∨ highprio < int (argWord s p d 1) → value = -1)

theorem sysGetpriority_reports {record : Int → Int} (image : UserImage ld s p d) :
    SysReports ld s p d record := by
  intro value s' ran inside fits live
  obtain ⟨d', fetches, result⟩ := sysGetpriority_fetches image ran
  rw [fetches.intAt image fits]
  refine ⟨?_, Iff.rfl⟩
  rw [result inside fits]
  refine getpriority_found ?_
  rw [fetches.target]
  exact fetches.hasPid live

theorem StackOnly.samePriorities (table : StackOnly s s') : SamePriorities s s' := by
  intro q
  obtain ⟨_, _, same⟩ := table q
  rw [same]

theorem sysSetpriority_sets (image : UserImage ld s p d) : SysSets ld s p d := by
  intro value s' ran
  obtain ⟨t, d', fetches, refused | sets⟩ := sysSetpriority_fetches image ran
  · cases refused
    exact ⟨fun zero => absurd zero (by decide), fun _ => ⟨rfl, fetches.table.samePriorities⟩,
      fun _ => rfl⟩
  · generalize int (argWord s p d 1) = priority at sets ⊢
    refine ⟨fun zero => ?_, fun nonzero => ?_, fun outside => ?_⟩
    · subst zero
      obtain ⟨q, found, rfl⟩ := setpriority_eq_zero sets.symm
      obtain ⟨_, _, same⟩ := fetches.table q
      refine ⟨q, ?_, ?_, fun r other => ?_⟩
      · rw [← fetches.target, ← found, same]
      · rw [Kernel.modify_self]
      · rw [Kernel.modify_of_ne _ _ _ other]
        exact fetches.table.samePriorities r
    · rcases setpriority_cases t p (int (argWord s p d 0)) priority with ⟨u, ran⟩ | ran
      · rw [ran] at sets
        cases sets
        exact absurd rfl nonzero
      · rw [ran] at sets
        cases sets
        exact ⟨rfl, fetches.table.samePriorities⟩
    · rw [setpriority, if_pos outside] at sets
      cases sets
      rfl

end SystemCalls

/--
After every run: `getpriority` reports the priority set last exactly where the
word it is to be stored in holds this priority already.  A successful
`setpriority` changes one entry with the pid, one out of range none.  As long as
the pids are not exhausted the table holds the priorities set last.  The system
calls do the same with the words of the caller's stack.
-/
theorem getpriority_reports_iff {first : Kernel} {record : Int → Int}
    (start : (system ld).initial first)
    (run : (recording ld).Run (first, fun _ => 0) labels (s, record)) :
    (∀ p pid x, 0 < target s p pid → HasPid s (target s p pid) →
        (Reports s p pid x (record (target s p pid)) ↔
          s.intAt p x = record (target s p pid))) ∧
      (∀ p pid priority s', setpriority s p pid priority = (0, s') →
        ∃ q, (s.proc q).pid = target s p pid ∧
          s' = s.modify q fun pr => { pr with priority := priority }) ∧
      (∀ p pid priority, priority < lowprio ∨ highprio < priority →
        setpriority s p pid priority = (-1, s)) ∧
      (claims labels + 1 < 2 ^ 31 - 1 → ∀ q, Alive (s.proc q) →
        (s.proc q).priority = record (s.proc q).pid) ∧
      ∀ p d, UserImage ld s p d → SysReports ld s p d record ∧ SysSets ld s p d := by
  refine ⟨fun p pid x _ live => ?_, fun p pid priority s' ran => setpriority_eq_zero ran,
    fun p pid priority outside => ?_, fun few q alive => ?_, fun p d image =>
      ⟨sysGetpriority_reports image, sysSetpriority_sets image⟩⟩
  · constructor
    · rintro ⟨_, stored⟩
      exact stored
    · intro already
      exact ⟨getpriority_found live, already⟩
  · exact if_pos outside
  · exact (run_recorded start run few).2 q alive.begun

/-! ## A word that keeps what it held -/

/-- The first process fills its page with a byte, and nobody has set a priority. -/
theorem sample_recording (byte : UInt8) : ∃ first labels s,
    (system sampleLinkage).initial first ∧
    (recording sampleLinkage).Run (first, fun _ => 0) labels (s, fun _ => 0) ∧
    target s 0 0 = 1 ∧ HasPid s 1 ∧ s.intAt 0 0 = int (16843009 * byte.toNat) := by
  obtain ⟨first, kstack, d, start, boot, layout, enough⟩ := sample_boots (by decide : 0 ≤ 0x800)
  have round := boot.round (sampleKmem_free (by decide)) 0
  have started := boot.started (sampleKmem_free (by decide)) start layout enough
  generalize dispatch first 0 0 = t at round started
  have mapped : (d.lookup 0).isSome = true :=
    (started.layout.exact 0 (by decide)).mpr (.inl (by decide))
  obtain ⟨pte, found⟩ := Option.isSome_iff_exists.mp mapped
  obtain ⟨s, fills, same, memory⟩ : ∃ s, Step sampleLinkage t (.user 0) s ∧
      s.proc 0 = t.proc 0 ∧ s.kmem.mem = Function.update t.kmem.mem pte.addr fun _ => byte := by
    refine ⟨(t.setKmem { t.kmem with mem := Function.update t.kmem.mem pte.addr fun _ => byte }).modify
      0 fun pr => { pr with tf := (t.proc 0).tf, ofile := (t.proc 0).ofile, cwd := (t.proc 0).cwd },
      .user started.free started.own fun frame changed => ⟨0, pte, by decide, found, ?_⟩,
      Kernel.modify_self _ _ _, rfl⟩
    by_contra other
    exact changed (Function.update_of_ne (Ne.symm other) _ _)
  have pid : (s.proc 0).pid = 1 := by
    rw [same]
    exact started.pid
  have bytes : ∀ k < 4, byteAt s.kmem d k = byte := by
    intro k small
    have page : d.lookup k = some pte := by
      rw [d.lookup_congr (by omega) (by decide : 0 < 2 ^ 32) (by simp only [pgsize]; omega), found]
    rw [byteAt, page]
    dsimp only
    rw [memory, Function.update_self]
  have empty : (recording sampleLinkage).Run (first, fun _ => 0) [] (first, fun _ => 0) := .nil _
  have entered : (recording sampleLinkage).Run (first, fun _ => 0) _ (t, fun _ => 0) :=
    empty.snoc ⟨round, rfl⟩
  refine ⟨first, _, s, start, entered.snoc ⟨fills, rfl⟩, pid, ⟨0, pid, ?_⟩, ?_⟩
  · rw [Alive, same]
    exact .inr (.inr started.running)
  · have own : (s.proc 0).pgdir = some d := by
      rw [same]
      exact started.own
    rw [Kernel.intAt, own]
    dsimp only
    rw [wordAt, bytes 0 (by decide), bytes (0 + 1) (by decide), bytes (0 + 2) (by decide),
      bytes (0 + 3) (by decide)]
    congr 1
    push_cast
    omega

theorem getpriority_reports_iff_first : ∃ s, HasPid s (target s 0 0) ∧ Reports s 0 0 0 0 := by
  obtain ⟨first, labels, s, start, run, pid, live, word⟩ := sample_recording 0
  obtain ⟨reports, _⟩ := getpriority_reports_iff start run
  rw [← pid] at live
  refine ⟨s, live, (reports 0 0 0 ?_ live).mpr ?_⟩
  · rw [pid]
    decide
  · rw [word]
    decide +kernel

/-- A word that is not zero is still there after the call. -/
theorem getpriority_stores_nothing : ¬ ∀ first labels s record,
    (system sampleLinkage).initial first →
    (recording sampleLinkage).Run (first, fun _ => 0) labels (s, record) →
    ∀ p pid x, 0 < target s p pid → HasPid s (target s p pid) →
      Reports s p pid x (record (target s p pid)) := by
  intro claim
  obtain ⟨first, labels, s, start, run, pid, live, word⟩ := sample_recording 1
  rw [← pid] at live
  have stored := (claim first labels s _ start run 0 0 0 (by rw [pid]; decide) live).2
  change s.intAt 0 0 = 0 at stored
  rw [word] at stored
  exact absurd stored (by decide +kernel)

end SlabStudy.Xv6
