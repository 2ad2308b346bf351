import SlabStudy.Xv6.Fork

/-!
# What one step does to the table

Every step treats one entry in one of a few ways: it is claimed, filled,
given up or started by a `fork`, it exits, it gets another parent, it is
reaped, or it keeps its identity.  At most one entry is reaped, and its
pages are then free.  The later results about pids, statuses and sleepers
are derived from this list alone.
-/

namespace SlabStudy.Xv6

open Library

/-! ## What a label says -/

/-- The exited process whose pid and status a pass has returned. -/
def Outcome.corpse? : Outcome → Option Corpse
  | .reaped corpse => some corpse
  | .returned _ => none
  | .slept => none

def Label.reaped (label : Label) : Option Corpse := label.outcome.bind Outcome.corpse?

/-- The step has allotted a pid. -/
def Label.claims : Label → Bool
  | .claim _ (some _) => true
  | _ => false

/-- The entry that a step brings into use or lets exit. -/
def Label.subject : Label → Option Slot
  | .claim _ np => np
  | .exit p _ => some p
  | _ => none

theorem Label.claims_of_subject {label : Label} (alone : label.subject = none) :
    label.claims = false := by
  cases label with
  | claim p np =>
      cases np with
      | none => rfl
      | some np => cases alone
  | _ => rfl

/-- The process in slot `q` went through the loop of `waitpid(pid)` and went to sleep. -/
def Label.SleptIn (s : Kernel) (q : Slot) (pid : Int) (label : Label) : Prop :=
  label = .waitpid q pid .slept ∨
    ∃ c, label = .round c (some q) (some .slept) ∧ (s.thread q).resume = .waitpid pid

/-! ## Effects on one entry -/

/-- The entry stays with its process. -/
structure Same (old new : Proc) : Prop where
  pid : new.pid = old.pid
  parent : new.parent = old.parent
  state : new.state = old.state ∨ (Alive old ∧ Alive new)
  corpse : old.state = .zombie → new.corpse = old.corpse

/-- What a step may do to entry `q`; `z` is the entry that it reaps, if any. -/
inductive Entry (s : Kernel) (label : Label) (z : Option Slot) (q : Slot) (old new : Proc) :
    Prop where
  | same (kept : Same old new) (notReaped : z ≠ some q) (bystander : label.subject ≠ some q)
  | claimed (p : Slot) (label_eq : label = .claim p (some q)) (unused : old.state = .unused)
      (result : new = { old with state := .embryo, pid := s.nextpid })
  | copied (p : Slot) (label_eq : label = .copy p q true) (embryo : old.state = .embryo)
      (state : new.state = .embryo) (pid : new.pid = old.pid) (parent : new.parent = some p)
  | failed (p : Slot) (label_eq : label = .copy p q false) (embryo : old.state = .embryo)
      (state : new.state = .unused) (pid : new.pid = old.pid)
  | started (p : Slot) (label_eq : label = .start p q) (embryo : old.state = .embryo)
      (result : new = { old with priority := 0, state := .runnable })
  | exited (corpse : Corpse) (label_eq : label = .exit q corpse) (running : old.state = .running)
      (state : new.state = .zombie) (result : new.corpse = corpse) (pid : new.pid = old.pid)
      (parent : new.parent = old.parent)
  | orphaned (p : Slot) (corpse : Corpse) (label_eq : label = .exit p corpse) (other : q ≠ p)
      (child : old.parent = some p) (parent : new.parent = s.initproc) (pid : new.pid = old.pid)
      (state : new.state = old.state ∨ (Alive old ∧ Alive new))
      (corpse : old.state = .zombie → new.corpse = old.corpse)
  | reaped (here : z = some q) (zombie : old.state = .zombie) (result : new = old.clear)

/-- A step in which somebody goes to sleep in `waitpid` is none of the others. -/
theorem Entry.ofSlept {s : Kernel} {label : Label} {z : Option Slot} {q w : Slot} {old new : Proc}
    {pid : Int} (slept : label.SleptIn s w pid) (entry : Entry s label z q old new) :
    Same old new ∨ old.state = .zombie := by
  cases entry with
  | same kept _ _ => exact .inl kept
  | reaped _ zombie _ => exact .inr zombie
  | claimed _ label_eq _ _ => rcases slept with rfl | ⟨_, rfl, _⟩ <;> cases label_eq
  | copied _ label_eq _ _ _ _ => rcases slept with rfl | ⟨_, rfl, _⟩ <;> cases label_eq
  | failed _ label_eq _ _ _ => rcases slept with rfl | ⟨_, rfl, _⟩ <;> cases label_eq
  | started _ label_eq _ _ => rcases slept with rfl | ⟨_, rfl, _⟩ <;> cases label_eq
  | exited _ label_eq _ _ _ _ _ => rcases slept with rfl | ⟨_, rfl, _⟩ <;> cases label_eq
  | orphaned _ _ label_eq _ _ _ _ _ _ => rcases slept with rfl | ⟨_, rfl, _⟩ <;> cases label_eq

/-- Process `q` has gone to sleep in `waitpid(pid)`, on the parent of the first match. -/
structure FallsAsleep (s s' : Kernel) (label : Label) (q : Slot) (pid : Int) : Prop where
  label : label.SleptIn s q pid
  killed : (s.proc q).killed = false
  target : ∃ target, s.first (fun pr => pr.pid = pid) = some target ∧
    (s.proc target).state ≠ .zombie ∧ (s'.proc q).chan = (s.proc target).parent.map .proc

/-- Only a living process, and the target of `kill`, can be marked as killed. -/
def MayKill (s : Kernel) (label : Label) (q : Slot) : Prop :=
  Alive (s.proc q) ∨
    ∃ pid, label.victim = some pid ∧ s.first (fun pr => pr.pid = pid) = some q

/-- The effect of a step on the whole table. -/
structure Effect (s s' : Kernel) (label : Label) (z : Option Slot) : Prop where
  entry : ∀ q, Entry s label z q (s.proc q) (s'.proc q)
  reaped : label.reaped = z.map fun q => (s.proc q).corpse
  returned : ∀ value, label.outcome = some (.returned value) → value = -1
  freed : ∀ q, z = some q →
    (s'.kmem.freelist : Multiset Frame) = s.kmem.freelist + (s.proc q).pages
  nextpid : s'.nextpid = if label.claims then int (s.nextpid + 1) else s.nextpid
  killed : ∀ q, (s'.proc q).killed = true → (s.proc q).killed = true ∨ MayKill s label q
  sleeper : ∀ {q pid}, SleepsIn s' q (.waitpid pid) →
    (SleepsIn s q (.waitpid pid) ∧ (s'.proc q).chan = (s.proc q).chan) ∨
      FallsAsleep s s' label q pid

namespace Same

theorem refl (pr : Proc) : Same pr pr := ⟨rfl, rfl, .inl rfl, fun _ => rfl⟩

theorem ofAlive {old new : Proc} (pid : new.pid = old.pid) (parent : new.parent = old.parent)
    (before : Alive old) (after : Alive new) : Same old new := by
  refine ⟨pid, parent, .inr ⟨before, after⟩, fun zombie => ?_⟩
  rw [Alive, zombie] at before
  rcases before with impossible | impossible | impossible
  · cases impossible
  · cases impossible
  · cases impossible

/-- An entry that stays does not become or cease to be unused, an embryo or a zombie. -/
theorem state_iff {old new : Proc} (kept : Same old new) {state : ProcState}
    (notAsleep : state ≠ .sleeping) (notRunnable : state ≠ .runnable)
    (notRunning : state ≠ .running) : new.state = state ↔ old.state = state := by
  have dead : ∀ {pr : Proc}, Alive pr → pr.state ≠ state := by
    rintro pr (asleep | runnable | running)
    · rw [asleep]
      exact notAsleep.symm
    · rw [runnable]
      exact notRunnable.symm
    · rw [running]
      exact notRunning.symm
  rcases kept.state with same | ⟨before, after⟩
  · rw [same]
  · exact ⟨fun eq => absurd eq (dead after), fun eq => absurd eq (dead before)⟩

end Same

theorem Nudged.same {old new : Proc} (nudged : Nudged old new) : Same old new := by
  refine ⟨nudged.pid, nudged.parent, ?_, fun _ => ?_⟩
  · rcases nudged.state with ⟨same, _⟩ | ⟨asleep, woken⟩
    · exact .inl same
    · exact .inr ⟨.inl asleep, .inr (.inl woken)⟩
  · rw [Proc.corpse, nudged.pid, nudged.exitStatus, nudged.kstack, nudged.pgdir]
    rfl

section Helpers

variable {ld : Linkage} {s s' : Kernel} {c : Fin ncpu} {p : Slot} {label : Label}

/-- A step that is no `fork`, no `exit` and no pass through the loop of `wait`. -/
theorem Effect.ofSame (silent : label.outcome = none) (alone : label.subject = none)
    (nextpid : s'.nextpid = s.nextpid) (same : ∀ q, Same (s.proc q) (s'.proc q))
    (killed : ∀ q, (s'.proc q).killed = true → (s.proc q).killed = true ∨ MayKill s label q)
    (sleeper : ∀ {q pid}, SleepsIn s' q (.waitpid pid) →
      SleepsIn s q (.waitpid pid) ∧ (s'.proc q).chan = (s.proc q).chan) :
    Effect s s' label none := by
  refine ⟨fun q => .same (same q) (Option.some_ne_none q).symm ?_, ?_, fun value returned => ?_,
    fun q impossible => ?_, ?_, killed, fun sleeps => .inl (sleeper sleeps)⟩
  · rw [alone]
    exact (Option.some_ne_none q).symm
  · rw [Label.reaped, silent]
    rfl
  · rw [silent] at returned
    cases returned
  · cases impossible
  · rw [Label.claims_of_subject alone]
    exact nextpid

theorem Effect.unchanged (silent : label.outcome = none) (alone : label.subject = none) :
    Effect s s label none :=
  .ofSame silent alone rfl (fun _ => Same.refl _) (fun _ => .inl) fun sleeps => ⟨sleeps, rfl⟩

/-- Only a living process, which goes on living, is concerned. -/
theorem Effect.ofAlive (silent : label.outcome = none) (alone : label.subject = none)
    (nextpid : s'.nextpid = s.nextpid)
    (others : ∀ q, q ≠ p → s'.proc q = s.proc q)
    (threads : ∀ q, q ≠ p → s'.thread q = s.thread q)
    (alive : Alive (s.proc p)) (after : Alive (s'.proc p))
    (pid : (s'.proc p).pid = (s.proc p).pid) (parent : (s'.proc p).parent = (s.proc p).parent)
    (awake : ∀ pid, ¬ SleepsIn s' p (.waitpid pid)) : Effect s s' label none := by
  refine .ofSame silent alone nextpid (fun q => ?_) (fun q => ?_) fun {q pid} sleeps => ?_
  · exact forall_slot (P := fun q new => Same (s.proc q) new) others
      (Same.ofAlive pid parent alive after) (fun q _ => Same.refl _) q
  · exact forall_slot (P := fun q new => new.killed = true → _ ∨ MayKill s label q) others
      (fun _ => .inr (.inl alive)) (fun q _ => .inl) q
  · have apart : q ≠ p := by
      rintro rfl
      exact awake _ sleeps
    rw [SleepsIn, others q apart, threads q apart] at sleeps
    exact ⟨sleeps, by rw [others q apart]⟩

/-- Entries may be woken up, killed, or get another priority. -/
theorem Effect.ofNudged (silent : label.outcome = none) (alone : label.subject = none)
    (nextpid : s'.nextpid = s.nextpid)
    (resumes : ∀ q, (s'.thread q).resume = (s.thread q).resume)
    (nudged : ∀ q, Nudged (s.proc q) (s'.proc q))
    (killed : ∀ q, (s'.proc q).killed = true → (s.proc q).killed = true ∨ MayKill s label q) :
    Effect s s' label none := by
  refine .ofSame silent alone nextpid (fun q => (nudged q).same) killed fun {q pid} sleeps => ?_
  rw [SleepsIn, resumes q] at sleeps
  rcases (nudged q).state with ⟨same, _⟩ | ⟨_, woken⟩
  · exact ⟨⟨same.symm.trans sleeps.1, sleeps.2⟩, (nudged q).chan⟩
  · rw [woken] at sleeps
    cases sleeps.1

theorem Effect.ofNudges (silent : label.outcome = none) (alone : label.subject = none)
    (nudges : Nudges s s')
    (killed : ∀ q, (s'.proc q).killed = true → (s.proc q).killed = true ∨ MayKill s label q) :
    Effect s s' label none :=
  .ofNudged silent alone nudges.nextpid (fun q => by rw [nudges.thread]) nudges.entries killed

end Helpers

/-! ## A pass through the loop of wait or waitpid -/

/-- The ends of a pass by process `p`, whose sleep would be resumed by `call`. -/
inductive Pass (s s' : Kernel) (p : Slot) (call : Resume) : Outcome → Prop where
  | returned (same : s' = s) : Pass s s' p call (.returned (-1))
  | reaped (z : Slot) (zombie : (s.proc z).state = .zombie)
      (result : s'.proc z = (s.proc z).clear) (others : ∀ q, q ≠ z → s'.proc q = s.proc q)
      (thread : s'.thread = s.thread) (nextpid : s'.nextpid = s.nextpid)
      (freed : (s'.kmem.freelist : Multiset Frame) = s.kmem.freelist + (s.proc z).pages) :
      Pass s s' p call (.reaped (s.proc z).corpse)
  | slept (chan : Option Chan)
      (result : s'.proc p = { s.proc p with chan := chan, state := .sleeping })
      (others : ∀ q, q ≠ p → s'.proc q = s.proc q) (resume : (s'.thread p).resume = call)
      (threads : ∀ q, q ≠ p → s'.thread q = s.thread q) (nextpid : s'.nextpid = s.nextpid)
      (target : ∀ pid, call = .waitpid pid → (s.proc p).killed = false ∧
        ∃ target, s.first (fun pr => pr.pid = pid) = some target ∧
          (s.proc target).state ≠ .zombie ∧ chan = (s.proc target).parent.map .proc) :
      Pass s s' p call .slept

section Pass

variable {ld : Linkage} {s s' e : Kernel} {c : Fin ncpu} {p : Slot} {label : Label}
  {outcome : Outcome} {call : Resume}

theorem reap_pass (inv : Inv ld s) {z : Slot} (zombie : (s.proc z).state = .zombie)
    (ran : reap ld s z = .ok (outcome, s')) : Pass s s' p call outcome := by
  obtain ⟨km, result, freed, _⟩ := reap_succeeds inv.memory ((inv.states z).zombie zombie)
  rw [result] at ran
  cases ran
  exact .reaped z zombie (Kernel.modify_self _ _ _) (fun q other => Kernel.modify_of_ne _ _ _ other)
    rfl rfl freed

theorem sleep_pass (c : Fin ncpu) (chan : Option Chan)
    (target : ∀ pid, call = .waitpid pid → (s.proc p).killed = false ∧
      ∃ target, s.first (fun pr => pr.pid = pid) = some target ∧
        (s.proc target).state ≠ .zombie ∧ chan = (s.proc target).parent.map .proc) :
    Pass s (sleep s c p chan call) p call .slept := by
  refine .slept chan (Function.update_self _ _ _)
    (fun q other => Function.update_of_ne other _ _) ?_
    (fun q other => Function.update_of_ne other _ _) rfl target
  simp [sleep, sched, Kernel.setThread]

theorem wait_pass (inv : Inv ld s) (ran : wait ld s c p = .ok (outcome, s')) :
    Pass s s' p .wait outcome := by
  rcases wait_cases ran with ⟨z, _, zombie, reaped⟩ | ⟨rfl, rfl⟩ | ⟨rfl, rfl, _⟩
  · exact reap_pass inv zombie reaped
  · exact .returned rfl
  · exact sleep_pass c _ fun pid impossible => Resume.noConfusion impossible

theorem waitpid_pass {pid : Int} (inv : Inv ld s)
    (ran : waitpid ld s c p pid = .ok (outcome, s')) : Pass s s' p (.waitpid pid) outcome := by
  rcases waitpid_cases ran with
    ⟨z, _, zombie, reaped⟩ | ⟨rfl, rfl⟩ | ⟨rfl, target, found, alive, notKilled, rfl⟩
  · exact reap_pass inv zombie reaped
  · exact .returned rfl
  · refine sleep_pass c _ fun other same => ?_
    cases same
    exact ⟨notKilled, target, found, alive, rfl⟩

/-- Process `p` has been taken up by its CPU, or was running already. -/
structure Enters (s e : Kernel) (p : Slot) : Prop where
  alive : Alive (s.proc p)
  proc : e.proc p = { s.proc p with state := .running, chan := none }
  others : ∀ q, q ≠ p → e.proc q = s.proc q
  thread : e.thread = s.thread
  kmem : e.kmem = s.kmem
  nextpid : e.nextpid = s.nextpid

namespace Enters

theorem same (enters : Enters s e p) (q : Slot) : Same (s.proc q) (e.proc q) := by
  refine forall_slot (P := fun q new => Same (s.proc q) new) enters.others ?_
    (fun q _ => Same.refl _) q
  rw [enters.proc]
  exact Same.ofAlive rfl rfl enters.alive (.inr (.inr rfl))

theorem awake (enters : Enters s e p) {q : Slot} (asleep : (e.proc q).state = .sleeping) :
    q ≠ p ∧ e.proc q = s.proc q := by
  have apart : q ≠ p := by
    rintro rfl
    rw [enters.proc] at asleep
    cases asleep
  exact ⟨apart, enters.others q apart⟩

theorem zombie (enters : Enters s e p) {q : Slot} (exited : (e.proc q).state = .zombie) :
    q ≠ p ∧ e.proc q = s.proc q := by
  have apart : q ≠ p := by
    rintro rfl
    rw [enters.proc] at exited
    cases exited
  exact ⟨apart, enters.others q apart⟩

theorem killed (enters : Enters s e p) (q : Slot) : (e.proc q).killed = (s.proc q).killed := by
  refine forall_slot (P := fun q new => new.killed = (s.proc q).killed) enters.others ?_
    (fun q _ => rfl) q
  rw [enters.proc]

theorem first (enters : Enters s e p) (pid : Int) :
    e.first (fun pr => pr.pid = pid) = s.first fun pr => pr.pid = pid := by
  have pids : (fun q => decide ((e.proc q).pid = pid)) = fun q => decide ((s.proc q).pid = pid) := by
    funext q
    rw [(enters.same q).pid]
  unfold Kernel.first
  rw [pids]

end Enters

/-- The effect of a pass, whether its process was running or has just been taken up. -/
theorem Pass.effect (enters : Enters s e p) (pass : Pass e s' p call outcome)
    (ended : label.outcome = some outcome) (alone : label.subject = none)
    (sleptIn : outcome = .slept → ∀ pid, call = .waitpid pid → label.SleptIn s p pid) :
    ∃ z, Effect s s' label z := by
  have pids : s'.nextpid = e.nextpid →
      s'.nextpid = if label.claims then int (s.nextpid + 1) else s.nextpid := by
    intro same
    rw [Label.claims_of_subject alone, same, enters.nextpid]
    rfl
  have bystander : ∀ q, label.subject ≠ some q := by
    intro q
    rw [alone]
    exact (Option.some_ne_none q).symm
  cases pass with
  | returned same =>
      subst same
      refine ⟨none, fun q => .same (enters.same q) (Option.some_ne_none q).symm (bystander q), ?_,
        fun value returned => ?_, fun q impossible => ?_, pids rfl,
        fun q marked => .inl ((enters.killed q).symm.trans marked), fun {q pid} sleeps => .inl ?_⟩
      · rw [Label.reaped, ended]
        rfl
      · rw [ended] at returned
        cases returned
        rfl
      · cases impossible
      · obtain ⟨_, unchanged⟩ := enters.awake sleeps.1
        rw [SleepsIn, unchanged, enters.thread] at sleeps
        exact ⟨sleeps, by rw [unchanged]⟩
  | reaped z zombie result others thread nextpid freed =>
      obtain ⟨apart, unchanged⟩ := enters.zombie zombie
      rw [unchanged] at zombie result freed ended
      rw [enters.kmem] at freed
      refine ⟨some z, fun q => ?_, ?_, fun value returned => ?_, fun q here => ?_, pids nextpid,
        fun q marked => .inl ?_, fun {q pid} sleeps => .inl ?_⟩
      · by_cases here : q = z
        · subst here
          exact .reaped rfl zombie result
        · rw [others q here]
          exact .same (enters.same q) (fun same => here (Option.some.inj same).symm) (bystander q)
      · rw [Label.reaped, ended]
        rfl
      · rw [ended] at returned
        cases returned
      · cases here
        exact freed
      · have other : q ≠ z := by
          rintro rfl
          rw [result] at marked
          cases marked
        rw [others q other, enters.killed] at marked
        exact marked
      · have other : q ≠ z := by
          rintro rfl
          rw [SleepsIn, result] at sleeps
          cases sleeps.1
        rw [SleepsIn, others q other, thread] at sleeps
        obtain ⟨_, same⟩ := enters.awake sleeps.1
        rw [same, enters.thread] at sleeps
        exact ⟨sleeps, by rw [others q other, same]⟩
  | slept chan result others resume threads nextpid target =>
      have alive : Alive (s'.proc p) := .inl (by rw [result])
      have self : (s'.proc p).pid = (s.proc p).pid ∧ (s'.proc p).parent = (s.proc p).parent ∧
          (s'.proc p).chan = chan := by
        rw [result, enters.proc]
        exact ⟨rfl, rfl, rfl⟩
      refine ⟨none, fun q => .same ?_ (Option.some_ne_none q).symm (bystander q), ?_,
        fun value returned => ?_,
        fun q impossible => ?_, pids nextpid, fun q marked => ?_, fun {q pid} sleeps => ?_⟩
      · refine forall_slot (P := fun q new => Same (s.proc q) new) others
          (Same.ofAlive self.1 self.2.1 enters.alive alive) (fun q _ => enters.same q) q
      · rw [Label.reaped, ended]
        rfl
      · rw [ended] at returned
        cases returned
      · cases impossible
      · by_cases here : q = p
        · exact .inr (.inl (here ▸ enters.alive))
        · rw [others q here, enters.killed] at marked
          exact .inl marked
      · by_cases here : q = p
        · subst here
          have same : call = .waitpid pid := resume.symm.trans sleeps.2
          obtain ⟨notKilled, hit, found, live, sampled⟩ := target pid same
          refine .inr ⟨sleptIn rfl pid same, ?_, hit, ?_, ?_, ?_⟩
          · rw [enters.proc] at notKilled
            exact notKilled
          · rw [← enters.first]
            exact found
          · intro exited
            have unmoved : e.proc hit = s.proc hit := by
              refine enters.others hit ?_
              rintro rfl
              have alive := enters.alive
              simp [Alive, exited] at alive
            rw [unmoved] at live
            exact live exited
          · rw [self.2.2, sampled, (enters.same hit).parent]
        · rw [SleepsIn, others q here, threads q here] at sleeps
          obtain ⟨_, same⟩ := enters.awake sleeps.1
          rw [same, enters.thread] at sleeps
          exact .inl ⟨sleeps, by rw [others q here, same]⟩

theorem enters_dispatch (runnable : (s.proc p).state = .runnable) :
    Enters s (sleepTidy (dispatch s c p) p) p := by
  refine ⟨.inr (.inl runnable), ?_, fun q other => ?_, rfl, rfl, rfl⟩
  · rw [sleepTidy, Kernel.modify_self, dispatch_self]
  · rw [sleepTidy, Kernel.modify_of_ne _ _ _ other, dispatch_of_ne _ _ _ other]

theorem enters_running (inv : Inv ld s) (busy : (s.cpu c).proc = some p) : Enters s s p := by
  have running := inv.running busy
  have chan := ((inv.states p).running running).2
  refine ⟨.inr (.inr running), ?_, fun _ _ => rfl, rfl, rfl, rfl⟩
  rw [← running, ← chan]

end Pass

/-! ## The effect of every step -/

section Steps

variable {ld : Linkage} {s s' : Kernel} {c : Fin ncpu} {p np : Slot}

theorem round_effect {chosen : Option Slot} {outcome : Option Outcome} (inv : Inv ld s)
    (idle : (s.cpu c).proc = none) (ran : scheduler ld s c = .ok (chosen, outcome, s')) :
    ∃ z, Effect s s' (.round c chosen outcome) z := by
  obtain ⟨found, ⟨rfl, rfl, rfl⟩ | ⟨p, rfl, resumed⟩⟩ := scheduler_eq_ok ran
  · exact ⟨none, .unchanged rfl rfl⟩
  · have runnable := choose_runnable found.symm
    have enters := enters_dispatch (c := c) runnable
    have entered := inv.enter idle runnable
    rcases resume_cases inv runnable resumed with
      ⟨rfl, rfl⟩ | ⟨call, ended, rfl, waited⟩ | ⟨pid, call, ended, rfl, waited⟩
    · refine ⟨none, .ofSame rfl rfl rfl enters.same
        (fun q marked => .inl ((enters.killed q).symm.trans marked)) fun {q pid} sleeps => ?_⟩
      obtain ⟨_, same⟩ := enters.awake sleeps.1
      rw [SleepsIn, same] at sleeps
      exact ⟨sleeps, by rw [same]⟩
    · exact (wait_pass entered waited).effect enters rfl rfl
        fun _ pid impossible => Resume.noConfusion impossible
    · refine (waitpid_pass entered waited).effect enters rfl rfl fun slept other same => ?_
      subst slept
      exact .inr ⟨c, rfl, call.trans same⟩

theorem exit_effect {t : Kernel} {status : Int} (inv : Inv ld s) (free : Free s c p)
    (exits : Exited s t c p status) :
    Effect s t (.exit p { (s.proc p).corpse with status := status }) none := by
  have running := inv.running free.running
  have proper := inv.init.proper p
  have own : (t.proc p).parent = (s.proc p).parent := by
    rw [exits.self]
    exact if_neg proper
  refine ⟨fun q => ?_, rfl, fun value impossible => ?_, fun q impossible => ?_, exits.nextpid,
    fun q marked => .inl ?_, fun {q pid} sleeps => .inl ?_⟩
  · by_cases here : q = p
    · subst here
      exact .exited _ rfl running (by rw [exits.self]) (by rw [exits.self]; rfl)
        (by rw [exits.self]) own
    · have nudged := exits.nudged (inv.bounded q) here
      have same := nudged.same
      by_cases child : (s.proc q).parent = some p
      · refine .orphaned p _ rfl here child ?_ same.pid same.state same.corpse
        rw [nudged.parent, adopted, if_pos child]
      · refine .same ⟨same.pid, ?_, same.state, same.corpse⟩ (Option.some_ne_none q).symm
          fun subject => here (Option.some.inj subject).symm
        rw [nudged.parent, adopted, if_neg child]
  · cases impossible
  · cases impossible
  · by_cases here : q = p
    · subst here
      rw [exits.self] at marked
      exact marked
    · obtain ⟨_, result, _⟩ := exits.others q here
      rw [result] at marked
      exact marked
  · have apart : q ≠ p := by
      rintro rfl
      rw [SleepsIn, exits.self] at sleeps
      cases sleeps.1
    have nudged := exits.nudged (inv.bounded q) apart
    rw [SleepsIn, exits.thread] at sleeps
    rcases nudged.state with ⟨same, _⟩ | ⟨_, woken⟩
    · exact ⟨⟨same.symm.trans sleeps.1, sleeps.2⟩, nudged.chan⟩
    · rw [woken] at sleeps
      cases sleeps.1

/-- A step of `fork` changes the entry of the child, which does not sleep. -/
theorem Effect.ofChild {label : Label} (silent : label.outcome = none)
    (subject : ∀ q, label.subject = some q → q = np)
    (others : ∀ q, q ≠ np → s'.proc q = s.proc q)
    (resumes : ∀ q, q ≠ np → (s'.thread q).resume = (s.thread q).resume)
    (child : Entry s label none np (s.proc np) (s'.proc np))
    (awake : (s'.proc np).state ≠ .sleeping) (killed : (s'.proc np).killed = (s.proc np).killed)
    (nextpid : s'.nextpid = if label.claims then int (s.nextpid + 1) else s.nextpid) :
    Effect s s' label none := by
  refine ⟨forall_slot (P := fun q new => Entry s label none q (s.proc q) new) others child
      fun q other => .same (Same.refl _) (Option.some_ne_none q).symm
        fun here => other (subject q here), ?_, fun value returned => ?_,
    fun q impossible => ?_, nextpid,
    forall_slot (P := fun q new => new.killed = true → _ ∨ MayKill s label q) others
      (fun marked => .inl (killed.symm.trans marked)) fun q _ => .inl,
    fun {q pid} sleeps => .inl ?_⟩
  · rw [Label.reaped, silent]
    rfl
  · rw [silent] at returned
    cases returned
  · cases impossible
  · have apart : q ≠ np := by
      rintro rfl
      exact awake sleeps.1
    rw [SleepsIn, others q apart, resumes q apart] at sleeps
    exact ⟨sleeps, by rw [others q apart]⟩

/-- Stores of a running process to its own entry. -/
theorem Effect.ofOwn {label : Label} (inv : Inv ld s) (busy : (s.cpu c).proc = some p)
    (silent : label.outcome = none) (alone : label.subject = none) {km : Kmem}
    {store : Proc → Proc} (pid : (store (s.proc p)).pid = (s.proc p).pid)
    (parent : (store (s.proc p)).parent = (s.proc p).parent)
    (state : (store (s.proc p)).state = (s.proc p).state) :
    Effect s ((s.setKmem km).modify p store) label none := by
  have running := inv.running busy
  have self : ((s.setKmem km).modify p store).proc p = store (s.proc p) := Kernel.modify_self _ _ _
  have still : (((s.setKmem km).modify p store).proc p).state = .running := by
    rw [self, state]
    exact running
  refine .ofAlive silent alone rfl (fun q other => Kernel.modify_of_ne _ _ _ other)
    (fun _ _ => rfl) (.inr (.inr running)) (.inr (.inr still)) (by rw [self, pid])
    (by rw [self, parent]) fun pid sleeps => ?_
  rw [SleepsIn, still] at sleeps
  cases sleeps.1

theorem growproc_effect {n value : Int} (inv : Inv ld s) (busy : (s.cpu c).proc = some p)
    (ran : growproc ld s p n = .ok (value, s')) : Effect s s' (.sbrk p n value) none := by
  obtain ⟨_, d, _, own⟩ := inv.equipped busy
  rcases growproc_eq_ok own ran with
    ⟨_, result, km, d', _, resized⟩ | ⟨_, result, km, d', _, resized⟩ | ⟨_, _, rfl⟩
  · rcases growprocResize_eq_ok resized with ⟨_, _, rfl⟩ | ⟨_, _, rfl⟩
    · exact .ofOwn inv busy rfl rfl rfl rfl rfl
    · exact .ofOwn inv busy rfl rfl rfl rfl rfl
  · rcases growprocResize_eq_ok resized with ⟨_, _, rfl⟩ | ⟨_, _, rfl⟩
    · exact .ofOwn inv busy rfl rfl rfl rfl rfl
    · exact .ofOwn inv busy rfl rfl rfl rfl rfl
  · exact .unchanged rfl rfl

theorem pgflt_effect {va : Nat} {user : Bool} (inv : Inv ld s) (busy : (s.cpu c).proc = some p)
    (ran : pgflt ld s p va user = .ok s') : Effect s s' (.pgflt p va) none := by
  obtain ⟨_, d, _, own⟩ := inv.equipped busy
  rcases pgflt_eq_ok own ran with ⟨_, _, _, _, _, _, _, _, rfl⟩ | ⟨_, _, rfl⟩
  · exact .ofOwn inv busy rfl rfl rfl rfl rfl
  · exact .ofOwn inv busy rfl rfl rfl rfl rfl

/-- A running process leaves its CPU, but not in `waitpid`. -/
theorem Effect.ofLeave {label : Label} (inv : Inv ld s) (busy : (s.cpu c).proc = some p)
    (silent : label.outcome = none) (alone : label.subject = none)
    (others : ∀ q, q ≠ p → s'.proc q = s.proc q) (threads : ∀ q, q ≠ p → s'.thread q = s.thread q)
    (nextpid : s'.nextpid = s.nextpid) (chan : Option Chan) (state : ProcState)
    (self : s'.proc p = { s.proc p with chan := chan, state := state })
    (left : (state = .sleeping ∧ (s'.thread p).resume = .sleep) ∨ state = .runnable) :
    Effect s s' label none := by
  have running := inv.running busy
  have after : Alive (s'.proc p) := by
    rw [self]
    rcases left with ⟨asleep, _⟩ | runnable
    · exact .inl asleep
    · exact .inr (.inl runnable)
  refine .ofAlive silent alone nextpid others threads (.inr (.inr running)) after
    (by rw [self]) (by rw [self]) fun pid sleeps => ?_
  rcases left with ⟨_, resume⟩ | runnable
  · rw [SleepsIn, resume] at sleeps
    cases sleeps.2
  · rw [SleepsIn, self, runnable] at sleeps
    cases sleeps.1

theorem kill_killed {pid : Int} {q : Slot} (marked : ((kill s pid).2.proc q).killed = true) :
    (s.proc q).killed = true ∨ s.first (fun pr => pr.pid = pid) = some q := by
  unfold kill at marked
  cases found : s.first fun pr => pr.pid = pid with
  | none =>
      rw [found] at marked
      exact .inl marked
  | some r =>
      rw [found] at marked
      by_cases here : q = r
      · exact .inr (by rw [here])
      · exact .inl (by rwa [Kernel.modify_of_ne _ _ _ here] at marked)

theorem setpriority_killed (s : Kernel) (p : Slot) (pid priority : Int) (q : Slot) :
    ((setpriority s p pid priority).2.proc q).killed = (s.proc q).killed := by
  unfold setpriority
  split
  · rfl
  · simp only
    cases s.first fun pr => pr.pid = if pid = 0 then (s.proc p).pid else pid with
    | none => rfl
    | some r =>
        dsimp only
        rw [Kernel.modify_proc]
        split
        · next here => rw [here]
        · rfl

/-- What every step does to the table. -/
theorem step_effect {label : Label} (inv : Inv ld s) (step : Step ld s label s') :
    ∃ z, Effect s s' label z := by
  cases step with
  | round idle ran => exact round_effect inv idle ran
  | claimNone free full =>
      exact ⟨none, .unchanged rfl rfl⟩
  | @claimSome c p np t free claim =>
      have claimed := allocprocClaim_claimed claim
      refine ⟨none, .ofChild rfl (fun q here => (Option.some.inj here).symm) claimed.others (fun q _ => ?_)
        (.claimed p rfl claimed.unused claimed.proc) ?_ ?_ claimed.nextpid⟩
      · rw [Kernel.setPending_resume, claimed.thread]
      · change (t.proc np).state ≠ _
        rw [claimed.proc]
        exact ProcState.noConfusion
      · change (t.proc np).killed = _
        rw [claimed.proc]
  | @copyFails c p np t busy pending ran =>
      have embryo := (inv.forks.copying pending).1
      obtain ⟨_, ⟨_, failed⟩ | ⟨impossible, _⟩⟩ := inv.copyStep busy pending ran
      · obtain ⟨pgdir, result⟩ := failed.proc
        have unused : ((t.setPending p .idle).proc np).state = .unused := by
          change (t.proc np).state = _
          rw [result]
        refine ⟨none, .ofChild rfl (fun q here => absurd here (Option.some_ne_none q).symm) failed.others (fun q other => ?_)
          (.failed p rfl embryo unused ?_) ?_ ?_ failed.nextpid⟩
        · rw [Kernel.setPending_resume, failed.threads q other]
        · change (t.proc np).pid = _
          rw [result]
        · rw [unused]
          exact ProcState.noConfusion
        · change (t.proc np).killed = _
          rw [result]
      · cases impossible
  | @copyDone c p np t busy pending ran =>
      have embryo := (inv.forks.copying pending).1
      obtain ⟨_, ⟨impossible, _⟩ | ⟨_, d, frame, child, _, done⟩⟩ := inv.copyStep busy pending ran
      · cases impossible
      · have state : ((t.setPending p (.forkStart np)).proc np).state = .embryo := by
          change (t.proc np).state = _
          rw [done.proc]
          exact embryo
        refine ⟨none, .ofChild rfl (fun q here => absurd here (Option.some_ne_none q).symm) done.others (fun q other => ?_)
          (.copied p rfl embryo state ?_ ?_) ?_ ?_ done.nextpid⟩
        · rw [Kernel.setPending_resume, done.threads q other]
        · change (t.proc np).pid = _
          rw [done.proc]
          rfl
        · change (t.proc np).parent = _
          rw [done.proc]
          rfl
        · rw [state]
          exact ProcState.noConfusion
        · change (t.proc np).killed = _
          rw [done.proc]
          rfl
  | @start c p np busy pending =>
      have embryo := (inv.forks.starting pending).1
      have self : ((forkStart s np).setPending p .idle).proc np =
          { s.proc np with priority := 0, state := .runnable } := Function.update_self _ _ _
      refine ⟨none, .ofChild rfl (fun q here => absurd here (Option.some_ne_none q).symm)
        (fun q other => Function.update_of_ne other _ _)
        (fun q _ => Kernel.setPending_resume _ _ _ _) (.started p rfl embryo self) ?_ ?_ rfl⟩
      · rw [self]
        exact ProcState.noConfusion
      · rw [self]
  | exit free ran => exact ⟨none, exit_effect inv free (exit_exited ran)⟩
  | wait free ran =>
      exact (wait_pass inv ran).effect (enters_running inv free.running) rfl rfl
        fun _ pid impossible => Resume.noConfusion impossible
  | waitpid free ran =>
      refine (waitpid_pass inv ran).effect (enters_running inv free.running) rfl rfl
        fun slept other same => ?_
      subst slept
      cases same
      exact .inl rfl
  | kill pid free =>
      refine ⟨none, .ofNudges rfl rfl (kill_nudges inv.bounded pid) fun q marked => ?_⟩
      rcases kill_killed marked with before | found
      · exact .inl before
      · exact .inr (.inr ⟨pid, rfl, found⟩)
  | @setpriority c p pid priority free =>
      have nudges := setpriority_nudges inv.bounded p pid priority
      have killed := setpriority_killed s p pid priority
      refine ⟨none, ?_⟩
      split
      · refine .ofNudged rfl rfl nudges.nextpid (fun q => ?_) nudges.entries
          fun q marked => .inl ((killed q).symm.trans marked)
        rw [Kernel.setPending_resume, nudges.thread]
      · exact .ofNudges rfl rfl nudges fun q marked => .inl ((killed q).symm.trans marked)
  | @priorityYield c p busy pending =>
      refine ⟨none, .ofLeave inv busy rfl rfl (fun q other => ?_) (fun q other => ?_) rfl
        (s.proc p).chan .runnable ?_ (.inr rfl)⟩
      · exact Function.update_of_ne other _ _
      · simp [yield, sched, Kernel.setPending, Kernel.setThread, other]
      · exact Function.update_self _ _ _
  | @preempt c p busy =>
      refine ⟨none, .ofLeave inv busy rfl rfl (fun q other => ?_) (fun q other => ?_) rfl
        (s.proc p).chan .runnable ?_ (.inr rfl)⟩
      · exact Function.update_of_ne other _ _
      · exact Function.update_of_ne other _ _
      · exact Function.update_self _ _ _
  | @sleep c p address free =>
      refine ⟨none, .ofLeave inv free.running rfl rfl (fun q other => ?_) (fun q other => ?_) rfl
        (some (.other address)) .sleeping ?_ (.inl ⟨rfl, ?_⟩)⟩
      · exact Function.update_of_ne other _ _
      · exact Function.update_of_ne other _ _
      · exact Function.update_self _ _ _
      · simp [sleep, sched, Kernel.setThread]
  | wakeup address =>
      refine ⟨none, .ofNudges rfl rfl (wakeup_nudges inv.bounded _) fun q marked => .inl ?_⟩
      obtain ⟨_, woken, _⟩ := wakeup1_fields (some (.other address)) s.proc q
      change (wakeup1 _ s.proc q).killed = true at marked
      rw [woken] at marked
      exact marked
  | pages free apart =>
      exact ⟨none, .ofSame rfl rfl rfl (fun _ => Same.refl _) (fun _ => .inl)
        fun sleeps => ⟨sleeps, rfl⟩⟩
  | sbrk free ran => exact ⟨none, growproc_effect inv free.running ran⟩
  | pgflt free ran => exact ⟨none, pgflt_effect inv free.running ran⟩
  | exec free old conserved untouched bounded =>
      exact ⟨none, .ofOwn inv free.running rfl rfl rfl rfl rfl⟩
  | user free own stores => exact ⟨none, .ofOwn inv free.running rfl rfl rfl rfl rfl⟩

end Steps

end SlabStudy.Xv6
