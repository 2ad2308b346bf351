import Mathlib.Algebra.Order.BigOperators.Group.Finset
import SlabStudy.Xv6.Effects

/-!
# Delivery of exit statuses

The books of a run: who has exited, whose status has been returned by `wait`
or `waitpid`, and which pids have been in use.  At every point the processes
that have exited are those that were reaped and the zombies, each once; pids
of live and of reaped processes are all different as long as the counter does
not wrap.
-/

namespace SlabStudy.Xv6

open Library

variable {ld : Linkage} {s s' : Kernel} {q : Slot} {label : Label} {labels : List Label}
  {z : Option Slot} {old new : Proc}

/-! ## The history of a run -/

/-- The process that a step has let exit, with its status. -/
def Label.exited : Label → Option Corpse
  | .exit _ corpse => some corpse
  | _ => none

/-- The processes that have executed `exit`, in order. -/
def exits (labels : List Label) : List Corpse := labels.filterMap Label.exited

/-- The pids and statuses that `wait` and `waitpid` have returned, in order. -/
def reaps (labels : List Label) : List Corpse := labels.filterMap Label.reaped

/-- The number of pids that `fork` has allotted. -/
def claims (labels : List Label) : Nat := labels.countP Label.claims

/-- The pages of an exited process: its kernel stack and its page directory. -/
def Corpse.pages (corpse : Corpse) : Multiset Frame :=
  match corpse.kstack with
  | none => 0
  | some kstack => {kstack} + corpse.pgdir.elim 0 Pgdir.frames

theorem Proc.corpse_pages (pr : Proc) : pr.corpse.pages = pr.pages := rfl

/-- What an entry holds of an exited process. -/
def Proc.remains (pr : Proc) : Multiset Corpse := if pr.state = .zombie then {pr.corpse} else 0

/-- The pid of an entry in use. -/
def Proc.livePid (pr : Proc) : Multiset Int := if pr.state = .unused then 0 else {pr.pid}

/-- An optional entry as a collection. -/
def held {α : Type} (entry : Option α) : Multiset α := entry.elim 0 fun value => {value}

theorem exits_append (labels : List Label) (label : Label) :
    (exits (labels ++ [label]) : Multiset Corpse) = exits labels + held label.exited := by
  unfold exits held
  rw [List.filterMap_append, ← Multiset.coe_add]
  cases exited : label.exited with
  | none => simp [exited]
  | some corpse => simp [exited]

theorem reaps_append (labels : List Label) (label : Label) :
    (reaps (labels ++ [label]) : Multiset Corpse) = reaps labels + held label.reaped := by
  unfold reaps held
  rw [List.filterMap_append, ← Multiset.coe_add]
  cases reaped : label.reaped with
  | none => simp [reaped]
  | some corpse => simp [reaped]

theorem claims_append (labels : List Label) (label : Label) :
    claims (labels ++ [label]) = claims labels + if label.claims then 1 else 0 := by
  unfold claims
  rw [List.countP_append, List.countP_singleton]

/-! ## One entry -/

/-- A pass that ends is no `fork` and no `exit`. -/
theorem Label.subject_of_outcome (ended : label.outcome ≠ none) : label.subject = none := by
  cases label with
  | claim p np => exact absurd rfl ended
  | exit p corpse => exact absurd rfl ended
  | _ => rfl

/-- Where the state demands nothing new, nothing of an exited process comes or goes. -/
theorem Proc.remains_congr (state : new.state = old.state ∨ (Alive old ∧ Alive new))
    (corpse : old.state = .zombie → new.corpse = old.corpse) : new.remains = old.remains := by
  unfold Proc.remains
  rcases state with same | ⟨before, after⟩
  · rw [same]
    split
    · next zombie => rw [corpse zombie]
    · rfl
  · rw [if_neg, if_neg]
    · intro zombie
      simp [Alive, zombie] at before
    · intro zombie
      simp [Alive, zombie] at after

theorem Proc.livePid_congr (state : new.state = old.state ∨ (Alive old ∧ Alive new))
    (pid : new.pid = old.pid) : new.livePid = old.livePid := by
  unfold Proc.livePid
  rw [pid]
  rcases state with same | ⟨before, after⟩
  · rw [same]
  · rw [if_neg, if_neg]
    · intro unused
      simp [Alive, unused] at before
    · intro unused
      simp [Alive, unused] at after

theorem Proc.livePid_of_used {pr : Proc} {state : ProcState} (now : pr.state = state)
    (used : state ≠ .unused) : pr.livePid = {pr.pid} := by
  rw [Proc.livePid, now, if_neg used]

/-- What slot `q` gives up of the exited, and what it gets. -/
theorem Entry.remains (entry : Entry s label z q old new)
    (settled : label.outcome = none → z = none) :
    new.remains + (if z = some q then {old.corpse} else 0) =
      old.remains + (if label.subject = some q then held label.exited else 0) := by
  have silent : label.outcome = none → z ≠ some q := by
    intro none
    rw [settled none]
    exact (Option.some_ne_none q).symm
  have nothing : ∀ {pr : Proc} {state : ProcState}, pr.state = state → state ≠ .zombie →
      pr.remains = 0 := by
    intro pr state now alive
    rw [Proc.remains, now, if_neg alive]
  cases entry with
  | same kept notReaped bystander =>
      rw [if_neg notReaped, if_neg bystander, Proc.remains_congr kept.state kept.corpse]
  | claimed p label_eq unused result =>
      subst label_eq
      have embryo : new.state = .embryo := by rw [result]
      rw [if_neg (silent rfl), nothing unused (by decide), nothing embryo (by decide)]
      simp [Label.exited, held]
  | copied p label_eq embryo state _ _ =>
      subst label_eq
      rw [if_neg (silent rfl), nothing embryo (by decide), nothing state (by decide)]
      rfl
  | failed p label_eq embryo state _ =>
      subst label_eq
      rw [if_neg (silent rfl), nothing embryo (by decide), nothing state (by decide)]
      rfl
  | started p label_eq embryo result =>
      subst label_eq
      have runnable : new.state = .runnable := by rw [result]
      rw [if_neg (silent rfl), nothing embryo (by decide), nothing runnable (by decide)]
      rfl
  | exited corpse label_eq running state result _ _ =>
      subst label_eq
      rw [if_neg (silent rfl), nothing running (by decide), Proc.remains, if_pos state, result]
      simp [Label.subject, Label.exited, held]
  | orphaned p corpse label_eq other _ _ _ state same =>
      subst label_eq
      have bystander : (Label.exit p corpse).subject ≠ some q :=
        fun here => other (Option.some.inj here).symm
      rw [if_neg (silent rfl), if_neg bystander, Proc.remains_congr state same]
  | reaped here zombie result =>
      have alone : label.subject = none := Label.subject_of_outcome fun none => silent none here
      have bystander : label.subject ≠ some q := by
        rw [alone]
        exact (Option.some_ne_none q).symm
      have cleared : new.state = .unused := by
        rw [result]
        rfl
      rw [if_pos here, if_neg bystander, nothing cleared (by decide), Proc.remains,
        if_pos zombie, zero_add, add_zero]

/-- Slot `q` gives up a pid when it is reaped, and gets one when it is claimed. -/
theorem Entry.livePid (entry : Entry s label z q old new)
    (settled : label.outcome = none → z = none) :
    new.livePid + (if z = some q then {old.pid} else 0) ≤
      old.livePid + (if label.subject = some q ∧ label.claims = true then {s.nextpid} else 0) := by
  have silent : label.outcome = none → z ≠ some q := by
    intro none
    rw [settled none]
    exact (Option.some_ne_none q).symm
  have keeps : new.livePid ≤ old.livePid → z ≠ some q →
      new.livePid + (if z = some q then {old.pid} else 0) ≤
        old.livePid + (if label.subject = some q ∧ label.claims = true then {s.nextpid} else 0) := by
    intro less notReaped
    rw [if_neg notReaped, add_zero]
    exact less.trans (Multiset.le_add_right _ _)
  have renamed : ∀ {before after : ProcState}, old.state = before → new.state = after →
      before ≠ .unused → after ≠ .unused → new.pid = old.pid → new.livePid ≤ old.livePid := by
    intro before after first second used stillUsed pid
    rw [Proc.livePid_of_used first used, Proc.livePid_of_used second stillUsed, pid]
  cases entry with
  | same kept notReaped _ =>
      exact keeps (Proc.livePid_congr kept.state kept.pid).le notReaped
  | claimed p label_eq unused result =>
      subst label_eq
      have embryo : new.state = .embryo := by rw [result]
      have pid : new.pid = s.nextpid := by rw [result]
      rw [if_neg (silent rfl), if_pos ⟨rfl, rfl⟩, Proc.livePid_of_used embryo (by decide), pid,
        Proc.livePid, if_pos unused, add_zero, zero_add]
  | copied p label_eq embryo state pid _ =>
      subst label_eq
      exact keeps (renamed embryo state (by decide) (by decide) pid) (silent rfl)
  | failed p label_eq embryo state _ =>
      subst label_eq
      refine keeps ?_ (silent rfl)
      rw [Proc.livePid, if_pos state]
      exact Multiset.zero_le _
  | started p label_eq embryo result =>
      subst label_eq
      have runnable : new.state = .runnable := by rw [result]
      exact keeps (renamed embryo runnable (by decide) (by decide) (by rw [result])) (silent rfl)
  | exited corpse label_eq running state _ pid _ =>
      subst label_eq
      exact keeps (renamed running state (by decide) (by decide) pid) (silent rfl)
  | orphaned p corpse label_eq _ _ _ pid state _ =>
      subst label_eq
      exact keeps (Proc.livePid_congr state pid).le (silent rfl)
  | reaped here zombie result =>
      have cleared : new.state = .unused := by
        rw [result]
        rfl
      rw [if_pos here, Proc.livePid_of_used zombie (by decide), Proc.livePid, if_pos cleared,
        zero_add]
      exact Multiset.le_add_right _ _

/-! ## The whole table -/

theorem Effect.settled (effect : Effect s s' label z) (silent : label.outcome = none) :
    z = none := by
  have reaped := effect.reaped
  rw [Label.reaped, silent] at reaped
  exact Option.map_eq_none_iff.mp reaped.symm

/-- The exited change places: a new zombie has exited, and one that is gone was reaped. -/
theorem Effect.remains (effect : Effect s s' label z) :
    ∑ q, (s'.proc q).remains + held label.reaped = ∑ q, (s.proc q).remains + held label.exited := by
  have total := Finset.sum_congr rfl fun q (_ : q ∈ Finset.univ) =>
    (effect.entry q).remains effect.settled
  rw [Finset.sum_add_distrib, Finset.sum_add_distrib, sum_at_option, sum_at_option] at total
  have reaped : held label.reaped = z.elim 0 fun q => {(s.proc q).corpse} := by
    rw [effect.reaped]
    cases z <;> rfl
  have exited : (label.subject.elim 0 fun _ => held label.exited) = held label.exited := by
    cases label with
    | claim p np => cases np <;> rfl
    | _ => rfl
  rw [exited] at total
  rw [reaped]
  exact total

/-- No pid is taken by a step but the one that it allots. -/
theorem Effect.livePids (effect : Effect s s' label z) :
    ∑ q, (s'.proc q).livePid + (held label.reaped).map Corpse.pid ≤
      ∑ q, (s.proc q).livePid + if label.claims then {s.nextpid} else 0 := by
  have total := Finset.sum_le_sum fun q (_ : q ∈ Finset.univ) =>
    (effect.entry q).livePid effect.settled
  rw [Finset.sum_add_distrib, Finset.sum_add_distrib, sum_at_option] at total
  have reaped : (held label.reaped).map Corpse.pid = z.elim 0 fun q => {(s.proc q).pid} := by
    rw [effect.reaped]
    cases z <;> rfl
  have allotted : (∑ q, if label.subject = some q ∧ label.claims = true then
      ({s.nextpid} : Multiset Int) else 0) = if label.claims then {s.nextpid} else 0 := by
    by_cases some : label.claims = true
    · simp only [some, and_true, if_true]
      rw [sum_at_option]
      cases label with
      | claim p np =>
          cases np with
          | none => cases some
          | some np => rfl
      | _ => cases some
    · simp [some]
  rw [allotted] at total
  rw [reaped]
  exact total

/-! ## The whole run -/

/-- The books after the steps `labels`, in state `s`. -/
structure Books (labels : List Label) (s : Kernel) : Prop where
  balance : (exits labels : Multiset Corpse) = reaps labels + ∑ q, (s.proc q).remains
  distinct : ((reaps labels : Multiset Corpse).map Corpse.pid + ∑ q, (s.proc q).livePid).Nodup
  range : ∀ pid ∈ (reaps labels : Multiset Corpse).map Corpse.pid + ∑ q, (s.proc q).livePid,
    0 < pid ∧ pid < s.nextpid
  nextpid : s.nextpid = claims labels + 2

/-- Exits and reaps up to now, after one more step. -/
theorem Books.step (books : Books labels s) (effect : Effect s s' label z)
    (few : claims (labels ++ [label]) + 1 < 2 ^ 31 - 1) : Books (labels ++ [label]) s' := by
  have counter : s'.nextpid = claims (labels ++ [label]) + 2 := by
    rw [effect.nextpid]
    rw [claims_append] at few ⊢
    have before := books.nextpid
    split
    · next allots =>
        rw [if_pos allots] at few
        rw [before, int, Int.bmod_eq_of_le (by omega) (by omega)]
        omega
    · rw [before]
      omega
  have taken : ((reaps (labels ++ [label]) : Multiset Corpse).map Corpse.pid +
      ∑ q, (s'.proc q).livePid) ≤ ((reaps labels : Multiset Corpse).map Corpse.pid +
        ∑ q, (s.proc q).livePid) + if label.claims then {s.nextpid} else 0 := by
    rw [reaps_append, Multiset.map_add, add_assoc, add_assoc, add_comm ((held _).map _)]
    exact add_le_add_right effect.livePids _
  have grows : s.nextpid ≤ s'.nextpid ∧ (label.claims = true → s.nextpid < s'.nextpid) := by
    rw [counter, claims_append, books.nextpid]
    split
    · omega
    · next allots => exact ⟨by omega, fun some => absurd some allots⟩
  refine ⟨?_, Multiset.nodup_of_le taken ?_, fun pid member => ?_, counter⟩
  · rw [exits_append, reaps_append, books.balance, add_assoc, add_assoc, add_comm (held _),
      effect.remains]
  · split
    · refine Multiset.nodup_add.mpr ⟨books.distinct, Multiset.nodup_singleton _, ?_⟩
      refine Multiset.disjoint_right.mpr fun fresh used => ?_
      rw [Multiset.mem_singleton.mp fresh] at used
      exact absurd (books.range _ used).2 (Int.lt_irrefl _)
    · rw [add_zero]
      exact books.distinct
  · rcases Multiset.mem_add.mp (Multiset.mem_of_le taken member) with used | fresh
    · have inRange := books.range pid used
      omega
    · split at fresh
      · next allots =>
          have positive := books.nextpid
          have later := grows.2 allots
          rw [Multiset.mem_singleton.mp fresh]
          omega
      · cases fresh

/-- Only the first process has a pid after boot, and nobody has exited. -/
theorem books_initial (first : (system ld).initial s) : Books [] s := by
  obtain ⟨km, initcode, root, free, ran⟩ := first
  obtain ⟨kstack, d, boot⟩ := userinit_booted free ran
  have remains : ∑ q, (s.proc q).remains = 0 := by
    refine Finset.sum_eq_zero fun q _ => ?_
    refine forall_slot (P := fun _ pr => pr.remains = 0) boot.others ?_ (fun _ _ => rfl) q
    rw [boot.first]
    rfl
  have pids : ∑ q, (s.proc q).livePid = {1} := by
    rw [Finset.sum_congr rfl fun q _ => ?_, sum_at_option (some 0) fun _ => {1}]
    · rfl
    · by_cases here : q = 0
      · rw [here, boot.first, if_pos rfl]
        rfl
      · rw [boot.others q here, if_neg fun same => here (Option.some.inj same).symm]
        rfl
  refine ⟨?_, ?_, fun pid member => ?_, boot.nextpid⟩
  · rw [remains]
    rfl
  · rw [pids]
    exact Multiset.nodup_singleton _
  · rw [pids] at member
    have one : pid = 1 := Multiset.mem_singleton.mp member
    rw [boot.nextpid, one]
    decide

/-- The books of a run that does not exhaust the pids. -/
theorem run_books {first : Kernel} (start : (system ld).initial first)
    (run : (system ld).Run first labels s) (few : claims labels + 1 < 2 ^ 31 - 1) :
    Inv ld s ∧ Books labels s := by
  have both : Inv ld s ∧ (claims labels + 1 < 2 ^ 31 - 1 → Books labels s) := by
    refine run.preservesHistory
      (P := fun labels s => Inv ld s ∧ (claims labels + 1 < 2 ^ 31 - 1 → Books labels s)) ?_
      ⟨Inv.reachable (.start start), fun _ => books_initial start⟩
    rintro labels s label s' ⟨inv, books⟩ step
    obtain ⟨z, effect⟩ := step_effect inv step
    refine ⟨inv.step step, fun few => (books ?_).step effect few⟩
    rw [claims_append] at few
    omega
  exact ⟨both.1, both.2 few⟩

/-- A pass that does not return a status returns `-1`. -/
theorem run_returned {first : Kernel} (start : (system ld).initial first)
    (run : (system ld).Run first labels s) :
    ∀ label ∈ labels, ∀ value, label.outcome = some (.returned value) → value = -1 := by
  have both : Inv ld s ∧
      ∀ label ∈ labels, ∀ value, label.outcome = some (.returned value) → value = -1 := by
    refine run.preservesHistory (P := fun labels s => Inv ld s ∧
      ∀ label ∈ labels, ∀ value, label.outcome = some (.returned value) → value = -1) ?_
      ⟨Inv.reachable (.start start), List.forall_mem_nil _⟩
    rintro labels s label s' ⟨inv, before⟩ step
    obtain ⟨z, effect⟩ := step_effect inv step
    refine ⟨inv.step step, fun other member => ?_⟩
    rcases List.mem_append.mp member with earlier | last
    · exact before other earlier
    · rw [List.mem_singleton.mp last]
      exact effect.returned
  exact both.2

/-! ## Delivery -/

/-- The value that a call returns, and the status that it stores, if it ends. -/
def Outcome.answer : Outcome → Option (Int × Option Int)
  | .returned value => some (value, none)
  | .reaped corpse => some (corpse.pid, some corpse.status)
  | .slept => none

/-- What has become of those who have exited, after the steps `labels`. -/
structure Delivery (ld : Linkage) (labels : List Label) (s : Kernel) : Prop where
  /-- Processes that exit have different pids. -/
  pids : ((exits labels).map Corpse.pid).Nodup
  /-- An answer other than an error is the pid and the status of one of them. -/
  genuine : ∀ label ∈ labels, ∀ outcome value status, label.outcome = some outcome →
    outcome.answer = some (value, status) → 0 ≤ value →
    ∃ corpse ∈ exits labels, label.reaped = some corpse ∧ value = corpse.pid ∧
      status = some corpse.status
  /-- No pid is returned twice. -/
  once : ((reaps labels).map Corpse.pid).Nodup
  /-- Until then the stack and the directory are not free. -/
  kept : ∀ corpse ∈ exits labels, corpse ∉ reaps labels →
    ∃ z, (s.proc z).state = .zombie ∧ (s.proc z).corpse = corpse ∧
      ∀ frame ∈ corpse.pages, frame ∉ s.kmem.freelist
  /-- The next call that returns a status frees the stack and the directory, and nothing else. -/
  freed : ∀ {label s' corpse}, Step ld s label s' → label.reaped = some corpse →
    corpse ∈ exits labels ∧ corpse ∉ reaps labels ∧ corpse.kstack.isSome = true ∧
      corpse.pgdir.isSome = true ∧
      (s'.kmem.freelist : Multiset Frame) = s.kmem.freelist + corpse.pages

theorem Effect.zombie (effect : Effect s s' label (some q)) : (s.proc q).state = .zombie := by
  have ended : label.outcome ≠ none := fun silent => Option.some_ne_none q (effect.settled silent)
  cases effect.entry q with
  | same _ notReaped _ => exact absurd rfl notReaped
  | reaped _ zombie _ => exact zombie
  | claimed _ label_eq _ _ => exact absurd (by rw [label_eq]; rfl) ended
  | copied _ label_eq _ _ _ _ => exact absurd (by rw [label_eq]; rfl) ended
  | failed _ label_eq _ _ _ => exact absurd (by rw [label_eq]; rfl) ended
  | started _ label_eq _ _ => exact absurd (by rw [label_eq]; rfl) ended
  | exited _ label_eq _ _ _ _ _ => exact absurd (by rw [label_eq]; rfl) ended
  | orphaned _ _ label_eq _ _ _ _ _ _ => exact absurd (by rw [label_eq]; rfl) ended

theorem Proc.mem_remains {pr : Proc} {corpse : Corpse} :
    corpse ∈ pr.remains ↔ pr.state = .zombie ∧ pr.corpse = corpse := by
  unfold Proc.remains
  split
  · next zombie => simp [zombie, eq_comm]
  · next alive => simp [alive]

/-- The pids of those who have exited were reaped or are still in the table. -/
theorem Books.pids (books : Books labels s) : ((exits labels).map Corpse.pid).Nodup := by
  have each : ∀ pr : Proc, pr.remains.map Corpse.pid ≤ pr.livePid := by
    intro pr
    unfold Proc.remains
    split
    · next zombie => rw [Proc.livePid_of_used zombie (by decide), Multiset.map_singleton]; rfl
    · exact Multiset.zero_le _
  have total : (∑ q, (s.proc q).remains).map Corpse.pid ≤ ∑ q, (s.proc q).livePid := by
    rw [← Multiset.coe_mapAddMonoidHom, map_sum]
    exact Finset.sum_le_sum fun q _ => each (s.proc q)
  have less := add_le_add_right total ((reaps labels : Multiset Corpse).map Corpse.pid)
  rw [← Multiset.map_add, ← books.balance] at less
  exact Multiset.coe_nodup.mp (Multiset.nodup_of_le less books.distinct)

/--
In every run with fewer than `2 ^ 31 - 1` calls of `allocproc`, that of
`userinit` included, each exit status is returned at most once, with the pid
of the process that has exited with it, by the call that frees its stack and
its page directory.
-/
theorem statuses_delivered {first : Kernel} (start : (system ld).initial first)
    (run : (system ld).Run first labels s) (few : claims labels + 1 < 2 ^ 31 - 1) :
    Delivery ld labels s := by
  obtain ⟨inv, books⟩ := run_books start run few
  have reaped : ∀ corpse ∈ reaps labels, corpse ∈ exits labels := by
    intro corpse member
    have inside : corpse ∈ (exits labels : Multiset Corpse) := by
      rw [books.balance]
      exact Multiset.mem_add.mpr (.inl (Multiset.mem_coe.mpr member))
    exact Multiset.mem_coe.mp inside
  refine ⟨books.pids, fun label member outcome value status ended answer positive => ?_, ?_,
    fun corpse exited waiting => ?_, fun {label s' corpse} step ends => ?_⟩
  · cases outcome with
    | returned failed =>
        cases answer
        rw [run_returned start run label member _ ended] at positive
        exact absurd positive (by decide)
    | reaped corpse =>
        cases answer
        have ends : label.reaped = some corpse := by
          rw [Label.reaped, ended]
          rfl
        exact ⟨corpse, reaped corpse (List.mem_filterMap.mpr ⟨label, member, ends⟩), ends, rfl, rfl⟩
    | slept => cases answer
  · exact Multiset.coe_nodup.mp (Multiset.nodup_add.mp books.distinct).1
  · have inside : corpse ∈ (exits labels : Multiset Corpse) := Multiset.mem_coe.mpr exited
    rw [books.balance, Multiset.mem_add] at inside
    obtain ⟨z, _, held⟩ := Multiset.mem_sum.mp
      (inside.resolve_left fun member => waiting (Multiset.mem_coe.mp member))
    obtain ⟨zombie, same⟩ := Proc.mem_remains.mp held
    refine ⟨z, zombie, same, fun frame member => inv.memory.notFree (p := z) ?_⟩
    rw [← Proc.corpse_pages, same]
    exact member
  · obtain ⟨z, effect⟩ := step_effect inv step
    have found := effect.reaped
    rw [ends] at found
    obtain ⟨q, rfl, same⟩ := Option.map_eq_some_iff.mp found.symm
    have zombie := effect.zombie
    have equipped := (inv.states q).zombie zombie
    subst same
    refine ⟨?_, fun member => ?_, equipped.kstack, equipped.pgdir, effect.freed q rfl⟩
    · have inside : (s.proc q).corpse ∈ (exits labels : Multiset Corpse) := by
        rw [books.balance]
        exact Multiset.mem_add.mpr (.inr (Multiset.mem_sum.mpr
          ⟨q, Finset.mem_univ _, Proc.mem_remains.mpr ⟨zombie, rfl⟩⟩))
      exact Multiset.mem_coe.mp inside
    · -- its pid is still in use, so it has not been returned
      have disjoint := (Multiset.nodup_add.mp books.distinct).2.2
      refine Multiset.disjoint_left.mp disjoint
        (Multiset.mem_map_of_mem Corpse.pid (Multiset.mem_coe.mpr member)) ?_
      refine Multiset.mem_sum.mpr ⟨q, Finset.mem_univ _, ?_⟩
      rw [Proc.livePid_of_used zombie (by decide)]
      exact Multiset.mem_singleton_self _

/-! ## A child that exits and is reaped -/

/-- After the first fork CPU 1 takes up the child, and both run. -/
theorem Started.childRuns {t u : Kernel} {d child : Pgdir} {frame : Frame} {psize pages : Nat}
    (started : Started t d psize pages) (ran : fork sampleLinkage t 0 = .ok (2, u))
    (forked : Forked t u 0 1 d child frame) (spare : (t.cpu 1).proc = none) :
    Step sampleLinkage u (.round 1 (some 1) none) (dispatch u 1 1) ∧
      Free (dispatch u 1 1) 1 1 ∧ Free (dispatch u 1 1) 0 0 := by
  obtain ⟨quiet, free⟩ := started.afterFork ran forked
  have inv := Inv.reachable quiet.ofGuarded
  have runnable : (u.proc 1).state = .runnable := by rw [forked.proc]
  refine ⟨?_, ⟨?_, ?_⟩, ⟨?_, ?_⟩⟩
  · refine step_round_only inv (by rw [forked.cpu]; exact spare) runnable (fun q ready => ?_)
      (.inl (by rw [forked.thread]))
    by_contra other
    rw [forked.others q other] at ready
    by_cases first : q = 0
    · rw [first, started.running] at ready
      cases ready
    · rw [started.others q first] at ready
      cases ready
  · rw [dispatch_cpu, Function.update_self]
  · rw [dispatch_thread, forked.thread]
  · rw [dispatch_cpu, Function.update_of_ne (by decide)]
    exact free.running
  · rw [dispatch_thread]
    exact free.idle

/-- The child exits with status 7. -/
theorem Started.childExits {t u : Kernel} {d child : Pgdir} {frame : Frame} {psize pages : Nat}
    (started : Started t d psize pages) (ran : fork sampleLinkage t 0 = .ok (2, u))
    (forked : Forked t u 0 1 d child frame) (spare : (t.cpu 1).proc = none) :
    ∃ v, (system sampleLinkage).Run u [.round 1 (some 1) none, .exit 1 (v.proc 1).corpse] v ∧
      (system sampleLinkage).Reachable v ∧ Free v 0 0 ∧
      (v.proc 1).pid = 2 ∧ (v.proc 1).exitStatus = 7 ∧ (v.proc 1).state = .zombie ∧
      (v.proc 1).parent = some 0 ∧ (v.proc 0).state = .running ∧ (v.proc 0).pgdir = some d := by
  obtain ⟨quiet, -⟩ := started.afterFork ran forked
  have reached := quiet.ofGuarded
  obtain ⟨round, busy, free⟩ := started.childRuns ran forked spare
  have notInit : (dispatch u 1 1).initproc ≠ some 1 := by
    change u.initproc ≠ some 1
    rw [forked.initproc, started.initproc]
    decide
  obtain ⟨v, leaves⟩ : ∃ v, exit (dispatch u 1 1) 1 1 7 = .ok v := ⟨_, if_neg notInit⟩
  have exits := exit_exited leaves
  have exitStep : Step sampleLinkage (dispatch u 1 1)
      (.exit 1 { ((dispatch u 1 1).proc 1).corpse with status := 7 }) v := .exit busy leaves
  have corpse : { ((dispatch u 1 1).proc 1).corpse with status := 7 } = (v.proc 1).corpse := by
    rw [exits.self]
    rfl
  rw [corpse] at exitStep
  have run : (system sampleLinkage).Run u
      [.round 1 (some 1) none, .exit 1 (v.proc 1).corpse] v :=
    .snoc (.snoc (.nil u) round) exitStep
  obtain ⟨state, result, kept⟩ := exits.others 0 (by decide)
  rw [dispatch_of_ne _ _ _ (by decide : (0 : Slot) ≠ 1), forked.others 0 (by decide)] at result kept
  rw [started.running] at kept
  refine ⟨v, run, reached.run run, ⟨?_, ?_⟩, ?_, ?_, ?_, ?_, ?_, ?_⟩
  · rw [exits.cpu, Function.update_of_ne (by decide)]
    exact free.running
  · rw [exits.thread]
    exact free.idle
  · rw [exits.self, dispatch_self, forked.proc]
    exact started.nextpid
  · rw [exits.self]
  · rw [exits.self]
  · rw [exits.self, dispatch_self, forked.proc]
    rfl
  · rw [result]
    rcases kept with same | ⟨asleep, _⟩
    · exact same
    · cases asleep
  · rw [result]
    exact started.own

/-- The zombie in the second slot is the first one that a process in the first slot finds. -/
theorem first_zombie {v : Kernel} (zombie : (v.proc 1).state = .zombie)
    (parent : (v.proc 1).parent = some 0) (running : (v.proc 0).state = .running) :
    v.first (fun pr => pr.parent = some 0 ∧ pr.state = .zombie) = some 1 := by
  refine Kernel.first_eq_of (decide_eq_true ⟨parent, zombie⟩) fun q before => decide_eq_false ?_
  have zero : q = 0 := Fin.ext (Nat.lt_one_iff.mp before)
  rw [zero, running]
  rintro ⟨_, exited⟩
  cases exited

/-- The parent reaps the child that has exited. -/
theorem Started.reapsChild {t u : Kernel} {d child : Pgdir} {frame : Frame} {psize pages : Nat}
    (started : Started t d psize pages) (ran : fork sampleLinkage t 0 = .ok (2, u))
    (forked : Forked t u 0 1 d child frame) (spare : (t.cpu 1).proc = none) :
    ∃ corpse w, corpse.pid = 2 ∧ corpse.status = 7 ∧ (system sampleLinkage).Run u
      [.round 1 (some 1) none, .exit 1 corpse, .wait 0 (.reaped corpse)] w := by
  obtain ⟨v, run, reached, free, pid, status, zombie, parent, running, _⟩ :=
    started.childExits ran forked spare
  have inv := Inv.reachable reached
  obtain ⟨km, reaped, _⟩ := reap_succeeds inv.memory ((inv.states 1).zombie zombie)
  have waits : wait sampleLinkage v 0 0 =
      .ok (.reaped (v.proc 1).corpse, (v.setKmem km).modify 1 Proc.clear) := by
    unfold wait
    rw [first_zombie zombie parent running]
    exact reaped
  exact ⟨(v.proc 1).corpse, _, pid, status, run.snoc (.wait free waits)⟩

/-- A run in which a child exits with status 7 and its parent gets it. -/
theorem statuses_delivered_child : ∃ first labels s corpse,
    (system sampleLinkage).initial first ∧ (system sampleLinkage).Run first labels s ∧
    corpse.pid = 2 ∧ corpse.status = 7 ∧ exits labels = [corpse] ∧ reaps labels = [corpse] ∧
    Delivery sampleLinkage labels s := by
  obtain ⟨s, kstack, d, first, boot, layout, enough⟩ := sample_boots (by decide : 100 ≤ 0x800)
  have round := boot.round (sampleKmem_free (by decide)) 0
  have started := boot.started (sampleKmem_free (by decide)) first layout enough
  obtain ⟨u, child, frame, ran, forked⟩ := started.forks (by decide) (by decide)
  obtain ⟨np, forks⟩ := fork_run (Inv.reachable started.reached) started.free ran (by decide)
  obtain ⟨corpse, w, pid, status, ends⟩ := started.reapsChild ran forked (by
    rw [dispatch_cpu, Function.update_of_ne (by decide), boot.cpu])
  have run := ((System.Run.snoc (.nil s) round).append forks).append ends
  refine ⟨s, _, w, corpse, first, run, pid, status, rfl, rfl, statuses_delivered first run ?_⟩
  change 1 + 1 < 2 ^ 31 - 1
  decide

end SlabStudy.Xv6
