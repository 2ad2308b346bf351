import SlabStudy.Xv6.Pipe

/-!
# Wakeups on a pipe

A process sleeps on `&p->nread` to wait for bytes and on `&p->nwrite` to wait
for room.  Whoever ends the wait wakes the sleepers before it lets go of the
lock, with one exception: a writer that has filled the pipe and then finds
itself killed returns without a wakeup, and leaves readers asleep behind it.
-/

namespace SlabStudy.Xv6

open Library

/-! ## Who can fall asleep -/

/-- Everybody who sleeps on `address` in the second table does so in the first one. -/
def Stirs (address : Nat) (table table' : Slot → Proc) : Prop :=
  ∀ q, (table' q).SleepsOn address → (table q).SleepsOn address

section Stirs

variable {ld : Linkage} {s s' : Kernel} {c : Fin ncpu} {p np : Slot} {address : Nat}
  {table table' last : Slot → Proc}

theorem Stirs.refl (table : Slot → Proc) : Stirs address table table := fun _ asleep => asleep

theorem Stirs.trans (first : Stirs address table table') (second : Stirs address table' last) :
    Stirs address table last :=
  fun q asleep => first q (second q asleep)

/-- One entry changes, and does not fall asleep. -/
theorem Stirs.update {new : Proc} (kept : new.SleepsOn address → (table p).SleepsOn address) :
    Stirs address table (Function.update table p new) := by
  intro q asleep
  by_cases here : q = p
  · rw [here] at asleep ⊢
    rw [Function.update_self] at asleep
    exact kept asleep
  · rwa [Function.update_of_ne here] at asleep

/-- One entry changes, and is not asleep then. -/
theorem Stirs.awake {new : Proc} (awake : new.state ≠ .sleeping) :
    Stirs address table (Function.update table p new) :=
  .update fun asleep => absurd asleep.1 awake

/-- One entry changes, and sleeps as before. -/
theorem Stirs.kept {new : Proc} (state : new.state = (table p).state)
    (chan : new.chan = (table p).chan) : Stirs address table (Function.update table p new) :=
  .update fun asleep => ⟨state.symm.trans asleep.1, chan.symm.trans asleep.2⟩

theorem wakeup1_stirs (chan : Option Chan) (table : Slot → Proc) :
    Stirs address table (wakeup1 chan table) := by
  intro q asleep
  unfold wakeup1 at asleep
  split at asleep
  · cases asleep.1
  · exact asleep

theorem reparent_stirs (initproc : Option Slot) (slots : List Slot) (table : Slot → Proc) :
    Stirs address table (reparent p initproc slots table) := by
  induction slots generalizing table with
  | nil => exact .refl _
  | cons q rest ih =>
      rw [reparent]
      split
      · have moved : Stirs address table
            (Function.update table q { table q with parent := initproc }) := .kept rfl rfl
        refine moved.trans (Stirs.trans ?_ (ih _))
        split
        · exact wakeup1_stirs _ _
        · exact .refl _
      · exact ih _

theorem exit_stirs {status : Int} (ran : exit s c p status = .ok s') :
    Stirs address s.proc s'.proc := by
  unfold exit at ran
  split at ran
  · cases ran
  · cases ran
    have closed : Stirs address s.proc
        (s.modify p fun pr => { pr with ofile := fun _ => none, cwd := none }).proc := .kept rfl rfl
    exact closed.trans ((wakeup1_stirs _ _).trans ((reparent_stirs _ _ _).trans
      (.awake ProcState.noConfusion)))

/-- Who sleeps on a process does not sleep on another kernel object. -/
theorem sleep_stirs {chan : Option Chan} {resume : Resume} (other : chan ≠ some (.other address)) :
    Stirs address s.proc (sleep s c p chan resume).proc :=
  .update fun asleep => absurd asleep.2 other

theorem reap_stirs {outcome : Outcome} {q : Slot} (ran : reap ld s q = .ok (outcome, s')) :
    Stirs address s.proc s'.proc := by
  unfold reap at ran
  split at ran
  · cases ran
  · obtain ⟨_, _, rest⟩ := Kern.bind_eq_ok.mp ran
    obtain ⟨_, _, last⟩ := Kern.bind_eq_ok.mp rest
    cases last
    exact .awake ProcState.noConfusion

theorem wait_stirs {outcome : Outcome} (ran : wait ld s c p = .ok (outcome, s')) :
    Stirs address s.proc s'.proc := by
  rcases wait_cases ran with ⟨_, _, _, reaped⟩ | ⟨_, rfl⟩ | ⟨_, rfl, _⟩
  · exact reap_stirs reaped
  · exact .refl _
  · exact sleep_stirs (by simp)

theorem waitpid_stirs {outcome : Outcome} {pid : Int}
    (ran : waitpid ld s c p pid = .ok (outcome, s')) : Stirs address s.proc s'.proc := by
  rcases waitpid_cases ran with ⟨_, _, _, reaped⟩ | ⟨_, rfl⟩ | ⟨_, _, _, _, _, rfl⟩
  · exact reap_stirs reaped
  · exact .refl _
  · exact sleep_stirs (by simp)

theorem scheduler_stirs {chosen : Option Slot} {outcome : Option Outcome}
    (ran : scheduler ld s c = .ok (chosen, outcome, s')) : Stirs address s.proc s'.proc := by
  obtain ⟨_, ⟨_, _, rfl⟩ | ⟨p, _, resumed⟩⟩ := scheduler_eq_ok ran
  · exact .refl _
  · have entered : Stirs address s.proc (dispatch s c p).proc := .awake ProcState.noConfusion
    have tidied : Stirs address (dispatch s c p).proc (sleepTidy (dispatch s c p) p).proc :=
      .update fun asleep => nomatch asleep.2
    refine entered.trans ?_
    unfold resume at resumed
    split at resumed
    · cases resumed
      exact .refl _
    · cases resumed
      exact .refl _
    · cases resumed
      exact tidied
    · obtain ⟨_, waited, last⟩ := Kern.bind_eq_ok.mp resumed
      cases last
      exact tidied.trans (wait_stirs waited)
    · obtain ⟨_, waited, last⟩ := Kern.bind_eq_ok.mp resumed
      cases last
      exact tidied.trans (waitpid_stirs waited)

theorem growproc_stirs {n value : Int} (ran : growproc ld s p n = .ok (value, s')) :
    Stirs address s.proc s'.proc := by
  have resized {result : Nat} {km : Kmem} {d : Pgdir}
      (ended : growprocResize s p (result, km, d) = .ok (value, s')) :
      Stirs address s.proc s'.proc := by
    rcases growprocResize_eq_ok ended with ⟨_, _, rfl⟩ | ⟨_, _, rfl⟩ <;> exact .kept rfl rfl
  cases own : (s.proc p).pgdir with
  | none =>
      rw [growproc, own] at ran
      cases ran
  | some d =>
      rcases growproc_eq_ok own ran with
        ⟨_, _, _, _, _, ended⟩ | ⟨_, _, _, _, _, ended⟩ | ⟨_, _, rfl⟩
      · exact resized ended
      · exact resized ended
      · exact .refl _

theorem pgflt_stirs {va : Nat} {user : Bool} (ran : pgflt ld s p va user = .ok s') :
    Stirs address s.proc s'.proc := by
  cases own : (s.proc p).pgdir with
  | none =>
      unfold pgflt at ran
      rw [own] at ran
      split at ran
      · cases ran
      · split at ran
        · cases ran
          exact .kept rfl rfl
        · cases ran
  | some d =>
      rcases pgflt_eq_ok own ran with ⟨_, _, _, _, _, _, _, _, rfl⟩ | ⟨_, _, rfl⟩ <;>
        exact .kept rfl rfl

theorem allocprocStack_stirs (s : Kernel) (np : Slot) :
    Stirs address s.proc (allocprocStack s np).2.proc := by
  unfold allocprocStack
  split
  · exact .awake ProcState.noConfusion
  · exact .kept rfl rfl

theorem forkCopy_stirs {copied : Bool} (ran : forkCopy ld s p np = .ok (copied, s')) :
    Stirs address s.proc s'.proc := by
  have stacked : Stirs address s.proc (allocprocStack s np).2.proc := allocprocStack_stirs s np
  unfold forkCopy at ran
  split at ran
  · next t none =>
      rw [none] at stacked
      cases ran
      exact stacked
  · next t some =>
      rw [some] at stacked
      refine stacked.trans ?_
      split at ran
      · cases ran
      · obtain ⟨⟨result, km⟩, _, ended⟩ := Kern.bind_eq_ok.mp ran
        unfold forkCopied at ended
        split at ended
        · cases ended
          exact .kept rfl rfl
        · split at ended
          · cases ended
          · obtain ⟨_, _, last⟩ := Kern.bind_eq_ok.mp ended
            cases last
            exact .awake ProcState.noConfusion

/-- Nobody falls asleep on a kernel object but by a `sleep` on it. -/
theorem step_stirs {label : Label} (step : Step ld s label s')
    (other : label.sleepsOn ≠ some address) : Stirs address s.proc s'.proc := by
  cases step with
  | round idle ran => exact scheduler_stirs ran
  | claimNone free full => exact .refl _
  | claimSome free claimed =>
      obtain ⟨_, _, rfl⟩ := allocprocClaim_eq_some claimed
      exact .awake ProcState.noConfusion
  | copyFails running pending ran =>
      have copied : Stirs address s.proc _ := forkCopy_stirs ran
      exact copied
  | copyDone running pending ran =>
      have copied : Stirs address s.proc _ := forkCopy_stirs ran
      exact copied
  | start running pending => exact .awake ProcState.noConfusion
  | exit free ran => exact exit_stirs ran
  | wait free ran => exact wait_stirs ran
  | waitpid free ran => exact waitpid_stirs ran
  | kill pid free =>
      unfold kill
      split
      · exact .refl _
      · refine .awake fun asleep => ?_
        dsimp only at asleep
        split at asleep
        · cases asleep
        · next awake => exact awake asleep
  | @setpriority c p pid priority free =>
      have changed : Stirs address s.proc (setpriority s p pid priority).2.proc := by
        unfold setpriority
        split
        · exact .refl _
        · dsimp only
          split
          · exact .refl _
          · exact .kept rfl rfl
      split
      · exact changed
      · exact changed
  | priorityYield running pending => exact .awake ProcState.noConfusion
  | preempt running => exact .awake ProcState.noConfusion
  | sleep at_ free =>
      refine sleep_stirs fun same => other ?_
      cases same
      rfl
  | wakeup at_ => exact wakeup1_stirs _ _
  | pages free apart => exact .refl _
  | sbrk free ran => exact growproc_stirs ran
  | pgflt free ran => exact pgflt_stirs ran
  | exec free old conserved untouched bounded => exact .kept rfl rfl
  | user free own stores => exact .kept rfl rfl

/-- Nobody sleeps on a channel right after a wakeup on it. -/
theorem wakeup_awake (s : Kernel) (address : Nat) (q : Slot) :
    ¬ ((wakeup s (some (.other address))).proc q).SleepsOn address := by
  intro asleep
  change (wakeup1 _ s.proc q).SleepsOn address at asleep
  unfold wakeup1 at asleep
  split at asleep
  · cases asleep.1
  · next awake => exact awake asleep

end Stirs

/-! ## The loops at the ends of the buffer -/

namespace Pipe

theorem not_empty_of_full {p : Pipe} (full : p.full = true) : p.empty = false := by
  rw [Pipe.full, beq_iff_eq] at full
  rw [Pipe.empty, full, beq_eq_false_iff_ne]
  simp

/-- Nothing is stored into a full pipe. -/
theorem writeLoop_full {p : Pipe} (full : p.full = true) (rest : List UInt8) :
    (writeLoop rest p).2.2 = p := by
  cases rest with
  | nil => rfl
  | cons byte rest => rw [writeLoop, if_pos full]

theorem writeLoop_readopen (p : Pipe) (rest : List UInt8) :
    (writeLoop rest p).2.2.readopen = p.readopen := by
  induction rest generalizing p with
  | nil => rfl
  | cons byte rest ih =>
      rw [writeLoop]
      split
      · rfl
      · exact ih (p.store byte)

/-- Every byte is stored or left over. -/
theorem writeLoop_append (p : Pipe) (rest : List UInt8) :
    (writeLoop rest p).1 ++ (writeLoop rest p).2.1 = rest := by
  induction rest generalizing p with
  | nil => rfl
  | cons byte rest ih =>
      rw [writeLoop]
      split
      · rfl
      · exact congrArg (byte :: ·) (ih (p.store byte))

/-- A new pipe leaves something over of what is more than it has room for. -/
theorem writeLoop_fresh (data : Fin pipesize → UInt8) {rest : List UInt8}
    (more : pipesize < rest.length) : (writeLoop rest (.fresh data)).2.1 ≠ [] := by
  intro none
  have new : (fresh data).ring.Holds (2 ^ 32) [] 0 := .empty rfl rfl
  have room := (writeLoop_spec new rest).room
  have whole := writeLoop_append (.fresh data) rest
  rw [none, List.append_nil] at whole
  rw [whole, List.nil_append] at room
  omega

/-- Bytes are left over by a full pipe only. -/
theorem writeLoop_stops {p : Pipe} {rest : List UInt8} (left : (writeLoop rest p).2.1 ≠ []) :
    (writeLoop rest p).2.2.full = true := by
  induction rest generalizing p with
  | nil => exact absurd rfl left
  | cons byte rest ih =>
      rw [writeLoop] at left ⊢
      split
      · next full => exact full
      · next room =>
          rw [if_neg room] at left
          exact ih left

end Pipe

/-! ## The invariant -/

/-- Who waits for bytes has a reason to wait. -/
def ReadersWait (page : Nat) (s : PipeState) : Prop :=
  ∀ q, (s.kernel.proc q).SleepsOn (nreadChan page) →
    s.pipe.empty = true ∧ s.pipe.writeopen = true

/-- Who waits for room has a reason to wait. -/
def WritersWait (page : Nat) (s : PipeState) : Prop :=
  ∀ q, (s.kernel.proc q).SleepsOn (nwriteChan page) →
    s.pipe.full = true ∧ s.pipe.readopen = true

/-- Both kinds have a reason whenever the lock is free; its holder may owe one of them a wakeup. -/
def PipeInv (page : Nat) (s : PipeState) : Prop :=
  match s.holder with
  | .stored _ rest => WritersWait page s ∧ (rest ≠ [] → s.pipe.full = true)
  | .copied _ => ReadersWait page s
  | .waits _ =>
      (ReadersWait page s ∧ WritersWait page s) ∧ s.pipe.empty = true ∧ s.pipe.writeopen = true
  | _ => ReadersWait page s ∧ WritersWait page s

/-- A writer with bytes left is about to return without a wakeup. -/
structure GivesUp (s : PipeState) (p : Slot) : Prop where
  left : ∃ n byte rest, s.call p = .stored n (byte :: rest)
  hopeless : s.pipe.readopen = false ∨ (s.kernel.proc p).killed = true

/-- The process that comes to the end of a section of `pipewrite`. -/
def PipeLabel.writer : PipeLabel → Option Slot
  | .writeEnds p _ => some p
  | _ => none

/-- No writer gives up while a reader sleeps. -/
def Considerate (page : Nat) (s : PipeState) (label : PipeLabel) : Prop :=
  ∀ p, label.writer = some p → GivesUp s p →
    ∀ q, ¬ (s.kernel.proc q).SleepsOn (nreadChan page)

section Invariant

variable {ld : Linkage} {page : Nat} {s s' : PipeState} {label : PipeLabel} {p : Slot}

theorem nreadChan_ne : nreadChan page ≠ nwriteChan page := by
  unfold nwriteChan
  omega

theorem chan_ne {one other : Nat} (apart : one ≠ other) :
    some (Chan.other one) ≠ some (Chan.other other) :=
  fun same => apart (Chan.other.inj (Option.some.inj same))

theorem ReadersWait.mono (wait : ReadersWait page s)
    (stirs : Stirs (nreadChan page) s.kernel.proc s'.kernel.proc)
    (empty : s'.pipe.empty = s.pipe.empty) (writeopen : s'.pipe.writeopen = s.pipe.writeopen) :
    ReadersWait page s' := by
  intro q asleep
  rw [empty, writeopen]
  exact wait q (stirs q asleep)

theorem WritersWait.mono (wait : WritersWait page s)
    (stirs : Stirs (nwriteChan page) s.kernel.proc s'.kernel.proc)
    (full : s'.pipe.full = s.pipe.full) (readopen : s'.pipe.readopen = s.pipe.readopen) :
    WritersWait page s' := by
  intro q asleep
  rw [full, readopen]
  exact wait q (stirs q asleep)

theorem PipeState.holder_unlocked (unlocked : s.lock = none) : s.holder = .away := by
  rw [holder, unlocked]

theorem PipeState.holder_locked (locked : s.lock = some p) : s.holder = s.call p := by
  rw [holder, locked]

/-- Whenever the lock is free everybody has a reason to sleep. -/
theorem PipeInv.unlocked (inv : PipeInv page s) (unlocked : s.lock = none) :
    ReadersWait page s ∧ WritersWait page s := by
  rw [PipeInv, PipeState.holder_unlocked unlocked] at inv
  exact inv

theorem PipeInv.of_unlocked (unlocked : s.lock = none) (readers : ReadersWait page s)
    (writers : WritersWait page s) : PipeInv page s := by
  rw [PipeInv, PipeState.holder_unlocked unlocked]
  exact ⟨readers, writers⟩

theorem PipeInv.stored (inv : PipeInv page s) (locked : s.lock = some p) {n : Int}
    {rest : List UInt8} (call : s.call p = .stored n rest) :
    WritersWait page s ∧ (rest ≠ [] → s.pipe.full = true) := by
  rw [PipeInv, PipeState.holder_locked locked, call] at inv
  exact inv

/-- Entering a call changes neither the pipe nor a sleeper. -/
theorem PipeInv.calls (inv : PipeInv page s) (away : s.call p = .away) {call : Call}
    (enters : (∃ n rest, call = .write n rest) ∨ ∃ n, call = .read n) :
    PipeInv page { s with call := Function.update s.call p call } := by
  obtain unlocked | ⟨q, locked⟩ := s.lock.eq_none_or_eq_some
  · obtain ⟨readers, writers⟩ := inv.unlocked unlocked
    exact .of_unlocked unlocked readers writers
  · have holder : ({ s with call := Function.update s.call p call } : PipeState).holder =
        Function.update s.call p call q := PipeState.holder_locked locked
    rw [PipeInv, PipeState.holder_locked locked] at inv
    rw [PipeInv, holder]
    by_cases same : q = p
    · rw [same, away] at inv
      rw [same, Function.update_self]
      rcases enters with ⟨n, rest, rfl⟩ | ⟨n, rfl⟩ <;> exact inv
    · rw [Function.update_of_ne same]
      exact inv

theorem PipeInv.writeStore (inv : PipeInv page s) (unlocked : s.lock = none) (n : Int)
    (rest : List UInt8) : PipeInv page (s.writeStore p n rest) := by
  obtain ⟨readers, writers⟩ := inv.unlocked unlocked
  have holder : (s.writeStore p n rest).holder = .stored n (Pipe.writeLoop rest s.pipe).2.1 :=
    Function.update_self _ _ _
  rw [PipeInv, holder]
  refine ⟨fun q asleep => ?_, Pipe.writeLoop_stops⟩
  -- where somebody waits for room there is none, and the loop stops at once
  obtain ⟨full, opened⟩ := writers q asleep
  change (Pipe.writeLoop rest s.pipe).2.2.full = true ∧
    (Pipe.writeLoop rest s.pipe).2.2.readopen = true
  rw [Pipe.writeLoop_full full rest]
  exact ⟨full, opened⟩

theorem PipeInv.writeEnd (inv : PipeInv page s) (locked : s.lock = some p) {n : Int}
    {rest : List UInt8} (call : s.call p = .stored n rest) (c : Fin ncpu)
    (considerate : GivesUp s p → ∀ q, ¬ (s.kernel.proc q).SleepsOn (nreadChan page)) :
    PipeInv page (s.writeEnd page c p n rest).2 := by
  obtain ⟨writers, stopped⟩ := inv.stored locked call
  have woken : Stirs (nwriteChan page) s.kernel.proc
      (wakeup s.kernel (some (.other (nreadChan page)))).proc := wakeup1_stirs _ _
  cases rest with
  | nil =>
      refine .of_unlocked rfl (fun q asleep => ?_) (writers.mono woken rfl rfl)
      exact absurd asleep (wakeup_awake s.kernel (nreadChan page) q)
  | cons byte rest =>
      have full := stopped (List.cons_ne_nil _ _)
      rw [PipeState.writeEnd]
      split
      · next hopeless =>
          refine .of_unlocked rfl (fun q asleep => ?_) writers
          exact absurd asleep (considerate ⟨⟨n, byte, rest, call⟩, hopeless⟩ q)
      · next hopeful =>
          have opened : s.pipe.readopen = true :=
            Bool.eq_true_of_not_eq_false fun closed => hopeful (.inl closed)
          refine .of_unlocked rfl (fun q asleep => False.elim ?_) fun _ _ => ⟨full, opened⟩
          have before := sleep_stirs (chan_ne nreadChan_ne.symm) q asleep
          exact wakeup_awake s.kernel (nreadChan page) q before

theorem PipeInv.readTake (inv : PipeInv page s) (unlocked : s.lock = none) (n : Int) :
    PipeInv page (s.readTake p n) := by
  obtain ⟨readers, writers⟩ := inv.unlocked unlocked
  unfold PipeState.readTake
  split
  · next waits =>
      have holder : ({ s with
          lock := some p, call := Function.update s.call p (.waits n) } : PipeState).holder =
          .waits n := Function.update_self _ _ _
      rw [PipeInv, holder]
      exact ⟨⟨readers, writers⟩, waits⟩
  · next goes =>
      have holder : ({ s with
          pipe := (Pipe.readLoop n.toNat s.pipe).2
          lock := some p
          call := Function.update s.call p (.copied (Pipe.readLoop n.toNat s.pipe).1) } :
            PipeState).holder = .copied (Pipe.readLoop n.toNat s.pipe).1 :=
        Function.update_self _ _ _
      rw [PipeInv, holder]
      exact fun q asleep => absurd (readers q asleep) goes

theorem PipeInv.readWait (inv : PipeInv page s) (locked : s.lock = some p) {n : Int}
    (call : s.call p = .waits n) (c : Fin ncpu) : PipeInv page (s.readWait page c p n).2 := by
  rw [PipeInv, PipeState.holder_locked locked, call] at inv
  obtain ⟨⟨readers, writers⟩, reason⟩ := inv
  rw [PipeState.readWait]
  split
  · exact .of_unlocked rfl readers writers
  · exact .of_unlocked rfl (fun _ _ => reason)
      (writers.mono (sleep_stirs (chan_ne nreadChan_ne)) rfl rfl)

theorem PipeInv.readEnd (inv : PipeInv page s) (locked : s.lock = some p) {bytes : List UInt8}
    (call : s.call p = .copied bytes) : PipeInv page (s.readEnd page p) := by
  rw [PipeInv, PipeState.holder_locked locked, call] at inv
  have woken : Stirs (nreadChan page) s.kernel.proc
      (wakeup s.kernel (some (.other (nwriteChan page)))).proc := wakeup1_stirs _ _
  refine .of_unlocked rfl (ReadersWait.mono inv woken rfl rfl) fun q asleep => ?_
  exact absurd asleep (wakeup_awake s.kernel (nwriteChan page) q)

theorem PipeInv.close (inv : PipeInv page s) (unlocked : s.lock = none) (writable : Bool) :
    PipeInv page (s.pipeclose page writable).2 := by
  obtain ⟨readers, writers⟩ := inv.unlocked unlocked
  cases writable with
  | true =>
      have woken : Stirs (nwriteChan page) s.kernel.proc
          (wakeup s.kernel (some (.other (nreadChan page)))).proc := wakeup1_stirs _ _
      refine .of_unlocked unlocked (fun q asleep => ?_) (writers.mono woken rfl rfl)
      exact absurd asleep (wakeup_awake s.kernel (nreadChan page) q)
  | false =>
      have woken : Stirs (nreadChan page) s.kernel.proc
          (wakeup s.kernel (some (.other (nwriteChan page)))).proc := wakeup1_stirs _ _
      refine .of_unlocked unlocked (readers.mono woken rfl rfl) fun q asleep => ?_
      exact absurd asleep (wakeup_awake s.kernel (nwriteChan page) q)

/-- What has nothing to do with the pipe puts nobody to sleep on it. -/
theorem PipeInv.elsewhere (inv : PipeInv page s) {kernel : Kernel}
    (reads : Stirs (nreadChan page) s.kernel.proc kernel.proc)
    (writes : Stirs (nwriteChan page) s.kernel.proc kernel.proc) :
    PipeInv page { s with kernel := kernel } := by
  have readers (wait : ReadersWait page s) : ReadersWait page { s with kernel := kernel } :=
    wait.mono reads rfl rfl
  have writers (wait : WritersWait page s) : WritersWait page { s with kernel := kernel } :=
    wait.mono writes rfl rfl
  have holder : ({ s with kernel := kernel } : PipeState).holder = s.holder := rfl
  rw [PipeInv] at inv
  rw [PipeInv, holder]
  cases call : s.holder with rw [call] at inv
  | away => exact ⟨readers inv.1, writers inv.2⟩
  | write n rest => exact ⟨readers inv.1, writers inv.2⟩
  | stored n rest => exact ⟨writers inv.1, inv.2⟩
  | read n => exact ⟨readers inv.1, writers inv.2⟩
  | waits n => exact ⟨⟨readers inv.1.1, writers inv.1.2⟩, inv.2⟩
  | copied bytes => exact readers inv

theorem PipeInv.step (inv : PipeInv page s) (step : PipeStep ld page s label s')
    (considerate : Considerate page s label) : PipeInv page s' := by
  cases step with
  | write n addr free away size => exact inv.calls away (.inl ⟨n, addr, rfl⟩)
  | read n free away => exact inv.calls away (.inr ⟨n, rfl⟩)
  | writeStore free unlocked call => exact inv.writeStore unlocked _ _
  | writeEnd free locked call => exact inv.writeEnd locked call _ (considerate _ rfl)
  | readTake free unlocked call => exact inv.readTake unlocked _
  | readWait free locked call => exact inv.readWait locked call _
  | readEnd free locked call => exact inv.readEnd locked call
  | close writable unlocked => exact inv.close unlocked writable
  | elsewhere step away others =>
      exact inv.elsewhere (step_stirs step fun same => (others _ same).1 rfl)
        (step_stirs step fun same => (others _ same).2 rfl)

theorem PipeInv.reachable
    (reached : ((pipeSystem ld page).guarded (Considerate page)).Reachable s) :
    PipeInv page s := by
  refine reached.invariant (P := PipeInv page) ?_ ?_
  · rintro s ⟨_, unlocked, _, awake⟩
    exact .of_unlocked unlocked (fun q asleep => absurd asleep (awake q).1)
      fun q asleep => absurd asleep (awake q).2
  · rintro s label s' inv ⟨considerate, _, step⟩
    exact inv.step step considerate

/-- A writer that gives up while a reader sleeps leaves it asleep at a full pipe. -/
theorem PipeInv.inconsiderate (inv : PipeInv page s) (step : PipeStep ld page s label s')
    (careless : ¬ Considerate page s label) : s'.lock = none ∧ ¬ ReadersWait page s' := by
  unfold Considerate at careless
  push Not at careless
  obtain ⟨p, writes, ⟨⟨m, byte, rest, left⟩, hopeless⟩, q, asleep⟩ := careless
  cases step with
  | writeEnd free locked call =>
      cases writes
      rw [left] at call
      cases call
      have full := (inv.stored locked left).2 (List.cons_ne_nil _ _)
      rw [PipeState.writeEnd, if_pos hopeless]
      refine ⟨rfl, fun readers => ?_⟩
      have empty : s.pipe.empty = true := (readers q asleep).1
      rw [Pipe.not_empty_of_full full] at empty
      cases empty
  | _ => cases writes

end Invariant

/-! ## A reader and a writer -/

/-- Steps other than the ends of `pipewrite` are always possible. -/
theorem PipeStep.reached {ld : Linkage} {page : Nat} {s s' : PipeState} {label : PipeLabel}
    (reached : ((pipeSystem ld page).guarded (Considerate page)).Reachable s)
    (opened : s.pipe.readopen ∨ s.pipe.writeopen) (step : PipeStep ld page s label s')
    (other : label.writer = none) :
    ((pipeSystem ld page).guarded (Considerate page)).Reachable s' := by
  refine reached.step ⟨fun p writes => ?_, opened, step⟩
  rw [other] at writes
  cases writes

/-- Process 1 calls `piperead` and sleeps, while the others still run. -/
theorem reader_falls_asleep :
    ∃ s, ((pipeSystem sampleLinkage 0x1000).guarded (Considerate 0x1000)).Reachable s ∧
      s.kernel = sleep threeRunning 0 0 (some (.other (nreadChan 0x1000))) .sleep ∧
      s.pipe = .fresh (fun _ => 0) ∧ s.lock = none ∧ ∀ q, q ≠ 0 → s.call q = .away := by
  have free : Free threeOnPipe.kernel 0 0 := ⟨rfl, rfl⟩
  have start : ((pipeSystem sampleLinkage 0x1000).guarded (Considerate 0x1000)).Reachable
      threeOnPipe := .start (threeOnPipe_initial sampleLinkage 0x1000)
  have called := PipeStep.reached start (.inl rfl) (.read 1 free rfl) rfl
  have waits := PipeStep.reached called (.inl rfl) (.readTake free rfl rfl) rfl
  have slept := PipeStep.reached waits (.inl rfl) (.readWait free rfl rfl) rfl
  refine ⟨_, slept, rfl, rfl, rfl, fun q other => ?_⟩
  rw [PipeState.readWait, if_neg (by decide)]
  change Function.update (Function.update (Function.update (fun _ => Call.away) 0 _) 0 _) 0 _ q = _
  rw [Function.update_of_ne other, Function.update_of_ne other, Function.update_of_ne other]

/-- Process 2 then writes more than the pipe has room for, and comes to the full pipe. -/
theorem writer_fills_pipe :
    ∃ s, ((pipeSystem sampleLinkage 0x1000).guarded (Considerate 0x1000)).Reachable s ∧
      s.kernel = sleep threeRunning 0 0 (some (.other (nreadChan 0x1000))) .sleep ∧
      s.pipe.readopen = true ∧ s.lock = some 1 ∧
      (∃ n byte rest, s.call 1 = .stored n (byte :: rest)) ∧ s.call 2 = .away := by
  obtain ⟨s, asleep, kernel, pipe, unlocked, away⟩ := reader_falls_asleep
  have opened : s.pipe.readopen = true := by rw [pipe]; rfl
  have writer : Free s.kernel 1 1 := by
    rw [kernel]
    exact ⟨rfl, rfl⟩
  obtain ⟨addr, size⟩ : ∃ addr : List UInt8, addr.length = 513 :=
    ⟨List.replicate 513 0, List.length_replicate⟩
  have called := PipeStep.reached asleep (.inl opened)
    (.write 513 addr writer (away 1 (by decide)) size) rfl
  have stored := PipeStep.reached called (.inl opened)
    (.writeStore writer unlocked (Function.update_self (1 : Slot) (.write 513 addr) s.call)) rfl
  have left : (Pipe.writeLoop addr s.pipe).2.1 ≠ [] := by
    rw [pipe]
    exact Pipe.writeLoop_fresh _ (by rw [size]; decide)
  obtain ⟨byte, rest, split⟩ := List.exists_cons_of_ne_nil left
  have apart : (2 : Slot) ≠ 1 := by decide
  refine ⟨_, stored, kernel, ?_, rfl, ⟨513, byte, rest, ?_⟩, ?_⟩
  · exact (Pipe.writeLoop_readopen _ _).trans opened
  · simp only [PipeState.writeStore, Function.update_self, split]
  · simp only [PipeState.writeStore, Function.update_of_ne apart]
    exact away 2 (by decide)

/-! ## The result -/

/-- At every point where the lock is free, as long as no writer gives up while a reader sleeps:
who sleeps on the pipe has a reason to.  A step keeps this up exactly when it is no such writer. -/
theorem no_lost_wakeup {ld : Linkage} {page : Nat} {s : PipeState}
    (reached : ((pipeSystem ld page).guarded (Considerate page)).Reachable s) :
    (s.lock = none → ReadersWait page s ∧ WritersWait page s) ∧
    ∀ label s', (pipeSystem ld page).step s label s' →
      ((s'.lock = none → ReadersWait page s' ∧ WritersWait page s') ↔
        Considerate page s label) := by
  have inv := PipeInv.reachable reached
  refine ⟨inv.unlocked, fun label s' step => ⟨fun waits => ?_, fun considerate => ?_⟩⟩
  · by_contra careless
    obtain ⟨unlocked, lost⟩ := inv.inconsiderate step.2 careless
    exact lost (waits unlocked).1
  · exact (inv.step step.2 considerate).unlocked

/-- A reader that sleeps on an empty pipe. -/
theorem reader_sleeps_on_empty_pipe :
    ∃ s, ((pipeSystem sampleLinkage 0x1000).guarded (Considerate 0x1000)).Reachable s ∧
      (s.kernel.proc 0).SleepsOn (nreadChan 0x1000) ∧ s.pipe.empty = true := by
  obtain ⟨s, reached, kernel, _, unlocked, _⟩ := reader_falls_asleep
  have asleep : (s.kernel.proc 0).SleepsOn (nreadChan 0x1000) := by
    rw [kernel]
    exact ⟨rfl, rfl⟩
  exact ⟨s, reached, asleep, (((no_lost_wakeup reached).1 unlocked).1 0 asleep).1⟩

/-- The reader sleeps on while a writer fills the pipe, which is killed before it notices. -/
theorem killed_writer_loses_wakeup : ¬ ∀ s, (pipeSystem sampleLinkage 0x1000).Reachable s →
    s.lock = none → ReadersWait 0x1000 s ∧ WritersWait 0x1000 s := by
  intro claim
  obtain ⟨s, reached, kernel, opened, locked, left, away⟩ := writer_fills_pipe
  have killer : Free s.kernel 2 2 := by
    rw [kernel]
    exact ⟨rfl, rfl⟩
  have killed := PipeStep.reached reached (.inl opened) (.elsewhere (.kill 2 killer)
    (fun p same => Option.some.inj same ▸ away) nofun) rfl
  generalize later : (kill s.kernel 2).2 = last at killed
  have writer : Free last 1 1 := by
    rw [← later, kernel]
    exact ⟨rfl, rfl⟩
  have marked : (last.proc 1).killed = true := by
    rw [← later, kernel]
    decide
  have asleep : (last.proc 0).SleepsOn (nreadChan 0x1000) := by
    rw [← later, kernel]
    exact ⟨rfl, rfl⟩
  obtain ⟨n, byte, rest, call⟩ := left
  have gives : GivesUp { s with kernel := last } 1 := ⟨⟨n, byte, rest, call⟩, .inr marked⟩
  have ends : PipeStep sampleLinkage 0x1000 { s with kernel := last } _ _ :=
    .writeEnd writer locked call
  obtain ⟨unlocked, lost⟩ := (PipeInv.reachable killed).inconsiderate ends
    fun considerate => considerate 1 rfl gives 0 asleep
  exact lost (claim _ (killed.ofGuarded.step ⟨.inl opened, ends⟩) unlocked).1

end SlabStudy.Xv6
