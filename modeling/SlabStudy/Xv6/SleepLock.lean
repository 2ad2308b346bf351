import SlabStudy.Library.Holder
import SlabStudy.Xv6.Delivery
import SlabStudy.Xv6.PipeWakeup

/-!
# Sleep-locks

`acquiresleep`, `releasesleep` and `holdingsleep` on one sleep-lock.  A waiter
takes `ptable.lock` before it gives up the inner lock, and is asleep only some
steps later; each of them may be anywhere in a run of the kernel.
-/

namespace SlabStudy.Xv6

open Library

/-- Where a process is in the functions of `sleeplock.c`. -/
inductive SleepPc where
  | out
  /-- In `acquiresleep`, at `acquire(&lk->lk)`, also at the end of `sleep`. -/
  | acquire
  /-- At the test of the loop. -/
  | test
  /-- In `sleep`, at `acquire(&ptable.lock)`. -/
  | locks
  /-- In `sleep`, at `release(lk)`. -/
  | unlocks
  /-- In `sleep`, with `ptable.lock` only. -/
  | sleeps
  /-- In `sched`. -/
  | asleep
  /-- Behind the stores of `acquiresleep`. -/
  | taken
  /-- In `releasesleep`, at `acquire(&lk->lk)`. -/
  | release
  /-- At the stores of `releasesleep`. -/
  | clears
  /-- At `wakeup(lk)`. -/
  | wakes
  /-- At `release(&lk->lk)`. -/
  | leaves
  deriving DecidableEq

/-- A process, and whether the sleep-lock is its own: from the end of its `acquiresleep` to its
`releasesleep`. -/
structure SleepPlace where
  pc : SleepPc
  holds : Bool
  deriving DecidableEq

/-- `struct sleeplock`, with the process that has the inner lock. -/
structure SleepLock where
  locked : Bool
  pid : Int
  lk : Option Slot

/-- The kernel with a sleep-lock.  `ptable.lock` has an owner here as long as it is in `sleep` on
this lock; other critical sections of it are one step. -/
structure SleepState where
  kernel : Kernel
  lock : SleepLock
  ptable : Option Slot
  place : Slot → SleepPlace

namespace SleepState

/-- The process goes on. -/
def goes (s : SleepState) (p : Slot) (pc : SleepPc) : SleepState :=
  { s with place := Function.update s.place p { s.place p with pc } }

/-- The end of `acquire(&lk->lk)`. -/
def enter (s : SleepState) (p : Slot) (pc : SleepPc) : SleepState :=
  { s.goes p pc with lock := { s.lock with lk := some p } }

/-- `release(&lk->lk)`. -/
def leave (s : SleepState) (p : Slot) (pc : SleepPc) : SleepState :=
  { s.goes p pc with lock := { s.lock with lk := none } }

/-- `lk->locked = 1` and `lk->pid = myproc()->pid`. -/
def store (s : SleepState) (p : Slot) : SleepState :=
  { s.goes p .taken with
    lock := { s.lock with locked := true, pid := (s.kernel.proc p).pid } }

/-- The return from `acquiresleep`. -/
def acquired (s : SleepState) (p : Slot) : SleepState :=
  { s with
    lock := { s.lock with lk := none }
    place := Function.update s.place p ⟨.out, true⟩ }

/-- `lk->locked = 0` and `lk->pid = 0`. -/
def clear (s : SleepState) (p : Slot) : SleepState :=
  { s with
    lock := { s.lock with locked := false, pid := 0 }
    place := Function.update s.place p ⟨.wakes, false⟩ }

/-- The end of `sleep` as far as `sched`, and the scheduler's `release(&ptable.lock)`. -/
def sleep (address : Nat) (s : SleepState) (c : Fin ncpu) (p : Slot) : SleepState :=
  { s.goes p .asleep with
    kernel := Xv6.sleep s.kernel c p (some (.other address)) .sleep
    ptable := none }

/-- `wakeup(lk)`. -/
def wakeup (address : Nat) (s : SleepState) (p : Slot) : SleepState :=
  { s.goes p .leaves with kernel := Xv6.wakeup s.kernel (some (.other address)) }

/-- What `holdingsleep` returns. -/
def holdingsleep (s : SleepState) (p : Slot) : Bool :=
  s.lock.locked && s.lock.pid = (s.kernel.proc p).pid

end SleepState

/-- Whether a step takes `ptable.lock`. -/
def Label.locksPtable : Label → Bool
  | .copy _ _ _ | .pages | .sbrk _ _ _ | .pgflt _ _ | .exec _ | .user _ => false
  | _ => true

inductive SleepLabel where
  | goes (p : Slot)
  | asks (p : Slot) (holding : Bool)
  | woken (p : Slot)
  | elsewhere (label : Label)

/-- What can happen next, with the sleep-lock at this address. -/
inductive SleepStep (ld : Linkage) (address : Nat) (s : SleepState) :
    SleepLabel → SleepState → Prop where
  | acquiresleep {c : Fin ncpu} {p : Slot} (free : Free s.kernel c p)
      (pc : (s.place p).pc = .out) : SleepStep ld address s (.goes p) (s.goes p .acquire)
  | enter {c : Fin ncpu} {p : Slot} (free : Free s.kernel c p)
      (pc : (s.place p).pc = .acquire) (unlocked : s.lock.lk = none) :
      SleepStep ld address s (.goes p) (s.enter p .test)
  | wait {c : Fin ncpu} {p : Slot} (free : Free s.kernel c p)
      (pc : (s.place p).pc = .test) (locked : s.lock.locked = true) :
      SleepStep ld address s (.goes p) (s.goes p .locks)
  | store {c : Fin ncpu} {p : Slot} (free : Free s.kernel c p)
      (pc : (s.place p).pc = .test) (unlocked : s.lock.locked = false) :
      SleepStep ld address s (.goes p) (s.store p)
  | acquired {c : Fin ncpu} {p : Slot} (free : Free s.kernel c p)
      (pc : (s.place p).pc = .taken) : SleepStep ld address s (.goes p) (s.acquired p)
  | sleepLocks {c : Fin ncpu} {p : Slot} (free : Free s.kernel c p)
      (pc : (s.place p).pc = .locks) (unlocked : s.ptable = none) :
      SleepStep ld address s (.goes p) { s.goes p .unlocks with ptable := some p }
  | sleepUnlocks {c : Fin ncpu} {p : Slot} (free : Free s.kernel c p)
      (pc : (s.place p).pc = .unlocks) : SleepStep ld address s (.goes p) (s.leave p .sleeps)
  | sleep {c : Fin ncpu} {p : Slot} (free : Free s.kernel c p)
      (pc : (s.place p).pc = .sleeps) : SleepStep ld address s (.goes p) (s.sleep address c p)
  -- the scheduler has chosen the process, which ends `sleep` with `ptable.lock`
  | woken {c : Fin ncpu} {p : Slot} {kernel : Kernel} (pc : (s.place p).pc = .asleep)
      (unlocked : s.ptable = none) (step : Step ld s.kernel (.round c (some p) none) kernel) :
      SleepStep ld address s (.woken p) { s.goes p .acquire with kernel }
  | releasesleep {c : Fin ncpu} {p : Slot} (free : Free s.kernel c p)
      (pc : (s.place p).pc = .out) (holds : (s.place p).holds = true) :
      SleepStep ld address s (.goes p) (s.goes p .release)
  | releaseEnter {c : Fin ncpu} {p : Slot} (free : Free s.kernel c p)
      (pc : (s.place p).pc = .release) (unlocked : s.lock.lk = none) :
      SleepStep ld address s (.goes p) (s.enter p .clears)
  | clear {c : Fin ncpu} {p : Slot} (free : Free s.kernel c p)
      (pc : (s.place p).pc = .clears) : SleepStep ld address s (.goes p) (s.clear p)
  | wakeup {c : Fin ncpu} {p : Slot} (free : Free s.kernel c p)
      (pc : (s.place p).pc = .wakes) (unlocked : s.ptable = none) :
      SleepStep ld address s (.goes p) (s.wakeup address p)
  | leave {c : Fin ncpu} {p : Slot} (free : Free s.kernel c p)
      (pc : (s.place p).pc = .leaves) : SleepStep ld address s (.goes p) (s.leave p .out)
  | holdingsleep {c : Fin ncpu} {p : Slot} (free : Free s.kernel c p)
      (pc : (s.place p).pc = .out) (unlocked : s.lock.lk = none) :
      SleepStep ld address s (.asks p (s.holdingsleep p)) s
  -- everything that has nothing to do with this lock, `kill` included; nobody exits with it
  | elsewhere {label : Label} {kernel : Kernel} (step : Step ld s.kernel label kernel)
      (unlocked : label.locksPtable = true → s.ptable = none)
      (away : ∀ p, label.caller = some p → (s.place p).pc = .out)
      (keeps : ∀ p corpse, label = .exit p corpse → (s.place p).holds = false)
      (other : label.sleepsOn ≠ some address)
      (awake : ∀ c p outcome, label = .round c (some p) outcome → (s.place p).pc ≠ .asleep) :
      SleepStep ld address s (.elsewhere label) { s with kernel }

/-- The kernel from `initsleeplock` on, which happens at any point of a run. -/
def sleepSystem (ld : Linkage) (address : Nat) : System SleepState SleepLabel where
  initial s := (system ld).Reachable s.kernel ∧ s.lock = ⟨false, 0, none⟩ ∧ s.ptable = none ∧
    (∀ p, s.place p = ⟨.out, false⟩) ∧ ∀ q, ¬ (s.kernel.proc q).SleepsOn address
  step := SleepStep ld address

/-! ## The invariant -/

def SleepPc.hasLk : SleepPc → Bool
  | .test | .locks | .unlocks | .taken | .clears | .wakes | .leaves => true
  | _ => false

def SleepPc.hasPtable : SleepPc → Bool
  | .unlocks | .sleeps => true
  | _ => false

/-- The process has stored 1 into `locked`, and has not yet cleared it. -/
def SleepPlace.Owns (place : SleepPlace) : Prop := place.holds = true ∨ place.pc = .taken

structure SleepOk (ld : Linkage) (address : Nat) (s : SleepState) : Prop where
  kernel : Inv ld s.kernel
  lk : Tracks s.lock.lk (fun place => place.pc.hasLk = true) s.place
  ptable : Tracks s.ptable (fun place => place.pc.hasPtable = true) s.place
  owner : ∃ owner, Tracks owner SleepPlace.Owns s.place ∧ s.lock.locked = owner.isSome ∧
    ∀ p, owner = some p → s.lock.pid = (s.kernel.proc p).pid
  alive : ∀ p, s.place p ≠ ⟨.out, false⟩ → Alive (s.kernel.proc p)
  releases : ∀ p, (s.place p).pc = .release ∨ (s.place p).pc = .clears →
    (s.place p).holds = true
  asleep : ∀ q, (s.kernel.proc q).SleepsOn address → (s.place q).pc = .asleep
  -- a waiter has seen the lock taken, and nobody can clear it as long as it has the inner lock
  waits : ∀ q, (s.place q).pc = .locks ∨ (s.place q).pc = .unlocks → s.lock.locked = true
  -- then somebody may have, who has not come to its wakeup
  woken : ∀ q, (s.kernel.proc q).SleepsOn address ∨ (s.place q).pc = .sleeps →
    s.lock.locked = true ∨ ∃ r, (s.place r).pc = .wakes

section

variable {ld : Linkage} {address : Nat} {s s' : SleepState} {c : Fin ncpu} {p q : Slot}
  {label : Label} {kernel : Kernel} {pc : SleepPc}

/-- A step of the kernel leaves a process with its pid, unless it exits. -/
theorem Step.keeps_alive (inv : Inv ld s.kernel) (step : Step ld s.kernel label kernel)
    (alive : Alive (s.kernel.proc q)) (stays : ∀ corpse, label ≠ .exit q corpse) :
    Alive (kernel.proc q) ∧ (kernel.proc q).pid = (s.kernel.proc q).pid := by
  obtain ⟨z, effect⟩ := step_effect inv step
  have lives {state : ProcState} (was : (s.kernel.proc q).state = state)
      (dead : ¬ (state = .sleeping ∨ state = .runnable ∨ state = .running)) : False :=
    dead (was ▸ alive)
  have entry := effect.entry q
  generalize s.kernel.proc q = old at *
  generalize kernel.proc q = new at *
  cases entry with
  | same kept =>
      refine ⟨?_, kept.pid⟩
      obtain same | ⟨-, after⟩ := kept.state
      · rw [Alive, same]
        exact alive
      · exact after
  | orphaned _ _ _ _ _ _ pid state _ =>
      refine ⟨?_, pid⟩
      obtain same | ⟨-, after⟩ := state
      · rw [Alive, same]
        exact alive
      · exact after
  | exited corpse label_eq => exact absurd label_eq (stays corpse)
  | claimed _ _ unused => exact (lives unused (by decide)).elim
  | copied _ _ embryo => exact (lives embryo (by decide)).elim
  | failed _ _ embryo => exact (lives embryo (by decide)).elim
  | started _ _ embryo => exact (lives embryo (by decide)).elim
  | reaped _ zombie => exact (lives zombie (by decide)).elim

namespace SleepOk

theorem free_alive (sound : SleepOk ld address s) (free : Free s.kernel c p) :
    Alive (s.kernel.proc p) :=
  .inr (.inr (sound.kernel.running free.running))

/-- A process that is not in `sched` does not sleep on the lock. -/
theorem awake (sound : SleepOk ld address s) (other : (s.place p).pc ≠ .asleep) :
    ¬ (s.kernel.proc p).SleepsOn address :=
  fun asleep => other (sound.asleep p asleep)

/-- What is known of the places does not depend on the lock. -/
theorem placed (sound : SleepOk ld address s) (new : SleepPlace) (alive : Alive (s.kernel.proc p))
    (awake : ¬ (s.kernel.proc p).SleepsOn address)
    (releases : new.pc = .release ∨ new.pc = .clears → new.holds = true) :
    (∀ q, Function.update s.place p new q ≠ ⟨.out, false⟩ → Alive (s.kernel.proc q)) ∧
      (∀ q, (Function.update s.place p new q).pc = .release ∨
        (Function.update s.place p new q).pc = .clears →
          (Function.update s.place p new q).holds = true) ∧
      ∀ q, (s.kernel.proc q).SleepsOn address →
        (Function.update s.place p new q).pc = .asleep := by
  refine ⟨?_, ?_, ?_⟩
  · intro q
    rw [Function.update_apply]
    split
    · next this => exact fun _ => this ▸ alive
    · exact sound.alive q
  · intro q
    rw [Function.update_apply]
    split
    · exact releases
    · exact sound.releases q
  · intro q asleep
    rw [Function.update_apply]
    split
    · next this => exact absurd (this ▸ asleep) awake
    · exact sound.asleep q asleep

/-- A process goes on, while the kernel and the stores to the sleep-lock stay. -/
theorem moves (sound : SleepOk ld address s) (new : SleepPlace) {lk ptable : Option Slot}
    (alive : Alive (s.kernel.proc p)) (awake : ¬ (s.kernel.proc p).SleepsOn address)
    (inLk : Tracks lk (fun place => place.pc.hasLk = true) (Function.update s.place p new))
    (inPtable : Tracks ptable (fun place => place.pc.hasPtable = true)
      (Function.update s.place p new))
    (owns : new.Owns ↔ (s.place p).Owns)
    (releases : new.pc = .release ∨ new.pc = .clears → new.holds = true)
    (waits : new.pc = .locks ∨ new.pc = .unlocks ∨ new.pc = .sleeps → s.lock.locked = true)
    (wakes : (s.place p).pc = .wakes → ∀ q, ¬ (s.kernel.proc q).SleepsOn address ∧
      (s.place q).pc ≠ .sleeps) :
    SleepOk ld address { s with
      lock := { s.lock with lk }, ptable, place := Function.update s.place p new } where
  kernel := sound.kernel
  lk := inLk
  ptable := inPtable
  owner := by
    obtain ⟨owner, tracks, locked, pid⟩ := sound.owner
    exact ⟨owner, tracks.stays owns, locked, pid⟩
  alive := (sound.placed new alive awake releases).1
  releases := (sound.placed new alive awake releases).2.1
  asleep := (sound.placed new alive awake releases).2.2
  waits := (Function.forall_update_iff s.place fun _ place =>
    place.pc = .locks ∨ place.pc = .unlocks → s.lock.locked = true).mpr
      ⟨fun waiting => waits (waiting.imp id .inl), fun q _ => sound.waits q⟩
  woken := by
    have kept (q : Slot) (waiting : (s.kernel.proc q).SleepsOn address ∨ (s.place q).pc = .sleeps) :
        s.lock.locked = true ∨ ∃ r, (Function.update s.place p new r).pc = .wakes := by
      obtain locked | ⟨r, at_wakeup⟩ := sound.woken q waiting
      · exact .inl locked
      · have other : r ≠ p := by
          rintro rfl
          obtain ⟨none, nobody⟩ := wakes at_wakeup q
          exact waiting.elim none nobody
        exact .inr ⟨r, by rw [Function.update_of_ne other]; exact at_wakeup⟩
    refine (Function.forall_update_iff s.place fun q place =>
      (s.kernel.proc q).SleepsOn address ∨ place.pc = .sleeps → _).mpr ⟨?_, fun q _ => kept q⟩
    rintro (asleep | there)
    · exact absurd asleep awake
    · exact .inl (waits (.inr (.inr there)))

/-- The same for a process that keeps what it holds. -/
theorem goes (sound : SleepOk ld address s) {old : SleepPc} (was : (s.place p).pc = old)
    (new : SleepPc) {lk ptable : Option Slot} (alive : Alive (s.kernel.proc p))
    (awake : ¬ (s.kernel.proc p).SleepsOn address)
    (inLk : Tracks lk (fun place => place.pc.hasLk = true)
      (Function.update s.place p { s.place p with pc := new }))
    (inPtable : Tracks ptable (fun place => place.pc.hasPtable = true)
      (Function.update s.place p { s.place p with pc := new }))
    (taken : new = .taken ↔ old = .taken)
    (releases : new = .release ∨ new = .clears → (s.place p).holds = true)
    (waits : new = .locks ∨ new = .unlocks ∨ new = .sleeps → s.lock.locked = true)
    (wakes : old = .wakes → ∀ q, ¬ (s.kernel.proc q).SleepsOn address ∧
      (s.place q).pc ≠ .sleeps) :
    SleepOk ld address { s with
      lock := { s.lock with lk }
      ptable
      place := Function.update s.place p { s.place p with pc := new } } :=
  sound.moves _ alive awake inLk inPtable (or_congr_right (was ▸ taken)) releases waits (was ▸ wakes)

/-- The kernel takes a step.  Who falls asleep on the lock is at the end of `sleep`, and will be
woken. -/
theorem elsewhere (sound : SleepOk ld address s) (step : Step ld s.kernel label kernel)
    (stays : ∀ q corpse, label = .exit q corpse → s.place q = ⟨.out, false⟩)
    (falls : ∀ q, (kernel.proc q).SleepsOn address → (s.kernel.proc q).SleepsOn address ∨
      (s.place q).pc = .asleep ∧ (s.lock.locked = true ∨ ∃ r, (s.place r).pc = .wakes)) :
    SleepOk ld address { s with kernel } := by
  have keeps (q : Slot) (inside : s.place q ≠ ⟨.out, false⟩) :=
    step.keeps_alive sound.kernel (sound.alive q inside)
      fun corpse exits => inside (stays q corpse exits)
  refine { sound with
    kernel := sound.kernel.step step
    owner := ?_
    alive := fun q inside => (keeps q inside).1
    asleep := fun q asleep => (falls q asleep).elim (sound.asleep q) And.left
    woken := ?_ }
  rotate_left
  · rintro q (asleep | there)
    · exact (falls q asleep).elim (fun old => sound.woken q (.inl old)) And.right
    · exact sound.woken q (.inr there)
  obtain ⟨owner, tracks, locked, pid⟩ := sound.owner
  refine ⟨owner, tracks, locked, fun p same => ?_⟩
  have inside : s.place p ≠ ⟨.out, false⟩ := by
    intro none
    have owns := (tracks p).mp same
    rw [none] at owns
    exact owns.elim nofun nofun
  exact (pid p same).trans (keeps p inside).2.symm

/-- The lock is taken. -/
theorem store (sound : SleepOk ld address s) (free : Free s.kernel c p)
    (pc : (s.place p).pc = .test) (unlocked : s.lock.locked = false) :
    SleepOk ld address (s.store p) := by
  obtain ⟨alive, releases, asleep⟩ := sound.placed { s.place p with pc := .taken }
    (sound.free_alive free) (sound.awake (by rw [pc]; nofun)) nofun
  refine {
    kernel := sound.kernel
    lk := sound.lk.stays (by rw [pc]; rfl)
    ptable := sound.ptable.stays (by rw [pc]; rfl)
    owner := ?_
    alive, releases, asleep
    waits := fun _ _ => rfl
    woken := fun _ _ => .inl rfl }
  obtain ⟨owner, tracks, locked, -⟩ := sound.owner
  have nobody : owner = none := by
    rw [unlocked] at locked
    exact Option.isSome_eq_false_iff.mp locked.symm |> Option.isNone_iff_eq_none.mp
  refine ⟨some p, (nobody ▸ tracks).enters (.inr rfl), rfl, ?_⟩
  rintro _ ⟨⟩
  rfl

/-- The lock is given up; nobody else is at the test, or behind it. -/
theorem clear (sound : SleepOk ld address s) (free : Free s.kernel c p)
    (pc : (s.place p).pc = .clears) : SleepOk ld address (s.clear p) := by
  obtain ⟨alive, releases, asleep⟩ := sound.placed ⟨.wakes, false⟩
    (sound.free_alive free) (sound.awake (by rw [pc]; nofun)) nofun
  have here : (s.clear p).place p = ⟨.wakes, false⟩ := Function.update_self ..
  have inside : (s.place p).pc.hasLk = true := by
    rw [pc]
    rfl
  refine {
    kernel := sound.kernel
    lk := sound.lk.stays (by rw [pc]; rfl)
    ptable := sound.ptable.stays (by rw [pc]; rfl)
    owner := ?_
    alive, releases, asleep
    waits := ?_
    woken := fun _ _ => .inr ⟨p, by rw [here]⟩ }
  · obtain ⟨owner, tracks, -, -⟩ := sound.owner
    exact ⟨none, tracks.leaves (.inl (sound.releases p (.inr pc))) (by nofun), rfl, nofun⟩
  · intro q waiting
    by_cases this : q = p
    · rw [this, here] at waiting
      exact waiting.elim nofun nofun
    · rw [show (s.clear p).place q = s.place q from Function.update_of_ne this ..] at waiting
      have also : (s.place q).pc.hasLk = true := by
        obtain there | there := waiting
        · rw [there]
          rfl
        · rw [there]
          rfl
      exact absurd (sound.lk.unique also inside) this

/-- A waiter falls asleep. -/
theorem sleep (sound : SleepOk ld address s) (free : Free s.kernel c p)
    (pc : (s.place p).pc = .sleeps) : SleepOk ld address (s.sleep address c p) := by
  have there := sound.goes pc .asleep (sound.free_alive free) (sound.awake (by rw [pc]; nofun))
    (sound.lk.stays (by rw [pc]; rfl)) (sound.ptable.leaves (by rw [pc]; rfl) nofun) (by decide)
    nofun nofun nofun
  refine there.elsewhere (Step.sleep address free) nofun fun q asleep => ?_
  by_cases this : q = p
  · right
    obtain locked | ⟨r, at_wakeup⟩ := sound.woken p (.inr pc)
    · exact ⟨by simp only [this, Function.update_self], .inl locked⟩
    · have other : r ≠ p := by
        rintro rfl
        rw [pc] at at_wakeup
        cases at_wakeup
      refine ⟨by simp only [this, Function.update_self], .inr ⟨r, ?_⟩⟩
      simp only [Function.update_of_ne other]
      exact at_wakeup
  · left
    have same : (Xv6.sleep s.kernel c p (some (.other address)) .sleep).proc q = s.kernel.proc q :=
      Function.update_of_ne this ..
    rw [same] at asleep
    exact asleep

theorem step {label : SleepLabel} (sound : SleepOk ld address s)
    (step : SleepStep ld address s label s') : SleepOk ld address s' := by
  cases step with
  | @acquiresleep _ p free pc =>
      exact sound.goes pc .acquire (sound.free_alive free) (sound.awake (by rw [pc]; nofun))
        (sound.lk.stays (by rw [pc]; rfl)) (sound.ptable.stays (by rw [pc]; rfl)) (by decide)
        nofun nofun nofun
  | @enter _ p free pc unlocked =>
      exact sound.goes pc .test (sound.free_alive free) (sound.awake (by rw [pc]; nofun))
        ((unlocked ▸ sound.lk).enters rfl) (sound.ptable.stays (by rw [pc]; rfl)) (by decide)
        nofun nofun nofun
  | @wait _ p free pc locked =>
      exact sound.goes pc .locks (sound.free_alive free) (sound.awake (by rw [pc]; nofun))
        (sound.lk.stays (by rw [pc]; rfl)) (sound.ptable.stays (by rw [pc]; rfl)) (by decide)
        nofun (fun _ => locked) nofun
  | store free pc unlocked => exact sound.store free pc unlocked
  | @acquired _ p free pc =>
      refine sound.moves ⟨.out, true⟩ (sound.free_alive free) (sound.awake (by rw [pc]; nofun))
        (sound.lk.leaves (by rw [pc]; rfl) nofun) (sound.ptable.stays (by rw [pc]; rfl))
        (iff_of_true (.inl rfl) (.inr pc)) nofun nofun ?_
      rw [pc]
      nofun
  | @sleepLocks _ p free pc unlocked =>
      exact sound.goes pc .unlocks (sound.free_alive free) (sound.awake (by rw [pc]; nofun))
        (sound.lk.stays (by rw [pc]; rfl)) ((unlocked ▸ sound.ptable).enters rfl) (by decide)
        nofun (fun _ => sound.waits p (.inl pc)) nofun
  | @sleepUnlocks _ p free pc =>
      exact sound.goes pc .sleeps (sound.free_alive free) (sound.awake (by rw [pc]; nofun))
        (sound.lk.leaves (by rw [pc]; rfl) nofun) (sound.ptable.stays (by rw [pc]; rfl))
        (by decide) nofun (fun _ => sound.waits p (.inr pc)) nofun
  | sleep free pc => exact sound.sleep free pc
  | @woken c p kernel pc unlocked step =>
      have later := sound.elsewhere step nofun fun q asleep => .inl (step_stirs step nofun q asleep)
      have awake : ¬ (kernel.proc p).SleepsOn address := by
        intro asleep
        have before := (step_stirs step nofun p asleep).1
        cases step with
        | round _ ran =>
            rw [choose_runnable (scheduler_eq_ok ran).1.symm] at before
            cases before
      exact later.goes pc .acquire (later.alive p fun idle => by rw [idle] at pc; cases pc) awake
        (later.lk.stays (by rw [pc]; rfl)) (later.ptable.stays (by rw [pc]; rfl)) (by decide)
        nofun nofun nofun
  | @releasesleep _ p free pc holds =>
      exact sound.goes pc .release (sound.free_alive free) (sound.awake (by rw [pc]; nofun))
        (sound.lk.stays (by rw [pc]; rfl)) (sound.ptable.stays (by rw [pc]; rfl)) (by decide)
        (fun _ => holds) nofun nofun
  | @releaseEnter _ p free pc unlocked =>
      exact sound.goes pc .clears (sound.free_alive free) (sound.awake (by rw [pc]; nofun))
        ((unlocked ▸ sound.lk).enters rfl) (sound.ptable.stays (by rw [pc]; rfl)) (by decide)
        (fun _ => sound.releases p (.inl pc)) nofun nofun
  | clear free pc => exact sound.clear free pc
  | @wakeup _ p free pc unlocked =>
      have step : Step ld s.kernel _ _ := .wakeup address
      have later := sound.elsewhere step nofun fun q asleep => .inl (step_stirs step nofun q asleep)
      exact later.goes pc .leaves (later.alive p fun idle => by rw [idle] at pc; cases pc)
        (wakeup_awake _ _ p) (later.lk.stays (by rw [pc]; rfl))
        (later.ptable.stays (by rw [pc]; rfl)) (by decide) nofun nofun fun _ q =>
          ⟨wakeup_awake _ _ q, fun there => (unlocked ▸ sound.ptable).outside q (by rw [there]; rfl)⟩
  | @leave _ p free pc =>
      exact sound.goes pc .out (sound.free_alive free) (sound.awake (by rw [pc]; nofun))
        (sound.lk.leaves (by rw [pc]; rfl) nofun) (sound.ptable.stays (by rw [pc]; rfl))
        (by decide) nofun nofun nofun
  | holdingsleep => exact sound
  | elsewhere step unlocked away keeps other awake =>
      refine sound.elsewhere step ?_ fun q asleep => .inl (step_stirs step other q asleep)
      intro q corpse exits
      have pc := away q (by rw [exits]; rfl)
      have holds := keeps q corpse exits
      generalize s.place q = place at pc holds
      cases place
      cases pc
      cases holds
      rfl

theorem reachable (reached : (sleepSystem ld address).Reachable s) : SleepOk ld address s := by
  refine reached.invariant ?_ fun sound step => sound.step step
  rintro s ⟨kernel, lock, ptable, place, awake⟩
  refine ⟨.reachable kernel, ?_, ?_, ⟨none, ?_, ?_, nofun⟩, ?_, ?_, ?_, ?_, ?_⟩
  · rw [lock]
    exact .of_outside fun p => by rw [place]; nofun
  · rw [ptable]
    exact .of_outside fun p => by rw [place]; nofun
  · exact .of_outside fun p => by rw [place]; nofun
  · rw [lock]
    rfl
  · exact fun p inside => absurd (place p) inside
  · intro p at_
    rw [place] at at_
    exact at_.elim nofun nofun
  · exact fun q asleep => absurd asleep (awake q)
  · intro q at_
    rw [place] at at_
    exact at_.elim nofun nofun
  · intro q waiting
    rw [place] at waiting
    exact waiting.elim (fun asleep => absurd asleep (awake q)) nofun

/-- Nobody is at the stores when the inner lock is free. -/
theorem owner_of_free (sound : SleepOk ld address s) (free : s.lock.lk = none) :
    ∃ owner, (∀ p, owner = some p ↔ (s.place p).holds = true) ∧
      s.lock.locked = owner.isSome ∧ ∀ p, owner = some p → s.lock.pid = (s.kernel.proc p).pid := by
  obtain ⟨owner, tracks, rest⟩ := sound.owner
  refine ⟨owner, fun p => (tracks p).trans (or_iff_left fun pc => ?_), rest⟩
  exact (free ▸ sound.lk).outside p (by rw [pc]; rfl)

end SleepOk

/-! ## The results -/

/-- Sleep-locks exclude, and do not strand a waiter. -/
theorem sleeplock_excludes (reached : (sleepSystem ld address).Reachable s)
    (free : s.lock.lk = none) :
    (∀ p q, (s.place p).holds = true → (s.place q).holds = true → p = q) ∧
      (s.lock.locked = true ↔ ∃ p, (s.place p).holds = true) ∧
      (∀ p, (s.place p).holds = true → s.lock.pid = (s.kernel.proc p).pid) ∧
      (s.lock.locked = false → ∀ q, ¬ (s.kernel.proc q).SleepsOn address) := by
  have sound := SleepOk.reachable reached
  obtain ⟨owner, holds, locked, pid⟩ := sound.owner_of_free free
  refine ⟨fun p q first second => ?_, ?_, fun p own => pid p ((holds p).mpr own),
    fun unlocked q asleep => ?_⟩
  · exact Option.some.inj (((holds p).mpr first).symm.trans ((holds q).mpr second))
  · rw [locked, Option.isSome_iff_exists]
    exact exists_congr holds
  · obtain taken | ⟨r, at_wakeup⟩ := sound.woken q (.inl asleep)
    · rw [unlocked] at taken
      cases taken
    · exact (free ▸ sound.lk).outside r (by rw [at_wakeup]; rfl)

/-- Two processes run, and nobody sleeps. -/
theorem two_processes_run : ∃ k : Kernel, (system sampleLinkage).Reachable k ∧
    Free k 0 0 ∧ Free k 1 1 ∧ ∀ q, (k.proc q).state ≠ .sleeping := by
  obtain ⟨s, kstack, d, first, boot, layout, enough⟩ := sample_boots (by decide : 100 ≤ 0x800)
  have started := boot.started (sampleKmem_free (by decide)) first layout enough
  obtain ⟨u, child, frame, ran, forked⟩ := started.forks (by decide) (by decide)
  have spare : ((dispatch s 0 0).cpu 1).proc = none := by
    rw [dispatch_cpu, Function.update_of_ne (by decide), boot.cpu]
  obtain ⟨round, busy, free⟩ := started.childRuns ran forked spare
  have reached := (started.afterFork ran forked).1.ofGuarded.step round
  refine ⟨_, reached, free, busy, fun q asleep => ?_⟩
  have inv := Inv.reachable reached
  by_cases child : q = 1
  · rw [child, inv.running busy.running] at asleep
    cases asleep
  by_cases parent : q = 0
  · rw [parent, inv.running free.running] at asleep
    cases asleep
  rw [dispatch_of_ne _ _ _ child, forked.others q child, started.others q parent] at asleep
  cases asleep

/-- The first process has the lock, and the second one sleeps on it. -/
theorem sleeplock_excludes_first : ∃ s, (sleepSystem sampleLinkage 0x1000).Reachable s ∧
    s.lock.lk = none ∧ (s.place 0).holds = true ∧ (s.kernel.proc 1).SleepsOn 0x1000 ∧
      s.lock.locked = true ∧ s.lock.pid = (s.kernel.proc 0).pid ∧
        ∀ q, (s.place q).holds = true → q = 0 := by
  obtain ⟨kernel, kernelReached, free, busy, awake⟩ := two_processes_run
  have reached : (sleepSystem sampleLinkage 0x1000).Reachable
      ⟨kernel, ⟨false, 0, none⟩, none, fun _ => ⟨.out, false⟩⟩ :=
    .start ⟨kernelReached, rfl, rfl, fun _ => rfl, fun q asleep => awake q asleep.1⟩
  have calls := reached.step (.acquiresleep free rfl)
  have enters := calls.step (.enter (p := 0) free rfl rfl)
  have stores := enters.step (.store (p := 0) free rfl rfl)
  have acquired := stores.step (.acquired (p := 0) free rfl)
  have other := acquired.step (.acquiresleep (p := 1) busy rfl)
  have otherEnters := other.step (.enter (p := 1) busy rfl rfl)
  have waits := otherEnters.step (.wait (p := 1) busy rfl rfl)
  have locks := waits.step (.sleepLocks (p := 1) busy rfl rfl)
  have unlocks := locks.step (.sleepUnlocks (p := 1) busy rfl)
  have sleeps := unlocks.step (.sleep (p := 1) busy rfl)
  generalize last : SleepState.sleep 0x1000 _ 1 1 = s at sleeps
  have unlocked : s.lock.lk = none := by
    rw [← last]
    rfl
  have holds : (s.place 0).holds = true := by
    rw [← last]
    rfl
  have asleep : (s.kernel.proc 1).SleepsOn 0x1000 := by
    rw [← last]
    exact ⟨rfl, rfl⟩
  obtain ⟨alone, locked, pid, -⟩ := sleeplock_excludes sleeps unlocked
  exact ⟨s, sleeps, unlocked, holds, asleep, locked.mpr ⟨0, holds⟩, pid 0 holds,
    fun q own => alone q 0 own holds⟩

/-- `holdingsleep` compares pids. -/
theorem holdingsleep_iff (reached : (sleepSystem ld address).Reachable s)
    (free : s.lock.lk = none) (p : Slot) : s.holdingsleep p = true ↔
      ∃ q, (s.place q).holds = true ∧ (s.kernel.proc q).pid = (s.kernel.proc p).pid := by
  obtain ⟨owner, holds, locked, pid⟩ := (SleepOk.reachable reached).owner_of_free free
  rw [SleepState.holdingsleep, locked, Bool.and_eq_true, decide_eq_true_iff,
    Option.isSome_iff_exists]
  constructor
  · rintro ⟨⟨q, own⟩, same⟩
    exact ⟨q, (holds q).mp own, (pid q own).symm.trans same⟩
  · rintro ⟨q, own, same⟩
    exact ⟨⟨q, (holds q).mpr own⟩, (pid q ((holds q).mpr own)).trans same⟩

end

end SlabStudy.Xv6
