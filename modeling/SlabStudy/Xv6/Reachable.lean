import SlabStudy.Xv6.Exiting

/-!
# The invariant holds in every reachable state

The state after `userinit` satisfies the invariant, and so does the state
after any number of steps.
-/

namespace SlabStudy.Xv6

open Library

variable {ld : Linkage} {s s' : Kernel}

/-! ## The state after userinit -/

/-- The first process waits to be scheduled, and every other slot is zero. -/
structure Booted (km : Kmem) (root : Nat) (s : Kernel) (kstack : Frame) (d : Pgdir) : Prop where
  first : s.proc 0 =
    { Proc.zero with
      pgdir := some d, sz := pgsize, kstack := some kstack, state := .runnable, pid := 1,
      tf := initTrapframe, name := "initcode", cwd := some root }
  others : ∀ q, q ≠ 0 → s.proc q = .zero
  initproc : s.initproc = some 0
  nextpid : s.nextpid = 2
  cpu : s.cpu = fun _ => ⟨none, 0⟩
  thread : s.thread = fun _ => ⟨.forkret, .idle⟩
  memory : (s.kmem.freelist : Multiset Frame) + ({kstack} + d.frames) ≤ km.freelist

theorem allocprocClaim_blank (km : Kmem) :
    allocprocClaim (Kernel.blank km) = some (0,
      { (Kernel.blank km).modify 0 fun pr => { pr with state := .embryo, pid := 1 } with
        nextpid := 2 }) := by
  have found : (Kernel.blank km).first (fun pr => pr.state = .unused) = some 0 :=
    Fin.find?_eq_some_iff.mpr ⟨rfl, fun q lower => absurd lower (Fin.not_lt_zero q)⟩
  unfold allocprocClaim
  rw [found]
  rfl

/-- The kernel in which `allocproc` has claimed slot 0 and nothing else has happened. -/
def claimedBlank (km : Kmem) : Kernel :=
  { (Kernel.blank km).modify 0 fun pr => { pr with state := .embryo, pid := 1 } with nextpid := 2 }

/-- What `userinit` allocates on its way. -/
theorem userinit_eq_ok {km : Kmem} {initcode : List UInt8} {root : Nat}
    (ran : userinit ld initcode root (Kernel.blank km) = .ok s) :
    ∃ u kstack blank km₁ km₂ d, Stacked (claimedBlank km) u 0 kstack ∧
      setupkvm ld u.kmem = .ok (some blank, km₁) ∧ inituvm km₁ blank initcode = .ok (km₂, d) ∧
      s = { (u.setKmem km₂).modify 0 fun pr =>
        { pr with
          pgdir := some d
          sz := pgsize
          tf := initTrapframe
          name := "initcode"
          cwd := some root
          state := .runnable } with
        initproc := some 0 } := by
  have claimed : allocprocClaim (Kernel.blank km) = some (0, claimedBlank km) :=
    allocprocClaim_blank km
  unfold userinit at ran
  rw [claimed] at ran
  simp only at ran
  rcases allocprocStack_cases (claimedBlank km) 0 with failed | ⟨u, kstack, taken, stacked⟩
  · rw [failed] at ran
    cases ran
  · rw [taken] at ran
    obtain ⟨⟨made, km₁⟩, setup, tail⟩ := Kern.bind_eq_ok.mp ran
    cases made with
    | none => cases tail
    | some blank =>
        obtain ⟨⟨km₂, d⟩, loaded, last⟩ := Kern.bind_eq_ok.mp tail
        cases last
        exact ⟨u, kstack, blank, km₁, km₂, d, stacked, setup, loaded, rfl⟩

theorem userinit_booted {km : Kmem} {initcode : List UInt8} {root : Nat}
    (free : FreeOk ld km) (ran : userinit ld initcode root (Kernel.blank km) = .ok s) :
    ∃ kstack d, Booted km root s kstack d := by
  obtain ⟨u, kstack, blank, km₁, km₂, d, stacked, setup, loaded, rfl⟩ := userinit_eq_ok ran
  have listed : km.freelist = kstack :: u.kmem.freelist := stacked.listed
  rcases setupkvm_ok (free.rest listed) setup with ⟨_, same, total, _⟩ | ⟨impossible, _⟩
  · cases same
    have less := inituvm_le loaded
    refine ⟨kstack, d, ?_, fun q apart => ?_, rfl, ?_, ?_, ?_, ?_⟩
    · simp only [Kernel.modify_self, Kernel.setKmem_proc]
      rw [stacked.proc]
      rfl
    · change Function.update u.proc 0 _ q = _
      rw [Function.update_of_ne apart, stacked.others q apart]
      exact Function.update_of_ne apart _ _
    · exact stacked.nextpid
    · exact stacked.cpu
    · change u.thread = _
      funext q
      by_cases here : q = 0
      · subst here
        exact stacked.thread
      · exact stacked.threads q here
    · change (km₂.freelist : Multiset Frame) + ({kstack} + d.frames) ≤ _
      rw [listed, ← Multiset.cons_coe, ← Multiset.singleton_add, ← total, add_left_comm]
      exact add_le_add_right less _
  · cases impossible

theorem Booted.pages {km : Kmem} {root : Nat} {kstack : Frame} {d : Pgdir}
    (boot : Booted km root s kstack d) :
    s.pages = (s.kmem.freelist : Multiset Frame) + ({kstack} + d.frames) := by
  have single : ∑ q, (s.proc q).pages = (s.proc 0).pages := by
    refine Finset.sum_eq_single 0 (fun q _ apart => ?_) fun absent => ?_
    · rw [boot.others q apart]
      rfl
    · exact absurd (Finset.mem_univ _) absent
  rw [Kernel.pages_eq, single, boot.first]
  rfl

theorem Booted.inv {km : Kmem} {root : Nat} {kstack : Frame} {d : Pgdir} (free : FreeOk ld km)
    (boot : Booted km root s kstack d) : Inv ld s := by
  have state : ∀ q, (s.proc q).state = .unused ∨ (q = 0 ∧ (s.proc q).state = .runnable) := by
    intro q
    by_cases here : q = 0
    · subst here
      exact .inr ⟨rfl, by rw [boot.first]⟩
    · exact .inl (by rw [boot.others q here]; rfl)
  have orphan : ∀ q, (s.proc q).parent = none := by
    intro q
    by_cases here : q = 0
    · subst here
      rw [boot.first]
      rfl
    · rw [boot.others q here]
      rfl
  have busy : ∀ {c p}, (s.cpu c).proc ≠ some p := by
    intro c p
    rw [boot.cpu]
    exact (Option.some_ne_none p).symm
  have pages : s.pages ≤ km.freelist := by
    rw [boot.pages]
    exact boot.memory
  refine ⟨fun q => ?_, fun q => ?_, ⟨fun busy' => absurd busy' busy, fun {q} running => ?_,
      fun first => absurd first busy⟩,
    ⟨fun {q nq} copy => ?_, fun {q nq} start => ?_, fun {q r nq} first => ?_⟩,
    ⟨fun {q} asleep => ?_, fun {q r} asleep _ => ?_⟩,
    ⟨fun {i} first => ?_, fun {i} _ => orphan i, fun q self => ?_⟩,
    ⟨Multiset.nodup_of_le pages (Multiset.coe_nodup.mpr free.nodup),
      fun frame member => free.valid frame
        (Multiset.mem_coe.mp (Multiset.mem_of_le pages member))⟩⟩
  · by_cases here : q = 0
    · subst here
      rw [boot.first]
      exact ⟨(by decide : lowprio ≤ 0), (by decide : 0 ≤ highprio),
        (by decide : pgsize ≤ kernbase), Nat.zero_le _⟩
    · rw [boot.others q here]
      exact ⟨by decide, by decide, Nat.zero_le _, Nat.zero_le _⟩
  · rw [boot.thread]
    by_cases here : q = 0
    · subst here
      rw [boot.first]
      exact ⟨⟨rfl, rfl⟩, fun _ => rfl, .inr rfl⟩
    · rw [boot.others q here]
      exact ⟨⟨rfl, rfl, rfl, rfl⟩, rfl⟩
  · rcases state q with unused | ⟨_, runnable⟩
    · rw [unused] at running
      cases running
    · rw [runnable] at running
      cases running
  · rw [boot.thread] at copy
    cases copy
  · rw [boot.thread] at start
    cases start
  · rw [boot.thread] at first
    cases first
  · rw [SleepsIn, boot.thread] at asleep
    cases asleep.2
  · rw [SleepsIn, boot.thread] at asleep
    cases asleep.2
  · rw [boot.initproc] at first
    cases first
    exact .inr (.inl (by rw [boot.first]))
  · rw [orphan q] at self
    cases self

/-! ## Steps and runs -/

/-- What remains to be done may be noted before or after leaving the CPU. -/
theorem yield_setPending (s : Kernel) (c : Fin ncpu) (p : Slot) (pending : Pending) :
    (yield s c p).setPending p pending = yield (s.setPending p pending) c p := by
  simp [yield, sched, Kernel.setPending, Kernel.setThread, Kernel.modify]

/-- Every step keeps the invariant. -/
theorem Inv.step {label : Label} (inv : Inv ld s) (step : Step ld s label s') : Inv ld s' := by
  cases step with
  | round idle ran => exact inv.scheduler idle ran
  | claimNone free full => exact inv
  | claimSome free claimed => exact inv.claim free claimed
  | copyFails running pending ran => exact inv.copyFails running pending ran
  | copyDone running pending ran => exact inv.copyDone running pending ran
  | start running pending => exact inv.start running pending
  | exit free ran => exact inv.exited free (exit_exited ran)
  | wait free ran => exact inv.wait free ran
  | waitpid free ran => exact inv.waitpid free ran
  | kill pid free => exact inv.nudged (kill_nudges inv.bounded pid)
  | @setpriority c p pid priority free =>
      have nudges := setpriority_nudges inv.bounded p pid priority
      split
      · exact (inv.nudged nudges).setPending (by rw [nudges.cpu]; exact free.running) rfl
      · exact inv.nudged nudges
  | priorityYield running pending =>
      rw [yield_setPending]
      exact (inv.setPending running rfl).yield running
  | preempt running => exact inv.yield running
  | sleep address free =>
      exact inv.sleep free Resume.noConfusion Resume.noConfusion
        fun inWait => Resume.noConfusion inWait
  | wakeup address => exact inv.nudged (wakeup_nudges inv.bounded _)
  | pages free apart => exact inv.otherPages free fun p frame member => (apart p frame member).1
  | sbrk free ran => exact inv.growproc free.running ran
  | pgflt free ran => exact inv.pgflt free.running ran
  | @exec c p d d' km sz tf name free old conserved untouched small =>
      have bounded := inv.bounded p
      exact inv.replaceImage free.running old conserved rfl rfl rfl rfl rfl
        ⟨bounded.low, bounded.high, small, (by decide : 1 ≤ 2 ^ 19 + 1)⟩
  | @user c p d mem tf ofile cwd free own stores =>
      have bounded := inv.bounded p
      exact inv.replaceImage free.running own rfl own rfl rfl rfl rfl
        ⟨bounded.low, bounded.high, bounded.size, bounded.stack⟩

/-- The invariant holds in every reachable state. -/
theorem Inv.reachable (reached : (system ld).Reachable s) : Inv ld s := by
  refine System.Reachable.invariant (fun {state} first => ?_) (fun inv edge => inv.step edge)
    reached
  obtain ⟨km, initcode, root, free, ran⟩ := first
  obtain ⟨kstack, d, boot⟩ := userinit_booted free ran
  exact boot.inv free

end SlabStudy.Xv6
