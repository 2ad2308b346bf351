import SlabStudy.Xv6.System

/-!
# The invariant of the process table

What holds whenever `ptable.lock` is free.  Each slot is as its state demands,
running processes and CPUs correspond, a `fork` in progress owns its embryo,
nobody sleeps in `wait` without reason, and every page of memory is either
free or owned by exactly one process.
-/

namespace SlabStudy.Xv6

open Library

/-- A slot without resources, relations or files. -/
structure Vacant (pr : Proc) : Prop where
  kstack : pr.kstack = none
  parent : pr.parent = none
  chan : pr.chan = none
  ofile : pr.ofile = fun _ => none

/-- A process with a kernel stack and an address space. -/
structure Equipped (pr : Proc) : Prop where
  kstack : pr.kstack.isSome = true
  pgdir : pr.pgdir.isSome = true

/-- The ranges of the numeric fields, also of unused slots. -/
structure Bounded (pr : Proc) : Prop where
  low : lowprio ≤ pr.priority
  high : pr.priority ≤ highprio
  size : pr.sz ≤ kernbase
  stack : pr.stackPsize ≤ 2 ^ 19 + 1

/-- What the state of a process demands of its fields and its kernel thread. -/
def StateOk (self : Slot) (pr : Proc) (thread : Thread) : Prop :=
  match pr.state with
  | .unused => Vacant pr ∧ thread.pending = .idle
  | .embryo =>
      pr.chan = none ∧ thread.pending = .idle ∧
        (Vacant pr ∨ (Equipped pr ∧ thread.resume = .forkret))
  | .sleeping =>
      Equipped pr ∧ thread.pending = .idle ∧ thread.resume ≠ .forkret ∧
        thread.resume ≠ .yield ∧
        (thread.resume = .wait → pr.chan = some (.proc self) ∧ pr.killed = false)
  | .runnable =>
      Equipped pr ∧ (thread.resume = .forkret ∨ thread.resume = .yield → pr.chan = none) ∧
        (thread.resume = .yield ∨ thread.pending = .idle)
  | .running => Equipped pr ∧ pr.chan = none
  | .zombie =>
      Equipped pr ∧ pr.chan = none ∧ (pr.ofile = fun _ => none) ∧ thread.pending = .idle

/-- Running processes and busy CPUs correspond. -/
structure CpusOk (s : Kernel) : Prop where
  current : ∀ {c p}, (s.cpu c).proc = some p →
    (s.proc p).state = .running ∧ (s.cpu c).cur = p
  placed : ∀ {p}, (s.proc p).state = .running → ∃ c, (s.cpu c).proc = some p
  unique : ∀ {c c' p}, (s.cpu c).proc = some p → (s.cpu c').proc = some p → c = c'

/-- The slot that a `fork` in progress has claimed. -/
def Pending.child : Pending → Option Slot
  | .forkCopy np => some np
  | .forkStart np => some np
  | _ => none

/-- A `fork` in progress owns an embryo. -/
structure ForksOk (s : Kernel) : Prop where
  copying : ∀ {p np}, (s.thread p).pending = .forkCopy np →
    (s.proc np).state = .embryo ∧ Vacant (s.proc np)
  starting : ∀ {p np}, (s.thread p).pending = .forkStart np →
    (s.proc np).state = .embryo ∧ Equipped (s.proc np) ∧ (s.proc np).parent = some p
  distinct : ∀ {p p' np}, (s.thread p).pending.child = some np →
    (s.thread p').pending.child = some np → p = p'

/-- Process `p` sleeps, and `call` is what its wakeup will continue. -/
def SleepsIn (s : Kernel) (p : Slot) (call : Resume) : Prop :=
  (s.proc p).state = .sleeping ∧ (s.thread p).resume = call

/-- Who sleeps in `wait` has a child, and no child that has exited. -/
structure WaitsOk (s : Kernel) : Prop where
  child : ∀ {p}, SleepsIn s p .wait → ∃ q, (s.proc q).parent = some p
  alive : ∀ {p q}, SleepsIn s p .wait → (s.proc q).parent = some p →
    (s.proc q).state ≠ .zombie

/-- A process that can run now or later. -/
def Alive (pr : Proc) : Prop :=
  pr.state = .sleeping ∨ pr.state = .runnable ∨ pr.state = .running

/-- The first process lives and has no parent, and nobody is its own parent. -/
structure InitOk (s : Kernel) : Prop where
  alive : ∀ {i}, s.initproc = some i → Alive (s.proc i)
  root : ∀ {i}, s.initproc = some i → (s.proc i).parent = none
  proper : ∀ p, (s.proc p).parent ≠ some p

/-- All pages of memory, free or owned. -/
def Kernel.pages (s : Kernel) : Multiset Frame :=
  s.kmem.freelist + ∑ p, (s.proc p).pages

theorem Kernel.pages_eq (s : Kernel) :
    s.pages = s.kmem.freelist + ∑ p, (s.proc p).pages := rfl

attribute [irreducible] Kernel.pages

/-- No page has two owners, and all of them may be freed. -/
structure MemoryOk (ld : Linkage) (s : Kernel) : Prop where
  nodup : s.pages.Nodup
  valid : ∀ frame ∈ s.pages, frame.Valid ld

/-- The invariant at every point where `ptable.lock` is free. -/
structure Inv (ld : Linkage) (s : Kernel) : Prop where
  bounded : ∀ p, Bounded (s.proc p)
  states : ∀ p, StateOk p (s.proc p) (s.thread p)
  cpus : CpusOk s
  forks : ForksOk s
  waits : WaitsOk s
  init : InitOk s
  memory : MemoryOk ld s

/-! ## Consequences used by every operation -/

namespace StateOk

variable {self : Slot} {pr : Proc} {thread : Thread}

theorem running (ok : StateOk self pr thread) (state : pr.state = .running) :
    Equipped pr ∧ pr.chan = none := by
  simpa only [StateOk, state] using ok

theorem ofRunning (state : pr.state = .running) (equipped : Equipped pr)
    (chan : pr.chan = none) : StateOk self pr thread := by
  simpa only [StateOk, state] using ⟨equipped, chan⟩

theorem zombie (ok : StateOk self pr thread) (state : pr.state = .zombie) : Equipped pr := by
  simp only [StateOk, state] at ok
  exact ok.1

theorem unused (ok : StateOk self pr thread) (state : pr.state = .unused) : Vacant pr := by
  simp only [StateOk, state] at ok
  exact ok.1

theorem runnable (ok : StateOk self pr thread) (state : pr.state = .runnable) :
    Equipped pr ∧ (thread.resume = .forkret ∨ thread.resume = .yield → pr.chan = none) ∧
      (thread.resume = .yield ∨ thread.pending = .idle) := by
  simpa only [StateOk, state] using ok

theorem sleeping (ok : StateOk self pr thread) (state : pr.state = .sleeping) :
    Equipped pr ∧ thread.pending = .idle ∧ thread.resume ≠ .forkret ∧ thread.resume ≠ .yield ∧
      (thread.resume = .wait → pr.chan = some (.proc self) ∧ pr.killed = false) := by
  simpa only [StateOk, state] using ok

/-- The demands of a state concern only some of the fields. -/
theorem congr {new : Proc} (ok : StateOk self pr thread) (state : new.state = pr.state)
    (chan : new.chan = pr.chan) (ofile : new.ofile = pr.ofile)
    (killed : pr.state = .sleeping → new.killed = pr.killed)
    (vacant : Vacant pr → Vacant new) (equipped : Equipped pr → Equipped new) :
    StateOk self new thread := by
  unfold StateOk at ok ⊢
  rw [state, chan, ofile]
  cases now : pr.state with
  | unused =>
      simp only [now] at ok
      exact ⟨vacant ok.1, ok.2⟩
  | embryo =>
      simp only [now] at ok
      obtain ⟨free, idle, empty | ⟨complete, resume⟩⟩ := ok
      · exact ⟨free, idle, .inl (vacant empty)⟩
      · exact ⟨free, idle, .inr ⟨equipped complete, resume⟩⟩
  | sleeping =>
      simp only [now] at ok
      obtain ⟨complete, idle, notFork, notYield, waiting⟩ := ok
      refine ⟨equipped complete, idle, notFork, notYield, fun resume => ?_⟩
      rw [killed now]
      exact waiting resume
  | runnable =>
      simp only [now] at ok
      exact ⟨equipped ok.1, ok.2⟩
  | running =>
      simp only [now] at ok
      exact ⟨equipped ok.1, ok.2⟩
  | zombie =>
      simp only [now] at ok
      exact ⟨equipped ok.1, ok.2⟩

/-- Only a process that runs or is about to run has a system call in progress. -/
theorem idle (ok : StateOk self pr thread) (notRunning : pr.state ≠ .running)
    (notRunnable : pr.state ≠ .runnable) : thread.pending = .idle := by
  unfold StateOk at ok
  cases state : pr.state with
  | unused => simp only [state] at ok; exact ok.2
  | embryo => simp only [state] at ok; exact ok.2.1
  | sleeping => simp only [state] at ok; exact ok.2.1
  | runnable => exact absurd state notRunnable
  | running => exact absurd state notRunning
  | zombie => simp only [state] at ok; exact ok.2.2.2

end StateOk

/-- The pages of a process with kernel stack and directory. -/
theorem Proc.pages_of_some {pr : Proc} {kstack : Frame} {d : Pgdir}
    (stack : pr.kstack = some kstack) (own : pr.pgdir = some d) :
    pr.pages = {kstack} + d.frames := by
  simp [Proc.pages, stack, own]

theorem Proc.pages_of_none {pr : Proc} (stack : pr.kstack = none) : pr.pages = 0 := by
  simp [Proc.pages, stack]

theorem Proc.pages_congr {pr pr' : Proc} (stack : pr'.kstack = pr.kstack)
    (own : pr'.pgdir = pr.pgdir) : pr'.pages = pr.pages := by
  simp only [Proc.pages, stack, own]

namespace Kernel

variable {s s' : Kernel}

/-- Memory is conserved when the free list and all holdings stay. -/
theorem pages_congr (free : s'.kmem.freelist = s.kmem.freelist)
    (same : ∀ p, (s'.proc p).pages = (s.proc p).pages) : s'.pages = s.pages := by
  rw [pages_eq, pages_eq, free]
  simp only [same]

/-- Memory is conserved when only one process changes, and keeps what it owns. -/
theorem pages_one {q : Slot} (free : s'.kmem.freelist = s.kmem.freelist)
    (others : ∀ r, r ≠ q → s'.proc r = s.proc r)
    (stack : (s'.proc q).kstack = (s.proc q).kstack)
    (own : (s'.proc q).pgdir = (s.proc q).pgdir) : s'.pages = s.pages := by
  refine pages_congr free fun r => ?_
  by_cases here : r = q
  · subst here
    exact Proc.pages_congr stack own
  · rw [others r here]

/-- Memory is conserved when one process trades pages with the free list. -/
theorem pages_trade {q : Slot} (others : ∀ r, r ≠ q → s'.proc r = s.proc r)
    (trade : (s'.kmem.freelist : Multiset Frame) + (s'.proc q).pages =
      s.kmem.freelist + (s.proc q).pages) : s'.pages = s.pages := by
  have changed : s'.proc = Function.update s.proc q (s'.proc q) :=
    Function.eq_update_iff.mpr ⟨rfl, others⟩
  have total := sum_holding_update (fun _ => Proc.pages) s.proc q (s'.proc q)
  rw [← changed] at total
  rw [pages_eq, pages_eq]
  generalize ∑ r, (s'.proc r).pages = after at total ⊢
  generalize ∑ r, (s.proc r).pages = before at total ⊢
  apply add_right_cancel (b := (s.proc q).pages)
  calc (s'.kmem.freelist : Multiset Frame) + after + (s.proc q).pages
      = s'.kmem.freelist + (after + (s.proc q).pages) := add_assoc _ _ _
    _ = s'.kmem.freelist + (before + (s'.proc q).pages) := by rw [total]
    _ = s'.kmem.freelist + (s'.proc q).pages + before := by abel
    _ = s.kmem.freelist + (s.proc q).pages + before := by rw [trade]
    _ = s.kmem.freelist + before + (s.proc q).pages := by abel

/-- What a process owns, beside the free list. -/
theorem pages_split (s : Kernel) (p : Slot) :
    ∃ others, s.pages = (s.kmem.freelist : Multiset Frame) + (s.proc p).pages + others := by
  refine ⟨∑ q ∈ Finset.univ.erase p, (s.proc q).pages, ?_⟩
  rw [pages_eq, ← Finset.add_sum_erase _ _ (Finset.mem_univ p), add_assoc]

end Kernel

namespace MemoryOk

variable {ld : Linkage} {s s' : Kernel}

theorem of_pages (memory : MemoryOk ld s) (same : s'.pages = s.pages) : MemoryOk ld s' :=
  ⟨same ▸ memory.nodup, same ▸ memory.valid⟩

theorem freeOk (memory : MemoryOk ld s) : FreeOk ld s.kmem := by
  obtain ⟨others, split⟩ := s.pages_split 0
  refine ⟨?_, fun frame member => memory.valid frame ?_⟩
  · have nodup := memory.nodup
    rw [split, add_assoc] at nodup
    exact Multiset.coe_nodup.mp (Multiset.nodup_add.mp nodup).1
  · rw [split, add_assoc]
    exact Multiset.mem_add.mpr (.inl (Multiset.mem_coe.mpr member))

/-- The free list and one address space are disjoint sets of pages. -/
theorem owned (memory : MemoryOk ld s) {p : Slot} {kstack : Frame} {d : Pgdir}
    (stack : (s.proc p).kstack = some kstack) (own : (s.proc p).pgdir = some d) :
    Owned ld s.kmem d := by
  obtain ⟨others, split⟩ := s.pages_split p
  rw [Proc.pages_of_some stack own] at split
  have regroup : s.pages = (s.kmem.freelist + d.frames) + ({kstack} + others) := by
    rw [split]
    abel
  refine ⟨?_, fun frame member => memory.valid frame ?_⟩
  · have nodup := memory.nodup
    rw [regroup] at nodup
    exact (Multiset.nodup_add.mp nodup).1
  · rw [regroup]
    exact Multiset.mem_add.mpr (.inl member)

theorem validStack (memory : MemoryOk ld s) {p : Slot} {kstack : Frame}
    (stack : (s.proc p).kstack = some kstack) : kstack.Valid ld := by
  obtain ⟨others, split⟩ := s.pages_split p
  apply memory.valid
  rw [split]
  simp [Proc.pages, stack]

/-- A page that a process owns is not free. -/
theorem notFree (memory : MemoryOk ld s) {p : Slot} {frame : Frame}
    (member : frame ∈ (s.proc p).pages) : frame ∉ s.kmem.freelist := by
  intro free
  obtain ⟨others, split⟩ := s.pages_split p
  have nodup := memory.nodup
  rw [split] at nodup
  have disjoint := (Multiset.nodup_add.mp (Multiset.nodup_add.mp nodup).1).2.2
  exact Multiset.disjoint_left.mp disjoint (Multiset.mem_coe.mpr free) member

end MemoryOk

/-! ## Parts of the invariant that an operation does not concern -/

/-- A property of all processes, when an operation has changed one of them. -/
theorem forall_slot {P : Slot → Proc → Prop} {old new : Slot → Proc} {q : Slot}
    (others : ∀ r, r ≠ q → new r = old r) (here : P q (new q)) (rest : ∀ r, r ≠ q → P r (old r)) :
    ∀ r, P r (new r) := by
  intro r
  by_cases same : r = q
  · subst same
    exact here
  · rw [others r same]
    exact rest r same

section Keep

variable {s s' : Kernel}

theorem CpusOk.same (cpus : CpusOk s) (cpu : s'.cpu = s.cpu)
    (run : ∀ q, (s'.proc q).state = .running ↔ (s.proc q).state = .running) : CpusOk s' := by
  refine ⟨fun {c p} busy => ?_, fun {p} state => ?_, fun {c c' p} first second => ?_⟩
  · rw [cpu] at busy ⊢
    exact ⟨(run p).mpr (cpus.current busy).1, (cpus.current busy).2⟩
  · rw [cpu]
    exact cpus.placed ((run p).mp state)
  · rw [cpu] at first second
    exact cpus.unique first second

/-- A process leaves its CPU. -/
theorem CpusOk.leave (cpus : CpusOk s) {c : Fin ncpu} {p cur : Slot}
    (busy : (s.cpu c).proc = some p)
    (cpu : s'.cpu = Function.update s.cpu c ⟨none, cur⟩)
    (stopped : (s'.proc p).state ≠ .running)
    (run : ∀ q, q ≠ p → ((s'.proc q).state = .running ↔ (s.proc q).state = .running)) :
    CpusOk s' := by
  have others : ∀ {c' q}, (s'.cpu c').proc = some q → c' ≠ c ∧ (s.cpu c').proc = some q := by
    intro c' q busy'
    rw [cpu] at busy'
    by_cases here : c' = c
    · subst here
      rw [Function.update_self] at busy'
      cases busy'
    · rw [Function.update_of_ne here] at busy'
      exact ⟨here, busy'⟩
  refine ⟨fun {c' q} busy' => ?_, fun {q} state => ?_, fun {c₁ c₂ q} first second => ?_⟩
  · obtain ⟨apart, before⟩ := others busy'
    have other : q ≠ p := by
      rintro rfl
      exact apart (cpus.unique before busy)
    rw [cpu, Function.update_of_ne apart]
    exact ⟨(run q other).mpr (cpus.current before).1, (cpus.current before).2⟩
  · have other : q ≠ p := by
      rintro rfl
      exact stopped state
    obtain ⟨c', before⟩ := cpus.placed ((run q other).mp state)
    have apart : c' ≠ c := by
      rintro rfl
      rw [busy] at before
      exact other (Option.some.inj before).symm
    refine ⟨c', ?_⟩
    rw [cpu, Function.update_of_ne apart]
    exact before
  · exact cpus.unique (others first).2 (others second).2

/-- An idle CPU takes up a process that runs nowhere. -/
theorem CpusOk.enter (cpus : CpusOk s) {c : Fin ncpu} {p : Slot}
    (idle : (s.cpu c).proc = none)
    (cpu : s'.cpu = Function.update s.cpu c ⟨some p, p⟩)
    (waiting : (s.proc p).state ≠ .running) (started : (s'.proc p).state = .running)
    (run : ∀ q, q ≠ p → ((s'.proc q).state = .running ↔ (s.proc q).state = .running)) :
    CpusOk s' := by
  have cases : ∀ {c' q}, (s'.cpu c').proc = some q →
      (c' = c ∧ q = p) ∨ (c' ≠ c ∧ q ≠ p ∧ (s.cpu c').proc = some q) := by
    intro c' q busy
    rw [cpu] at busy
    by_cases here : c' = c
    · subst here
      rw [Function.update_self] at busy
      exact .inl ⟨rfl, (Option.some.inj busy).symm⟩
    · rw [Function.update_of_ne here] at busy
      refine .inr ⟨here, ?_, busy⟩
      rintro rfl
      exact waiting (cpus.current busy).1
  refine ⟨fun {c' q} busy => ?_, fun {q} state => ?_, fun {c₁ c₂ q} first second => ?_⟩
  · rcases cases busy with ⟨rfl, rfl⟩ | ⟨apart, other, before⟩
    · rw [cpu, Function.update_self]
      exact ⟨started, rfl⟩
    · rw [cpu, Function.update_of_ne apart]
      exact ⟨(run q other).mpr (cpus.current before).1, (cpus.current before).2⟩
  · by_cases here : q = p
    · subst here
      exact ⟨c, by rw [cpu, Function.update_self]⟩
    · obtain ⟨c', before⟩ := cpus.placed ((run q here).mp state)
      have apart : c' ≠ c := by
        rintro rfl
        rw [idle] at before
        cases before
      refine ⟨c', ?_⟩
      rw [cpu, Function.update_of_ne apart]
      exact before
  · rcases cases first with ⟨rfl, rfl⟩ | ⟨_, other, before⟩
    · rcases cases second with ⟨rfl, _⟩ | ⟨_, other, _⟩
      · rfl
      · exact absurd rfl other
    · rcases cases second with ⟨_, rfl⟩ | ⟨_, _, before'⟩
      · exact absurd rfl other
      · exact cpus.unique before before'

/-- What an operation has to leave alone in an embryo. -/
structure KeepsEmbryo (s : Kernel) (old new : Proc) : Prop where
  state : new.state = .embryo
  vacant : Vacant old → Vacant new
  equipped : Equipped old → Equipped new
  parent : ∀ p, (s.thread p).pending ≠ .idle → old.parent = some p → new.parent = some p

theorem ForksOk.keep (forks : ForksOk s)
    (pending : ∀ p, (s'.thread p).pending = (s.thread p).pending)
    (embryo : ∀ np, (s.proc np).state = .embryo → KeepsEmbryo s (s.proc np) (s'.proc np)) :
    ForksOk s' := by
  refine ⟨fun {p np} copy => ?_, fun {p np} start => ?_, fun {p p' np} first second => ?_⟩
  · rw [pending] at copy
    obtain ⟨state, vacant⟩ := forks.copying copy
    have kept := embryo np state
    exact ⟨kept.state, kept.vacant vacant⟩
  · rw [pending] at start
    obtain ⟨state, equipped, parent⟩ := forks.starting start
    have kept := embryo np state
    refine ⟨kept.state, kept.equipped equipped, kept.parent p ?_ parent⟩
    rw [start]
    exact Pending.noConfusion
  · rw [pending] at first second
    exact forks.distinct first second

theorem WaitsOk.keep (waits : WaitsOk s)
    (sleeper : ∀ p, SleepsIn s' p .wait → SleepsIn s p .wait)
    (parent : ∀ q, (s'.proc q).parent = (s.proc q).parent)
    (exited : ∀ q, (s'.proc q).state = .zombie → (s.proc q).state = .zombie) : WaitsOk s' := by
  refine ⟨fun {p} asleep => ?_, fun {p q} asleep child zombie => ?_⟩
  · obtain ⟨q, child⟩ := waits.child (sleeper p asleep)
    exact ⟨q, by rw [parent]; exact child⟩
  · rw [parent] at child
    exact waits.alive (sleeper p asleep) child (exited q zombie)

theorem InitOk.keep (init : InitOk s) (initproc : s'.initproc = s.initproc)
    (alive : ∀ q, Alive (s.proc q) → Alive (s'.proc q))
    (parent : ∀ q, (s'.proc q).parent = (s.proc q).parent ∨ (s'.proc q).parent = none ∨
      (¬ Alive (s.proc q) ∧ (s'.proc q).parent ≠ some q)) : InitOk s' := by
  refine ⟨fun {i} first => ?_, fun {i} first => ?_, fun q self => ?_⟩
  · rw [initproc] at first
    exact alive i (init.alive first)
  · rw [initproc] at first
    rcases parent i with same | none | ⟨dead, _⟩
    · rw [same]
      exact init.root first
    · exact none
    · exact absurd (init.alive first) dead
  · rcases parent q with same | none | ⟨_, other⟩
    · rw [same] at self
      exact init.proper q self
    · rw [none] at self
      cases self
    · exact other self

end Keep

end SlabStudy.Xv6
