import SlabStudy.Xv6.Boot

/-!
# fork as one call

The three steps of `fork`, taken without interruption, are the function
`fork`.  A call that returns a pid has filled the first unused slot; what the
child gets from the parent, and what stays from the last occupant, can be
read off the new entry.
-/

namespace SlabStudy.Xv6

open Library

variable {ld : Linkage} {s s' : Kernel} {c : Fin ncpu} {p np : Slot} {d : Pgdir}

/-! ## The memory of a process -/

/-- The user pages of process `p` are its heap and its stack, as its fields say. -/
def HasLayout (s : Kernel) (p : Slot) : Prop :=
  ∃ d, (s.proc p).pgdir = some d ∧ Layout d (s.proc p).sz (s.proc p).stackPsize

/-- Process `q` of `t` has the sizes and the user pages of process `p` of `s`. -/
structure SameMemory (s : Kernel) (p : Slot) (t : Kernel) (q : Slot) : Prop where
  sz : (t.proc q).sz = (s.proc p).sz
  stackPsize : (t.proc q).stackPsize = (s.proc p).stackPsize
  image : ∃ d d', (s.proc p).pgdir = some d ∧ (t.proc q).pgdir = some d' ∧
    SameImage s.kmem d t.kmem d'

namespace SameMemory

variable {t u : Kernel} {q r : Slot}

theorem trans (first : SameMemory s p t q) (second : SameMemory t q u r) :
    SameMemory s p u r := by
  refine ⟨second.sz.trans first.sz, second.stackPsize.trans first.stackPsize, ?_⟩
  obtain ⟨d, d₁, own, middle, same⟩ := first.image
  obtain ⟨d₂, d', other, last, again⟩ := second.image
  rw [middle] at other
  cases other
  exact ⟨d, d', own, last, fun va user => (again va user).trans (same va user)⟩

theorem hasLayout (memory : SameMemory s p t q) (layout : HasLayout s p) : HasLayout t q := by
  obtain ⟨d, d', own, child, same⟩ := memory.image
  obtain ⟨d₁, other, pages⟩ := layout
  rw [own] at other
  cases other
  refine ⟨d', child, ?_⟩
  rw [memory.sz, memory.stackPsize]
  exact same.layout pages

end SameMemory

/-! ## The result of a successful call -/

/-- Slot `np`, the first unused one, holds a child of `p`. -/
structure Forked (s s' : Kernel) (p np : Slot) (d child : Pgdir) (frame : Frame) : Prop where
  unused : (s.proc np).state = .unused
  least : ∀ q < np, (s.proc q).state ≠ .unused
  proc : s'.proc np =
    { forkFields p (s.proc p) child { s.proc np with kstack := some frame, pid := s.nextpid } with
      priority := 0
      state := .runnable }
  others : ∀ q, q ≠ np → s'.proc q = s.proc q
  threads : ∀ q, q ≠ np → s'.thread q = s.thread q
  thread : s'.thread np = ⟨.forkret, .idle⟩
  cpu : s'.cpu = s.cpu
  initproc : s'.initproc = s.initproc
  nextpid : s'.nextpid = int (s.nextpid + 1)
  free : (s.kmem.freelist : Multiset Frame) = {frame} + (s'.kmem.freelist + child.frames)
  untouched : ∀ frame, frame ∉ s.kmem.freelist → s'.kmem.mem frame = s.kmem.mem frame
  image : ImageCopied d (s.proc p).sz (s.proc p).stackPsize
    { s.kmem with freelist := s.kmem.freelist.tail } s'.kmem child

/-- The three parts of a call that returns. -/
theorem fork_eq_ok {value : Int} (ran : fork ld s p = .ok (value, s')) (isPid : value ≠ -1) :
    ∃ np t u, allocprocClaim s = some (np, t) ∧ forkCopy ld t p np = .ok (true, u) ∧
      value = (u.proc np).pid ∧ s' = forkStart u np := by
  unfold fork at ran
  cases claimed : allocprocClaim s with
  | none =>
      rw [claimed] at ran
      cases ran
      exact absurd rfl isPid
  | some pair =>
      obtain ⟨np, t⟩ := pair
      rw [claimed] at ran
      obtain ⟨⟨copied, u⟩, copy, last⟩ := Kern.bind_eq_ok.mp ran
      cases copied with
      | false =>
          cases last
          exact absurd rfl isPid
      | true =>
          cases last
          exact ⟨np, t, u, rfl, copy, rfl, rfl⟩

/-- Claiming another slot leaves the parent alone. -/
theorem CopySource.claimed {t : Kernel} (source : CopySource ld s p d) (apart : np ≠ p)
    (claimed : Claimed s t np) : CopySource ld t p d := by
  have same := claimed.others p apart.symm
  refine ⟨?_, ?_, ?_⟩
  · rw [same]
    exact source.own
  · rw [claimed.kmem]
    exact source.owned
  · rw [same]
    exact source.bounded

theorem Forked.ofDone {t u : Kernel} {frame : Frame} {child : Pgdir} (apart : np ≠ p)
    (claimed : Claimed s t np) (done : CopyDone t u p np d frame child) :
    Forked s (forkStart u np) p np d child frame := by
  have parent := claimed.others p apart.symm
  have free := done.free
  have untouched := done.untouched
  have image := done.image
  rw [claimed.kmem] at free untouched image
  rw [parent] at image
  refine ⟨claimed.unused, claimed.least, ?_, fun q other => ?_, fun q other => ?_, done.thread,
    done.cpu.trans claimed.cpu, done.initproc.trans claimed.initproc,
    done.nextpid.trans claimed.nextpid, free, untouched, image⟩
  · rw [forkStart, Kernel.modify_self, done.proc, parent, claimed.proc]
    rfl
  · rw [forkStart, Kernel.modify_of_ne _ _ _ other, done.others q other, claimed.others q other]
  · exact (done.threads q other).trans (congrFun claimed.thread q)

/-- A call of `fork` that returns a pid has made a child. -/
theorem fork_forked {value : Int} (source : CopySource ld s p d)
    (used : (s.proc p).state ≠ .unused) (ran : fork ld s p = .ok (value, s'))
    (isPid : value ≠ -1) : value = s.nextpid ∧ ∃ np child frame, Forked s s' p np d child frame := by
  obtain ⟨np, t, u, claim, copy, rfl, rfl⟩ := fork_eq_ok ran isPid
  have claimed := allocprocClaim_claimed claim
  have apart : np ≠ p := by
    rintro rfl
    exact used claimed.unused
  rcases forkCopy_cases (source.claimed apart claimed) apart copy with
    ⟨impossible, _⟩ | ⟨_, frame, child, done⟩
  · cases impossible
  · refine ⟨?_, np, child, frame, .ofDone apart claimed done⟩
    rw [done.proc, claimed.proc]
    rfl

/-- The child is in the slot that the search of `allocproc` finds. -/
theorem Forked.slot {child : Pgdir} {frame : Frame} (forked : Forked s s' p np d child frame)
    {q : Slot} (found : s.first (fun pr => pr.state = .unused) = some q) : np = q := by
  obtain ⟨unused, before⟩ := Kernel.first_eq_some found
  rcases lt_trichotomy np q with low | same | high
  · exact absurd forked.unused (of_decide_eq_false (before np low))
  · exact same
  · exact absurd (of_decide_eq_true unused) (forked.least q high)

/-- A reachable process that forks, in the terms of `Forked`. -/
theorem Inv.forked {value : Int} (inv : Inv ld s) (free : Free s c p)
    (found : s.first (fun pr => pr.state = .unused) = some np)
    (ran : fork ld s p = .ok (value, s')) (isPid : value ≠ -1) :
    ∃ d child frame, (s.proc p).pgdir = some d ∧ Owned ld s.kmem d ∧
      Forked s s' p np d child frame := by
  obtain ⟨d, source⟩ := inv.copySource free.running
  have used : (s.proc p).state ≠ .unused := by
    rw [inv.running free.running]
    exact ProcState.noConfusion
  obtain ⟨_, q, child, frame, forked⟩ := fork_forked source used ran isPid
  have slot := forked.slot found
  exact ⟨d, child, frame, source.own, source.owned, slot ▸ forked⟩

/-! ## The call and its steps -/

/-- A call in progress is noted apart from what `fork` reads. -/
theorem allocprocStack_setPending (apart : np ≠ p) (pending : Pending) :
    allocprocStack (s.setPending p pending) np =
      ((allocprocStack s np).1, (allocprocStack s np).2.setPending p pending) := by
  unfold allocprocStack
  cases taken : kalloc s.kmem with
  | none =>
      rw [show (s.setPending p pending).kmem = s.kmem from rfl, taken]
      rfl
  | some pair =>
      rw [show (s.setPending p pending).kmem = s.kmem from rfl, taken]
      simp only [Kernel.setPending, Kernel.setThread, Kernel.modify, Kernel.setKmem,
        Function.update_of_ne apart.symm, Function.update_comm apart]

theorem forkCopied_setPending (pending : Pending) {made : Option Pgdir × Kmem} {copied : Bool}
    (ran : forkCopied ld s p np made = .ok (copied, s')) :
    forkCopied ld (s.setPending p pending) p np made = .ok (copied, s'.setPending p pending) := by
  rcases forkCopied_cases ran with
    ⟨child, km, rfl, rfl, rfl⟩ | ⟨km, km', kstack, rfl, rfl, stack, freed, rfl⟩
  · rfl
  · unfold forkCopied
    rw [show (s.setPending p pending).proc = s.proc from rfl, stack]
    exact Kern.bind_eq_ok.mpr ⟨km', freed, rfl⟩

theorem forkCopy_setPending (apart : np ≠ p) (pending : Pending) {copied : Bool}
    (ran : forkCopy ld s p np = .ok (copied, s')) :
    forkCopy ld (s.setPending p pending) p np = .ok (copied, s'.setPending p pending) := by
  unfold forkCopy at ran ⊢
  rw [allocprocStack_setPending apart]
  generalize allocprocStack s np = stacked at ran ⊢
  obtain ⟨taken, t⟩ := stacked
  cases taken with
  | false =>
      cases ran
      rfl
  | true =>
      simp only [show (t.setPending p pending).proc = t.proc from rfl,
        show (t.setPending p pending).kmem = t.kmem from rfl] at ran ⊢
      cases own : (t.proc p).pgdir with
      | none =>
          rw [own] at ran
          cases ran
      | some d =>
          rw [own] at ran
          obtain ⟨made, copy, ended⟩ := Kern.bind_eq_ok.mp ran
          exact Kern.bind_eq_ok.mpr ⟨made, copy, forkCopied_setPending pending ended⟩

/-- Without interruption, the three steps of a successful `fork` are the call. -/
theorem fork_run {value : Int} (inv : Inv ld s) (free : Free s c p)
    (ran : fork ld s p = .ok (value, s')) (isPid : value ≠ -1) :
    ∃ np, (system ld).Run s [.claim p (some np), .copy p np true, .start p np] s' := by
  obtain ⟨np, t, u, claim, copy, rfl, rfl⟩ := fork_eq_ok ran isPid
  have claimed := allocprocClaim_claimed claim
  have apart : np ≠ p := by
    rintro rfl
    have unused := claimed.unused
    rw [inv.running free.running] at unused
    cases unused
  obtain ⟨d, source⟩ := inv.copySource free.running
  rcases forkCopy_cases (source.claimed apart claimed) apart copy with
    ⟨impossible, _⟩ | ⟨_, frame, child, done⟩
  · cases impossible
  · refine ⟨np, ?_⟩
    have claimStep : Step ld s (.claim p (some np)) (t.setPending p (.forkCopy np)) :=
      .claimSome free claim
    have copyStep : Step ld (t.setPending p (.forkCopy np)) (.copy p np true)
        (u.setPending p (.forkStart np)) := by
      rw [← Kernel.setPending_setPending u p (.forkCopy np)]
      refine .copyDone (c := c) ?_ (Kernel.setPending_pending t p _)
        (forkCopy_setPending apart _ copy)
      exact (congrArg (fun cpu : Fin ncpu → Cpu => (cpu c).proc) claimed.cpu).trans free.running
    have startStep : Step ld (u.setPending p (.forkStart np)) (.start p np) (forkStart u np) := by
      have idle : ((forkStart u np).thread p).pending = .idle := by
        change (u.thread p).pending = .idle
        rw [done.threads p apart.symm, claimed.thread]
        exact free.idle
      rw [← Kernel.setPending_eq_self idle,
        ← Kernel.setPending_setPending (forkStart u np) p (.forkStart np)]
      refine .start (c := c) ?_ (Kernel.setPending_pending u p _)
      exact (congrArg (fun cpu : Fin ncpu → Cpu => (cpu c).proc)
        (done.cpu.trans claimed.cpu)).trans free.running
    exact .snoc (.snoc (.snoc (.nil s) claimStep) copyStep) startStep

/-! ## Calls that succeed -/

/-- A process with heap and stack is copied when memory is plenty. -/
theorem forkCopy_succeeds (source : CopySource ld s p d) (apart : np ≠ p)
    (layout : Layout d (s.proc p).sz (s.proc p).stackPsize)
    (split : pgRoundUp (s.proc p).sz ≤ kernbase - (s.proc p).stackPsize * pgsize)
    (enough : 66 + 2 * (pageAddrs 0 (s.proc p).sz ++ stackAddrs (s.proc p).stackPsize).length ≤
      s.kmem.freelist.length) :
    ∃ s', forkCopy ld s p np = .ok (true, s') := by
  have some : s.kmem.freelist ≠ [] := by
    intro empty
    simp [empty] at enough
  obtain ⟨t, frame, taken, stacked⟩ := allocprocStack_succeeds np some
  rw [stacked.listed, List.length_cons] at enough
  obtain ⟨child, km, copied⟩ := copyuvm_succeeds (source.owned.freeOk.rest stacked.listed) layout
    split (by omega)
  refine ⟨(t.setKmem km).modify np (forkFields p (t.proc p) child), ?_⟩
  unfold forkCopy
  rw [taken]
  simp only
  rw [stacked.others p apart.symm, source.own]
  refine Kern.bind_eq_ok.mpr ⟨(.some child, km), copied, ?_⟩
  rw [← stacked.others p apart.symm]
  rfl

/-- With a free slot as well, the call returns the next pid. -/
theorem fork_succeeds (source : CopySource ld s p d) (used : (s.proc p).state ≠ .unused)
    (vacancy : ∃ q, (s.proc q).state = .unused)
    (layout : Layout d (s.proc p).sz (s.proc p).stackPsize)
    (split : pgRoundUp (s.proc p).sz ≤ kernbase - (s.proc p).stackPsize * pgsize)
    (enough : 66 + 2 * (pageAddrs 0 (s.proc p).sz ++ stackAddrs (s.proc p).stackPsize).length ≤
      s.kmem.freelist.length) :
    ∃ s', fork ld s p = .ok (s.nextpid, s') := by
  obtain ⟨q, unused⟩ := vacancy
  cases claim : allocprocClaim s with
  | none =>
      unfold allocprocClaim at claim
      cases found : s.first fun pr => pr.state = .unused with
      | none => exact absurd unused (of_decide_eq_false (Kernel.first_eq_none.mp found q))
      | some np =>
          rw [found] at claim
          cases claim
  | some pair =>
      obtain ⟨np, t⟩ := pair
      have claimed := allocprocClaim_claimed claim
      have apart : np ≠ p := by
        rintro rfl
        exact used claimed.unused
      have parent := claimed.others p apart.symm
      rw [← parent] at layout split enough
      rw [← claimed.kmem] at enough
      obtain ⟨u, copy⟩ := forkCopy_succeeds (source.claimed apart claimed) apart layout split enough
      have pid : (u.proc np).pid = s.nextpid := by
        rcases forkCopy_cases (source.claimed apart claimed) apart copy with
          ⟨impossible, _⟩ | ⟨_, frame, child, done⟩
        · cases impossible
        · rw [done.proc, claimed.proc]
          rfl
      refine ⟨forkStart u np, ?_⟩
      unfold fork
      rw [claim]
      refine Kern.bind_eq_ok.mpr ⟨(true, u), copy, ?_⟩
      rw [← pid]
      rfl

/-! ## The first child of the small machine -/

section Sample

variable {psize pages : Nat}

theorem Started.source (started : Started s d psize pages) : CopySource sampleLinkage s 0 d := by
  obtain ⟨d', source⟩ := (Inv.reachable started.reached).copySource started.free.running
  have own := source.own
  rw [started.own] at own
  cases own
  exact source

theorem Started.running (started : Started s d psize pages) : (s.proc 0).state = .running :=
  (Inv.reachable started.reached).running started.free.running

/-- The second slot is the first one that can have a pid other than 1. -/
theorem Started.first_pid {t : Kernel} (started : Started s d psize pages)
    (same : t.proc 0 = s.proc 0) {pid : Int} (matched : (t.proc 1).pid = pid) (other : pid ≠ 1) :
    t.first (fun pr => pr.pid = pid) = some 1 := by
  refine Kernel.first_eq_of (decide_eq_true matched) fun q before => decide_eq_false ?_
  have zero : q = 0 := Fin.ext (Nat.lt_one_iff.mp before)
  rw [zero, same, started.pid]
  exact other.symm

/-- Slot 1 is the first unused one. -/
theorem Started.vacancy {t : Kernel} (started : Started s d psize pages)
    (states : ∀ q, (t.proc q).state = (s.proc q).state) :
    t.first (fun pr => pr.state = .unused) = some 1 := by
  refine Kernel.first_eq_of (decide_eq_true ?_) fun q before => decide_eq_false ?_
  · rw [states, started.others 1 (by decide)]
    rfl
  · have zero : q = 0 := Fin.ext (Nat.lt_one_iff.mp before)
    rw [states, zero, started.running]
    exact ProcState.noConfusion

/-- From a state that differs in unused slots only, the first process forks into slot 1. -/
theorem Started.forksLike {t : Kernel} (started : Started s d psize pages) (small : psize ≤ 1)
    (plenty : 100 ≤ pages) (self : t.proc 0 = s.proc 0)
    (states : ∀ q, (t.proc q).state = (s.proc q).state) (kmem : t.kmem = s.kmem)
    (nextpid : t.nextpid = s.nextpid) :
    ∃ t' child frame, fork sampleLinkage t 0 = .ok (2, t') ∧ Forked t t' 0 1 d child frame := by
  have source : CopySource sampleLinkage t 0 d := by
    obtain ⟨own, owned, bounded⟩ := started.source
    rw [← self] at own bounded
    rw [← kmem] at owned
    exact ⟨own, owned, bounded⟩
  have used : (t.proc 0).state ≠ .unused := by
    rw [states, started.running]
    exact ProcState.noConfusion
  have found := started.vacancy states
  have layout := started.layout
  have enough := started.enough
  rw [← kmem] at enough
  have sz : (t.proc 0).sz = pgsize := by rw [self, started.sz]
  have stack : (t.proc 0).stackPsize = psize := by rw [self, started.stackPsize]
  rw [← sz, ← stack] at layout
  have length : (pageAddrs 0 (t.proc 0).sz ++ stackAddrs (t.proc 0).stackPsize).length =
      1 + psize := by
    rw [sz, stack]
    simp [pageAddrs, stackAddrs]
  obtain ⟨t', ran⟩ := fork_succeeds source used
    ⟨1, of_decide_eq_true (Kernel.first_eq_some found).1⟩ layout
    (by
      rw [sz, stack]
      change 4096 ≤ 2147483648 - psize * 4096
      omega)
    (by omega)
  rw [nextpid, started.nextpid] at ran
  obtain ⟨_, np, child, frame, forked⟩ := fork_forked source used ran (by decide)
  have slot := forked.slot found
  exact ⟨t', child, frame, ran, slot ▸ forked⟩

theorem Started.forks (started : Started s d psize pages) (small : psize ≤ 1)
    (plenty : 100 ≤ pages) :
    ∃ s' child frame, fork sampleLinkage s 0 = .ok (2, s') ∧ Forked s s' 0 1 d child frame :=
  started.forksLike small plenty rfl (fun _ => rfl) rfl rfl

/-- The forking process goes on, in a reachable state. -/
theorem Started.afterFork {child : Pgdir} {frame : Frame} (started : Started s d psize pages)
    (ran : fork sampleLinkage s 0 = .ok (2, s')) (forked : Forked s s' 0 1 d child frame) :
    (quietSystem sampleLinkage).Reachable s' ∧ Free s' 0 0 := by
  obtain ⟨np, run⟩ := fork_run (Inv.reachable started.reached) started.free ran (by decide)
  refine ⟨started.quiet.run (run.toGuarded (by simp [Label.outcome, Label.victim])), ?_, ?_⟩
  · rw [forked.cpu]
    exact started.free.running
  · rw [forked.threads 0 (by decide)]
    exact started.free.idle

end Sample

end SlabStudy.Xv6
