import SlabStudy.Xv6.Reaping

/-!
# The three parts of fork

What each part of `fork` stores, and that it keeps the invariant.  A failing
copy gives back every page it took and leaves an unused slot, but one with a
pid; a successful copy leaves an embryo that owns its pages.
-/

namespace SlabStudy.Xv6

open Library

variable {ld : Linkage} {s s' : Kernel} {c : Fin ncpu} {p np : Slot}

/-! ## Claiming a slot -/

theorem allocprocClaim_eq_some (claimed : allocprocClaim s = some (np, s')) :
    (s.proc np).state = .unused ∧ (∀ q < np, (s.proc q).state ≠ .unused) ∧
      s' = { s.modify np fun pr => { pr with state := .embryo, pid := s.nextpid } with
        nextpid := int (s.nextpid + 1) } := by
  unfold allocprocClaim at claimed
  cases found : s.first fun pr => pr.state = .unused with
  | none =>
      rw [found] at claimed
      cases claimed
  | some q =>
      rw [found] at claimed
      cases claimed
      obtain ⟨unused, before⟩ := Kernel.first_eq_some found
      exact ⟨of_decide_eq_true unused, fun q lower => of_decide_eq_false (before q lower), rfl⟩

/-- The first unused slot has become an embryo with a new pid. -/
structure Claimed (s t : Kernel) (np : Slot) : Prop where
  unused : (s.proc np).state = .unused
  least : ∀ q < np, (s.proc q).state ≠ .unused
  proc : t.proc np = { s.proc np with state := .embryo, pid := s.nextpid }
  others : ∀ q, q ≠ np → t.proc q = s.proc q
  nextpid : t.nextpid = int (s.nextpid + 1)
  initproc : t.initproc = s.initproc
  cpu : t.cpu = s.cpu
  thread : t.thread = s.thread
  kmem : t.kmem = s.kmem

theorem allocprocClaim_claimed (claimed : allocprocClaim s = some (np, s')) :
    Claimed s s' np := by
  obtain ⟨unused, least, rfl⟩ := allocprocClaim_eq_some claimed
  exact ⟨unused, least, Function.update_self _ _ _, fun q other => Function.update_of_ne other _ _,
    rfl, rfl, rfl, rfl, rfl⟩

/-- An embryo belongs to no other `fork` when it was unused a moment ago. -/
theorem ForksOk.child_embryo (forks : ForksOk s) {q nq : Slot}
    (child : (s.thread q).pending.child = some nq) : (s.proc nq).state = .embryo := by
  cases pending : (s.thread q).pending with
  | idle =>
      rw [pending] at child
      cases child
  | yield =>
      rw [pending] at child
      cases child
  | forkCopy slot =>
      rw [pending] at child
      cases child
      exact (forks.copying pending).1
  | forkStart slot =>
      rw [pending] at child
      cases child
      exact (forks.starting pending).1

theorem Inv.claim (inv : Inv ld s) (free : Free s c p)
    (claimed : allocprocClaim s = some (np, s')) :
    Inv ld (s'.setPending p (.forkCopy np)) := by
  obtain ⟨unused, _, result⟩ := allocprocClaim_eq_some claimed
  have running := inv.running free.running
  have apart : np ≠ p := by
    rintro rfl
    rw [running] at unused
    cases unused
  obtain ⟨vacant, quiet⟩ : Vacant (s.proc np) ∧ (s.thread np).pending = .idle := by
    simpa only [StateOk, unused] using inv.states np
  have bounded := inv.bounded np
  generalize final : s'.setPending p (.forkCopy np) = t
  rw [result] at final
  have self : t.proc np = { s.proc np with state := .embryo, pid := s.nextpid } := by
    rw [← final]
    exact Function.update_self _ _ _
  have others : ∀ q, q ≠ np → t.proc q = s.proc q := by
    intro q other
    rw [← final]
    exact Function.update_of_ne other _ _
  have own : (t.thread p).pending = .forkCopy np := by
    rw [← final, Kernel.setPending, Kernel.setThread_thread, if_pos rfl]
  have threads : ∀ q, q ≠ p → t.thread q = s.thread q := by
    intro q other
    rw [← final, Kernel.setPending, Kernel.setThread_thread, if_neg other]
    rfl
  have resumes : ∀ q, (t.thread q).resume = (s.thread q).resume := by
    intro q
    by_cases here : q = p
    · subst here
      rw [← final, Kernel.setPending, Kernel.setThread_thread, if_pos rfl]
      rfl
    · rw [threads q here]
  have older : ∀ {q nq}, q ≠ p → (t.thread q).pending.child = some nq →
      (s.thread q).pending.child = some nq ∧ nq ≠ np := by
    intro q nq other child
    rw [threads q other] at child
    refine ⟨child, ?_⟩
    rintro rfl
    have embryo := inv.forks.child_embryo child
    rw [unused] at embryo
    cases embryo
  refine ⟨fun q => ?_, fun q => ?_, ?_,
    ⟨fun {q nq} copy => ?_, fun {q nq} start => ?_, fun {q r nq} first second => ?_⟩, ?_,
    inv.init.keep (by rw [← final]; rfl) (fun q alive => ?_) (fun q => ?_), ?_⟩
  · refine forall_slot (P := fun _ => Bounded) others ?_ (fun r _ => inv.bounded r) q
    rw [self]
    exact ⟨bounded.low, bounded.high, bounded.size, bounded.stack⟩
  · by_cases here : q = np
    · subst here
      rw [self, threads q apart]
      exact ⟨vacant.chan, quiet, .inl ⟨vacant.kstack, vacant.parent, vacant.chan, vacant.ofile⟩⟩
    · rw [others q here]
      by_cases self : q = p
      · subst self
        obtain ⟨equipped, chan⟩ := (inv.states q).running running
        exact StateOk.ofRunning running equipped chan
      · rw [threads q self]
        exact inv.states q
  · refine inv.cpus.same (by rw [← final]; rfl) fun q => ?_
    by_cases here : q = np
    · subst here
      rw [self, unused]
      constructor
      · intro impossible
        cases impossible
      · intro impossible
        cases impossible
    · rw [others q here]
  · by_cases here : q = p
    · subst here
      rw [own] at copy
      cases copy
      rw [self]
      exact ⟨rfl, vacant.kstack, vacant.parent, vacant.chan, vacant.ofile⟩
    · obtain ⟨_, other⟩ := older here (by rw [copy]; rfl)
      rw [threads q here] at copy
      rw [others nq other]
      exact inv.forks.copying copy
  · by_cases here : q = p
    · subst here
      rw [own] at start
      cases start
    · obtain ⟨_, other⟩ := older here (by rw [start]; rfl)
      rw [threads q here] at start
      rw [others nq other]
      exact inv.forks.starting start
  · by_cases left : q = p
    · by_cases right : r = p
      · rw [left, right]
      · subst left
        rw [own] at first
        cases first
        exact absurd rfl (older right second).2
    · by_cases right : r = p
      · subst right
        rw [own] at second
        cases second
        exact absurd rfl (older left first).2
      · exact inv.forks.distinct (older left first).1 (older right second).1
  · refine inv.waits.keep (fun q asleep => ?_) (fun q => ?_) fun q zombie => ?_
    · by_cases here : q = np
      · subst here
        rw [SleepsIn, self] at asleep
        cases asleep.1
      · rw [SleepsIn, others q here, resumes] at asleep
        exact asleep
    · by_cases here : q = np
      · subst here
        rw [self]
      · rw [others q here]
    · by_cases here : q = np
      · subst here
        rw [self] at zombie
        cases zombie
      · rwa [others q here] at zombie
  · have other : q ≠ np := by
      rintro rfl
      simp [Alive, unused] at alive
    rw [others q other]
    exact alive
  · by_cases here : q = np
    · subst here
      exact .inl (by rw [self])
    · exact .inl (by rw [others q here])
  · exact inv.memory.of_pages
      (Kernel.pages_one (by rw [← final]; rfl) others (by rw [self]) (by rw [self]))

/-! ## Copying the parent and starting the child -/

/-- A step of `fork` that changes its embryo and what the parent has still to do. -/
structure EmbryoStep (s t : Kernel) (p np : Slot) : Prop where
  others : ∀ q, q ≠ np → t.proc q = s.proc q
  initproc : t.initproc = s.initproc
  cpu : t.cpu = s.cpu
  threads : ∀ q, q ≠ p → q ≠ np → t.thread q = s.thread q
  quiet : (t.thread np).pending = .idle
  bounded : Bounded (t.proc np)
  state : StateOk np (t.proc np) (t.thread np)
  notRunning : (t.proc np).state ≠ .running
  notSleeping : (t.proc np).state ≠ .sleeping
  notZombie : (t.proc np).state ≠ .zombie
  parent : ∀ q, (s.proc np).parent = some q → (t.proc np).parent = some q
  proper : (t.proc np).parent ≠ some np
  pending : (t.thread p).pending = .idle ∨ ((t.thread p).pending = .forkStart np ∧
    (t.proc np).state = .embryo ∧ Equipped (t.proc np) ∧ (t.proc np).parent = some p)
  pages : t.pages = s.pages

theorem Inv.embryoStep {t : Kernel} (inv : Inv ld s) (busy : (s.cpu c).proc = some p)
    (claimed : (s.thread p).pending.child = some np) (step : EmbryoStep s t p np) : Inv ld t := by
  have running := inv.running busy
  have embryo := inv.forks.child_embryo claimed
  have apart : p ≠ np := by
    rintro rfl
    rw [running] at embryo
    cases embryo
  have parentSame : t.proc p = s.proc p := step.others p apart
  -- every other `fork` in progress was in progress before, with another embryo
  have older : ∀ {q nq}, q ≠ p → (t.thread q).pending.child = some nq →
      t.thread q = s.thread q ∧ nq ≠ np := by
    intro q nq other child
    have notChild : q ≠ np := by
      rintro rfl
      rw [step.quiet] at child
      cases child
    have same := step.threads q other notChild
    refine ⟨same, ?_⟩
    rintro rfl
    rw [same] at child
    exact other (inv.forks.distinct child claimed)
  have sleeper : ∀ {q}, SleepsIn t q .wait → q ≠ np ∧ SleepsIn s q .wait := by
    intro q asleep
    have notChild : q ≠ np := by
      rintro rfl
      exact step.notSleeping asleep.1
    have notParent : q ≠ p := by
      rintro rfl
      rw [SleepsIn, parentSame, running] at asleep
      cases asleep.1
    rw [SleepsIn, step.others q notChild, step.threads q notParent notChild] at asleep
    exact ⟨notChild, asleep⟩
  refine ⟨?_, fun q => ?_, ?_,
    ⟨fun {q nq} copy => ?_, fun {q nq} start => ?_, fun {q r nq} first second => ?_⟩,
    ⟨fun {q} asleep => ?_, fun {q r} asleep child => ?_⟩,
    inv.init.keep step.initproc (fun q alive => ?_) (fun q => ?_),
    inv.memory.of_pages step.pages⟩
  · exact forall_slot (P := fun _ => Bounded) step.others step.bounded fun r _ => inv.bounded r
  · by_cases here : q = np
    · subst here
      exact step.state
    · rw [step.others q here]
      by_cases self : q = p
      · subst self
        obtain ⟨equipped, chan⟩ := (inv.states q).running running
        exact StateOk.ofRunning running equipped chan
      · rw [step.threads q self here]
        exact inv.states q
  · refine inv.cpus.same step.cpu fun q => ?_
    by_cases here : q = np
    · subst here
      rw [embryo]
      constructor
      · intro impossible
        exact absurd impossible step.notRunning
      · intro impossible
        cases impossible
    · rw [step.others q here]
  · by_cases here : q = p
    · subst here
      rcases step.pending with idle | ⟨starts, _⟩
      · rw [idle] at copy
        cases copy
      · rw [starts] at copy
        cases copy
    · obtain ⟨same, other⟩ := older here (by rw [copy]; rfl)
      rw [same] at copy
      rw [step.others nq other]
      exact inv.forks.copying copy
  · by_cases here : q = p
    · subst here
      rcases step.pending with idle | ⟨starts, facts⟩
      · rw [idle] at start
        cases start
      · rw [starts] at start
        cases start
        exact facts
    · obtain ⟨same, other⟩ := older here (by rw [start]; rfl)
      rw [same] at start
      rw [step.others nq other]
      exact inv.forks.starting start
  · have ownChild : ∀ {nq}, (t.thread p).pending.child = some nq → nq = np := by
      intro nq child
      rcases step.pending with idle | ⟨starts, _⟩
      · rw [idle] at child
        cases child
      · rw [starts] at child
        exact (Option.some.inj child).symm
    by_cases left : q = p
    · by_cases right : r = p
      · rw [left, right]
      · subst left
        exact absurd (ownChild first) (older right second).2
    · by_cases right : r = p
      · subst right
        exact absurd (ownChild second) (older left first).2
      · rw [(older left first).1] at first
        rw [(older right second).1] at second
        exact inv.forks.distinct first second
  · obtain ⟨_, before⟩ := sleeper asleep
    obtain ⟨r, child⟩ := inv.waits.child before
    refine ⟨r, ?_⟩
    by_cases here : r = np
    · subst here
      exact step.parent q child
    · rw [step.others r here]
      exact child
  · obtain ⟨_, before⟩ := sleeper asleep
    by_cases here : r = np
    · subst here
      exact step.notZombie
    · rw [step.others r here] at child ⊢
      exact inv.waits.alive before child
  · have other : q ≠ np := by
      rintro rfl
      simp [Alive, embryo] at alive
    rw [step.others q other]
    exact alive
  · by_cases here : q = np
    · subst here
      exact .inr (.inr ⟨by simp [Alive, embryo], step.proper⟩)
    · exact .inl (by rw [step.others q here])

/-- The slot is unused again, all pages are free again, and the pid has stayed. -/
structure CopyFailed (s s' : Kernel) (np : Slot) : Prop where
  proc : ∃ pgdir, s'.proc np =
    { s.proc np with pgdir := pgdir, kstack := none, state := .unused }
  others : ∀ q, q ≠ np → s'.proc q = s.proc q
  threads : ∀ q, q ≠ np → s'.thread q = s.thread q
  quiet : (s.thread np).pending = .idle → (s'.thread np).pending = .idle
  cpu : s'.cpu = s.cpu
  initproc : s'.initproc = s.initproc
  nextpid : s'.nextpid = s.nextpid
  free : (s'.kmem.freelist : Multiset Frame) = s.kmem.freelist
  untouched : ∀ frame, frame ∉ s.kmem.freelist → s'.kmem.mem frame = s.kmem.mem frame

/-- The embryo has a kernel stack and a copy of the parent's image. -/
structure CopyDone (s s' : Kernel) (p np : Slot) (d : Pgdir) (frame : Frame) (child : Pgdir) :
    Prop where
  proc : s'.proc np = forkFields p (s.proc p) child { s.proc np with kstack := some frame }
  others : ∀ q, q ≠ np → s'.proc q = s.proc q
  threads : ∀ q, q ≠ np → s'.thread q = s.thread q
  thread : s'.thread np = ⟨.forkret, .idle⟩
  cpu : s'.cpu = s.cpu
  initproc : s'.initproc = s.initproc
  nextpid : s'.nextpid = s.nextpid
  free : (s.kmem.freelist : Multiset Frame) = {frame} + (s'.kmem.freelist + child.frames)
  untouched : ∀ frame, frame ∉ s.kmem.freelist → s'.kmem.mem frame = s.kmem.mem frame
  image : ImageCopied d (s.proc p).sz (s.proc p).stackPsize
    { s.kmem with freelist := s.kmem.freelist.tail } s'.kmem child

section Copy

variable {d : Pgdir}

/-- The parent of a copy: it owns its address space, and its sizes are in range. -/
structure CopySource (ld : Linkage) (s : Kernel) (p : Slot) (d : Pgdir) : Prop where
  own : (s.proc p).pgdir = some d
  owned : Owned ld s.kmem d
  bounded : Bounded (s.proc p)

theorem Inv.copySource (inv : Inv ld s) (busy : (s.cpu c).proc = some p) :
    ∃ d, CopySource ld s p d := by
  obtain ⟨kstack, d, stack, own⟩ := inv.equipped busy
  exact ⟨d, own, inv.memory.owned stack own, inv.bounded p⟩

theorem forkCopied_cases {made : Option Pgdir × Kmem} {copied : Bool}
    (ran : forkCopied ld s p np made = .ok (copied, s')) :
    (∃ child km, made = (some child, km) ∧ copied = true ∧
        s' = (s.setKmem km).modify np (forkFields p (s.proc p) child)) ∨
      ∃ km km' kstack, made = (none, km) ∧ copied = false ∧
        (s.proc np).kstack = some kstack ∧ kfree ld km kstack = .ok km' ∧
        s' = (s.setKmem km').modify np fun pr =>
          { pr with pgdir := none, kstack := none, state := .unused } := by
  obtain ⟨result, km⟩ := made
  cases result with
  | some child =>
      cases ran
      exact .inl ⟨child, km, rfl, rfl, rfl⟩
  | none =>
      unfold forkCopied at ran
      cases stack : (s.proc np).kstack with
      | none =>
          rw [stack] at ran
          cases ran
      | some kstack =>
          rw [stack] at ran
          obtain ⟨km', freed, last⟩ := Kern.bind_eq_ok.mp ran
          cases last
          exact .inr ⟨km, km', kstack, rfl, rfl, rfl, freed, rfl⟩

/-- A kernel stack has been taken from the free list. -/
structure Stacked (s t : Kernel) (np : Slot) (frame : Frame) : Prop where
  proc : t.proc np = { s.proc np with kstack := some frame }
  others : ∀ q, q ≠ np → t.proc q = s.proc q
  threads : ∀ q, q ≠ np → t.thread q = s.thread q
  thread : t.thread np = ⟨.forkret, .idle⟩
  cpu : t.cpu = s.cpu
  initproc : t.initproc = s.initproc
  nextpid : t.nextpid = s.nextpid
  listed : s.kmem.freelist = frame :: t.kmem.freelist
  mem : t.kmem.mem = s.kmem.mem

theorem allocprocStack_cases (s : Kernel) (np : Slot) :
    allocprocStack s np =
        (false, s.modify np fun pr => { pr with kstack := none, state := .unused }) ∨
      ∃ t frame, allocprocStack s np = (true, t) ∧ Stacked s t np frame := by
  unfold allocprocStack
  cases taken : kalloc s.kmem with
  | none => exact .inl rfl
  | some pair =>
      obtain ⟨frame, km⟩ := pair
      obtain ⟨listed, same⟩ := kalloc_eq_some_iff.mp taken
      exact .inr ⟨_, frame, rfl, Function.update_self _ _ _,
        fun q other => Function.update_of_ne other _ _,
        fun q other => Function.update_of_ne other _ _, Function.update_self _ _ _, rfl, rfl, rfl,
        listed, same⟩

theorem allocprocStack_succeeds (np : Slot) (enough : s.kmem.freelist ≠ []) :
    ∃ t frame, allocprocStack s np = (true, t) ∧ Stacked s t np frame := by
  rcases allocprocStack_cases s np with failed | done
  · unfold allocprocStack at failed
    cases taken : kalloc s.kmem with
    | none => exact absurd (kalloc_eq_none_iff.mp taken) enough
    | some pair =>
        rw [taken] at failed
        cases failed
  · exact done

/-- The copy itself, after the kernel stack has been taken. -/
theorem Stacked.copyuvm_cases {t : Kernel} {frame : Frame} {result : Option Pgdir} {km : Kmem}
    (stacked : Stacked s t np frame) (source : CopySource ld s p d)
    (ran : copyuvm ld t.kmem d (s.proc p).sz (s.proc p).stackPsize = .ok (result, km)) :
    (∃ child, result = some child ∧
        ImageCopied d (s.proc p).sz (s.proc p).stackPsize t.kmem km child) ∨
      (result = none ∧ (km.freelist : Multiset Frame) = t.kmem.freelist ∧
        ∀ frame, frame ∉ t.kmem.freelist → km.mem frame = t.kmem.mem frame) := by
  refine Xv6.copyuvm_cases (source.owned.freeOk.rest stacked.listed) source.bounded.size source.bounded.stack ?_ ran
  intro va entry user found member
  refine source.owned.notFree (Pgdir.addr_mem_frames user found) ?_
  rw [stacked.listed]
  exact List.mem_cons_of_mem _ member

theorem CopyDone.ofImage {t : Kernel} {frame : Frame} {child : Pgdir} {km : Kmem}
    (stacked : Stacked s t np frame) (apart : np ≠ p)
    (image : ImageCopied d (s.proc p).sz (s.proc p).stackPsize t.kmem km child) :
    CopyDone s ((t.setKmem km).modify np (forkFields p (t.proc p) child)) p np d frame child := by
  have shorter : t.kmem = { s.kmem with freelist := s.kmem.freelist.tail } := by
    rw [stacked.listed, List.tail_cons]
    change t.kmem = ⟨t.kmem.freelist, s.kmem.mem⟩
    rw [← stacked.mem]
  refine ⟨?_, fun q other => ?_, stacked.threads, stacked.thread, stacked.cpu, stacked.initproc,
    stacked.nextpid, ?_, fun other used => ?_, shorter ▸ image⟩
  · rw [Kernel.modify_self, Kernel.setKmem_proc, stacked.proc, stacked.others p apart.symm]
  · rw [Kernel.modify_of_ne _ _ _ other, Kernel.setKmem_proc, stacked.others q other]
  · rw [Kernel.modify_kmem, Kernel.setKmem_kmem, image.conserved, stacked.listed,
      ← Multiset.cons_coe, ← Multiset.singleton_add]
  · rw [Kernel.modify_kmem, Kernel.setKmem_kmem, image.untouched other, stacked.mem]
    intro member
    exact used (by rw [stacked.listed]; exact List.mem_cons_of_mem _ member)

theorem CopyFailed.ofNone {t : Kernel} {frame : Frame} {km km' : Kmem}
    (stacked : Stacked s t np frame)
    (total : (km.freelist : Multiset Frame) = t.kmem.freelist)
    (kept : ∀ frame, frame ∉ t.kmem.freelist → km.mem frame = t.kmem.mem frame)
    (freed : kfree ld km frame = .ok km') :
    CopyFailed s ((t.setKmem km').modify np fun pr =>
      { pr with pgdir := none, kstack := none, state := .unused }) np := by
  obtain ⟨_, added, left⟩ := kfree_eq_ok freed
  refine ⟨⟨none, ?_⟩, fun q other => ?_, stacked.threads, fun _ => ?_, stacked.cpu,
    stacked.initproc, stacked.nextpid, ?_, fun other used => ?_⟩
  · rw [Kernel.modify_self, Kernel.setKmem_proc, stacked.proc]
  · rw [Kernel.modify_of_ne _ _ _ other, Kernel.setKmem_proc, stacked.others q other]
  · rw [Kernel.modify_thread, Kernel.setKmem_thread, stacked.thread]
  · rw [Kernel.modify_kmem, Kernel.setKmem_kmem, added, stacked.listed, ← Multiset.cons_coe,
      total, Multiset.cons_coe]
  · rw [stacked.listed, List.mem_cons, not_or] at used
    rw [Kernel.modify_kmem, Kernel.setKmem_kmem, left other used.1, kept other used.2,
      stacked.mem]

/-- The part of `fork` between its critical sections either fails cleanly or copies the parent. -/
theorem forkCopy_cases (source : CopySource ld s p d) (apart : np ≠ p) {copied : Bool}
    (ran : forkCopy ld s p np = .ok (copied, s')) :
    (copied = false ∧ CopyFailed s s' np) ∨
      (copied = true ∧ ∃ frame child, CopyDone s s' p np d frame child) := by
  unfold forkCopy at ran
  rcases allocprocStack_cases s np with none | ⟨t, frame, some, stacked⟩
  · rw [none] at ran
    cases ran
    exact .inl ⟨rfl, ⟨(s.proc np).pgdir, by rw [Kernel.modify_self]⟩,
      fun q other => Kernel.modify_of_ne _ _ _ other, fun _ _ => rfl, id, rfl, rfl, rfl, rfl,
      fun _ _ => rfl⟩
  · rw [some] at ran
    simp only at ran
    rw [stacked.others p apart.symm, source.own] at ran
    obtain ⟨⟨result, km⟩, copy, ended⟩ := Kern.bind_eq_ok.mp ran
    rcases forkCopied_cases ended with
      ⟨child, _, made, rfl, rfl⟩ | ⟨_, km', kstack, made, rfl, stack, freed, rfl⟩
    · cases made
      rcases stacked.copyuvm_cases source copy with ⟨_, same, image⟩ | ⟨impossible, _⟩
      · cases same
        exact .inr ⟨rfl, frame, child, .ofImage stacked apart image⟩
      · cases impossible
    · cases made
      rw [stacked.proc] at stack
      cases stack
      rcases stacked.copyuvm_cases source copy with ⟨_, impossible, _⟩ | ⟨_, total, kept⟩
      · cases impossible
      · exact .inl ⟨rfl, .ofNone stacked total kept freed⟩

end Copy

/-! ## The steps keep the invariant -/

/-- A slot whose resources are given back is unused and vacant. -/
theorem CopyFailed.vacant (failed : CopyFailed s s' np) (vacant : Vacant (s.proc np)) :
    Vacant (s'.proc np) ∧ (s'.proc np).state = .unused := by
  obtain ⟨pgdir, result⟩ := failed.proc
  rw [result]
  exact ⟨⟨rfl, vacant.parent, vacant.chan, vacant.ofile⟩, rfl⟩

/-- A copy that fails has given back what it took. -/
theorem CopyFailed.pages (failed : CopyFailed s s' np) (vacant : Vacant (s.proc np)) :
    s'.pages = s.pages := by
  refine Kernel.pages_trade failed.others ?_
  obtain ⟨nowVacant, _⟩ := failed.vacant vacant
  rw [failed.free, Proc.pages_of_none nowVacant.kstack, Proc.pages_of_none vacant.kstack]

/-- The embryo has taken its pages from the free list. -/
theorem CopyDone.pages {d child : Pgdir} {frame : Frame}
    (done : CopyDone s s' p np d frame child) (vacant : Vacant (s.proc np)) :
    s'.pages = s.pages := by
  refine Kernel.pages_trade done.others ?_
  have owns : (s'.proc np).pages = {frame} + child.frames := by
    rw [done.proc]
    exact Proc.pages_of_some rfl rfl
  rw [owns, Proc.pages_of_none vacant.kstack, done.free]
  abel

/-- The second step of a `fork`, by a process that has claimed slot `np`. -/
theorem Inv.copyStep (inv : Inv ld s) (busy : (s.cpu c).proc = some p)
    (pending : (s.thread p).pending = .forkCopy np) {copied : Bool}
    (ran : forkCopy ld s p np = .ok (copied, s')) :
    np ≠ p ∧ ((copied = false ∧ CopyFailed s s' np) ∨
      (copied = true ∧ ∃ d frame child, CopySource ld s p d ∧ CopyDone s s' p np d frame child)) := by
  have apart : np ≠ p := by
    rintro rfl
    have embryo := (inv.forks.copying pending).1
    rw [inv.running busy] at embryo
    cases embryo
  obtain ⟨d, source⟩ := inv.copySource busy
  refine ⟨apart, ?_⟩
  rcases forkCopy_cases source apart ran with failed | ⟨done, frame, child, copy⟩
  · exact .inl failed
  · exact .inr ⟨done, d, frame, child, source, copy⟩

theorem Inv.copyFails (inv : Inv ld s) (busy : (s.cpu c).proc = some p)
    (pending : (s.thread p).pending = .forkCopy np)
    (ran : forkCopy ld s p np = .ok (false, s')) : Inv ld (s'.setPending p .idle) := by
  obtain ⟨embryo, vacant⟩ := inv.forks.copying pending
  obtain ⟨apart, ⟨_, failed⟩ | ⟨impossible, _⟩⟩ := inv.copyStep busy pending ran
  · have bounded := inv.bounded np
    obtain ⟨pgdir, result⟩ := failed.proc
    obtain ⟨nowVacant, unused⟩ := failed.vacant vacant
    have quiet : (s'.thread np).pending = .idle := by
      refine failed.quiet ((inv.states np).idle ?_ ?_)
      · rw [embryo]
        exact ProcState.noConfusion
      · rw [embryo]
        exact ProcState.noConfusion
    have thread : (s'.setPending p .idle).thread np = s'.thread np := by
      rw [Kernel.setPending, Kernel.setThread_thread, if_neg apart]
    have state : ((s'.setPending p .idle).proc np).state = .unused := unused
    refine inv.embryoStep busy (by rw [pending]; rfl) ⟨failed.others, failed.initproc, failed.cpu,
      fun q notParent notChild => ?_, by rw [thread]; exact quiet, ?_, ?_, ?_, ?_, ?_,
      fun q child => ?_, ?_, .inl ?_, ?_⟩
    · rw [Kernel.setPending, Kernel.setThread_thread, if_neg notParent,
        failed.threads q notChild]
    · change Bounded (s'.proc np)
      rw [result]
      exact ⟨bounded.low, bounded.high, bounded.size, bounded.stack⟩
    · rw [thread]
      change StateOk np (s'.proc np) (s'.thread np)
      unfold StateOk
      rw [unused]
      exact ⟨nowVacant, quiet⟩
    · rw [state]
      exact ProcState.noConfusion
    · rw [state]
      exact ProcState.noConfusion
    · rw [state]
      exact ProcState.noConfusion
    · rw [vacant.parent] at child
      cases child
    · change (s'.proc np).parent ≠ some np
      rw [nowVacant.parent]
      exact (Option.some_ne_none np).symm
    · rw [Kernel.setPending, Kernel.setThread_thread, if_pos rfl]
    · exact (setPending_pages s' p .idle).trans (failed.pages vacant)
  · cases impossible

theorem Inv.copyDone (inv : Inv ld s) (busy : (s.cpu c).proc = some p)
    (pending : (s.thread p).pending = .forkCopy np)
    (ran : forkCopy ld s p np = .ok (true, s')) : Inv ld (s'.setPending p (.forkStart np)) := by
  obtain ⟨embryo, vacant⟩ := inv.forks.copying pending
  obtain ⟨apart, ⟨impossible, _⟩ | ⟨_, d, frame, child, source, done⟩⟩ :=
    inv.copyStep busy pending ran
  · cases impossible
  · have bounded := inv.bounded np
    have thread : (s'.setPending p (.forkStart np)).thread np = ⟨.forkret, .idle⟩ := by
      rw [Kernel.setPending, Kernel.setThread_thread, if_neg apart, done.thread]
    have state : (s'.proc np).state = .embryo := by
      rw [done.proc]
      exact embryo
    have parent : (s'.proc np).parent = some p := by
      rw [done.proc]
      rfl
    have chan : (s'.proc np).chan = none := by
      rw [done.proc]
      exact vacant.chan
    have equipped : Equipped (s'.proc np) := by
      rw [done.proc]
      exact ⟨rfl, rfl⟩
    refine inv.embryoStep busy (by rw [pending]; rfl) ⟨done.others, done.initproc, done.cpu,
      fun q notParent notChild => ?_, by rw [thread], ?_, ?_, ?_, ?_, ?_, fun q child => ?_, ?_,
      .inr ⟨?_, state, equipped, parent⟩, ?_⟩
    · rw [Kernel.setPending, Kernel.setThread_thread, if_neg notParent, done.threads q notChild]
    · change Bounded (s'.proc np)
      rw [done.proc]
      exact ⟨bounded.low, bounded.high, source.bounded.size, bounded.stack⟩
    · rw [thread]
      change StateOk np (s'.proc np) _
      unfold StateOk
      rw [state]
      exact ⟨chan, rfl, .inr ⟨equipped, rfl⟩⟩
    · change (s'.proc np).state ≠ _
      rw [state]
      exact ProcState.noConfusion
    · change (s'.proc np).state ≠ _
      rw [state]
      exact ProcState.noConfusion
    · change (s'.proc np).state ≠ _
      rw [state]
      exact ProcState.noConfusion
    · rw [vacant.parent] at child
      cases child
    · change (s'.proc np).parent ≠ some np
      rw [parent]
      exact fun same => apart (Option.some.inj same).symm
    · rw [Kernel.setPending, Kernel.setThread_thread, if_pos rfl]
    · exact (setPending_pages s' p (.forkStart np)).trans (done.pages vacant)

theorem Inv.start (inv : Inv ld s) (busy : (s.cpu c).proc = some p)
    (pending : (s.thread p).pending = .forkStart np) :
    Inv ld ((forkStart s np).setPending p .idle) := by
  obtain ⟨embryo, equipped, parent⟩ := inv.forks.starting pending
  have apart : np ≠ p := by
    rintro rfl
    rw [inv.running busy] at embryo
    cases embryo
  obtain ⟨chan, quiet, fresh⟩ : (s.proc np).chan = none ∧ (s.thread np).pending = .idle ∧
      (Vacant (s.proc np) ∨ (Equipped (s.proc np) ∧ (s.thread np).resume = .forkret)) := by
    simpa only [StateOk, embryo] using inv.states np
  have bounded := inv.bounded np
  generalize result : (forkStart s np).setPending p .idle = t
  have self : t.proc np = { s.proc np with priority := 0, state := .runnable } := by
    rw [← result]
    exact Function.update_self _ _ _
  have others : ∀ q, q ≠ np → t.proc q = s.proc q := by
    intro q other
    rw [← result]
    exact Function.update_of_ne other _ _
  have threads : ∀ q, q ≠ p → t.thread q = s.thread q := by
    intro q other
    rw [← result]
    exact Function.update_of_ne other _ _
  have state : (t.proc np).state = .runnable := by rw [self]
  refine inv.embryoStep busy (by rw [pending]; rfl) ⟨others, by rw [← result]; rfl,
    by rw [← result]; rfl, fun q notParent _ => threads q notParent,
    by rw [threads np apart]; exact quiet, ?_, ?_, ?_, ?_, ?_, fun q child => ?_, ?_, .inl ?_, ?_⟩
  · rw [self]
    exact ⟨(by decide : lowprio ≤ 0), (by decide : 0 ≤ highprio), bounded.size, bounded.stack⟩
  · rw [threads np apart]
    unfold StateOk
    rw [state, self]
    exact ⟨⟨equipped.kstack, equipped.pgdir⟩, fun _ => chan, .inr quiet⟩
  · rw [state]
    exact ProcState.noConfusion
  · rw [state]
    exact ProcState.noConfusion
  · rw [state]
    exact ProcState.noConfusion
  · rw [self]
    exact child
  · rw [self]
    exact inv.init.proper np
  · rw [← result, Kernel.setPending, Kernel.setThread_thread, if_pos rfl]
  · exact Kernel.pages_one (by rw [← result]; rfl) others (by rw [self]) (by rw [self])

end SlabStudy.Xv6
