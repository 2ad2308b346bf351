import SlabStudy.Xv6.Effects
import SlabStudy.Xv6.StackFault

/-!
# What a child inherits

`fork` copies the address space of the parent and most fields of its entry.
It does not store `stack_psize` and `killed`: the child keeps the values that
the last occupant has left in its slot.  Its memory is the parent's exactly
when the stale stack size is the parent's, and two children of one parent are
alike exactly when the two stale values agree.
-/

namespace SlabStudy.Xv6

open Library

variable {ld : Linkage} {s s' t t' : Kernel} {c : Fin ncpu} {p q np : Slot} {d child : Pgdir}
  {frame : Frame}

/-! ## The memory of the child -/

/-- The image of the child is the image of a parent with heap and stack. -/
theorem Forked.sameImage (forked : Forked s s' p np d child frame)
    (layout : Layout d (s.proc p).sz (s.proc p).stackPsize) :
    SameImage s.kmem d s'.kmem child :=
  forked.image.sameImage layout

/-- Only the stack size can differ, and it is the one found in the slot. -/
theorem Forked.sameMemory_iff (forked : Forked s s' p np d child frame)
    (own : (s.proc p).pgdir = some d) (layout : Layout d (s.proc p).sz (s.proc p).stackPsize) :
    SameMemory s p s' np ↔ (s.proc np).stackPsize = (s.proc p).stackPsize := by
  have stale : (s'.proc np).stackPsize = (s.proc np).stackPsize := by
    rw [forked.proc]
    rfl
  constructor
  · intro memory
    exact stale.symm.trans memory.stackPsize
  · intro clean
    refine ⟨?_, stale.trans clean, d, child, own, ?_, forked.sameImage layout⟩
    · rw [forked.proc]
      rfl
    · rw [forked.proc]
      rfl

/--
Process `q` of `t` descends from process `p` of `s` by forks into slots with
the right stale stack size.  Between the forks other steps may be taken that
leave the memory of the process alone.
-/
inductive ForkChain (ld : Linkage) (s : Kernel) (p : Slot) : Kernel → Slot → Prop where
  | root : ForkChain ld s p s p
  | fork {t t' : Kernel} {c : Fin ncpu} {q np : Slot} {value : Int}
      (earlier : ForkChain ld s p t q) (free : Free t c q)
      (slot : t.first (fun pr => pr.state = .unused) = some np)
      (ran : fork ld t q = .ok (value, t')) (isPid : value ≠ -1)
      (clean : (t.proc np).stackPsize = (t.proc q).stackPsize) : ForkChain ld s p t' np
  | later {t t' : Kernel} {q : Slot} {label : Label} (earlier : ForkChain ld s p t q)
      (step : Step ld t label t') (undisturbed : SameMemory t q t' q) : ForkChain ld s p t' q

theorem SameMemory.refl (layout : HasLayout s p) : SameMemory s p s p := by
  obtain ⟨d, own, _⟩ := layout
  exact ⟨rfl, rfl, d, d, own, own, fun _ _ => rfl⟩

/-- Along a chain of forks the memory of the first process is handed on. -/
theorem ForkChain.sameMemory (chain : ForkChain ld s p t q) (reached : (system ld).Reachable s)
    (layout : HasLayout s p) : (system ld).Reachable t ∧ SameMemory s p t q := by
  induction chain with
  | root => exact ⟨reached, .refl layout⟩
  | fork earlier free slot ran isPid clean ih =>
      obtain ⟨reached, memory⟩ := ih
      have inv := Inv.reachable reached
      obtain ⟨d, own, pages⟩ := memory.hasLayout layout
      obtain ⟨_, child, frame, same, _, forked⟩ := inv.forked free slot ran isPid
      rw [own] at same
      cases same
      obtain ⟨_, run⟩ := fork_run inv free ran isPid
      exact ⟨reached.run run, memory.trans ((forked.sameMemory_iff own pages).mpr clean)⟩
  | later earlier step undisturbed ih =>
      exact ⟨ih.1.step step, ih.2.trans undisturbed⟩

/--
A child has the memory of its parent exactly when the slot was left with the
parent's stack size; and along every chain of such forks the memory and the
layout of the first process are handed on.
-/
theorem fork_faithful (ld : Linkage) :
    (∀ {s s' : Kernel} {c : Fin ncpu} {p np : Slot} {value : Int},
      (system ld).Reachable s → Free s c p → HasLayout s p →
      s.first (fun pr => pr.state = .unused) = some np →
      fork ld s p = .ok (value, s') → value ≠ -1 →
      (SameMemory s p s' np ∧ HasLayout s' np ↔
        (s.proc np).stackPsize = (s.proc p).stackPsize)) ∧
      ∀ {s t : Kernel} {p q : Slot}, (system ld).Reachable s → HasLayout s p →
        ForkChain ld s p t q → SameMemory s p t q ∧ HasLayout t q := by
  refine ⟨fun {s s' c p np value} reached free layout slot ran isPid => ?_,
    fun {s t p q} reached layout chain => ?_⟩
  · obtain ⟨d, own, pages⟩ := layout
    obtain ⟨_, child, frame, same, _, forked⟩ := (Inv.reachable reached).forked free slot ran isPid
    rw [own] at same
    cases same
    rw [← forked.sameMemory_iff own pages]
    exact ⟨And.left, fun memory => ⟨memory, memory.hasLayout ⟨d, own, pages⟩⟩⟩
  · have memory := (chain.sameMemory reached layout).2
    exact ⟨memory, memory.hasLayout layout⟩

/-- The first process, which has no stack, forks into a slot without one. -/
theorem fork_faithful_first : ∃ s s', (system sampleLinkage).Reachable s ∧
    fork sampleLinkage s 0 = .ok (2, s') ∧ SameMemory s 0 s' 1 ∧ HasLayout s' 1 := by
  obtain ⟨s, d, started⟩ := sample_started (by decide : 100 ≤ 0x800)
  obtain ⟨s', child, frame, ran, _⟩ := started.forks (by decide) (by decide)
  have vacant := started.others 1 (by decide)
  refine ⟨s, s', started.reached, ran, ((fork_faithful sampleLinkage).1 started.reached started.free
    ⟨d, started.own, ?_⟩ (started.vacancy fun _ => rfl) ran (by decide)).mpr ?_⟩
  · rw [started.sz, started.stackPsize]
    exact started.layout
  · rw [vacant, started.stackPsize]
    rfl

/-- A process with one page of stack forks into a fresh slot, and the child has no stack. -/
theorem fork_forgets_stack : ∃ s s', (system sampleLinkage).Reachable s ∧ HasLayout s 0 ∧
    (s.proc 0).stackPsize = 1 ∧ fork sampleLinkage s 0 = .ok (2, s') ∧
    (s'.proc 1).stackPsize = 0 ∧ ¬ SameMemory s 0 s' 1 := by
  obtain ⟨s, d, started⟩ := sample_stack (by decide : 100 + 2 ≤ 0x800)
  obtain ⟨s', child, frame, ran, forked⟩ := started.forks (by decide) (by decide)
  have stale : (s'.proc 1).stackPsize = 0 := by
    rw [forked.proc, started.others 1 (by decide)]
    rfl
  refine ⟨s, s', started.reached, ⟨d, started.own, ?_⟩, started.stackPsize, ran, stale,
    fun memory => ?_⟩
  · rw [started.sz, started.stackPsize]
    exact started.layout
  · have sizes := memory.stackPsize
    rw [stale, started.stackPsize] at sizes
    cases sizes

/-! ## Two children -/

/-- States that agree on process `p`, the free pages and every entry that is not unused. -/
structure Agree (s t : Kernel) (p : Slot) : Prop where
  entries : ∀ q, (s.proc q).state ≠ .unused ∨ (t.proc q).state ≠ .unused → t.proc q = s.proc q
  image : ∀ d, (s.proc p).pgdir = some d → SameImage s.kmem d t.kmem d
  free : t.kmem.freelist = s.kmem.freelist

/-- Two children in the same slot that a user cannot tell apart. -/
structure SameChild (s t : Kernel) (np : Slot) : Prop where
  killed : (t.proc np).killed = (s.proc np).killed
  priority : (t.proc np).priority = (s.proc np).priority
  chan : (t.proc np).chan = (s.proc np).chan
  ofile : (t.proc np).ofile = (s.proc np).ofile
  cwd : (t.proc np).cwd = (s.proc np).cwd
  tf : (t.proc np).tf = (s.proc np).tf
  memory : SameMemory s np t np

/-- The stale values that a child takes over are the same. -/
def SameLeftovers (s t : Kernel) (np : Slot) : Prop :=
  (t.proc np).killed = (s.proc np).killed ∧ (t.proc np).stackPsize = (s.proc np).stackPsize

namespace Agree

theorem unused_iff (agree : Agree s t p) (q : Slot) :
    (t.proc q).state = .unused ↔ (s.proc q).state = .unused := by
  constructor
  · intro unused
    by_contra used
    rw [agree.entries q (.inl used)] at unused
    exact used unused
  · intro unused
    by_contra used
    rw [← agree.entries q (.inr used)] at unused
    exact used unused

/-- `allocproc` hands out the same slot. -/
theorem slot (agree : Agree s t p) (found : s.first (fun pr => pr.state = .unused) = some np) :
    t.first (fun pr => pr.state = .unused) = some np := by
  obtain ⟨here, before⟩ := Kernel.first_eq_some found
  refine Kernel.first_eq_of (decide_eq_true ?_) fun q low => decide_eq_false ?_
  · exact (agree.unused_iff np).mpr (of_decide_eq_true here)
  · rw [agree.unused_iff q]
    exact of_decide_eq_false (before q low)

end Agree

/-- The fields of a child, up to the two that `fork` does not store. -/
theorem Forked.fields (forked : Forked s s' p np d child frame) (vacant : Vacant (s.proc np)) :
    s'.proc np =
      { s'.proc np with
        killed := (s.proc np).killed
        stackPsize := (s.proc np).stackPsize
        priority := 0
        chan := none
        ofile := (s.proc p).ofile
        cwd := (s.proc p).cwd
        tf := { (s.proc p).tf with eax := 0 }
        sz := (s.proc p).sz
        pgdir := some child } := by
  have files : dupFiles (s.proc p).ofile (s.proc np).ofile = (s.proc p).ofile := by
    funext i
    unfold dupFiles
    rw [vacant.ofile]
    cases (s.proc p).ofile i <;> rfl
  rw [forked.proc]
  simp only [forkFields, files, vacant.chan]

/-- The two copies of one image are the same image. -/
theorem Forked.sameCopies {d' : Pgdir} {frame' : Frame} (agree : Agree s t p)
    (parent : t.proc p = s.proc p) (own : (s.proc p).pgdir = some d)
    (first : Forked s s' p np d child frame) (second : Forked t t' p np d d' frame') :
    SameImage s'.kmem child t'.kmem d' := by
  intro va user
  have views := second.image.view va user
  rw [parent] at views
  rw [views, first.image.view va user]
  split
  · exact agree.image d own va user
  · rfl

/-- The children of agreeing states are alike exactly when the leftovers agree. -/
theorem Forked.sameChild_iff {d' : Pgdir} {frame' : Frame} (agree : Agree s t p)
    (parent : t.proc p = s.proc p) (own : (s.proc p).pgdir = some d)
    (left : Vacant (s.proc np)) (right : Vacant (t.proc np))
    (first : Forked s s' p np d child frame) (second : Forked t t' p np d d' frame') :
    SameChild s' t' np ↔ SameLeftovers s t np := by
  have before := first.fields left
  have after := second.fields right
  rw [parent] at after
  have marks := congrArg Proc.killed before
  have marks' := congrArg Proc.killed after
  have sizes := congrArg Proc.stackPsize before
  have sizes' := congrArg Proc.stackPsize after
  constructor
  · intro same
    exact ⟨marks'.symm.trans (same.killed.trans marks),
      sizes'.symm.trans (same.memory.stackPsize.trans sizes)⟩
  · rintro ⟨killed, stackPsize⟩
    refine ⟨marks'.trans (killed.trans marks.symm), ?_, ?_, ?_, ?_, ?_, ?_,
      sizes'.trans (stackPsize.trans sizes.symm), child, d', ?_, ?_,
      first.sameCopies agree parent own second⟩
    · rw [after, before]
    · rw [after, before]
    · rw [after, before]
    · rw [after, before]
    · rw [after, before]
    · rw [after, before]
    · rw [before]
    · rw [after]

/-! ## Runs in which kill finds processes -/

/-- `kill` does not hit an unused slot or the embryo of a `fork` in progress. -/
def KillsProcess (s : Kernel) (label : Label) : Prop :=
  ∀ pid q, label.victim = some pid → s.first (fun pr => pr.pid = pid) = some q →
    (s.proc q).state ≠ .unused ∧ (s.proc q).state ≠ .embryo

/-- Slots that a child may get, or has got, without having run yet. -/
def Unborn (pr : Proc) : Prop := pr.state = .unused ∨ pr.state = .embryo

theorem Alive.not_unborn {pr : Proc} (alive : Alive pr) : ¬ Unborn pr := by
  rintro (unused | embryo)
  · simp [Alive, unused] at alive
  · simp [Alive, embryo] at alive

/-- Nothing is unborn that was not before, except for a reaped entry. -/
theorem Entry.unborn {label : Label} {z : Option Slot} {old new : Proc}
    (entry : Entry s label z q old new) (unborn : Unborn new) : Unborn old ∨ new.killed = false := by
  have kept : new.state = old.state ∨ (Alive old ∧ Alive new) → Unborn old := by
    rintro (same | ⟨_, alive⟩)
    · rw [Unborn, same] at unborn
      exact unborn
    · exact absurd unborn alive.not_unborn
  cases entry with
  | same same _ _ => exact .inl (kept same.state)
  | claimed _ _ unused _ => exact .inl (.inl unused)
  | copied _ _ embryo _ _ _ => exact .inl (.inr embryo)
  | failed _ _ embryo _ _ => exact .inl (.inr embryo)
  | started _ _ embryo _ => exact .inl (.inr embryo)
  | exited _ _ _ state _ _ _ => simp [Unborn, state] at unborn
  | orphaned _ _ _ _ _ _ _ state _ => exact .inl (kept state)
  | reaped _ _ result =>
      rw [result]
      exact .inr rfl

/-- Without kills of the unborn, nobody is born killed. -/
theorem unborn_not_killed (reached : ((system ld).guarded KillsProcess).Reachable s) :
    ∀ q, Unborn (s.proc q) → (s.proc q).killed = false := by
  have both : Inv ld s ∧ ∀ q, Unborn (s.proc q) → (s.proc q).killed = false := by
    refine reached.invariant (P := fun s => Inv ld s ∧
      ∀ q, Unborn (s.proc q) → (s.proc q).killed = false) ?_ ?_
    · intro s first
      have inv := Inv.reachable (.start first)
      obtain ⟨km, initcode, root, free, ran⟩ := first
      obtain ⟨kstack, d, boot⟩ := userinit_booted free ran
      refine ⟨inv, forall_slot (P := fun _ pr => Unborn pr → pr.killed = false) boot.others ?_
        fun q _ _ => rfl⟩
      rw [boot.first]
      exact fun _ => rfl
    · rintro s label s' ⟨inv, unmarked⟩ ⟨kills, step⟩
      obtain ⟨z, effect⟩ := step_effect inv step
      refine ⟨inv.step step, fun q unborn => ?_⟩
      rcases (effect.entry q).unborn unborn with before | clear
      · refine Bool.eq_false_iff.mpr fun marked => ?_
        rcases effect.killed q marked with already | alive | ⟨pid, named, found⟩
        · rw [unmarked q before] at already
          cases already
        · exact alive.not_unborn before
        · obtain ⟨notUnused, notEmbryo⟩ := kills pid q named found
          exact before.elim notUnused notEmbryo
      · exact clear
  exact both.2

/--
Two children of one parent are alike exactly when the stale `killed` and
`stack_psize` of their slot agree, and a child is born killed exactly when its
slot was marked.  In runs in which `kill` hits neither unused slots nor
embryos, no child is.
-/
theorem fork_inherits (ld : Linkage) :
    (∀ {s s' t t' : Kernel} {c c' : Fin ncpu} {p np : Slot} {value value' : Int},
      (system ld).Reachable s → (system ld).Reachable t → Free s c p → Free t c' p →
      Agree s t p → s.first (fun pr => pr.state = .unused) = some np →
      fork ld s p = .ok (value, s') → value ≠ -1 →
      fork ld t p = .ok (value', t') → value' ≠ -1 →
      (SameChild s' t' np ↔ SameLeftovers s t np) ∧
        ((s'.proc np).killed = false ↔ (s.proc np).killed = false)) ∧
      ∀ {s s' : Kernel} {c : Fin ncpu} {p np : Slot} {value : Int},
        ((system ld).guarded KillsProcess).Reachable s → Free s c p →
        s.first (fun pr => pr.state = .unused) = some np →
        fork ld s p = .ok (value, s') → value ≠ -1 → (s'.proc np).killed = false := by
  refine ⟨fun {s s' t t' c c' p np value value'} reached reached' free free' agree slot ran isPid
    ran' isPid' => ?_, fun {s s' c p np value} reached free slot ran isPid => ?_⟩
  · have inv := Inv.reachable reached
    have inv' := Inv.reachable reached'
    obtain ⟨d, child, frame, own, _, first⟩ := inv.forked free slot ran isPid
    obtain ⟨d', child', frame', own', _, second⟩ :=
      inv'.forked free' (agree.slot slot) ran' isPid'
    have parent : t.proc p = s.proc p := by
      refine agree.entries p (.inl ?_)
      rw [inv.running free.running]
      exact ProcState.noConfusion
    rw [parent, own] at own'
    cases own'
    refine ⟨first.sameChild_iff agree parent own ((inv.states np).unused first.unused)
      ((inv'.states np).unused second.unused) second, ?_⟩
    rw [first.proc]
    rfl
  · obtain ⟨d, child, frame, _, _, forked⟩ :=
      (Inv.reachable reached.ofGuarded).forked free slot ran isPid
    rw [forked.proc]
    exact unborn_not_killed reached np (.inl forked.unused)

/-- On the small machine the first child is born unmarked, and twice the same. -/
theorem fork_inherits_first : ∃ s s', fork sampleLinkage s 0 = .ok (2, s') ∧
    SameChild s' s' 1 ∧ (s'.proc 1).killed = false := by
  obtain ⟨s, d, started⟩ := sample_started (by decide : 100 ≤ 0x800)
  obtain ⟨s', child, frame, ran, _⟩ := started.forks (by decide) (by decide)
  have slot := started.vacancy fun _ => rfl
  have agree : Agree s s 0 := ⟨fun _ _ => rfl, fun _ _ _ _ => rfl, rfl⟩
  have quiet : ((system sampleLinkage).guarded KillsProcess).Reachable s := by
    refine started.quiet.weaken fun _ label quiet pid q named => ?_
    rw [quiet.2] at named
    cases named
  refine ⟨s, s', ran, ?_, (fork_inherits sampleLinkage).2 quiet started.free slot ran (by decide)⟩
  exact ((fork_inherits sampleLinkage).1 started.reached started.reached started.free started.free
    agree slot ran (by decide) ran (by decide)).1.mpr ⟨rfl, rfl⟩

/-- After `kill(0)` the next child is born killed. -/
theorem fork_inherits_killed : ∃ s t s' t', (system sampleLinkage).Reachable s ∧
    (system sampleLinkage).Reachable t ∧ kill s 0 = (0, t) ∧ Agree s t 0 ∧
    fork sampleLinkage s 0 = .ok (2, s') ∧ fork sampleLinkage t 0 = .ok (2, t') ∧
    (s'.proc 1).killed = false ∧ (t'.proc 1).killed = true ∧ ¬ SameChild s' t' 1 := by
  obtain ⟨s, d, started⟩ := sample_started (by decide : 100 ≤ 0x800)
  have vacant := started.others 1 (by decide)
  have found : s.first (fun pr => pr.pid = 0) = some 1 :=
    started.first_pid rfl (by rw [vacant]; rfl) (by decide)
  generalize marked : (s.modify 1 fun pr => { pr with killed := true }) = t
  have killed : kill s 0 = (0, t) := by
    unfold kill
    rw [found, ← marked]
    simp only [Kernel.modify, vacant]
    rfl
  have others : ∀ q, q ≠ 1 → t.proc q = s.proc q := by
    intro q apart
    rw [← marked, Kernel.modify_of_ne _ _ _ apart]
  have entry : t.proc 1 = { Proc.zero with killed := true } := by
    rw [← marked, Kernel.modify_self, vacant]
  have kmem : t.kmem = s.kmem := by rw [← marked]; rfl
  have states : ∀ q, (t.proc q).state = (s.proc q).state := by
    refine forall_slot (P := fun q new => new.state = (s.proc q).state) others ?_ fun _ _ => rfl
    rw [entry, vacant]
  obtain ⟨s', child, frame, ran, first⟩ := started.forks (by decide) (by decide)
  obtain ⟨t', child', frame', ran', second⟩ := started.forksLike (by decide) (by decide)
    (others 0 (by decide)) states kmem (by rw [← marked]; rfl)
  have unmarked : (s'.proc 1).killed = false := by
    rw [first.proc, vacant]
    rfl
  have born : (t'.proc 1).killed = true := by
    rw [second.proc, entry]
    rfl
  refine ⟨s, t, s', t', started.reached, ?_, killed, ⟨fun q used => others q ?_, fun d _ va _ => ?_, ?_⟩,
    ran, ran', unmarked, born, fun same => ?_⟩
  · have step : Step sampleLinkage s (.kill 0 0 (kill s 0).1) (kill s 0).2 := .kill 0 started.free
    rw [killed] at step
    exact started.reached.step step
  · rintro rfl
    rw [entry, vacant] at used
    exact used.elim (fun used => used rfl) fun used => used rfl
  · rw [kmem]
  · rw [kmem]
  · have marks := same.killed
    rw [unmarked, born] at marks
    cases marks

end SlabStudy.Xv6
