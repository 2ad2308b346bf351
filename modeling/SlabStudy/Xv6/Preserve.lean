import SlabStudy.Xv6.Invariant

/-!
# Operations keep the invariant

One lemma for each operation on the process table, except for the three parts
of `fork` and for `exit`.
-/

namespace SlabStudy.Xv6

open Library

variable {ld : Linkage} {s s' : Kernel} {c : Fin ncpu} {p : Slot}

/-! ## Operations on the memory of the running process -/

theorem Inv.running (inv : Inv ld s) (busy : (s.cpu c).proc = some p) :
    (s.proc p).state = .running := (inv.cpus.current busy).1

/-- The directory and the kernel stack of a running process. -/
theorem Inv.equipped (inv : Inv ld s) (busy : (s.cpu c).proc = some p) :
    ∃ kstack d, (s.proc p).kstack = some kstack ∧ (s.proc p).pgdir = some d := by
  have equipped := ((inv.states p).running (inv.running busy)).1
  obtain ⟨kstack, stack⟩ := Option.isSome_iff_exists.mp equipped.kstack
  obtain ⟨d, own⟩ := Option.isSome_iff_exists.mp equipped.pgdir
  exact ⟨kstack, d, stack, own⟩

/-- Stores that only concern the memory, the registers and the files of a running process. -/
structure OwnStores (old new : Proc) : Prop where
  state : new.state = old.state
  chan : new.chan = old.chan
  parent : new.parent = old.parent
  kstack : new.kstack = old.kstack
  pgdir : new.pgdir.isSome = true
  bounded : Bounded new

theorem Inv.ownStores (inv : Inv ld s) (busy : (s.cpu c).proc = some p) {km : Kmem}
    {store : Proc → Proc} (own : OwnStores (s.proc p) (store (s.proc p)))
    (trade : (km.freelist : Multiset Frame) + (store (s.proc p)).pages =
      s.kmem.freelist + (s.proc p).pages) :
    Inv ld ((s.setKmem km).modify p store) := by
  have running := inv.running busy
  obtain ⟨equipped, chan⟩ := (inv.states p).running running
  have same : ∀ q, q ≠ p → ((s.setKmem km).modify p store).proc q = s.proc q :=
    fun q apart => Kernel.modify_of_ne _ _ _ apart
  have self : ((s.setKmem km).modify p store).proc p = store (s.proc p) :=
    Kernel.modify_self _ _ _
  have states : ∀ q, (((s.setKmem km).modify p store).proc q).state = (s.proc q).state := by
    intro q
    by_cases here : q = p
    · subst here
      rw [self, own.state]
    · rw [same q here]
  have parents : ∀ q, (((s.setKmem km).modify p store).proc q).parent = (s.proc q).parent := by
    intro q
    by_cases here : q = p
    · subst here
      rw [self, own.parent]
    · rw [same q here]
  refine ⟨fun q => ?_, fun q => ?_, ?_, ?_, ?_, ?_,
    inv.memory.of_pages (Kernel.pages_trade same ?_)⟩
  · by_cases here : q = p
    · subst here
      rw [self]
      exact own.bounded
    · rw [same q here]
      exact inv.bounded q
  · by_cases here : q = p
    · subst here
      rw [self]
      exact StateOk.ofRunning (own.state.trans running)
        ⟨by rw [own.kstack]; exact equipped.kstack, own.pgdir⟩ (own.chan.trans chan)
    · rw [same q here]
      exact inv.states q
  · exact inv.cpus.same rfl fun q => by rw [states]
  · refine inv.forks.keep (fun _ => rfl) fun np embryo => ?_
    have apart : np ≠ p := by
      rintro rfl
      rw [running] at embryo
      cases embryo
    rw [same np apart]
    exact ⟨embryo, id, id, fun _ _ parent => parent⟩
  · refine inv.waits.keep (fun q asleep => ?_) parents fun q zombie => ?_
    · exact ⟨(states q).symm.trans asleep.1, asleep.2⟩
    · exact (states q).symm.trans zombie
  · refine inv.init.keep rfl (fun q alive => ?_) fun q => .inl (parents q)
    rw [Alive, states]
    exact alive
  · rw [self]
    exact trade

/-- A process trades the pages of its old directory for those of a new one. -/
theorem Inv.imageTrade (inv : Inv ld s) (busy : (s.cpu c).proc = some p) {km : Kmem}
    {d d' : Pgdir} {pr : Proc} (old : (s.proc p).pgdir = some d)
    (conserved : (km.freelist : Multiset Frame) + d'.frames = s.kmem.freelist + d.frames)
    (new : pr.pgdir = some d') (kstack : pr.kstack = (s.proc p).kstack) :
    (km.freelist : Multiset Frame) + pr.pages = s.kmem.freelist + (s.proc p).pages := by
  obtain ⟨frame, _, stack, _⟩ := inv.equipped busy
  rw [Proc.pages_of_some (kstack.trans stack) new, Proc.pages_of_some stack old,
    add_left_comm, conserved]
  abel

/-- Another image of conserved pages changes nothing about who owns what. -/
theorem Kernel.pages_image (inv : Inv ld s) (busy : (s.cpu c).proc = some p) {km : Kmem}
    {d d' : Pgdir} {store : Proc → Proc} (old : (s.proc p).pgdir = some d)
    (conserved : (km.freelist : Multiset Frame) + d'.frames = s.kmem.freelist + d.frames)
    (new : (store (s.proc p)).pgdir = some d')
    (kstack : (store (s.proc p)).kstack = (s.proc p).kstack) :
    ((s.setKmem km).modify p store).pages = s.pages := by
  refine Kernel.pages_trade (fun q apart => Kernel.modify_of_ne _ _ _ apart) ?_
  rw [Kernel.modify_self]
  exact inv.imageTrade busy old conserved new kstack

/-- A new address space of conserved pages, with registers, files and sizes to go with it. -/
theorem Inv.replaceImage (inv : Inv ld s) (busy : (s.cpu c).proc = some p) {km : Kmem}
    {d d' : Pgdir} {store : Proc → Proc} (old : (s.proc p).pgdir = some d)
    (conserved : (km.freelist : Multiset Frame) + d'.frames = s.kmem.freelist + d.frames)
    (new : (store (s.proc p)).pgdir = some d')
    (state : (store (s.proc p)).state = (s.proc p).state)
    (chan : (store (s.proc p)).chan = (s.proc p).chan)
    (parent : (store (s.proc p)).parent = (s.proc p).parent)
    (kstack : (store (s.proc p)).kstack = (s.proc p).kstack)
    (bounded : Bounded (store (s.proc p))) :
    Inv ld ((s.setKmem km).modify p store) := by
  exact inv.ownStores busy ⟨state, chan, parent, kstack, by rw [new]; rfl, bounded⟩
    (inv.imageTrade busy old conserved new kstack)

/-- The end of `growproc`, with conserved pages and a size in user space. -/
theorem Inv.growprocResize (inv : Inv ld s) (busy : (s.cpu c).proc = some p) {value : Int}
    {result : Nat} {km : Kmem} {d d' : Pgdir} (own : (s.proc p).pgdir = some d)
    (conserved : (km.freelist : Multiset Frame) + d'.frames = s.kmem.freelist + d.frames)
    (small : result ≤ kernbase)
    (ran : growprocResize s p (result, km, d') = .ok (value, s')) : Inv ld s' := by
  have bounded := inv.bounded p
  rcases growprocResize_eq_ok ran with ⟨_, _, rfl⟩ | ⟨_, _, rfl⟩
  · exact inv.replaceImage busy own conserved rfl rfl rfl rfl rfl
      ⟨bounded.low, bounded.high, bounded.size, bounded.stack⟩
  · exact inv.replaceImage busy own conserved rfl rfl rfl rfl rfl
      ⟨bounded.low, bounded.high, small, bounded.stack⟩

theorem Inv.growproc (inv : Inv ld s) (busy : (s.cpu c).proc = some p) {n value : Int}
    (ran : growproc ld s p n = .ok (value, s')) : Inv ld s' := by
  obtain ⟨kstack, d, stack, own⟩ := inv.equipped busy
  have owned := inv.memory.owned stack own
  have heap := (inv.bounded p).size
  rcases growproc_eq_ok own ran with
    ⟨_, result, km, d', grown, ended⟩ | ⟨_, result, km, d', shrunk, ended⟩ | ⟨_, _, rfl⟩
  · obtain ⟨conserved, small⟩ := allocuvm_conserved owned grown
    exact inv.growprocResize busy own conserved (small heap) ended
  · rcases deallocuvm_cases heap owned.validFrames shrunk with
      ⟨_, rfl, rfl, rfl⟩ | ⟨less, rfl, released⟩
    · exact inv.growprocResize busy own rfl heap ended
    · exact inv.growprocResize busy own released.conserved
        (Nat.le_trans (Nat.le_of_lt less) heap) ended
  · exact inv

/-- The page-fault case never lets the stack counter pass its bound. -/
theorem pgflt_stack {psize old : Nat} (bound : psize ≤ 2 ^ 19 + 1)
    (bottom : old = pgRoundUp (uint (stackbase - pgsize * (psize + 1 : Nat))))
    (user : ¬ kernbase ≤ (old + pgsize) % 2 ^ 32) : psize + 1 ≤ 2 ^ 19 + 1 := by
  subst bottom
  change psize ≤ 524289 at bound
  change psize + 1 ≤ 524289
  by_contra large
  have full : psize = 524289 := by omega
  subst full
  exact user (by decide)

theorem Inv.pgflt (inv : Inv ld s) (busy : (s.cpu c).proc = some p) {va : Nat} {user : Bool}
    (ran : pgflt ld s p va user = .ok s') : Inv ld s' := by
  obtain ⟨kstack, d, stack, own⟩ := inv.equipped busy
  have owned := inv.memory.owned stack own
  have bounded := inv.bounded p
  rcases pgflt_eq_ok own ran with
    ⟨_, old, result, km, d', bottom, grown, positive, rfl⟩ | ⟨_, _, rfl⟩
  · have low := allocuvm_user grown positive
    exact inv.replaceImage busy own (allocuvm_conserved owned grown).1 rfl rfl rfl rfl rfl
      ⟨bounded.low, bounded.high, bounded.size,
        pgflt_stack bounded.stack bottom (Nat.not_le.mpr low)⟩
  · exact inv.replaceImage busy own rfl own rfl rfl rfl rfl
      ⟨bounded.low, bounded.high, bounded.size, bounded.stack⟩

/-! ## Waking up, killing, and changing a priority -/

/-- A process may be woken up, be marked killed, or get another priority. -/
structure Nudged (old new : Proc) : Prop where
  kstack : new.kstack = old.kstack
  pgdir : new.pgdir = old.pgdir
  parent : new.parent = old.parent
  chan : new.chan = old.chan
  ofile : new.ofile = old.ofile
  pid : new.pid = old.pid
  exitStatus : new.exitStatus = old.exitStatus
  bounded : Bounded new
  state : (new.state = old.state ∧ (old.state = .sleeping → new.killed = old.killed)) ∨
    (old.state = .sleeping ∧ new.state = .runnable)

theorem Nudged.refl {pr : Proc} (bounded : Bounded pr) : Nudged pr pr :=
  ⟨rfl, rfl, rfl, rfl, rfl, rfl, rfl, bounded, .inl ⟨rfl, fun _ => rfl⟩⟩

theorem Nudged.vacant {old new : Proc} (nudged : Nudged old new) (vacant : Vacant old) :
    Vacant new :=
  ⟨nudged.kstack.trans vacant.kstack, nudged.parent.trans vacant.parent,
    nudged.chan.trans vacant.chan, nudged.ofile.trans vacant.ofile⟩

theorem Nudged.equipped {old new : Proc} (nudged : Nudged old new) (equipped : Equipped old) :
    Equipped new :=
  ⟨nudged.kstack ▸ equipped.kstack, nudged.pgdir ▸ equipped.pgdir⟩

theorem Nudged.stateOk {self : Slot} {old new : Proc} {thread : Thread}
    (nudged : Nudged old new) (ok : StateOk self old thread) : StateOk self new thread := by
  rcases nudged.state with ⟨same, killed⟩ | ⟨asleep, woken⟩
  · exact ok.congr same nudged.chan nudged.ofile killed nudged.vacant nudged.equipped
  · obtain ⟨equipped, idle, notFork, notYield, _⟩ := ok.sleeping asleep
    unfold StateOk
    rw [woken]
    refine ⟨nudged.equipped equipped, fun resume => ?_, .inr idle⟩
    rcases resume with fork | yields
    · exact absurd fork notFork
    · exact absurd yields notYield

theorem Nudged.state_iff {old new : Proc} (nudged : Nudged old new) {state : ProcState}
    (notSleeping : state ≠ .sleeping) (notRunnable : state ≠ .runnable) :
    new.state = state ↔ old.state = state := by
  rcases nudged.state with ⟨same, _⟩ | ⟨asleep, woken⟩
  · rw [same]
  · rw [asleep, woken]
    exact ⟨fun eq => absurd eq.symm notRunnable, fun eq => absurd eq.symm notSleeping⟩

theorem Nudged.alive {old new : Proc} (nudged : Nudged old new) (alive : Alive old) :
    Alive new := by
  rcases nudged.state with ⟨same, _⟩ | ⟨_, woken⟩
  · rw [Alive, same]
    exact alive
  · exact .inr (.inl woken)

/-- The kernel after entries have been nudged. -/
structure Nudges (s s' : Kernel) : Prop where
  entries : ∀ q, Nudged (s.proc q) (s'.proc q)
  initproc : s'.initproc = s.initproc
  nextpid : s'.nextpid = s.nextpid
  cpu : s'.cpu = s.cpu
  thread : s'.thread = s.thread
  kmem : s'.kmem = s.kmem

theorem Nudges.pages (nudges : Nudges s s') : s'.pages = s.pages :=
  Kernel.pages_congr (by rw [nudges.kmem]) fun q =>
    Proc.pages_congr (nudges.entries q).kstack (nudges.entries q).pgdir

theorem Inv.nudged (inv : Inv ld s) (nudges : Nudges s s') : Inv ld s' := by
  have pages := nudges.pages
  obtain ⟨nudged, initproc, _, cpu, thread, _⟩ := nudges
  refine ⟨fun q => (nudged q).bounded, fun q => ?_, ?_, ?_, ?_,
    inv.init.keep initproc (fun q => (nudged q).alive) fun q => .inl (nudged q).parent,
    inv.memory.of_pages pages⟩
  · rw [thread]
    exact (nudged q).stateOk (inv.states q)
  · exact inv.cpus.same cpu fun q => (nudged q).state_iff (by decide) (by decide)
  · refine inv.forks.keep (fun q => by rw [thread]) fun np embryo => ?_
    exact ⟨((nudged np).state_iff (by decide) (by decide)).mpr embryo, (nudged np).vacant,
      (nudged np).equipped, fun _ _ parent => (nudged np).parent.trans parent⟩
  · refine inv.waits.keep (fun q asleep => ?_) (fun q => (nudged q).parent) fun q zombie => ?_
    · obtain ⟨sleeping, waiting⟩ := asleep
      rw [thread] at waiting
      rcases (nudged q).state with ⟨same, _⟩ | ⟨_, woken⟩
      · exact ⟨same.symm.trans sleeping, waiting⟩
      · rw [woken] at sleeping
        cases sleeping
    · exact ((nudged q).state_iff (by decide) (by decide)).mp zombie

theorem Nudges.refl (bounded : ∀ q, Bounded (s.proc q)) : Nudges s s :=
  ⟨fun q => Nudged.refl (bounded q), rfl, rfl, rfl, rfl, rfl⟩

theorem Nudges.one (bounded : ∀ q, Bounded (s.proc q)) (q : Slot) (store : Proc → Proc)
    (nudged : Nudged (s.proc q) (store (s.proc q))) : Nudges s (s.modify q store) := by
  refine ⟨forall_slot (P := fun r new => Nudged (s.proc r) new)
    (fun r apart => Kernel.modify_of_ne _ _ _ apart) ?_ fun r _ => Nudged.refl (bounded r),
    rfl, rfl, rfl, rfl, rfl⟩
  rw [Kernel.modify_self]
  exact nudged

/-- `wakeup1` leaves a process alone or makes it runnable. -/
theorem wakeup1_nudged {table : Slot → Proc} (chan : Option Chan) (q : Slot)
    (bounded : Bounded (table q)) : Nudged (table q) (wakeup1 chan table q) := by
  unfold wakeup1
  split
  · next asleep =>
      exact ⟨rfl, rfl, rfl, rfl, rfl, rfl, rfl,
        ⟨bounded.low, bounded.high, bounded.size, bounded.stack⟩, .inr ⟨asleep.1, rfl⟩⟩
  · exact Nudged.refl bounded

theorem wakeup_nudges (bounded : ∀ q, Bounded (s.proc q)) (chan : Option Chan) :
    Nudges s (wakeup s chan) :=
  ⟨fun q => wakeup1_nudged chan q (bounded q), rfl, rfl, rfl, rfl, rfl⟩

theorem kill_nudges (bounded : ∀ q, Bounded (s.proc q)) (pid : Int) :
    Nudges s (kill s pid).2 := by
  unfold Xv6.kill
  cases s.first fun pr => pr.pid = pid with
  | none => exact Nudges.refl bounded
  | some q =>
      dsimp only
      refine Nudges.one bounded q _ ⟨rfl, rfl, rfl, rfl, rfl, rfl, rfl,
        ⟨(bounded q).low, (bounded q).high, (bounded q).size, (bounded q).stack⟩, ?_⟩
      by_cases asleep : (s.proc q).state = .sleeping
      · exact .inr ⟨asleep, if_pos asleep⟩
      · exact .inl ⟨if_neg asleep, fun sleeping => absurd sleeping asleep⟩

theorem setpriority_nudges (bounded : ∀ q, Bounded (s.proc q)) (p : Slot) (pid priority : Int) :
    Nudges s (setpriority s p pid priority).2 := by
  unfold Xv6.setpriority
  split
  · exact Nudges.refl bounded
  · next inRange =>
      rw [not_or, not_lt, not_lt] at inRange
      simp only
      cases s.first fun pr => pr.pid = if pid = 0 then (s.proc p).pid else pid with
      | none => exact Nudges.refl bounded
      | some q =>
          dsimp only
          exact Nudges.one bounded q _ ⟨rfl, rfl, rfl, rfl, rfl, rfl, rfl,
            ⟨inRange.1, inRange.2, (bounded q).size, (bounded q).stack⟩,
            .inl ⟨rfl, fun _ => rfl⟩⟩

/-- Other parts of the kernel take and give back pages that no process owns. -/
theorem Inv.otherPages (inv : Inv ld s) {km : Kmem} (free : FreeOk ld km)
    (apart : ∀ p, ∀ frame ∈ (s.proc p).pages, frame ∉ km.freelist) : Inv ld (s.setKmem km) := by
  refine ⟨inv.bounded, inv.states, inv.cpus.same rfl fun _ => Iff.rfl,
    inv.forks.keep (fun _ => rfl) fun _ embryo => ⟨embryo, id, id, fun _ _ parent => parent⟩,
    inv.waits.keep (fun _ asleep => asleep) (fun _ => rfl) fun _ zombie => zombie,
    inv.init.keep rfl (fun _ => id) fun _ => .inl rfl, ?_, fun frame member => ?_⟩
  · have before := inv.memory.nodup
    rw [Kernel.pages_eq] at before ⊢
    obtain ⟨_, owned, _⟩ := Multiset.nodup_add.mp before
    refine Multiset.nodup_add.mpr ⟨Multiset.coe_nodup.mpr free.nodup, owned, ?_⟩
    refine Multiset.disjoint_right.mpr fun {frame} member listed => ?_
    obtain ⟨p, _, held⟩ := Multiset.mem_sum.mp member
    exact apart p frame held (Multiset.mem_coe.mp listed)
  · rw [Kernel.pages_eq] at member
    rcases Multiset.mem_add.mp member with listed | held
    · exact free.valid frame (Multiset.mem_coe.mp listed)
    · refine inv.memory.valid frame ?_
      rw [Kernel.pages_eq]
      exact Multiset.mem_add.mpr (.inr held)

/-- A running process notes what its system call has still to do. -/
theorem setPending_pages (s : Kernel) (p : Slot) (pending : Pending) :
    (s.setPending p pending).pages = s.pages :=
  Kernel.pages_congr rfl fun _ => rfl

theorem Inv.setPending (inv : Inv ld s) (busy : (s.cpu c).proc = some p) {pending : Pending}
    (childless : pending.child = none) : Inv ld (s.setPending p pending) := by
  have running := inv.running busy
  have resumes := s.setPending_resume p pending
  have others : ∀ q, q ≠ p → (s.setPending p pending).thread q = s.thread q := by
    intro q apart
    rw [Kernel.setPending, Kernel.setThread_thread, if_neg apart]
  have own : ((s.setPending p pending).thread p).pending = pending := by
    rw [Kernel.setPending, Kernel.setThread_thread, if_pos rfl]
  have owner : ∀ {q np}, ((s.setPending p pending).thread q).pending.child = some np → q ≠ p := by
    rintro q np child rfl
    rw [own, childless] at child
    cases child
  refine ⟨inv.bounded, fun q => ?_, inv.cpus.same rfl fun _ => Iff.rfl,
    ⟨fun {q np} copy => ?_, fun {q np} start => ?_, fun {q r np} first second => ?_⟩,
    inv.waits.keep (fun q asleep => ⟨asleep.1, (resumes q).symm.trans asleep.2⟩) (fun _ => rfl)
      fun _ zombie => zombie,
    inv.init.keep rfl (fun _ => id) fun _ => .inl rfl,
    inv.memory.of_pages (setPending_pages s p pending)⟩
  · by_cases here : q = p
    · subst here
      obtain ⟨equipped, chan⟩ := (inv.states q).running running
      exact StateOk.ofRunning running equipped chan
    · rw [others q here]
      exact inv.states q
  · have apart : q ≠ p := owner (by rw [copy]; rfl)
    rw [others q apart] at copy
    exact inv.forks.copying copy
  · have apart : q ≠ p := owner (by rw [start]; rfl)
    rw [others q apart] at start
    exact inv.forks.starting start
  · rw [others q (owner first)] at first
    rw [others r (owner second)] at second
    exact inv.forks.distinct first second

/-! ## Giving up the CPU and taking it up -/

/-- A process that leaves its CPU runnable or asleep. -/
theorem Inv.leave (inv : Inv ld s) (busy : (s.cpu c).proc = some p) {store : Proc → Proc}
    {call : Resume}
    (keeps : (store (s.proc p)).kstack = (s.proc p).kstack ∧
      (store (s.proc p)).pgdir = (s.proc p).pgdir ∧
      (store (s.proc p)).parent = (s.proc p).parent)
    (bounded : Bounded (store (s.proc p)))
    (stopped : (store (s.proc p)).state = .runnable ∨ (store (s.proc p)).state = .sleeping)
    (ok : StateOk p (store (s.proc p)) { s.thread p with resume := call })
    (waiting : (store (s.proc p)).state = .sleeping → call = .wait →
      (∃ q, (s.proc q).parent = some p) ∧
        ∀ q, (s.proc q).parent = some p → (s.proc q).state ≠ .zombie) :
    Inv ld (sched ((s.modify p store).setThread p { s.thread p with resume := call }) c) := by
  generalize result : sched ((s.modify p store).setThread p
    { s.thread p with resume := call }) c = t
  have running := inv.running busy
  have self : t.proc p = store (s.proc p) := by
    rw [← result]
    exact Kernel.modify_self _ _ _
  have others : ∀ q, q ≠ p → t.proc q = s.proc q := by
    intro q apart
    rw [← result]
    exact Kernel.modify_of_ne _ _ _ apart
  have own : t.thread p = { s.thread p with resume := call } := by
    rw [← result]
    exact Function.update_self _ _ _
  have threads : ∀ q, q ≠ p → t.thread q = s.thread q := by
    intro q apart
    rw [← result]
    exact Function.update_of_ne apart _ _
  have parents : ∀ q, (t.proc q).parent = (s.proc q).parent := by
    intro q
    by_cases here : q = p
    · subst here
      rw [self, keeps.2.2]
    · rw [others q here]
  have exited : ∀ q, (t.proc q).state = .zombie → (s.proc q).state = .zombie := by
    intro q zombie
    by_cases here : q = p
    · subst here
      rw [self] at zombie
      rcases stopped with state | state
      · rw [state] at zombie
        cases zombie
      · rw [state] at zombie
        cases zombie
    · rwa [others q here] at zombie
  have sleeper : ∀ q, SleepsIn t q .wait → q ≠ p → SleepsIn s q .wait := by
    intro q asleep apart
    rw [SleepsIn, others q apart, threads q apart] at asleep
    exact asleep
  refine ⟨fun q => ?_, fun q => ?_, ?_, ?_, ⟨fun {q} asleep => ?_, fun {q r} asleep child => ?_⟩,
    inv.init.keep (by rw [← result]; rfl) (fun q alive => ?_) fun q => .inl (parents q), ?_⟩
  · by_cases here : q = p
    · subst here
      rw [self]
      exact bounded
    · rw [others q here]
      exact inv.bounded q
  · by_cases here : q = p
    · subst here
      rw [self, own]
      exact ok
    · rw [others q here, threads q here]
      exact inv.states q
  · refine inv.cpus.leave busy (by rw [← result]; rfl) ?_ fun q apart => by rw [others q apart]
    rw [self]
    rcases stopped with state | state
    · rw [state]
      exact ProcState.noConfusion
    · rw [state]
      exact ProcState.noConfusion
  · refine inv.forks.keep (fun q => ?_) fun np embryo => ?_
    · by_cases here : q = p
      · subst here
        rw [own]
      · rw [threads q here]
    · have apart : np ≠ p := by
        rintro rfl
        rw [running] at embryo
        cases embryo
      rw [others np apart]
      exact ⟨embryo, id, id, fun _ _ parent => parent⟩
  · by_cases here : q = p
    · subst here
      rw [SleepsIn, self, own] at asleep
      obtain ⟨r, child⟩ := (waiting asleep.1 asleep.2).1
      exact ⟨r, by rw [parents]; exact child⟩
    · obtain ⟨r, child⟩ := inv.waits.child (sleeper q asleep here)
      exact ⟨r, by rw [parents]; exact child⟩
  · rw [parents] at child
    intro zombie
    by_cases here : q = p
    · subst here
      rw [SleepsIn, self, own] at asleep
      exact (waiting asleep.1 asleep.2).2 r child (exited r zombie)
    · exact inv.waits.alive (sleeper q asleep here) child (exited r zombie)
  · by_cases here : q = p
    · subst here
      rw [Alive, self]
      rcases stopped with state | state
      · exact .inr (.inl state)
      · exact .inl state
    · rw [others q here]
      exact alive
  · refine inv.memory.of_pages (Kernel.pages_one (by rw [← result]; rfl) others ?_ ?_)
    · rw [self, keeps.1]
    · rw [self, keeps.2.1]

theorem Inv.yield (inv : Inv ld s) (busy : (s.cpu c).proc = some p) : Inv ld (yield s c p) := by
  obtain ⟨equipped, chan⟩ := (inv.states p).running (inv.running busy)
  have bounded := inv.bounded p
  refine inv.leave busy ⟨rfl, rfl, rfl⟩ ⟨bounded.low, bounded.high, bounded.size, bounded.stack⟩
    (.inl rfl) ?_ fun asleep => by cases asleep
  exact ⟨⟨equipped.kstack, equipped.pgdir⟩, fun _ => chan, .inl rfl⟩

/-- Going to sleep, in `wait` only with living children and without having been killed. -/
theorem Inv.sleep (inv : Inv ld s) (free : Free s c p) {chan : Option Chan} {call : Resume}
    (notFork : call ≠ .forkret) (notYield : call ≠ .yield)
    (waiting : call = .wait → chan = some (.proc p) ∧ (s.proc p).killed = false ∧
      (∃ q, (s.proc q).parent = some p) ∧
        ∀ q, (s.proc q).parent = some p → (s.proc q).state ≠ .zombie) :
    Inv ld (sleep s c p chan call) := by
  obtain ⟨equipped, _⟩ := (inv.states p).running (inv.running free.running)
  have bounded := inv.bounded p
  refine inv.leave free.running ⟨rfl, rfl, rfl⟩
    ⟨bounded.low, bounded.high, bounded.size, bounded.stack⟩ (.inr rfl) ?_
    fun _ inWait => (waiting inWait).2.2
  exact ⟨⟨equipped.kstack, equipped.pgdir⟩, free.idle, notFork, notYield,
    fun inWait => ⟨(waiting inWait).1, (waiting inWait).2.1⟩⟩

end SlabStudy.Xv6
