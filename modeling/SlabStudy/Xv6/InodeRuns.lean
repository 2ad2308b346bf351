import SlabStudy.Xv6.InodeCoherence

/-!
# Runs of the inode cache

Every step keeps the cache coherent.  The steps are of few kinds: the sleep-lock
is taken or left, its holder changes the entry and the on-disk inode, or the
number of references changes.
-/

namespace SlabStudy.Xv6

open Library

section Runs

variable {P : Type} [DecidableEq P] [Fintype P] {s t : InodeState P} {p : P} {e : Fin ninode}

/-! ## Kinds of steps -/

/-- The process that has the lock changes the entry and its on-disk inode. -/
theorem InodeInv.held (inv : InodeInv s) {ip : SharedInode P} {ph : InodePhase}
    (held : (s.inode e).holder = some p) (inode : t.inode = Function.update s.inode e ip)
    (phase : t.phase = Function.update s.phase p ph) (dev : ip.dev = (s.inode e).dev)
    (inum : ip.inum = (s.inode e).inum) (ref : ip.ref = (s.inode e).ref)
    (holder : ip.holder = (s.inode e).holder)
    (disk : ∀ dev inum, t.dinode dev inum = s.dinode dev inum ∨
      (dev = (s.inode e).dev ∧ inum = (s.inode e).inum) ∧ (t.dinode dev inum).NoHole)
    (only : ∀ f, (s.phase p).entry = some f ∨ ph.entry = some f → f = e)
    (puts : ph.puts e = (s.phase p).puts e) (starts : ph ≠ .locking e) (drops : ph ≠ .dropping e)
    (sure : ph.frees e → ip.valid = true)
    (valid : ph.puts e = false → ph = .loading e ∨ ip.valid = true)
    (settled : ip.valid = true → ¬ ph.unsettled ip.copy.size e →
      ip.copy = t.dinode (s.inode e).dev (s.inode e).inum)
    (typed : ip.valid = true → ph ≠ .invalidating e →
      (t.dinode (s.inode e).dev (s.inode e).inum).type ≠ .free ∧ ip.copy.type ≠ .free)
    (full : ip.valid = true → ip.copy.NoHole)
    (writing : ∀ off n, ph = .writing e off n → ∀ bn, bn * bsize < off →
      ip.copy.addrs (slotOf bn) ≠ 0) : InodeInv t := by
  have here : t.inode e = ip := by rw [inode, Function.update_self]
  have own : t.phase p = ph := by rw [phase, Function.update_self]
  have same (q : P) (apart : q ≠ p) : t.phase q = s.phase q := by
    rw [phase, Function.update_of_ne apart]
  have alone (q : P) (holds : ip.holder = some q) : q = p := by
    rw [holder, held] at holds
    exact (Option.some.inj holds).symm
  refine inv.moves inode phase (fun f apart counts good => ?_) (fun dev inum => ?_) only ?_
    (fun q using' => ?_) (fun counts f apart there both => ?_) (fun q apart holds => ?_)
    (fun _ => holder.trans held) (fun q holds notPut => ?_) (fun counts good => ?_)
    (fun q off n loops => ?_) (fun q dropped holds => ?_) fun q frees => ?_
  · refine .inl ((disk _ _).resolve_right fun both => apart ?_)
    exact inv.unique f e counts (inv.referenced held) both.1.1 both.1.2
  · rcases disk dev inum with unchanged | ⟨_, noHole⟩
    · rw [unchanged]
      exact inv.noHole dev inum
    · exact noHole
  · rw [puts, ref]
    exact Nat.add_le_add_right (inv.counted e) _
  · rw [puts, ref]
    refine Nat.add_lt_add_right ?_ _
    refine inv.used q e ?_
    unfold InodeState.Uses at using' ⊢
    rw [here, holder] at using'
    by_cases self : q = p
    · rw [self, own, puts] at using'
      rw [self]
      exact .inl (using'.resolve_right starts)
    · rw [same q self] at using'
      exact using'
  · rw [ref] at counts
    exact apart (inv.unique f e there counts (both.1.trans dev) (both.2.trans inum))
  · rw [holder]
    exact holds
  · obtain rfl := alone q holds
    rw [own] at notPut ⊢
    exact valid notPut
  · refine ⟨fun quiet => ?_, fun kept => ?_, ?_⟩
    · rw [here] at quiet ⊢
      have quiet := quiet p (holder.trans held)
      rw [own] at quiet
      rw [dev, inum]
      exact settled good quiet
    · rw [here] at kept ⊢
      have kept := kept p (holder.trans held)
      rw [own] at kept
      rw [dev, inum]
      exact typed good kept
    · rw [here]
      exact full good
  · by_cases self : q = p
    · rw [self, own] at loops
      exact writing off n loops
    · rw [same q self] at loops
      have locked := inv.lock q e (by rw [loops]; rfl)
      exact absurd (alone q (holder.trans locked)) self
  · obtain rfl := alone q holds
    rw [own] at dropped
    exact drops dropped
  · by_cases self : q = p
    · rw [self, own] at frees
      exact sure frees
    · rw [same q self] at frees
      have locked := inv.lock q e (InodePhase.locks_of_frees frees)
      exact absurd (alone q (holder.trans locked)) self

/-- A process takes the sleep-lock. -/
theorem InodeInv.acquires (inv : InodeInv s) {ph : InodePhase}
    (free : (s.inode e).holder = none)
    (waits : s.phase p = .locking e ∧ ph = .loading e ∨ s.phase p = .putting e ∧ ph = .testing e) :
    InodeInv ((s.setInode e { s.inode e with holder := some p }).setPhase p ph) := by
  have own : (Function.update s.phase p ph) p = ph := Function.update_self ..
  have same (q : P) (apart : q ≠ p) : Function.update s.phase p ph q = s.phase q :=
    Function.update_of_ne apart ..
  have notHeld (q : P) : (s.inode e).holder ≠ some q := by
    rw [free]
    exact nofun
  have puts : ph.puts e = (s.phase p).puts e := by
    rcases waits with ⟨before, after⟩ | ⟨before, after⟩ <;> rw [before, after] <;> rfl
  refine inv.moves rfl rfl (fun f _ _ _ => .inl rfl) inv.noHole (fun f about => ?_) ?_
    (fun q using' => ?_) (fun counts f apart there both => ?_) (fun q _ holds => absurd holds (notHeld q))
    (fun _ => rfl) (fun q holds notPut => ?_) (fun counts good => ?_) (fun q off n loops => ?_)
    (fun q dropped holds => ?_) fun q frees => ?_
  · rcases waits with ⟨before, after⟩ | ⟨before, after⟩
    all_goals
      rw [before, after] at about
      exact about.elim (fun same => (Option.some.inj same).symm)
        fun same => (Option.some.inj same).symm
  · rw [puts]
    exact Nat.add_le_add_right (inv.counted e) _
  · rw [puts]
    refine Nat.add_lt_add_right (inv.used q e (.inr ?_)) _
    rcases using' with ⟨holds, notPut⟩ | locking
    · change (Function.update s.inode e _ e).holder = some q at holds
      rw [Function.update_self] at holds
      obtain rfl : p = q := Option.some.inj holds
      change (Function.update s.phase p ph p).puts e = false at notPut
      rw [own, puts] at notPut
      rcases waits with ⟨before, _⟩ | ⟨before, _⟩
      · exact before
      · rw [before] at notPut
        exact absurd notPut (by simp [InodePhase.puts])
    · change Function.update s.phase p ph q = _ at locking
      by_cases self : q = p
      · rw [self, own] at locking
        rcases waits with ⟨_, after⟩ | ⟨_, after⟩ <;> rw [after] at locking <;> cases locking
      · rw [same q self] at locking
        exact locking
  · exact apart (inv.unique f e there counts both.1 both.2)
  · obtain rfl : p = q := Option.some.inj holds
    change (Function.update s.phase p ph p).puts e = false at notPut
    rw [own, puts] at notPut
    rcases waits with ⟨_, after⟩ | ⟨before, _⟩
    · exact .inl (own.trans after)
    · rw [before] at notPut
      exact absurd notPut (by simp [InodePhase.puts])
  · have before := inv.ok e counts good
    have here : ((s.setInode e { s.inode e with holder := some p }).setPhase p ph).inode e =
        { s.inode e with holder := some p } := Function.update_self ..
    refine ⟨fun _ => ?_, fun _ => ?_, ?_⟩
    · rw [here]
      exact before.settled fun q holds => absurd holds (notHeld q)
    · rw [here]
      exact before.typed fun q holds => absurd holds (notHeld q)
    · rw [here]
      exact before.noHole
  · change Function.update s.phase p ph q = _ at loops
    by_cases self : q = p
    · rw [self, own] at loops
      rcases waits with ⟨_, after⟩ | ⟨_, after⟩ <;> rw [after] at loops <;> cases loops
    · rw [same q self] at loops
      exact inv.writing q e off n loops
  · obtain rfl : p = q := Option.some.inj holds
    change Function.update s.phase p ph p = _ at dropped
    rw [own] at dropped
    rcases waits with ⟨_, after⟩ | ⟨_, after⟩ <;> rw [after] at dropped <;> cases dropped
  · change (Function.update s.phase p ph q).frees e at frees
    by_cases self : q = p
    · rw [self, own] at frees
      rcases waits with ⟨_, after⟩ | ⟨_, after⟩ <;> rw [after] at frees <;> cases frees
    · rw [same q self] at frees
      exact inv.frees q e frees

/-- A process leaves the sleep-lock of an entry that agrees with the disk. -/
theorem InodeInv.releases (inv : InodeInv s) {ph : InodePhase}
    (held : (s.inode e).holder = some p)
    (inode : t.inode = Function.update s.inode e { s.inode e with holder := none })
    (phase : t.phase = Function.update s.phase p ph) (disk : t.dinode = s.dinode)
    (only : ∀ f, (s.phase p).entry = some f ∨ ph.entry = some f → f = e)
    (puts : ph.puts e = (s.phase p).puts e) (starts : ph ≠ .locking e) (leaves : ¬ ph.locks e)
    (quiet : ¬ (s.phase p).unsettled (s.inode e).copy.size e)
    (kept : s.phase p ≠ .invalidating e) : InodeInv t := by
  have here : t.inode e = { s.inode e with holder := none } := by rw [inode, Function.update_self]
  have own : t.phase p = ph := by rw [phase, Function.update_self]
  have same (q : P) (apart : q ≠ p) : t.phase q = s.phase q := by
    rw [phase, Function.update_of_ne apart]
  have alone (q : P) (holds : (s.inode e).holder = some q) : q = p := by
    rw [held] at holds
    exact (Option.some.inj holds).symm
  refine inv.moves inode phase (fun f _ _ _ => .inl (by rw [disk])) (fun dev inum => ?_) only ?_
    (fun q using' => ?_) (fun counts f apart there both => ?_)
    (fun q apart holds => absurd (alone q holds) apart) (fun locks => absurd locks leaves)
    (fun q holds => nomatch holds) (fun counts good => ?_) (fun q off n loops => ?_)
    (fun q _ holds => nomatch holds) fun q frees => ?_
  · rw [disk]
    exact inv.noHole dev inum
  · rw [puts]
    exact Nat.add_le_add_right (inv.counted e) _
  · rw [puts]
    refine Nat.add_lt_add_right (inv.used q e ?_) _
    unfold InodeState.Uses at using'
    rw [here] at using'
    have locking := using'.resolve_left fun both => nomatch both.1
    by_cases self : q = p
    · rw [self, own] at locking
      exact absurd locking starts
    · rw [same q self] at locking
      exact .inr locking
  · exact apart (inv.unique f e there counts both.1 both.2)
  · have before := inv.ok e counts good
    refine ⟨fun _ => ?_, fun _ => ?_, ?_⟩
    · rw [here, disk]
      refine before.settled fun q holds => ?_
      obtain rfl := alone q holds
      exact quiet
    · rw [here, disk]
      refine before.typed fun q holds => ?_
      obtain rfl := alone q holds
      exact kept
    · rw [here]
      exact before.noHole
  · by_cases self : q = p
    · rw [self, own] at loops
      refine absurd ?_ leaves
      rw [loops]
      rfl
    · rw [same q self] at loops
      have locked := inv.lock q e (by rw [loops]; rfl)
      exact absurd (alone q locked) self
  · by_cases self : q = p
    · rw [self, own] at frees
      exact absurd (InodePhase.locks_of_frees frees) leaves
    · rw [same q self] at frees
      exact inv.frees q e frees

/-- The number of references of an entry changes. -/
theorem InodeInv.recounts (inv : InodeInv s) {ph : InodePhase} {ref : Nat}
    (inode : t.inode = Function.update s.inode e { s.inode e with ref := ref })
    (phase : t.phase = Function.update s.phase p ph) (disk : t.dinode = s.dinode)
    (before : (s.phase p).entry = none ∨ s.phase p = .dropping e) (after : ph.entry = none)
    (some : 0 < (s.inode e).ref)
    (count : s.puts e ≤ ref + if (s.phase p).puts e then 1 else 0)
    (used : ∀ q, s.Uses q e → s.puts e < ref + if (s.phase p).puts e then 1 else 0) :
    InodeInv t := by
  have here : t.inode e = { s.inode e with ref := ref } := by rw [inode, Function.update_self]
  have own : t.phase p = ph := by rw [phase, Function.update_self]
  have same (q : P) (apart : q ≠ p) : t.phase q = s.phase q := by
    rw [phase, Function.update_of_ne apart]
  have noPuts : ph.puts e = false := InodePhase.puts_of_entry (by rw [after]; exact nofun)
  have noLocks : ¬ ph.locks e := fun locks => by
    cases after.symm.trans (InodePhase.entry_of_locks locks)
  -- `p` does not hold the lock and give up the reference at the same time
  have putsNothing (holds : (s.inode e).holder = Option.some p) : (s.phase p).puts e = false := by
    rcases before with idle | drops
    · exact InodePhase.puts_of_entry (by rw [idle]; exact nofun)
    · exact absurd holds (inv.dropping p e drops)
  have notPhase (which : InodePhase) (about : which.entry = Option.some e) : ph ≠ which :=
    fun is => by cases after.symm.trans (is ▸ about)
  refine inv.moves inode phase (fun f _ _ _ => .inl (by rw [disk])) (fun dev inum => ?_)
    (fun f about => ?_) (by rw [noPuts]; exact count) (fun q using' => ?_)
    (fun _ f apart there both => apart (inv.unique f e there some both.1 both.2))
    (fun q _ holds => holds) (fun locks => absurd locks noLocks) (fun q holds notPut => ?_)
    (fun _ good => ?_) (fun q off n loops => ?_) (fun q dropped => ?_) fun q frees => ?_
  · rw [disk]
    exact inv.noHole dev inum
  · rcases about with about | about
    · rcases before with idle | drops
      · cases idle.symm.trans about
      · rw [drops] at about
        exact (Option.some.inj about).symm
    · cases after.symm.trans about
  · rw [noPuts]
    refine used q ?_
    unfold InodeState.Uses at using' ⊢
    rw [here] at using'
    by_cases self : q = p
    · rw [self, own] at using'
      rw [self]
      have holds := (using'.resolve_right (notPhase _ rfl)).1
      exact .inl ⟨holds, putsNothing holds⟩
    · rw [same q self] at using'
      exact using'
  · by_cases self : q = p
    · rw [self] at holds
      have valid := inv.valid p e holds (putsNothing holds)
      refine .inr (valid.resolve_left fun loads => ?_)
      rcases before with idle | drops
      · rw [loads] at idle
        cases idle
      · cases loads.symm.trans drops
    · rw [same q self] at notPut ⊢
      exact inv.valid q e holds notPut
  · have ok := inv.ok e some good
    refine ⟨fun quiet => ?_, fun kept => ?_, ?_⟩
    · rw [here] at quiet ⊢
      rw [disk]
      refine ok.settled fun q holds bad => ?_
      by_cases self : q = p
      · have locks := InodePhase.locks_of_unsettled bad
        rw [self] at locks
        rcases before with idle | drops
        · cases idle.symm.trans (InodePhase.entry_of_locks locks)
        · rw [drops] at locks
          exact locks
      · refine quiet q holds ?_
        rw [same q self]
        exact bad
    · rw [here] at kept ⊢
      rw [disk]
      refine ok.typed fun q holds bad => ?_
      by_cases self : q = p
      · rw [self] at bad
        rcases before with idle | drops
        · rw [bad] at idle
          cases idle
        · cases bad.symm.trans drops
      · refine kept q holds ?_
        rw [same q self]
        exact bad
    · rw [here]
      exact ok.noHole
  · by_cases self : q = p
    · rw [self, own] at loops
      exact absurd loops (notPhase _ rfl)
    · rw [same q self] at loops
      exact inv.writing q e off n loops
  · by_cases self : q = p
    · rw [self, own] at dropped
      exact absurd dropped (notPhase _ rfl)
    · rw [same q self] at dropped
      exact inv.dropping q e dropped
  · by_cases self : q = p
    · rw [self, own] at frees
      exact absurd (InodePhase.locks_of_frees frees) noLocks
    · rw [same q self] at frees
      exact inv.frees q e frees

/-- An entry without references is made the entry of another inode. -/
theorem InodeInv.recycles (inv : InodeInv s) {dev inum : Nat} (free : (s.inode e).ref = 0)
    (absent : ∀ f, 0 < (s.inode f).ref → ¬ ((s.inode f).dev = dev ∧ (s.inode f).inum = inum))
    (idle : (s.phase p).entry = none) :
    InodeInv (s.setInode e { s.inode e with dev := dev, inum := inum, ref := 1, valid := false }) := by
  have counted := inv.counted e
  have unused (q : P) : ¬ s.Uses q e := fun using' => by
    have referenced := inv.used q e using'
    unfold InodeState.Referenced at referenced
    omega
  have noPuts : (s.phase p).puts e = false := InodePhase.puts_of_entry (by rw [idle]; exact nofun)
  refine inv.moves rfl (Function.update_eq_self p s.phase).symm (fun f _ _ _ => .inl rfl) inv.noHole
    (fun f about => ?_) ?_ (fun q _ => ?_) (fun _ f _ there => absent f there)
    (fun q _ holds => holds) (fun locks => ?_) (fun q holds notPut => ?_)
    (fun _ bad => nomatch bad) (fun q off n loops => ?_) (inv.dropping · e)
    fun q frees => ?_
  · rw [idle] at about
    exact about.elim nofun nofun
  · rw [noPuts]
    change s.puts e + 0 ≤ 1 + 0
    omega
  · rw [noPuts]
    change s.puts e + 0 < 1 + 0
    omega
  · cases idle.symm.trans (InodePhase.entry_of_locks locks)
  · exact absurd (.inl ⟨holds, notPut⟩) (unused q)
  · have locked := inv.lock q e (by rw [show s.phase q = _ from loops]; rfl)
    refine absurd (.inl ⟨locked, ?_⟩) (unused q)
    rw [show s.phase q = _ from loops]
    rfl
  · have locks := InodePhase.locks_of_frees frees
    have locked := inv.lock q e locks
    have referenced := inv.referenced locked
    omega

/-! ## The files have no holes -/

/-- Where a block is listed, `bmap` changes nothing. -/
theorem Dinode.bmap_listed {ip : Dinode} {bn addr : Nat} (listed : ip.addrs (slotOf bn) ≠ 0) :
    ip.bmap bn addr = ip :=
  if_neg listed

/-- `bmap` lists the block it is called for, and forgets none. -/
theorem Dinode.bmap_addrs {ip : Dinode} {bn addr : Nat} (real : addr ≠ 0) (slot : Fin (ndirect + 1))
    (listed : slot = slotOf bn ∨ ip.addrs slot ≠ 0) : (ip.bmap bn addr).addrs slot ≠ 0 := by
  unfold Dinode.bmap
  split
  · change Function.update ip.addrs (slotOf bn) addr slot ≠ 0
    by_cases same : slot = slotOf bn
    · rw [same, Function.update_self]
      exact real
    · rw [Function.update_of_ne same]
      exact listed.resolve_left same
  · next there =>
    rcases listed with rfl | listed
    · exact there
    · exact listed

@[simp]
theorem Dinode.bmap_size {ip : Dinode} {bn addr : Nat} : (ip.bmap bn addr).size = ip.size := by
  unfold Dinode.bmap
  split <;> rfl

@[simp]
theorem Dinode.bmap_type {ip : Dinode} {bn addr : Nat} : (ip.bmap bn addr).type = ip.type := by
  unfold Dinode.bmap
  split <;> rfl

theorem Dinode.NoHole.bmap {ip : Dinode} {bn addr : Nat} (full : ip.NoHole) (real : addr ≠ 0) :
    (ip.bmap bn addr).NoHole := by
  intro other below
  rw [Dinode.bmap_size] at below
  exact Dinode.bmap_addrs real _ (.inr (full other below))

/-! ## The calls -/

theorem InodeInv.iget (inv : InodeInv s) {dev inum : Nat} (idle : (s.phase p).entry = none)
    (ran : s.iget dev inum = some t) : InodeInv t ∧ t.phase = s.phase := by
  have noPuts (e : Fin ninode) : (s.phase p).puts e = false :=
    InodePhase.puts_of_entry (by rw [idle]; exact nofun)
  unfold InodeState.iget at ran
  split at ran
  · next e found =>
    cases ran
    have is := List.find?_some found
    rw [decide_eq_true_iff] at is
    have counted := inv.counted e
    refine ⟨inv.recounts (e := e) (p := p) rfl (Function.update_eq_self p s.phase).symm rfl
      (.inl idle) idle is.1 ?_ fun q using' => ?_, rfl⟩
    · rw [noPuts]
      exact Nat.le_succ_of_le counted
    · rw [noPuts]
      exact Nat.lt_succ_of_le counted
  · next absent =>
    split at ran
    · next e found =>
      cases ran
      have free := List.find?_some found
      rw [decide_eq_true_iff] at free
      refine ⟨inv.recycles (p := p) free (fun f some both => ?_) idle, rfl⟩
      have here := List.find?_eq_none.mp absent f (List.mem_finRange f)
      exact here (decide_eq_true ⟨some, both⟩)
    · cases ran

/-- A call starts with a phase of its own. -/
theorem InodeInv.calls (inv : InodeInv s) {ph : InodePhase} (idle : s.phase p = .running)
    (only : ∀ f, ph.entry = some f → f = e) (puts : ph.puts e = false)
    (locking : ph = .locking e → s.Referenced e) (lock : ph.locks e → (s.inode e).holder = some p)
    (frees : ¬ ph.frees e) (writing : ∀ off n, ph = .writing e off n → ∀ bn, bn * bsize < off →
      (s.inode e).copy.addrs (slotOf bn) ≠ 0) : InodeInv (s.setPhase p ph) := by
  refine inv.phaseOnly rfl rfl (fun _ _ _ => .inl rfl) inv.noHole ?_ ?_ locking lock ?_ ?_ ?_ ?_
    (fun sure => absurd sure frees) writing
  · rw [idle]
    exact fun f about => about.elim nofun (only f)
  · rw [puts, idle]
    rfl
  · intro held _
    have valid := inv.valid p e held (by rw [idle]; rfl)
    exact .inr (valid.resolve_left (by rw [idle]; exact nofun))
  · rw [idle]
    exact nofun
  · rw [idle]
    exact nofun
  · intro drops
    rw [drops] at puts
    simp [InodePhase.puts] at puts

/-- A reference is given up that nobody who uses the inode relies on. -/
theorem InodeInv.iput (inv : InodeInv s) (idle : s.phase p = .running) (referenced : s.Referenced e)
    (others : ∀ q, q ≠ p → s.Uses q e → s.puts e + 1 < (s.inode e).ref) :
    InodeInv (s.setPhase p (.putting e)) := by
  have own : (s.setPhase p (.putting e)).phase p = .putting e := Function.update_self ..
  have same (q : P) (apart : q ≠ p) : (s.setPhase p (.putting e)).phase q = s.phase q :=
    Function.update_of_ne apart ..
  have before : (s.phase p).puts e = false := by
    rw [idle]
    rfl
  have after : (InodePhase.putting e).puts e = true := decide_eq_true rfl
  refine inv.moves (Function.update_eq_self e s.inode).symm rfl (fun f _ _ _ => .inl rfl) inv.noHole
    (fun f about => ?_) ?_ (fun q using' => ?_)
    (fun counts f apart there both => apart (inv.unique f e there counts both.1 both.2))
    (fun q _ holds => holds) nofun (fun q holds notPut => ?_) (fun counts good => ?_)
    (fun q off n loops => ?_) (fun q dropped => ?_) fun q frees => ?_
  · rw [idle] at about
    exact about.elim nofun fun same => (Option.some.inj same).symm
  · rw [before, after]
    exact referenced
  · rw [before, after]
    by_cases self : q = p
    · unfold InodeState.Uses at using'
      rw [self, own, after] at using'
      exact using'.elim (fun both => nomatch both.2) nofun
    · unfold InodeState.Uses at using'
      rw [same q self] at using'
      exact others q self using'
  · by_cases self : q = p
    · rw [self, own, after] at notPut
      cases notPut
    · rw [same q self] at notPut ⊢
      exact inv.valid q e holds notPut
  · refine (inv.ok e counts good).frame rfl (fun q _ bad => ?_) (fun q _ bad => ?_) (.inl rfl)
    · by_cases self : q = p
      · rw [self, idle] at bad
        cases bad
      · rw [same q self]
        exact bad
    · by_cases self : q = p
      · rw [self, idle] at bad
        cases bad
      · rw [same q self]
        exact bad
  · by_cases self : q = p
    · rw [self, own] at loops
      cases loops
    · rw [same q self] at loops
      exact inv.writing q e off n loops
  · by_cases self : q = p
    · rw [self, own] at dropped
      cases dropped
    · rw [same q self] at dropped
      exact inv.dropping q e dropped
  · by_cases self : q = p
    · rw [self, own] at frees
      cases frees
    · rw [same q self] at frees
      exact inv.frees q e frees

/-- A process that is in no call and has an entry locked finds it as on the disk. -/
theorem InodeInv.idle (inv : InodeInv s) (idle : s.phase p = .running)
    (held : (s.inode e).holder = some p) :
    (s.inode e).valid = true ∧ EntryOk s e ∧
      (s.inode e).copy = s.dinode (s.inode e).dev (s.inode e).inum ∧
      (s.inode e).copy.type ≠ .free := by
  have valid : (s.inode e).valid = true := by
    refine (inv.valid p e held (by rw [idle]; rfl)).resolve_left ?_
    rw [idle]
    exact nofun
  have ok := inv.ok e (inv.referenced held) valid
  have alone (q : P) (holds : (s.inode e).holder = some q) : s.phase q = .running := by
    rw [held] at holds
    obtain rfl := Option.some.inj holds
    exact idle
  refine ⟨valid, ok, ok.settled fun q holds => ?_, (ok.typed fun q holds => ?_).2⟩
  · rw [alone q holds]
    exact nofun
  · rw [alone q holds]
    exact nofun

/-- A process that is in no call starts one. -/
theorem InodeInv.start (inv : InodeInv s) {call : InodeCall} (idle : s.phase p = .running)
    (ran : s.start p call = some t) : InodeInv t := by
  have entry : (s.phase p).entry = none := by rw [idle]; rfl
  have noPuts (e : Fin ninode) : (s.phase p).puts e = false := by rw [idle]; rfl
  have unchanged : s.phase = Function.update s.phase p (s.phase p) :=
    (Function.update_eq_self p s.phase).symm
  cases call with
  | iget dev inum => exact (inv.iget entry ran).1
  | idup e =>
    simp only [InodeState.start, Option.ite_none_right_eq_some] at ran
    obtain ⟨referenced, ran⟩ := ran
    cases ran
    have counted := inv.counted e
    refine inv.recounts (e := e) (p := p) rfl unchanged rfl (.inl entry) entry ?_ ?_ fun q _ => ?_
    · exact Nat.zero_lt_of_lt referenced
    · rw [noPuts]
      exact Nat.le_succ_of_le counted
    · rw [noPuts]
      exact Nat.lt_succ_of_le counted
  | ialloc dev type =>
    simp only [InodeState.start, Option.ite_none_left_eq_some] at ran
    cases ran.2
    exact inv.calls (e := 0) idle nofun rfl nofun nofun nofun nofun
  | ilock e =>
    simp only [InodeState.start, Option.ite_none_right_eq_some] at ran
    obtain ⟨referenced, ran⟩ := ran
    cases ran
    exact inv.calls idle (fun f about => (Option.some.inj about).symm) rfl (fun _ => referenced) nofun
      nofun nofun
  | iunlock e =>
    simp only [InodeState.start, Option.ite_none_right_eq_some] at ran
    obtain ⟨held, ran⟩ := ran
    cases ran
    refine inv.releases held rfl unchanged rfl ?_ rfl ?_ ?_ ?_ ?_
    all_goals
      rw [idle]
    · exact fun f about => about.elim nofun nofun
    all_goals
      exact nofun
  | iupdate e =>
    simp only [InodeState.start, Option.ite_none_right_eq_some] at ran
    obtain ⟨held, ran⟩ := ran
    cases ran
    exact inv.calls idle (fun f about => (Option.some.inj about).symm) rfl nofun (fun _ => held) nofun
      nofun
  | readi e bn addr =>
    simp only [InodeState.start, Option.ite_none_right_eq_some] at ran
    obtain ⟨⟨held, below, _⟩, ran⟩ := ran
    cases ran
    obtain ⟨_, ok, _⟩ := inv.idle idle held
    rw [Dinode.bmap_listed (ok.noHole bn below)]
    have same : s.setInode e (s.inode e) = s := by
      unfold InodeState.setInode
      rw [Function.update_eq_self]
    change InodeInv (s.setInode e (s.inode e))
    rw [same]
    exact inv
  | writei e off n =>
    simp only [InodeState.start, Option.ite_none_right_eq_some] at ran
    obtain ⟨held, ran⟩ := ran
    split at ran
    · cases ran
      exact inv
    · split at ran
      · cases ran
        exact inv
      · next fits =>
        cases ran
        obtain ⟨_, ok, _⟩ := inv.idle idle held
        refine inv.calls idle (fun f about => (Option.some.inj about).symm) rfl nofun (fun _ => held)
          nofun ?_
        intro at' left is bn below
        obtain ⟨_, rfl, _⟩ := InodePhase.writing.inj is
        exact ok.noHole bn (by omega)
  | fields e major minor nlink =>
    simp only [InodeState.start, Option.ite_none_right_eq_some] at ran
    obtain ⟨held, ran⟩ := ran
    cases ran
    obtain ⟨valid, ok, settled, typed⟩ := inv.idle idle held
    refine inv.held held rfl rfl rfl rfl rfl rfl (fun _ _ => .inl rfl) ?_ ?_ nofun nofun
      nofun (fun _ => .inr valid) (fun _ quiet => absurd rfl quiet) (fun _ _ => ⟨?_, typed⟩)
      (fun _ => ok.noHole) nofun
    · rw [idle]
      exact fun f about => about.elim nofun fun same => (Option.some.inj same).symm
    · rw [idle]
      rfl
    · change (s.dinode _ _).type ≠ _
      rw [← settled]
      exact typed
  | iput e =>
    simp only [InodeState.start, Option.ite_none_right_eq_some] at ran
    obtain ⟨⟨referenced, others⟩, ran⟩ := ran
    cases ran
    exact inv.iput idle referenced others

/-- A call ends that has left its entry as it is on the disk. -/
theorem InodeInv.returns (inv : InodeInv s) (about : (s.phase p).entry = some e)
    (puts : (s.phase p).puts e = false)
    (valid : (s.inode e).holder = some p → (s.inode e).valid = true)
    (settled : ¬ (s.phase p).unsettled (s.inode e).copy.size e)
    (kept : s.phase p ≠ .invalidating e) : InodeInv (s.setPhase p .running) := by
  refine inv.phaseOnly (e := e) rfl rfl (fun _ _ _ => .inl rfl) inv.noHole (fun f either => ?_)
    puts.symm nofun nofun (fun held _ => .inr (valid held)) (fun bad => absurd bad settled)
    (fun bad => absurd bad kept) nofun nofun nofun
  rw [about] at either
  exact either.elim (fun same => (Option.some.inj same).symm) nofun

/-- The loop of `ialloc` ends at an on-disk inode that no valid entry has. -/
theorem InodeInv.allocates (inv : InodeInv s) {dev inum : Nat} {type : InodeType}
    (entry : (s.phase p).entry = none) (free : (s.dinode dev inum).type = .free) :
    InodeInv ((s.setDinode dev inum { Dinode.zero with type := type }).setPhase p
      (.getting dev inum)) := by
  have here : (s.setDinode dev inum { Dinode.zero with type := type }).dinode dev inum =
      { Dinode.zero with type := type } := by
    simp only [InodeState.setDinode, Function.update_self]
  have elsewhere (dev' inum' : Nat) (apart : ¬ (dev' = dev ∧ inum' = inum)) :
      (s.setDinode dev inum { Dinode.zero with type := type }).dinode dev' inum' =
        s.dinode dev' inum' := by
    simp only [InodeState.setDinode]
    by_cases same : dev' = dev
    · rw [same, Function.update_self, Function.update_of_ne fun is => apart ⟨same, is⟩]
    · rw [Function.update_of_ne same]
  have none (f : Fin ninode) : (s.phase p).entry ≠ some f := by
    rw [entry]
    exact nofun
  refine inv.phaseOnly (e := 0) rfl rfl (fun f counts good => ?_) (fun dev' inum' => ?_)
    (fun f about => about.elim (fun about => absurd about (none f)) nofun)
    (InodePhase.puts_of_entry (none 0)).symm nofun nofun (fun held _ => ?_)
    (fun bad => ?_) (fun bad => ?_) nofun nofun nofun
  · by_cases same : (s.inode f).dev = dev ∧ (s.inode f).inum = inum
    · by_contra nobody
      have typed := (inv.ok f counts good).typed fun q held invalidates =>
        nobody (.inr ⟨q, held, invalidates⟩)
      rw [same.1, same.2] at typed
      exact typed.1 free
    · exact .inl (elsewhere _ _ same)
  · by_cases same : dev' = dev ∧ inum' = inum
    · obtain ⟨rfl, rfl⟩ := same
      intro bn below
      change bn * bsize < ((s.setDinode _ _ _).dinode _ _).size at below
      rw [here] at below
      exact absurd below (Nat.not_lt_zero _)
    · change ((s.setDinode _ _ _).dinode _ _).NoHole
      rw [elsewhere _ _ same]
      exact inv.noHole dev' inum'
  · refine .inr ((inv.valid p 0 held (InodePhase.puts_of_entry (none 0))).resolve_left fun loads => ?_)
    rw [loads] at entry
    cases entry
  · exact absurd (InodePhase.entry_of_locks (InodePhase.locks_of_unsettled bad)) (none 0)
  · rw [bad] at entry
    cases entry

/-- A process that is in a call with the lock, where the entry agrees with the disk. -/
theorem InodeInv.inCall (inv : InodeInv s) (held : (s.inode e).holder = some p)
    (valid : (s.inode e).valid = true) (kept : s.phase p ≠ .invalidating e) :
    EntryOk s e ∧ (s.dinode (s.inode e).dev (s.inode e).inum).type ≠ .free ∧
      (s.inode e).copy.type ≠ .free := by
  have ok := inv.ok e (inv.referenced held) valid
  refine ⟨ok, ok.typed fun q holds => ?_⟩
  rw [held] at holds
  obtain rfl := Option.some.inj holds
  exact kept

omit [Fintype P] [DecidableEq P] in
/-- `iupdate` makes the on-disk inode what the entry is. -/
theorem InodeState.iupdate_dinode (s : InodeState P) (e : Fin ninode) (dev inum : Nat) :
    (s.iupdate e).dinode dev inum =
      if dev = (s.inode e).dev ∧ inum = (s.inode e).inum then (s.inode e).copy
      else s.dinode dev inum := by
  simp only [InodeState.iupdate, InodeState.setDinode]
  by_cases sameDev : dev = (s.inode e).dev
  · by_cases sameInum : inum = (s.inode e).inum
    · rw [if_pos ⟨sameDev, sameInum⟩, sameDev, sameInum, Function.update_self, Function.update_self]
    · rw [if_neg fun both => sameInum both.2, sameDev, Function.update_self,
        Function.update_of_ne sameInum]
  · rw [if_neg fun both => sameDev both.1, Function.update_of_ne sameDev]

/-- The holder of the lock changes the entry and calls `iupdate`. -/
theorem InodeInv.writesThrough (inv : InodeInv s) (copy : Dinode) (ph : InodePhase)
    (held : (s.inode e).holder = some p)
    (only : ∀ f, (s.phase p).entry = some f ∨ ph.entry = some f → f = e)
    (puts : ph.puts e = (s.phase p).puts e) (starts : ph ≠ .locking e) (drops : ph ≠ .dropping e)
    (waits : ∀ off n, ph ≠ .writing e off n) (valid : (s.inode e).valid = true)
    (typed : ph ≠ .invalidating e → copy.type ≠ .free) (full : copy.NoHole) :
    InodeInv (((s.setInode e { s.inode e with copy := copy }).iupdate e).setPhase p ph) := by
  have here : (s.setInode e { s.inode e with copy := copy }).inode e =
      { s.inode e with copy := copy } := Function.update_self ..
  have disk (dev inum : Nat) :
      ((s.setInode e { s.inode e with copy := copy }).iupdate e).dinode dev inum =
        if dev = (s.inode e).dev ∧ inum = (s.inode e).inum then copy else s.dinode dev inum := by
    rw [InodeState.iupdate_dinode, here]
    rfl
  refine inv.held held rfl rfl rfl rfl rfl rfl (fun dev inum => ?_) only puts starts drops
    (fun _ => valid) (fun _ => .inr valid) (fun _ _ => ?_) (fun _ kept => ⟨?_, typed kept⟩)
    (fun _ => full) fun off n is => absurd is (waits off n)
  · change (InodeState.iupdate _ e).dinode dev inum = _ ∨
      _ ∧ ((InodeState.iupdate _ e).dinode dev inum).NoHole
    rw [disk]
    by_cases same : dev = (s.inode e).dev ∧ inum = (s.inode e).inum
    · rw [if_pos same]
      exact .inr ⟨same, full⟩
    · exact .inl (if_neg same)
  · exact ((disk _ _).trans (if_pos ⟨rfl, rfl⟩)).symm
  · change ((InodeState.iupdate _ e).dinode _ _).type ≠ _
    rw [disk, if_pos ⟨rfl, rfl⟩]
    exact typed kept

/-- A process without an entry in hand goes on without one. -/
theorem InodeInv.passes (inv : InodeInv s) {ph : InodePhase} (before : (s.phase p).entry = none)
    (after : ph.entry = none) : InodeInv (s.setPhase p ph) := by
  have none (f : Fin ninode) : (s.phase p).entry ≠ some f := by
    rw [before]
    exact nofun
  have neither (f : Fin ninode) : ph.entry ≠ some f := by
    rw [after]
    exact nofun
  refine inv.phaseOnly (e := 0) rfl rfl (fun _ _ _ => .inl rfl) inv.noHole
    (fun f about => about.elim (fun about => absurd about (none f)) fun about =>
      absurd about (neither f))
    ((InodePhase.puts_of_entry (neither 0)).trans (InodePhase.puts_of_entry (none 0)).symm)
    (fun starts => ?_) (fun locks => absurd (InodePhase.entry_of_locks locks) (neither 0))
    (fun held _ => .inr ?_) (fun bad => ?_) (fun bad => ?_) (fun drops => ?_)
    (fun frees => ?_) fun off n loops => ?_
  · rw [starts] at after
    cases after
  · refine (inv.valid p 0 held (InodePhase.puts_of_entry (none 0))).resolve_left fun loads => ?_
    rw [loads] at before
    cases before
  · exact absurd (InodePhase.entry_of_locks (InodePhase.locks_of_unsettled bad)) (none 0)
  · rw [bad] at before
    cases before
  · rw [drops] at after
    cases after
  · exact absurd (InodePhase.entry_of_locks (InodePhase.locks_of_frees frees)) (neither 0)
  · rw [loops] at after
    cases after

/-! ## The steps of the calls -/

/-- Both phases are about the same entry. -/
theorem InodePhase.same_entry {old new : InodePhase} (before : old.entry = some e)
    (after : new.entry = some e) (f : Fin ninode)
    (about : old.entry = some f ∨ new.entry = some f) : f = e :=
  about.elim (fun same => Option.some.inj (same.symm.trans before))
    fun same => Option.some.inj (same.symm.trans after)

/-- The call ends. -/
theorem InodePhase.entry_left {old : InodePhase} (before : old.entry = some e) (f : Fin ninode)
    (about : old.entry = some f ∨ InodePhase.running.entry = some f) : f = e :=
  about.elim (fun same => Option.some.inj (same.symm.trans before)) nofun

omit [DecidableEq P] in
/-- Outside of `iput` an entry that is locked by a process, and not about to be loaded, is valid. -/
theorem InodeInv.locked (inv : InodeInv s) (locks : (s.phase p).locks e)
    (stays : (s.phase p).puts e = false) (loaded : s.phase p ≠ .loading e) :
    (s.inode e).holder = some p ∧ (s.inode e).valid = true :=
  have held := inv.lock p e locks
  ⟨held, (inv.valid p e held stays).resolve_left loaded⟩

/-- One round of the loop of `ialloc`. -/
theorem InodeInv.allocating (inv : InodeInv s) {dev inum : Nat} {type : InodeType} {addr : Nat}
    (loops : s.phase p = .allocating dev type inum) (ran : s.next p addr = some t) :
    InodeInv t := by
  have entry : (s.phase p).entry = none := by rw [loops]; rfl
  simp only [InodeState.next, loops, Option.ite_none_right_eq_some] at ran
  obtain ⟨-, ran⟩ := ran
  split at ran
  · next free =>
      cases ran
      exact inv.allocates entry free
  · cases ran
    exact inv.passes entry rfl

/-- `ialloc` returns what `iget` returns. -/
theorem InodeInv.getting (inv : InodeInv s) {dev inum addr : Nat}
    (gets : s.phase p = .getting dev inum) (ran : s.next p addr = some t) : InodeInv t := by
  have entry : (s.phase p).entry = none := by rw [gets]; rfl
  simp only [InodeState.next, gets] at ran
  obtain ⟨u, got, ran⟩ := Option.map_eq_some_iff.mp ran
  cases ran
  obtain ⟨invU, phase⟩ := inv.iget entry got
  exact invU.passes (by rw [phase]; exact entry) rfl

/-- `ilock` reads the on-disk inode unless the entry is valid. -/
theorem InodeInv.loading (inv : InodeInv s) {addr : Nat} (loads : s.phase p = .loading e)
    (ran : s.next p addr = some t) : InodeInv t := by
  have held := inv.lock p e (by rw [loads]; rfl)
  simp only [InodeState.next, loads] at ran
  split at ran
  · next valid =>
      cases ran
      refine inv.returns (e := e) (by rw [loads]; rfl) (by rw [loads]; rfl) (fun _ => valid) ?_ ?_
      · rw [loads]
        exact nofun
      · rw [loads]
        exact nofun
  · simp only [Option.ite_none_left_eq_some] at ran
    obtain ⟨typed, ran⟩ := ran
    cases ran
    refine inv.held held rfl rfl rfl rfl rfl rfl (fun _ _ => .inl rfl) ?_ ?_ nofun nofun nofun
      (fun _ => .inr rfl) (fun _ _ => rfl) (fun _ _ => ⟨typed, typed⟩)
      (fun _ => inv.noHole _ _) nofun
    · rw [loads]
      exact InodePhase.entry_left rfl
    · rw [loads]
      rfl

/-- `iupdate` after the fields have been changed. -/
theorem InodeInv.updating (inv : InodeInv s) {addr : Nat} (changed : s.phase p = .updating e)
    (ran : s.next p addr = some t) : InodeInv t := by
  obtain ⟨held, valid⟩ := inv.locked (e := e) (by rw [changed]; rfl) (by rw [changed]; rfl)
    (by rw [changed]; exact nofun)
  obtain ⟨ok, _, typed⟩ := inv.inCall held valid (by rw [changed]; exact nofun)
  have same : s.setInode e { s.inode e with copy := (s.inode e).copy } = s := by
    unfold InodeState.setInode
    rw [show { s.inode e with copy := (s.inode e).copy } = s.inode e from rfl,
      Function.update_eq_self]
  have through := inv.writesThrough (s.inode e).copy .running held
    (by rw [changed]; exact InodePhase.entry_left rfl) (by rw [changed]; rfl) nofun nofun nofun valid
    (fun _ => typed) ok.noHole
  rw [same] at through
  simp only [InodeState.next, changed] at ran
  cases ran
  exact through

/-- The loop of `writei` has ended, and the size grows with it. -/
theorem InodeInv.writingEnds (inv : InodeInv s) {off addr : Nat} (loops : s.phase p = .writing e off 0)
    (ran : s.next p addr = some t) : InodeInv t := by
  obtain ⟨held, valid⟩ := inv.locked (e := e) (by rw [loops]; rfl) (by rw [loops]; rfl)
    (by rw [loops]; exact nofun)
  obtain ⟨_, there, typed⟩ := inv.inCall held valid (by rw [loops]; exact nofun)
  have listed := inv.writing p e off 0 loops
  simp only [InodeState.next, loops, if_pos] at ran
  split at ran
  · cases ran
    refine inv.held held rfl rfl rfl rfl rfl rfl (fun _ _ => .inl rfl) ?_ ?_ nofun nofun nofun
      (fun _ => .inr valid) (fun _ quiet => absurd rfl quiet) (fun _ _ => ⟨there, typed⟩)
      (fun _ => listed) nofun
    · rw [loops]
      exact InodePhase.same_entry rfl rfl
    · rw [loops]
      rfl
  · next inside =>
      cases ran
      refine inv.returns (e := e) (by rw [loops]; rfl) (by rw [loops]; rfl) (fun _ => valid) ?_ ?_
      · rw [loops]
        exact fun bad => inside bad.2
      · rw [loops]
        exact nofun

/-- The blocks below the end of a chunk are those below its start and the block of the chunk. -/
theorem chunk_blocks {off n bn : Nat} (below : bn * bsize < off + chunk off n)
    (beyond : ¬ bn * bsize < off) : bn = off / bsize := by
  have split := Nat.div_add_mod off bsize
  have part : chunk off n ≤ bsize - off % bsize := Nat.min_le_right _ _
  have inside := Nat.mod_lt off (by decide : 0 < bsize)
  simp only [bsize] at *
  omega

/-- One round of the loop of `writei`. -/
theorem InodeInv.writingRound (inv : InodeInv s) {off n addr : Nat}
    (loops : s.phase p = .writing e off n) (more : n ≠ 0) (ran : s.next p addr = some t) :
    InodeInv t := by
  obtain ⟨held, valid⟩ := inv.locked (e := e) (by rw [loops]; rfl) (by rw [loops]; rfl)
    (by rw [loops]; exact nofun)
  obtain ⟨ok, there, typed⟩ := inv.inCall held valid (by rw [loops]; exact nofun)
  have listed := inv.writing p e off n loops
  simp only [InodeState.next, loops, if_neg more, Option.ite_none_right_eq_some] at ran
  obtain ⟨real, ran⟩ := ran
  cases ran
  have moved := chunk_pos off more
  refine inv.held held rfl rfl rfl rfl rfl rfl (fun _ _ => .inl rfl) ?_ ?_ nofun nofun nofun
    (fun _ => .inr valid) (fun _ quiet => ?_) (fun _ _ => ⟨there, ?_⟩)
    (fun _ => ok.noHole.bmap real) ?_
  · rw [loops]
    exact InodePhase.same_entry rfl rfl
  · rw [loops]
    rfl
  · -- what is written so far lies below the size, where every block is listed
    have inside : off + chunk off n ≤ (s.inode e).copy.size := by
      by_contra beyond
      refine quiet ⟨rfl, ?_⟩
      rw [Dinode.bmap_size]
      omega
    have below : off / bsize * bsize < (s.inode e).copy.size := by
      have start := Nat.div_mul_le_self off bsize
      omega
    change (s.inode e).copy.bmap _ _ = s.dinode _ _
    rw [Dinode.bmap_listed (ok.noHole _ below)]
    refine ok.settled fun q holds bad => ?_
    rw [held] at holds
    obtain rfl := Option.some.inj holds
    rw [loops] at bad
    have unwritten := bad.2
    omega
  · change (Dinode.bmap _ _ _).type ≠ _
    rw [Dinode.bmap_type]
    exact typed
  · intro off' n' is bn below
    obtain ⟨_, rfl, _⟩ := InodePhase.writing.inj is
    by_cases before : bn * bsize < off
    · exact Dinode.bmap_addrs real _ (.inr (listed bn before))
    · exact Dinode.bmap_addrs real _ (.inl (congrArg slotOf (chunk_blocks below before)))

/-- `iput` looks whether the inode is to be freed. -/
theorem InodeInv.testing (inv : InodeInv s) {addr : Nat} (tests : s.phase p = .testing e)
    (ran : s.next p addr = some t) : InodeInv t := by
  have held := inv.lock p e (by rw [tests]; rfl)
  have goes {ph : InodePhase} (about : ph.entry = some e) (puts : ph.puts e = true)
      (starts : ph ≠ .locking e) (drops : ph ≠ .dropping e)
      (sure : ph.frees e → (s.inode e).valid = true) (quiet : ∀ off n, ph ≠ .writing e off n) :
      InodeInv (s.setPhase p ph) := by
    refine inv.phaseOnly (e := e) rfl rfl (fun _ _ _ => .inl rfl) inv.noHole ?_ ?_
      (fun is => absurd is starts) (fun _ => held)
      (fun _ notPut => absurd (puts.symm.trans notPut) nofun) ?_ ?_ drops sure
      fun off n is => absurd is (quiet off n)
    · rw [tests]
      exact InodePhase.same_entry rfl about
    · rw [tests, puts]
      exact (decide_eq_true rfl).symm
    · rw [tests]
      exact nofun
    · rw [tests]
      exact nofun
  simp only [InodeState.next, tests] at ran
  split at ran
  · next unlinked =>
      cases ran
      exact goes rfl (decide_eq_true rfl) nofun nofun (fun _ => unlinked.1) nofun
  · cases ran
    exact goes rfl (decide_eq_true rfl) nofun nofun nofun nofun

/-- The inode is truncated. -/
theorem InodeInv.truncating (inv : InodeInv s) {addr : Nat} (truncates : s.phase p = .truncating e)
    (ran : s.next p addr = some t) : InodeInv t := by
  have held := inv.lock p e (by rw [truncates]; rfl)
  have valid := inv.frees p e (by rw [truncates]; rfl)
  obtain ⟨_, _, typed⟩ := inv.inCall held valid (by rw [truncates]; exact nofun)
  simp only [InodeState.next, truncates] at ran
  cases ran
  refine inv.writesThrough _ _ held ?_ ?_ nofun nofun nofun valid (fun _ => typed)
    fun bn below => absurd below (Nat.not_lt_zero _)
  · rw [truncates]
    exact InodePhase.same_entry rfl rfl
  · rw [truncates]
    rfl

/-- The on-disk inode is freed. -/
theorem InodeInv.freeing (inv : InodeInv s) {addr : Nat} (frees : s.phase p = .freeing e)
    (ran : s.next p addr = some t) : InodeInv t := by
  have held := inv.lock p e (by rw [frees]; rfl)
  have valid := inv.frees p e (by rw [frees]; rfl)
  obtain ⟨ok, _⟩ := inv.inCall held valid (by rw [frees]; exact nofun)
  simp only [InodeState.next, frees] at ran
  cases ran
  refine inv.writesThrough _ _ held ?_ ?_ nofun nofun nofun valid (fun kept => absurd rfl kept)
    ok.noHole
  · rw [frees]
    exact InodePhase.same_entry rfl rfl
  · rw [frees]
    rfl

/-- The entry of the freed inode is made invalid. -/
theorem InodeInv.invalidating (inv : InodeInv s) {addr : Nat}
    (invalidates : s.phase p = .invalidating e) (ran : s.next p addr = some t) : InodeInv t := by
  have held := inv.lock p e (by rw [invalidates]; rfl)
  simp only [InodeState.next, invalidates] at ran
  cases ran
  refine inv.held held rfl rfl rfl rfl rfl rfl (fun _ _ => .inl rfl) ?_ ?_ nofun nofun nofun
    (fun notPut => ?_) nofun nofun nofun nofun
  · rw [invalidates]
    exact InodePhase.same_entry rfl rfl
  · rw [invalidates]
    rfl
  · simp [InodePhase.puts] at notPut

/-- `iput` leaves the sleep-lock. -/
theorem InodeInv.unlocking (inv : InodeInv s) {addr : Nat} (unlocks : s.phase p = .unlocking e)
    (ran : s.next p addr = some t) : InodeInv t := by
  have held := inv.lock p e (by rw [unlocks]; rfl)
  simp only [InodeState.next, unlocks] at ran
  cases ran
  refine inv.releases held rfl rfl rfl ?_ ?_ nofun (fun locks => locks) ?_ ?_
  · rw [unlocks]
    exact InodePhase.same_entry rfl rfl
  · rw [unlocks]
    rfl
  · rw [unlocks]
    exact nofun
  · rw [unlocks]
    exact nofun

/-- The reference is dropped. -/
theorem InodeInv.dropped (inv : InodeInv s) {addr : Nat} (drops : s.phase p = .dropping e)
    (ran : s.next p addr = some t) : InodeInv t := by
  have counted := inv.counted e
  have put : (s.phase p).puts e = true := by
    rw [drops]
    exact decide_eq_true rfl
  have sums := puts_update (t := s.setPhase p .running) (s := s) (p := p) rfl e
  rw [put, if_pos rfl] at sums
  change _ = _ + 0 at sums
  simp only [InodeState.next, drops] at ran
  cases ran
  refine inv.recounts (e := e) (p := p) rfl rfl rfl (.inr drops) rfl ?_ ?_ fun q using' => ?_
  · omega
  · rw [put, if_pos rfl]
    omega
  · have referenced := inv.used q e using'
    unfold InodeState.Referenced at referenced
    rw [put, if_pos rfl]
    omega

/-- The next step of a call. -/
theorem InodeInv.next (inv : InodeInv s) {addr : Nat} (ran : s.next p addr = some t) :
    InodeInv t := by
  cases phase : s.phase p with
  | running =>
      simp only [InodeState.next, phase] at ran
      cases ran
  | allocating dev type inum => exact inv.allocating phase ran
  | getting dev inum => exact inv.getting phase ran
  | locking e =>
      simp only [InodeState.next, phase, Option.ite_none_right_eq_some] at ran
      obtain ⟨free, ran⟩ := ran
      cases ran
      exact inv.acquires free (.inl ⟨phase, rfl⟩)
  | loading e => exact inv.loading phase ran
  | updating e => exact inv.updating phase ran
  | writing e off n =>
      by_cases ended : n = 0
      · subst ended
        exact inv.writingEnds phase ran
      · exact inv.writingRound phase ended ran
  | putting e =>
      simp only [InodeState.next, phase, Option.ite_none_right_eq_some] at ran
      obtain ⟨free, ran⟩ := ran
      cases ran
      exact inv.acquires free (.inr ⟨phase, rfl⟩)
  | testing e => exact inv.testing phase ran
  | truncating e => exact inv.truncating phase ran
  | freeing e => exact inv.freeing phase ran
  | invalidating e => exact inv.invalidating phase ran
  | unlocking e => exact inv.unlocking phase ran
  | dropping e => exact inv.dropped phase ran

theorem InodeInv.step (inv : InodeInv s) {label : InodeLabel P} (ran : s.step label = some t) :
    InodeInv t := by
  cases label with
  | start p call =>
    obtain ⟨idle, ran⟩ := Option.ite_none_right_eq_some.mp ran
    exact inv.start idle ran
  | next p addr => exact inv.next ran

/-! ## Runs -/

omit [DecidableEq P] in
theorem InodeInv.initial (start : s.Initial) : InodeInv s := by
  have idle (p : P) (e : Fin ninode) : (s.phase p).puts e = false := by
    rw [start.phase p]
    rfl
  have notHeld (p : P) (e : Fin ninode) : (s.inode e).holder ≠ some p := by
    rw [start.holder e]
    exact nofun
  have unlocked (p : P) (e : Fin ninode) : ¬ (s.phase p).locks e := by
    rw [start.phase p]
    exact id
  refine ⟨fun e => ?_, fun p e using' => ?_, fun e f counts => ?_, fun p e locks => ?_,
    fun p e held => absurd held (notHeld p e), fun e counts => ?_, start.noHole,
    fun p e off n loops => ?_, fun p e _ => notHeld p e, fun p e frees => ?_⟩
  · refine le_of_eq_of_le (Finset.sum_eq_zero fun p _ => ?_) (Nat.zero_le _)
    rw [idle p e]
    rfl
  · rcases using' with ⟨held, _⟩ | locking
    · exact absurd held (notHeld p e)
    · cases (start.phase p).symm.trans locking
  · rw [start.ref e] at counts
    exact absurd counts (Nat.lt_irrefl 0)
  · exact absurd locks (unlocked p e)
  · rw [start.ref e] at counts
    exact absurd counts (Nat.lt_irrefl 0)
  · cases (start.phase p).symm.trans loops
  · exact absurd (InodePhase.locks_of_frees frees) (unlocked p e)

/--
In every state of every run an inode has at most one entry with references,
and such an entry agrees with its on-disk inode when it is valid and not locked.
-/
theorem inode_cache_coherent {labels : List (InodeLabel P)} (start : s.Initial)
    (run : (sharedInodes P).Run s labels t) :
    (∀ e f, 0 < (t.inode e).ref → 0 < (t.inode f).ref → (t.inode e).dev = (t.inode f).dev →
      (t.inode e).inum = (t.inode f).inum → e = f) ∧
    ∀ e, 0 < (t.inode e).ref → (t.inode e).valid = true → (t.inode e).holder = none →
      (t.inode e).copy = t.dinode (t.inode e).dev (t.inode e).inum := by
  have inv : InodeInv t := run.preserves (fun inv ran => inv.step ran) (InodeInv.initial start)
  refine ⟨inv.unique, fun e counts valid free => ?_⟩
  refine (inv.ok e counts valid).settled fun p held => ?_
  rw [free] at held
  cases held

end Runs

/-- A file with one link, and an empty cache. -/
def oneInode (P : Type) : InodeState P where
  dinode _ inum := if inum = 1 then { Dinode.zero with type := .file, nlink := 1 } else .zero
  ninodes := 3
  inode _ := ⟨0, 0, 0, false, none, .zero⟩
  phase _ := .running

theorem oneInode_initial (P : Type) : (oneInode P).Initial := by
  refine ⟨fun _ => rfl, fun _ => rfl, fun _ => rfl, fun dev inum bn below => ?_⟩
  unfold oneInode at below
  dsimp only at below
  split at below
  · exact absurd below (Nat.not_lt_zero _)
  · exact absurd below (Nat.not_lt_zero _)

/-- One process frees the file, and another gets its number before the reference is dropped. -/
def reallocates : List (InodeLabel Bool) :=
  [.start true (.iget 1 1), .start true (.ilock 0), .next true 0, .next true 0,
    .start true (.fields 0 0 0 0), .next true 0, .start true (.iunlock 0),
    .start true (.iput 0), .next true 0, .next true 0, .next true 0, .next true 0,
    .start false (.ialloc 1 .file), .next false 0, .next false 0, .next true 0, .next true 0,
    .start false (.ilock 0), .next false 0, .next false 0, .start false (.iunlock 0), .next true 0]

/-- The entry that the two processes shared agrees with the disk. -/
theorem coherent_after_reallocation : ∃ t, (oneInode Bool).Initial ∧
    (sharedInodes Bool).Run (oneInode Bool) reallocates t ∧ (t.inode 0).ref = 1 ∧
    (t.inode 0).valid = true ∧ (t.inode 0).copy = t.dinode (t.inode 0).dev (t.inode 0).inum := by
  have ends : (reallocates.foldlM InodeState.step (oneInode Bool)).map (fun t =>
      ((t.inode 0).ref, (t.inode 0).valid, (t.inode 0).holder)) = some (1, true, none) := by
    decide +kernel
  obtain ⟨t, ran, is⟩ := Option.map_eq_some_iff.mp ends
  simp only [Prod.mk.injEq] at is
  obtain ⟨ref, valid, free⟩ := is
  have start := oneInode_initial Bool
  have run : (sharedInodes Bool).Run _ reallocates t :=
    System.Run.of_fold (fun _ _ _ ran => ran) ran
  have agrees := (inode_cache_coherent start run).2 0 (by omega) valid free
  exact ⟨t, start, run, ref, valid, agrees⟩

/-- The file is read into entry 1 and dropped, and then changed through entry 0. -/
def leavesStale : List (InodeLabel Unit) :=
  [.start () (.iget 1 2), .start () (.iget 1 1),
    .start () (.ilock 1), .next () 0, .next () 0, .start () (.iunlock 1),
    .start () (.iput 1), .next () 0, .next () 0, .next () 0, .next () 0,
    .start () (.iput 0), .next () 0, .next () 0, .next () 0, .next () 0,
    .start () (.iget 1 1), .start () (.ilock 0), .next () 0, .next () 0,
    .start () (.fields 0 0 0 2), .next () 0]

/-- An entry without references stays valid, and is not kept up to date. -/
theorem free_entry_stale : ¬ ∀ (s t : InodeState Unit) (labels : List (InodeLabel Unit)),
    s.Initial → (sharedInodes Unit).Run s labels t →
    ∀ e, (t.inode e).valid = true → (t.inode e).holder = none →
      (t.inode e).copy = t.dinode (t.inode e).dev (t.inode e).inum := by
  intro coherent
  have ends : (leavesStale.foldlM InodeState.step (oneInode Unit)).map (fun t =>
      ((t.inode 1).valid, (t.inode 1).holder, (t.inode 1).copy.nlink,
        (t.dinode (t.inode 1).dev (t.inode 1).inum).nlink)) = some (true, none, 1, 2) := by
    decide +kernel
  obtain ⟨t, ran, is⟩ := Option.map_eq_some_iff.mp ends
  simp only [Prod.mk.injEq] at is
  obtain ⟨valid, free, cached, stored⟩ := is
  have same := coherent _ t _ (oneInode_initial Unit) (System.Run.of_fold (fun _ _ _ ran => ran) ran) 1 valid free
  rw [same, stored] at cached
  cases cached

end SlabStudy.Xv6
