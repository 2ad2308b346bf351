import SlabStudy.Xv6.SharedInodes

/-!
# Coherence of the inode cache

An inode has at most one entry with references.  A valid entry that nobody has
locked agrees with its on-disk inode: whoever changes the entry updates the
disk before the lock is released, and an on-disk inode is only allocated anew
when no valid entry can have it.
-/

namespace SlabStudy.Xv6

open Library

/-! ## Phases -/

namespace InodePhase

/-- The entry that a phase is about. -/
def entry : InodePhase → Option (Fin ninode)
  | .running => none
  | .allocating _ _ _ => none
  | .getting _ _ => none
  | .locking e => some e
  | .loading e => some e
  | .updating e => some e
  | .writing e _ _ => some e
  | .putting e => some e
  | .testing e => some e
  | .truncating e => some e
  | .freeing e => some e
  | .invalidating e => some e
  | .unlocking e => some e
  | .dropping e => some e

/-- In a call that has the sleep-lock. -/
def locks (e : Fin ninode) : InodePhase → Prop
  | .loading f => f = e
  | .updating f => f = e
  | .writing f _ _ => f = e
  | .testing f => f = e
  | .truncating f => f = e
  | .freeing f => f = e
  | .invalidating f => f = e
  | .unlocking f => f = e
  | _ => False

/-- The entry of this size may differ from its on-disk inode. -/
def unsettled (size : Nat) (e : Fin ninode) : InodePhase → Prop
  | .updating f => f = e
  | .invalidating f => f = e
  | .writing f off _ => f = e ∧ size < off
  | _ => False

/-- In `iput`, behind the test that finds the inode without links. -/
def frees (e : Fin ninode) : InodePhase → Prop
  | .truncating f => f = e
  | .freeing f => f = e
  | _ => False

variable {ph : InodePhase} {e : Fin ninode}

theorem puts_of_entry (other : ph.entry ≠ some e) : ph.puts e = false := by
  cases ph with
  | putting f => exact decide_eq_false fun same => other (congrArg some same)
  | testing f => exact decide_eq_false fun same => other (congrArg some same)
  | truncating f => exact decide_eq_false fun same => other (congrArg some same)
  | freeing f => exact decide_eq_false fun same => other (congrArg some same)
  | invalidating f => exact decide_eq_false fun same => other (congrArg some same)
  | unlocking f => exact decide_eq_false fun same => other (congrArg some same)
  | dropping f => exact decide_eq_false fun same => other (congrArg some same)
  | _ => rfl

theorem entry_of_locks (locks : ph.locks e) : ph.entry = some e := by
  cases ph with
  | running => cases locks
  | allocating dev type inum => cases locks
  | getting dev inum => cases locks
  | locking f => cases locks
  | putting f => cases locks
  | dropping f => cases locks
  | writing f off n => exact congrArg some locks
  | loading f => exact congrArg some locks
  | updating f => exact congrArg some locks
  | testing f => exact congrArg some locks
  | truncating f => exact congrArg some locks
  | freeing f => exact congrArg some locks
  | invalidating f => exact congrArg some locks
  | unlocking f => exact congrArg some locks

theorem locks_of_unsettled {size : Nat} (unsettled : ph.unsettled size e) : ph.locks e := by
  cases ph with
  | updating f => exact unsettled
  | invalidating f => exact unsettled
  | writing f off n => exact unsettled.1
  | _ => cases unsettled

theorem locks_of_frees (frees : ph.frees e) : ph.locks e := by
  cases ph with
  | truncating f => exact frees
  | freeing f => exact frees
  | _ => cases frees

end InodePhase

section Coherence

variable {P : Type} [DecidableEq P] [Fintype P] {s t : InodeState P}

/-! ## The invariant -/

/-- What a valid entry with references has in common with its on-disk inode. -/
structure EntryOk (s : InodeState P) (e : Fin ninode) : Prop where
  settled : (∀ p, (s.inode e).holder = some p →
      ¬ (s.phase p).unsettled (s.inode e).copy.size e) →
    (s.inode e).copy = s.dinode (s.inode e).dev (s.inode e).inum
  typed : (∀ p, (s.inode e).holder = some p → s.phase p ≠ .invalidating e) →
    (s.dinode (s.inode e).dev (s.inode e).inum).type ≠ .free ∧ (s.inode e).copy.type ≠ .free
  noHole : (s.inode e).copy.NoHole

structure InodeInv (s : InodeState P) : Prop where
  counted : ∀ e, s.puts e ≤ (s.inode e).ref
  used : ∀ p e, s.Uses p e → s.Referenced e
  unique : ∀ e f, 0 < (s.inode e).ref → 0 < (s.inode f).ref → (s.inode e).dev = (s.inode f).dev →
    (s.inode e).inum = (s.inode f).inum → e = f
  lock : ∀ p e, (s.phase p).locks e → (s.inode e).holder = some p
  valid : ∀ p e, (s.inode e).holder = some p → (s.phase p).puts e = false →
    s.phase p = .loading e ∨ (s.inode e).valid = true
  ok : ∀ e, 0 < (s.inode e).ref → (s.inode e).valid = true → EntryOk s e
  noHole : ∀ dev inum, (s.dinode dev inum).NoHole
  writing : ∀ p e off n, s.phase p = .writing e off n → ∀ bn, bn * bsize < off →
    (s.inode e).copy.addrs (slotOf bn) ≠ 0
  dropping : ∀ p e, s.phase p = .dropping e → (s.inode e).holder ≠ some p
  frees : ∀ p e, (s.phase p).frees e → (s.inode e).valid = true

/-- Changing the phase of `p` moves it in or out of the processes in `iput`. -/
theorem puts_update {p : P} {ph : InodePhase} (phase : t.phase = Function.update s.phase p ph)
    (e : Fin ninode) : t.puts e + (if (s.phase p).puts e then 1 else 0) =
      s.puts e + if ph.puts e then 1 else 0 := by
  unfold InodeState.puts
  rw [phase]
  exact sum_holding_update (fun _ phase => if InodePhase.puts e phase then 1 else 0) s.phase p ph

/-- A process that uses an entry, or that has it locked, keeps it referenced. -/
theorem InodeInv.referenced (inv : InodeInv s) {p : P} {e : Fin ninode}
    (held : (s.inode e).holder = some p) : 0 < (s.inode e).ref := by
  have counted := inv.counted e
  by_cases put : (s.phase p).puts e = true
  · have sums := puts_update (t := s.setPhase p .running) (s := s) (p := p) rfl e
    rw [put] at sums
    change _ + 1 = _ + 0 at sums
    omega
  · have used := inv.used p e (.inl ⟨held, Bool.eq_false_iff.mpr put⟩)
    unfold InodeState.Referenced at used
    omega

omit [DecidableEq P] [Fintype P] in
/-- An entry that a step leaves alone, together with its on-disk inode and its lock. -/
theorem EntryOk.frame {f : Fin ninode} (before : EntryOk s f) (same : t.inode f = s.inode f)
    (unsettled : ∀ q, (s.inode f).holder = some q →
      (s.phase q).unsettled (s.inode f).copy.size f → (t.phase q).unsettled (s.inode f).copy.size f)
    (freed : ∀ q, (s.inode f).holder = some q → s.phase q = .invalidating f →
      t.phase q = .invalidating f)
    (disk : t.dinode (s.inode f).dev (s.inode f).inum = s.dinode (s.inode f).dev (s.inode f).inum ∨
      ∃ q, (s.inode f).holder = some q ∧ s.phase q = .invalidating f) : EntryOk t f := by
  refine ⟨fun quiet => ?_, fun kept => ?_, ?_⟩
  · rw [same] at quiet ⊢
    rcases disk with disk | ⟨q, held, invalidates⟩
    · rw [disk]
      exact before.settled fun q held => mt (unsettled q held) (quiet q held)
    · refine absurd (unsettled q held ?_) (quiet q held)
      rw [invalidates]
      rfl
  · rw [same] at kept ⊢
    rcases disk with disk | ⟨q, held, invalidates⟩
    · rw [disk]
      exact before.typed fun q held => mt (freed q held) (kept q held)
    · exact absurd (freed q held invalidates) (kept q held)
  · rw [same]
    exact before.noHole

/-- What the invariant says about one entry. -/
structure EntryInv (s : InodeState P) (e : Fin ninode) : Prop where
  counted : s.puts e ≤ (s.inode e).ref
  used : ∀ p, s.Uses p e → s.Referenced e
  lock : ∀ p, (s.phase p).locks e → (s.inode e).holder = some p
  valid : ∀ p, (s.inode e).holder = some p → (s.phase p).puts e = false →
    s.phase p = .loading e ∨ (s.inode e).valid = true
  ok : 0 < (s.inode e).ref → (s.inode e).valid = true → EntryOk s e
  writing : ∀ p off n, s.phase p = .writing e off n → ∀ bn, bn * bsize < off →
    (s.inode e).copy.addrs (slotOf bn) ≠ 0
  dropping : ∀ p, s.phase p = .dropping e → (s.inode e).holder ≠ some p
  frees : ∀ p, (s.phase p).frees e → (s.inode e).valid = true

omit [DecidableEq P] in
theorem InodeInv.ofEntries (entries : ∀ e, EntryInv s e)
    (unique : ∀ e f, 0 < (s.inode e).ref → 0 < (s.inode f).ref →
      (s.inode e).dev = (s.inode f).dev → (s.inode e).inum = (s.inode f).inum → e = f)
    (noHole : ∀ dev inum, (s.dinode dev inum).NoHole) : InodeInv s where
  counted e := (entries e).counted
  used p e := (entries e).used p
  unique := unique
  lock p e := (entries e).lock p
  valid p e := (entries e).valid p
  ok e := (entries e).ok
  noHole := noHole
  writing p e := (entries e).writing p
  dropping p e := (entries e).dropping p
  frees p e := (entries e).frees p

/-- A step of `p` that changes the entry `e` only. -/
structure InodeMove (s t : InodeState P) (p : P) (e : Fin ninode) (ip : SharedInode P)
    (ph : InodePhase) : Prop where
  inode : t.inode = Function.update s.inode e ip
  phase : t.phase = Function.update s.phase p ph
  only : ∀ f, (s.phase p).entry = some f ∨ ph.entry = some f → f = e

namespace InodeMove

variable {p q : P} {e f : Fin ninode} {ip : SharedInode P} {ph : InodePhase}

omit [Fintype P] in
theorem here (move : InodeMove s t p e ip ph) : t.inode e = ip := by
  rw [move.inode, Function.update_self]

omit [Fintype P] in
theorem other (move : InodeMove s t p e ip ph) (apart : f ≠ e) : t.inode f = s.inode f := by
  rw [move.inode, Function.update_of_ne apart]

omit [Fintype P] in
theorem own (move : InodeMove s t p e ip ph) : t.phase p = ph := by
  rw [move.phase, Function.update_self]

omit [Fintype P] in
theorem same (move : InodeMove s t p e ip ph) (apart : q ≠ p) : t.phase q = s.phase q := by
  rw [move.phase, Function.update_of_ne apart]

omit [Fintype P] in
/-- Neither phase of `p` is about another entry. -/
theorem before (move : InodeMove s t p e ip ph) (apart : f ≠ e) : (s.phase p).entry ≠ some f :=
  fun about => apart (move.only f (.inl about))

omit [Fintype P] in
theorem after (move : InodeMove s t p e ip ph) (apart : f ≠ e) : ph.entry ≠ some f :=
  fun about => apart (move.only f (.inr about))

theorem puts (move : InodeMove s t p e ip ph) (apart : f ≠ e) : t.puts f = s.puts f := by
  have sums := puts_update move.phase f
  rw [InodePhase.puts_of_entry (move.before apart),
    InodePhase.puts_of_entry (move.after apart)] at sums
  simpa using sums

omit [Fintype P] in
theorem uses (move : InodeMove s t p e ip ph) (apart : f ≠ e) (using' : t.Uses q f) :
    s.Uses q f := by
  unfold InodeState.Uses at using' ⊢
  rw [move.other apart] at using'
  by_cases self : q = p
  · rw [self, move.own] at using'
    rw [self]
    rcases using' with ⟨held, _⟩ | locking
    · exact .inl ⟨held, InodePhase.puts_of_entry (move.before apart)⟩
    · exact absurd (by rw [locking]; rfl) (move.after apart)
  · rw [move.same self] at using'
    exact using'

omit [Fintype P] in
/-- A phase about another entry is that of another process, which stays in it. -/
theorem stays (move : InodeMove s t p e ip ph) (apart : f ≠ e)
    (about : (t.phase q).entry = some f) : t.phase q = s.phase q := by
  refine move.same ?_
  rintro rfl
  rw [move.own] at about
  exact move.after apart about

omit [Fintype P] in
theorem stayed (move : InodeMove s t p e ip ph) (apart : f ≠ e)
    (about : (s.phase q).entry = some f) : t.phase q = s.phase q := by
  refine move.same ?_
  rintro rfl
  exact move.before apart about

/-- The other entries are as before. -/
theorem others (move : InodeMove s t p e ip ph) (inv : InodeInv s) (apart : f ≠ e)
    (frame : 0 < (s.inode f).ref → (s.inode f).valid = true →
      t.dinode (s.inode f).dev (s.inode f).inum = s.dinode (s.inode f).dev (s.inode f).inum ∨
        ∃ q, (s.inode f).holder = some q ∧ s.phase q = .invalidating f) : EntryInv t f where
  counted := by
    rw [move.puts apart, move.other apart]
    exact inv.counted f
  used q using' := by
    unfold InodeState.Referenced
    rw [move.puts apart, move.other apart]
    exact inv.used q f (move.uses apart using')
  lock q locks := by
    rw [move.stays apart (InodePhase.entry_of_locks locks)] at locks
    rw [move.other apart]
    exact inv.lock q f locks
  valid q held notPut := by
    rw [move.other apart] at held ⊢
    by_cases self : q = p
    · rw [self] at held
      have before := inv.valid p f held (InodePhase.puts_of_entry (move.before apart))
      refine .inr (before.resolve_left fun loads => move.before apart ?_)
      rw [loads]
      rfl
    · rw [move.same self] at notPut ⊢
      exact inv.valid q f held notPut
  ok some good := by
    rw [move.other apart] at some good
    refine (inv.ok f some good).frame (move.other apart) (fun q _ bad => ?_) (fun q _ bad => ?_)
      (frame some good)
    · have about := InodePhase.entry_of_locks (InodePhase.locks_of_unsettled bad)
      rw [move.stayed apart about]
      exact bad
    · rw [move.stayed apart (by rw [bad]; rfl)]
      exact bad
  writing q off n loops bn below := by
    have same := move.stays (q := q) apart (by rw [loops]; rfl)
    rw [same] at loops
    rw [move.other apart]
    exact inv.writing q f off n loops bn below
  dropping q drops := by
    have same := move.stays (q := q) apart (by rw [drops]; rfl)
    rw [same] at drops
    rw [move.other apart]
    exact inv.dropping q f drops
  frees q sure := by
    rw [move.stays apart (InodePhase.entry_of_locks (InodePhase.locks_of_frees sure))] at sure
    rw [move.other apart]
    exact inv.frees q f sure

/-- An inode still has at most one entry. -/
theorem unique (move : InodeMove s t p e ip ph) (inv : InodeInv s)
    (alone : 0 < ip.ref → ∀ f, f ≠ e → 0 < (s.inode f).ref →
      ¬ ((s.inode f).dev = ip.dev ∧ (s.inode f).inum = ip.inum)) (f g : Fin ninode)
    (first : 0 < (t.inode f).ref) (second : 0 < (t.inode g).ref)
    (dev : (t.inode f).dev = (t.inode g).dev) (inum : (t.inode f).inum = (t.inode g).inum) :
    f = g := by
  by_cases left : f = e
  · by_cases right : g = e
    · rw [left, right]
    · rw [left, move.here] at first dev inum
      rw [move.other right] at second dev inum
      exact absurd ⟨dev.symm, inum.symm⟩ (alone first g right second)
  · rw [move.other left] at first dev inum
    by_cases right : g = e
    · rw [right, move.here] at second dev inum
      exact absurd ⟨dev, inum⟩ (alone second f left first)
    · rw [move.other right] at second dev inum
      exact inv.unique f g first second dev inum

end InodeMove

/-- A step of `p` that changes the entry `e` only keeps the invariant if that entry meets it. -/
theorem InodeInv.moves (inv : InodeInv s) {p : P} {e : Fin ninode} {ip : SharedInode P}
    {ph : InodePhase} (inode : t.inode = Function.update s.inode e ip)
    (phase : t.phase = Function.update s.phase p ph)
    (frame : ∀ f, f ≠ e → 0 < (s.inode f).ref → (s.inode f).valid = true →
      t.dinode (s.inode f).dev (s.inode f).inum = s.dinode (s.inode f).dev (s.inode f).inum ∨
        ∃ q, (s.inode f).holder = some q ∧ s.phase q = .invalidating f)
    (noHole : ∀ dev inum, (t.dinode dev inum).NoHole)
    (only : ∀ f, (s.phase p).entry = some f ∨ ph.entry = some f → f = e)
    (count : s.puts e + (if ph.puts e then 1 else 0) ≤
      ip.ref + if (s.phase p).puts e then 1 else 0)
    (used : ∀ q, t.Uses q e → s.puts e + (if ph.puts e then 1 else 0) <
      ip.ref + if (s.phase p).puts e then 1 else 0)
    (unique : 0 < ip.ref → ∀ f, f ≠ e → 0 < (s.inode f).ref →
      ¬ ((s.inode f).dev = ip.dev ∧ (s.inode f).inum = ip.inum))
    (keeps : ∀ q, q ≠ p → (s.inode e).holder = some q → ip.holder = some q)
    (lock : ph.locks e → ip.holder = some p)
    (valid : ∀ q, ip.holder = some q → (t.phase q).puts e = false →
      t.phase q = .loading e ∨ ip.valid = true)
    (ok : 0 < ip.ref → ip.valid = true → EntryOk t e)
    (writing : ∀ q off n, t.phase q = .writing e off n → ∀ bn, bn * bsize < off →
      ip.copy.addrs (slotOf bn) ≠ 0)
    (dropping : ∀ q, t.phase q = .dropping e → ip.holder ≠ some q)
    (frees : ∀ q, (t.phase q).frees e → ip.valid = true) : InodeInv t := by
  have move : InodeMove s t p e ip ph := ⟨inode, phase, only⟩
  have sums := puts_update phase e
  have own : EntryInv t e := by
    constructor
    case counted =>
      rw [move.here]
      omega
    case used =>
      intro q using'
      have more := used q using'
      unfold InodeState.Referenced
      rw [move.here]
      omega
    case lock =>
      intro q locks
      rw [move.here]
      by_cases self : q = p
      · rw [self, move.own] at locks
        rw [self]
        exact lock locks
      · rw [move.same self] at locks
        exact keeps q self (inv.lock q e locks)
    all_goals
      rw [move.here]
      assumption
  refine .ofEntries (fun f => ?_) (move.unique inv unique) noHole
  by_cases apart : f = e
  · rw [apart]
    exact own
  · exact move.others inv apart (frame f apart)

/-- A step of `p` that changes no entry. -/
theorem InodeInv.phaseOnly (inv : InodeInv s) {p : P} {e : Fin ninode} {ph : InodePhase}
    (inode : t.inode = s.inode) (phase : t.phase = Function.update s.phase p ph)
    (frame : ∀ f, 0 < (s.inode f).ref → (s.inode f).valid = true →
      t.dinode (s.inode f).dev (s.inode f).inum = s.dinode (s.inode f).dev (s.inode f).inum ∨
        ∃ q, (s.inode f).holder = some q ∧ s.phase q = .invalidating f)
    (noHole : ∀ dev inum, (t.dinode dev inum).NoHole)
    (only : ∀ f, (s.phase p).entry = some f ∨ ph.entry = some f → f = e)
    (puts : ph.puts e = (s.phase p).puts e) (locking : ph = .locking e → s.Referenced e)
    (lock : ph.locks e → (s.inode e).holder = some p)
    (valid : (s.inode e).holder = some p → ph.puts e = false →
      ph = .loading e ∨ (s.inode e).valid = true)
    (unsettled : (s.phase p).unsettled (s.inode e).copy.size e →
      ph.unsettled (s.inode e).copy.size e)
    (freed : s.phase p = .invalidating e → ph = .invalidating e)
    (drops : ph ≠ .dropping e) (sure : ph.frees e → (s.inode e).valid = true)
    (writing : ∀ off n, ph = .writing e off n → ∀ bn, bn * bsize < off →
      (s.inode e).copy.addrs (slotOf bn) ≠ 0) : InodeInv t := by
  have own : t.phase p = ph := by rw [phase, Function.update_self]
  have same (q : P) (apart : q ≠ p) : t.phase q = s.phase q := by
    rw [phase, Function.update_of_ne apart]
  have entry (f : Fin ninode) : t.inode f = s.inode f := congrFun inode f
  refine inv.moves (by rw [inode, Function.update_eq_self]) phase (fun f _ => frame f) noHole only
    ?_ (fun q using' => ?_) (fun some f apart there both => ?_) (fun q _ held => held) lock
    (fun q held notPut => ?_) (fun some good => ?_) (fun q off n loops => ?_) (fun q dropped => ?_)
    fun q frees => ?_
  · rw [puts]
    have counted := inv.counted e
    omega
  · rw [puts]
    have referenced : s.Referenced e := by
      unfold InodeState.Uses at using'
      rw [entry] at using'
      by_cases self : q = p
      · rw [self, own, puts] at using'
        exact using'.elim (fun both => inv.used p e (.inl both)) locking
      · rw [same q self] at using'
        exact inv.used q e using'
    unfold InodeState.Referenced at referenced
    omega
  · exact apart (inv.unique f e there some both.1 both.2)
  · by_cases self : q = p
    · rw [self] at held notPut ⊢
      rw [own] at notPut ⊢
      exact valid held notPut
    · rw [same q self] at notPut ⊢
      exact inv.valid q e held notPut
  · refine (inv.ok e some good).frame (entry e) (fun q _ bad => ?_) (fun q _ bad => ?_)
      (frame e some good)
    · by_cases self : q = p
      · rw [self] at bad ⊢
        rw [own]
        exact unsettled bad
      · rw [same q self]
        exact bad
    · by_cases self : q = p
      · rw [self] at bad ⊢
        rw [own]
        exact freed bad
      · rw [same q self]
        exact bad
  · by_cases self : q = p
    · rw [self, own] at loops
      exact writing off n loops
    · rw [same q self] at loops
      exact inv.writing q e off n loops
  · by_cases self : q = p
    · rw [self, own] at dropped
      exact absurd dropped drops
    · rw [same q self] at dropped
      exact inv.dropping q e dropped
  · by_cases self : q = p
    · rw [self, own] at frees
      exact sure frees
    · rw [same q self] at frees
      exact inv.frees q e frees

end Coherence

end SlabStudy.Xv6
