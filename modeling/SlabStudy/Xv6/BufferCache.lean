import SlabStudy.Xv6.Bio

/-!
# Coherence of the buffer cache

A block has at most one buffer, and a buffer that nobody is changing holds
what was stored last for its block.  A buffer with data that the disk does not
have is marked dirty, and is not recycled before it has been written.
-/

namespace SlabStudy.Xv6

open Library

section Cache

variable {P : Type} [DecidableEq P] {s t : BufState P} {label : BufLabel P}

/-! ## What a step does to the buffers -/

namespace BufState

def phase (s : BufState P) (p : P) : BufPhase := (s.proc p).phase

omit [DecidableEq P] in
@[simp] theorem set_buf_self (s : BufState P) (i : Fin nbuf) (b : Buf P) : (s.set i b).buf i = b :=
  Function.update_self _ _ _

omit [DecidableEq P] in
theorem set_buf_other (s : BufState P) {i j : Fin nbuf} (b : Buf P) (apart : j ≠ i) :
    (s.set i b).buf j = s.buf j :=
  Function.update_of_ne apart _ _

omit [DecidableEq P] in
/-- A buffer is changed in the same cache. -/
theorem set_cache (cache : t.cache = s.cache) (i : Fin nbuf) (f : Buf P → Buf P) :
    (t.set i (f (t.buf i))).cache = s.cache.set i (f (s.buf i)) := by
  unfold set buf
  rw [cache]

theorem setProc_phase (s : BufState P) (p : P) (q : BufProc) :
    (s.setProc p q).phase = Function.update s.phase p q.phase := by
  funext r
  by_cases self : r = p
  · subst self
    simp only [phase, setProc, Function.update_self]
  · simp only [phase, setProc, Function.update_of_ne self]

theorem setPhase_phase (s : BufState P) (p : P) (ph : BufPhase) :
    (s.setPhase p ph).phase = Function.update s.phase p ph :=
  s.setProc_phase p _

/-- A process that runs on keeps its phase. -/
theorem setProc_running {p : P} {q : BufProc} (running : (s.proc p).phase = .running)
    (still : q.phase = .running) : (s.setProc p q).phase = s.phase := by
  rw [setProc_phase, still, ← running]
  exact Function.update_eq_self p s.phase

end BufState

/-- The list of the buffers is a circle through all of them. -/
def BufState.Listed (s : BufState P) : Prop :=
  ∃ order : List (Fin nbuf), order.Perm (List.finRange nbuf) ∧ s.cache.links.Circular order

/-- The process `p` makes no call. -/
def BufState.Kept (s t : BufState P) (p : P) : Prop :=
  (t.proc p).pc = (s.proc p).pc ∧ (t.proc p).task = (s.proc p).task

/-- The process `p` makes the call `c`. -/
def BufState.Took (s t : BufState P) (p : P) (c : BufCall) : Prop :=
  (t.proc p).pc = (s.proc p).pc ∧
    ((s.proc p).pc = none → (t.proc p).task = (s.proc p).task) ∧
    ((s.proc p).pc ≠ none → (s.proc p).task = c :: (t.proc p).task)

/-- The block whose buffer a call changes. -/
def BufCall.changes : BufCall → Option Nat
  | .modify b _ => some b
  | .copy dst _ => some dst
  | .head b => some b
  | _ => none

/-- Every change is written at once. -/
def Saves : List BufCall → Prop
  | [] => True
  | c :: rest => (∀ b, c.changes = some b → ∃ more, rest = .bwrite b :: more) ∧ Saves rest

/-- The process `p` enters `commit` without buffers, or takes its next round. -/
def BufState.Round (s t : BufState P) (p : P) : Prop :=
  ((∀ i, (s.buf i).holder ≠ some p) ∨ (s.proc p).pc ≠ none ∧ (s.proc p).task = []) ∧
    Saves (t.proc p).task

/-- What a step does to the buffers, the disk and the phases of the processes. -/
inductive BufMove (s t : BufState P) : BufLabel P → Prop where
  | quiet {p : P} (cache : t.cache = s.cache) (disk : t.disk = s.disk) (phase : t.phase = s.phase)
      (task : s.Kept t p ∨ s.Round t p) : BufMove s t (.internal p)
  | found {p : P} {i : Fin nbuf} {dev b : Nat} (running : s.phase p = .running)
      (hit : (s.buf i).dev = dev ∧ (s.buf i).blockno = b)
      (cache : t.cache = s.cache.set i { s.buf i with refcnt := (s.buf i).refcnt + 1 })
      (disk : t.disk = s.disk) (phase : t.phase = Function.update s.phase p (.waiting dev b i))
      (task : s.Took t p (.bread dev b)) : BufMove s t (.internal p)
  | recycle {p : P} {i : Fin nbuf} {dev b : Nat} (running : s.phase p = .running)
      (unused : (s.buf i).refcnt = 0) (clean : (s.buf i).dirty = false)
      (missing : ∀ j, ¬ ((s.buf j).dev = dev ∧ (s.buf j).blockno = b))
      (cache : t.cache = s.cache.set i { s.buf i with
        dev := dev, blockno := b, valid := false, dirty := false, refcnt := 1 })
      (disk : t.disk = s.disk) (phase : t.phase = Function.update s.phase p (.waiting dev b i))
      (task : s.Took t p (.bread dev b)) : BufMove s t (.internal p)
  | acquire {p : P} {dev b : Nat} {i : Fin nbuf} (waits : s.phase p = .waiting dev b i)
      (free : (s.buf i).holder = none)
      (cache : t.cache = s.cache.set i { s.buf i with holder := some p })
      (disk : t.disk = s.disk) (phase : t.phase = Function.update s.phase p (.filling dev b i))
      (task : s.Kept t p) : BufMove s t (.internal p)
  | cached {p : P} {dev b : Nat} {i : Fin nbuf} (fills : s.phase p = .filling dev b i)
      (valid : (s.buf i).valid = true)
      (cache : t.cache = s.cache) (disk : t.disk = s.disk)
      (phase : t.phase = Function.update s.phase p .running)
      (task : s.Kept t p) : BufMove s t (.returns p dev b (s.buf i).data)
  | read {p : P} {dev b : Nat} {i : Fin nbuf} (fills : s.phase p = .filling dev b i)
      (invalid : (s.buf i).valid = false) (device : (s.buf i).dev = rootdev)
      (cache : t.cache = s.cache.set i { s.buf i with
        data := s.disk (s.buf i).blockno, valid := true })
      (disk : t.disk = s.disk) (phase : t.phase = Function.update s.phase p .running)
      (task : s.Kept t p) : BufMove s t (.returns p dev b (s.disk (s.buf i).blockno))
  | change {p : P} {b : Nat} {i : Fin nbuf} {data : Block} {c : BufCall}
      (running : s.phase p = .running) (held : s.Holds p b i)
      (cache : t.cache = s.cache.set i { s.buf i with data := data, changed := true })
      (disk : t.disk = s.disk) (phase : t.phase = s.phase) (writes : c.changes = some b)
      (task : s.Took t p c) : BufMove s t (.internal p)
  | check {p : P} {b : Nat} {i : Fin nbuf} (running : s.phase p = .running) (held : s.Holds p b i)
      (cache : t.cache = s.cache) (disk : t.disk = s.disk)
      (phase : t.phase = Function.update s.phase p (.logging i))
      (task : s.Took t p (.logWrite b)) : BufMove s t (.internal p)
  | log {p : P} {i : Fin nbuf} (logs : s.phase p = .logging i)
      (cache : t.cache = s.cache.set i { s.buf i with dirty := true, changed := false })
      (disk : t.disk = s.disk) (phase : t.phase = Function.update s.phase p .running)
      (task : s.Kept t p) : BufMove s t (.stores p (s.buf i).blockno (s.buf i).data)
  | write {p : P} {b : Nat} {i : Fin nbuf} (running : s.phase p = .running) (held : s.Holds p b i)
      (cache : t.cache = s.cache.set i { s.buf i with
        dirty := false, valid := true, changed := false })
      (disk : t.disk = Function.update s.disk b (s.buf i).data) (phase : t.phase = s.phase)
      (task : s.Took t p (.bwrite b)) : BufMove s t (.stores p b (s.buf i).data)
  | release {p : P} {b : Nat} {i : Fin nbuf} (running : s.phase p = .running)
      (held : s.Holds p b i) (saved : (s.proc p).pc = none → (s.buf i).changed = false)
      (cache : t.cache = s.cache.set i { s.buf i with holder := none })
      (disk : t.disk = s.disk) (phase : t.phase = Function.update s.phase p (.releasing i))
      (task : s.Took t p (.brelse b)) : BufMove s t (.internal p)
  | drop {p : P} {i : Fin nbuf} (leaves : s.phase p = .releasing i)
      (cache : t.cache = s.cache.brelse i) (disk : t.disk = s.disk)
      (phase : t.phase = Function.update s.phase p .running)
      (task : s.Kept t p) : BufMove s t (.internal p)

namespace BufState

/-- A call only takes itself off the round of `commit`. -/
theorem Calls.same {p : P} {c : BufCall} (call : s.Calls p c t) :
    s.phase p = .running ∧ t.cache = s.cache ∧ t.disk = s.disk ∧ t.phase = s.phase := by
  cases call with
  | user running free user => exact ⟨running, rfl, rfl, rfl⟩
  | commit running busy task => exact ⟨running, rfl, rfl, setProc_running running rfl⟩

theorem Calls.took {p : P} {c : BufCall} (call : s.Calls p c t) : s.Took t p c := by
  cases call with
  | user running free user => exact ⟨rfl, fun _ => rfl, fun busy => absurd free busy⟩
  | commit running busy task =>
      unfold Took
      simp only [setProc, Function.update_self, busy, task]
      exact ⟨trivial, nofun, fun _ => trivial⟩

theorem setPhase_proc (s : BufState P) (p : P) (ph : BufPhase) :
    (s.setPhase p ph).proc p = { s.proc p with phase := ph } := by
  simp only [setPhase, setProc, Function.update_self]

theorem Took.setPhase {p : P} {c : BufCall} (took : s.Took t p c) (ph : BufPhase) :
    s.Took (t.setPhase p ph) p c := by
  unfold Took
  rw [setPhase_proc]
  exact took

theorem kept_setPhase {p : P} (same : t.proc = s.proc) (ph : BufPhase) :
    s.Kept (t.setPhase p ph) p := by
  unfold Kept
  rw [setPhase_proc, same]
  exact ⟨rfl, rfl⟩

/-- What `iderw` does to a buffer that is to be read, or to be written. -/
theorem iderw_read {p : P} {i : Fin nbuf} (clean : (s.buf i).dirty = false)
    (ran : s.iderw p i = .ok t) : (s.buf i).dev = rootdev ∧
      t = s.set i { s.buf i with data := s.disk (s.buf i).blockno, valid := true } := by
  unfold iderw at ran
  dsimp only at ran
  rw [clean] at ran
  split at ran
  · cases ran
  · split at ran
    · cases ran
    · split at ran
      · cases ran
      · next device =>
          split at ran
          · cases ran
          · cases ran
            exact ⟨not_not.mp device, by dsimp only; rw [clean]⟩

theorem iderw_write {p : P} {i : Fin nbuf} (dirty : (s.buf i).dirty = true)
    (ran : s.iderw p i = .ok t) :
    t = { s.set i { s.buf i with dirty := false, valid := true } with
      disk := Function.update s.disk (s.buf i).blockno (s.buf i).data } := by
  unfold iderw at ran
  dsimp only at ran
  rw [dirty] at ran
  split at ran
  · cases ran
  · split at ran
    · cases ran
    · split at ran
      · cases ran
      · split at ran
        · cases ran
        · cases ran
          rfl

end BufState

omit [DecidableEq P] in
/-- The scans of `bget` come to an end. -/
theorem bget_ends (listed : s.Listed) (dev b : Nat) : s.cache.bget dev b ≠ .error .endless := by
  obtain ⟨order, perm, circular⟩ := listed
  have length : order.length < nbuf + 1 := by
    rw [perm.length_eq, List.length_finRange]
    exact Nat.lt_succ_self _
  unfold Bcache.bget
  rw [circular.path.scan_next length, circular.path.scan_prev length]
  split
  · next impossible => cases impossible
  · exact nofun
  · split
    · next impossible => cases impossible
    · exact nofun
    · exact nofun

omit [DecidableEq P] in
/-- `bget` finds the buffer of the block, or recycles one that is not used. -/
theorem bget_cases (listed : s.Listed) {dev b : Nat} {i : Fin nbuf} {c : Bcache P}
    (got : s.cache.bget dev b = .ok (i, c)) :
    (((s.buf i).dev = dev ∧ (s.buf i).blockno = b) ∧
      c = s.cache.set i { s.buf i with refcnt := (s.buf i).refcnt + 1 }) ∨
    ((s.buf i).refcnt = 0 ∧ (s.buf i).dirty = false ∧
      (∀ j, ¬ ((s.buf j).dev = dev ∧ (s.buf j).blockno = b)) ∧
      c = s.cache.set i { s.buf i with
        dev := dev, blockno := b, valid := false, dirty := false, refcnt := 1 }) := by
  obtain ⟨order, perm, circular⟩ := listed
  have length : order.length < nbuf + 1 := by
    rw [perm.length_eq, List.length_finRange]
    exact Nat.lt_succ_self _
  have every (j : Fin nbuf) : j ∈ order := perm.mem_iff.mpr (List.mem_finRange j)
  unfold Bcache.bget at got
  rw [circular.path.scan_next length, circular.path.scan_prev length] at got
  cases first : order.find? (fun i => (s.cache.buf i).dev == dev && (s.cache.buf i).blockno == b) with
  | some j =>
      rw [first] at got
      cases got
      have passes := List.find?_some first
      simp only [Bool.and_eq_true, beq_iff_eq] at passes
      exact .inl ⟨passes, rfl⟩
  | none =>
      rw [first] at got
      cases second : order.reverse.find? (fun i =>
          (s.cache.buf i).refcnt == 0 && !(s.cache.buf i).dirty) with
      | none =>
          rw [second] at got
          cases got
      | some j =>
          rw [second] at got
          cases got
          have passes := List.find?_some second
          simp only [Bool.and_eq_true, beq_iff_eq, Bool.not_eq_true'] at passes
          refine .inr ⟨passes.1, passes.2, fun j same => ?_, rfl⟩
          have fails := List.find?_eq_none.mp first j (every j)
          simp only [Bool.and_eq_true, beq_iff_eq] at fails
          exact fails same

theorem saves_writeLogRound (start tail b : Nat) : Saves (writeLogRound start tail b) := by
  simp [writeLogRound, Saves, BufCall.changes]

theorem saves_installRound (start tail b : Nat) : Saves (installRound start tail b) := by
  simp [installRound, Saves, BufCall.changes]

theorem saves_writeHeadCalls (start : Nat) : Saves (writeHeadCalls start) := by
  simp [writeHeadCalls, Saves, BufCall.changes]

/-- The start of a round of `commit`. -/
theorem commitRound_spec {p : P} (pc : CommitPc) (running : s.phase p = .running) :
    (s.commitRound p pc).cache = s.cache ∧ (s.commitRound p pc).disk = s.disk ∧
      (s.commitRound p pc).phase = s.phase ∧ Saves ((s.commitRound p pc).proc p).task := by
  have set (u : BufState P) (same : u.phase = s.phase) {calls : List BufCall}
      (next : Option CommitPc) (saves : Saves calls) :
      (u.setProc p ⟨.running, calls, next⟩).phase = s.phase ∧
        Saves ((u.setProc p ⟨.running, calls, next⟩).proc p).task := by
    refine ⟨?_, ?_⟩
    · rw [BufState.setProc_phase, same, ← running]
      exact Function.update_eq_self p s.phase
    · simp only [BufState.setProc, Function.update_self]
      exact saves
  cases pc with
  | enter => exact ⟨rfl, rfl, set s rfl _ trivial⟩
  | writeLog tail =>
      unfold BufState.commitRound
      dsimp only
      split
      · exact ⟨rfl, rfl, set s rfl _ (saves_writeLogRound _ _ _)⟩
      · exact ⟨rfl, rfl, set s rfl _ trivial⟩
  | writeHead => exact ⟨rfl, rfl, set s rfl _ (saves_writeHeadCalls _)⟩
  | install tail =>
      unfold BufState.commitRound
      dsimp only
      split
      · exact ⟨rfl, rfl, set s rfl _ (saves_installRound _ _ _)⟩
      · exact ⟨rfl, rfl, set s rfl _ trivial⟩
  | clear => exact ⟨rfl, rfl, set { s with lh := [] } rfl _ trivial⟩
  | eraseHead => exact ⟨rfl, rfl, set s rfl _ (saves_writeHeadCalls _)⟩
  | leave => exact ⟨rfl, rfl, set { s with committing := false } rfl _ trivial⟩

/-- Every step is one of the moves. -/
theorem BufStep.move (step : BufStep s label t) (listed : s.Listed)
    (dirty : ∀ i, (s.buf i).dirty = true → (s.buf i).valid = true) : BufMove s t label := by
  cases step with
  | @bget t' p dev b i c call got =>
      obtain ⟨running, cache, disk, phase⟩ := call.same
      rw [cache] at got
      have moved : ({ t' with cache := c }.setPhase p (.waiting dev b i)).phase =
          Function.update s.phase p (.waiting dev b i) := by
        rw [BufState.setPhase_phase, ← phase]
        rfl
      rcases bget_cases listed got with ⟨hit, rfl⟩ | ⟨unused, clean, missing, rfl⟩
      · exact .found running hit rfl disk moved (call.took.setPhase (t := { t' with cache := _ }) _)
      · exact .recycle running unused clean missing rfl disk moved
          (call.took.setPhase (t := { t' with cache := _ }) _)
  | acquiresleep waits free =>
      exact .acquire waits free rfl rfl (BufState.setPhase_phase _ _ _)
        (BufState.kept_setPhase rfl _)
  | @bread t' p dev b i fills filled =>
      unfold BufState.fill at filled
      split at filled
      · next valid =>
          cases filled
          exact .cached fills valid rfl rfl (BufState.setPhase_phase _ _ _)
            (BufState.kept_setPhase rfl _)
      · next invalid =>
          have invalid : (s.buf i).valid = false := Bool.eq_false_iff.mpr invalid
          have clean : (s.buf i).dirty = false := by
            by_contra marked
            have valid := dirty i (Bool.eq_true_of_not_eq_false marked)
            rw [invalid] at valid
            cases valid
          obtain ⟨device, rfl⟩ := BufState.iderw_read clean filled
          rw [BufState.set_buf_self]
          exact .read fills invalid device rfl rfl (BufState.setPhase_phase _ _ _)
            (BufState.kept_setPhase rfl _)
  | @modify t' p b data i call held =>
      obtain ⟨running, cache, disk, phase⟩ := call.same
      exact .change running held (BufState.set_cache cache i fun buf =>
        { buf with data := data, changed := true }) disk phase rfl call.took
  | @copy t' p dst src i j call held source =>
      obtain ⟨running, cache, disk, phase⟩ := call.same
      exact .change running held (BufState.set_cache cache i fun buf =>
        { buf with data := (t'.buf j).data, changed := true }) disk phase rfl call.took
  | @head t' p b i call held =>
      obtain ⟨running, cache, disk, phase⟩ := call.same
      exact .change running held (BufState.set_cache cache i fun buf =>
        { buf with data := putHead buf.data t'.lh, changed := true }) disk phase rfl call.took
  | @logCheck t' p b i call held room =>
      obtain ⟨running, cache, disk, phase⟩ := call.same
      refine .check running held cache disk ?_ (call.took.setPhase _)
      rw [BufState.setPhase_phase, phase]
  | @logWrite t' p i logs wrote =>
      have after : t'.cache = s.cache.set i { s.buf i with dirty := true } ∧ t'.disk = s.disk ∧
          t'.proc = s.proc := by
        unfold BufState.logWrite at wrote
        dsimp only at wrote
        split at wrote
        · cases wrote
          exact ⟨rfl, rfl, rfl⟩
        · split at wrote
          · cases wrote
            exact ⟨rfl, rfl, rfl⟩
          · cases wrote
      obtain ⟨cache, disk, proc⟩ := after
      refine .log logs ?_ disk ?_ (BufState.kept_setPhase proc _)
      · change (t'.set i _).cache = _
        rw [BufState.set, BufState.buf, cache]
        simp only [Bcache.set, Function.update_self, Function.update_idem]
      · rw [BufState.setPhase_phase]
        change Function.update t'.phase p .running = _
        unfold BufState.phase
        rw [proc]
  | @bwrite t' u p b i call held wrote =>
      obtain ⟨running, cache, disk, phase⟩ := call.same
      have buf : t'.buf i = s.buf i := congrFun (congrArg Bcache.buf cache) i
      unfold BufState.bwrite at wrote
      split at wrote
      · cases wrote
      · have dirty : ((t'.set i { t'.buf i with dirty := true }).buf i).dirty = true := by
          rw [BufState.set_buf_self]
        have after := BufState.iderw_write dirty wrote
        rw [BufState.set_buf_self] at after
        subst after
        refine .write running held ?_ ?_ phase call.took
        · simp only [Bcache.set, BufState.buf, BufState.set, Function.update_self,
            Function.update_idem, cache]
        · change Function.update t'.disk (t'.buf i).blockno (t'.buf i).data = _
          rw [disk, buf, held.blockno]
  | @release t' u p b i call held saved released =>
      obtain ⟨running, cache, disk, phase⟩ := call.same
      unfold BufState.release at released
      split at released
      · cases released
      · cases released
        refine .release running held saved ?_ disk ?_ (call.took.setPhase (t := t'.set i _) _)
        · exact BufState.set_cache cache i fun buf => { buf with holder := none }
        · rw [BufState.setPhase_phase, ← phase]
          rfl
  | brelse leaves =>
      exact .drop leaves rfl rfl (BufState.setPhase_phase _ _ _) (BufState.kept_setPhase rfl _)
  | beginOp running idle free room => exact .quiet rfl rfl rfl (.inl ⟨rfl, rfl⟩)
  | endOp running idle free more => exact .quiet rfl rfl rfl (.inl ⟨rfl, rfl⟩)
  | endLast running idle free last left =>
      refine .quiet rfl rfl (BufState.setProc_running running rfl) (.inr ⟨.inl left, ?_⟩)
      simp only [BufState.setProc, Function.update_self]
      trivial
  | @commit p pc running busy done =>
      obtain ⟨cache, disk, phase, saves⟩ := commitRound_spec pc running
      exact .quiet cache disk phase (.inr ⟨.inr ⟨by rw [busy]; exact Option.some_ne_none pc, done⟩,
        saves⟩)

/-! ## References -/

/-- What a process in a call counts for in the references to a buffer. -/
def BufPhase.refers (i : Fin nbuf) : BufPhase → Nat
  | .waiting _ _ j => if j = i then 1 else 0
  | .releasing j => if j = i then 1 else 0
  | _ => 0

/-- What the process that has locked a buffer counts for. -/
def Buf.locked (b : Buf P) : Nat := if b.holder = none then 0 else 1

omit [DecidableEq P] in
theorem Buf.locked_some {b : Buf P} {p : P} (held : b.holder = some p) : b.locked = 1 := by
  rw [Buf.locked, held]
  rfl

omit [DecidableEq P] in
theorem Buf.locked_none {b : Buf P} (free : b.holder = none) : b.locked = 0 := by
  rw [Buf.locked, free]
  rfl

section References

variable [Fintype P]

/--
`refcnt` counts the processes in `bget` and in `brelse` and the one that has
the buffer locked.  Outside `bread`, a locked buffer is valid.
-/
structure RefInv (s : BufState P) : Prop where
  count : ∀ i, (s.buf i).refcnt = (∑ p, (s.phase p).refers i) + (s.buf i).locked
  filling : ∀ p dev b i, s.phase p = .filling dev b i → (s.buf i).holder = some p
  logging : ∀ p i, s.phase p = .logging i → (s.buf i).holder = some p
  held : ∀ i p, (s.buf i).holder = some p →
    (s.buf i).valid = true ∨ ∃ dev b, s.phase p = .filling dev b i

theorem RefInv.count_of (refs : RefInv s) {p : P} {phase : BufPhase}
    (moved : t.phase = Function.update s.phase p phase)
    (balance : ∀ i, (t.buf i).refcnt + (s.phase p).refers i + (s.buf i).locked =
      (s.buf i).refcnt + phase.refers i + (t.buf i).locked) (i : Fin nbuf) :
    (t.buf i).refcnt = (∑ q, (t.phase q).refers i) + (t.buf i).locked := by
  have sums := sum_holding_update (fun _ => BufPhase.refers i) s.phase p phase
  have before := refs.count i
  have change := balance i
  rw [moved]
  omega

omit [DecidableEq P] in
/-- Nobody has locked a buffer without references. -/
theorem RefInv.unused (refs : RefInv s) {i : Fin nbuf} (none : (s.buf i).refcnt = 0) :
    (s.buf i).holder = Option.none := by
  have count := refs.count i
  cases held : (s.buf i).holder with
  | none => rfl
  | some p =>
      rw [none, Buf.locked_some held] at count
      omega

/-- A move of process `p` that changes buffer `i` only. -/
theorem RefInv.moves (refs : RefInv s) {p : P} {phase : BufPhase} {i : Fin nbuf} {b : Buf P}
    (here : t.buf i = b) (others : ∀ j, j ≠ i → t.buf j = s.buf j)
    (moved : t.phase = Function.update s.phase p phase)
    (balance : b.refcnt + (s.phase p).refers i + (s.buf i).locked =
      (s.buf i).refcnt + phase.refers i + b.locked)
    (only : ∀ j, j ≠ i → (s.phase p).refers j = 0 ∧ phase.refers j = 0 ∧
      ∀ dev c, s.phase p ≠ .filling dev c j)
    (keeps : ∀ q, q ≠ p → (s.buf i).holder = some q → b.holder = some q)
    (enters : ∀ j, (∃ dev c, phase = .filling dev c j) ∨ phase = .logging j →
      j = i ∧ b.holder = some p)
    (valid : ∀ q, b.holder = some q → b.valid = true ∨ ∃ dev c, t.phase q = .filling dev c i) :
    RefInv t := by
  subst here
  have holder (q : P) (j : Fin nbuf) (apart : q ≠ p) (held : (s.buf j).holder = some q) :
      (t.buf j).holder = some q := by
    by_cases same : j = i
    · rw [same] at held ⊢
      exact keeps q apart held
    · rw [others j same]
      exact held
  refine ⟨refs.count_of moved fun j => ?_, fun q dev c j fills => ?_, fun q j logs => ?_,
    fun j q held => ?_⟩
  · by_cases same : j = i
    · rw [same]
      exact balance
    · obtain ⟨before, after, _⟩ := only j same
      rw [others j same, before, after]
  · by_cases self : q = p
    · rw [moved, self, Function.update_self] at fills
      obtain ⟨rfl, held⟩ := enters j (.inl ⟨dev, c, fills⟩)
      rw [self]
      exact held
    · rw [moved, Function.update_of_ne self] at fills
      exact holder q j self (refs.filling q dev c j fills)
  · by_cases self : q = p
    · rw [moved, self, Function.update_self] at logs
      obtain ⟨rfl, held⟩ := enters j (.inr logs)
      rw [self]
      exact held
    · rw [moved, Function.update_of_ne self] at logs
      exact holder q j self (refs.logging q j logs)
  · by_cases same : j = i
    · rw [same] at held ⊢
      exact valid q held
    · rw [others j same] at held ⊢
      refine (refs.held j q held).imp_right fun ⟨dev, c, fills⟩ => ?_
      have apart : q ≠ p := by
        rintro rfl
        exact (only j same).2.2 dev c fills
      rw [moved, Function.update_of_ne apart]
      exact ⟨dev, c, fills⟩

omit [DecidableEq P] [Fintype P] in
theorem buf_of_set {i : Fin nbuf} {b : Buf P} (cache : t.cache = s.cache.set i b) :
    t.buf i = b ∧ ∀ j, j ≠ i → t.buf j = s.buf j := by
  unfold BufState.buf
  rw [cache]
  exact ⟨Function.update_self _ _ _, fun j apart => Function.update_of_ne apart _ _⟩

omit [DecidableEq P] [Fintype P] in
theorem buf_of_brelse {i : Fin nbuf} (cache : t.cache = s.cache.brelse i) :
    t.buf i = { s.buf i with refcnt := (s.buf i).refcnt - 1 } ∧
      ∀ j, j ≠ i → t.buf j = s.buf j := by
  have buf : t.cache.buf = Function.update s.cache.buf i
      { s.buf i with refcnt := (s.buf i).refcnt - 1 } := by
    rw [cache, Bcache.brelse]
    dsimp only
    split
    · rfl
    · rfl
  unfold BufState.buf
  rw [buf]
  exact ⟨Function.update_self _ _ _, fun j apart => Function.update_of_ne apart _ _⟩

theorem refers_waiting_self (dev b : Nat) (i : Fin nbuf) :
    (BufPhase.waiting dev b i).refers i = 1 :=
  if_pos rfl

theorem refers_releasing_self (i : Fin nbuf) : (BufPhase.releasing i).refers i = 1 := if_pos rfl

theorem refers_waiting {dev b : Nat} {i j : Fin nbuf} (apart : j ≠ i) :
    (BufPhase.waiting dev b i).refers j = 0 :=
  if_neg (Ne.symm apart)

theorem refers_releasing {i j : Fin nbuf} (apart : j ≠ i) : (BufPhase.releasing i).refers j = 0 :=
  if_neg (Ne.symm apart)

theorem refers_running (i : Fin nbuf) : BufPhase.running.refers i = 0 := rfl

theorem refers_filling (dev b : Nat) (i j : Fin nbuf) : (BufPhase.filling dev b i).refers j = 0 := rfl

theorem refers_logging (i j : Fin nbuf) : (BufPhase.logging i).refers j = 0 := rfl

omit [Fintype P] in
theorem update_running {p : P} (running : s.phase p = .running) :
    Function.update s.phase p .running = s.phase := by
  rw [← running, Function.update_eq_self]

/-- A locked buffer stays valid, or with the process that fills it. -/
theorem RefInv.still (refs : RefInv s) {p q : P} {phase : BufPhase} {i : Fin nbuf}
    (moved : t.phase = Function.update s.phase p phase)
    (other : ∀ dev b, s.phase p ≠ .filling dev b i) (held : (s.buf i).holder = some q) :
    (s.buf i).valid = true ∨ ∃ dev b, t.phase q = .filling dev b i := by
  refine (refs.held i q held).imp_right fun ⟨dev, b, fills⟩ => ?_
  have apart : q ≠ p := by
    rintro rfl
    exact other dev b fills
  rw [moved, Function.update_of_ne apart]
  exact ⟨dev, b, fills⟩

section Moves

variable {p : P} {i : Fin nbuf}

omit [DecidableEq P] in
theorem RefInv.quiet (refs : RefInv s) (cache : t.cache = s.cache) (phase : t.phase = s.phase) :
    RefInv t := by
  have buf : t.buf = s.buf := congrArg Bcache.buf cache
  refine ⟨?_, ?_, ?_, ?_⟩
  · rw [buf, phase]
    exact refs.count
  · rw [buf, phase]
    exact refs.filling
  · rw [buf, phase]
    exact refs.logging
  · rw [buf, phase]
    exact refs.held

theorem RefInv.found (refs : RefInv s) {dev b : Nat} (running : s.phase p = .running)
    (cache : t.cache = s.cache.set i { s.buf i with refcnt := (s.buf i).refcnt + 1 })
    (phase : t.phase = Function.update s.phase p (.waiting dev b i)) : RefInv t := by
  obtain ⟨here, others⟩ := buf_of_set cache
  refine refs.moves here others phase ?_ (fun j apart => ?_) (fun q _ held => held)
    (fun j enters => ?_) fun q held => refs.still phase (by rw [running]; nofun) held
  · rw [running, refers_running, refers_waiting_self]
    rfl
  · rw [running]
    exact ⟨rfl, refers_waiting apart, nofun⟩
  · simp at enters

theorem RefInv.recycle (refs : RefInv s) {dev b : Nat} (running : s.phase p = .running)
    (unused : (s.buf i).refcnt = 0)
    (cache : t.cache = s.cache.set i { s.buf i with
      dev := dev, blockno := b, valid := false, dirty := false, refcnt := 1 })
    (phase : t.phase = Function.update s.phase p (.waiting dev b i)) : RefInv t := by
  obtain ⟨here, others⟩ := buf_of_set cache
  have free := refs.unused unused
  refine refs.moves here others phase ?_ (fun j apart => ?_) (fun q _ held => held)
    (fun j enters => ?_) fun q held => ?_
  · rw [running, refers_running, refers_waiting_self, unused]
    rfl
  · rw [running]
    exact ⟨rfl, refers_waiting apart, nofun⟩
  · simp at enters
  · rw [free] at held
    cases held

theorem RefInv.acquire (refs : RefInv s) {dev b : Nat} (waits : s.phase p = .waiting dev b i)
    (free : (s.buf i).holder = none)
    (cache : t.cache = s.cache.set i { s.buf i with holder := some p })
    (phase : t.phase = Function.update s.phase p (.filling dev b i)) : RefInv t := by
  obtain ⟨here, others⟩ := buf_of_set cache
  refine refs.moves here others phase ?_ (fun j apart => ?_) (fun q _ held => ?_)
    (fun j enters => ?_) fun q held => ?_
  · rw [waits, refers_waiting_self, refers_filling, Buf.locked_none free]
    rfl
  · rw [waits]
    exact ⟨refers_waiting apart, rfl, nofun⟩
  · rw [free] at held
    cases held
  · rcases enters with ⟨_, _, fills⟩ | logs
    · cases fills
      exact ⟨rfl, rfl⟩
    · cases logs
  · cases held
    right
    rw [phase, Function.update_self]
    exact ⟨dev, b, rfl⟩

/-- The end of `bread`, with a buffer that is valid then. -/
theorem RefInv.filled (refs : RefInv s) {dev b : Nat} {new : Buf P}
    (fills : s.phase p = .filling dev b i) (here : t.buf i = new)
    (others : ∀ j, j ≠ i → t.buf j = s.buf j) (refcnt : new.refcnt = (s.buf i).refcnt)
    (holder : new.holder = (s.buf i).holder) (valid : new.valid = true)
    (phase : t.phase = Function.update s.phase p .running) : RefInv t := by
  refine refs.moves here others phase ?_ (fun j apart => ?_) (fun q _ held => ?_)
    (fun j enters => ?_) fun q held => .inl valid
  · rw [fills, refcnt, Buf.locked, Buf.locked, holder]
    rfl
  · rw [fills]
    refine ⟨rfl, rfl, fun _ _ same => apart ?_⟩
    cases same
    rfl
  · rw [holder]
    exact held
  · simp at enters

theorem RefInv.change (refs : RefInv s) {data : Block} (running : s.phase p = .running)
    (cache : t.cache = s.cache.set i { s.buf i with data := data, changed := true })
    (phase : t.phase = s.phase) : RefInv t := by
  obtain ⟨here, others⟩ := buf_of_set cache
  have phase := phase.trans (update_running running).symm
  refine refs.moves here others phase ?_ (fun j apart => ?_) (fun q _ held => held)
    (fun j enters => ?_) fun q held => refs.still phase (by rw [running]; nofun) held
  · rw [running]
    rfl
  · rw [running]
    exact ⟨rfl, rfl, nofun⟩
  · simp at enters

theorem RefInv.check (refs : RefInv s) {b : Nat} (running : s.phase p = .running)
    (held : s.Holds p b i) (cache : t.cache = s.cache)
    (phase : t.phase = Function.update s.phase p (.logging i)) : RefInv t := by
  have buf : t.buf = s.buf := congrArg Bcache.buf cache
  refine refs.moves (congrFun buf i) (fun j _ => congrFun buf j) phase ?_ (fun j apart => ?_)
    (fun q _ held => held) (fun j enters => ?_)
    fun q held => refs.still phase (by rw [running]; nofun) held
  · rw [running]
    rfl
  · rw [running]
    exact ⟨rfl, rfl, nofun⟩
  · rcases enters with ⟨_, _, fills⟩ | logs
    · cases fills
    · cases logs
      exact ⟨rfl, held.holder⟩

theorem RefInv.log (refs : RefInv s) (logs : s.phase p = .logging i)
    (cache : t.cache = s.cache.set i { s.buf i with dirty := true, changed := false })
    (phase : t.phase = Function.update s.phase p .running) : RefInv t := by
  obtain ⟨here, others⟩ := buf_of_set cache
  refine refs.moves here others phase ?_ (fun j apart => ?_) (fun q _ held => held)
    (fun j enters => ?_) fun q held => refs.still phase (by rw [logs]; nofun) held
  · rw [logs]
    rfl
  · rw [logs]
    exact ⟨rfl, rfl, nofun⟩
  · simp at enters

theorem RefInv.write (refs : RefInv s) (running : s.phase p = .running)
    (cache : t.cache = s.cache.set i { s.buf i with
      dirty := false, valid := true, changed := false })
    (phase : t.phase = s.phase) : RefInv t := by
  obtain ⟨here, others⟩ := buf_of_set cache
  have phase := phase.trans (update_running running).symm
  refine refs.moves here others phase ?_ (fun j apart => ?_) (fun q _ held => held)
    (fun j enters => ?_) fun q held => .inl rfl
  · rw [running]
    rfl
  · rw [running]
    exact ⟨rfl, rfl, nofun⟩
  · simp at enters

theorem RefInv.release (refs : RefInv s) {b : Nat} (running : s.phase p = .running)
    (held : s.Holds p b i) (cache : t.cache = s.cache.set i { s.buf i with holder := none })
    (phase : t.phase = Function.update s.phase p (.releasing i)) : RefInv t := by
  obtain ⟨here, others⟩ := buf_of_set cache
  refine refs.moves here others phase ?_ (fun j apart => ?_) (fun q apart other => ?_)
    (fun j enters => ?_) fun q other => ?_
  · rw [running, refers_running, refers_releasing_self, Buf.locked_some held.holder]
    rfl
  · rw [running]
    exact ⟨rfl, refers_releasing apart, nofun⟩
  · rw [held.holder] at other
    exact absurd (Option.some.inj other).symm apart
  · simp at enters
  · cases other

theorem RefInv.drop (refs : RefInv s) (leaves : s.phase p = .releasing i)
    (cache : t.cache = s.cache.brelse i) (phase : t.phase = Function.update s.phase p .running) :
    RefInv t := by
  obtain ⟨here, others⟩ := buf_of_brelse cache
  have counted : 1 ≤ (s.buf i).refcnt := by
    have sums := sum_holding_update (fun _ => BufPhase.refers i) s.phase p .running
    rw [leaves, refers_releasing_self, refers_running] at sums
    rw [refs.count i]
    omega
  refine refs.moves here others phase ?_ (fun j apart => ?_) (fun q _ held => held)
    (fun j enters => ?_) fun q held => refs.still phase (by rw [leaves]; nofun) held
  · rw [leaves, refers_running, refers_releasing_self]
    change (s.buf i).refcnt - 1 + 1 + (s.buf i).locked = (s.buf i).refcnt + 0 + (s.buf i).locked
    omega
  · rw [leaves]
    exact ⟨refers_releasing apart, rfl, nofun⟩
  · simp at enters

end Moves

theorem RefInv.move (refs : RefInv s) (move : BufMove s t label) : RefInv t := by
  cases move with
  | quiet cache disk phase => exact refs.quiet cache phase
  | found running hit cache disk phase => exact refs.found running cache phase
  | recycle running unused clean missing cache disk phase =>
      exact refs.recycle running unused cache phase
  | acquire waits free cache disk phase => exact refs.acquire waits free cache phase
  | cached fills valid cache disk phase =>
      have buf : t.buf = s.buf := congrArg Bcache.buf cache
      exact refs.filled fills (congrFun buf _) (fun j _ => congrFun buf j) rfl rfl valid phase
  | read fills invalid device cache disk phase =>
      obtain ⟨here, others⟩ := buf_of_set cache
      exact refs.filled fills here others rfl rfl rfl phase
  | change running held cache disk phase => exact refs.change running cache phase
  | check running held cache disk phase => exact refs.check running held cache phase
  | log logs cache disk phase => exact refs.log logs cache phase
  | write running held cache disk phase => exact refs.write running cache phase
  | release running held saved cache disk phase => exact refs.release running held cache phase
  | drop leaves cache disk phase => exact refs.drop leaves cache phase

/-! ## The block that a process has asked for -/

/-- A process that waits for a buffer counts for its references. -/
theorem RefInv.waiting (refs : RefInv s) {p : P} {dev b : Nat} {i : Fin nbuf}
    (waits : s.phase p = .waiting dev b i) : (s.buf i).refcnt ≠ 0 := by
  have sums := sum_holding_update (fun _ => BufPhase.refers i) s.phase p .running
  rw [waits, refers_waiting_self, refers_running] at sums
  rw [refs.count i]
  omega

omit [DecidableEq P] in
theorem RefInv.fills (refs : RefInv s) {p : P} {dev b : Nat} {i : Fin nbuf}
    (fills : s.phase p = .filling dev b i) : (s.buf i).refcnt ≠ 0 := by
  intro unused
  have held := refs.filling p dev b i fills
  rw [refs.unused unused] at held
  cases held

/-- The process is in `bread` of a block and has buffer `i` for it. -/
def BufPhase.Asks (dev b : Nat) (i : Fin nbuf) (ph : BufPhase) : Prop :=
  ph = .waiting dev b i ∨ ph = .filling dev b i

/-- A buffer that a process has got in `bget` is the buffer of the block it has asked for. -/
def Asked (s : BufState P) : Prop :=
  ∀ p dev b i, (s.phase p).Asks dev b i → (s.buf i).dev = dev ∧ (s.buf i).blockno = b

omit [Fintype P] in
/-- A buffer in use stays the buffer of its block. -/
theorem BufMove.identity (move : BufMove s t label) {j : Fin nbuf} (used : (s.buf j).refcnt ≠ 0) :
    (t.buf j).dev = (s.buf j).dev ∧ (t.buf j).blockno = (s.buf j).blockno := by
  have keep (buf : t.buf = s.buf) :
      (t.buf j).dev = (s.buf j).dev ∧ (t.buf j).blockno = (s.buf j).blockno := by
    rw [buf]
    exact ⟨rfl, rfl⟩
  have store {i : Fin nbuf} {b : Buf P} (buffers : t.buf i = b ∧ ∀ j, j ≠ i → t.buf j = s.buf j)
      (same : b.dev = (s.buf i).dev ∧ b.blockno = (s.buf i).blockno) :
      (t.buf j).dev = (s.buf j).dev ∧ (t.buf j).blockno = (s.buf j).blockno := by
    by_cases self : j = i
    · rw [self, buffers.1]
      exact same
    · rw [buffers.2 j self]
      exact ⟨rfl, rfl⟩
  cases move with
  | quiet cache disk phase => exact keep (congrArg Bcache.buf cache)
  | found running hit cache disk phase => exact store (buf_of_set cache) ⟨rfl, rfl⟩
  | @recycle p i dev b running unused clean missing cache disk phase =>
      have apart : j ≠ i := by
        rintro rfl
        exact used unused
      rw [(buf_of_set cache).2 j apart]
      exact ⟨rfl, rfl⟩
  | acquire waits free cache disk phase => exact store (buf_of_set cache) ⟨rfl, rfl⟩
  | cached fills valid cache disk phase => exact keep (congrArg Bcache.buf cache)
  | read fills invalid device cache disk phase => exact store (buf_of_set cache) ⟨rfl, rfl⟩
  | change running held cache disk phase => exact store (buf_of_set cache) ⟨rfl, rfl⟩
  | check running held cache disk phase => exact keep (congrArg Bcache.buf cache)
  | log logs cache disk phase => exact store (buf_of_set cache) ⟨rfl, rfl⟩
  | write running held cache disk phase => exact store (buf_of_set cache) ⟨rfl, rfl⟩
  | release running held saved cache disk phase => exact store (buf_of_set cache) ⟨rfl, rfl⟩
  | drop leaves cache disk phase => exact store (buf_of_brelse cache) ⟨rfl, rfl⟩

omit [Fintype P] in
/-- A process asks for what it has asked for before, or for the block of the buffer it gets. -/
theorem BufMove.asks (move : BufMove s t label) {q : P} {dev b : Nat} {j : Fin nbuf}
    (asks : (t.phase q).Asks dev b j) : (s.phase q).Asks dev b j ∨
      (t.buf j).dev = dev ∧ (t.buf j).blockno = b := by
  have stays {p : P} {ph : BufPhase} (phase : t.phase = Function.update s.phase p ph)
      (other : ¬ ph.Asks dev b j) : (s.phase q).Asks dev b j := by
    rw [phase] at asks
    by_cases self : q = p
    · rw [self, Function.update_self] at asks
      exact absurd asks other
    · rw [Function.update_of_ne self] at asks
      exact asks
  cases move with
  | quiet cache disk phase => exact .inl (by rw [← phase]; exact asks)
  | @found p i dev' b' running hit cache disk phase =>
      obtain ⟨here, _⟩ := buf_of_set cache
      by_cases same : (BufPhase.waiting dev' b' i).Asks dev b j
      · rcases same with waits | fills
        · cases waits
          exact .inr (by rw [here]; exact hit)
        · cases fills
      · exact .inl (stays phase same)
  | @recycle p i dev' b' running unused clean missing cache disk phase =>
      obtain ⟨here, _⟩ := buf_of_set cache
      by_cases same : (BufPhase.waiting dev' b' i).Asks dev b j
      · rcases same with waits | fills
        · cases waits
          exact .inr (by rw [here]; exact ⟨rfl, rfl⟩)
        · cases fills
      · exact .inl (stays phase same)
  | @acquire p dev' b' i waits free cache disk phase =>
      by_cases self : q = p
      · rw [phase, self, Function.update_self] at asks
        rcases asks with impossible | fills
        · cases impossible
        · cases fills
          exact .inl (by rw [self]; exact .inl waits)
      · rw [phase, Function.update_of_ne self] at asks
        exact .inl asks
  | cached fills valid cache disk phase => exact .inl (stays phase (by simp [BufPhase.Asks]))
  | read fills invalid device cache disk phase => exact .inl (stays phase (by simp [BufPhase.Asks]))
  | change running held cache disk phase => exact .inl (by rw [← phase]; exact asks)
  | check running held cache disk phase => exact .inl (stays phase (by simp [BufPhase.Asks]))
  | log logs cache disk phase => exact .inl (stays phase (by simp [BufPhase.Asks]))
  | write running held cache disk phase => exact .inl (by rw [← phase]; exact asks)
  | release running held saved cache disk phase => exact .inl (stays phase (by simp [BufPhase.Asks]))
  | drop leaves cache disk phase => exact .inl (stays phase (by simp [BufPhase.Asks]))

theorem Asked.move (asked : Asked s) (refs : RefInv s) (move : BufMove s t label) : Asked t := by
  intro p dev b i asks
  rcases move.asks asks with before | got
  · have used : (s.buf i).refcnt ≠ 0 := before.elim refs.waiting refs.fills
    obtain ⟨same, block⟩ := move.identity used
    rw [same, block]
    exact asked p dev b i before
  · exact got

end References

/-! ## The list -/

omit [DecidableEq P] in
/-- A released buffer moves to the front of the list. -/
theorem Listed_brelse (listed : s.Listed) {i : Fin nbuf} (cache : t.cache = s.cache.brelse i) :
    t.Listed := by
  obtain ⟨order, perm, circular⟩ := listed
  unfold BufState.Listed
  rw [cache, Bcache.brelse]
  dsimp only
  split
  · obtain ⟨front, back, rfl⟩ := List.append_of_mem (perm.mem_iff.mpr (List.mem_finRange i))
    have fresh : i ∉ front ++ back := by
      have nodup := circular.nodup
      rw [List.nodup_middle] at nodup
      exact (List.nodup_cons.mp nodup).1
    exact ⟨i :: (front ++ back), List.perm_middle.symm.trans perm, circular.unlink.insert fresh⟩
  · exact ⟨order, perm, circular⟩

theorem BufMove.listed (move : BufMove s t label) (listed : s.Listed) : t.Listed := by
  have keep (links : t.cache.links = s.cache.links) : t.Listed := by
    unfold BufState.Listed
    rw [links]
    exact listed
  have store {i : Fin nbuf} {b : Buf P} (cache : t.cache = s.cache.set i b) : t.Listed :=
    keep (by rw [cache]; rfl)
  cases move with
  | quiet cache disk phase => exact keep (congrArg Bcache.links cache)
  | found running hit cache disk phase => exact store cache
  | recycle running unused clean missing cache disk phase => exact store cache
  | acquire waits free cache disk phase => exact store cache
  | cached fills valid cache disk phase => exact keep (congrArg Bcache.links cache)
  | read fills invalid device cache disk phase => exact store cache
  | change running held cache disk phase => exact store cache
  | check running held cache disk phase => exact keep (congrArg Bcache.links cache)
  | log logs cache disk phase => exact store cache
  | write running held cache disk phase => exact store cache
  | release running held saved cache disk phase => exact store cache
  | drop leaves cache disk phase => exact Listed_brelse listed cache

/-! ## What the buffers hold -/

/-- What has been stored last, after a step. -/
def BufLabel.update (stored : Disk) : BufLabel P → Disk
  | .stores _ b data => Function.update stored b data
  | _ => stored

/-- A block has one buffer, and the buffer or the disk holds what was stored last. -/
structure DataInv (stored : Disk) (s : BufState P) : Prop where
  unique : ∀ i j, (s.buf i).dev = rootdev → (s.buf j).dev = rootdev →
    (s.buf i).blockno = (s.buf j).blockno → i = j
  dirty : ∀ i, (s.buf i).dirty = true → (s.buf i).valid = true
  device : ∀ i, (s.buf i).valid = true → (s.buf i).dev = rootdev
  changed : ∀ i, (s.buf i).changed = true → (s.buf i).holder ≠ none ∧ (s.buf i).valid = true
  data : ∀ i, (s.buf i).valid = true → (s.buf i).changed = false →
    (s.buf i).data = stored (s.buf i).blockno
  behind : ∀ b, s.disk b ≠ stored b → ∃ i, (s.buf i).blockno = b ∧ (s.buf i).dirty = true

/-- Two buffers that hold the same. -/
structure Buf.Same (b c : Buf P) : Prop where
  valid : b.valid = c.valid
  dirty : b.dirty = c.dirty
  dev : b.dev = c.dev
  blockno : b.blockno = c.blockno
  data : b.data = c.data
  changed : b.changed = c.changed

omit [DecidableEq P] in
/-- Locks and references do not matter, as long as nobody unlocks a changed buffer. -/
theorem DataInv.same {stored : Disk} (inv : DataInv stored s) (disk : t.disk = s.disk)
    (same : ∀ i, (t.buf i).Same (s.buf i))
    (held : ∀ i, (s.buf i).changed = true → (t.buf i).holder ≠ none) : DataInv stored t := by
  refine ⟨fun i j first second block => ?_, fun i marked => ?_, fun i valid => ?_,
    fun i changed => ?_, fun i valid unchanged => ?_, fun b behind => ?_⟩
  · rw [(same i).dev] at first
    rw [(same j).dev] at second
    rw [(same i).blockno, (same j).blockno] at block
    exact inv.unique i j first second block
  · rw [(same i).dirty] at marked
    rw [(same i).valid]
    exact inv.dirty i marked
  · rw [(same i).valid] at valid
    rw [(same i).dev]
    exact inv.device i valid
  · rw [(same i).changed] at changed
    rw [(same i).valid]
    exact ⟨held i changed, (inv.changed i changed).2⟩
  · rw [(same i).valid] at valid
    rw [(same i).changed] at unchanged
    rw [(same i).data, (same i).blockno]
    exact inv.data i valid unchanged
  · rw [disk] at behind
    obtain ⟨i, block, marked⟩ := inv.behind b behind
    exact ⟨i, by rw [(same i).blockno]; exact block, by rw [(same i).dirty]; exact marked⟩

omit [DecidableEq P] in
/-- Buffer `i` gets a new content, and maybe the disk and what was stored last for its block. -/
theorem DataInv.put {stored stored' : Disk} (inv : DataInv stored s) {i : Fin nbuf} {b : Buf P}
    (here : t.buf i = b) (others : ∀ j, j ≠ i → t.buf j = s.buf j)
    (unique : b.dev = rootdev → ∀ j, j ≠ i → (s.buf j).dev = rootdev →
      (s.buf j).blockno ≠ b.blockno)
    (dirty : b.dirty = true → b.valid = true) (device : b.valid = true → b.dev = rootdev)
    (changed : b.changed = true → b.holder ≠ none ∧ b.valid = true)
    (data : b.valid = true → b.changed = false → b.data = stored' b.blockno)
    (elsewhere : ∀ j, j ≠ i → (s.buf j).valid = true →
      stored' (s.buf j).blockno = stored (s.buf j).blockno)
    (behind : ∀ c, t.disk c ≠ stored' c → b.blockno = c ∧ b.dirty = true ∨
      ∃ j, j ≠ i ∧ (s.buf j).blockno = c ∧ (s.buf j).dirty = true) : DataInv stored' t := by
  subst here
  refine ⟨fun j k first second block => ?_, fun j marked => ?_, fun j valid => ?_,
    fun j dirt => ?_, fun j valid unchanged => ?_, fun c missing => ?_⟩
  · by_cases left : j = i
    · by_cases right : k = i
      · rw [left, right]
      · rw [left] at first block
        rw [others k right] at second block
        exact absurd block.symm (unique first k right second)
    · rw [others j left] at first block
      by_cases right : k = i
      · rw [right] at second block
        exact absurd block (unique second j left first)
      · rw [others k right] at second block
        exact inv.unique j k first second block
  · by_cases self : j = i
    · rw [self] at marked ⊢
      exact dirty marked
    · rw [others j self] at marked ⊢
      exact inv.dirty j marked
  · by_cases self : j = i
    · rw [self] at valid ⊢
      exact device valid
    · rw [others j self] at valid ⊢
      exact inv.device j valid
  · by_cases self : j = i
    · rw [self] at dirt ⊢
      exact changed dirt
    · rw [others j self] at dirt ⊢
      exact inv.changed j dirt
  · by_cases self : j = i
    · rw [self] at valid unchanged ⊢
      exact data valid unchanged
    · rw [others j self] at valid unchanged ⊢
      rw [elsewhere j self valid]
      exact inv.data j valid unchanged
  · rcases behind c missing with ⟨block, marked⟩ | ⟨j, apart, block, marked⟩
    · exact ⟨i, block, marked⟩
    · exact ⟨j, by rw [others j apart]; exact block, by rw [others j apart]; exact marked⟩

omit [DecidableEq P] in
/-- A block that the disk does not have is in a dirty buffer, which may be `i`. -/
theorem DataInv.behind_or {stored : Disk} (inv : DataInv stored s) (i : Fin nbuf) {c : Nat}
    (missing : s.disk c ≠ stored c) : (s.buf i).blockno = c ∧ (s.buf i).dirty = true ∨
      ∃ j, j ≠ i ∧ (s.buf j).blockno = c ∧ (s.buf j).dirty = true := by
  obtain ⟨j, block, marked⟩ := inv.behind c missing
  by_cases self : j = i
  · rw [self] at block marked
    exact .inl ⟨block, marked⟩
  · exact .inr ⟨j, self, block, marked⟩

omit [DecidableEq P] in
/-- Two valid buffers have different blocks. -/
theorem DataInv.distinct {stored : Disk} (inv : DataInv stored s) {i j : Fin nbuf}
    (first : (s.buf i).dev = rootdev) (second : (s.buf j).dev = rootdev) (apart : j ≠ i) :
    (s.buf j).blockno ≠ (s.buf i).blockno :=
  fun same => apart (inv.unique j i second first same)

omit [DecidableEq P] in
/-- Buffer `i` is locked, unlocked or counted, and keeps its content. -/
theorem DataInv.kept {stored : Disk} (inv : DataInv stored s) {i : Fin nbuf} {b : Buf P}
    (here : t.buf i = b) (others : ∀ j, j ≠ i → t.buf j = s.buf j) (disk : t.disk = s.disk)
    (same : b.Same (s.buf i)) (held : (s.buf i).changed = true → b.holder ≠ none) :
    DataInv stored t := by
  refine inv.same disk (fun j => ?_) fun j changed => ?_
  · by_cases self : j = i
    · rw [self, here]
      exact same
    · rw [others j self]
      exact ⟨rfl, rfl, rfl, rfl, rfl, rfl⟩
  · by_cases self : j = i
    · rw [self] at changed ⊢
      rw [here]
      exact held changed
    · rw [others j self]
      exact (inv.changed j changed).1

section Moves

variable {stored : Disk} {p : P} {dev b : Nat} {i : Fin nbuf}

omit [DecidableEq P] in
theorem DataInv.untouched (inv : DataInv stored s) (cache : t.cache = s.cache)
    (disk : t.disk = s.disk) : DataInv stored t := by
  have buf : t.buf = s.buf := congrArg Bcache.buf cache
  refine inv.same disk (fun j => ?_) fun j changed => ?_
  · rw [buf]
    exact ⟨rfl, rfl, rfl, rfl, rfl, rfl⟩
  · rw [buf]
    exact (inv.changed j changed).1

omit [DecidableEq P] in
/-- Whoever unlocks a buffer has stored its changes. -/
theorem DataInv.release (inv : DataInv stored s) (clean : (s.buf i).changed = false)
    (cache : t.cache = s.cache.set i { s.buf i with holder := none }) (disk : t.disk = s.disk) :
    DataInv stored t := by
  obtain ⟨here, others⟩ := buf_of_set cache
  refine inv.kept here others disk ⟨rfl, rfl, rfl, rfl, rfl, rfl⟩ fun changed => ?_
  rw [clean] at changed
  cases changed

omit [DecidableEq P] in
/-- An unused buffer that is not dirty becomes that of a block which has none. -/
theorem DataInv.recycle [Fintype P] (inv : DataInv stored s) (refs : RefInv s)
    (unused : (s.buf i).refcnt = 0) (clean : (s.buf i).dirty = false)
    (missing : ∀ j, ¬ ((s.buf j).dev = dev ∧ (s.buf j).blockno = b))
    (cache : t.cache = s.cache.set i { s.buf i with
      dev := dev, blockno := b, valid := false, dirty := false, refcnt := 1 })
    (disk : t.disk = s.disk) : DataInv stored t := by
  obtain ⟨here, others⟩ := buf_of_set cache
  have free := refs.unused unused
  refine inv.put here others (fun device j _ there block => missing j ⟨?_, block⟩) nofun nofun
    (fun changed => ?_) nofun (fun _ _ _ => rfl) fun c absent => ?_
  · rw [there, ← device]
  · exact absurd free (inv.changed i changed).1
  · rw [disk] at absent
    rcases inv.behind_or i absent with ⟨_, marked⟩ | elsewhere
    · rw [clean] at marked
      cases marked
    · exact .inr elsewhere

omit [DecidableEq P] in
/-- A buffer that is not valid gets the block from the disk. -/
theorem DataInv.read (inv : DataInv stored s) (invalid : (s.buf i).valid = false)
    (device : (s.buf i).dev = rootdev)
    (cache : t.cache = s.cache.set i { s.buf i with
      data := s.disk (s.buf i).blockno, valid := true })
    (disk : t.disk = s.disk) : DataInv stored t := by
  obtain ⟨here, others⟩ := buf_of_set cache
  refine inv.put here others (fun _ j apart there => inv.distinct device there apart)
    (fun _ => rfl) (fun _ => device) (fun changed => ?_) (fun _ _ => ?_) (fun _ _ _ => rfl)
    fun c absent => ?_
  · have valid := (inv.changed i changed).2
    rw [invalid] at valid
    cases valid
  · -- nobody else can have the block, so the disk has what was stored last
    by_contra absent
    obtain ⟨j, block, marked⟩ := inv.behind _ absent
    have valid := inv.dirty j marked
    rw [inv.unique j i (inv.device j valid) device block, invalid] at valid
    cases valid
  · rw [disk] at absent
    exact inv.behind_or i absent

omit [DecidableEq P] in
/-- The holder of a buffer stores into it. -/
theorem DataInv.change [Fintype P] {data : Block} (inv : DataInv stored s) (refs : RefInv s)
    (running : s.phase p = .running) (held : s.Holds p b i)
    (cache : t.cache = s.cache.set i { s.buf i with data := data, changed := true })
    (disk : t.disk = s.disk) : DataInv stored t := by
  obtain ⟨here, others⟩ := buf_of_set cache
  have valid : (s.buf i).valid = true := by
    refine (refs.held i p held.holder).resolve_right ?_
    rw [running]
    nofun
  refine inv.put here others (fun device j apart there => inv.distinct held.dev there apart)
    (fun _ => valid) (fun _ => held.dev) (fun _ => ⟨?_, valid⟩) nofun (fun _ _ _ => rfl)
    fun c absent => ?_
  · change (s.buf i).holder ≠ none
    rw [held.holder]
    exact Option.some_ne_none p
  · rw [disk] at absent
    exact inv.behind_or i absent

omit [DecidableEq P] in
/-- `log_write` marks a buffer dirty, whose content has then been stored. -/
theorem DataInv.log [Fintype P] (inv : DataInv stored s) (refs : RefInv s)
    (logs : s.phase p = .logging i)
    (cache : t.cache = s.cache.set i { s.buf i with dirty := true, changed := false })
    (disk : t.disk = s.disk) :
    DataInv (Function.update stored (s.buf i).blockno (s.buf i).data) t := by
  obtain ⟨here, others⟩ := buf_of_set cache
  have valid : (s.buf i).valid = true := by
    refine (refs.held i p (refs.logging p i logs)).resolve_right ?_
    rw [logs]
    nofun
  have device := inv.device i valid
  refine inv.put here others (fun _ j apart there => inv.distinct device there apart)
    (fun _ => valid) (fun _ => device) nofun (fun _ _ => ?_) (fun j apart there => ?_)
    fun c absent => ?_
  · exact (Function.update_self (f := stored) _ _).symm
  · exact Function.update_of_ne (inv.distinct device (inv.device j there) apart) _ _
  · rw [disk] at absent
    by_cases block : c = (s.buf i).blockno
    · exact .inl ⟨block.symm, rfl⟩
    · have before : s.disk c ≠ stored c := by
        intro same
        refine absent (same.trans ?_)
        exact (Function.update_of_ne block _ _).symm
      exact (inv.behind_or i before).imp_left fun both => ⟨both.1, rfl⟩

omit [DecidableEq P] in
/-- `bwrite` writes a buffer through to the disk. -/
theorem DataInv.write (inv : DataInv stored s) (held : s.Holds p b i)
    (cache : t.cache = s.cache.set i { s.buf i with
      dirty := false, valid := true, changed := false })
    (disk : t.disk = Function.update s.disk b (s.buf i).data) :
    DataInv (Function.update stored b (s.buf i).data) t := by
  obtain ⟨here, others⟩ := buf_of_set cache
  have block := held.blockno
  refine inv.put here others (fun _ j apart there => inv.distinct held.dev there apart)
    nofun (fun _ => held.dev) nofun (fun _ _ => ?_) (fun j apart there => ?_) fun c absent => ?_
  · change (s.buf i).data = Function.update stored b (s.buf i).data (s.buf i).blockno
    rw [block, Function.update_self]
  · refine Function.update_of_ne ?_ _ _
    rw [← block]
    exact inv.distinct held.dev (inv.device j there) apart
  · rw [disk] at absent
    by_cases same : c = b
    · rw [same, Function.update_self, Function.update_self] at absent
      exact absurd rfl absent
    · rw [Function.update_of_ne same, Function.update_of_ne same] at absent
      rcases inv.behind_or i absent with ⟨own, _⟩ | elsewhere
      · exact absurd (own.symm.trans block) same
      · exact .inr elsewhere

end Moves

/-- `saved` says that a process which unlocks a buffer has stored its changes. -/
theorem DataInv.move [Fintype P] {stored : Disk} (inv : DataInv stored s) (refs : RefInv s)
    (move : BufMove s t label)
    (saved : ∀ p b i, s.Holds p b i → (∃ rest, (s.proc p).task = .brelse b :: rest) →
      (s.proc p).pc ≠ none → (s.buf i).changed = false) :
    DataInv (label.update stored) t := by
  cases move with
  | quiet cache disk phase => exact inv.untouched cache disk
  | cached fills valid cache disk phase => exact inv.untouched cache disk
  | check running held cache disk phase => exact inv.untouched cache disk
  | found running hit cache disk phase =>
      obtain ⟨here, others⟩ := buf_of_set cache
      exact inv.kept here others disk ⟨rfl, rfl, rfl, rfl, rfl, rfl⟩
        fun changed => (inv.changed _ changed).1
  | acquire waits free cache disk phase =>
      obtain ⟨here, others⟩ := buf_of_set cache
      exact inv.kept here others disk ⟨rfl, rfl, rfl, rfl, rfl, rfl⟩
        fun _ => Option.some_ne_none _
  | @release p b i running held done cache disk phase task =>
      refine inv.release ?_ cache disk
      by_cases free : (s.proc p).pc = none
      · exact done free
      · exact saved p b i held ⟨_, task.2.2 free⟩ free
  | drop leaves cache disk phase =>
      obtain ⟨here, others⟩ := buf_of_brelse cache
      exact inv.kept here others disk ⟨rfl, rfl, rfl, rfl, rfl, rfl⟩
        fun changed => (inv.changed _ changed).1
  | recycle running unused clean missing cache disk phase =>
      exact inv.recycle refs unused clean missing cache disk
  | read fills invalid device cache disk phase => exact inv.read invalid device cache disk
  | change running held cache disk phase => exact inv.change refs running held cache disk
  | log logs cache disk phase => exact inv.log refs logs cache disk
  | write running held cache disk phase => exact inv.write held cache disk

end Cache

end SlabStudy.Xv6
