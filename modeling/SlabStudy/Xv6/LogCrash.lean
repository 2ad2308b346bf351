import SlabStudy.Xv6.GroupCommit

/-!
# Power failures

A crash may come between any two block writes of any process, and again
during the recovery.  Over any number of such lives of the machine the disk
holds the transactions whose header has been written, each of them whole, and
nothing of the others.
-/

namespace SlabStudy.Xv6

open Library

/-! ## Disks that a recovery can finish -/

/-- The header is empty and everything is at home, or the log has what is missing. -/
def Recoverable (start size : Nat) (home disk : Disk) : Prop :=
  Cleared start size home disk ∨ ∃ lh, Committed start size lh home disk ∧ lh.Nodup ∧
    lh.length + 1 ≤ size ∧ ∀ b ∈ lh, ¬ InLog start size b

namespace Recoverable

variable {start size : Nat} {home disk later : Disk}

/-- Interrupted recoveries leave such a disk again. -/
theorem interrupted (state : Recoverable start size home disk) (region : 0 < size)
    (restarts : Interrupted start disk later) : Recoverable start size home later := by
  induction restarts with
  | none => exact state
  | crash _ cut ih =>
      rcases ih with cleared | ⟨lh, committed, nodup, fits, outside⟩
      · exact .inl (cleared.recovering region cut)
      · rcases committed.recovering nodup fits outside cut with still | cleared
        · exact .inr ⟨lh, still, nodup, fits, outside⟩
        · exact .inl cleared

/-- A recovery that is not interrupted finishes it. -/
theorem recovered (state : Recoverable start size home disk) (region : 0 < size) :
    Cleared start size home (recoverFromLog start disk).disk := by
  rcases state with cleared | ⟨lh, committed, nodup, fits, outside⟩
  · exact cleared.recovering region (List.prefix_refl (recoverIo start disk))
  · exact committed.recovered nodup fits outside

end Recoverable

/-! ## The header on the disk -/

section Header

variable {P : Type} [DecidableEq P] {s t : LogState P} {next : Except LogPanic (LogState P)}
  {label : LogLabel P} {home home' first : Disk} {a : LogTrace P} {done : List (Nat × Block)}
  {p : P}

/-- Between the header write that commits and the one that erases. -/
def CommitPc.named : CommitPc → Bool
  | .install _ => true
  | .clear => true
  | .eraseHead => true
  | _ => false

/-- What the header on the disk says at each point of `commit`. -/
structure LogHeader (home : Disk) (s : LogState P) : Prop where
  entries : s.lh.length ≤ logsize
  words : ∀ b ∈ s.lh, b < 2 ^ 32
  calls : ∀ p b, (s.op p).block? = some b → b < 2 ^ 32
  empty : (∀ p pc, s.op p = .commit pc → pc.named = false) → (s.mem.disk s.start).word 0 = 0
  named : ∀ p tail, s.op p = .commit (.install tail) → readHead (s.mem.disk s.start) = s.lh
  stays : ∀ p, s.op p = .commit .clear ∨ s.op p = .commit .eraseHead →
    Recoverable s.start s.size home s.mem.disk

namespace LogHeader

omit [DecidableEq P] in
theorem initial (start : s.Initial) (empty : (s.mem.disk s.start).word 0 = 0) :
    LogHeader s.mem.disk s := by
  refine ⟨?_, fun b member => ?_, fun p b block => ?_, fun _ => empty, fun p tail here => ?_,
    fun p here => ?_⟩
  · rw [start.lh]
    exact Nat.zero_le _
  · rw [start.lh] at member
    cases member
  · rw [start.op p] at block
    cases block
  · rw [start.op p] at here
    cases here
  · rw [start.op p] at here
    rcases here with here | here <;> cases here

/-- A step of an operation: nobody commits before it, and nobody is far in `commit` after it. -/
theorem operation (header : LogHeader home s) (none : ∀ q pc, s.op q ≠ .commit pc)
    {o : OpState} (moved : t.op = Function.update s.op p o)
    (own : ∀ pc, o = .commit pc → pc = .enter) (place : t.start = s.start) (disk : t.mem.disk = s.mem.disk) (entries : t.lh.length ≤ logsize)
    (words : ∀ b ∈ t.lh, b < 2 ^ 32) (block : ∀ b, o.block? = some b → b < 2 ^ 32) :
    LogHeader home' t := by
  have only : ∀ q pc, t.op q = .commit pc → pc = .enter := by
    intro q pc here
    rw [moved] at here
    by_cases self : q = p
    · rw [self, Function.update_self] at here
      exact own pc here
    · rw [Function.update_of_ne self] at here
      exact absurd here (none q pc)
  refine ⟨entries, words, fun q b here => ?_, fun _ => ?_, fun q tail here => ?_, fun q here => ?_⟩
  · rw [moved] at here
    by_cases self : q = p
    · rw [self, Function.update_self] at here
      exact block b here
    · rw [Function.update_of_ne self] at here
      exact header.calls q b here
  · rw [place, disk]
    refine header.empty fun q pc here => absurd here (none q pc)
  · cases only q _ here
  · rcases here with here | here <;> cases only q _ here

/-- A step inside `commit`. -/
theorem committing (header : LogHeader home s) (control : LogControl s) {pc pc' : CommitPc}
    (here : s.op p = .commit pc) (moved : t.op = Function.update s.op p (.commit pc'))
    (entries : t.lh.length ≤ logsize) (words : ∀ b ∈ t.lh, b < 2 ^ 32)
    (empty : pc'.named = false → (t.mem.disk t.start).word 0 = 0)
    (named : ∀ tail, pc' = .install tail → readHead (t.mem.disk t.start) = t.lh)
    (stays : pc' = .clear ∨ pc' = .eraseHead → Recoverable t.start t.size home' t.mem.disk) :
    LogHeader home' t := by
  have self : t.op p = .commit pc' := by rw [moved, Function.update_self]
  have only : ∀ q pc, t.op q = .commit pc → pc = pc' := by
    intro q other there
    rw [moved] at there
    by_cases same : q = p
    · rw [same, Function.update_self] at there
      exact (OpState.commit.inj there).symm
    · rw [Function.update_of_ne same, (control.alone p pc here).2 q same] at there
      cases there
  refine ⟨entries, words, fun q b block => ?_, fun quiet => empty (quiet p pc' self),
    fun q tail there => named tail (only q _ there).symm, fun q there => stays ?_⟩
  · rw [moved] at block
    by_cases same : q = p
    · rw [same, Function.update_self] at block
      cases block
    · rw [Function.update_of_ne same] at block
      exact header.calls q b block
  · rcases there with there | there
    · exact .inl (only q _ there).symm
    · exact .inr (only q _ there).symm

/-- Nobody else is behind the header write that commits. -/
theorem empty_of (header : LogHeader home s) (control : LogControl s) {pc : CommitPc}
    (here : s.op p = .commit pc) (early : pc.named = false) :
    (s.mem.disk s.start).word 0 = 0 := by
  refine header.empty fun q other there => ?_
  by_cases same : q = p
  · rw [same, here] at there
    rw [← OpState.commit.inj there]
    exact early
  · rw [(control.alone p pc here).2 q same] at there
    cases there

/-- While blocks are being installed, the log has all of them. -/
theorem installing (header : LogHeader (applyWrites done first) s) (data : LogData first a done s)
    (inv : LogInv a s) (pins : LogPinned s) {tail : Nat} (here : s.op p = .commit (.install tail)) :
    Recoverable s.start s.size (applyWrites done first) s.mem.disk := by
  refine .inr ⟨s.lh, ⟨header.named p tail here, fun i b entry => ?_, fun b other outer => ?_⟩,
    inv.entries.nodup, pins.fits p _ here rfl, data.home⟩
  · have outer := data.home b (List.mem_of_getElem? entry)
    rw [data.body p _ here i b (List.getElem?_eq_some_iff.mp entry).1 entry,
      data.buf b outer (inv.calls.unlocked inv.control here b), inv.entries.late p _ here rfl,
      List.append_nil]
  · exact data.disk_of inv.control here outer fun waiting => other (List.mem_of_mem_drop waiting)

/-- Whatever the processes are doing, a recovery can finish it. -/
theorem recoverable (header : LogHeader (applyWrites done first) s) (data : LogData first a done s)
    (inv : LogInv a s) (pins : LogPinned s) : Recoverable s.start s.size (applyWrites done first) s.mem.disk := by
  by_cases late : ∃ p pc, s.op p = .commit pc ∧ pc.named = true
  · obtain ⟨p, pc, here, named⟩ := late
    cases pc with
    | install tail => exact header.installing data inv pins here
    | clear => exact header.stays p (.inl here)
    | eraseHead => exact header.stays p (.inr here)
    | _ => cases named
  · have early : ∀ p pc, s.op p = .commit pc → pc.named = false := fun p pc here =>
      Bool.eq_false_iff.mpr fun named => late ⟨p, pc, here, named⟩
    refine .inl ⟨header.empty early, fun b outer => data.disk b outer fun p pc here waiting => ?_⟩
    have named := early p pc here
    cases pc with
    | install tail => cases named
    | _ => cases waiting

theorem step (header : LogHeader (applyWrites done first) s) (data : LogData first a done s)
    (inv : LogInv a s) (pins : LogPinned s) (region : 0 < s.size) (move : LogMove s label (.ok t)) :
    LogHeader (applyWrites (done ++ a.commits label) first) t := by
  have control := inv.control
  have quiet : ∀ {p : P}, (s.op p).inOp = true → ∀ q pc, s.op q ≠ .commit pc := fun inside =>
    (control.quiet inside).2
  have same : ∀ p, a.commits (.commit p) = [] := fun p => rfl
  cases move with
  | @begin p idle free room =>
      refine header.operation (fun q pc here => ?_) rfl (fun pc same => by cases same) rfl rfl
        header.entries header.words fun b block => by cases block
      rw [(control.alone q pc here).1] at free
      cases free
  | @fill p b new logged active unlocked home word buffer =>
      refine header.operation (quiet (p := p) (by rw [active]; rfl)) rfl
        (fun pc same => by cases same) rfl rfl header.entries header.words fun c block => ?_
      cases block
      exact word
  | @check p b logged logging entry room =>
      refine header.operation (quiet (p := p) (by rw [logging]; rfl)) rfl
        (fun pc same => by cases same) rfl rfl header.entries header.words fun c block => ?_
      cases block
      exact header.calls p b (by rw [logging]; rfl)
  | @absorb p b logged checked present =>
      exact header.operation (quiet (p := p) (by rw [checked]; rfl)) rfl
        (fun pc same => by cases same) rfl rfl header.entries header.words
        fun c block => by cases block
  | @append p b logged checked absent entry =>
      refine header.operation (quiet (p := p) (by rw [checked]; rfl)) rfl
        (fun pc same => by cases same) rfl rfl ?_ (fun c member => ?_)
        fun c block => by cases block
      · change (s.lh ++ [b]).length ≤ logsize
        rw [List.length_append]
        exact entry
      · rcases List.mem_append.mp member with old | new
        · exact header.words c old
        · rw [List.mem_singleton.mp new]
          exact header.calls p b (by rw [checked]; rfl)
  | @endLast p logged active free last =>
      exact header.operation (quiet (p := p) (by rw [active]; rfl)) rfl
        (fun pc same => (OpState.commit.inj same).symm) rfl rfl header.entries header.words
        fun c block => by cases block
  | @endOther p logged active free more =>
      exact header.operation (quiet (p := p) (by rw [active]; rfl)) rfl
        (fun pc same => by cases same) rfl rfl header.entries header.words
        fun c block => by cases block
  | @head p pc =>
      refine header.committing control pc rfl header.entries header.words
        (fun early => by cases early) (fun tail _ => ?_) fun late => by rcases late with late | late <;> cases late
      change readHead (((Io.head s.lh).run s.start s.mem).disk s.start) = s.lh
      rw [head_self]
      have entries := header.entries
      exact readHead_putHead _ (Nat.lt_of_le_of_lt entries (by decide)) header.words
  | @enter p pc some =>
      exact header.committing control pc rfl header.entries header.words
        (fun _ => header.empty_of control pc rfl) (fun tail same => by cases same)
        fun late => by rcases late with late | late <;> cases late
  | @nothing p pc none =>
      exact header.committing control pc rfl header.entries header.words
        (fun _ => header.empty_of control pc rfl) (fun tail same => by cases same)
        fun late => by rcases late with late | late <;> cases late
  | @writeLog p tail b pc entry buffers can =>
      refine header.committing control pc rfl header.entries header.words (fun _ => ?_)
        (fun tail same => by cases same) fun late => by rcases late with late | late <;> cases late
      have apart : s.start ≠ s.start + tail + 1 := by omega
      refine Eq.trans (congrArg (Block.word · 0) ?_) (header.empty_of control pc rfl)
      exact Function.update_of_ne apart _ _
  | @written p tail pc behind =>
      exact header.committing control pc rfl header.entries header.words
        (fun _ => header.empty_of control pc rfl) (fun tail same => by cases same)
        fun late => by rcases late with late | late <;> cases late
  | @install p tail b pc entry buffers can =>
      refine header.committing control pc rfl header.entries header.words
        (fun early => by cases early) (fun _ _ => ?_)
        fun late => by rcases late with late | late <;> cases late
      have apart : s.start ≠ b := fun same =>
        data.home b (List.mem_of_getElem? entry) (same ▸ ⟨Nat.le_refl _, by omega⟩)
      refine Eq.trans (congrArg readHead ?_) (header.named p tail pc)
      exact Function.update_of_ne apart _ _
  | @installed p tail pc behind =>
      refine header.committing control pc rfl header.entries header.words
        (fun early => by cases early) (fun tail same => by cases same) fun _ => ?_
      rw [same, List.append_nil]
      exact header.installing data inv pins pc
  | @clear p pc =>
      refine header.committing control pc rfl (Nat.zero_le _)
        (fun b member => absurd member List.not_mem_nil) (fun early => by cases early)
        (fun tail same => by cases same) fun _ => ?_
      rw [same, List.append_nil]
      exact header.stays p (.inl pc)
  | @eraseHead p pc =>
      refine header.committing control pc rfl header.entries header.words (fun _ => ?_)
        (fun tail same => by cases same) fun late => by rcases late with late | late <;> cases late
      change (((Io.head s.lh).run s.start s.mem).disk s.start).word 0 = 0
      rw [head_self, inv.entries.cleared p (.inl pc)]
      exact putHead_count _ (by decide)
  | @leave p pc =>
      have idle : ∀ q pc', ({ s with committing := false }.setOp p .idle).op q ≠ .commit pc' := by
        intro q pc' there
        by_cases self : q = p
        · rw [self, LogState.setOp_self] at there
          cases there
        · rw [LogState.setOp_of_ne _ _ self, (control.alone p _ pc).2 q self] at there
          cases there
      refine ⟨header.entries, header.words, fun q b block => ?_,
        fun _ => header.empty_of control pc rfl, fun q tail there => absurd there (idle q _),
        fun q there => ?_⟩
      · by_cases self : q = p
        · rw [self, LogState.setOp_self] at block
          cases block
        · rw [LogState.setOp_of_ne _ _ self] at block
          exact header.calls q b block
      · rcases there with there | there <;> exact absurd there (idle q _)

end LogHeader

/-! ## What has been logged -/

/-- The `log_write`s of some labels, in order. -/
def loggedFrom (a : LogTrace P) : List (LogLabel P) → List (Nat × Block)
  | [] => []
  | .record p :: labels => (a.call p).toList ++ loggedFrom (a.observe (.record p)) labels
  | label :: labels => loggedFrom (a.observe label) labels

def logged (labels : List (LogLabel P)) : List (Nat × Block) := loggedFrom .empty labels

/-- What has been logged is committed or pending. -/
theorem committedFrom_pending (a : LogTrace P) (labels : List (LogLabel P)) :
    committedFrom a labels ++ (labels.foldl LogTrace.observe a).pending =
      a.pending ++ loggedFrom a labels := by
  induction labels generalizing a with
  | nil => exact (List.append_nil _).symm
  | cons label labels ih =>
      rw [committedFrom, List.append_assoc, List.foldl_cons, ih]
      cases label with
      | record p => exact List.append_assoc a.pending (a.call p).toList _
      | _ => rfl

theorem committed_pending (labels : List (LogLabel P)) :
    logged labels = committed labels ++ (logTrace labels).pending :=
  (committedFrom_pending .empty labels).symm

/-! ## Lives of the machine -/

/-- The state after the recovery of `initlog` from what a crash has left. -/
structure Restarted (s : LogState P) (disk : Disk) (t : LogState P) : Prop where
  initial : t.Initial
  start : t.start = s.start
  size : t.size = s.size
  mem : t.mem = recoverFromLog s.start disk

/--
The machine has run, crashed and recovered any number of times, and `kept` are
the `log_write`s of the transactions that were committed in its lives.
-/
inductive Lives (first : LogState P) : List (Nat × Block) → LogState P → Prop where
  | boot : Lives first [] first
  | restart {kept : List (Nat × Block)} {s t u : LogState P} {labels : List (LogLabel P)}
      {disk : Disk} (earlier : Lives first kept s)
      (run : (logSystem P).Run (.ok s) labels (.ok t))
      (restarts : Interrupted t.start t.mem.disk disk) (booted : Restarted t disk u) :
      Lives first (kept ++ committed labels) u

/-- The log region of a machine at its start: it has room for a full header, which is empty. -/
structure LogReady (s : LogState P) : Prop where
  initial : s.Initial
  large : logsize ≤ s.size
  empty : (s.mem.disk s.start).word 0 = 0

omit [DecidableEq P] in
theorem LogReady.region (ready : LogReady s) : 0 < s.size :=
  Nat.lt_of_lt_of_le (by decide) ready.large

/-- What holds at every point of a life. -/
theorem LogReady.run {start : LogState P} {labels : List (LogLabel P)} (ready : LogReady start)
    (run : (logSystem P).Run (.ok start) labels next) :
    ∀ t, next = .ok t → LogInv (logTrace labels) t ∧ LogPinned t ∧
      LogData start.mem.disk (logTrace labels) (committed labels) t ∧
      LogHeader (applyWrites (committed labels) start.mem.disk) t ∧
      t.start = start.start ∧ t.size = start.size := by
  refine System.Run.preservesHistory (P := fun labels next => ∀ t, next = .ok t →
    LogInv (logTrace labels) t ∧ LogPinned t ∧
      LogData start.mem.disk (logTrace labels) (committed labels) t ∧
      LogHeader (applyWrites (committed labels) start.mem.disk) t ∧
      t.start = start.start ∧ t.size = start.size) ?_ run ?_
  · rintro labels state label next holds ⟨u, rfl, ran⟩ t rfl
    obtain ⟨inv, pins, data, header, place, length⟩ := holds u rfl
    have move := logStep_move ran
    obtain ⟨same, equal⟩ := move.geometry
    have large : logsize ≤ u.size := by
      rw [length]
      exact ready.large
    have region : 0 < u.size := by
      rw [length]
      exact ready.region
    rw [logTrace_snoc, committed_snoc]
    exact ⟨inv.step move, pins.step inv large move, data.step inv pins large move,
      header.step data inv pins region move, same.trans place, equal.trans length⟩
  · rintro t same
    cases same
    exact ⟨.initial ready.initial, .initial ready.initial, .initial ready.initial,
      .initial ready.initial ready.empty, rfl, rfl⟩

/-- A crash at any point of a life leaves a disk that a recovery can finish. -/
theorem LogReady.recoverable {start : LogState P} {labels : List (LogLabel P)}
    (ready : LogReady start)
    (run : (logSystem P).Run (.ok start) labels (.ok t)) :
    Recoverable start.start start.size (applyWrites (committed labels) start.mem.disk)
      t.mem.disk := by
  obtain ⟨inv, pins, data, header, place, length⟩ := ready.run run t rfl
  have state := header.recoverable data inv pins
  rw [place, length] at state
  exact state

/-- A recovered machine is ready again, and has all that was committed. -/
theorem LogReady.restart {start u : LogState P} {labels : List (LogLabel P)} {disk : Disk}
    (ready : LogReady start)
    (run : (logSystem P).Run (.ok start) labels (.ok t))
    (restarts : Interrupted t.start t.mem.disk disk) (booted : Restarted t disk u) :
    LogReady u ∧ u.start = start.start ∧ u.size = start.size ∧
      ∀ b, ¬ InLog start.start start.size b →
        u.mem.disk b = applyWrites (committed labels) start.mem.disk b := by
  obtain ⟨_, _, _, _, place, length⟩ := ready.run run t rfl
  rw [place] at restarts
  have cleared := ((ready.recoverable run).interrupted ready.region restarts).recovered ready.region
  have mem := booted.mem
  have start' := booted.start.trans place
  have size' := booted.size.trans length
  rw [place] at mem
  refine ⟨⟨booted.initial, ?_, ?_⟩, start', size', fun b outer => ?_⟩
  · rw [size']
    exact ready.large
  · rw [start', mem]
    exact cleared.empty
  · rw [mem]
    exact cleared.home b outer

/-- What the disk holds after any number of lives. -/
theorem Lives.disk {kept : List (Nat × Block)} {first : LogState P} (ready : LogReady first)
    (lives : Lives first kept s) : LogReady s ∧ s.start = first.start ∧ s.size = first.size ∧
      ∀ b, ¬ InLog first.start first.size b →
        s.mem.disk b = applyWrites kept first.mem.disk b := by
  induction lives with
  | boot => exact ⟨ready, rfl, rfl, fun _ _ => rfl⟩
  | restart _ run restarts booted ih =>
      obtain ⟨ready', place, length, home⟩ := ih
      obtain ⟨again, start', size', later⟩ := ready'.restart run restarts booted
      refine ⟨again, start'.trans place, size'.trans length, fun b outer => ?_⟩
      rw [place, length] at later
      rw [later b outer, applyWrites_append]
      exact applyWrites_congr _ (home b outer)

/--
However often the power fails, at whatever point of any interleaving of
`begin_op`, `log_write`, `end_op` and `commit`, and however often the recovery
is cut short: once a recovery gets to its end, the header is empty, and
outside the log the disk is what the committed transactions of all lives have
made of it.  They are the front part of what was logged, they split no
operation, and nothing is lost when no operation and no commit was going on.
-/
theorem crash_durable {kept : List (Nat × Block)} {first : LogState P}
    {labels : List (LogLabel P)} {disk : Disk} (ready : LogReady first)
    (lives : Lives first kept s)
    (run : (logSystem P).Run (.ok s) labels (.ok t))
    (restarts : Interrupted t.start t.mem.disk disk) :
    ((recoverFromLog t.start disk).disk t.start).word 0 = 0 ∧
      (∀ b, ¬ InLog first.start first.size b → (recoverFromLog t.start disk).disk b =
        applyWrites (kept ++ committed labels) first.mem.disk b) ∧
      (∀ before p during q after, labels = before ++ .begin p :: (during ++ .head q :: after) →
        .endOp p ∈ during) ∧
      committed labels <+: logged labels ∧
      (t.outstanding = 0 → t.committing = false → committed labels = logged labels) := by
  obtain ⟨ready', place, length, home⟩ := lives.disk ready
  obtain ⟨_, _, _, _, start', _⟩ := ready'.run run t rfl
  have group := group_commit ready'.initial ready'.large run
  rw [start', place] at restarts ⊢
  have state := ready'.recoverable run
  rw [place, length] at state
  have region : 0 < first.size := ready.region
  have cleared := (state.interrupted region restarts).recovered region
  refine ⟨cleared.empty, fun b outer => ?_, group.whole, ?_, fun none free => ?_⟩
  · rw [cleared.home b outer, applyWrites_append]
    exact applyWrites_congr _ (home b outer)
  · rw [committed_pending]
    exact List.prefix_append _ _
  · rw [committed_pending, group.drained none free, List.append_nil]

end Header

section Sample

/-- One block is logged and committed; the power fails before it is installed. -/
def sampleLife {P : Type} (p : P) : List (LogLabel P) :=
  [.begin p, .fill p 32 fun _ => 1, .check p, .record p, .endOp p, .commit p, .commit p, .commit p,
    .head p]

theorem crash_durable_one_block : ∃ t, (logSystem (Fin 3)).Run (.ok (sampleLog 0)) (sampleLife 0)
      (.ok t) ∧ t.mem.disk 32 0 = 0 ∧ (recoverFromLog t.start t.mem.disk).disk 32 = fun _ => 1 := by
  have ends : ((sampleLife 0).foldlM logRun (.ok (sampleLog 0))).bind (fun
      | .ok s => some (s.mem.disk 32 0)
      | .error _ => none) = some 0 := by
    decide +kernel
  obtain ⟨r, ran, is⟩ := Option.bind_eq_some_iff.mp ends
  cases r with
  | error reason => cases is
  | ok t =>
      have ready : LogReady (sampleLog 0) := ⟨sampleLog_initial, Nat.le_refl _, rfl⟩
      have run := System.Run.of_fold logRun_step ran
      have outer : ¬ InLog (sampleLog 0).start (sampleLog 0).size 32 := by
        unfold InLog
        decide
      refine ⟨t, run, Option.some.inj is, ?_⟩
      rw [(crash_durable ready .boot run .none).2.1 32 outer]
      rfl

end Sample

end SlabStudy.Xv6
