import SlabStudy.Xv6.LogCapacity

/-!
# Group commit

The operations that end together are committed together: no operation is cut
by a commit, and what a transaction brings to the disk is what its last
`log_write`s have logged.  `log_write` tests for room before it takes the
lock, so two processes may bring the header to thirty entries.  But then every
buffer of the cache is pinned, and `commit` stops before it writes anything.
-/

namespace SlabStudy.Xv6

open Library

section Group

variable {P : Type} [DecidableEq P] {s t : LogState P} {next : Except LogPanic (LogState P)}
  {label : LogLabel P}

/-! ## The committed transactions of a run -/

/-- What a step commits: the header write commits everything that is pending. -/
def LogTrace.commits (a : LogTrace P) : LogLabel P → List (Nat × Block)
  | .head _ => a.pending
  | _ => []

/-- The `log_write`s of the transactions that some labels commit, in order. -/
def committedFrom (a : LogTrace P) : List (LogLabel P) → List (Nat × Block)
  | [] => []
  | label :: labels => a.commits label ++ committedFrom (a.observe label) labels

def committed (labels : List (LogLabel P)) : List (Nat × Block) := committedFrom .empty labels

theorem committedFrom_snoc (a : LogTrace P) (labels : List (LogLabel P)) (label : LogLabel P) :
    committedFrom a (labels ++ [label]) =
      committedFrom a labels ++ (labels.foldl LogTrace.observe a).commits label := by
  induction labels generalizing a with
  | nil =>
      change a.commits label ++ [] = _
      rw [List.append_nil]
      rfl
  | cons first labels ih =>
      change a.commits first ++ committedFrom (a.observe first) (labels ++ [label]) = _
      rw [ih, ← List.append_assoc]
      rfl

theorem committed_snoc (labels : List (LogLabel P)) (label : LogLabel P) :
    committed (labels ++ [label]) = committed labels ++ (logTrace labels).commits label :=
  committedFrom_snoc .empty labels label

omit [DecidableEq P] in
/-- Every other step commits nothing. -/
theorem LogTrace.commits_other (a : LogTrace P) {label : LogLabel P}
    (other : ∀ p, label ≠ .head p) : a.commits label = [] := by
  cases label with
  | head p => exact absurd rfl (other p)
  | _ => rfl

/-! ## What the blocks hold -/

/-- How many blocks of a header of length `n` are in the log. -/
def CommitPc.written (n : Nat) : CommitPc → Nat
  | .writeLog tail => tail
  | .writeHead => n
  | .install _ => n
  | _ => 0

/-- The home blocks that a process in `commit` still has to install. -/
def CommitPc.left (lh : List Nat) : CommitPc → List Nat
  | .install tail => lh.drop tail
  | _ => []

/-- Behind the first block that `write_log` writes. -/
def CommitPc.begun : CommitPc → Bool
  | .enter => false
  | .writeLog tail => tail != 0
  | .leave => false
  | _ => true

/-! ## Pinned buffers -/

/--
There are no more pinned buffers than the cache has, and the blocks of the
header have one until they are installed.  So once `commit` has found a buffer
for the first log block, there is room for all of them in the log.
-/
structure LogPinned (s : LogState P) : Prop where
  card : s.pinned.card ≤ nbuf
  home : ∀ b ∈ s.pinned, ¬ InLog s.start s.size b
  calls : ∀ p b, (s.op p).block? = some b → b ∈ s.pinned
  listed : (∀ p pc, s.op p = .commit pc → pc.late = false) → ∀ b ∈ s.lh, b ∈ s.pinned
  fits : ∀ p pc, s.op p = .commit pc → pc.begun = true → s.lh.length + 1 ≤ s.size

namespace LogPinned

variable {a : LogTrace P} {p : P} {o : OpState}

omit [DecidableEq P] in
theorem initial (start : s.Initial) : LogPinned s := by
  refine ⟨?_, fun b member => ?_, fun p b block => ?_, fun _ b member => ?_, fun p pc here => ?_⟩
  · rw [start.pinned]
    exact Nat.zero_le _
  · rw [start.pinned] at member
    exact absurd member (Finset.notMem_empty b)
  · rw [start.op p] at block
    cases block
  · rw [start.lh] at member
    cases member
  · rw [start.op p] at here
    cases here

omit [DecidableEq P] in
/-- `bget` has pinned one more block. -/
theorem card_insert {b : Nat} (pins : LogPinned s) (buffer : s.hasBuffer b = true) :
    (insert b s.pinned).card ≤ nbuf := by
  rcases Bool.or_eq_true_iff.mp buffer with found | free
  · rw [Finset.insert_eq_of_mem (of_decide_eq_true found)]
    exact pins.card
  · exact Nat.le_trans (Finset.card_insert_le b s.pinned) (of_decide_eq_true free)

/-- A step of an operation: nobody commits before it, and nobody is far in `commit` after it. -/
theorem operation (pins : LogPinned s) (none : ∀ q pc, s.op q ≠ .commit pc)
    (moved : t.op = Function.update s.op p o) (own : ∀ pc, o = .commit pc → pc = .enter)
    (place : t.start = s.start) (length : t.size = s.size) (kept : s.pinned ⊆ t.pinned)
    (card : t.pinned.card ≤ nbuf) (home : ∀ b ∈ t.pinned, ¬ InLog s.start s.size b)
    (block : ∀ b, o.block? = some b → b ∈ t.pinned) (listed : ∀ b ∈ t.lh, b ∈ t.pinned) :
    LogPinned t := by
  refine ⟨card, ?_, fun q b here => ?_, fun _ => listed, fun q pc here begun => ?_⟩
  · rw [place, length]
    exact home
  · rw [moved] at here
    by_cases self : q = p
    · rw [self, Function.update_self] at here
      exact block b here
    · rw [Function.update_of_ne self] at here
      exact kept (pins.calls q b here)
  · rw [moved] at here
    by_cases self : q = p
    · rw [self, Function.update_self] at here
      rw [own pc here] at begun
      cases begun
    · rw [Function.update_of_ne self] at here
      exact absurd here (none q pc)

/-- A step of an operation that takes no buffer. -/
theorem operation_keeps (pins : LogPinned s) (none : ∀ q pc, s.op q ≠ .commit pc)
    (moved : t.op = Function.update s.op p o) (own : ∀ pc, o = .commit pc → pc = .enter)
    (place : t.start = s.start) (length : t.size = s.size) (same : t.pinned = s.pinned)
    (block : ∀ b, o.block? = some b → (s.op p).block? = some b)
    (listed : ∀ b ∈ t.lh, b ∈ s.lh ∨ (s.op p).block? = some b) : LogPinned t := by
  refine pins.operation none moved own place length (by rw [same]) ?_ ?_ (fun b here => ?_)
    fun b member => ?_
  · rw [same]
    exact pins.card
  · rw [same]
    exact pins.home
  · rw [same]
    exact pins.calls p b (block b here)
  · rw [same]
    rcases listed b member with old | new
    · exact pins.listed (fun q pc here => absurd here (none q pc)) b old
    · exact pins.calls p b new

/-- A step inside `commit`. -/
theorem committing {pc pc' : CommitPc} (pins : LogPinned s) (control : LogControl s)
    (here : s.op p = .commit pc) (moved : t.op = Function.update s.op p (.commit pc'))
    (place : t.start = s.start) (length : t.size = s.size) (fewer : t.pinned ⊆ s.pinned)
    (listed : pc'.late = false → ∀ b ∈ t.lh, b ∈ t.pinned)
    (fits : pc'.begun = true → t.lh.length + 1 ≤ s.size) : LogPinned t := by
  have only : ∀ q other, t.op q = .commit other → other = pc' := by
    intro q other there
    rw [moved] at there
    by_cases self : q = p
    · rw [self, Function.update_self] at there
      exact (OpState.commit.inj there).symm
    · rw [Function.update_of_ne self, (control.alone p pc here).2 q self] at there
      cases there
  refine ⟨Nat.le_trans (Finset.card_le_card fewer) pins.card, fun b member => ?_,
    fun q b block => ?_, fun early => listed (early p pc' ?_), fun q other there => ?_⟩
  · rw [place, length]
    exact pins.home b (fewer member)
  · rw [moved] at block
    by_cases self : q = p
    · rw [self, Function.update_self] at block
      cases block
    · rw [Function.update_of_ne self, (control.alone p pc here).2 q self] at block
      cases block
  · rw [moved, Function.update_self]
  · rw [length, only q other there]
    exact fits

/-- The header of a process that has not yet installed anything. -/
theorem listed_of {pc : CommitPc} (pins : LogPinned s) (control : LogControl s)
    (here : s.op p = .commit pc) (early : pc.late = false) : ∀ b ∈ s.lh, b ∈ s.pinned := by
  refine pins.listed fun q other there => ?_
  by_cases self : q = p
  · rw [self, here] at there
    rw [← OpState.commit.inj there]
    exact early
  · rw [(control.alone p pc here).2 q self] at there
    cases there

/-- Blocks in the header have different buffers. -/
theorem length_le {pc : CommitPc} (pins : LogPinned s) (control : LogControl s)
    (entries : LogEntries a s) (here : s.op p = .commit pc) (early : pc.late = false) :
    s.lh.length ≤ s.pinned.card := by
  rw [← List.toFinset_card_of_nodup entries.nodup]
  refine Finset.card_le_card fun b member => ?_
  exact pins.listed_of control here early b (List.mem_toFinset.mp member)

/-- When `write_log` finds a buffer for a log block, all blocks of the header fit into the log. -/
theorem fits_of_copy {tail b : Nat} (pins : LogPinned s) (control : LogControl s)
    (entries : LogEntries a s) (large : logsize ≤ s.size)
    (here : s.op p = .commit (.writeLog tail)) (entry : s.lh[tail]? = some b)
    (buffers : s.hasBuffers (s.start + tail + 1) b = true) : s.lh.length + 1 ≤ s.size := by
  cases tail with
  | succ tail => exact pins.fits p _ here rfl
  | zero =>
      have small : logsize = 30 := rfl
      have many : nbuf = 30 := rfl
      have few := pins.length_le control entries here rfl
      have first := (Bool.and_eq_true_iff.mp buffers).1
      rcases Bool.or_eq_true_iff.mp first with found | free
      · -- no log block is pinned
        refine absurd ?_ (pins.home _ (of_decide_eq_true found))
        unfold InLog
        omega
      · have free := of_decide_eq_true free
        omega

theorem step (pins : LogPinned s) (inv : LogInv a s) (large : logsize ≤ s.size)
    (move : LogMove s label (.ok t)) : LogPinned t := by
  have control := inv.control
  have entries := inv.entries
  have quiet : ∀ {p : P}, (s.op p).inOp = true → ∀ q pc, s.op q ≠ .commit pc := fun inside =>
    (control.quiet inside).2
  cases move with
  | @begin p idle free room =>
      refine pins.operation_keeps (fun q pc here => ?_) rfl (fun pc same => by cases same) rfl rfl
        rfl (fun b block => by cases block) fun b => .inl
      rw [(control.alone q pc here).1] at free
      cases free
  | @fill p b data logged active unlocked home word buffer =>
      refine pins.operation (quiet (p := p) (by rw [active]; rfl)) rfl
        (fun pc same => by cases same) rfl rfl (Finset.subset_insert b s.pinned)
        (pins.card_insert buffer) (fun c member => ?_) (fun c block => ?_) fun c member => ?_
      · rcases Finset.mem_insert.mp member with rfl | old
        · exact home
        · exact pins.home c old
      · cases block
        exact Finset.mem_insert_self b s.pinned
      · refine Finset.mem_insert_of_mem (pins.listed (fun q pc here => ?_) c member)
        exact absurd here (quiet (p := p) (by rw [active]; rfl) q pc)
  | @check p b logged logging entry room =>
      refine pins.operation_keeps (quiet (p := p) (by rw [logging]; rfl)) rfl
        (fun pc same => by cases same) rfl rfl rfl (fun c block => ?_) fun c => .inl
      rw [logging]
      exact block
  | @absorb p b logged checked present =>
      exact pins.operation_keeps (quiet (p := p) (by rw [checked]; rfl)) rfl
        (fun pc same => by cases same) rfl rfl rfl (fun c block => by cases block) fun c => .inl
  | @append p b logged checked absent entry =>
      refine pins.operation_keeps (quiet (p := p) (by rw [checked]; rfl)) rfl
        (fun pc same => by cases same) rfl rfl rfl (fun c block => by cases block)
        fun c member => (List.mem_append.mp member).imp id fun new => ?_
      rw [checked, List.mem_singleton.mp new]
      rfl
  | @endLast p logged active free last =>
      exact pins.operation_keeps (quiet (p := p) (by rw [active]; rfl)) rfl
        (fun pc same => (OpState.commit.inj same).symm) rfl rfl rfl (fun c block => by cases block)
        fun c => .inl
  | @endOther p logged active free more =>
      exact pins.operation_keeps (quiet (p := p) (by rw [active]; rfl)) rfl
        (fun pc same => by cases same) rfl rfl rfl (fun c block => by cases block) fun c => .inl
  | @head p pc =>
      exact pins.committing control pc rfl rfl rfl (Finset.Subset.refl _)
        (fun early => by cases early) fun _ => pins.fits p _ pc rfl
  | @enter p pc some =>
      exact pins.committing control pc rfl rfl rfl (Finset.Subset.refl _)
        (fun _ => pins.listed_of control pc rfl) fun begun => by cases begun
  | @nothing p pc none =>
      exact pins.committing control pc rfl rfl rfl (Finset.Subset.refl _)
        (fun early => by cases early) fun begun => by cases begun
  | @writeLog p tail b pc entry buffers can =>
      exact pins.committing control pc rfl rfl rfl (Finset.Subset.refl _)
        (fun _ => pins.listed_of control pc rfl)
        fun _ => pins.fits_of_copy control entries large pc entry buffers
  | @written p tail pc behind =>
      refine pins.committing control pc rfl rfl rfl (Finset.Subset.refl _)
        (fun _ => pins.listed_of control pc rfl) fun _ => ?_
      cases tail with
      | succ tail => exact pins.fits p _ pc rfl
      | zero =>
          have empty := List.getElem?_eq_none_iff.mp behind
          have small : logsize = 30 := rfl
          change s.lh.length + 1 ≤ s.size
          omega
  | @install p tail b pc entry buffers can =>
      exact pins.committing control pc rfl rfl rfl (Finset.erase_subset b s.pinned)
        (fun early => by cases early) fun _ => pins.fits p _ pc rfl
  | @installed p tail pc behind =>
      exact pins.committing control pc rfl rfl rfl (Finset.Subset.refl _)
        (fun early => by cases early) fun _ => pins.fits p _ pc rfl
  | @clear p pc =>
      refine pins.committing control pc rfl rfl rfl (Finset.Subset.refl _)
        (fun early => by cases early) fun _ => ?_
      have small : logsize = 30 := rfl
      change 0 + 1 ≤ s.size
      omega
  | @eraseHead p pc =>
      exact pins.committing control pc rfl rfl rfl (Finset.Subset.refl _)
        (fun early => by cases early) fun begun => by cases begun
  | @leave p pc =>
      have idle : ∀ q, ({ s with committing := false }.setOp p .idle).op q = .idle := by
        intro q
        by_cases self : q = p
        · rw [self, LogState.setOp_self]
        · rw [LogState.setOp_of_ne _ _ self]
          exact (control.alone p _ pc).2 q self
      refine ⟨pins.card, pins.home, fun q b block => ?_, fun _ b member => ?_,
        fun q other here => ?_⟩
      · rw [idle q] at block
        cases block
      · change b ∈ s.lh at member
        rw [entries.cleared p (.inr pc)] at member
        cases member
      · rw [idle q] at here
        cases here

end LogPinned

/-! ## The contents -/

omit [DecidableEq P] in
/-- The log block of an entry lies in the log region, and is no home block. -/
theorem entry_inLog (fits : s.lh.length + 1 ≤ s.size) {i b : Nat} (entry : s.lh[i]? = some b) :
    InLog s.start s.size (s.start + i + 1) := by
  have inside : i < s.lh.length := (List.getElem?_eq_some_iff.mp entry).1
  unfold InLog
  omega

/--
`done` has been committed, on top of what the disk held first.  A buffer that
nobody holds has everything that was logged, and the disk has everything that
was committed, up to the blocks that are left to install.
-/
structure LogData (first : Disk) (a : LogTrace P) (done : List (Nat × Block)) (s : LogState P) :
    Prop where
  home : ∀ b ∈ s.lh, ¬ InLog s.start s.size b
  held : ∀ b, s.holder b ≠ none → ¬ InLog s.start s.size b
  log : ∀ b, InLog s.start s.size b → s.mem.buf b = s.mem.disk b
  body : ∀ p pc, s.op p = .commit pc → ∀ i b, i < pc.written s.lh.length → s.lh[i]? = some b →
    s.mem.disk (s.start + i + 1) = s.mem.buf b
  buf : ∀ b, ¬ InLog s.start s.size b → s.holder b = none →
    s.mem.buf b = applyWrites (done ++ a.pending) first b
  disk : ∀ b, ¬ InLog s.start s.size b → (∀ p pc, s.op p = .commit pc → b ∉ pc.left s.lh) →
    s.mem.disk b = applyWrites done first b

/-- Nobody holds a buffer while a process commits. -/
theorem LogCalls.unlocked {a : LogTrace P} {p : P} {pc : CommitPc} (calls : LogCalls a s)
    (control : LogControl s) (here : s.op p = .commit pc) (b : Nat) : s.holder b = none := by
  cases held : s.holder b with
  | none => rfl
  | some q =>
      have block := (calls.held q b).mp held
      by_cases self : q = p
      · rw [self, here] at block
        cases block
      · rw [(control.alone p pc here).2 q self] at block
        cases block

namespace LogData

variable {first : Disk} {a a' : LogTrace P} {done done' : List (Nat × Block)} {p : P}

omit [DecidableEq P] in
theorem initial (start : s.Initial) : LogData s.mem.disk .empty [] s := by
  refine ⟨fun b member => ?_, fun b held => absurd (start.holder b) held, fun b _ => ?_,
    fun p pc here => ?_, fun b _ _ => ?_, fun b _ _ => rfl⟩
  · rw [start.lh] at member
    cases member
  · rw [start.clean]
  · rw [start.op p] at here
    cases here
  · rw [start.clean]
    rfl

omit [DecidableEq P] in
/-- A step of an operation: nobody commits before it, and nobody is far in `commit` after it. -/
theorem operation (data : LogData first a done s) (none : ∀ q pc, s.op q ≠ .commit pc)
    (still : ∀ q pc, t.op q = .commit pc → pc = .enter) (place : t.start = s.start)
    (length : t.size = s.size) (home : ∀ b ∈ t.lh, ¬ InLog s.start s.size b)
    (held : ∀ b, t.holder b ≠ Option.none → ¬ InLog s.start s.size b)
    (log : ∀ b, InLog s.start s.size b → t.mem.buf b = s.mem.buf b)
    (buf : ∀ b, ¬ InLog s.start s.size b → t.holder b = Option.none →
      t.mem.buf b = applyWrites (done ++ a'.pending) first b)
    (disk : t.mem.disk = s.mem.disk) : LogData first a' done t := by
  refine ⟨?_, ?_, ?_, fun q pc here i b inside => ?_, ?_, ?_⟩
  · rw [place, length]
    exact home
  · rw [place, length]
    exact held
  · rw [place, length, disk]
    intro b inside
    rw [log b inside, data.log b inside]
  · rw [still q pc here] at inside
    exact absurd inside (Nat.not_lt_zero i)
  · rw [place, length]
    exact buf
  · rw [place, length, disk]
    intro b outer _
    exact data.disk b outer fun q pc here => absurd here (none q pc)

omit [DecidableEq P] in
/-- A step of an operation that neither fills nor records a block. -/
theorem operation_keeps (data : LogData first a done s) (none : ∀ q pc, s.op q ≠ .commit pc)
    (still : ∀ q pc, t.op q = .commit pc → pc = .enter) (place : t.start = s.start)
    (length : t.size = s.size) (lh : t.lh = s.lh) (holder : t.holder = s.holder)
    (mem : t.mem = s.mem) (pending : a'.pending = a.pending) : LogData first a' done t := by
  refine data.operation none still place length ?_ ?_ (fun b _ => by rw [mem]) ?_ (by rw [mem])
  · rw [lh]
    exact data.home
  · rw [holder]
    exact data.held
  · rw [holder, mem, pending]
    exact data.buf

/-- The end of a `log_write`: what its buffer holds has been logged. -/
theorem records {b : Nat} {logged : Finset Nat} (data : LogData first a done s)
    (control : LogControl s) (calls : LogCalls a s) (checked : s.op p = .checked logged b)
    (moved : t.op = Function.update s.op p (.active logged)) (place : t.start = s.start)
    (length : t.size = s.size) (home : ∀ b ∈ t.lh, ¬ InLog s.start s.size b)
    (holder : t.holder = Function.update s.holder b none) (mem : t.mem = s.mem) :
    LogData first (a.observe (.record p)) done t := by
  have none := (control.quiet (p := p) (by rw [checked]; rfl)).2
  refine data.operation none (fun q pc here => ?_) place length home (fun c locked => ?_)
    (fun b _ => by rw [mem]) (fun c outer free => ?_) (by rw [mem])
  · rw [moved] at here
    by_cases self : q = p
    · rw [self, Function.update_self] at here
      cases here
    · rw [Function.update_of_ne self] at here
      exact absurd here (none q pc)
  · refine data.held c ?_
    rw [holder] at locked
    by_cases same : c = b
    · rw [same, Function.update_self] at locked
      exact absurd rfl locked
    · rw [Function.update_of_ne same] at locked
      exact locked
  · change _ = applyWrites (done ++ (a.pending ++ (a.call p).toList)) first c
    rw [calls.calls p, checked, mem, ← List.append_assoc]
    change _ = applyWrites (done ++ a.pending ++ [(b, s.mem.buf b)]) first c
    rw [applyWrites_snoc]
    by_cases same : c = b
    · rw [same, Function.update_self]
    · rw [holder, Function.update_of_ne same] at free
      rw [Function.update_of_ne same]
      exact data.buf c outer free

/-- A step inside `commit`. -/
theorem committing {pc pc' : CommitPc} (control : LogControl s) (calls : LogCalls a s)
    (here : s.op p = .commit pc)
    (moved : t.op = Function.update s.op p (.commit pc')) (place : t.start = s.start)
    (length : t.size = s.size) (holder : t.holder = s.holder)
    (home : ∀ b ∈ t.lh, ¬ InLog s.start s.size b)
    (log : ∀ b, InLog s.start s.size b → t.mem.buf b = t.mem.disk b)
    (body : ∀ i b, i < pc'.written t.lh.length → t.lh[i]? = some b →
      t.mem.disk (s.start + i + 1) = t.mem.buf b)
    (buf : ∀ b, ¬ InLog s.start s.size b →
      t.mem.buf b = applyWrites (done' ++ a'.pending) first b)
    (disk : ∀ b, ¬ InLog s.start s.size b → b ∉ pc'.left t.lh →
      t.mem.disk b = applyWrites done' first b) : LogData first a' done' t := by
  have only : ∀ q pc, t.op q = .commit pc → pc = pc' := by
    intro q other there
    rw [moved] at there
    by_cases self : q = p
    · rw [self, Function.update_self] at there
      exact (OpState.commit.inj there).symm
    · rw [Function.update_of_ne self, (control.alone p pc here).2 q self] at there
      cases there
  refine ⟨?_, fun b locked => ?_, ?_, fun q other there => ?_, ?_, ?_⟩
  · rw [place, length]
    exact home
  · rw [holder] at locked
    exact absurd (calls.unlocked control here b) locked
  · rw [place, length]
    exact log
  · rw [place, only q other there]
    exact body
  · rw [place, length]
    exact fun b outer _ => buf b outer
  · rw [place, length]
    intro b outer installed
    refine disk b outer (installed p pc' ?_)
    rw [moved, Function.update_self]

/-- What a process in `commit` finds on the disk. -/
theorem disk_of {pc : CommitPc} {b : Nat} (data : LogData first a done s) (control : LogControl s)
    (here : s.op p = .commit pc) (outer : ¬ InLog s.start s.size b) (installed : b ∉ pc.left s.lh) :
    s.mem.disk b = applyWrites done first b := by
  refine data.disk b outer fun q other there => ?_
  by_cases self : q = p
  · rw [self, here] at there
    rw [← OpState.commit.inj there]
    exact installed
  · rw [(control.alone p pc here).2 q self] at there
    cases there

/-- A step inside `commit` that writes nothing. -/
theorem committing_keeps {pc pc' : CommitPc} (data : LogData first a done s)
    (control : LogControl s) (calls : LogCalls a s) (here : s.op p = .commit pc)
    (moved : t.op = Function.update s.op p (.commit pc')) (place : t.start = s.start)
    (length : t.size = s.size) (holder : t.holder = s.holder) (lh : t.lh = s.lh)
    (mem : t.mem = s.mem) (written : pc'.written s.lh.length ≤ pc.written s.lh.length)
    (left : pc.left s.lh ⊆ pc'.left s.lh) : LogData first a done t := by
  refine committing control calls here moved place length holder ?_ ?_ ?_ ?_ ?_
  · rw [lh]
    exact data.home
  · rw [mem]
    exact data.log
  · rw [lh, mem]
    exact fun i b inside => data.body p pc here i b (Nat.lt_of_lt_of_le inside written)
  · rw [mem]
    exact fun b outer => data.buf b outer (calls.unlocked control here b)
  · rw [lh, mem]
    exact fun b outer installed => data.disk_of control here outer fun waiting =>
      installed (left waiting)

/-- `write_log` copies one block into the log. -/
theorem writeLog {tail b : Nat} (data : LogData first a done s) (control : LogControl s)
    (calls : LogCalls a s) (pc : s.op p = .commit (.writeLog tail)) (entry : s.lh[tail]? = some b)
    (inside : InLog s.start s.size (s.start + tail + 1)) :
    LogData first a done ((s.setMem ((Io.copy (s.start + tail + 1) b).run s.start s.mem)).setOp p
      (.commit (.writeLog (tail + 1)))) := by
  have away : ∀ c, ¬ InLog s.start s.size c → c ≠ s.start + tail + 1 := by
    rintro c outer rfl
    exact outer inside
  refine committing control calls pc rfl rfl rfl rfl data.home (fun c logs => ?_)
    (fun i c small listed => ?_) (fun c outer => ?_) fun c outer _ => ?_
  · change Function.update s.mem.buf _ _ c = Function.update s.mem.disk _ _ c
    by_cases same : c = s.start + tail + 1
    · rw [same, Function.update_self, Function.update_self]
    · rw [Function.update_of_ne same, Function.update_of_ne same]
      exact data.log c logs
  · change Function.update s.mem.disk _ _ _ = Function.update s.mem.buf _ _ c
    rw [Function.update_of_ne (away c (data.home c (List.mem_of_getElem? listed)))]
    by_cases same : i = tail
    · subst same
      change s.lh[i]? = some c at listed
      rw [entry] at listed
      rw [Option.some.inj listed, Function.update_self]
    · rw [Function.update_of_ne (by omega)]
      refine data.body p _ pc i c ?_ listed
      change i < tail
      change i < tail + 1 at small
      omega
  · change Function.update s.mem.buf _ _ c = _
    rw [Function.update_of_ne (away c outer)]
    exact data.buf c outer (calls.unlocked control pc c)
  · change Function.update s.mem.disk _ _ c = _
    rw [Function.update_of_ne (away c outer)]
    exact data.disk_of control pc outer List.not_mem_nil

omit [DecidableEq P] in
/-- A header write touches no home block and no block of the log body. -/
theorem head_other (room : 0 < s.size) (lh : List Nat) {b : Nat}
    (outer : ¬ InLog s.start s.size b) :
    ((Io.head lh).run s.start s.mem).disk b = s.mem.disk b ∧
      ((Io.head lh).run s.start s.mem).buf b = s.mem.buf b := by
  refine Xv6.head_other s.mem lh ?_
  rintro rfl
  exact outer ⟨Nat.le_refl _, by omega⟩

omit [DecidableEq P] in
theorem head_log (data : LogData first a done s) (lh : List Nat) {b : Nat}
    (logs : InLog s.start s.size b) : ((Io.head lh).run s.start s.mem).buf b =
      ((Io.head lh).run s.start s.mem).disk b := by
  change Function.update s.mem.buf _ _ b = Function.update s.mem.disk _ _ b
  by_cases same : b = s.start
  · rw [same, Function.update_self, Function.update_self]
  · rw [Function.update_of_ne same, Function.update_of_ne same]
    exact data.log b logs

/-- The header write commits what is pending. -/
theorem head (data : LogData first a done s) (control : LogControl s) (calls : LogCalls a s)
    (entries : LogEntries a s) (room : 0 < s.size) (pc : s.op p = .commit .writeHead) :
    LogData first (a.observe (.head p)) (done ++ a.pending)
      ((s.setMem ((Io.head s.lh).run s.start s.mem)).setOp p (.commit (.install 0))) := by
  refine committing control calls pc rfl rfl rfl rfl data.home (fun b => data.head_log s.lh)
    (fun i b small listed => ?_) (fun b outer => ?_) fun b outer installed => ?_
  · have outer := data.home b (List.mem_of_getElem? listed)
    refine Eq.trans ?_ (Eq.symm (head_other room s.lh outer).2)
    have body := data.body p _ pc i b small listed
    rw [← body]
    exact (Xv6.head_other s.mem s.lh (by omega)).1
  · refine (head_other room s.lh outer).2.trans ?_
    change _ = applyWrites (done ++ a.pending ++ []) first b
    rw [List.append_nil]
    exact data.buf b outer (calls.unlocked control pc b)
  · refine (head_other room s.lh outer).1.trans ?_
    rw [data.disk_of control pc outer List.not_mem_nil, applyWrites_append]
    refine (applyWrites_other _ fun write member same => installed ?_).symm
    change b ∈ s.lh
    rw [entries.early_of control pc rfl, ← same]
    exact List.mem_map_of_mem member

/-- `install_trans` copies one block to its home location. -/
theorem install {tail b : Nat} (data : LogData first a done s) (control : LogControl s)
    (calls : LogCalls a s) (entries : LogEntries a s) (pc : s.op p = .commit (.install tail))
    (entry : s.lh[tail]? = some b) (fits : s.lh.length + 1 ≤ s.size) :
    LogData first a done (({ s with pinned := s.pinned.erase b }.setMem
      ((Io.copy b (s.start + tail + 1)).run s.start s.mem)).setOp p
        (.commit (.install (tail + 1)))) := by
  have listed := List.mem_of_getElem? entry
  have inside := entry_inLog fits entry
  have short : tail < s.lh.length := (List.getElem?_eq_some_iff.mp entry).1
  -- the block is installed with what its buffer held
  have same : s.mem.buf (s.start + tail + 1) = s.mem.buf b := by
    rw [data.log _ inside]
    exact data.body p _ pc tail b short entry
  have kept : Function.update s.mem.buf b (s.mem.buf (s.start + tail + 1)) = s.mem.buf := by
    rw [same, Function.update_eq_self]
  have away : ∀ c, InLog s.start s.size c → c ≠ b := by
    rintro c logs rfl
    exact data.home c listed logs
  have all : ∀ c, ¬ InLog s.start s.size c → s.mem.buf c = applyWrites (done ++ a.pending) first c :=
    fun c outer => data.buf c outer (calls.unlocked control pc c)
  refine committing control calls pc rfl rfl rfl rfl data.home (fun c logs => ?_)
    (fun i c small there => ?_) (fun c outer => ?_) fun c outer installed => ?_
  · change Function.update s.mem.buf _ _ c = Function.update s.mem.disk _ _ c
    rw [kept, Function.update_of_ne (away c logs)]
    exact data.log c logs
  · change Function.update s.mem.disk _ _ _ = Function.update s.mem.buf _ _ c
    rw [kept, Function.update_of_ne (away _ (entry_inLog fits there))]
    exact data.body p _ pc i c small there
  · change Function.update s.mem.buf _ _ c = _
    rw [kept]
    exact all c outer
  · change Function.update s.mem.disk _ _ c = _
    by_cases here : c = b
    · rw [here, Function.update_self, same, all b (data.home b listed), entries.late p _ pc rfl,
        List.append_nil]
    · rw [Function.update_of_ne here]
      refine data.disk_of control pc outer fun waiting => installed ?_
      change c ∈ s.lh.drop (tail + 1)
      change c ∈ s.lh.drop tail at waiting
      rw [List.drop_eq_getElem_cons short, (List.getElem?_eq_some_iff.mp entry).2] at waiting
      exact (List.mem_cons.mp waiting).resolve_left here

end LogData

theorem LogData.step {first : Disk} {a : LogTrace P} {done : List (Nat × Block)}
    (data : LogData first a done s) (inv : LogInv a s) (pins : LogPinned s)
    (large : logsize ≤ s.size) (move : LogMove s label (.ok t)) :
    LogData first (a.observe label) (done ++ a.commits label) t := by
  have control := inv.control
  have calls := inv.calls
  have entries := inv.entries
  have room : 0 < s.size := Nat.lt_of_lt_of_le (by decide) large
  -- a step of an operation leaves nobody in `commit`
  have still : ∀ {p : P} {o : OpState}, (∀ q pc, s.op q ≠ .commit pc) →
      t.op = Function.update s.op p o → (∀ pc, o = .commit pc → pc = .enter) →
      ∀ q pc, t.op q = .commit pc → pc = .enter := by
    intro p o none moved own q pc here
    rw [moved] at here
    by_cases self : q = p
    · rw [self, Function.update_self] at here
      exact own pc here
    · rw [Function.update_of_ne self] at here
      exact absurd here (none q pc)
  by_cases headed : ∃ p, label = .head p
  · obtain ⟨p, rfl⟩ := headed
    cases move with
    | head pc => exact data.head control calls entries room pc
  rw [a.commits_other fun p same => headed ⟨p, same⟩, List.append_nil]
  cases move with
  | @head p pc => exact absurd ⟨p, rfl⟩ headed
  | @begin p idle free room =>
      have none : ∀ q pc, s.op q ≠ .commit pc := by
        intro q pc here
        rw [(control.alone q pc here).1] at free
        cases free
      exact data.operation_keeps none (still none rfl fun pc same => by cases same) rfl rfl rfl rfl
        rfl rfl
  | @fill p b new logged active unlocked home word buffer =>
      have none := (control.quiet (p := p) (by rw [active]; rfl)).2
      refine data.operation none (still none rfl fun pc same => by cases same) rfl rfl
        data.home (fun c locked => ?_) (fun c logs => ?_) (fun c outer free => ?_) rfl
      · by_cases same : c = b
        · rw [same]
          exact home
        · refine data.held c ?_
          change Function.update s.holder b (some p) c ≠ _ at locked
          rw [Function.update_of_ne same] at locked
          exact locked
      · refine Function.update_of_ne ?_ _ _
        rintro rfl
        exact home logs
      · change Function.update s.holder b (some p) c = Option.none at free
        have other : c ≠ b := by
          rintro rfl
          rw [Function.update_self] at free
          cases free
        rw [Function.update_of_ne other] at free
        exact (Function.update_of_ne other _ _).trans (data.buf c outer free)
  | @check p b logged logging entry room =>
      have none := (control.quiet (p := p) (by rw [logging]; rfl)).2
      exact data.operation_keeps none (still none rfl fun pc same => by cases same) rfl rfl rfl rfl
        rfl rfl
  | @absorb p b logged checked present =>
      exact data.records control calls checked rfl rfl rfl data.home rfl rfl
  | @append p b logged checked absent entry =>
      have block := (calls.held p b).mpr (by rw [checked]; rfl)
      refine data.records control calls checked rfl rfl rfl (fun c member => ?_) rfl rfl
      rcases List.mem_append.mp member with old | new
      · exact data.home c old
      · rw [List.mem_singleton.mp new]
        refine data.held b ?_
        rw [block]
        exact Option.some_ne_none p
  | @endLast p logged active free last =>
      have none := (control.quiet (p := p) (by rw [active]; rfl)).2
      exact data.operation_keeps none (still none rfl fun pc same => (OpState.commit.inj same).symm)
        rfl rfl rfl rfl rfl rfl
  | @endOther p logged active free more =>
      have none := (control.quiet (p := p) (by rw [active]; rfl)).2
      exact data.operation_keeps none (still none rfl fun pc same => by cases same) rfl rfl rfl rfl
        rfl rfl
  | @enter p pc some =>
      exact data.committing_keeps control calls pc rfl rfl rfl rfl rfl rfl (Nat.le_refl _)
        (List.Subset.refl _)
  | @nothing p pc none =>
      exact data.committing_keeps control calls pc rfl rfl rfl rfl rfl rfl (Nat.le_refl _)
        (List.Subset.refl _)
  | @writeLog p tail b pc entry buffers can =>
      have fits := pins.fits_of_copy control entries large pc entry buffers
      exact data.writeLog control calls pc entry (entry_inLog fits entry)
  | @written p tail pc behind =>
      exact data.committing_keeps control calls pc rfl rfl rfl rfl rfl rfl
        (List.getElem?_eq_none_iff.mp behind) (List.Subset.refl _)
  | @install p tail b pc entry buffers can =>
      exact data.install control calls entries pc entry (pins.fits p _ pc rfl)
  | @installed p tail pc behind =>
      refine data.committing_keeps control calls pc rfl rfl rfl rfl rfl rfl (Nat.zero_le _) ?_
      change s.lh.drop tail ⊆ []
      rw [List.drop_eq_nil_of_le (List.getElem?_eq_none_iff.mp behind)]
      exact List.Subset.refl _
  | @clear p pc =>
      refine LogData.committing control calls pc rfl rfl rfl rfl
        (fun b member => absurd member List.not_mem_nil) data.log
        (fun i b small => absurd small (Nat.not_lt_zero i))
        (fun b outer => data.buf b outer (calls.unlocked control pc b))
        fun b outer _ => data.disk_of control pc outer List.not_mem_nil
  | @eraseHead p pc =>
      refine LogData.committing control calls pc rfl rfl rfl rfl data.home
        (fun b => data.head_log s.lh)
        (fun i b small => absurd small (Nat.not_lt_zero i)) (fun b outer => ?_) fun b outer _ => ?_
      · exact (LogData.head_other room s.lh outer).2.trans
          (data.buf b outer (calls.unlocked control pc b))
      · exact (LogData.head_other room s.lh outer).1.trans
          (data.disk_of control pc outer List.not_mem_nil)
  | @leave p pc =>
      have gone : ∀ q pc', ({ s with committing := false }.setOp p .idle).op q ≠ .commit pc' := by
        intro q pc' there
        by_cases self : q = p
        · rw [self, LogState.setOp_self] at there
          cases there
        · rw [LogState.setOp_of_ne _ _ self, (control.alone p _ pc).2 q self] at there
          cases there
      exact ⟨data.home, data.held, data.log,
        fun q pc' there => absurd there (gone q pc'), data.buf,
        fun b outer _ => data.disk_of control pc outer List.not_mem_nil⟩

/-! ## Runs -/

/--
What holds after a run: no operation is cut by a commit, and the transactions
are written as they were logged.
-/
structure GroupCommit (first : Disk) (labels : List (LogLabel P)) (s : LogState P) : Prop where
  /-- `commit` runs only when no operation is between `begin_op` and `end_op`. -/
  alone : ∀ p pc, s.op p = .commit pc → ∀ q, (logTrace labels).inOp q = false
  /-- No operation starts during a commit. -/
  closed : s.committing = true → ∀ p, logStep s (.begin p) = none
  /-- Two panics are unreachable. -/
  safe : ∀ label next, logStep s label = some next →
    next ≠ .error .committing ∧ next ≠ .error .outsideTrans
  /-- A commit point after the start of an operation comes after its end. -/
  whole : ∀ before p during q after, labels = before ++ .begin p :: (during ++ .head q :: after) →
    .endOp p ∈ during
  /-- At the commit point the log has each logged block once, with its last contents. -/
  logged : ∀ p, s.op p = .commit .writeHead → s.lh.Nodup ∧
    (∀ b, b ∈ s.lh ↔ b ∈ (logTrace labels).pending.map Prod.fst) ∧
    ∀ i b, s.lh[i]? = some b → s.mem.disk (s.start + i + 1) =
      applyWrites (logTrace labels).pending s.mem.disk b
  /-- Unless a process is installing blocks, all that was committed is at home. -/
  installed : (∀ p tail, s.op p ≠ .commit (.install tail)) → ∀ b, ¬ InLog s.start s.size b →
    s.mem.disk b = applyWrites (committed labels) first b
  /-- Once the last operation has ended, everything is committed. -/
  drained : s.outstanding = 0 → s.committing = false → (logTrace labels).pending = []

/-- An operation that has begun and not ended is in progress. -/
theorem inOp_of_not_ended {a : LogTrace P} {p : P} {during : List (LogLabel P)}
    (begun : a.inOp p = true) (going : .endOp p ∉ during) :
    (during.foldl LogTrace.observe a).inOp p = true := by
  induction during generalizing a with
  | nil => exact begun
  | cons label during ih =>
      refine ih ?_ fun later => going (List.mem_cons_of_mem _ later)
      cases label with
      | begin q =>
          change Function.update a.inOp q true p = true
          by_cases self : p = q
          · rw [self, Function.update_self]
          · rw [Function.update_of_ne self, begun]
      | endOp q =>
          have other : p ≠ q := by
            rintro rfl
            exact going List.mem_cons_self
          change Function.update a.inOp q false p = true
          rw [Function.update_of_ne other, begun]
      | fill q b data => exact begun
      | check q => exact begun
      | record q => exact begun
      | head q => exact begun
      | commit q => exact begun

/-- While a process commits, the history has no operation in progress. -/
theorem LogInv.none_inOp {a : LogTrace P} {p : P} {pc : CommitPc} (inv : LogInv a s)
    (here : s.op p = .commit pc) (q : P) : a.inOp q = false := by
  rw [inv.calls.inOp q]
  by_cases self : q = p
  · rw [self, here]
    rfl
  · rw [(inv.control.alone p pc here).2 q self]
    rfl

/-- The two panics need a state that the control invariant excludes. -/
theorem LogInv.safe {a : LogTrace P} (inv : LogInv a s) (ran : logStep s label = some next) :
    next ≠ .error .committing ∧ next ≠ .error .outsideTrans := by
  have move := logStep_move ran
  cases move with
  | @committing p logged active busy =>
      have free := (inv.control.quiet (p := p) (by rw [active]; rfl)).1
      rw [free] at busy
      cases busy
  | @outsideTrans p b logged logging none =>
      have some := inv.control.positive (p := p) (by rw [logging]; rfl)
      omega
  | _ => exact ⟨nofun, nofun⟩

theorem LogData.run {start : LogState P} {labels : List (LogLabel P)} (first : start.Initial)
    (large : logsize ≤ start.size) (run : (logSystem P).Run (.ok start) labels next) :
    ∀ t, next = .ok t → LogInv (logTrace labels) t ∧ LogPinned t ∧
      LogData start.mem.disk (logTrace labels) (committed labels) t ∧
      t.start = start.start ∧ t.size = start.size := by
  refine System.Run.preservesHistory (P := fun labels next => ∀ t, next = .ok t →
    LogInv (logTrace labels) t ∧ LogPinned t ∧
      LogData start.mem.disk (logTrace labels) (committed labels) t ∧
      t.start = start.start ∧ t.size = start.size) ?_ run ?_
  · rintro labels state label next holds ⟨u, rfl, ran⟩ t rfl
    obtain ⟨inv, pins, data, place, length⟩ := holds u rfl
    have move := logStep_move ran
    obtain ⟨same, equal⟩ := move.geometry
    have room : logsize ≤ u.size := by
      rw [length]
      exact large
    rw [logTrace_snoc, committed_snoc]
    exact ⟨inv.step move, pins.step inv room move, data.step inv pins room move,
      same.trans place, equal.trans length⟩
  · rintro t same
    cases same
    exact ⟨.initial first, .initial first, .initial first, rfl, rfl⟩

/-- At a commit point no operation is in progress. -/
theorem head_whole {start : LogState P} {before after : List (LogLabel P)} {q : P}
    (first : start.Initial)
    (run : (logSystem P).Run (.ok start) (before ++ .head q :: after) (.ok s)) (p : P) :
    (logTrace before).inOp p = false := by
  obtain ⟨middle, earlier, later⟩ := run.split
  obtain ⟨there, ⟨u, rfl, ran⟩, rest⟩ := later.uncons
  have inv := (LogInv.run first earlier u rfl).1
  have move := logStep_move ran
  cases move with
  | head pc => exact inv.none_inOp pc p
  | noBuffers breads => cases (logSystem_stopped rest).2

/--
Any number of processes that bracket their `log_write`s, in any interleaving:
with a log as large as `mkfs` makes it, the commits are group commits.
-/
theorem group_commit {start : LogState P} {labels : List (LogLabel P)}
    (first : start.Initial) (mkfs : logsize ≤ start.size)
    (run : (logSystem P).Run (.ok start) labels (.ok s)) :
    GroupCommit start.mem.disk labels s := by
  obtain ⟨inv, _, data, _, _⟩ := LogData.run first mkfs run s rfl
  have idle : (∀ p tail, s.op p ≠ .commit (.install tail)) → ∀ b,
      ¬ InLog s.start s.size b → s.mem.disk b = applyWrites (committed labels) start.mem.disk b := by
    intro none b outer
    refine data.disk b outer fun p pc here => ?_
    cases pc with
    | install tail => exact absurd here (none p tail)
    | _ => exact List.not_mem_nil
  refine ⟨fun p pc => inv.none_inOp, fun busy p => ?_, fun label next => inv.safe, ?_,
    fun p here => ⟨inv.entries.nodup, inv.entries.early_of inv.control here rfl,
      fun i b entry => ?_⟩, idle, fun none free => ?_⟩
  · cases ran : logStep s (.begin p) with
    | none => rfl
    | some next =>
        have move := logStep_move ran
        cases move with
        | begin _ free _ =>
            rw [busy] at free
            cases free
        | noBuffers breads => cases breads
  · rintro before p during q after rfl
    by_contra going
    rw [← List.cons_append, ← List.append_assoc] at run
    have closed := head_whole first run p
    have begun : ((logTrace before).observe (.begin p)).inOp p = true := Function.update_self _ _ _
    have still := inOp_of_not_ended begun going
    rw [logTrace, List.foldl_append] at closed
    exact Bool.false_ne_true (closed.symm.trans still)
  · have short : i < s.lh.length := (List.getElem?_eq_some_iff.mp entry).1
    have outer := data.home b (List.mem_of_getElem? entry)
    have alone : ∀ q tail, s.op q ≠ .commit (.install tail) := by
      intro q tail there
      by_cases self : q = p
      · rw [self, here] at there
        cases there
      · rw [(inv.control.alone p _ here).2 q self] at there
        cases there
    rw [data.body p _ here i b short entry,
      data.buf b outer (inv.calls.unlocked inv.control here b), applyWrites_append]
    exact applyWrites_congr _ (idle alone b outer).symm
  · have empty := inv.entries.drained free none
    have listed := inv.entries.early fun p pc here => by
      rw [(inv.control.alone p pc here).1] at free
      cases free
    rw [empty] at listed
    exact List.map_eq_nil_iff.mp (List.eq_nil_iff_forall_not_mem.mpr fun b member =>
      List.not_mem_nil ((listed b).mpr member))

end Group

/-! ## A commit by itself -/

section Alone

variable {P : Type} [DecidableEq P] {s : LogState P} {p : P}

theorem commit_runs {pc : CommitPc} (here : s.op p = .commit pc) :
    logStep s (.commit p) = commitStep s p pc := by
  unfold logStep
  dsimp only
  rw [here]

omit [DecidableEq P] in
/-- While a buffer can be recycled, two blocks can be read of which the second is pinned. -/
theorem hasBuffers_of {first second : Nat} (few : s.pinned.card < nbuf) (found : second ∈ s.pinned) :
    s.hasBuffers first second = true := by
  have pinned : second ∈ insert first s.pinned := Finset.mem_insert_of_mem found
  unfold LogState.hasBuffers LogState.hasBuffer
  rw [decide_eq_true few, decide_eq_true pinned, Bool.or_true]
  rfl

/-- A loop of `commit` over the entries `rest` of the header from number `tail` on. -/
theorem commit_loop {phase : Nat → CommitPc} {after : CommitPc}
    (io : Nat → Nat × Nat → Io) (drop : Finset Nat → Nat → Finset Nat)
    (copies : ∀ (s : LogState P) tail b, s.op p = .commit (phase tail) → s.lh[tail]? = some b →
      s.hasBuffers (s.start + tail + 1) b = true → s.canCopy (s.start + tail + 1) b = true →
      logStep s (.commit p) = some (.ok (({ s with pinned := drop s.pinned b }.setMem
        ((io s.start (b, tail)).run s.start s.mem)).setOp p (.commit (phase (tail + 1))))))
    (ends : ∀ (s : LogState P) tail, s.op p = .commit (phase tail) → s.lh[tail]? = none →
      logStep s (.commit p) = some (.ok (s.setOp p (.commit after))))
    (fewer : ∀ F b, (drop F b).card ≤ F.card) (keeps : ∀ F b c, c ∈ F → c ≠ b → c ∈ drop F b)
    (rest earlier : List Nat) (here : s.op p = .commit (phase earlier.length))
    (split : s.lh = earlier ++ rest) (unlocked : ∀ b, s.holder b = none)
    (few : s.pinned.card < nbuf) (pinned : ∀ b ∈ rest, b ∈ s.pinned) (nodup : rest.Nodup)
    (apart : ∀ i b, s.lh[i]? = some b → s.start + i + 1 ≠ b) :
    (logSystem P).Run (.ok s) (List.replicate (rest.length + 1) (.commit p))
      (.ok (({ s with pinned := rest.foldl drop s.pinned }.setMem
        (runIo s.start s.mem ((rest.zipIdx earlier.length).map (io s.start)))).setOp p
          (.commit after))) := by
  induction rest generalizing s earlier with
  | nil =>
      rw [List.append_nil] at split
      have behind : s.lh[earlier.length]? = none := by
        rw [split]
        exact List.getElem?_eq_none (Nat.le_refl _)
      exact .snoc (.nil _) ⟨s, rfl, ends s _ here behind⟩
  | cons b rest ih =>
      rw [List.nodup_cons] at nodup
      have entry : s.lh[earlier.length]? = some b := by
        rw [split, List.getElem?_append_right (Nat.le_refl _), Nat.sub_self]
        rfl
      have can : s.canCopy (s.start + earlier.length + 1) b = true := by
        unfold LogState.canCopy
        rw [unlocked, unlocked, bne_iff_ne.mpr (apart _ _ entry)]
        rfl
      have stepped := copies s _ b here entry
        (hasBuffers_of few (pinned b List.mem_cons_self)) can
      generalize next : ({ s with pinned := drop s.pinned b }.setMem
        ((io s.start (b, earlier.length)).run s.start s.mem)).setOp p
          (.commit (phase (earlier.length + 1))) = t at stepped
      have long : (earlier ++ [b]).length = earlier.length + 1 := List.length_append
      have loop := ih (s := t) (earlier ++ [b])
        (by rw [long, ← next]; exact LogState.setOp_self _ _ _)
        (by rw [← next, List.append_assoc]; exact split) (by rw [← next]; exact unlocked)
        (by rw [← next]; exact Nat.lt_of_le_of_lt (fewer s.pinned b) few)
        (fun c member => by
          rw [← next]
          refine keeps s.pinned b c (pinned c (List.mem_cons_of_mem b member)) ?_
          rintro rfl
          exact nodup.1 member)
        nodup.2 (by rw [← next]; exact apart)
      have first : (logSystem P).Run (.ok s) ([] ++ [.commit p]) (.ok t) :=
        .snoc (.nil _) ⟨s, rfl, stepped⟩
      have whole := first.append loop
      have last : ({ t with pinned := rest.foldl drop t.pinned }.setMem
          (runIo t.start t.mem ((rest.zipIdx (earlier ++ [b]).length).map (io t.start)))).setOp p
            (.commit after) =
          ({ s with pinned := (b :: rest).foldl drop s.pinned }.setMem
            (runIo s.start s.mem (((b :: rest).zipIdx earlier.length).map (io s.start)))).setOp p
              (.commit after) := by
        rw [long, ← next]
        unfold LogState.setOp LogState.setMem
        dsimp only
        rw [Function.update_idem]
        rfl
      rw [last] at whole
      exact whole

/-- A round of the loops of `write_log` and `install_trans` with buffers to spare copies one block. -/
theorem round_copies (s : LogState P) (tail b : Nat) (entry : s.lh[tail]? = some b)
    (buffers : s.hasBuffers (s.start + tail + 1) b = true)
    (can : s.canCopy (s.start + tail + 1) b = true) :
    (s.op p = .commit (.writeLog tail) → logStep s (.commit p) = some (.ok ((s.setMem
      ((Io.copy (s.start + tail + 1) b).run s.start s.mem)).setOp p
        (.commit (.writeLog (tail + 1)))))) ∧
    (s.op p = .commit (.install tail) →
      logStep s (.commit p) = some (.ok (({ s with pinned := s.pinned.erase b }.setMem
        ((Io.copy b (s.start + tail + 1)).run s.start s.mem)).setOp p
          (.commit (.install (tail + 1)))))) := by
  constructor <;>
  · intro here
    rw [commit_runs here]
    unfold commitStep
    dsimp only
    rw [entry]
    dsimp only
    rw [if_neg (not_not_intro buffers), if_pos can]

/-- Behind the last block they end. -/
theorem round_ends (s : LogState P) (tail : Nat) (behind : s.lh[tail]? = none) :
    (s.op p = .commit (.writeLog tail) →
      logStep s (.commit p) = some (.ok (s.setOp p (.commit .writeHead)))) ∧
    (s.op p = .commit (.install tail) →
      logStep s (.commit p) = some (.ok (s.setOp p (.commit .clear)))) := by
  constructor <;>
  · intro here
    rw [commit_runs here]
    unfold commitStep
    dsimp only
    rw [behind]

theorem eraseHead_runs (here : s.op p = .commit .eraseHead) (buffer : s.hasBuffer s.start = true) :
    logStep s (.commit p) = some (.ok ((s.setMem ((Io.head s.lh).run s.start s.mem)).setOp p
      (.commit .leave))) := by
  rw [commit_runs here]
  unfold commitStep
  dsimp only
  rw [if_neg (not_not_intro buffer)]

/-- A `commit` with a buffer to spare does the block writes of `commitIo`. -/
theorem commit_completes (here : s.op p = .commit .enter) (some : s.lh ≠ [])
    (unlocked : ∀ b, s.holder b = none) (few : s.pinned.card < nbuf)
    (pinned : ∀ b ∈ s.lh, b ∈ s.pinned) (nodup : s.lh.Nodup)
    (apart : ∀ i b, s.lh[i]? = .some b → s.start + i + 1 ≠ b) :
    ∃ n m t, (logSystem P).Run (.ok s)
        (List.replicate n (.commit p) ++ [.head p] ++ List.replicate m (.commit p)) (.ok t) ∧
      t.mem = runIo s.start s.mem (commitIo s.start s.lh) ∧
      t.op = Function.update s.op p .idle ∧ t.committing = false := by
  have long := List.length_pos_of_ne_nil some
  have entered : logStep s (.commit p) = .some (.ok (s.setOp p (.commit (.writeLog 0)))) := by
    rw [commit_runs here]
    unfold commitStep
    dsimp only
    rw [if_pos long]
  have run₁ : (logSystem P).Run (.ok s) (List.replicate 1 (.commit p))
      (.ok (s.setOp p (.commit (.writeLog 0)))) := .snoc (.nil _) ⟨s, rfl, entered⟩
  have writing := commit_loop (s := s.setOp p (.commit (.writeLog 0))) (p := p)
    (fun start entry => .copy (start + entry.2 + 1) entry.1) (fun F _ => F)
    (fun s tail b here entry buffers can => (round_copies s tail b entry buffers can).1 here)
    (fun s tail here behind => (round_ends s tail behind).1 here) (fun F _ => Nat.le_refl F.card) (fun _ _ _ member _ => member) s.lh []
    (LogState.setOp_self _ _ _) rfl unlocked few pinned nodup apart
  have whole : ∀ lh : List Nat, lh.foldl (fun (F : Finset Nat) _ => F) s.pinned = s.pinned := by
    intro lh
    induction lh with
    | nil => rfl
    | cons b lh ih => exact ih
  generalize first : ({ s.setOp p (.commit (.writeLog 0)) with pinned := _ }.setMem _).setOp p
    (.commit .writeHead) = t at writing
  have lh : t.lh = s.lh := by rw [← first]; rfl
  have held : t.pinned = s.pinned := by
    rw [← first]
    exact whole s.lh
  have one (u : LogState P) (fewer : u.pinned.card < nbuf) : u.hasBuffer u.start = true := by
    rw [LogState.hasBuffer, decide_eq_true fewer, Bool.or_true]
  have headed : logStep t (.head p) = .some (.ok ((t.setMem ((Io.head t.lh).run t.start
      t.mem)).setOp p (.commit (.install 0)))) := by
    have free := one t (by rw [held]; exact few)
    unfold logStep
    dsimp only
    have pc : t.op p = .commit .writeHead := by
      rw [← first]
      exact LogState.setOp_self _ _ _
    rw [pc]
    exact if_neg (not_not_intro free)
  generalize second : (t.setMem ((Io.head t.lh).run t.start t.mem)).setOp p
    (.commit (.install 0)) = u at headed
  have held' : u.pinned = s.pinned := by rw [← second]; exact held
  have installing := commit_loop (s := u) (p := p)
    (fun start entry => .copy entry.1 (start + entry.2 + 1)) Finset.erase
    (fun s tail b here entry buffers can => (round_copies s tail b entry buffers can).2 here)
    (fun s tail here behind => (round_ends s tail behind).2 here) (fun F b => Finset.card_erase_le)
    (fun F b c member other => Finset.mem_erase.mpr ⟨other, member⟩) s.lh []
    (by rw [← second]; exact LogState.setOp_self _ _ _)
    (by rw [← second]; exact lh) (by rw [← second, ← first]; exact unlocked)
    (by rw [held']; exact few) (by rw [held']; exact pinned) nodup
    (by rw [← second, ← first]; exact apart)
  have shrinks : ∀ (bs : List Nat) (F : Finset Nat), (bs.foldl Finset.erase F).card ≤ F.card := by
    intro bs
    induction bs with
    | nil => exact fun F => Nat.le_refl F.card
    | cons b bs ih => exact fun F => Nat.le_trans (ih (F.erase b)) Finset.card_erase_le
  have last : (s.lh.foldl Finset.erase u.pinned).card < nbuf := by
    rw [held']
    exact Nat.lt_of_le_of_lt (shrinks s.lh s.pinned) few
  generalize third : ({ u with pinned := s.lh.foldl Finset.erase u.pinned }.setMem _).setOp p
    (.commit .clear) = v at installing
  have behind : v.op p = .commit .clear := by
    rw [← third]
    exact LogState.setOp_self _ _ _
  have free : v.pinned.card < nbuf := by
    rw [← third]
    exact last
  have cleared : logStep v (.commit p) =
      .some (.ok ({ v with lh := [] }.setOp p (.commit .eraseHead))) := commit_runs behind
  have erased := eraseHead_runs (s := { v with lh := [] }.setOp p (.commit .eraseHead)) (p := p)
    (LogState.setOp_self _ _ _) (one _ free)
  have left := commit_runs (s := (({ v with lh := [] }.setOp p (.commit .eraseHead)).setMem
    ((Io.head []).run v.start v.mem)).setOp p (.commit .leave)) (p := p) (LogState.setOp_self _ _ _)
  have place₁ : t.start = s.start := by rw [← first]; rfl
  have place₂ : u.start = s.start := by rw [← second]; exact place₁
  have place₃ : v.start = s.start := by rw [← third]; exact place₂
  have run₂ := run₁.append writing
  have run₃ := installing.append (.snoc (.snoc (.snoc (.nil _) ⟨v, rfl, cleared⟩)
    ⟨_, rfl, erased⟩) ⟨_, rfl, left⟩)
  have tail : [] ++ [LogLabel.commit p] ++ [.commit p] ++ [.commit p] =
    List.replicate 3 (.commit p) := rfl
  rw [List.replicate_append_replicate] at run₂
  rw [tail, List.replicate_append_replicate] at run₃
  refine ⟨_, _, _, (run₂.snoc ⟨t, rfl, headed⟩).append run₃, ?_, ?_, rfl⟩
  · have mem₁ : t.mem = runIo s.start s.mem (writeLog s.start s.lh) := by rw [← first]; rfl
    have mem₂ : u.mem = (Io.head s.lh).run s.start t.mem := by
      rw [← second, ← place₁, ← lh]
      rfl
    have mem₃ : v.mem = runIo s.start u.mem (installTrans s.start s.lh) := by
      rw [← third, ← place₂]
      rfl
    rw [commitIo, if_pos long, runIo_append, ← mem₁]
    change (Io.head []).run v.start v.mem = runIo s.start ((Io.head s.lh).run s.start t.mem) _
    rw [runIo_append, ← mem₂, ← mem₃, place₃]
    rfl
  · change Function.update (Function.update (Function.update v.op _ _) _ _) _ _ = _
    rw [Function.update_idem, Function.update_idem, ← third, ← second, ← first]
    change Function.update (Function.update (Function.update (Function.update (Function.update _
      _ _) _ _) _ _) _ _) _ _ = _
    rw [Function.update_idem, Function.update_idem, Function.update_idem, Function.update_idem]

/--
With as many entries as the cache has buffers, all of them are pinned, and
`write_log` stops at its first `bread`.
-/
theorem commit_stops {start : LogState P} {labels : List (LogLabel P)} (first : start.Initial)
    (mkfs : logsize ≤ start.size) (run : (logSystem P).Run (.ok start) labels (.ok s))
    (here : s.op p = .commit (.writeLog 0)) (full : s.lh.length = nbuf) :
    logStep s (.commit p) = some (.error .noBuffers) := by
  obtain ⟨inv, pins, _, _, size⟩ := LogData.run first mkfs run s rfl
  have many : nbuf = 30 := rfl
  have small : logsize = 30 := rfl
  have none : s.hasBuffer (s.start + 0 + 1) = false := by
    refine Bool.or_eq_false_iff.mpr ⟨decide_eq_false fun member => ?_, decide_eq_false ?_⟩
    · refine pins.home _ member ?_
      unfold InLog
      omega
    · have listed := pins.length_le inv.control inv.entries here rfl
      omega
  obtain ⟨b, entry⟩ : ∃ b, s.lh[0]? = some b := ⟨_, List.getElem?_eq_getElem (by omega)⟩
  rw [commit_runs here]
  unfold commitStep
  dsimp only
  rw [entry]
  dsimp only
  rw [if_pos]
  rw [LogState.hasBuffers, none]
  exact Bool.false_ne_true

end Alone

section Sample

/-- Blocks 33 and 32 are logged by two operations, block 32 by both, and committed together. -/
def absorbing : List (LogLabel (Fin 3)) :=
  [.begin 0, .begin 1, .fill 0 32 fun _ => 1, .check 0, .fill 1 33 fun _ => 2, .check 1,
    .record 1, .record 0, .endOp 0, .fill 1 32 fun _ => 3, .check 1, .record 1, .endOp 1] ++
  List.replicate 4 (.commit 1) ++ [.head 1] ++ List.replicate 6 (.commit 1)

/-- The last contents are at home, and the second `log_write` of block 32 was absorbed. -/
theorem group_commit_absorbs : ∃ s, (sampleLog 0).Initial ∧
    (logSystem (Fin 3)).Run (.ok (sampleLog 0)) absorbing (.ok s) ∧
    GroupCommit (sampleLog 0).mem.disk absorbing s ∧ s.op 1 = .idle ∧
    (committed absorbing).map Prod.fst = [33, 32, 32] ∧ s.mem.disk 32 0 = 3 := by
  have ends : (absorbing.foldlM logRun (.ok (sampleLog 0))).bind (fun
      | .ok s => some (s.op 1, s.mem.disk 32 0)
      | .error _ => none) = some (.idle, 3) := by
    decide +kernel
  obtain ⟨r, ran, is⟩ := Option.bind_eq_some_iff.mp ends
  cases r with
  | error reason => cases is
  | ok s =>
      obtain ⟨idle, byte⟩ := Prod.mk.inj (Option.some.inj is)
      have run := System.Run.of_fold logRun_step ran
      exact ⟨s, sampleLog_initial, run, group_commit sampleLog_initial (Nat.le_refl _) run, idle,
        rfl, byte⟩

end Sample

end SlabStudy.Xv6
