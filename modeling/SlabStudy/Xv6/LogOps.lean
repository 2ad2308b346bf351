import Mathlib.Data.Finset.Card
import SlabStudy.Library.Runs
import SlabStudy.Xv6.Log

/-!
# Concurrent use of the log

`begin_op`, `log_write` and `end_op` of `log.c`, run by any number of
processes.  A step is one critical section of `log.lock`, the unlocked tests
at the start of `log_write`, or one piece of `commit`, which runs without the
lock.  A process that sleeps in `begin_op` is one that has not taken its step.
A logged buffer stays in the cache until it is installed, so `bget` may find
none to recycle.
-/

namespace SlabStudy.Xv6

open Library

/-- The calls of `panic` in `log.c` and `bget`, and the store behind `lh.block[LOGSIZE-1]`. -/
inductive LogPanic where
  | tooBig
  | outsideTrans
  | committing
  | overrun
  | noBuffers
  deriving DecidableEq, Repr

/-- Where a process is in `commit`. -/
inductive CommitPc where
  | enter
  | writeLog (tail : Nat)
  | writeHead
  | install (tail : Nat)
  | clear
  | eraseHead
  | leave
  deriving DecidableEq, Repr

/--
Where a process is.  `logged` collects the distinct blocks of its operation;
the source does not keep it.
-/
inductive OpState where
  | idle
  | active (logged : Finset Nat)
  | logging (logged : Finset Nat) (b : Nat)
  | checked (logged : Finset Nat) (b : Nat)
  | commit (pc : CommitPc)
  deriving DecidableEq

/--
`struct log`, the buffers with their sleep-locks, and the processes.  `pinned`
are the blocks whose buffers `bget` does not recycle: the logging processes
hold them, or they have `B_DIRTY`.
-/
structure LogState (P : Type) where
  start : Nat
  size : Nat
  outstanding : Int
  committing : Bool
  lh : List Nat
  mem : Buffers
  holder : Nat → Option P
  pinned : Finset Nat
  op : P → OpState

/-- What the processes do. -/
inductive LogLabel (P : Type) where
  /-- `begin_op` finds room. -/
  | begin (p : P)
  /-- The caller has filled block `b`, and calls `log_write` with the buffer locked. -/
  | fill (p : P) (b : Nat) (data : Block)
  /-- The tests at the start of `log_write`. -/
  | check (p : P)
  /-- The critical section of `log_write`; the caller then releases the buffer. -/
  | record (p : P)
  /-- The critical section of `end_op`. -/
  | endOp (p : P)
  /-- The header write that commits. -/
  | head (p : P)
  /-- Any other piece of `commit` and of the end of `end_op`. -/
  | commit (p : P)

/-- The steps that call `bread`. -/
def LogLabel.breads {P : Type} : LogLabel P → Bool
  | .fill _ _ _ => true
  | .head _ => true
  | .commit _ => true
  | _ => false

section Steps

variable {P : Type} [DecidableEq P]

namespace LogState

def setOp (s : LogState P) (p : P) (op : OpState) : LogState P :=
  { s with op := Function.update s.op p op }

def setMem (s : LogState P) (mem : Buffers) : LogState P := { s with mem := mem }

end LogState

/-- `bread` of two blocks in a row: each has to be unlocked, and they have to differ. -/
def LogState.canCopy (s : LogState P) (dst src : Nat) : Bool :=
  (s.holder dst).isNone && (s.holder src).isNone && dst != src

/-- `bget` has a buffer for block `b`: it is cached, or there is one to recycle. -/
def LogState.hasBuffer (s : LogState P) (b : Nat) : Bool := b ∈ s.pinned || s.pinned.card < nbuf

/-- The same for a block and, while it is held, another one. -/
def LogState.hasBuffers (s : LogState P) (first second : Nat) : Bool :=
  s.hasBuffer first && { s with pinned := insert first s.pinned }.hasBuffer second

/-- One piece of `commit`, other than the header write that commits. -/
def commitStep (s : LogState P) (p : P) : CommitPc → Option (Except LogPanic (LogState P))
  | .enter =>
      if s.lh.length > 0 then some (.ok (s.setOp p (.commit (.writeLog 0))))
      else some (.ok (s.setOp p (.commit .leave)))
  | .writeLog tail =>
      match s.lh[tail]? with
      | some b =>
          if ¬ s.hasBuffers (s.start + tail + 1) b then some (.error .noBuffers)
          else if s.canCopy (s.start + tail + 1) b then
            some (.ok ((s.setMem ((Io.copy (s.start + tail + 1) b).run s.start s.mem)).setOp p
              (.commit (.writeLog (tail + 1)))))
          else none
      | none => some (.ok (s.setOp p (.commit .writeHead)))
  | .writeHead => none
  | .install tail =>
      match s.lh[tail]? with
      | some b =>
          if ¬ s.hasBuffers (s.start + tail + 1) b then some (.error .noBuffers)
          else if s.canCopy (s.start + tail + 1) b then
            -- `bwrite` clears `B_DIRTY`
            some (.ok (({ s with pinned := s.pinned.erase b }.setMem
              ((Io.copy b (s.start + tail + 1)).run s.start s.mem)).setOp p
                (.commit (.install (tail + 1)))))
          else none
      | none => some (.ok (s.setOp p (.commit .clear)))
  | .clear => some (.ok ({ s with lh := [] }.setOp p (.commit .eraseHead)))
  | .eraseHead =>
      if ¬ s.hasBuffer s.start then some (.error .noBuffers)
      else some (.ok ((s.setMem ((Io.head s.lh).run s.start s.mem)).setOp p (.commit .leave)))
  | .leave => some (.ok ({ s with committing := false }.setOp p .idle))

/-- One step; `none` when the process cannot take it. -/
def logStep (s : LogState P) : LogLabel P → Option (Except LogPanic (LogState P))
  | .begin p =>
      match s.op p with
      | .idle =>
          if s.committing then none
          else if s.lh.length + (s.outstanding + 1) * maxopblocks > logsize then none
          else some (.ok ({ s with outstanding := s.outstanding + 1 }.setOp p (.active ∅)))
      | _ => none
  | .fill p b data =>
      match s.op p with
      | .active logged =>
          -- the file system logs home blocks only, and their numbers are words
          if (s.start ≤ b ∧ b < s.start + s.size) ∨ 2 ^ 32 ≤ b then none
          else if ¬ s.hasBuffer b then some (.error .noBuffers)
          else if (s.holder b).isSome then none
          else some (.ok ({ s with
            mem := ⟨s.mem.disk, Function.update s.mem.buf b data⟩,
            holder := Function.update s.holder b (some p),
            pinned := insert b s.pinned }.setOp p (.logging (insert b logged) b)))
      | _ => none
  | .check p =>
      match s.op p with
      | .logging logged b =>
          if s.lh.length ≥ logsize ∨ (s.lh.length : Int) ≥ s.size - 1 then some (.error .tooBig)
          else if s.outstanding < 1 then some (.error .outsideTrans)
          else some (.ok (s.setOp p (.checked logged b)))
      | _ => none
  | .record p =>
      match s.op p with
      | .checked logged b =>
          -- an equal block number is found and stored again
          if b ∈ s.lh then
            some (.ok ({ s with holder := Function.update s.holder b none }.setOp p
              (.active logged)))
          else if s.lh.length < logsize then
            some (.ok ({ s with
              lh := s.lh ++ [b],
              holder := Function.update s.holder b none }.setOp p (.active logged)))
          else some (.error .overrun)
      | _ => none
  | .endOp p =>
      match s.op p with
      | .active _ =>
          if s.committing then some (.error .committing)
          else if s.outstanding - 1 = 0 then
            some (.ok ({ s with outstanding := s.outstanding - 1, committing := true }.setOp p
              (.commit .enter)))
          else some (.ok ({ s with outstanding := s.outstanding - 1 }.setOp p .idle))
      | _ => none
  | .head p =>
      match s.op p with
      | .commit .writeHead =>
          if ¬ s.hasBuffer s.start then some (.error .noBuffers)
          else some (.ok ((s.setMem ((Io.head s.lh).run s.start s.mem)).setOp p
            (.commit (.install 0))))
      | _ => none
  | .commit p =>
      match s.op p with
      | .commit pc => commitStep s p pc
      | _ => none

/-- The log after `initlog`, with no file system call in progress. -/
structure LogState.Initial (s : LogState P) : Prop where
  outstanding : s.outstanding = 0
  committing : s.committing = false
  lh : s.lh = []
  clean : s.mem.buf = s.mem.disk
  holder : ∀ b, s.holder b = none
  pinned : s.pinned = ∅
  op : ∀ p, s.op p = .idle

/-- The machine stops at a panic. -/
def logSystem (P : Type) [DecidableEq P] :
    System (Except LogPanic (LogState P)) (LogLabel P) where
  initial r := ∃ s, r = .ok s ∧ s.Initial
  step r label next := ∃ s, r = .ok s ∧ logStep s label = some next

/-- A step as a function. -/
def logRun : Except LogPanic (LogState P) → LogLabel P → Option (Except LogPanic (LogState P))
  | .ok s, label => logStep s label
  | .error _, _ => none

theorem logRun_step (r : Except LogPanic (LogState P)) (label : LogLabel P)
    (next : Except LogPanic (LogState P)) (ran : logRun r label = some next) :
    (logSystem P).step r label next := by
  cases r with
  | error reason => cases ran
  | ok s => exact ⟨s, rfl, ran⟩

/-! ## What a step can do -/

/-- Every way a step can go. -/
inductive LogMove (s : LogState P) : LogLabel P → Except LogPanic (LogState P) → Prop where
  | begin {p : P} (idle : s.op p = .idle) (free : s.committing = false)
      (room : s.lh.length + (s.outstanding + 1) * maxopblocks ≤ logsize) :
      LogMove s (.begin p)
        (.ok ({ s with outstanding := s.outstanding + 1 }.setOp p (.active ∅)))
  | noBuffers {label : LogLabel P} (breads : label.breads = true) :
      LogMove s label (.error .noBuffers)
  | fill {p : P} {b : Nat} {data : Block} {logged : Finset Nat} (active : s.op p = .active logged)
      (unlocked : s.holder b = none) (home : ¬ InLog s.start s.size b) (word : b < 2 ^ 32)
      (buffer : s.hasBuffer b = true) :
      LogMove s (.fill p b data) (.ok ({ s with
        mem := ⟨s.mem.disk, Function.update s.mem.buf b data⟩,
        holder := Function.update s.holder b (some p),
        pinned := insert b s.pinned }.setOp p (.logging (insert b logged) b)))
  | tooBig {p : P} {b : Nat} {logged : Finset Nat} (logging : s.op p = .logging logged b)
      (full : s.lh.length ≥ logsize ∨ (s.lh.length : Int) ≥ s.size - 1) :
      LogMove s (.check p) (.error .tooBig)
  | outsideTrans {p : P} {b : Nat} {logged : Finset Nat} (logging : s.op p = .logging logged b)
      (none : s.outstanding < 1) : LogMove s (.check p) (.error .outsideTrans)
  | check {p : P} {b : Nat} {logged : Finset Nat} (logging : s.op p = .logging logged b)
      (entry : s.lh.length < logsize) (room : s.lh.length + 1 < s.size) :
      LogMove s (.check p) (.ok (s.setOp p (.checked logged b)))
  | absorb {p : P} {b : Nat} {logged : Finset Nat} (checked : s.op p = .checked logged b)
      (present : b ∈ s.lh) :
      LogMove s (.record p) (.ok ({ s with
        holder := Function.update s.holder b none }.setOp p (.active logged)))
  | append {p : P} {b : Nat} {logged : Finset Nat} (checked : s.op p = .checked logged b)
      (absent : b ∉ s.lh) (entry : s.lh.length < logsize) :
      LogMove s (.record p) (.ok ({ s with
        lh := s.lh ++ [b],
        holder := Function.update s.holder b none }.setOp p (.active logged)))
  | overrun {p : P} {b : Nat} {logged : Finset Nat} (checked : s.op p = .checked logged b)
      (absent : b ∉ s.lh) (full : logsize ≤ s.lh.length) :
      LogMove s (.record p) (.error .overrun)
  | committing {p : P} {logged : Finset Nat} (active : s.op p = .active logged)
      (busy : s.committing = true) : LogMove s (.endOp p) (.error .committing)
  | endLast {p : P} {logged : Finset Nat} (active : s.op p = .active logged)
      (free : s.committing = false) (last : s.outstanding = 1) :
      LogMove s (.endOp p) (.ok ({ s with outstanding := 0, committing := true }.setOp p
        (.commit .enter)))
  | endOther {p : P} {logged : Finset Nat} (active : s.op p = .active logged)
      (free : s.committing = false) (more : s.outstanding ≠ 1) :
      LogMove s (.endOp p)
        (.ok ({ s with outstanding := s.outstanding - 1 }.setOp p .idle))
  | head {p : P} (pc : s.op p = .commit .writeHead) :
      LogMove s (.head p) (.ok ((s.setMem ((Io.head s.lh).run s.start s.mem)).setOp p
        (.commit (.install 0))))
  | enter {p : P} (pc : s.op p = .commit .enter) (some : s.lh ≠ []) :
      LogMove s (.commit p) (.ok (s.setOp p (.commit (.writeLog 0))))
  | nothing {p : P} (pc : s.op p = .commit .enter) (none : s.lh = []) :
      LogMove s (.commit p) (.ok (s.setOp p (.commit .leave)))
  | writeLog {p : P} {tail b : Nat} (pc : s.op p = .commit (.writeLog tail))
      (entry : s.lh[tail]? = some b) (buffers : s.hasBuffers (s.start + tail + 1) b = true)
      (can : s.canCopy (s.start + tail + 1) b = true) :
      LogMove s (.commit p) (.ok ((s.setMem ((Io.copy (s.start + tail + 1) b).run s.start
        s.mem)).setOp p (.commit (.writeLog (tail + 1)))))
  | written {p : P} {tail : Nat} (pc : s.op p = .commit (.writeLog tail))
      (behind : s.lh[tail]? = none) : LogMove s (.commit p) (.ok (s.setOp p (.commit .writeHead)))
  | install {p : P} {tail b : Nat} (pc : s.op p = .commit (.install tail))
      (entry : s.lh[tail]? = some b) (buffers : s.hasBuffers (s.start + tail + 1) b = true)
      (can : s.canCopy (s.start + tail + 1) b = true) :
      LogMove s (.commit p) (.ok (({ s with pinned := s.pinned.erase b }.setMem
        ((Io.copy b (s.start + tail + 1)).run s.start s.mem)).setOp p
          (.commit (.install (tail + 1)))))
  | installed {p : P} {tail : Nat} (pc : s.op p = .commit (.install tail))
      (behind : s.lh[tail]? = none) : LogMove s (.commit p) (.ok (s.setOp p (.commit .clear)))
  | clear {p : P} (pc : s.op p = .commit .clear) :
      LogMove s (.commit p) (.ok ({ s with lh := [] }.setOp p (.commit .eraseHead)))
  | eraseHead {p : P} (pc : s.op p = .commit .eraseHead) :
      LogMove s (.commit p) (.ok ((s.setMem ((Io.head s.lh).run s.start s.mem)).setOp p
        (.commit .leave)))
  | leave {p : P} (pc : s.op p = .commit .leave) :
      LogMove s (.commit p) (.ok ({ s with committing := false }.setOp p .idle))

variable {s : LogState P} {next : Except LogPanic (LogState P)} {label : LogLabel P}

theorem commitStep_move {p : P} {pc : CommitPc} (here : s.op p = .commit pc)
    (ran : commitStep s p pc = some next) : LogMove s (.commit p) next := by
  cases pc with
  | enter =>
      unfold commitStep at ran
      dsimp only at ran
      split at ran
      · next some =>
          cases ran
          exact .enter here (List.ne_nil_of_length_pos some)
      · next none =>
          cases ran
          exact .nothing here (List.eq_nil_of_length_eq_zero (by omega))
  | writeLog tail =>
      unfold commitStep at ran
      dsimp only at ran
      split at ran
      · next b entry =>
          split at ran
          · cases ran
            exact .noBuffers rfl
          · next buffers =>
              split at ran
              · next can =>
                  cases ran
                  exact .writeLog here entry (by simpa using buffers) can
              · cases ran
      · next behind =>
          cases ran
          exact .written here behind
  | writeHead => cases ran
  | install tail =>
      unfold commitStep at ran
      dsimp only at ran
      split at ran
      · next b entry =>
          split at ran
          · cases ran
            exact .noBuffers rfl
          · next buffers =>
              split at ran
              · next can =>
                  cases ran
                  exact .install here entry (by simpa using buffers) can
              · cases ran
      · next behind =>
          cases ran
          exact .installed here behind
  | clear =>
      cases ran
      exact .clear here
  | eraseHead =>
      unfold commitStep at ran
      dsimp only at ran
      split at ran
      · cases ran
        exact .noBuffers rfl
      · cases ran
        exact .eraseHead here
  | leave =>
      cases ran
      exact .leave here

theorem logStep_move (ran : logStep s label = some next) : LogMove s label next := by
  cases label with
  | begin p =>
      unfold logStep at ran
      dsimp only at ran
      split at ran
      · next idle =>
          split at ran
          · cases ran
          · next free =>
              split at ran
              · cases ran
              · next room =>
                  cases ran
                  exact .begin idle (Bool.eq_false_of_not_eq_true free) (by omega)
      · cases ran
  | fill p b data =>
      unfold logStep at ran
      dsimp only at ran
      split at ran
      · next logged active =>
          split at ran
          · cases ran
          · next home =>
              split at ran
              · cases ran
                exact .noBuffers rfl
              · next buffer =>
                  split at ran
                  · cases ran
                  · next free =>
                      cases ran
                      exact .fill active (Option.not_isSome_iff_eq_none.mp free)
                        (fun inside => home (.inl inside)) (by omega) (by simpa using buffer)
      · cases ran
  | check p =>
      unfold logStep at ran
      dsimp only at ran
      split at ran
      · next logged b logging =>
          split at ran
          · next full =>
              cases ran
              exact .tooBig logging full
          · next room =>
              split at ran
              · next none =>
                  cases ran
                  exact .outsideTrans logging none
              · cases ran
                exact .check logging (by omega) (by omega)
      · cases ran
  | record p =>
      unfold logStep at ran
      dsimp only at ran
      split at ran
      · next logged b checked =>
          split at ran
          · next present =>
              cases ran
              exact .absorb checked present
          · next absent =>
              split at ran
              · next entry =>
                  cases ran
                  exact .append checked absent entry
              · next full =>
                  cases ran
                  exact .overrun checked absent (Nat.le_of_not_lt full)
      · cases ran
  | endOp p =>
      unfold logStep at ran
      dsimp only at ran
      split at ran
      · next logged active =>
          split at ran
          · next busy =>
              cases ran
              exact .committing active busy
          · next free =>
              have idle := Bool.eq_false_of_not_eq_true free
              split at ran
              · next last =>
                  cases ran
                  rw [last]
                  exact .endLast active idle (by omega)
              · next more =>
                  cases ran
                  exact .endOther active idle (by omega)
      · cases ran
  | head p =>
      unfold logStep at ran
      dsimp only at ran
      split at ran
      · next pc =>
          split at ran
          · cases ran
            exact .noBuffers rfl
          · cases ran
            exact .head pc
      · cases ran
  | commit p =>
      unfold logStep at ran
      dsimp only at ran
      split at ran
      · next pc here => exact commitStep_move here ran
      · cases ran

/-! ## Who is inside an operation and who commits -/

/-- Between `begin_op` and `end_op`. -/
def OpState.inOp : OpState → Bool
  | .active _ => true
  | .logging _ _ => true
  | .checked _ _ => true
  | _ => false

theorem OpState.eq_idle {o : OpState} (outside : o.inOp = false) (none : ∀ pc, o ≠ .commit pc) :
    o = .idle := by
  cases o with
  | idle => rfl
  | active logged => cases outside
  | logging logged b => cases outside
  | checked logged b => cases outside
  | commit pc => exact absurd rfl (none pc)

namespace LogState

@[simp] theorem setOp_self (s : LogState P) (p : P) (op : OpState) : (s.setOp p op).op p = op :=
  Function.update_self _ _ _

theorem setOp_of_ne (s : LogState P) {p q : P} (op : OpState) (apart : q ≠ p) :
    (s.setOp p op).op q = s.op q :=
  Function.update_of_ne apart _ _

end LogState

/-- `outstanding` counts the operations, and a committing process is alone. -/
structure LogControl (s : LogState P) : Prop where
  counted : ∃ ops : Finset P, (∀ p, p ∈ ops ↔ (s.op p).inOp = true) ∧ s.outstanding = ops.card
  alone : ∀ p pc, s.op p = .commit pc → s.committing = true ∧ ∀ q, q ≠ p → s.op q = .idle
  someone : s.committing = true → ∃ p pc, s.op p = .commit pc

namespace LogControl

variable {p q : P} {o : OpState} {t : LogState P}

omit [DecidableEq P] in
theorem initial (first : s.Initial) : LogControl s := by
  refine ⟨⟨∅, fun p => ?_, first.outstanding⟩, fun p pc here => ?_, fun busy => ?_⟩
  · rw [first.op p]
    exact iff_of_false (Finset.notMem_empty p) Bool.false_ne_true
  · rw [first.op p] at here
    cases here
  · rw [first.committing] at busy
    cases busy

/-- While an operation is in progress nobody commits. -/
theorem quiet (control : LogControl s) (inside : (s.op p).inOp = true) :
    s.committing = false ∧ ∀ q pc, s.op q ≠ .commit pc := by
  have none : ∀ q pc, s.op q ≠ .commit pc := by
    intro q pc here
    have others := (control.alone q pc here).2
    by_cases same : p = q
    · subst same
      rw [here] at inside
      cases inside
    · rw [others p same] at inside
      cases inside
  refine ⟨Bool.eq_false_of_not_eq_true fun busy => ?_, none⟩
  obtain ⟨q, pc, here⟩ := control.someone busy
  exact none q pc here

omit [DecidableEq P] in
theorem positive (control : LogControl s) (inside : (s.op p).inOp = true) :
    1 ≤ s.outstanding := by
  obtain ⟨ops, members, count⟩ := control.counted
  have some : 0 < ops.card := Finset.card_pos.mpr ⟨p, (members p).mpr inside⟩
  omega

/-- A step inside an operation. -/
theorem inside (control : LogControl s) (before : (s.op p).inOp = true) (after : o.inOp = true)
    (moved : t.op = Function.update s.op p o) (outstanding : t.outstanding = s.outstanding)
    (committing : t.committing = s.committing) : LogControl t := by
  obtain ⟨free, none⟩ := control.quiet before
  have still : ∀ q pc, t.op q ≠ .commit pc := by
    intro q pc
    rw [moved]
    by_cases self : q = p
    · rw [self, Function.update_self]
      rintro rfl
      cases after
    · rw [Function.update_of_ne self]
      exact none q pc
  refine ⟨?_, fun q pc here => absurd here (still q pc), fun busy => ?_⟩
  · obtain ⟨ops, members, count⟩ := control.counted
    refine ⟨ops, fun q => ?_, by rw [outstanding, count]⟩
    rw [members q, moved]
    by_cases self : q = p
    · rw [self, Function.update_self, before, after]
    · rw [Function.update_of_ne self]
  · rw [committing, free] at busy
    cases busy

/-- A step inside `commit`. -/
theorem commits {pc pc' : CommitPc} (control : LogControl s) (here : s.op p = .commit pc)
    (moved : t.op = Function.update s.op p (.commit pc')) (outstanding : t.outstanding = s.outstanding)
    (committing : t.committing = s.committing) : LogControl t := by
  obtain ⟨busy, others⟩ := control.alone p pc here
  have self : t.op p = .commit pc' := by rw [moved, Function.update_self]
  have rest : ∀ q, q ≠ p → t.op q = .idle := fun q apart => by
    rw [moved, Function.update_of_ne apart, others q apart]
  refine ⟨?_, fun q after there => ?_, fun _ => ⟨p, pc', self⟩⟩
  · obtain ⟨ops, members, count⟩ := control.counted
    refine ⟨ops, fun q => ?_, by rw [outstanding, count]⟩
    rw [members q]
    by_cases same : q = p
    · rw [same, self, here]
      rfl
    · rw [rest q same, others q same]
  · rw [committing]
    by_cases same : q = p
    · rw [same]
      exact ⟨busy, rest⟩
    · rw [rest q same] at there
      cases there

theorem step (control : LogControl s) (move : LogMove s label (.ok t)) : LogControl t := by
  cases move with
  | @begin p idle free room =>
      obtain ⟨ops, members, count⟩ := control.counted
      have none : ∀ q pc, s.op q ≠ .commit pc := by
        intro q pc here
        rw [(control.alone q pc here).1] at free
        cases free
      refine ⟨⟨insert p ops, fun q => ?_, ?_⟩, fun q pc here => ?_, fun busy => ?_⟩
      · by_cases self : q = p
        · rw [self, LogState.setOp_self]
          exact iff_of_true (Finset.mem_insert_self p ops) rfl
        · rw [Finset.mem_insert, LogState.setOp_of_ne _ _ self, ← members q]
          exact or_iff_right self
      · have new : p ∉ ops := by
          rw [members p, idle]
          exact Bool.false_ne_true
        rw [Finset.card_insert_of_notMem new]
        change s.outstanding + 1 = _
        rw [count]
        rfl
      · by_cases self : q = p
        · rw [self, LogState.setOp_self] at here
          cases here
        · rw [LogState.setOp_of_ne _ _ self] at here
          exact absurd here (none q pc)
      · change s.committing = true at busy
        rw [free] at busy
        cases busy
  | fill active _ _ _ _ => exact control.inside (by rw [active]; rfl) rfl rfl rfl rfl
  | check logging _ _ => exact control.inside (by rw [logging]; rfl) rfl rfl rfl rfl
  | absorb checked _ => exact control.inside (by rw [checked]; rfl) rfl rfl rfl rfl
  | append checked _ _ => exact control.inside (by rw [checked]; rfl) rfl rfl rfl rfl
  | @endLast p logged active free last =>
      have inside : (s.op p).inOp = true := by
        rw [active]
        rfl
      obtain ⟨ops, members, count⟩ := control.counted
      have only : ∀ q, q ≠ p → (s.op q).inOp = false := by
        intro q apart
        have single : ops = {p} := by
          refine (Finset.eq_of_subset_of_card_le ?_ ?_).symm
          · exact Finset.singleton_subset_iff.mpr ((members p).mpr inside)
          · rw [Finset.card_singleton]
            omega
        have outside := members q
        rw [single, Finset.mem_singleton] at outside
        exact Bool.eq_false_of_not_eq_true fun inOp => apart (outside.mpr inOp)
      have rest : ∀ q, q ≠ p → s.op q = .idle := fun q apart =>
        OpState.eq_idle (only q apart) ((control.quiet inside).2 q)
      refine ⟨⟨∅, fun q => ?_, rfl⟩, fun q pc here => ⟨rfl, fun r apart => ?_⟩, fun _ => ⟨p, .enter, ?_⟩⟩
      · refine iff_of_false (Finset.notMem_empty q) ?_
        by_cases self : q = p
        · rw [self, LogState.setOp_self]
          exact Bool.false_ne_true
        · rw [LogState.setOp_of_ne _ _ self]
          exact fun inOp => Bool.false_ne_true ((only q self).symm.trans inOp)
      · have self : q = p := by
          by_contra apart
          rw [LogState.setOp_of_ne _ _ apart] at here
          exact (control.quiet inside).2 q pc here
        rw [self] at apart
        rw [LogState.setOp_of_ne _ _ apart]
        exact rest r apart
      · exact LogState.setOp_self _ _ _
  | @endOther p logged active free more =>
      have inside : (s.op p).inOp = true := by
        rw [active]
        rfl
      have none := (control.quiet inside).2
      obtain ⟨ops, members, count⟩ := control.counted
      refine ⟨⟨ops.erase p, fun q => ?_, ?_⟩, fun q pc here => ?_, fun busy => ?_⟩
      · by_cases self : q = p
        · rw [self, LogState.setOp_self]
          exact iff_of_false (Finset.notMem_erase p ops) Bool.false_ne_true
        · rw [Finset.mem_erase, LogState.setOp_of_ne _ _ self, ← members q]
          exact and_iff_right self
      · have member := (members p).mpr inside
        have some : 0 < ops.card := Finset.card_pos.mpr ⟨p, member⟩
        rw [Finset.card_erase_of_mem member]
        change s.outstanding - 1 = _
        omega
      · by_cases self : q = p
        · rw [self, LogState.setOp_self] at here
          cases here
        · rw [LogState.setOp_of_ne _ _ self] at here
          exact absurd here (none q pc)
      · change s.committing = true at busy
        rw [free] at busy
        cases busy
  | head pc => exact control.commits pc rfl rfl rfl
  | enter pc _ => exact control.commits pc rfl rfl rfl
  | nothing pc _ => exact control.commits pc rfl rfl rfl
  | writeLog pc _ _ _ => exact control.commits pc rfl rfl rfl
  | written pc _ => exact control.commits pc rfl rfl rfl
  | install pc _ _ _ => exact control.commits pc rfl rfl rfl
  | installed pc _ => exact control.commits pc rfl rfl rfl
  | clear pc => exact control.commits pc rfl rfl rfl
  | eraseHead pc => exact control.commits pc rfl rfl rfl
  | @leave p pc =>
      have rest := (control.alone p _ pc).2
      have idle : ∀ q, ({ s with committing := false }.setOp p .idle).op q = .idle := by
        intro q
        by_cases self : q = p
        · rw [self, LogState.setOp_self]
        · rw [LogState.setOp_of_ne _ _ self]
          exact rest q self
      refine ⟨?_, fun q after here => ?_, fun busy => ?_⟩
      · obtain ⟨ops, members, count⟩ := control.counted
        refine ⟨ops, fun q => ?_, count⟩
        rw [members q, idle q]
        by_cases self : q = p
        · rw [self, pc]
          rfl
        · rw [rest q self]
      · rw [idle q] at here
        cases here
      · cases busy

end LogControl

/-! ## The history of a run -/

/-- The blocks that were logged, as the labels of a run tell. -/
structure LogTrace (P : Type) where
  /-- Who is between `begin_op` and `end_op`. -/
  inOp : P → Bool
  /-- The `log_write` in progress, with the contents of its buffer. -/
  call : P → Option (Nat × Block)
  /-- The `log_write`s since the last commit point, in order. -/
  pending : List (Nat × Block)
  /-- The `log_write`s of the transaction that was committed last. -/
  last : List (Nat × Block)

def LogTrace.empty : LogTrace P := ⟨fun _ => false, fun _ => none, [], []⟩

def LogTrace.observe (a : LogTrace P) : LogLabel P → LogTrace P
  | .begin p => { a with inOp := Function.update a.inOp p true }
  | .fill p b data => { a with call := Function.update a.call p (some (b, data)) }
  | .check _ => a
  | .record p =>
      { a with
        pending := a.pending ++ (a.call p).toList
        call := Function.update a.call p none }
  | .endOp p => { a with inOp := Function.update a.inOp p false }
  | .head _ => { a with pending := [], last := a.pending }
  | .commit _ => a

/-- The history after some labels. -/
def logTrace (labels : List (LogLabel P)) : LogTrace P :=
  labels.foldl LogTrace.observe .empty

theorem logTrace_snoc (labels : List (LogLabel P)) (label : LogLabel P) :
    logTrace (labels ++ [label]) = (logTrace labels).observe label :=
  List.foldl_append

/-- The block a process is logging. -/
def OpState.block? : OpState → Option Nat
  | .logging _ b => some b
  | .checked _ b => some b
  | _ => none

/-- The history agrees with the processes, and every locked buffer has one of them. -/
structure LogCalls (a : LogTrace P) (s : LogState P) : Prop where
  inOp : ∀ p, a.inOp p = (s.op p).inOp
  calls : ∀ p, a.call p = (s.op p).block?.map fun b => (b, s.mem.buf b)
  held : ∀ p b, s.holder b = some p ↔ (s.op p).block? = some b

namespace LogCalls

variable {p q : P} {a : LogTrace P} {t : LogState P} {o : OpState}

omit [DecidableEq P] in
theorem initial (first : s.Initial) : LogCalls .empty s := by
  refine ⟨fun p => ?_, fun p => ?_, fun p b => ?_⟩
  · rw [first.op p]
    rfl
  · rw [first.op p]
    rfl
  · rw [first.op p, first.holder b]
    exact iff_of_false (Option.some_ne_none p).symm (Option.some_ne_none b).symm

/-- A step that brings the process into an operation, or out of it. -/
theorem update_inOp {a' : LogTrace P} (calls : LogCalls a s)
    (moved : t.op = Function.update s.op p o) (new : a'.inOp = Function.update a.inOp p o.inOp)
    (q : P) : a'.inOp q = (t.op q).inOp := by
  rw [new, moved]
  by_cases self : q = p
  · rw [self, Function.update_self, Function.update_self]
  · rw [Function.update_of_ne self, Function.update_of_ne self, calls.inOp]

/-- A step that leaves the process inside its operation, or outside. -/
theorem same_inOp (calls : LogCalls a s) (moved : t.op = Function.update s.op p o)
    (same : o.inOp = (s.op p).inOp) (q : P) : a.inOp q = (t.op q).inOp := by
  refine calls.update_inOp moved ?_ q
  rw [same, ← calls.inOp p, Function.update_eq_self]

/-- A step that neither locks nor releases a buffer. -/
theorem keeps {a' : LogTrace P} (calls : LogCalls a s) (moved : t.op = Function.update s.op p o)
    (block : o.block? = (s.op p).block?) (holder : t.holder = s.holder)
    (buf : ∀ q b, (s.op q).block? = some b → t.mem.buf b = s.mem.buf b)
    (inOp : ∀ q, a'.inOp q = (t.op q).inOp) (call : a'.call = a.call) : LogCalls a' t := by
  have same : ∀ q, (t.op q).block? = (s.op q).block? := by
    intro q
    rw [moved]
    by_cases self : q = p
    · rw [self, Function.update_self, block]
    · rw [Function.update_of_ne self]
  refine ⟨inOp, fun q => ?_, fun q b => ?_⟩
  · rw [call, calls.calls q, same q]
    cases block : (s.op q).block? with
    | none => rfl
    | some b => rw [Option.map_some, Option.map_some, buf q b block]
  · rw [holder, calls.held, same q]

/-- A step in `commit`, when every other process is idle. -/
theorem commits {a' : LogTrace P} {pc : CommitPc} (calls : LogCalls a s) (control : LogControl s)
    (here : s.op p = .commit pc) (moved : t.op = Function.update s.op p o)
    (outside : o.inOp = false) (none : o.block? = none) (holder : t.holder = s.holder)
    (inOp : a'.inOp = a.inOp) (call : a'.call = a.call) : LogCalls a' t := by
  have rest := (control.alone p pc here).2
  have free : ∀ q, (s.op q).block? = Option.none := by
    intro q
    by_cases self : q = p
    · rw [self, here]
      rfl
    · rw [rest q self]
      rfl
  refine calls.keeps moved (by rw [none, free]) holder (fun q b block => ?_) (fun q => ?_) call
  · rw [free q] at block
    cases block
  · rw [inOp]
    exact calls.same_inOp moved (by rw [outside, here]; rfl) q

/-- The end of a `log_write`: its buffer is released. -/
theorem released {a' : LogTrace P} {b : Nat} {logged : Finset Nat} (calls : LogCalls a s)
    (checked : s.op p = .checked logged b) (moved : t.op = Function.update s.op p (.active logged))
    (holder : t.holder = Function.update s.holder b none) (mem : t.mem = s.mem)
    (inOp : a'.inOp = a.inOp) (call : a'.call = Function.update a.call p none) :
    LogCalls a' t := by
  have mine : s.holder b = some p := (calls.held p b).mpr (by rw [checked]; rfl)
  refine ⟨fun q => ?_, fun q => ?_, fun q c => ?_⟩
  · rw [inOp]
    exact calls.same_inOp moved (by rw [checked]; rfl) q
  · rw [call, moved, mem]
    by_cases self : q = p
    · rw [self, Function.update_self, Function.update_self]
      rfl
    · rw [Function.update_of_ne self, Function.update_of_ne self, calls.calls]
  · rw [holder, moved]
    by_cases self : q = p
    · rw [self, Function.update_self]
      refine iff_of_false (fun owns => ?_) (Option.some_ne_none c).symm
      by_cases same : c = b
      · rw [same, Function.update_self] at owns
        cases owns
      · rw [Function.update_of_ne same, calls.held, checked] at owns
        exact same (Option.some.inj owns).symm
    · rw [Function.update_of_ne self, ← calls.held]
      by_cases same : c = b
      · rw [same, Function.update_self, mine]
        exact iff_of_false (Option.some_ne_none q).symm fun owns => self (Option.some.inj owns).symm
      · rw [Function.update_of_ne same]

theorem step (calls : LogCalls a s) (control : LogControl s) (move : LogMove s label (.ok t)) :
    LogCalls (a.observe label) t := by
  cases move with
  | begin idle free room =>
      exact calls.keeps rfl (by rw [idle]; rfl) rfl (fun _ _ _ => rfl) (calls.update_inOp rfl rfl) rfl
  | @fill p b data logged active unlocked home word buffer =>
      -- no other process is logging this block
      have other : ∀ q c, (s.op q).block? = some c → c ≠ b := by
        rintro q c block rfl
        rw [(calls.held q c).mpr block] at unlocked
        cases unlocked
      refine ⟨calls.same_inOp rfl (by rw [active]; rfl), fun q => ?_, fun q c => ?_⟩
      · change Function.update a.call p (some (b, data)) q = _
        by_cases self : q = p
        · rw [self, Function.update_self, LogState.setOp_self]
          change _ = some (b, Function.update s.mem.buf b data b)
          rw [Function.update_self]
        · rw [Function.update_of_ne self, LogState.setOp_of_ne _ _ self, calls.calls]
          cases block : (s.op q).block? with
          | none => rfl
          | some c =>
              change some (c, s.mem.buf c) = some (c, Function.update s.mem.buf b data c)
              rw [Function.update_of_ne (other q c block)]
      · change Function.update s.holder b (some p) c = some q ↔ _
        by_cases self : q = p
        · rw [self, LogState.setOp_self]
          change _ ↔ some b = some c
          by_cases same : c = b
          · rw [same, Function.update_self]
            exact iff_of_true rfl rfl
          · rw [Function.update_of_ne same, calls.held, active]
            exact iff_of_false (Option.some_ne_none c).symm fun owns =>
              same (Option.some.inj owns).symm
        · rw [LogState.setOp_of_ne _ _ self, ← calls.held]
          by_cases same : c = b
          · rw [same, Function.update_self, unlocked]
            exact iff_of_false (fun owns => self (Option.some.inj owns).symm)
              (Option.some_ne_none q).symm
          · rw [Function.update_of_ne same]
  | check logging entry room =>
      exact calls.keeps rfl (by rw [logging]; rfl) rfl (fun _ _ _ => rfl)
        (calls.same_inOp rfl (by rw [logging]; rfl)) rfl
  | absorb checked present => exact calls.released checked rfl rfl rfl rfl rfl
  | append checked absent entry => exact calls.released checked rfl rfl rfl rfl rfl
  | endLast active free last =>
      exact calls.keeps rfl (by rw [active]; rfl) rfl (fun _ _ _ => rfl) (calls.update_inOp rfl rfl) rfl
  | endOther active free more =>
      exact calls.keeps rfl (by rw [active]; rfl) rfl (fun _ _ _ => rfl) (calls.update_inOp rfl rfl) rfl
  | head pc => exact calls.commits control pc rfl rfl rfl rfl rfl rfl
  | enter pc some => exact calls.commits control pc rfl rfl rfl rfl rfl rfl
  | nothing pc none => exact calls.commits control pc rfl rfl rfl rfl rfl rfl
  | writeLog pc entry buffers can => exact calls.commits control pc rfl rfl rfl rfl rfl rfl
  | written pc behind => exact calls.commits control pc rfl rfl rfl rfl rfl rfl
  | install pc entry buffers can => exact calls.commits control pc rfl rfl rfl rfl rfl rfl
  | installed pc behind => exact calls.commits control pc rfl rfl rfl rfl rfl rfl
  | clear pc => exact calls.commits control pc rfl rfl rfl rfl rfl rfl
  | eraseHead pc => exact calls.commits control pc rfl rfl rfl rfl rfl rfl
  | leave pc => exact calls.commits control pc rfl rfl rfl rfl rfl rfl

end LogCalls

/-! ## The blocks of the header -/

/-- Behind the header write that commits. -/
def CommitPc.late : CommitPc → Bool
  | .install _ => true
  | .clear => true
  | .eraseHead => true
  | .leave => true
  | _ => false

/-- The in-memory header lists, without repetition, the blocks logged since the last commit. -/
structure LogEntries (a : LogTrace P) (s : LogState P) : Prop where
  nodup : s.lh.Nodup
  early : (∀ p pc, s.op p = .commit pc → pc.late = false) →
    ∀ b, b ∈ s.lh ↔ b ∈ a.pending.map Prod.fst
  late : ∀ p pc, s.op p = .commit pc → pc.late = true → a.pending = []
  cleared : ∀ p, s.op p = .commit .eraseHead ∨ s.op p = .commit .leave → s.lh = []
  drained : s.committing = false → s.outstanding = 0 → s.lh = []

namespace LogEntries

variable {p q : P} {a a' : LogTrace P} {t : LogState P} {o : OpState}

omit [DecidableEq P] in
theorem initial (first : s.Initial) : LogEntries .empty s := by
  refine ⟨?_, fun _ b => ?_, fun _ _ _ _ => rfl, fun _ _ => first.lh, fun _ _ => first.lh⟩
  · rw [first.lh]
    exact List.nodup_nil
  · rw [first.lh]
    rfl

/-- Outside `commit` the header lists the pending blocks. -/
theorem mem_lh (entries : LogEntries a s) (control : LogControl s)
    (inside : (s.op p).inOp = true) (b : Nat) : b ∈ s.lh ↔ b ∈ a.pending.map Prod.fst :=
  entries.early (fun q pc here => absurd here ((control.quiet inside).2 q pc)) b

omit [DecidableEq P] in
/-- A step after which nobody commits and an operation is in progress. -/
theorem opened (none : ∀ r pc, t.op r ≠ .commit pc) (some : t.outstanding ≠ 0) (nodup : t.lh.Nodup)
    (listed : ∀ b, b ∈ t.lh ↔ b ∈ a.pending.map Prod.fst) : LogEntries a t := by
  refine ⟨nodup, fun _ => listed, fun r pc here => absurd here (none r pc), fun r there => ?_,
    fun _ zero => absurd zero some⟩
  rcases there with here | here
  · exact absurd here (none r _)
  · exact absurd here (none r _)

/-- A step inside an operation. -/
theorem inside (after : LogControl t) (inOp : (t.op p).inOp = true) (nodup : t.lh.Nodup)
    (listed : ∀ b, b ∈ t.lh ↔ b ∈ a.pending.map Prod.fst) : LogEntries a t := by
  refine opened (after.quiet inOp).2 ?_ nodup listed
  have some := after.positive inOp
  omega

/-- A step in `commit`. -/
theorem commits {pc' : CommitPc} (after : LogControl t) (here : t.op p = .commit pc')
    (nodup : t.lh.Nodup) (early : pc'.late = false → ∀ b, b ∈ t.lh ↔ b ∈ a.pending.map Prod.fst)
    (late : pc'.late = true → a.pending = [])
    (cleared : pc' = .eraseHead ∨ pc' = .leave → t.lh = []) : LogEntries a t := by
  obtain ⟨busy, others⟩ := after.alone p pc' here
  have only : ∀ q pc, t.op q = .commit pc → pc = pc' := by
    intro q pc there
    by_cases self : q = p
    · rw [self, here] at there
      exact (OpState.commit.inj there).symm
    · rw [others q self] at there
      cases there
  refine ⟨nodup, fun before => early (before p pc' here), fun q pc there => ?_, fun q there => ?_,
    fun free => ?_⟩
  · rw [only q pc there]
    exact late
  · refine cleared ?_
    rcases there with there | there
    · exact .inl (only q _ there).symm
    · exact .inr (only q _ there).symm
  · rw [busy] at free
    cases free

/-- The header of a process that has not yet reached the commit point. -/
theorem early_of {pc : CommitPc} (entries : LogEntries a s) (control : LogControl s)
    (here : s.op p = .commit pc) (early : pc.late = false) (b : Nat) :
    b ∈ s.lh ↔ b ∈ a.pending.map Prod.fst := by
  refine entries.early (fun q pc' there => ?_) b
  by_cases self : q = p
  · rw [self, here] at there
    rw [← OpState.commit.inj there]
    exact early
  · rw [(control.alone p pc here).2 q self] at there
    cases there

theorem step (entries : LogEntries a s) (control : LogControl s) (calls : LogCalls a s)
    (move : LogMove s label (.ok t)) : LogEntries (a.observe label) t := by
  have after := control.step move
  cases move with
  | @begin p idle free room =>
      refine inside (p := p) after (by rw [LogState.setOp_self]; rfl) entries.nodup
        (entries.early fun q pc here => ?_)
      rw [(control.alone q pc here).1] at free
      cases free
  | @fill p b data logged active unlocked home word buffer =>
      exact inside (p := p) after (by rw [LogState.setOp_self]; rfl) entries.nodup
        (entries.mem_lh control (by rw [active]; rfl))
  | @check p b logged logging entry room =>
      exact inside (p := p) after (by rw [LogState.setOp_self]; rfl) entries.nodup
        (entries.mem_lh control (by rw [logging]; rfl))
  | @absorb p b logged checked present =>
      refine inside (p := p) after (by rw [LogState.setOp_self]; rfl) entries.nodup fun c => ?_
      have listed := entries.mem_lh control (by rw [checked]; rfl : (s.op p).inOp = true)
      change c ∈ s.lh ↔ c ∈ (a.pending ++ (a.call p).toList).map Prod.fst
      rw [calls.calls p, checked, List.map_append, List.mem_append, ← listed c]
      refine ⟨.inl, fun either => either.elim id fun new => ?_⟩
      rw [List.mem_singleton.mp new]
      exact present
  | @append p b logged checked absent entry =>
      have listed := entries.mem_lh control (by rw [checked]; rfl : (s.op p).inOp = true)
      refine inside (p := p) after (by rw [LogState.setOp_self]; rfl) ?_ fun c => ?_
      · exact List.nodup_append.mpr ⟨entries.nodup, List.nodup_singleton b, fun c old d new => by
          rintro rfl
          rw [List.mem_singleton.mp new] at old
          exact absent old⟩
      · change c ∈ s.lh ++ [b] ↔ c ∈ (a.pending ++ (a.call p).toList).map Prod.fst
        rw [calls.calls p, checked, List.map_append, List.mem_append, List.mem_append, ← listed c]
        rfl
  | @endLast p logged active free last =>
      exact commits (p := p) after (LogState.setOp_self _ _ _) entries.nodup
        (fun _ => entries.mem_lh control (by rw [active]; rfl)) (fun late => by cases late)
        fun which => by rcases which with pc | pc <;> cases pc
  | @endOther p logged active free more =>
      have inOp : (s.op p).inOp = true := by
        rw [active]
        rfl
      refine opened (fun q pc here => ?_) ?_ entries.nodup (entries.mem_lh control inOp)
      · by_cases self : q = p
        · rw [self, LogState.setOp_self] at here
          cases here
        · rw [LogState.setOp_of_ne _ _ self] at here
          exact (control.quiet inOp).2 q pc here
      · have some := control.positive inOp
        change s.outstanding - 1 ≠ 0
        omega
  | @head p pc =>
      exact commits (p := p) after (LogState.setOp_self _ _ _) entries.nodup
        (fun early => by cases early) (fun _ => rfl)
        fun which => by rcases which with pc | pc <;> cases pc
  | @enter p pc some =>
      exact commits (p := p) after (LogState.setOp_self _ _ _) entries.nodup
        (fun _ => entries.early_of control pc rfl) (fun late => by cases late)
        fun which => by rcases which with pc | pc <;> cases pc
  | @nothing p pc none =>
      refine commits (p := p) after (LogState.setOp_self _ _ _) entries.nodup
        (fun early => by cases early) (fun _ => ?_) fun _ => none
      have listed := entries.early_of control pc rfl
      rw [none] at listed
      exact List.map_eq_nil_iff.mp (List.eq_nil_iff_forall_not_mem.mpr fun b member =>
        List.not_mem_nil ((listed b).mpr member))
  | @writeLog p tail b pc entry buffers can =>
      exact commits (p := p) after (LogState.setOp_self _ _ _) entries.nodup
        (fun _ => entries.early_of control pc rfl) (fun late => by cases late)
        fun which => by rcases which with pc | pc <;> cases pc
  | @written p tail pc behind =>
      exact commits (p := p) after (LogState.setOp_self _ _ _) entries.nodup
        (fun _ => entries.early_of control pc rfl) (fun late => by cases late)
        fun which => by rcases which with pc | pc <;> cases pc
  | @install p tail b pc entry buffers can =>
      exact commits (p := p) after (LogState.setOp_self _ _ _) entries.nodup
        (fun early => by cases early) (fun _ => entries.late p _ pc rfl)
        fun which => by rcases which with pc | pc <;> cases pc
  | @installed p tail pc behind =>
      exact commits (p := p) after (LogState.setOp_self _ _ _) entries.nodup
        (fun early => by cases early) (fun _ => entries.late p _ pc rfl)
        fun which => by rcases which with pc | pc <;> cases pc
  | @clear p pc =>
      exact commits (p := p) after (LogState.setOp_self _ _ _) List.nodup_nil
        (fun early => by cases early) (fun _ => entries.late p _ pc rfl) fun _ => rfl
  | @eraseHead p pc =>
      exact commits (p := p) after (LogState.setOp_self _ _ _) entries.nodup
        (fun early => by cases early) (fun _ => entries.late p _ pc rfl)
        fun _ => entries.cleared p (.inl pc)
  | @leave p pc =>
      have empty := entries.cleared p (.inr pc)
      have idle : ∀ q, ({ s with committing := false }.setOp p .idle).op q = .idle := by
        intro q
        by_cases self : q = p
        · rw [self, LogState.setOp_self]
        · rw [LogState.setOp_of_ne _ _ self]
          exact (control.alone p _ pc).2 q self
      refine ⟨entries.nodup, fun _ b => ?_, fun q pc here => ?_, fun _ _ => empty, fun _ _ => empty⟩
      · change b ∈ s.lh ↔ b ∈ a.pending.map Prod.fst
        rw [empty, entries.late p _ pc rfl]
        rfl
      · rw [idle q] at here
        cases here

end LogEntries

/-! ## Runs -/

/-- What holds in every state of a run, whatever its labels. -/
structure LogInv (a : LogTrace P) (s : LogState P) : Prop where
  control : LogControl s
  calls : LogCalls a s
  entries : LogEntries a s

omit [DecidableEq P] in
theorem LogInv.initial (first : s.Initial) : LogInv .empty s :=
  ⟨.initial first, .initial first, .initial first⟩

theorem LogInv.step {a : LogTrace P} {t : LogState P} (inv : LogInv a s)
    (move : LogMove s label (.ok t)) : LogInv (a.observe label) t :=
  ⟨inv.control.step move, inv.calls.step inv.control move,
    inv.entries.step inv.control inv.calls move⟩

/-- The log stays where it is. -/
theorem LogMove.geometry {t : LogState P} (move : LogMove s label (.ok t)) :
    t.start = s.start ∧ t.size = s.size := by
  cases move <;> exact ⟨rfl, rfl⟩

theorem LogInv.run {start : LogState P} {labels : List (LogLabel P)}
    (first : start.Initial) (run : (logSystem P).Run (.ok start) labels next) :
    ∀ t, next = .ok t →
      LogInv (logTrace labels) t ∧ t.start = start.start ∧ t.size = start.size := by
  refine System.Run.preservesHistory (P := fun labels next => ∀ t, next = .ok t →
    LogInv (logTrace labels) t ∧ t.start = start.start ∧ t.size = start.size) ?_ run ?_
  · rintro labels state label next holds ⟨u, rfl, ran⟩ t rfl
    obtain ⟨inv, place, length⟩ := holds u rfl
    have move := logStep_move ran
    obtain ⟨same, equal⟩ := move.geometry
    rw [logTrace_snoc]
    exact ⟨inv.step move, same.trans place, equal.trans length⟩
  · rintro t same
    cases same
    exact ⟨.initial first, rfl, rfl⟩

end Steps

end SlabStudy.Xv6
