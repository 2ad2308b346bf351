import SlabStudy.Library.Ring
import SlabStudy.Xv6.Boot

/-!
# Pipes

`pipewrite`, `piperead` and `pipeclose` on one pipe, next to the rest of the
kernel.  A call holds the lock of the pipe from `acquire` to its return or to
`sleep`.  Each such section is cut in two where it has done its loop over the
bytes: `kill` takes only `ptable.lock`, and so a process may be killed between
the last byte it copies and the test of `killed` behind it.
-/

namespace SlabStudy.Xv6

open Library

def pipesize : Nat := 512

instance : NeZero pipesize := ⟨by decide⟩

/-- `struct pipe`, without its lock. -/
structure Pipe where
  data : Fin pipesize → UInt8
  nread : UInt32
  nwrite : UInt32
  readopen : Bool
  writeopen : Bool

/-! ## The loops over the bytes -/

namespace Pipe

/-- The test `p->nwrite == p->nread + PIPESIZE`. -/
def full (p : Pipe) : Bool := p.nwrite == p.nread + 512

/-- The test `p->nread == p->nwrite`. -/
def empty (p : Pipe) : Bool := p.nread == p.nwrite

/-- `p->data[p->nwrite++ % PIPESIZE] = byte`. -/
def store (p : Pipe) (byte : UInt8) : Pipe :=
  { p with
    data := Function.update p.data (Fin.ofNat pipesize p.nwrite.toNat) byte
    nwrite := p.nwrite + 1 }

/-- The byte `p->data[p->nread % PIPESIZE]`. -/
def next (p : Pipe) : UInt8 := p.data (Fin.ofNat pipesize p.nread.toNat)

/-- The side effect of `p->nread++`. -/
def advance (p : Pipe) : Pipe := { p with nread := p.nread + 1 }

/-- The loop of `pipewrite` until a full pipe stops it: the bytes it stores, and the others. -/
def writeLoop : List UInt8 → Pipe → List UInt8 × List UInt8 × Pipe
  | [], p => ([], [], p)
  | byte :: rest, p =>
      if p.full then ([], byte :: rest, p)
      else
        let (stored, left, last) := writeLoop rest (p.store byte)
        (byte :: stored, left, last)

/-- The copy loop of `piperead`, with the bytes it has copied. -/
def readLoop : Nat → Pipe → List UInt8 × Pipe
  | 0, p => ([], p)
  | n + 1, p =>
      if p.empty then ([], p)
      else
        let (bytes, last) := readLoop n p.advance
        (p.next :: bytes, last)

/-- What `pipealloc` stores into a new page. -/
def fresh (data : Fin pipesize → UInt8) : Pipe := ⟨data, 0, 0, true, true⟩

end Pipe

/-! ## The calls -/

/-- Where a process stands in a call on the pipe. -/
inductive Call where
  | away
  /-- In `pipewrite`, about to take the lock, with the bytes that are not yet stored. -/
  | write (n : Int) (rest : List UInt8)
  /-- In `pipewrite`, with the lock, where the loop has stopped. -/
  | stored (n : Int) (rest : List UInt8)
  /-- In `piperead`, about to take the lock. -/
  | read (n : Int)
  /-- In `piperead`, with the lock, at an empty pipe that is open for writing. -/
  | waits (n : Int)
  /-- In `piperead`, with the lock, behind the copy loop. -/
  | copied (bytes : List UInt8)

/-- The kernel with a pipe in the page at some address. -/
structure PipeState where
  kernel : Kernel
  pipe : Pipe
  lock : Option Slot
  call : Slot → Call

/-- The channel `&p->nread`; the lock takes 52 bytes. -/
def nreadChan (page : Nat) : Nat := page + 52 + pipesize

/-- The channel `&p->nwrite`. -/
def nwriteChan (page : Nat) : Nat := nreadChan page + 4

namespace PipeState

/-- Process `p` goes on in its call without the lock. -/
def release (s : PipeState) (p : Slot) (call : Call) : PipeState :=
  { s with lock := none, call := Function.update s.call p call }

/-- `pipewrite` up to the end of its loop or to the body of the inner one. -/
def writeStore (s : PipeState) (p : Slot) (n : Int) (rest : List UInt8) : PipeState :=
  { s with
    pipe := (Pipe.writeLoop rest s.pipe).2.2
    lock := some p
    call := Function.update s.call p (.stored n (Pipe.writeLoop rest s.pipe).2.1) }

/-- What `pipewrite` does then; it returns nothing yet when it sleeps. -/
def writeEnd (page : Nat) (s : PipeState) (c : Fin ncpu) (p : Slot) (n : Int) :
    List UInt8 → Option Int × PipeState
  | [] =>
      (some n,
        { s with kernel := wakeup s.kernel (some (.other (nreadChan page))) }.release p .away)
  | byte :: rest =>
      if s.pipe.readopen = false ∨ (s.kernel.proc p).killed then
        (some (-1), s.release p .away)
      else
        let kernel := wakeup s.kernel (some (.other (nreadChan page)))
        (none, { s with kernel := sleep kernel c p (some (.other (nwriteChan page))) .sleep }.release
          p (.write n (byte :: rest)))

/-- `piperead` up to the end of its copy loop or to the body of the loop that waits. -/
def readTake (s : PipeState) (p : Slot) (n : Int) : PipeState :=
  if s.pipe.empty ∧ s.pipe.writeopen then
    { s with lock := some p, call := Function.update s.call p (.waits n) }
  else
    { s with
      pipe := (Pipe.readLoop n.toNat s.pipe).2
      lock := some p
      call := Function.update s.call p (.copied (Pipe.readLoop n.toNat s.pipe).1) }

/-- What `piperead` does at an empty pipe. -/
def readWait (page : Nat) (s : PipeState) (c : Fin ncpu) (p : Slot) (n : Int) :
    Option Int × PipeState :=
  if (s.kernel.proc p).killed then (some (-1), s.release p .away)
  else
    (none, { s with kernel := sleep s.kernel c p (some (.other (nreadChan page))) .sleep }.release
      p (.read n))

/-- What `piperead` does behind its copy loop. -/
def readEnd (page : Nat) (s : PipeState) (p : Slot) : PipeState :=
  { s with kernel := wakeup s.kernel (some (.other (nwriteChan page))) }.release p .away

/-- `pipeclose`; the result says whether the page of the pipe is freed. -/
def pipeclose (page : Nat) (s : PipeState) (writable : Bool) : Bool × PipeState :=
  let s :=
    if writable then
      { s with
        pipe := { s.pipe with writeopen := false }
        kernel := wakeup s.kernel (some (.other (nreadChan page))) }
    else
      { s with
        pipe := { s.pipe with readopen := false }
        kernel := wakeup s.kernel (some (.other (nwriteChan page))) }
  (!s.pipe.readopen && !s.pipe.writeopen, s)

end PipeState

/-! ## The system -/

inductive PipeLabel where
  | calls (p : Slot)
  | stores (p : Slot) (bytes : List UInt8)
  | writeEnds (p : Slot) (value : Option Int)
  | takes (p : Slot)
  | waits (p : Slot) (value : Option Int)
  | readEnds (p : Slot) (bytes : List UInt8)
  | closes (writable freed : Bool)
  | elsewhere (label : Label)

/-- The process that a step of the kernel belongs to; preempted it may be in any call. -/
def Label.caller : Label → Option Slot
  | .round _ _ _ | .yield _ | .wakeup _ | .pages => none
  | .claim p _ | .copy p _ _ | .start p _ | .exit p _ | .wait p _ | .waitpid p _ _ | .kill p _ _
  | .setpriority p _ _ _ | .sleep p _ | .sbrk p _ _ | .pgflt p _ | .exec p | .user p => some p

/-- The channel that a step of the kernel puts a process to sleep on. -/
def Label.sleepsOn : Label → Option Nat
  | .sleep _ address => some address
  | _ => none

/-- What can happen next, as long as the pipe is not freed. -/
inductive PipeStep (ld : Linkage) (page : Nat) (s : PipeState) : PipeLabel → PipeState → Prop where
  | write {c : Fin ncpu} {p : Slot} (n : Int) (addr : List UInt8) (free : Free s.kernel c p)
      (away : s.call p = .away) (size : addr.length = n.toNat) :
      PipeStep ld page s (.calls p) { s with call := Function.update s.call p (.write n addr) }
  | read {c : Fin ncpu} {p : Slot} (n : Int) (free : Free s.kernel c p)
      (away : s.call p = .away) :
      PipeStep ld page s (.calls p) { s with call := Function.update s.call p (.read n) }
  | writeStore {c : Fin ncpu} {p : Slot} {n : Int} {rest : List UInt8}
      (free : Free s.kernel c p) (unlocked : s.lock = none) (call : s.call p = .write n rest) :
      PipeStep ld page s (.stores p (Pipe.writeLoop rest s.pipe).1) (s.writeStore p n rest)
  | writeEnd {c : Fin ncpu} {p : Slot} {n : Int} {rest : List UInt8}
      (free : Free s.kernel c p) (locked : s.lock = some p) (call : s.call p = .stored n rest) :
      PipeStep ld page s (.writeEnds p (s.writeEnd page c p n rest).1)
        (s.writeEnd page c p n rest).2
  | readTake {c : Fin ncpu} {p : Slot} {n : Int} (free : Free s.kernel c p)
      (unlocked : s.lock = none) (call : s.call p = .read n) :
      PipeStep ld page s (.takes p) (s.readTake p n)
  | readWait {c : Fin ncpu} {p : Slot} {n : Int} (free : Free s.kernel c p)
      (locked : s.lock = some p) (call : s.call p = .waits n) :
      PipeStep ld page s (.waits p (s.readWait page c p n).1) (s.readWait page c p n).2
  | readEnd {c : Fin ncpu} {p : Slot} {bytes : List UInt8} (free : Free s.kernel c p)
      (locked : s.lock = some p) (call : s.call p = .copied bytes) :
      PipeStep ld page s (.readEnds p bytes) (s.readEnd page p)
  -- the last reference to one of the two files has gone
  | close (writable : Bool) (unlocked : s.lock = none) :
      PipeStep ld page s (.closes writable (s.pipeclose page writable).1)
        (s.pipeclose page writable).2
  -- everything that has nothing to do with this pipe, `kill` included
  | elsewhere {label : Label} {kernel : Kernel} (step : Step ld s.kernel label kernel)
      (away : ∀ p, label.caller = some p → s.call p = .away)
      (others : ∀ address, label.sleepsOn = some address →
        address ≠ nreadChan page ∧ address ≠ nwriteChan page) :
      PipeStep ld page s (.elsewhere label) { s with kernel := kernel }

/-- The process sleeps on the channel `address`. -/
def Proc.SleepsOn (pr : Proc) (address : Nat) : Prop :=
  pr.state = .sleeping ∧ pr.chan = some (.other address)

/-- A pipe from `pipealloc` on, in any state of the kernel. -/
def pipeSystem (ld : Linkage) (page : Nat) : System PipeState PipeLabel where
  initial s := (∃ data, s.pipe = .fresh data) ∧ s.lock = none ∧ (∀ p, s.call p = .away) ∧
    ∀ q, ¬ (s.kernel.proc q).SleepsOn (nreadChan page) ∧
      ¬ (s.kernel.proc q).SleepsOn (nwriteChan page)
  step s label s' := (s.pipe.readopen ∨ s.pipe.writeopen) ∧ PipeStep ld page s label s'

/-! ## A pipe is a queue -/

namespace Pipe

/-- The bytes in the pipe, oldest first. -/
def contents (p : Pipe) : List UInt8 :=
  (List.range (p.nwrite - p.nread).toNat).map fun k =>
    p.data (Fin.ofNat pipesize (p.nread + UInt32.ofNat k).toNat)

/-- The pipe as a ring of bytes whose counters wrap as those of type `uint` do. -/
def ring (p : Pipe) : Ring pipesize UInt8 := ⟨p.data, p.nread.toNat, p.nwrite.toNat⟩

variable {p : Pipe} {stored : List UInt8} {taken : Nat}

theorem pipesize_lt : pipesize < 2 ^ 32 := by decide

theorem pipesize_dvd : pipesize ∣ 2 ^ 32 := by decide

theorem full_iff : p.full = true ↔ p.ring.tail = (p.ring.head + pipesize) % 2 ^ 32 := by
  rw [full, beq_iff_eq, ← UInt32.toNat_inj, UInt32.toNat_add]
  rfl

theorem empty_iff : p.empty = true ↔ p.ring.head = p.ring.tail := by
  rw [empty, beq_iff_eq, ← UInt32.toNat_inj]
  rfl

theorem ring_store (byte : UInt8) : (p.store byte).ring = p.ring.put (2 ^ 32) byte := by
  rw [ring, store, Ring.put, UInt32.toNat_add]
  rfl

theorem ring_advance : p.advance.ring = p.ring.drop (2 ^ 32) := by
  rw [ring, advance, Ring.drop, UInt32.toNat_add]
  rfl

theorem count_eq : (p.nwrite - p.nread).toNat = p.ring.count (2 ^ 32) := by
  have small := p.nread.toNat_lt
  rw [UInt32.toNat_sub, Ring.count]
  change (2 ^ 32 - p.nread.toNat + p.nwrite.toNat) % 2 ^ 32 =
    (p.nwrite.toNat + 2 ^ 32 - p.nread.toNat) % 2 ^ 32
  congr 1
  omega

theorem contents_eq : p.contents = p.ring.contents (2 ^ 32) := by
  rw [contents, Ring.contents, count_eq]
  refine List.map_congr_left fun k _ => ?_
  rw [UInt32.toNat_add, UInt32.toNat_ofNat', Nat.add_mod_mod]
  rfl

/-- The loop of `pipewrite` appends the bytes it stores, and stops at a full pipe only. -/
theorem writeLoop_spec (holds : p.ring.Holds (2 ^ 32) stored taken) (rest : List UInt8) :
    (writeLoop rest p).2.2.ring.Holds (2 ^ 32) (stored ++ (writeLoop rest p).1) taken := by
  induction rest generalizing p stored with
  | nil =>
      rw [writeLoop, List.append_nil]
      exact holds
  | cons byte rest ih =>
      rw [writeLoop]
      split
      · rw [List.append_nil]
        exact holds
      · next room =>
          have next := holds.put pipesize_lt pipesize_dvd (mt full_iff.mpr room) byte
          rw [← ring_store] at next
          have later := ih next
          rw [List.append_assoc] at later
          exact later

/-- The copy loop of `piperead` takes the bytes it copies from the front. -/
theorem readLoop_spec (holds : p.ring.Holds (2 ^ 32) stored taken) (n : Nat) :
    (readLoop n p).2.ring.Holds (2 ^ 32) stored (taken + (readLoop n p).1.length) ∧
      stored.take (taken + (readLoop n p).1.length) = stored.take taken ++ (readLoop n p).1 := by
  induction n generalizing p taken with
  | zero =>
      rw [readLoop, List.append_nil]
      exact ⟨holds, rfl⟩
  | succ n ih =>
      rw [readLoop]
      split
      · rw [List.append_nil]
        exact ⟨holds, rfl⟩
      · next some =>
          obtain ⟨first, next⟩ := holds.drop pipesize_lt pipesize_dvd (mt empty_iff.mpr some)
          rw [← ring_advance] at next
          obtain ⟨last, bytes⟩ := ih next
          rw [Nat.add_assoc, Nat.add_comm 1] at last bytes
          refine ⟨last, bytes.trans ?_⟩
          rw [List.take_add_one, first, List.append_assoc]
          rfl

end Pipe

/-! ## Histories -/

/-- The bytes that a step stores into the pipe. -/
def PipeLabel.stored : PipeLabel → List UInt8
  | .stores _ bytes => bytes
  | _ => []

/-- The bytes that a step returns to a reader. -/
def PipeLabel.returned : PipeLabel → List UInt8
  | .readEnds _ bytes => bytes
  | _ => []

/-- The bytes that a process has copied and not yet returned. -/
def Call.inFlight : Call → List UInt8
  | .copied bytes => bytes
  | _ => []

/-- Where the holder of the lock stands. -/
def PipeState.holder (s : PipeState) : Call :=
  match s.lock with
  | none => .away
  | some p => s.call p

/-- Only the holder of the lock can have copied bytes. -/
def PipeState.inFlight (s : PipeState) : List UInt8 := s.holder.inFlight

/-- The ring holds what has been stored and neither been returned nor is about to be. -/
structure PipeHistory (stored returned : List UInt8) (s : PipeState) : Prop where
  ring : s.pipe.ring.Holds (2 ^ 32) stored (returned ++ s.inFlight).length
  order : stored.take (returned ++ s.inFlight).length = returned ++ s.inFlight

section Queue

variable {ld : Linkage} {page : Nat} {s s' : PipeState} {label : PipeLabel}
  {stored returned : List UInt8}

/-- A step that leaves the pipe and the bytes in flight alone. -/
theorem PipeHistory.same (history : PipeHistory stored returned s)
    (pipe : s'.pipe.ring = s.pipe.ring) (flight : s'.inFlight = s.inFlight) :
    PipeHistory stored returned s' :=
  ⟨by rw [pipe, flight]; exact history.ring, by rw [flight]; exact history.order⟩

theorem PipeState.inFlight_unlocked (unlocked : s.lock = none) : s.inFlight = [] := by
  rw [inFlight, holder, unlocked]
  rfl

/-- Entering a call does not touch what the holder of the lock has copied. -/
theorem PipeState.inFlight_calls {p : Slot} (away : s.call p = .away) {call : Call}
    (none : call.inFlight = []) :
    ({ s with call := Function.update s.call p call } : PipeState).inFlight = s.inFlight := by
  unfold PipeState.inFlight PipeState.holder
  cases s.lock with
  | none => rfl
  | some q =>
      by_cases same : q = p
      · rw [same]
        simp only [Function.update_self, none, away]
        rfl
      · simp only [Function.update_of_ne same]

theorem PipeHistory.step (history : PipeHistory stored returned s)
    (step : PipeStep ld page s label s') :
    PipeHistory (stored ++ label.stored) (returned ++ label.returned) s' := by
  have quiet (same : PipeHistory stored returned s') :
      PipeHistory (stored ++ []) (returned ++ []) s' := by
    rw [List.append_nil, List.append_nil]
    exact same
  cases step with
  | write n addr free away size =>
      exact quiet (history.same rfl (PipeState.inFlight_calls away rfl))
  | read n free away => exact quiet (history.same rfl (PipeState.inFlight_calls away rfl))
  | @writeStore c p n rest free unlocked call =>
      have before : s.inFlight = [] := PipeState.inFlight_unlocked unlocked
      have after : (s.writeStore p n rest).inFlight = [] := by
        simp only [PipeState.inFlight, PipeState.holder, PipeState.writeStore, Function.update_self]
        rfl
      obtain ⟨ring, order⟩ := history
      rw [before, List.append_nil] at ring order
      change PipeHistory (stored ++ (Pipe.writeLoop rest s.pipe).1) (returned ++ []) _
      refine ⟨?_, ?_⟩
      · rw [after, List.append_nil, List.append_nil]
        exact Pipe.writeLoop_spec ring rest
      · rw [after, List.append_nil, List.append_nil, List.take_append_of_le_length ring.order]
        exact order
  | @writeEnd c p n rest free locked call =>
      have before : s.inFlight = [] := by
        simp only [PipeState.inFlight, PipeState.holder, locked, call]
        rfl
      refine quiet (history.same ?_ ?_)
      · cases rest with
        | nil => rfl
        | cons byte rest =>
            rw [PipeState.writeEnd]
            split <;> rfl
      · rw [before]
        cases rest with
        | nil => rfl
        | cons byte rest =>
            rw [PipeState.writeEnd]
            split <;> rfl
  | @readTake c p n free unlocked call =>
      have before : s.inFlight = [] := PipeState.inFlight_unlocked unlocked
      refine quiet ?_
      unfold PipeState.readTake
      split
      · refine history.same rfl (Eq.trans ?_ before.symm)
        simp only [PipeState.inFlight, PipeState.holder, Function.update_self]
        rfl
      · obtain ⟨ring, order⟩ := history
        rw [before, List.append_nil] at ring order
        obtain ⟨later, bytes⟩ := Pipe.readLoop_spec ring n.toNat
        rw [order, ← List.length_append] at bytes
        rw [← List.length_append] at later
        refine ⟨?_, ?_⟩ <;> simp only [PipeState.inFlight, PipeState.holder, Function.update_self]
        · exact later
        · exact bytes
  | @readWait c p n free locked call =>
      have before : s.inFlight = [] := by
        simp only [PipeState.inFlight, PipeState.holder, locked, call]
        rfl
      refine quiet (history.same ?_ ?_)
      · rw [PipeState.readWait]
        split <;> rfl
      · rw [before, PipeState.readWait]
        split <;> rfl
  | @readEnd c p bytes free locked call =>
      have before : s.inFlight = bytes := by
        simp only [PipeState.inFlight, PipeState.holder, locked, call]
        rfl
      have after : (s.readEnd page p).inFlight = [] := rfl
      obtain ⟨ring, order⟩ := history
      rw [before] at ring order
      change PipeHistory (stored ++ []) (returned ++ bytes) _
      rw [List.append_nil]
      refine ⟨?_, ?_⟩
      · rw [after, List.append_nil]
        exact ring
      · rw [after, List.append_nil]
        exact order
  | close writable unlocked =>
      refine quiet (history.same ?_ ?_)
      · cases writable <;> rfl
      · cases writable <;> rfl
  | elsewhere step away others => exact quiet (history.same rfl rfl)

theorem PipeHistory.run {first : PipeState} {labels : List PipeLabel}
    (begins : (pipeSystem ld page).initial first) (run : (pipeSystem ld page).Run first labels s) :
    PipeHistory (labels.flatMap PipeLabel.stored) (labels.flatMap PipeLabel.returned) s := by
  refine run.preservesHistory (P := fun labels s =>
    PipeHistory (labels.flatMap PipeLabel.stored) (labels.flatMap PipeLabel.returned) s) ?_ ?_
  · intro labels s label next history step
    have later := history.step step.2
    rw [List.flatMap_append, List.flatMap_append, List.flatMap_singleton, List.flatMap_singleton]
    exact later
  · obtain ⟨⟨data, new⟩, unlocked, _⟩ := begins
    have flight : first.inFlight = [] := PipeState.inFlight_unlocked unlocked
    rw [List.flatMap_nil, List.flatMap_nil]
    refine ⟨?_, ?_⟩
    · rw [flight, new]
      exact .empty rfl rfl
    · rw [flight]
      rfl

end Queue

/-! ## A small machine with a pipe -/

/-- Processes 1, 2 and 3 run on the first three CPUs. -/
def threeRunning : Kernel :=
  { Kernel.blank ⟨[], fun _ _ => 0⟩ with
    proc := fun q => if q < 3 then { Proc.zero with state := .running, pid := q.val + 1 } else .zero
    cpu := fun c =>
      if inside : c.val < 3 then ⟨some ⟨c.val, Nat.lt_trans inside (by decide)⟩, 0⟩
      else ⟨none, 0⟩ }

/-- A new pipe which these processes share. -/
def threeOnPipe : PipeState := ⟨threeRunning, .fresh fun _ => 0, none, fun _ => .away⟩

theorem threeOnPipe_initial (ld : Linkage) (page : Nat) :
    (pipeSystem ld page).initial threeOnPipe := by
  refine ⟨⟨_, rfl⟩, rfl, fun _ => rfl, fun q => ?_⟩
  have awake : (threeOnPipe.kernel.proc q).state ≠ .sleeping := by
    revert q
    decide
  exact ⟨fun asleep => awake asleep.1, fun asleep => awake asleep.1⟩

/-- The counters differ by at most the size of the buffer, readers get the bytes in the order in
which they were stored, and whenever the lock is free the others are the contents of the buffer. -/
theorem pipe_fifo {ld : Linkage} {page : Nat} {first s : PipeState} {labels : List PipeLabel}
    (begins : (pipeSystem ld page).initial first)
    (run : (pipeSystem ld page).Run first labels s) :
    (s.pipe.nwrite - s.pipe.nread).toNat ≤ pipesize ∧
    labels.flatMap PipeLabel.returned <+: labels.flatMap PipeLabel.stored ∧
    (s.lock = none →
      labels.flatMap PipeLabel.returned ++ s.pipe.contents = labels.flatMap PipeLabel.stored) := by
  obtain ⟨ring, order⟩ := PipeHistory.run begins run
  generalize labels.flatMap PipeLabel.returned = returned at *
  generalize labels.flatMap PipeLabel.stored = stored at *
  refine ⟨?_, ?_, fun unlocked => ?_⟩
  · have room := ring.room
    rw [Pipe.count_eq, ring.count_eq Pipe.pipesize_lt]
    omega
  · exact (List.prefix_append _ _).trans ⟨_, by rw [← order]; exact List.take_append_drop _ _⟩
  · have flight : s.inFlight = [] := PipeState.inFlight_unlocked unlocked
    rw [flight, List.append_nil] at ring order
    rw [Pipe.contents_eq, ring.contents_eq Pipe.pipesize_lt Pipe.pipesize_dvd]
    calc
      returned ++ stored.drop returned.length
          = stored.take returned.length ++ stored.drop returned.length := by rw [order]
      _ = stored := List.take_append_drop _ _

/-- Two bytes are written, and another process reads the first one. -/
theorem two_bytes_in_pipe : ∃ s, (pipeSystem sampleLinkage 0x1000).Run threeOnPipe
    [.calls 0, .stores 0 [7, 8], .writeEnds 0 (some 2), .calls 1, .takes 1, .readEnds 1 [7]] s ∧
      s.lock = none ∧ s.pipe.nwrite - s.pipe.nread = 1 ∧ s.pipe.contents = [8] := by
  have free : Free threeOnPipe.kernel 0 0 := ⟨rfl, rfl⟩
  have start : (pipeSystem sampleLinkage 0x1000).Run threeOnPipe [] threeOnPipe := .nil _
  have called := start.snoc ⟨.inl rfl, .write 2 [7, 8] free rfl rfl⟩
  have stored := called.snoc ⟨.inl rfl, .writeStore free rfl rfl⟩
  have ended := stored.snoc ⟨.inl rfl, .writeEnd free rfl rfl⟩
  have other : Free (wakeup threeRunning (some (.other (nreadChan 0x1000)))) 1 1 := ⟨rfl, rfl⟩
  have reads := ended.snoc ⟨.inl rfl, .read 1 other rfl⟩
  have takes := reads.snoc ⟨.inl rfl, .readTake other rfl rfl⟩
  have returns := takes.snoc ⟨.inl rfl, .readEnd other rfl rfl⟩
  obtain ⟨-, -, fifo⟩ := pipe_fifo (threeOnPipe_initial _ _) returns
  exact ⟨_, returns, rfl, rfl, (List.cons.inj (fifo rfl)).2⟩

end SlabStudy.Xv6
