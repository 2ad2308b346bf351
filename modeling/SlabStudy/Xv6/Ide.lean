import SlabStudy.Library.Chain
import SlabStudy.Xv6.Bio
import SlabStudy.Xv6.Mkfs

/-!
# The disk driver

`iderw` and `ideintr` of `ide.c` on the buffers of the buffer cache.  A step is
one critical section of `idelock`, a transfer of the disk, or a change to a
buffer that is in no call of `iderw`.  The disk takes one request at a time,
transfers without error, and raises one interrupt behind each transfer.
-/

namespace SlabStudy.Xv6

open Library

/-- What `idestart` writes to the registers and the data port. -/
structure DiskRequest where
  /-- The drive, `b->dev & 1`. -/
  drive : Nat
  sector : Nat
  /-- The data of a write command; `none` for a read command. -/
  write : Option Block

inductive DiskDevice where
  | ready
  | busy (request : DiskRequest)
  /-- An interrupt is pending; behind a read command the data can be taken. -/
  | done (data : Option Block)

structure IdeState (P : Type) where
  disk : Nat → Nat → Block
  device : DiskDevice
  havedisk1 : Bool
  buf : Fin nbuf → Buf P
  qnext : Fin nbuf → Option (Fin nbuf)
  idequeue : Option (Fin nbuf)
  /-- The buffer that a process has passed to `iderw`, and whether it sleeps. -/
  call : P → Option (Fin nbuf × Bool)

inductive IdePanic where
  | notLocked
  | nothingToDo
  | noDisk1
  | incorrectBlockno
  /-- The loop over the queue does not end. -/
  | endless
  /-- A request is started that the disk does not take. -/
  | notReady
  deriving DecidableEq

namespace IdeState

variable {P : Type} [DecidableEq P]

/-- The test `(b->flags & (B_VALID|B_DIRTY)) == B_VALID`. -/
def finished (s : IdeState P) (b : Fin nbuf) : Bool := (s.buf b).valid && !(s.buf b).dirty

/-- The request for a buffer. -/
def request (s : IdeState P) (b : Fin nbuf) : DiskRequest where
  drive := (s.buf b).dev % 2
  sector := (s.buf b).blockno
  write := if (s.buf b).dirty then some (s.buf b).data else none

def idestart (s : IdeState P) (b : Fin nbuf) : Except IdePanic (IdeState P) :=
  if (s.buf b).blockno ≥ fssize then .error .incorrectBlockno
  else
    match s.device with
    | .ready => .ok { s with device := .busy (s.request b) }
    | _ => .error .notReady

/-- Append b to idequeue. -/
def append (s : IdeState P) (b : Fin nbuf) : Except IdePanic (IdeState P) :=
  let s := { s with qnext := Function.update s.qnext b none }
  match s.idequeue with
  | none => .ok { s with idequeue := some b }
  | some first =>
      match Chain.end? s.qnext nbuf first with
      | none => .error .endless
      | some last => .ok { s with qnext := Function.update s.qnext last (some b) }

/-- The loop in `iderw`, from its test to `sleep` or to its end. -/
def await (s : IdeState P) (p : P) (b : Fin nbuf) : IdeState P :=
  { s with call := Function.update s.call p (if s.finished b then none else some (b, true)) }

def iderw (s : IdeState P) (p : P) (b : Fin nbuf) : Except IdePanic (IdeState P) :=
  if (s.buf b).holder ≠ some p then .error .notLocked
  else if s.finished b then .error .nothingToDo
  else if (s.buf b).dev ≠ 0 ∧ !s.havedisk1 then .error .noDisk1
  else do
    let s ← s.append b
    let s ← if s.idequeue = some b then s.idestart b else .ok s
    .ok (s.await p b)

/-- The part of `ideintr` behind the test of the queue, up to `wakeup`. -/
def complete (s : IdeState P) (b : Fin nbuf) : IdeState P :=
  let data := match s.device with
    | .done (some data) => if (s.buf b).dirty then (s.buf b).data else data
    | _ => (s.buf b).data
  { s with
    idequeue := s.qnext b
    device := .ready
    buf := Function.update s.buf b { s.buf b with data := data, valid := true, dirty := false }
    call := fun p => (s.call p).map fun c => if c.1 = b then (b, false) else c }

def ideintr (s : IdeState P) : Except IdePanic (IdeState P) :=
  match s.idequeue with
  | none => .ok { s with device := .ready }
  | some b =>
      match (s.complete b).idequeue with
      | some next => (s.complete b).idestart next
      | none => .ok (s.complete b)

/-- The disk does what it has been told. -/
def transfer (s : IdeState P) (request : DiskRequest) : IdeState P :=
  match request.write with
  | some data => { s with
      disk := Function.update s.disk request.drive
        (Function.update (s.disk request.drive) request.sector data)
      device := .done none }
  | none => { s with device := .done (some (s.disk request.drive request.sector)) }

end IdeState

/-- What happens at the disk driver. -/
inductive IdeLabel (P : Type) where
  /-- `iderw` is called, and the request is started at once or not. -/
  | iderw (p : P) (b : Fin nbuf) (started : Bool)
  | transfer
  /-- The interrupt for `b`, which starts the request for another buffer if there is one. -/
  | ideintr (b : Option (Fin nbuf)) (started : Option (Fin nbuf))
  /-- A process goes on behind `sleep`, and may return. -/
  | wakes (p : P) (b : Fin nbuf) (returns : Bool)
  /-- The rest of the kernel changes a buffer. -/
  | modify (b : Fin nbuf) (new : Buf P)

inductive IdeStep {P : Type} [DecidableEq P] (s : IdeState P) : IdeLabel P → IdeState P → Prop where
  | iderw {p : P} {b : Fin nbuf} {t : IdeState P} (idle : s.call p = none)
      (ran : s.iderw p b = .ok t) : IdeStep s (.iderw p b (t.idequeue = some b)) t
  | transfer {request : DiskRequest} (busy : s.device = .busy request) :
      IdeStep s .transfer (s.transfer request)
  | ideintr {data : Option Block} {t : IdeState P} (done : s.device = .done data)
      (ran : s.ideintr = .ok t) : IdeStep s (.ideintr s.idequeue t.idequeue) t
  | wakes {p : P} {b : Fin nbuf} (awake : s.call p = some (b, false)) :
      IdeStep s (.wakes p b (s.finished b)) (s.await p b)
  | modify {b : Fin nbuf} {new : Buf P} (free : ∀ p asleep, s.call p ≠ some (b, asleep)) :
      IdeStep s (.modify b new) { s with buf := Function.update s.buf b new }

/-- Nothing has been requested yet. -/
structure IdeState.Initial {P : Type} (s : IdeState P) : Prop where
  device : s.device = .ready
  idequeue : s.idequeue = none
  call : ∀ p, s.call p = none

def ideSystem (P : Type) [DecidableEq P] : System (IdeState P) (IdeLabel P) :=
  ⟨IdeState.Initial, IdeStep⟩

/-! ## The same requests to the disk in memory -/

/-- What a step is to the disk in memory: its `iderw` is done at once. -/
def memStep {P : Type} [DecidableEq P] (a : BufState P) : IdeLabel P → Except BufPanic (BufState P)
  | .iderw p b _ => a.iderw p b
  | .modify b new => .ok (a.set b new)
  | _ => .ok a

/-- `iderw` of `memide.c` for the requests of a run, in order. -/
def memRun {P : Type} [DecidableEq P] (a : BufState P) (labels : List (IdeLabel P)) :
    Except BufPanic (BufState P) :=
  labels.foldlM memStep a

end SlabStudy.Xv6
