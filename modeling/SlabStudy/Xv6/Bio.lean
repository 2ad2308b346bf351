import SlabStudy.Library.Ledger
import SlabStudy.Library.Linked
import SlabStudy.Xv6.LogOps

/-!
# The buffer cache

`bio.c` with the disk of `memide.c`, used by any number of processes and by
`commit` of `log.c`.  A step is one critical section of `bcache.lock` or of
`log.lock`, taking or leaving the sleep-lock of a buffer, or one access to a
buffer by the process that has it locked.
-/

namespace SlabStudy.Xv6

open Library

/-- Device number of the file system. -/
abbrev rootdev : Nat := 1

instance : NeZero nbuf := ⟨by decide⟩

/--
`struct buf` without its links; `holder` is the process that has its
sleep-lock.  `changed` is not in the source: the data has been changed, and
neither `log_write` nor `bwrite` has been called since.
-/
structure Buf (P : Type) where
  valid : Bool
  dirty : Bool
  dev : Nat
  blockno : Nat
  refcnt : Nat
  holder : Option P
  data : Block
  changed : Bool

/-- `bcache`. -/
structure Bcache (P : Type) where
  buf : Fin nbuf → Buf P
  links : Links (Fin nbuf)

/-- The calls of `panic`, and a scan of the list that does not end. -/
inductive BufPanic where
  | endless
  | noBuffers
  | bwrite
  | brelse
  | notLocked
  | nothingToDo
  | otherDisk
  | outOfRange
  | log (reason : LogPanic)
  deriving DecidableEq

namespace Bcache

variable {P : Type}

def set (c : Bcache P) (i : Fin nbuf) (b : Buf P) : Bcache P :=
  { c with buf := Function.update c.buf i b }

/-- `binit`: the buffers are linked in, one behind the head after the other. -/
def binit : Bcache P where
  buf _ := ⟨false, false, 0, 0, 0, none, .zero, false⟩
  links := (List.finRange nbuf).foldl Links.insert ⟨fun _ => none, fun _ => none⟩

/-- `bget` up to the release of `bcache.lock`. -/
def bget (c : Bcache P) (dev blockno : Nat) : Except BufPanic (Fin nbuf × Bcache P) :=
  match Links.scan c.links.next (fun i => (c.buf i).dev == dev && (c.buf i).blockno == blockno)
      (nbuf + 1) (c.links.next none) with
  | none => .error .endless
  | some (some i) => .ok (i, c.set i { c.buf i with refcnt := (c.buf i).refcnt + 1 })
  | some none =>
      match Links.scan c.links.prev (fun i => (c.buf i).refcnt == 0 && !(c.buf i).dirty)
          (nbuf + 1) (c.links.prev none) with
      | none => .error .endless
      | some (some i) => .ok (i, c.set i { c.buf i with
          dev := dev, blockno := blockno, valid := false, dirty := false, refcnt := 1 })
      | some none => .error .noBuffers

/-- The critical section of `brelse`. -/
def brelse (c : Bcache P) (i : Fin nbuf) : Bcache P :=
  let c := c.set i { c.buf i with refcnt := (c.buf i).refcnt - 1 }
  if (c.buf i).refcnt = 0 then { c with links := (c.links.unlink i).insert i } else c

end Bcache

/-! ## Processes -/

/-- Where a process is in a call. -/
inductive BufPhase where
  | running
  /-- In `bget` of a block, waiting for the sleep-lock. -/
  | waiting (dev b : Nat) (i : Fin nbuf)
  /-- In `bread` of a block, with the sleep-lock. -/
  | filling (dev b : Nat) (i : Fin nbuf)
  /-- In `log_write`, behind its tests. -/
  | logging (i : Fin nbuf)
  /-- In `brelse`, without the sleep-lock. -/
  | releasing (i : Fin nbuf)
  deriving DecidableEq

/-- What a process does with the buffers; a buffer that it holds is named by its block. -/
inductive BufCall where
  | bread (dev b : Nat)
  | modify (b : Nat) (data : Block)
  | copy (dst src : Nat)
  | head (b : Nat)
  | logWrite (b : Nat)
  | bwrite (b : Nat)
  | brelse (b : Nat)

/-- The calls of the file system; `copy` and `head` are those of `commit`. -/
def BufCall.User : BufCall → Prop
  | .copy _ _ => False
  | .head _ => False
  | _ => True

/-- A process, with the rest of a round of `commit` if it is in there. -/
structure BufProc where
  phase : BufPhase
  task : List BufCall
  pc : Option CommitPc

/-- The buffer cache, the disk, `struct log` and the processes. -/
structure BufState (P : Type) where
  cache : Bcache P
  disk : Disk
  disksize : Nat
  start : Nat
  size : Nat
  outstanding : Int
  committing : Bool
  lh : List Nat
  proc : P → BufProc

/-- One round of `write_log`. -/
def writeLogRound (start tail b : Nat) : List BufCall :=
  [.bread rootdev (start + tail + 1), .bread rootdev b, .copy (start + tail + 1) b,
    .bwrite (start + tail + 1), .brelse b, .brelse (start + tail + 1)]

/-- One round of `install_trans`. -/
def installRound (start tail b : Nat) : List BufCall :=
  [.bread rootdev (start + tail + 1), .bread rootdev b, .copy b (start + tail + 1), .bwrite b,
    .brelse (start + tail + 1), .brelse b]

/-- `write_head`. -/
def writeHeadCalls (start : Nat) : List BufCall :=
  [.bread rootdev start, .head start, .bwrite start, .brelse start]

namespace BufState

variable {P : Type} [DecidableEq P]

def buf (s : BufState P) (i : Fin nbuf) : Buf P := s.cache.buf i

def set (s : BufState P) (i : Fin nbuf) (b : Buf P) : BufState P := { s with cache := s.cache.set i b }

def setProc (s : BufState P) (p : P) (q : BufProc) : BufState P :=
  { s with proc := Function.update s.proc p q }

def setPhase (s : BufState P) (p : P) (phase : BufPhase) : BufState P :=
  s.setProc p { s.proc p with phase := phase }

/-- `iderw` of the disk in memory. -/
def iderw (s : BufState P) (p : P) (i : Fin nbuf) : Except BufPanic (BufState P) :=
  let b := s.buf i
  if b.holder ≠ some p then .error .notLocked
  else if b.valid && !b.dirty then .error .nothingToDo
  else if b.dev ≠ 1 then .error .otherDisk
  else if b.blockno ≥ s.disksize then .error .outOfRange
  else if b.dirty then
    .ok { s.set i { b with dirty := false, valid := true } with
      disk := Function.update s.disk b.blockno b.data }
  else .ok (s.set i { b with data := s.disk b.blockno, valid := true })

/-- The end of `bread`. -/
def fill (s : BufState P) (p : P) (i : Fin nbuf) : Except BufPanic (BufState P) :=
  if (s.buf i).valid then .ok s else s.iderw p i

def bwrite (s : BufState P) (p : P) (i : Fin nbuf) : Except BufPanic (BufState P) :=
  if (s.buf i).holder ≠ some p then .error .bwrite
  else (s.set i { s.buf i with dirty := true }).iderw p i

/-- The start of `brelse`, which ends with `releasesleep`. -/
def release (s : BufState P) (p : P) (i : Fin nbuf) : Except BufPanic (BufState P) :=
  if (s.buf i).holder ≠ some p then .error .brelse
  else .ok (s.set i { s.buf i with holder := none })

/-- The tests of `log_write`. -/
def logCheck (s : BufState P) : Except BufPanic Unit :=
  if s.lh.length ≥ logsize ∨ (s.lh.length : Int) ≥ s.size - 1 then .error (.log .tooBig)
  else if s.outstanding < 1 then .error (.log .outsideTrans)
  else .ok ()

/-- The critical section of `log_write`. -/
def logWrite (s : BufState P) (i : Fin nbuf) : Except BufPanic (BufState P) :=
  let s' := s.set i { s.buf i with dirty := true }
  if (s.buf i).blockno ∈ s.lh then .ok s'
  else if s.lh.length < logsize then .ok { s' with lh := s.lh ++ [(s.buf i).blockno] }
  else .error (.log .overrun)

/-- The next round of `commit`. -/
def commitRound (s : BufState P) (p : P) : CommitPc → BufState P
  | .enter =>
      s.setProc p ⟨.running, [], some (if s.lh.length > 0 then .writeLog 0 else .leave)⟩
  | .writeLog tail =>
      match s.lh[tail]? with
      | some b => s.setProc p ⟨.running, writeLogRound s.start tail b, some (.writeLog (tail + 1))⟩
      | none => s.setProc p ⟨.running, [], some .writeHead⟩
  | .writeHead => s.setProc p ⟨.running, writeHeadCalls s.start, some (.install 0)⟩
  | .install tail =>
      match s.lh[tail]? with
      | some b => s.setProc p ⟨.running, installRound s.start tail b, some (.install (tail + 1))⟩
      | none => s.setProc p ⟨.running, [], some .clear⟩
  | .clear => { s with lh := [] }.setProc p ⟨.running, [], some .eraseHead⟩
  | .eraseHead => s.setProc p ⟨.running, writeHeadCalls s.start, some .leave⟩
  | .leave => { s with committing := false }.setProc p ⟨.running, [], none⟩

/-- The buffer of block `b` that `p` has locked. -/
structure Holds (s : BufState P) (p : P) (b : Nat) (i : Fin nbuf) : Prop where
  holder : (s.buf i).holder = some p
  dev : (s.buf i).dev = rootdev
  blockno : (s.buf i).blockno = b

/-- The process `p` makes the call `c`: any call, or the next one of its round of `commit`. -/
inductive Calls (s : BufState P) (p : P) (c : BufCall) : BufState P → Prop where
  | user (running : (s.proc p).phase = .running) (free : (s.proc p).pc = none) (user : c.User) :
      Calls s p c s
  | commit {rest : List BufCall} {pc : CommitPc} (running : (s.proc p).phase = .running)
      (busy : (s.proc p).pc = some pc) (task : (s.proc p).task = c :: rest) :
      Calls s p c (s.setProc p ⟨.running, rest, some pc⟩)

end BufState

/--
What can be seen of a step: a `bread` returns, with the block that it was called
for, or data is stored by `log_write` or `bwrite`.
-/
inductive BufLabel (P : Type) where
  | returns (p : P) (dev b : Nat) (data : Block)
  | stores (p : P) (b : Nat) (data : Block)
  | internal (p : P)

/-- The steps of the processes; there are no steps after a panic. -/
inductive BufStep {P : Type} [DecidableEq P] : BufState P → BufLabel P → BufState P → Prop where
  | bget {s t : BufState P} {p : P} {dev b : Nat} {i : Fin nbuf} {c : Bcache P}
      (call : s.Calls p (.bread dev b) t) (got : t.cache.bget dev b = .ok (i, c)) :
      BufStep s (.internal p) ({ t with cache := c }.setPhase p (.waiting dev b i))
  | acquiresleep {s : BufState P} {p : P} {dev b : Nat} {i : Fin nbuf}
      (waits : (s.proc p).phase = .waiting dev b i) (free : (s.buf i).holder = none) :
      BufStep s (.internal p)
        ((s.set i { s.buf i with holder := some p }).setPhase p (.filling dev b i))
  | bread {s t : BufState P} {p : P} {dev b : Nat} {i : Fin nbuf}
      (fills : (s.proc p).phase = .filling dev b i) (filled : s.fill p i = .ok t) :
      BufStep s (.returns p dev b (t.buf i).data) (t.setPhase p .running)
  | modify {s t : BufState P} {p : P} {b : Nat} {data : Block} {i : Fin nbuf}
      (call : s.Calls p (.modify b data) t) (held : s.Holds p b i) :
      BufStep s (.internal p) (t.set i { t.buf i with data := data, changed := true })
  | copy {s t : BufState P} {p : P} {dst src : Nat} {i j : Fin nbuf}
      (call : s.Calls p (.copy dst src) t) (held : s.Holds p dst i) (source : s.Holds p src j) :
      BufStep s (.internal p) (t.set i { t.buf i with data := (t.buf j).data, changed := true })
  | head {s t : BufState P} {p : P} {b : Nat} {i : Fin nbuf} (call : s.Calls p (.head b) t)
      (held : s.Holds p b i) :
      BufStep s (.internal p)
        (t.set i { t.buf i with data := putHead (t.buf i).data t.lh, changed := true })
  | logCheck {s t : BufState P} {p : P} {b : Nat} {i : Fin nbuf} (call : s.Calls p (.logWrite b) t)
      (held : s.Holds p b i) (room : t.logCheck = .ok ()) :
      BufStep s (.internal p) (t.setPhase p (.logging i))
  | logWrite {s t : BufState P} {p : P} {i : Fin nbuf} (logs : (s.proc p).phase = .logging i)
      (wrote : s.logWrite i = .ok t) :
      BufStep s (.stores p (s.buf i).blockno (s.buf i).data)
        ((t.set i { t.buf i with changed := false }).setPhase p .running)
  | bwrite {s t u : BufState P} {p : P} {b : Nat} {i : Fin nbuf} (call : s.Calls p (.bwrite b) t)
      (held : s.Holds p b i) (wrote : t.bwrite p i = .ok u) :
      BufStep s (.stores p b (s.buf i).data) (u.set i { u.buf i with changed := false })
  | release {s t u : BufState P} {p : P} {b : Nat} {i : Fin nbuf} (call : s.Calls p (.brelse b) t)
      (held : s.Holds p b i) (saved : (s.proc p).pc = none → (s.buf i).changed = false)
      (released : t.release p i = .ok u) :
      BufStep s (.internal p) (u.setPhase p (.releasing i))
  | brelse {s : BufState P} {p : P} {i : Fin nbuf} (leaves : (s.proc p).phase = .releasing i) :
      BufStep s (.internal p) ({ s with cache := s.cache.brelse i }.setPhase p .running)
  | beginOp {s : BufState P} {p : P} (running : (s.proc p).phase = .running)
      (idle : (s.proc p).pc = none) (free : s.committing = false)
      (room : s.lh.length + (s.outstanding + 1) * maxopblocks ≤ logsize) :
      BufStep s (.internal p) { s with outstanding := s.outstanding + 1 }
  | endOp {s : BufState P} {p : P} (running : (s.proc p).phase = .running)
      (idle : (s.proc p).pc = none) (free : s.committing = false) (more : s.outstanding ≠ 1) :
      BufStep s (.internal p) { s with outstanding := s.outstanding - 1 }
  | endLast {s : BufState P} {p : P} (running : (s.proc p).phase = .running)
      (idle : (s.proc p).pc = none) (free : s.committing = false) (last : s.outstanding = 1)
      (left : ∀ i, (s.buf i).holder ≠ some p) :
      BufStep s (.internal p) ({ s with outstanding := 0, committing := true }.setProc p
        ⟨.running, [], some .enter⟩)
  | commit {s : BufState P} {p : P} {pc : CommitPc} (running : (s.proc p).phase = .running)
      (busy : (s.proc p).pc = some pc) (done : (s.proc p).task = []) :
      BufStep s (.internal p) (s.commitRound p pc)

/-- The kernel after `binit`, with any disk. -/
structure BufState.Initial {P : Type} (s : BufState P) : Prop where
  cache : s.cache = .binit
  outstanding : s.outstanding = 0
  committing : s.committing = false
  lh : s.lh = []
  proc : ∀ p, s.proc p = ⟨.running, [], none⟩

def bufSystem (P : Type) [DecidableEq P] : System (BufState P) (BufLabel P) where
  initial := BufState.Initial
  step := BufStep

/-- The stores of a run, in order. -/
def storesOf {P : Type} : List (BufLabel P) → List (Nat × Block)
  | [] => []
  | .stores _ b data :: labels => (b, data) :: storesOf labels
  | _ :: labels => storesOf labels

/-- What was stored last for every block of the disk. -/
def lastStored {P : Type} (disk : Disk) (labels : List (BufLabel P)) : Disk :=
  applyWrites (storesOf labels) disk

end SlabStudy.Xv6
