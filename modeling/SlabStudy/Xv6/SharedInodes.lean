import SlabStudy.Library.Ledger
import SlabStudy.Xv6.InodeCache

/-!
# Inodes shared by processes

The functions of `fs.c` on the inode cache, run by any number of processes.  A
step is one critical section of `icache.lock`, taking or leaving the sleep-lock
of an inode, or one access to an on-disk inode, which its buffer protects.  In
between any other process may run.  The blocks of the files are not modelled:
`balloc` may return any block.
-/

namespace SlabStudy.Xv6

open Library

/-- `struct inode`; `holder` is the process that has its sleep-lock. -/
structure SharedInode (P : Type) where
  dev : Nat
  inum : Nat
  ref : Nat
  valid : Bool
  holder : Option P
  copy : Dinode

/-- Where a process is in a call. -/
inductive InodePhase where
  | running
  /-- In the loop of `ialloc`. -/
  | allocating (dev : Nat) (type : InodeType) (inum : Nat)
  /-- In `ialloc`, about to call `iget`. -/
  | getting (dev inum : Nat)
  /-- In `ilock`, waiting for the sleep-lock, and then with it. -/
  | locking (e : Fin ninode)
  | loading (e : Fin ninode)
  /-- The fields have been changed, and `iupdate` is called next. -/
  | updating (e : Fin ninode)
  /-- In the loop of `writei`, at an offset with some bytes left. -/
  | writing (e : Fin ninode) (off n : Nat)
  /-- In `iput`, waiting for the sleep-lock, and then with it. -/
  | putting (e : Fin ninode)
  | testing (e : Fin ninode)
  | truncating (e : Fin ninode)
  | freeing (e : Fin ninode)
  | invalidating (e : Fin ninode)
  | unlocking (e : Fin ninode)
  /-- In `iput`, behind `releasesleep`. -/
  | dropping (e : Fin ninode)
  deriving DecidableEq

/-- In `iput`, with the reference still counted. -/
def InodePhase.puts (e : Fin ninode) : InodePhase → Bool
  | .putting f => f = e
  | .testing f => f = e
  | .truncating f => f = e
  | .freeing f => f = e
  | .invalidating f => f = e
  | .unlocking f => f = e
  | .dropping f => f = e
  | _ => false

inductive InodeCall where
  | iget (dev inum : Nat)
  | idup (e : Fin ninode)
  | ialloc (dev : Nat) (type : InodeType)
  | ilock (e : Fin ninode)
  | iunlock (e : Fin ninode)
  | iupdate (e : Fin ninode)
  | readi (e : Fin ninode) (bn addr : Nat)
  | writei (e : Fin ninode) (off n : Nat)
  /-- The fields that `link`, `unlink` and `create` store to before they call `iupdate`. -/
  | fields (e : Fin ninode) (major minor nlink : Int)
  | iput (e : Fin ninode)

/-- The inode cache, the on-disk inodes of each device, and the processes. -/
structure InodeState (P : Type) where
  dinode : Nat → Nat → Dinode
  ninodes : Nat
  inode : Fin ninode → SharedInode P
  phase : P → InodePhase

/-- Where the inode itself lists block `bn`, or the indirect block for it. -/
def slotOf (bn : Nat) : Fin (ndirect + 1) :=
  if bn < ndirect then Fin.ofNat (ndirect + 1) bn else indirect

/-- What `bmap` does to the addresses of an inode when `balloc` returns `addr`. -/
def Dinode.bmap (ip : Dinode) (bn addr : Nat) : Dinode :=
  if ip.addrs (slotOf bn) = 0 then { ip with addrs := Function.update ip.addrs (slotOf bn) addr }
  else ip

namespace InodeState

variable {P : Type} [DecidableEq P]

def setInode (s : InodeState P) (e : Fin ninode) (ip : SharedInode P) : InodeState P :=
  { s with inode := Function.update s.inode e ip }

def setPhase (s : InodeState P) (p : P) (phase : InodePhase) : InodeState P :=
  { s with phase := Function.update s.phase p phase }

def setDinode (s : InodeState P) (dev inum : Nat) (dip : Dinode) : InodeState P :=
  { s with dinode := Function.update s.dinode dev (Function.update (s.dinode dev) inum dip) }

/-- `iget`, all of it under `icache.lock`. -/
def iget (s : InodeState P) (dev inum : Nat) : Option (InodeState P) :=
  match (List.finRange ninode).find? fun e =>
      decide ((s.inode e).ref > 0 ∧ (s.inode e).dev = dev ∧ (s.inode e).inum = inum) with
  | some e => some (s.setInode e { s.inode e with ref := (s.inode e).ref + 1 })
  | none =>
      match (List.finRange ninode).find? fun e => decide ((s.inode e).ref = 0) with
      | some e => some (s.setInode e { s.inode e with
          dev := dev, inum := inum, ref := 1, valid := false })
      | none => none

/-- `iupdate`: the buffer of the on-disk inode gets the fields of the cached one. -/
def iupdate (s : InodeState P) (e : Fin ninode) : InodeState P :=
  s.setDinode (s.inode e).dev (s.inode e).inum (s.inode e).copy

/-- The process `p` is between `ilock` and `iunlock`, or in `ilock`. -/
def Uses (s : InodeState P) (p : P) (e : Fin ninode) : Prop :=
  (s.inode e).holder = some p ∧ (s.phase p).puts e = false ∨ s.phase p = .locking e

instance (s : InodeState P) (p : P) (e : Fin ninode) : Decidable (s.Uses p e) :=
  inferInstanceAs (Decidable (_ ∨ _))

variable [Fintype P]

/-- The processes that are giving up a reference. -/
def puts (s : InodeState P) (e : Fin ninode) : Nat := ∑ p, if (s.phase p).puts e then 1 else 0

/-- There is a reference that nobody is giving up. -/
def Referenced (s : InodeState P) (e : Fin ninode) : Prop := s.puts e < (s.inode e).ref

/-- `p` has locked the inode with `ilock`. -/
def Locks (s : InodeState P) (p : P) (e : Fin ninode) : Prop :=
  (s.inode e).holder = some p

instance (s : InodeState P) (e : Fin ninode) : Decidable (s.Referenced e) :=
  inferInstanceAs (Decidable (_ < _))

instance (s : InodeState P) (p : P) (e : Fin ninode) : Decidable (s.Locks p e) :=
  inferInstanceAs (Decidable (_ = _))

/--
A process starts a call; `none` when it would not, or at a panic.  A caller
has a reference to the inode, and nobody gives up the reference that another
process has while it uses the inode.
-/
def start (s : InodeState P) (p : P) : InodeCall → Option (InodeState P)
  | .iget dev inum => s.iget dev inum
  | .idup e =>
      if s.Referenced e then some (s.setInode e { s.inode e with ref := (s.inode e).ref + 1 })
      else none
  | .ialloc dev type => if type = .free then none else some (s.setPhase p (.allocating dev type 1))
  | .ilock e => if s.Referenced e then some (s.setPhase p (.locking e)) else none
  | .iunlock e =>
      if s.Locks p e then some (s.setInode e { s.inode e with holder := none }) else none
  | .iupdate e => if s.Locks p e then some (s.setPhase p (.updating e)) else none
  | .readi e bn addr =>
      -- `readi` stops at the size
      if s.Locks p e ∧ bn * bsize < (s.inode e).copy.size ∧ addr ≠ 0 then
        some (s.setInode e { s.inode e with copy := (s.inode e).copy.bmap bn addr })
      else none
  | .writei e off n =>
      if s.Locks p e then
        if (s.inode e).copy.type = .dev then some s
        else if off > (s.inode e).copy.size ∨ off + n ≥ 2 ^ 32 ∨ off + n > maxfile * bsize then
          some s
        else some (s.setPhase p (.writing e off n))
      else none
  | .fields e major minor nlink =>
      if s.Locks p e then
        some ((s.setInode e { s.inode e with
          copy := { (s.inode e).copy with major := major, minor := minor, nlink := nlink } }).setPhase
          p (.updating e))
      else none
  | .iput e =>
      if s.Referenced e ∧ ∀ q, q ≠ p → s.Uses q e → s.puts e + 1 < (s.inode e).ref then
        some (s.setPhase p (.putting e))
      else none

/-- The next step of the call that `p` is in; `addr` is what `balloc` returns, if it is called. -/
def next (s : InodeState P) (p : P) (addr : Nat) : Option (InodeState P) :=
  match s.phase p with
  | .running => none
  | .allocating dev type inum =>
      if inum < s.ninodes then
        if (s.dinode dev inum).type = .free then
          some ((s.setDinode dev inum { Dinode.zero with type := type }).setPhase p
            (.getting dev inum))
        else some (s.setPhase p (.allocating dev type (inum + 1)))
      else none
  | .getting dev inum => (s.iget dev inum).map fun s => s.setPhase p .running
  | .locking e =>
      if (s.inode e).holder = none then
        some ((s.setInode e { s.inode e with holder := some p }).setPhase p (.loading e))
      else none
  | .loading e =>
      if (s.inode e).valid then some (s.setPhase p .running)
      else
        let copy := s.dinode (s.inode e).dev (s.inode e).inum
        if copy.type = .free then none
        else some ((s.setInode e { s.inode e with valid := true, copy := copy }).setPhase p .running)
  | .updating e => some ((s.iupdate e).setPhase p .running)
  | .writing e off n =>
      if n = 0 then
        if off > (s.inode e).copy.size then
          some ((s.setInode e { s.inode e with
            copy := { (s.inode e).copy with size := off } }).setPhase p (.updating e))
        else some (s.setPhase p .running)
      else if addr ≠ 0 then
        some ((s.setInode e { s.inode e with
          copy := (s.inode e).copy.bmap (off / bsize) addr }).setPhase p
          (.writing e (off + chunk off n) (n - chunk off n)))
      else none
  | .putting e =>
      if (s.inode e).holder = none then
        some ((s.setInode e { s.inode e with holder := some p }).setPhase p (.testing e))
      else none
  | .testing e =>
      if (s.inode e).valid ∧ (s.inode e).copy.nlink = 0 ∧ (s.inode e).ref = 1 then
        some (s.setPhase p (.truncating e))
      else some (s.setPhase p (.unlocking e))
  | .truncating e =>
      some (((s.setInode e { s.inode e with
        copy := { (s.inode e).copy with size := 0, addrs := fun _ => 0 } }).iupdate e).setPhase p
        (.freeing e))
  | .freeing e =>
      some (((s.setInode e { s.inode e with
        copy := { (s.inode e).copy with type := .free } }).iupdate e).setPhase p (.invalidating e))
  | .invalidating e =>
      some ((s.setInode e { s.inode e with valid := false }).setPhase p (.unlocking e))
  | .unlocking e =>
      some ((s.setInode e { s.inode e with holder := none }).setPhase p (.dropping e))
  | .dropping e =>
      some ((s.setInode e { s.inode e with ref := (s.inode e).ref - 1 }).setPhase p .running)

end InodeState

/-- What the processes do. -/
inductive InodeLabel (P : Type) where
  | start (p : P) (call : InodeCall)
  | next (p : P) (addr : Nat)

def InodeState.step {P : Type} [DecidableEq P] [Fintype P] (s : InodeState P) :
    InodeLabel P → Option (InodeState P)
  | .start p call => if s.phase p = .running then s.start p call else none
  | .next p addr => s.next p addr

/-- Every block index below the size is listed, as far as the inode itself says. -/
def Dinode.NoHole (ip : Dinode) : Prop :=
  ∀ bn, bn * bsize < ip.size → ip.addrs (slotOf bn) ≠ 0

/-- An empty cache, and an image whose files have no holes. -/
structure InodeState.Initial {P : Type} (s : InodeState P) : Prop where
  ref : ∀ e, (s.inode e).ref = 0
  holder : ∀ e, (s.inode e).holder = none
  phase : ∀ p, s.phase p = .running
  noHole : ∀ dev inum, (s.dinode dev inum).NoHole

def sharedInodes (P : Type) [DecidableEq P] [Fintype P] :
    System (InodeState P) (InodeLabel P) where
  initial := InodeState.Initial
  step s label t := s.step label = some t

end SlabStudy.Xv6
