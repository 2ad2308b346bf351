import SlabStudy.Xv6.Block

/-!
# Blocks and inodes

The block allocator of `fs.c`, and the functions that read, write and discard
the content of an inode.  The disk is seen through its layout: the bits of the
free map, the on-disk inodes, and the data blocks as bytes.  The inode a
function works on is the in-memory copy that its caller has locked.
-/

namespace SlabStudy.Xv6

/-! ## fs.h and param.h -/

/-- Blocks listed in an inode itself. -/
abbrev ndirect : Nat := 12
/-- Blocks of the largest file. -/
abbrev maxfile : Nat := ndirect + nindirect
/-- Bitmap bits per block. -/
abbrev bpb : Nat := bsize * 8
/-- Maximum major device number. -/
abbrev ndev : Nat := 10

instance (priority := 1100) : NeZero (ndirect + 1) := ⟨by decide⟩

/-- The superblock, up to the fields that only `log.c` and `mkfs.c` use. -/
structure Superblock where
  /-- Size of the image in blocks. -/
  size : Nat
  ninodes : Nat
  /-- Block number of the first free map block. -/
  bmapstart : Nat
  deriving DecidableEq, Repr

/-- The blocks in front of the data blocks: boot, super, log, inode and free map blocks. -/
def Superblock.nmeta (sb : Superblock) : Nat := sb.bmapstart + (sb.size / bpb + 1)

/-- File types; `free` is the type 0 of a free inode. -/
inductive InodeType where
  | free
  | dir
  | file
  | dev
  deriving DecidableEq, Repr

/-- `struct dinode`, and the same fields of `struct inode`. -/
structure Dinode where
  type : InodeType
  major : Int
  minor : Int
  nlink : Int
  size : Nat
  addrs : Fin (ndirect + 1) → Nat

/-- `memset(dip, 0, sizeof(*dip))`. -/
def Dinode.zero : Dinode := ⟨.free, 0, 0, 0, 0, fun _ => 0⟩

/-- The entry of `addrs` that lists the indirect block. -/
def indirect : Fin (ndirect + 1) := Fin.last ndirect

structure FsDisk where
  sb : Superblock
  bit : Nat → Bool
  dinode : Nat → Dinode
  block : Nat → Block

/-- The calls of `panic` in `fs.c` that the functions here can reach. -/
inductive FsPanic where
  | outOfBlocks
  | freeingFreeBlock
  | outOfRange
  | noDiskInodes
  | noInodes
  | noType
  deriving DecidableEq, Repr

/-! ## Blocks -/

/-- Allocate a zeroed disk block; the two loops visit the blocks of the image in order. -/
def balloc (d : FsDisk) : Except FsPanic (Nat × FsDisk) :=
  match (List.range d.sb.size).find? fun b => !d.bit b with
  | some b => .ok (b, { d with
      bit := Function.update d.bit b true
      block := Function.update d.block b .zero })
  | none => .error .outOfBlocks

/-- Free a disk block. -/
def bfree (d : FsDisk) (b : Nat) : Except FsPanic FsDisk :=
  if d.bit b then .ok { d with bit := Function.update d.bit b false }
  else .error .freeingFreeBlock

/-- The loops of `itrunc`: free the blocks that are listed, entries 0 are empty. -/
def bfreeAll (d : FsDisk) : List Nat → Except FsPanic FsDisk
  | [] => .ok d
  | b :: rest => do
      let d ← if b ≠ 0 then bfree d b else .ok d
      bfreeAll d rest

/-- Copy a modified in-memory inode to disk. -/
def iupdate (d : FsDisk) (inum : Nat) (ip : Dinode) : FsDisk :=
  { d with dinode := Function.update d.dinode inum ip }

/-! ## Inode content -/

/-- A locked inode, with the disk. -/
structure Locked where
  inum : Nat
  ip : Dinode
  disk : FsDisk

/-- The block that `addrs[i]` lists, allocated if there is none. -/
def Locked.ensure (l : Locked) (i : Fin (ndirect + 1)) : Except FsPanic (Nat × Locked) :=
  if l.ip.addrs i = 0 then do
    let (addr, disk) ← balloc l.disk
    .ok (addr, { l with
      ip := { l.ip with addrs := Function.update l.ip.addrs i addr }
      disk := disk })
  else .ok (l.ip.addrs i, l)

/-- The block that word `k` of the indirect block `list` lists, allocated if there is none. -/
def Locked.ensureEntry (l : Locked) (list k : Nat) : Except FsPanic (Nat × Locked) :=
  if (l.disk.block list).word k = 0 then do
    let (addr, disk) ← balloc l.disk
    .ok (addr, { l with disk := { disk with
      block := Function.update disk.block list ((disk.block list).setWord k addr) } })
  else .ok ((l.disk.block list).word k, l)

/-- The disk block address of the `bn`th block, allocated if there is no such block. -/
def bmap (l : Locked) (bn : Nat) : Except FsPanic (Nat × Locked) :=
  if bn < ndirect then l.ensure (Fin.ofNat (ndirect + 1) bn)
  else if bn - ndirect < nindirect then do
    let (list, l) ← l.ensure indirect
    l.ensureEntry list (bn - ndirect)
  else .error .outOfRange

/-- The words of an indirect block. -/
def Block.words (b : Block) : List Nat := (List.range nindirect).map b.word

/-- Discard the content of an inode. -/
def itrunc (l : Locked) : Except FsPanic Locked := do
  let disk ← bfreeAll l.disk ((List.range ndirect).map fun i =>
    l.ip.addrs (Fin.ofNat (ndirect + 1) i))
  let disk ← if l.ip.addrs indirect ≠ 0 then do
      let disk ← bfreeAll disk (disk.block (l.ip.addrs indirect)).words
      bfree disk (l.ip.addrs indirect)
    else .ok disk
  let ip := { l.ip with size := 0, addrs := fun _ => 0 }
  .ok { l with ip := ip, disk := iupdate disk l.inum ip }

/-- `memmove` out of a block. -/
def Block.slice (b : Block) (start n : Nat) : List UInt8 :=
  (List.range n).map fun i => b (Fin.ofNat bsize (start + i))

/-- `memmove` into a block. -/
def Block.store (b : Block) (start : Nat) (data : List UInt8) : Block := fun offset =>
  if start ≤ offset.val then (data[offset.val - start]?).getD (b offset) else b offset

/-- How much one round of `readi` or `writei` moves. -/
def chunk (off n : Nat) : Nat := min n (bsize - off % bsize)

theorem chunk_pos (off : Nat) {n : Nat} (some : n ≠ 0) : 0 < chunk off n := by
  have inside := Nat.mod_lt off (by decide : 0 < bsize)
  unfold chunk
  omega

/-- The loop of `readi`, with `n` bytes to go. -/
def readLoop (l : Locked) (off n : Nat) : Except FsPanic (List UInt8 × Locked) :=
  if _done : n = 0 then .ok ([], l)
  else do
    let (addr, l) ← bmap l (off / bsize)
    let part := (l.disk.block addr).slice (off % bsize) (chunk off n)
    let (rest, l) ← readLoop l (off + chunk off n) (n - chunk off n)
    .ok (part ++ rest, l)
termination_by n
decreasing_by
  have moved := chunk_pos off _done
  omega

/-- The loop of `writei`, with the data still to be written. -/
def writeLoop (l : Locked) (off : Nat) (data : List UInt8) : Except FsPanic Locked :=
  if _done : data.length = 0 then .ok l
  else do
    let (addr, l) ← bmap l (off / bsize)
    let n := chunk off data.length
    let block := (l.disk.block addr).store (off % bsize) (data.take n)
    writeLoop { l with disk := { l.disk with block := Function.update l.disk.block addr block } }
      (off + n) (data.drop n)
termination_by data.length
decreasing_by
  have moved := chunk_pos off _done
  rw [List.length_drop]
  omega

/-- `devsw`: the devices that can be read and written. -/
structure Devsw where
  read : Nat → Option (Nat → Int × List UInt8)
  write : Nat → Option (List UInt8 → Int)

/-- No devices. -/
def noDevices : Devsw := ⟨fun _ => none, fun _ => none⟩

/-- The device of an inode, if its major number is one of `devsw`. -/
def Dinode.device {α : Type} (ip : Dinode) (table : Nat → Option α) : Option α :=
  if ip.major < 0 ∨ ip.major ≥ ndev then none else table ip.major.toNat

/-- Read data from an inode: the value returned, and the bytes moved to `dst`. -/
def readi (devsw : Devsw) (l : Locked) (off n : Nat) :
    Except FsPanic (Int × List UInt8 × Locked) :=
  if l.ip.type = .dev then
    match l.ip.device devsw.read with
    | none => .ok (-1, [], l)
    | some read => .ok ((read n).1, (read n).2, l)
  else if off > l.ip.size ∨ (off + n) % 2 ^ 32 < off then .ok (-1, [], l)
  else do
    let n := if (off + n) % 2 ^ 32 > l.ip.size then l.ip.size - off else n
    let (bytes, l) ← readLoop l off n
    .ok (n, bytes, l)

/-- Write data to an inode. -/
def writei (devsw : Devsw) (l : Locked) (off : Nat) (data : List UInt8) :
    Except FsPanic (Int × Locked) :=
  if l.ip.type = .dev then
    match l.ip.device devsw.write with
    | none => .ok (-1, l)
    | some write => .ok (write data, l)
  else if off > l.ip.size ∨ (off + data.length) % 2 ^ 32 < off then .ok (-1, l)
  else if (off + data.length) % 2 ^ 32 > maxfile * bsize then .ok (-1, l)
  else do
    let l ← writeLoop l off data
    if data.length > 0 ∧ off + data.length > l.ip.size then
      let ip := { l.ip with size := off + data.length }
      .ok (data.length, { l with ip := ip, disk := iupdate l.disk l.inum ip })
    else .ok (data.length, l)

end SlabStudy.Xv6
