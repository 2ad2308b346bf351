import SlabStudy.Xv6.Directory
import SlabStudy.Xv6.FileContent

/-!
# mkfs

The program that builds the initial image: it reads and writes the image file
sector by sector, allots inodes and blocks in order, and appends to files as
`bmap` and `writei` of the kernel would.  Nothing keeps the inodes inside the
inode blocks, and so the image is modelled as bytes.
-/

namespace SlabStudy.Xv6

/-! ## Inodes in a sector -/

/-- `struct dinode` as a record of numbers. -/
structure Din where
  type : Nat
  major : Nat
  minor : Nat
  nlink : Nat
  size : Nat
  addrs : Fin (ndirect + 1) → Nat

namespace Din

/-- `bzero(&din, sizeof(din))`. -/
def zero : Din := ⟨0, 0, 0, 0, 0, fun _ => 0⟩

/-- The sixteen words of the record in memory. -/
def word (d : Din) : Nat → Nat
  | 0 => d.type + 65536 * d.major
  | 1 => d.minor + 65536 * d.nlink
  | 2 => d.size
  | k + 3 => d.addrs (Fin.ofNat (ndirect + 1) k)

/-- The fields have values of their types. -/
structure Fits (d : Din) : Prop where
  type : d.type < 65536
  major : d.major < 65536
  minor : d.minor < 65536
  nlink : d.nlink < 65536
  size : d.size < 2 ^ 32
  addrs : ∀ k, d.addrs k < 2 ^ 32

end Din

namespace Block

/-- `((struct dinode*)buf)[k]`. -/
def din (b : Block) (k : Nat) : Din where
  type := b.word (16 * k) % 65536
  major := b.word (16 * k) / 65536
  minor := b.word (16 * k + 1) % 65536
  nlink := b.word (16 * k + 1) / 65536
  size := b.word (16 * k + 2)
  addrs i := b.word (16 * k + 3 + i)

/-- `((struct dinode*)buf)[k] = d`. -/
def setDin (b : Block) (k : Nat) (d : Din) : Block := fun offset =>
  if offset.val / 64 = k then UInt8.ofNat (d.word (offset.val / 4 % 16) / 256 ^ (offset.val % 4))
  else b offset

end Block

/-! ## The program -/

/-- Size of the file system in blocks. -/
abbrev fssize : Nat := 1000
/-- `NINODES`. -/
abbrev ninodes : Nat := 200
/-- Inodes per block. -/
abbrev ipb : Nat := 8

/-- The image file, in sectors, and the counters of the program. -/
structure Mkfs where
  sector : Nat → Block
  /-- Sectors in the file. -/
  length : Nat
  freeinode : Nat
  freeblock : Nat

/-- Why the program stops with a status that is not 0. -/
inductive MkfsError where
  | read
  | assert
  deriving DecidableEq, Repr

namespace Mkfs

def nbitmap : Nat := fssize / (bsize * 8) + 1
def ninodeblocks : Nat := ninodes / ipb + 1
def nlog : Nat := logsize
def nmeta : Nat := 2 + nlog + ninodeblocks + nbitmap
def inodestart : Nat := 2 + nlog
def bmapstart : Nat := 2 + nlog + ninodeblocks

/-- Write a sector; `sec * BSIZE` is computed in 32 bits. -/
def wsect (m : Mkfs) (sec : Nat) (buf : Block) : Mkfs :=
  { m with
    sector := Function.update m.sector (sec % 2 ^ 23) buf
    length := max m.length (sec % 2 ^ 23 + 1) }

/-- Read a sector, which fails behind the end of the file. -/
def rsect (m : Mkfs) (sec : Nat) : Except MkfsError Block :=
  if sec % 2 ^ 23 < m.length then .ok (m.sector (sec % 2 ^ 23)) else .error .read

/-- `IBLOCK`. -/
def iblock (inum : Nat) : Nat := inum / ipb + inodestart

def winode (m : Mkfs) (inum : Nat) (din : Din) : Except MkfsError Mkfs := do
  let buf ← m.rsect (iblock inum)
  .ok (m.wsect (iblock inum) (buf.setDin (inum % ipb) din))

def rinode (m : Mkfs) (inum : Nat) : Except MkfsError Din := do
  let buf ← m.rsect (iblock inum)
  .ok (buf.din (inum % ipb))

def ialloc (m : Mkfs) (type : Nat) : Except MkfsError (Nat × Mkfs) := do
  let inum := m.freeinode
  let m ← { m with freeinode := m.freeinode + 1 }.winode inum { Din.zero with type := type, nlink := 1 }
  .ok (inum, m)

/-- The loop that sets the bits of the blocks in use. -/
def bitmap (used : Nat) : Block :=
  (List.range used).foldl (fun buf i =>
    Function.update buf (Fin.ofNat bsize (i / 8))
      (buf (Fin.ofNat bsize (i / 8)) ||| 1 <<< UInt8.ofNat (i % 8))) .zero

def balloc (m : Mkfs) (used : Nat) : Except MkfsError Mkfs :=
  if used < bsize * 8 then .ok (m.wsect bmapstart (bitmap used)) else .error .assert

/-- Allot the next block. -/
def takeBlock (m : Mkfs) : Mkfs := { m with freeblock := m.freeblock + 1 }

/-- The part of `iappend` that finds or allots a block in the indirect block. -/
def mapEntry (m : Mkfs) (din : Din) (k : Nat) : Except MkfsError (Nat × Din × Mkfs) := do
  let list ← m.rsect (din.addrs indirect)
  if list.word k = 0 then
    .ok (m.freeblock, din,
      m.takeBlock.wsect (din.addrs indirect) (list.setWord k m.freeblock))
  else .ok (list.word k, din, m)

/-- The part of `iappend` that finds or allots block `fbn` of the file. -/
def mapBlock (m : Mkfs) (din : Din) (fbn : Nat) : Except MkfsError (Nat × Din × Mkfs) :=
  if fbn < ndirect then
    let k := Fin.ofNat (ndirect + 1) fbn
    if din.addrs k = 0 then
      .ok (m.freeblock, { din with addrs := Function.update din.addrs k m.freeblock }, m.takeBlock)
    else .ok (din.addrs k, din, m)
  else if din.addrs indirect = 0 then
    m.takeBlock.mapEntry { din with addrs := Function.update din.addrs indirect m.freeblock }
      (fbn - ndirect)
  else m.mapEntry din (fbn - ndirect)

/-- The loop of `iappend`, with the data still to be appended at `off`. -/
def appendLoop (m : Mkfs) (din : Din) (off : Nat) (data : List UInt8) :
    Except MkfsError (Nat × Din × Mkfs) :=
  if _done : data.length = 0 then .ok (off, din, m)
  else if off / bsize < maxfile then do
    let (x, din, m) ← m.mapBlock din (off / bsize)
    let n1 := min data.length ((off / bsize + 1) * bsize - off)
    let buf ← m.rsect x
    appendLoop (m.wsect x (buf.store (off - off / bsize * bsize) (data.take n1))) din (off + n1)
      (data.drop n1)
  else .error .assert
termination_by data.length
decreasing_by
  rw [List.length_drop]
  simp only [bsize] at *
  omega

def iappend (m : Mkfs) (inum : Nat) (data : List UInt8) : Except MkfsError Mkfs := do
  let din ← m.rinode inum
  let (off, din, m) ← m.appendLoop din din.size data
  m.winode inum { din with size := off }

/-- The bytes of a `struct dirent`. -/
def dirent (inum : Nat) (name : List UInt8) : List UInt8 :=
  [UInt8.ofNat inum, UInt8.ofNat (inum / 256)] ++
    (name.take dirsiz ++ List.replicate (dirsiz - name.length) 0)

/-- An input file: its name on the command line, and its content. -/
structure InputFile where
  name : List UInt8
  content : List UInt8

/-- The loop that copies a file in pieces of a block. -/
def copyFile (m : Mkfs) (inum : Nat) (content : List UInt8) : Except MkfsError Mkfs :=
  if _done : content.length = 0 then .ok m
  else do
    let m ← m.iappend inum (content.take bsize)
    copyFile m inum (content.drop bsize)
termination_by content.length
decreasing_by
  rw [List.length_drop]
  simp only [bsize] at *
  omega

/-- The name without a leading `_`. -/
def plainName : List UInt8 → List UInt8
  | [] => []
  | byte :: rest => if byte = 0x5f then rest else byte :: rest

/-- One round of the loop over the arguments. -/
def addFile (m : Mkfs) (file : InputFile) : Except MkfsError Mkfs :=
  if (0x2f : UInt8) ∈ file.name then .error .assert
  else do
    let (inum, m) ← m.ialloc 2
    let m ← m.iappend rootino (dirent inum (plainName file.name))
    m.copyFile inum file.content

/-- The loop that appends what the calls of `read` return. -/
def copyPieces (m : Mkfs) (inum : Nat) (pieces : List (List UInt8)) : Except MkfsError Mkfs :=
  pieces.foldlM (fun m piece => m.iappend inum piece) m

/-- An input file that is read in pieces, each of which fits the buffer. -/
structure InputReads where
  name : List UInt8
  pieces : List (List UInt8)
  fits : ∀ piece ∈ pieces, piece ≠ [] ∧ piece.length ≤ bsize

/-- One round of the loop over the arguments, for any pieces. -/
def addReads (m : Mkfs) (file : InputReads) : Except MkfsError Mkfs :=
  if (0x2f : UInt8) ∈ file.name then .error .assert
  else do
    let (inum, m) ← m.ialloc 2
    let m ← m.iappend rootino (dirent inum (plainName file.name))
    m.copyPieces inum file.pieces

/-- The superblock. -/
def superblock : Block :=
  ((((((Block.zero.setWord 0 fssize).setWord 1 (fssize - nmeta)).setWord 2 ninodes).setWord 3
    nlog).setWord 4 2).setWord 5 inodestart).setWord 6 bmapstart

/-- The image of zeroes with a superblock. -/
def start : Mkfs := ⟨Function.update (fun _ => .zero) 1 superblock, fssize, 1, nmeta⟩

/-- The root directory with its first two entries. -/
def makeRoot (m : Mkfs) : Except MkfsError Mkfs := do
  let (inum, m) ← m.ialloc 1
  if inum = rootino then do
    let m ← m.iappend rootino (dirent rootino [0x2e])
    m.iappend rootino (dirent rootino [0x2e, 0x2e])
  else .error .assert

/-- The size of the root directory is rounded up, and the free map is written. -/
def finish (m : Mkfs) : Except MkfsError Mkfs := do
  let din ← m.rinode rootino
  let m ← m.winode rootino { din with size := (din.size / bsize + 1) * bsize }
  m.balloc m.freeblock

/-- The image for a list of input files. -/
def main (files : List InputFile) : Except MkfsError Mkfs := do
  let m ← start.makeRoot
  let m ← files.foldlM addFile m
  m.finish

/-- The image for a list of input files, for any pieces. -/
def mainReads (files : List InputReads) : Except MkfsError Mkfs := do
  let m ← start.makeRoot
  let m ← files.foldlM addReads m
  m.finish

/-! ## Full pieces -/

/-- The pieces that `copyFile` appends: all but the last fill the buffer. -/
def split (content : List UInt8) : List (List UInt8) :=
  if _done : content.length = 0 then [] else content.take bsize :: split (content.drop bsize)
termination_by content.length
decreasing_by
  rw [List.length_drop]
  simp only [bsize] at *
  omega

theorem split_fits (content : List UInt8) :
    ∀ piece ∈ split content, piece ≠ [] ∧ piece.length ≤ bsize := by
  induction content using split.induct with
  | case1 content none =>
      rw [split, dif_pos none]
      exact List.forall_mem_nil _
  | case2 content some ih =>
      rw [split, dif_neg some]
      refine List.forall_mem_cons.mpr ⟨⟨fun none => ?_, List.length_take_le _ _⟩, ih⟩
      have length := congrArg List.length none
      rw [List.length_take, List.length_nil] at length
      simp only [bsize] at *
      omega

/-- The file as a host reads it that fills the buffer whenever it can. -/
def InputFile.reads (file : InputFile) : InputReads :=
  ⟨file.name, split file.content, split_fits file.content⟩

theorem copyFile_eq (m : Mkfs) (inum : Nat) (content : List UInt8) :
    m.copyFile inum content = m.copyPieces inum (split content) := by
  induction content using split.induct generalizing m with
  | case1 content none =>
      rw [copyFile, split, dif_pos none, dif_pos none]
      rfl
  | case2 content some ih =>
      rw [copyFile, split, dif_neg some, dif_neg some, copyPieces, List.foldlM_cons]
      exact congrArg _ (funext ih)

theorem addFile_eq (m : Mkfs) (file : InputFile) : m.addFile file = m.addReads file.reads := by
  unfold addFile addReads
  simp only [copyFile_eq]
  rfl

theorem main_eq (files : List InputFile) : main files = mainReads (files.map InputFile.reads) := by
  unfold main mainReads
  simp only [List.foldlM_map, ← addFile_eq]

end Mkfs

/-! ## Words and inodes of a sector -/

namespace Block

/-- A word is made of four bytes. -/
theorem word_congr {b c : Block} {i : Nat}
    (same : ∀ k, k < 4 → b.byte (4 * i + k) = c.byte (4 * i + k)) : b.word i = c.word i := by
  have first := same 0 (by decide)
  rw [Nat.add_zero] at first
  rw [word, word, first, same 1 (by decide), same 2 (by decide), same 3 (by decide)]

theorem word_setDin_self (b : Block) {k j : Nat} (d : Din) (slot : k < ipb) (inside : j < 16)
    (small : d.word j < 2 ^ 32) : (b.setDin k d).word (16 * k + j) = d.word j := by
  have index : 16 * k + j < nindirect := by
    simp only [ipb, nindirect] at *
    omega
  rw [← b.word_setWord_self index small]
  refine word_congr fun t few => ?_
  have offset : (Fin.ofNat bsize (4 * (16 * k + j) + t)).val = 4 * (16 * k + j) + t :=
    Nat.mod_eq_of_lt (by simp only [bsize, nindirect] at *; omega)
  have word : (4 * (16 * k + j) + t) / 4 % 16 = j := by omega
  unfold byte setDin setWord
  rw [offset, if_pos (by omega), if_pos (by omega), word]

theorem word_setDin_other (b : Block) {k i : Nat} (d : Din) (inside : i < nindirect)
    (apart : i / 16 ≠ k) : (b.setDin k d).word i = b.word i := by
  refine word_congr fun t few => ?_
  have offset : (Fin.ofNat bsize (4 * i + t)).val = 4 * i + t :=
    Nat.mod_eq_of_lt (by simp only [bsize, nindirect] at *; omega)
  unfold byte setDin
  rw [offset, if_neg (by omega)]

/-- What is read from a sector fits its type. -/
theorem din_fits (b : Block) (k : Nat) : (b.din k).Fits := by
  have first := b.word_lt (16 * k)
  have second := b.word_lt (16 * k + 1)
  refine ⟨?_, ?_, ?_, ?_, b.word_lt _, fun i => b.word_lt _⟩
  · exact Nat.mod_lt _ (by decide)
  · change _ / _ < _
    omega
  · exact Nat.mod_lt _ (by decide)
  · change _ / _ < _
    omega

theorem din_setDin_self (b : Block) {k : Nat} {d : Din} (slot : k < ipb) (fits : d.Fits) :
    (b.setDin k d).din k = d := by
  obtain ⟨type, major, minor, nlink, size, addrs⟩ := fits
  have first := b.word_setDin_self (j := 0) d slot (by decide) (by simp only [Din.word]; omega)
  have second := b.word_setDin_self (j := 1) d slot (by decide) (by simp only [Din.word]; omega)
  have third := b.word_setDin_self (j := 2) d slot (by decide) size
  rw [Nat.add_zero] at first
  unfold din
  rw [first, second, third]
  simp only [Din.word]
  obtain ⟨type', major', minor', nlink', size', addrs'⟩ := d
  simp only at *
  congr 1
  · omega
  · omega
  · omega
  · omega
  · funext i
    have last : i.val < 13 := i.isLt
    have here := b.word_setDin_self (j := 3 + i) ⟨type', major', minor', nlink', size', addrs'⟩
      slot (by omega) (by rw [Nat.add_comm]; exact addrs _)
    rw [Nat.add_assoc, here, Nat.add_comm]
    change addrs' (Fin.ofNat _ _) = _
    rw [Fin.ofNat_val_eq_self]

theorem din_setDin_other (b : Block) {k i : Nat} {d : Din} (slot : i < ipb) (apart : i ≠ k) :
    (b.setDin k d).din i = b.din i := by
  have word {j : Nat} (inside : j < 16) : (b.setDin k d).word (16 * i + j) = b.word (16 * i + j) := by
    refine b.word_setDin_other d ?_ (by omega)
    simp only [ipb, nindirect] at *
    omega
  have first := word (by decide : 0 < 16)
  rw [Nat.add_zero] at first
  unfold din
  rw [first, word (by decide), word (by decide)]
  congr 1
  funext t
  have last : t.val < 13 := t.isLt
  rw [Nat.add_assoc]
  exact word (by omega)

end Block

end SlabStudy.Xv6
