import SlabStudy.Library.Writes
import SlabStudy.Xv6.Machine

/-!
# Disk blocks

The numbers of `fs.h` and `param.h` that describe the disk, and blocks of
bytes.  The log header and the indirect blocks are arrays of 32-bit words in
the machine's byte order.
-/

namespace SlabStudy.Xv6

/-! ## fs.h and param.h -/

/-- Block size. -/
abbrev bsize : Nat := 512
/-- Words in a block. -/
abbrev nindirect : Nat := 128
/-- Blocks any file system operation may write. -/
abbrev maxopblocks : Nat := 10
/-- Entries of the log header. -/
abbrev logsize : Nat := maxopblocks * 3
/-- Size of the disk block cache. -/
abbrev nbuf : Nat := maxopblocks * 3

instance : NeZero bsize := ⟨by decide⟩
instance : NeZero nindirect := ⟨by decide⟩

/-- The bytes of one block. -/
abbrev Block := Fin bsize → UInt8

namespace Block

/-- `memset(bp->data, 0, BSIZE)`. -/
def zero : Block := fun _ => 0

/-- The byte at an offset. -/
def byte (b : Block) (offset : Nat) : Nat := (b (Fin.ofNat bsize offset)).toNat

/-- `((uint*)bp->data)[i]`. -/
def word (b : Block) (i : Nat) : Nat :=
  b.byte (4 * i) + 256 * b.byte (4 * i + 1) + 65536 * b.byte (4 * i + 2) +
    16777216 * b.byte (4 * i + 3)

/-- `((uint*)bp->data)[i] = value`. -/
def setWord (b : Block) (i value : Nat) : Block := fun offset =>
  if offset.val / 4 = i then UInt8.ofNat (value / 256 ^ (offset.val % 4)) else b offset

theorem byte_lt (b : Block) (offset : Nat) : b.byte offset < 256 := UInt8.toNat_lt _

theorem word_lt (b : Block) (i : Nat) : b.word i < 2 ^ 32 := by
  have b0 := b.byte_lt (4 * i)
  have b1 := b.byte_lt (4 * i + 1)
  have b2 := b.byte_lt (4 * i + 2)
  have b3 := b.byte_lt (4 * i + 3)
  unfold word
  omega

theorem byte_setWord_self (b : Block) {i k : Nat} (value : Nat) (inside : i < nindirect)
    (small : k < 4) : (b.setWord i value).byte (4 * i + k) = value / 256 ^ k % 256 := by
  have offset : (Fin.ofNat bsize (4 * i + k)).val = 4 * i + k :=
    Nat.mod_eq_of_lt (by simp only [bsize, nindirect] at *; omega)
  unfold byte setWord
  rw [offset, if_pos (by omega), Nat.mul_add_mod, Nat.mod_eq_of_lt small, UInt8.toNat_ofNat']

theorem byte_setWord_other (b : Block) {i j k : Nat} (value : Nat) (inside : i < nindirect)
    (small : k < 4) (apart : i ≠ j) : (b.setWord j value).byte (4 * i + k) = b.byte (4 * i + k) := by
  have offset : (Fin.ofNat bsize (4 * i + k)).val = 4 * i + k :=
    Nat.mod_eq_of_lt (by simp only [bsize, nindirect] at *; omega)
  unfold byte setWord
  rw [offset, if_neg (by omega)]

theorem word_setWord_self (b : Block) {i value : Nat} (inside : i < nindirect)
    (small : value < 2 ^ 32) : (b.setWord i value).word i = value := by
  have first := b.byte_setWord_self value inside (by decide : 0 < 4)
  have second := b.byte_setWord_self value inside (by decide : 1 < 4)
  have third := b.byte_setWord_self value inside (by decide : 2 < 4)
  have fourth := b.byte_setWord_self value inside (by decide : 3 < 4)
  unfold word
  rw [Nat.add_zero] at first
  rw [first, second, third, fourth]
  simp only [pow_zero, pow_one, Nat.div_one]
  omega

theorem word_setWord_other (b : Block) {i j : Nat} (value : Nat) (inside : i < nindirect)
    (apart : i ≠ j) : (b.setWord j value).word i = b.word i := by
  have first := b.byte_setWord_other value inside (by decide : 0 < 4) apart
  unfold word
  rw [Nat.add_zero] at first
  rw [first, b.byte_setWord_other value inside (by decide : 1 < 4) apart,
    b.byte_setWord_other value inside (by decide : 2 < 4) apart,
    b.byte_setWord_other value inside (by decide : 3 < 4) apart]

end Block

end SlabStudy.Xv6
