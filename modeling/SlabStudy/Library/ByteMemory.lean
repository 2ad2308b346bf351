import Mathlib

/-!
# Words in a memory of bytes

A memory gives a byte to each 32-bit address.  A word is four bytes, the low
byte first; its addresses go on at zero after the last one.
-/

namespace SlabStudy.Library

/-- A memory of bytes under 32-bit addresses. -/
abbrev ByteMemory := BitVec 32 → BitVec 8

/-- The addresses of `n` bytes from `a` on. -/
def bytesAt (a : BitVec 32) (n : Nat) : Set (BitVec 32) := {b | (b - a).toNat < n}

/-- The addresses of the bytes of the word at `a`. -/
abbrev wordSpan (a : BitVec 32) : Set (BitVec 32) := bytesAt a 4

/-- The addresses from `low` up to `high`, `high` left out. -/
def span (low high : Nat) : Set (BitVec 32) := {b | low ≤ b.toNat ∧ b.toNat < high}

namespace ByteMemory

def word (m : ByteMemory) (a : BitVec 32) : BitVec 32 :=
  m (a + 3) ++ m (a + 2) ++ m (a + 1) ++ m a

def setWord (m : ByteMemory) (a v : BitVec 32) : ByteMemory := fun b =>
  if (b - a).toNat < 4 then v.extractLsb' (8 * (b - a).toNat) 8 else m b

def setHalf (m : ByteMemory) (a : BitVec 32) (v : BitVec 16) : ByteMemory := fun b =>
  if (b - a).toNat < 2 then v.extractLsb' (8 * (b - a).toNat) 8 else m b

/-- `n` bytes from `src` on are copied to `dst`, all of them read before the first is written. -/
def copy (m : ByteMemory) (dst src : BitVec 32) (n : Nat) : ByteMemory := fun b =>
  if (b - dst).toNat < n then m (src + (b - dst)) else m b

def clear (m : ByteMemory) (a : BitVec 32) (n : Nat) : ByteMemory := fun b =>
  if (b - a).toNat < n then 0 else m b

end ByteMemory

open ByteMemory

variable {m m' : ByteMemory} {a b v : BitVec 32} {low high n : Nat}

@[simp] theorem mem_bytesAt : b ∈ bytesAt a n ↔ (b - a).toNat < n := Iff.rfl

@[simp] theorem mem_span : b ∈ span low high ↔ low ≤ b.toNat ∧ b.toNat < high := Iff.rfl

theorem bytesAt_subset_span (first : low ≤ a.toNat) (last : a.toNat + n ≤ high)
    (fits : high ≤ 2 ^ 32) : bytesAt a n ⊆ span low high := by
  intro b inside
  rw [mem_bytesAt] at inside
  rw [mem_span]
  constructor <;> bv_omega

/-- A word inside of a row of bytes. -/
theorem wordSpan_subset_bytesAt {k : BitVec 32} (last : k.toNat + 4 ≤ n) (fits : n ≤ 2 ^ 32) :
    wordSpan (a + k) ⊆ bytesAt a n := by
  intro b inside
  rw [mem_bytesAt] at inside ⊢
  bv_omega

theorem span_subset_span {low' high' : Nat} (first : low' ≤ low) (last : high ≤ high') :
    span low high ⊆ span low' high' :=
  fun _ inside => ⟨first.trans inside.1, inside.2.trans_le last⟩

theorem bytesAt_disjoint_span (outer : a.toNat + n ≤ low ∨ high ≤ a.toNat)
    (fits : a.toNat + n ≤ 2 ^ 32) : Disjoint (bytesAt a n) (span low high) := by
  rw [Set.disjoint_left]
  intro b inside between
  rw [mem_bytesAt] at inside
  rw [mem_span] at between
  rcases outer with below | above <;> bv_omega

/-- A word is read from its own bytes only. -/
theorem word_congr (same : Set.EqOn m m' (wordSpan a)) : m.word a = m'.word a := by
  unfold word
  have at0 : m a = m' a := same (by simp)
  have at1 : m (a + 1) = m' (a + 1) := same (by rw [mem_bytesAt]; bv_omega)
  have at2 : m (a + 2) = m' (a + 2) := same (by rw [mem_bytesAt]; bv_omega)
  have at3 : m (a + 3) = m' (a + 3) := same (by rw [mem_bytesAt]; bv_omega)
  rw [at0, at1, at2, at3]

theorem setWord_inside (inside : b ∈ wordSpan a) :
    m.setWord a v b = v.extractLsb' (8 * (b - a).toNat) 8 := if_pos inside

theorem setWord_outside (outside : b ∉ wordSpan a) : m.setWord a v b = m b := if_neg outside

/-- Four bytes put together are the word they were cut from. -/
theorem append_extract (v : BitVec 32) :
    v.extractLsb' 24 8 ++ v.extractLsb' 16 8 ++ v.extractLsb' 8 8 ++ v.extractLsb' 0 8 = v := by
  apply BitVec.eq_of_getLsbD_eq
  intro i bound
  simp only [BitVec.getLsbD_append, BitVec.getLsbD_extractLsb']
  grind

theorem setWord_add (m : ByteMemory) (a v k : BitVec 32) (small : k.toNat < 4) :
    m.setWord a v (a + k) = v.extractLsb' (8 * k.toNat) 8 := by
  have distance : a + k - a = k := by bv_omega
  have inside : a + k ∈ wordSpan a := by
    rw [mem_bytesAt, distance]
    exact small
  rw [setWord_inside inside, distance]

@[simp] theorem word_setWord (m : ByteMemory) (a v : BitVec 32) : (m.setWord a v).word a = v := by
  have at0 : m.setWord a v a = v.extractLsb' 0 8 := by
    simpa using setWord_add m a v 0 (by decide)
  unfold word
  rw [at0, setWord_add m a v 1 (by decide), setWord_add m a v 2 (by decide),
    setWord_add m a v 3 (by decide)]
  exact append_extract v

/-- Writing a word leaves every word apart from it alone. -/
theorem word_setWord_of_disjoint (apart : Disjoint (wordSpan a) (wordSpan b)) :
    (m.setWord a v).word b = m.word b :=
  word_congr fun _ inside => setWord_outside (Set.disjoint_right.mp apart inside)

/-- Two words at a distance of at least four bytes share none. -/
theorem wordSpan_disjoint (after : 4 ≤ (b - a).toNat) (before : 4 ≤ (a - b).toNat) :
    Disjoint (wordSpan a) (wordSpan b) := by
  rw [Set.disjoint_left]
  intro c first second
  rw [mem_bytesAt] at first second
  bv_omega

/-- Two memories that get the same word agree on its bytes as well. -/
theorem setWord_congr {F : Set (BitVec 32)} (same : Set.EqOn m m' F) :
    Set.EqOn (m.setWord a v) (m'.setWord a v) (F ∪ wordSpan a) := by
  intro b inside
  by_cases written : b ∈ wordSpan a
  · rw [setWord_inside written, setWord_inside written]
  · rw [setWord_outside written, setWord_outside written]
    exact same (inside.resolve_right written)

/-- The low half of a word whose low half has been written. -/
theorem half_word_setHalf (m : ByteMemory) (a : BitVec 32) (v : BitVec 16) :
    ((m.setHalf a v).word a).setWidth 16 = v := by
  have at0 : m.setHalf a v a = v.extractLsb' 0 8 := by simp [setHalf]
  have at1 : m.setHalf a v (a + 1) = v.extractLsb' 8 8 := by
    have distance : a + 1 - a = 1 := by bv_omega
    unfold setHalf
    rw [distance]
    rfl
  unfold word
  rw [at0, at1]
  apply BitVec.eq_of_getLsbD_eq
  intro i bound
  simp only [BitVec.getLsbD_setWidth, BitVec.getLsbD_append, BitVec.getLsbD_extractLsb']
  grind

theorem setHalf_outside {h : BitVec 16} (outside : b ∉ bytesAt a 2) : m.setHalf a h b = m b :=
  if_neg outside

theorem word_setHalf_of_disjoint {h : BitVec 16} (apart : Disjoint (wordSpan a) (wordSpan b)) :
    (m.setHalf a h).word b = m.word b := by
  refine word_congr fun c inside => setHalf_outside fun written => ?_
  refine Set.disjoint_left.mp apart ?_ inside
  rw [mem_bytesAt] at written ⊢
  omega

/-! ## Copies -/

theorem copy_outside {dst src : BitVec 32} (outside : b ∉ bytesAt dst n) :
    m.copy dst src n b = m b := if_neg outside

theorem word_copy {dst src k : BitVec 32} (last : k.toNat + 4 ≤ n) (fits : n ≤ 2 ^ 32) :
    (m.copy dst src n).word (dst + k) = m.word (src + k) := by
  have byte (j : BitVec 32) (small : j.toNat < 4) :
      m.copy dst src n (dst + k + j) = m (src + k + j) := by
    have inside : dst + k + j ∈ bytesAt dst n := by
      rw [mem_bytesAt]
      bv_omega
    have distance : src + (dst + k + j - dst) = src + k + j := by bv_omega
    exact (if_pos inside).trans (congrArg m distance)
  have at0 : m.copy dst src n (dst + k) = m (src + k) := by simpa using byte 0 (by decide)
  unfold word
  rw [at0, byte 1 (by decide), byte 2 (by decide), byte 3 (by decide)]

theorem clear_outside (outside : b ∉ bytesAt a n) : m.clear a n b = m b := if_neg outside

theorem word_clear {k : BitVec 32} (last : k.toNat + 4 ≤ n) (fits : n ≤ 2 ^ 32) :
    (m.clear a n).word (a + k) = 0 := by
  have byte (j : BitVec 32) (small : j.toNat < 4) : m.clear a n (a + k + j) = 0 := by
    refine if_pos ?_
    bv_omega
  have at0 : m.clear a n (a + k) = 0 := by simpa using byte 0 (by decide)
  unfold word
  rw [at0, byte 1 (by decide), byte 2 (by decide), byte 3 (by decide)]
  rfl

theorem word_clear_of_disjoint (apart : Disjoint (bytesAt a n) (wordSpan b)) :
    (m.clear a n).word b = m.word b :=
  word_congr fun _ inside => clear_outside (Set.disjoint_right.mp apart inside)

/-- A row of bytes and a word before or after it. -/
theorem bytesAt_disjoint_wordSpan (after : n ≤ (b - a).toNat) (before : 4 ≤ (a - b).toNat) :
    Disjoint (bytesAt a n) (wordSpan b) := by
  rw [Set.disjoint_left]
  intro c first second
  rw [mem_bytesAt] at first second
  bv_omega

end SlabStudy.Library
