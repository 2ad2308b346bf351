import SlabStudy.Library.SlotTable
import SlabStudy.Xv6.Directory

/-!
# Directory records

The string functions of `string.c` that directories use, and the bytes of a
`struct dirent`.  A string is a pointer into memory, so it is a function from
offsets to bytes.  A name in a record has no terminator if it fills its field.
The bytes of a directory are a table of slots, with the names as keys.
-/

namespace SlabStudy.Xv6

open Library

/-- The memory from a `char*` on. -/
abbrev CString : Type := Nat → UInt8

namespace CString

/-- `p + 1` -/
def next (p : CString) : CString := fun i => p (i + 1)

end CString

/-! ## string.c -/

def strncmp (p q : CString) : Nat → Int
  | 0 => 0
  | n + 1 =>
      if p 0 ≠ 0 ∧ p 0 = q 0 then strncmp p.next q.next n
      else (p 0).toNat - (q 0).toNat

/-- The `n` bytes that `strncpy` writes. -/
def strncpy (t : CString) : Nat → List UInt8
  | 0 => []
  | n + 1 => if t 0 = 0 then 0 :: List.replicate n 0 else t 0 :: strncpy t.next n

/-- The bytes in front of the terminating zero, at most `n`. -/
def CString.cut (p : CString) : Nat → List UInt8
  | 0 => []
  | n + 1 => if p 0 = 0 then [] else p 0 :: p.next.cut n

/-- `strncmp` compares what is in front of the terminators. -/
theorem strncmp_eq_zero {p q : CString} {n : Nat} : strncmp p q n = 0 ↔ p.cut n = q.cut n := by
  induction n generalizing p q with
  | zero => exact iff_of_true rfl rfl
  | succ n ih =>
      rw [strncmp, CString.cut, CString.cut]
      by_cases last : p 0 = 0
      · rw [if_neg fun both => both.1 last, if_pos last, last]
        by_cases also : q 0 = 0
        · rw [also]
          exact iff_of_true rfl rfl
        · rw [if_neg also]
          refine iff_of_false (fun same => also ?_) (List.cons_ne_nil _ _).symm
          refine UInt8.toNat_inj.mp ?_
          have zero : (0 : UInt8).toNat = 0 := rfl
          omega
      · by_cases same : p 0 = q 0
        · have more : q 0 ≠ 0 := same ▸ last
          rw [if_pos ⟨last, same⟩, if_neg last, if_neg more, ih, same, List.cons.injEq]
          exact (and_iff_right rfl).symm
        · rw [if_neg fun both => same both.2, if_neg last]
          refine iff_of_false (fun equal => same (UInt8.toNat_inj.mp (by omega))) fun equal => ?_
          by_cases also : q 0 = 0
          · rw [if_pos also] at equal
            cases equal
          · rw [if_neg also] at equal
            exact same (List.cons.inj equal).1

theorem length_strncpy (t : CString) (n : Nat) : (strncpy t n).length = n := by
  induction n generalizing t with
  | zero => rfl
  | succ n ih =>
      rw [strncpy]
      split
      · rw [List.length_cons, List.length_replicate]
      · rw [List.length_cons, ih]

/-- The memory that starts with these bytes. -/
def CString.ofList (bytes : List UInt8) : CString := fun i => (bytes[i]?).getD 0

theorem CString.ofList_next (b : UInt8) (bytes : List UInt8) :
    (CString.ofList (b :: bytes)).next = CString.ofList bytes := rfl

/-- What `strncpy` has written reads like the string. -/
theorem cut_strncpy (t : CString) (n : Nat) : (CString.ofList (strncpy t n)).cut n = t.cut n := by
  induction n generalizing t with
  | zero => rfl
  | succ n ih =>
      rw [strncpy, CString.cut, CString.cut]
      by_cases last : t 0 = 0
      · rw [if_pos last, if_pos last]
        exact if_pos rfl
      · rw [if_neg last, if_neg last, CString.ofList_next, ih]
        exact if_neg last

/-! ## struct dirent -/

/-- `sizeof(struct dirent)` -/
abbrev direntSize : Nat := 16

/-- `de.inum` -/
def direntInum (de : List UInt8) : Nat := ((de[0]?).getD 0).toNat + 256 * ((de[1]?).getD 0).toNat

/-- `de.name` -/
def direntName (de : List UInt8) : CString := CString.ofList (de.drop 2)

/-- The record that `dirlink` fills. -/
def direntOf (name : CString) (inum : Nat) : List UInt8 :=
  UInt8.ofNat inum :: UInt8.ofNat (inum / 256) :: strncpy name dirsiz

theorem length_direntOf (name : CString) (inum : Nat) : (direntOf name inum).length = direntSize := by
  rw [direntOf, List.length_cons, List.length_cons, length_strncpy]

/-- An i-number is stored in a `ushort`. -/
theorem direntInum_of (name : CString) {inum : Nat} (small : inum < 65536) :
    direntInum (direntOf name inum) = inum := by
  change (UInt8.ofNat inum).toNat + 256 * (UInt8.ofNat (inum / 256)).toNat = inum
  rw [UInt8.toNat_ofNat', UInt8.toNat_ofNat']
  omega

theorem direntName_of (name : CString) (inum : Nat) :
    (direntName (direntOf name inum)).cut dirsiz = name.cut dirsiz := cut_strncpy name dirsiz

/-- Record `i` of a directory. -/
def record (c : List UInt8) (i : Nat) : List UInt8 := (c.drop (direntSize * i)).take direntSize

/-- The live records, by the names as `namecmp` compares them. -/
def direntSlots (c : List UInt8) : SlotTable (List UInt8) Nat where
  slot i := if direntInum (record c i) = 0 then none
    else some ((direntName (record c i)).cut dirsiz, direntInum (record c i))
  size := c.length / direntSize

/-- The bytes of a directory with record `i` written. -/
def setRecord (c : List UInt8) (i : Nat) (de : List UInt8) : List UInt8 :=
  c.take (direntSize * i) ++ de ++ c.drop (direntSize * i + de.length)

section Write

variable {c de : List UInt8} {i j : Nat}

theorem record_setRecord_self (inside : direntSize * i ≤ c.length) (size : de.length = direntSize) :
    record (setRecord c i de) i = de := by
  have front : (c.take (direntSize * i)).length = direntSize * i := by
    rw [List.length_take]
    omega
  rw [record, setRecord, List.append_assoc, List.drop_append_of_le_length front.ge,
    List.drop_of_length_le front.le, List.nil_append, List.take_append_of_le_length size.ge,
    List.take_of_length_le size.le]

theorem record_setRecord_other (inside : direntSize * i ≤ c.length) (size : de.length = direntSize)
    (other : j ≠ i) : record (setRecord c i de) j = record c j := by
  have front : (c.take (direntSize * i)).length = direntSize * i := by
    rw [List.length_take]
    omega
  simp only [direntSize] at *
  unfold record setRecord
  simp only [direntSize]
  by_cases before : j < i
  · rw [List.append_assoc, List.drop_append_of_le_length (by omega),
      List.take_append_of_le_length (by rw [List.length_drop]; omega), List.drop_take, List.take_take]
    congr 1
    omega
  · have both : (c.take (16 * i) ++ de).length = 16 * i + 16 := by
      rw [List.length_append]
      omega
    obtain ⟨n, rfl⟩ := Nat.exists_eq_add_of_lt (show i < j by omega)
    have split : 16 * (i + n + 1) = (c.take (16 * i) ++ de).length + 16 * n := by omega
    rw [split, List.drop_length_add_append, List.drop_drop]
    congr 2
    omega

theorem length_setRecord (inside : direntSize * i ≤ c.length) (size : de.length = direntSize) :
    (setRecord c i de).length = max c.length (direntSize * i + direntSize) := by
  simp only [setRecord, List.length_append, List.length_take, List.length_drop]
  omega

/-- Writing a record for a name puts an entry into the table. -/
theorem direntSlots_put (name : CString) {inum : Nat} (some : inum ≠ 0) (small : inum < 65536)
    (inside : direntSize * i ≤ c.length) (whole : c.length % direntSize = 0) :
    direntSlots (setRecord c i (direntOf name inum)) =
      (direntSlots c).put i (name.cut dirsiz) inum := by
  have size := length_direntOf name inum
  unfold direntSlots SlotTable.put
  congr 1
  · funext j
    by_cases self : j = i
    · subst self
      rw [Function.update_self, record_setRecord_self inside size, direntInum_of name small,
        if_neg some, direntName_of]
    · rw [Function.update_of_ne self, record_setRecord_other inside size self]
  · rw [length_setRecord inside size]
    simp only [direntSize] at *
    omega

/-- Writing zeros empties the slot. -/
theorem direntSlots_clear (inside : i < (direntSlots c).size) :
    direntSlots (setRecord c i (List.replicate direntSize 0)) = (direntSlots c).clear i := by
  have size : (List.replicate direntSize (0 : UInt8)).length = direntSize := List.length_replicate
  change i < c.length / direntSize at inside
  have within : direntSize * i + direntSize ≤ c.length := by
    simp only [direntSize] at *
    omega
  unfold direntSlots SlotTable.clear
  congr 1
  · funext j
    by_cases self : j = i
    · subst self
      rw [Function.update_self, record_setRecord_self (by omega) size]
      exact if_pos rfl
    · rw [Function.update_of_ne self, record_setRecord_other (by omega) size self]
  · rw [length_setRecord (by omega) size]
    congr 1
    omega

end Write

end SlabStudy.Xv6
