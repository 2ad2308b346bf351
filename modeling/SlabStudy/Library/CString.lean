import Mathlib.Data.List.TakeWhile

/-!
# Strings in memory

The string at a pointer is what stands before the first NUL.
-/

namespace SlabStudy.Library

variable {first second bytes : List UInt8}

/-- The string at a pointer to these bytes. -/
def cstring (bytes : List UInt8) : List UInt8 := bytes.takeWhile (· ≠ 0)

theorem nul_notMem_cstring : 0 ∉ cstring bytes := by
  intro member
  have other := List.mem_takeWhile_imp (p := fun byte => decide (byte ≠ 0)) member
  exact of_decide_eq_true other rfl

theorem cstring_append (clean : 0 ∉ first) :
    cstring (first ++ second) = first ++ cstring second := by
  refine List.takeWhile_append_of_pos fun byte member => decide_eq_true ?_
  rintro rfl
  exact clean member

theorem cstring_of_clean (clean : 0 ∉ bytes) : cstring bytes = bytes := by
  refine List.takeWhile_eq_self_iff.mpr fun byte member => decide_eq_true ?_
  rintro rfl
  exact clean member

/-- The bytes behind a NUL do not matter. -/
theorem cstring_nul (clean : 0 ∉ first) : cstring (first ++ 0 :: second) = first := by
  rw [cstring_append clean, cstring, List.takeWhile_cons_of_neg (by decide), List.append_nil]

theorem length_cstring_le (bytes : List UInt8) : (cstring bytes).length ≤ bytes.length :=
  (List.takeWhile_sublist _).length_le

/-- A string that is terminated. -/
theorem exists_cstring (ended : 0 ∈ bytes) : ∃ rest, bytes = cstring bytes ++ 0 :: rest := by
  induction bytes with
  | nil => cases ended
  | cons byte bytes ih =>
      by_cases nul : byte = 0
      · subst nul
        exact ⟨bytes, rfl⟩
      · obtain ⟨rest, same⟩ := ih ((List.mem_cons.mp ended).resolve_left (Ne.symm nul))
        refine ⟨rest, ?_⟩
        rw [cstring, List.takeWhile_cons_of_pos (by simpa using nul), List.cons_append]
        exact congrArg (byte :: ·) same

/-- What stands behind a string that is terminated does not matter. -/
theorem cstring_append_of_mem (ended : 0 ∈ first) : cstring (first ++ second) = cstring first := by
  obtain ⟨rest, same⟩ := exists_cstring ended
  have whole : first ++ second = cstring first ++ 0 :: (rest ++ second) := by
    rw [← List.cons_append, ← List.append_assoc, ← same]
  rw [whole, cstring_nul nul_notMem_cstring]

theorem length_cstring_lt (ended : 0 ∈ bytes) : (cstring bytes).length < bytes.length := by
  obtain ⟨rest, same⟩ := exists_cstring ended
  have size := congrArg List.length same
  rw [List.length_append, List.length_cons] at size
  omega

/-- A string of C: its characters, none of which is NUL. -/
abbrev CString := { bytes : List UInt8 // 0 ∉ bytes }

instance : LawfulBEq CString := inferInstance

/-- The string that is read where these bytes stand. -/
def CString.read (bytes : List UInt8) : CString := ⟨cstring bytes, nul_notMem_cstring⟩

/-- What stands behind a string that is not terminated is read with it. -/
theorem CString.read_append (string : CString) (behind : List UInt8) :
    (CString.read (string.1 ++ behind)).1 = string.1 ++ cstring behind :=
  cstring_append string.2

theorem CString.read_nul (string : CString) (behind : List UInt8) :
    CString.read (string.1 ++ 0 :: behind) = string :=
  Subtype.ext (cstring_nul string.2)

end SlabStudy.Library
