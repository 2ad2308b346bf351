import Mathlib.Logic.Function.Basic
import Mathlib.Tactic.Common

/-!
# memmove

`memmove` of `string.c` copies backwards where the destination overlaps the end
of the source; `memmove` of `ulib.c` always copies forwards.
-/

namespace SlabStudy.Xv6

abbrev Addr := BitVec 32

abbrev Bytes := Addr → UInt8

/-- `while(n-- > 0) *d++ = *s++`. -/
def copyUp (m : Bytes) (d s : Addr) : Nat → Bytes
  | 0 => m
  | n + 1 => copyUp (Function.update m d (m s)) (d + 1) (s + 1) n

/-- `while(n-- > 0) *--d = *--s`. -/
def copyDown (m : Bytes) (d s : Addr) : Nat → Bytes
  | 0 => m
  | n + 1 => copyDown (Function.update m (d - 1) (m (s - 1))) (d - 1) (s - 1) n

/-- `memmove` of the kernel. -/
def memmove (m : Bytes) (dst src : Addr) (n : BitVec 32) : Bytes :=
  if src < dst ∧ dst < src + n then copyDown m (dst + n) (src + n) n.toNat
  else copyUp m dst src n.toNat

/-- `memmove` of the user library, where `n` is an `int`. -/
def User.memmove (m : Bytes) (vdst vsrc : Addr) (n : BitVec 32) : Bytes :=
  copyUp m vdst vsrc n.toInt.toNat

/-- The destination has the bytes of the source, and nothing else has changed. -/
def Moved (m : Bytes) (dst src : Addr) (n : Nat) (m' : Bytes) : Prop :=
  (∀ i < n, m' (dst + BitVec.ofNat 32 i) = m (src + BitVec.ofNat 32 i)) ∧
    ∀ a, (∀ i < n, a ≠ dst + BitVec.ofNat 32 i) → m' a = m a

/-- Where the destination begins behind the source, the source repeats itself at that distance. -/
def Repeats (m : Bytes) (dst src : Addr) (n : Nat) : Prop :=
  src < dst → ∀ i, dst.toNat - src.toNat + i < n →
    m (dst + BitVec.ofNat 32 i) = m (src + BitVec.ofNat 32 i)

/-! ## Addresses -/

variable {m m' m'' : Bytes} {d s a p q : Addr} {n i j : Nat}

theorem place_zero (p : Addr) : p + BitVec.ofNat 32 0 = p := BitVec.add_zero p

theorem place_succ (p : Addr) (i : Nat) :
    p + 1 + BitVec.ofNat 32 i = p + BitVec.ofNat 32 (i + 1) := by
  rw [Nat.add_comm, BitVec.ofNat_add, BitVec.add_assoc]
  rfl

theorem place_toNat (fits : p.toNat + i < 4294967296) :
    (p + BitVec.ofNat 32 i).toNat = p.toNat + i := by
  rw [BitVec.toNat_add, BitVec.toNat_ofNat]
  omega

theorem next_toNat (fits : p.toNat + 1 < 4294967296) : (p + 1).toNat = p.toNat + 1 :=
  place_toNat fits

theorem place_eq (fits : p.toNat + i < 4294967296) :
    p + BitVec.ofNat 32 i = a ↔ p.toNat + i = a.toNat := by
  rw [← BitVec.toNat_inj, place_toNat fits]

theorem place_eq_iff (fits : p.toNat + i < 4294967296) (fits' : q.toNat + j < 4294967296) :
    p + BitVec.ofNat 32 i = q + BitVec.ofNat 32 j ↔ p.toNat + i = q.toNat + j := by
  rw [← BitVec.toNat_inj, place_toNat fits, place_toNat fits']

/-! ## The loops -/

/-- Where the byte comes from that the forward loop puts at the `i`-th place. -/
def sourceOf (d s : Addr) (i : Nat) : Nat := if s < d then i % (d.toNat - s.toNat) else i

theorem copyUp_outside (out : ∀ i < n, a ≠ d + BitVec.ofNat 32 i) : copyUp m d s n a = m a := by
  induction n generalizing m d s with
  | zero => rfl
  | succ n ih =>
      have first : a ≠ d := place_zero d ▸ out 0 (Nat.succ_pos n)
      rw [copyUp, ih, Function.update_of_ne first]
      intro i inside
      rw [place_succ]
      exact out (i + 1) (Nat.succ_lt_succ inside)

theorem sourceOf_zero (d s : Addr) : sourceOf d s 0 = 0 := by
  unfold sourceOf
  rw [Nat.zero_mod, ite_self]

/-- Both pointers move on. -/
theorem sourceOf_succ (d_fits : d.toNat + 1 < 4294967296) (s_fits : s.toNat + 1 < 4294967296)
    (i : Nat) : sourceOf (d + 1) (s + 1) i = sourceOf d s i := by
  have d_next := next_toNat d_fits
  have s_next := next_toNat s_fits
  have order : s + 1 < d + 1 ↔ s < d := by
    rw [BitVec.lt_def, BitVec.lt_def, d_next, s_next, Nat.add_lt_add_iff_right]
  unfold sourceOf
  rw [d_next, s_next, Nat.add_sub_add_right]
  exact if_congr order rfl rfl

/-- The next byte is read where the loop has put the first one, or behind the byte before. -/
theorem update_source (d_fits : d.toNat < 4294967296) (s_fits : s.toNat + (i + 1) < 4294967296)
    (m : Bytes) : Function.update m d (m s) (s + BitVec.ofNat 32 (sourceOf d s i + 1)) =
      m (s + BitVec.ofNat 32 (sourceOf d s (i + 1))) := by
  unfold sourceOf
  by_cases behind : s < d
  · have distance : s.toNat < d.toNat := behind
    rw [if_pos behind, if_pos behind]
    have small : i % (d.toNat - s.toNat) < d.toNat - s.toNat := Nat.mod_lt _ (by omega)
    have next := Nat.mod_add_mod i (d.toNat - s.toNat) 1
    by_cases round : i % (d.toNat - s.toNat) + 1 = d.toNat - s.toNat
    · have here : s + BitVec.ofNat 32 (d.toNat - s.toNat) = d := by
        rw [place_eq (by omega)]
        omega
      rw [round, Nat.mod_self] at next
      rw [round, here, Function.update_self, ← next, place_zero]
    · rw [Nat.mod_eq_of_lt (by omega)] at next
      rw [← next, Function.update_of_ne]
      intro same
      rw [place_eq (by omega)] at same
      omega
  · have order : d.toNat ≤ s.toNat := Nat.not_lt.mp behind
    rw [if_neg behind, if_neg behind, Function.update_of_ne]
    intro same
    rw [place_eq s_fits] at same
    omega

theorem copyUp_inside (d_fits : d.toNat + n ≤ 4294967296) (s_fits : s.toNat + n ≤ 4294967296)
    (inside : i < n) : copyUp m d s n (d + BitVec.ofNat 32 i) =
      m (s + BitVec.ofNat 32 (sourceOf d s i)) := by
  induction n generalizing m d s i with
  | zero => cases inside
  | succ n ih =>
      rw [copyUp]
      cases i with
      | zero =>
          rw [sourceOf_zero, place_zero, place_zero, copyUp_outside, Function.update_self]
          intro j early same
          rw [place_succ, eq_comm, place_eq (by omega)] at same
          omega
      | succ i =>
          have d_next := @next_toNat d (by omega)
          have s_next := @next_toNat s (by omega)
          rw [← place_succ, ih (by omega) (by omega) (Nat.lt_of_succ_lt_succ inside), place_succ,
            sourceOf_succ (by omega) (by omega)]
          exact update_source d.isLt (by omega) m

theorem place_pred (p : Addr) (i : Nat) :
    p + BitVec.ofNat 32 (i + 1) - 1 = p + BitVec.ofNat 32 i := by
  rw [BitVec.ofNat_add, ← BitVec.add_assoc]
  exact BitVec.add_sub_cancel ..

theorem copyDown_outside (out : ∀ i < n, a ≠ d + BitVec.ofNat 32 i) :
    copyDown m (d + BitVec.ofNat 32 n) (s + BitVec.ofNat 32 n) n a = m a := by
  induction n generalizing m with
  | zero => rfl
  | succ n ih =>
      rw [copyDown, place_pred, place_pred, ih fun i inside => out i (Nat.lt_succ_of_lt inside),
        Function.update_of_ne (out n (Nat.lt_succ_self n))]

/-- The backward loop reads nothing that it has written, if the destination is behind the source. -/
theorem copyDown_inside (behind : s < d) (d_fits : d.toNat + n ≤ 4294967296) (inside : i < n) :
    copyDown m (d + BitVec.ofNat 32 n) (s + BitVec.ofNat 32 n) n (d + BitVec.ofNat 32 i) =
      m (s + BitVec.ofNat 32 i) := by
  have order : s.toNat < d.toNat := behind
  induction n generalizing m with
  | zero => cases inside
  | succ n ih =>
      rw [copyDown, place_pred, place_pred]
      obtain rfl | before := Nat.eq_or_lt_of_le (Nat.lt_succ_iff.mp inside)
      · rw [copyDown_outside, Function.update_self]
        intro j early same
        rw [place_eq_iff (by omega) (by omega)] at same
        omega
      · rw [ih (by omega) before, Function.update_of_ne]
        intro same
        rw [place_eq_iff (by omega) (by omega)] at same
        omega

/-! ## Both of them -/

/-- There is one memory in which the bytes are moved. -/
theorem Moved.unique {dst src : Addr} (moved : Moved m dst src n m')
    (moved' : Moved m dst src n m'') : m' = m'' := by
  funext a
  by_cases inside : ∃ i < n, a = dst + BitVec.ofNat 32 i
  · obtain ⟨i, inside, rfl⟩ := inside
    exact (moved.1 i inside).trans (moved'.1 i inside).symm
  · have out : ∀ i < n, a ≠ dst + BitVec.ofNat 32 i := fun i small same => inside ⟨i, small, same⟩
    exact (moved.2 a out).trans (moved'.2 a out).symm

theorem Repeats.sourceOf (repeats : Repeats m d s n) (s_fits : s.toNat + n ≤ 4294967296)
    (inside : i < n) : m (s + BitVec.ofNat 32 (sourceOf d s i)) = m (s + BitVec.ofNat 32 i) := by
  unfold Xv6.sourceOf
  by_cases behind : s < d
  · have order : s.toNat < d.toNat := behind
    rw [if_pos behind]
    induction i using Nat.strongRecOn with
    | ind i ih =>
        obtain early | late := Nat.lt_or_ge i (d.toNat - s.toNat)
        · rw [Nat.mod_eq_of_lt early]
        · have again := repeats behind (i - (d.toNat - s.toNat)) (by omega)
          have same : d + BitVec.ofNat 32 (i - (d.toNat - s.toNat)) = s + BitVec.ofNat 32 i := by
            rw [place_eq_iff (by omega) (by omega)]
            omega
          rw [same] at again
          rw [again, Nat.mod_eq_sub_mod late]
          exact ih _ (by omega) (by omega)
  · rw [if_neg behind]

/-- Forward copying moves the bytes exactly where those it reads late are those it has read early. -/
theorem copyUp_moved_iff (d_fits : d.toNat + n ≤ 4294967296) (s_fits : s.toNat + n ≤ 4294967296) :
    Moved m d s n (copyUp m d s n) ↔ Repeats m d s n := by
  constructor
  · intro moved behind i inside
    have order : s.toNat < d.toNat := behind
    have period : sourceOf d s (d.toNat - s.toNat + i) = sourceOf d s i := by
      unfold sourceOf
      rw [if_pos behind, if_pos behind, Nat.add_mod_left]
    have late := moved.1 _ inside
    have early := moved.1 i (by omega)
    rw [copyUp_inside d_fits s_fits inside, period] at late
    rw [copyUp_inside d_fits s_fits (by omega)] at early
    have same : d + BitVec.ofNat 32 i = s + BitVec.ofNat 32 (d.toNat - s.toNat + i) := by
      rw [place_eq_iff (by omega) (by omega)]
      omega
    rw [same, ← late, early]
  · intro repeats
    refine ⟨fun i inside => ?_, fun a out => copyUp_outside out⟩
    rw [copyUp_inside d_fits s_fits inside, repeats.sourceOf s_fits inside]

theorem memmove_moved (m : Bytes) (dst src : Addr) (n : BitVec 32)
    (dst_fits : dst.toNat + n.toNat ≤ 4294967296) (src_fits : src.toNat + n.toNat ≤ 4294967296) :
    Moved m dst src n.toNat (memmove m dst src n) := by
  have length : BitVec.ofNat 32 n.toNat = n := BitVec.ofNat_toNat .. |>.trans (BitVec.setWidth_eq n)
  unfold memmove
  split
  · next overlap =>
    rw [← length, BitVec.toNat_ofNat, Nat.mod_eq_of_lt n.isLt]
    exact ⟨fun i inside => copyDown_inside overlap.1 dst_fits inside,
      fun a outside => copyDown_outside outside⟩
  · next apart =>
    refine (copyUp_moved_iff dst_fits src_fits).mpr fun behind i inside => ?_
    refine absurd ⟨behind, ?_⟩ apart
    have order : src.toNat < dst.toNat := behind
    rw [← length, BitVec.lt_def, place_toNat (by omega)]
    omega

/-- The kernel's `memmove` moves the bytes and that of the user library does the same, exactly where
the source repeats itself as far as the destination overlaps its end. -/
theorem memmove_agree_iff (m : Bytes) (dst src : Addr) (n : BitVec 32) (positive : 0 ≤ n.toInt)
    (dst_fits : dst.toNat + n.toNat ≤ 4294967296) (src_fits : src.toNat + n.toNat ≤ 4294967296) :
    Moved m dst src n.toNat (memmove m dst src n) ∧
      User.memmove m dst src n = memmove m dst src n ↔ Repeats m dst src n.toNat := by
  have moved := memmove_moved m dst src n dst_fits src_fits
  have length : n.toInt.toNat = n.toNat := by
    rw [BitVec.toInt_eq_toNat_cond] at positive ⊢
    split at positive <;> omega
  rw [and_iff_right moved, User.memmove, length, ← copyUp_moved_iff dst_fits src_fits]
  constructor
  · intro same
    rw [same]
    exact moved
  · exact fun moved' => moved'.unique moved

/-- Two bytes are moved by one place. -/
theorem memmove_agree_iff_two :
    Moved (fun a => a.toNat.toUInt8) 1 0 2 (memmove (fun a => a.toNat.toUInt8) 1 0 2#32) ∧
      User.memmove (fun a => a.toNat.toUInt8) 1 0 2#32 =
        memmove (fun a => a.toNat.toUInt8) 1 0 2#32 ↔
      Repeats (fun a => a.toNat.toUInt8) 1 0 2 :=
  memmove_agree_iff (fun a => a.toNat.toUInt8) 1 0 2#32 (by decide) (by decide) (by decide)

/-- The second byte is lost in the user library. -/
theorem user_memmove_overlap :
    memmove (fun a => a.toNat.toUInt8) 1 0 2#32 2 = 1 ∧
    User.memmove (fun a => a.toNat.toUInt8) 1 0 2#32 2 = 0 ∧
    User.memmove (fun a => a.toNat.toUInt8) 1 0 2#32 ≠
      memmove (fun a => a.toNat.toUInt8) 1 0 2#32 := by
  have kernel : memmove (fun a => a.toNat.toUInt8) 1 0 2#32 2 = 1 := by decide
  have user : User.memmove (fun a => a.toNat.toUInt8) 1 0 2#32 2 = 0 := by decide
  refine ⟨kernel, user, fun same => ?_⟩
  rw [same, kernel] at user
  cases user

end SlabStudy.Xv6
