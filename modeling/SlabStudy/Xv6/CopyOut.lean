import SlabStudy.Library.Deposit
import SlabStudy.Xv6.Exec

/-!
# The bytes that copyout writes

A user address names a byte of a physical page when its entry is present and
for the user.  `copyout` writes page by page and gives up at a page that is
not; but where even the page table is missing, `uva2ka` follows the null
pointer that `walkpgdir` returns.
-/

namespace SlabStudy.Xv6

open SlabStudy.Library

/-- A byte of physical memory. -/
abbrev Cell : Type := Frame × Fin pgsize

def Kmem.cell (km : Kmem) (c : Cell) : UInt8 := km.mem c.1 c.2

/-- The byte a user address names, if its page is present and for the user. -/
def Pgdir.place (d : Pgdir) (va : Nat) : Option Cell :=
  ((d.pte? va).filter fun pte => pte.present && pte.user).map fun pte =>
    (pte.addr, Fin.ofNat pgsize va)

section Places

variable {d : Pgdir} {va frame : Nat} {pte : Pte}

theorem Pgdir.place_eq_some_iff {c : Cell} :
    d.place va = some c ↔
      ∃ pte, d.lookup va = some pte ∧ pte.user = true ∧ c = (pte.addr, Fin.ofNat pgsize va) := by
  unfold Pgdir.place
  rw [Option.map_eq_some_iff]
  constructor
  · rintro ⟨pte, found, rfl⟩
    rw [Option.filter_eq_some_iff, Bool.and_eq_true] at found
    exact ⟨pte, Pgdir.lookup_eq_some_iff.mpr ⟨found.1, found.2.1⟩, found.2.2, rfl⟩
  · rintro ⟨pte, found, user, rfl⟩
    obtain ⟨entry, shown⟩ := Pgdir.lookup_eq_some_iff.mp found
    refine ⟨pte, ?_, rfl⟩
    rw [Option.filter_eq_some_iff, Bool.and_eq_true]
    exact ⟨entry, shown, user⟩

/-- Entries depend on the page of an address only. -/
theorem Pgdir.pte?_congr (d : Pgdir) {va vb : Nat} (left : va < 2 ^ 32) (right : vb < 2 ^ 32)
    (page : va / pgsize = vb / pgsize) : d.pte? va = d.pte? vb := by
  obtain ⟨dir, tab⟩ := (same_entry_iff left right).mpr page
  simp only [Pgdir.pte?, dir, tab]

theorem pgRoundDown_page (va : Nat) : pgRoundDown va / pgsize = va / pgsize := by
  simp only [pgRoundDown, pgsize]
  omega

theorem pgRoundDown_le (va : Nat) : pgRoundDown va ≤ va := Nat.div_mul_le_self _ _

/-- The round down of an address has its entry. -/
theorem Pgdir.pte?_page (d : Pgdir) (bound : va < 2 ^ 32) : d.pte? (pgRoundDown va) = d.pte? va :=
  d.pte?_congr (Nat.lt_of_le_of_lt (pgRoundDown_le va) bound) bound (pgRoundDown_page va)

/-- What `uva2ka` returns on the page of an address that has a page table. -/
theorem uva2ka_eq (null : Option Pte) (bound : va < 2 ^ 32) (entry : d.pte? va = some pte) :
    uva2ka null d (pgRoundDown va) = .ok ((d.place va).map Prod.fst) := by
  unfold uva2ka Pgdir.place
  rw [d.pte?_page bound, entry]
  by_cases allowed : (pte.present && pte.user) = true
  · simp [allowed, Option.filter]
  · simp [allowed, Option.filter]

/-- Without a page table the entry is the one at the null pointer. -/
theorem uva2ka_missing (null : Option Pte) (bound : va < 2 ^ 32) (missing : d.pte? va = none) :
    uva2ka null d (pgRoundDown va) = match null with
      | none => .error .nullPointer
      | some pte => .ok (if pte.present && pte.user then some pte.addr else none) := by
  unfold uva2ka
  rw [d.pte?_page bound, missing]
  cases null with
  | none => rfl
  | some pte => rfl

end Places

section Copying

variable {null : Option Pte} {d : Pgdir} {va : Nat} {km : Kmem} {bytes : List UInt8}

/-- A store into the page of an address, up to its end at most. -/
theorem store_deposited (km : Kmem) (bytes : List UInt8) {frame : Frame} {offset : Fin pgsize}
    (bound : va + bytes.length ≤ 2 ^ 32)
    (here : d.place va = some (frame, offset)) (fits : va % pgsize + bytes.length ≤ pgsize) :
    (∀ i < bytes.length, ∃ off, d.place (va + i) = some (frame, off) ∧
      off.val = va % pgsize + i) ∧
    Deposited d.place va bytes km.cell (km.store frame (va % pgsize) bytes).cell := by
  obtain ⟨pte, found, user, same⟩ := Pgdir.place_eq_some_iff.mp here
  have all : ∀ i < bytes.length, ∃ off, d.place (va + i) = some (frame, off) ∧
      off.val = va % pgsize + i := by
    intro i inside
    refine ⟨Fin.ofNat pgsize (va + i), Pgdir.place_eq_some_iff.mpr ⟨pte, ?_, user, ?_⟩, ?_⟩
    · rw [d.lookup_congr (by omega) (by omega : va < 2 ^ 32)
        (by simp only [pgsize] at *; omega), found]
    · rw [(Prod.mk.inj same).1]
    · simp only [Fin.ofNat, pgsize] at *
      omega
  refine ⟨all, ?_, ?_⟩
  · intro i x found c place last
    have inside := (List.getElem?_eq_some_iff.mp found).1
    obtain ⟨off, there, value⟩ := all i inside
    rw [there] at place
    cases place
    change (Function.update km.mem frame _) frame off = x
    rw [Function.update_self, if_pos ⟨by omega, by omega⟩, value, Nat.add_sub_cancel_left,
      List.getD_eq_getElem?_getD, found]
    rfl
  · rintro ⟨other, off⟩ apart
    change (Function.update km.mem frame _) other off = km.mem other off
    by_cases same : other = frame
    · subst same
      rw [Function.update_self, if_neg]
      rintro ⟨first, last⟩
      obtain ⟨off', there, value⟩ := all (off.val - va % pgsize) (by omega)
      have equal : off' = off := Fin.ext (by omega)
      rw [equal] at there
      exact apart _ (by omega) there
    · rw [Function.update_of_ne same]

theorem copyout_nil (null : Option Pte) (d : Pgdir) (va : Nat) (km : Kmem) :
    copyout null d va [] km = .ok (true, km, d) := by
  rw [copyout]

/-- The round at an address whose page table is missing, when user address 0 is not mapped. -/
theorem copyout_missing (some : bytes ≠ []) (bound : va < 2 ^ 32) (missing : d.pte? va = none) :
    copyout none d va bytes km = .error .nullPointer := by
  obtain ⟨first, rest, rfl⟩ := List.exists_cons_of_ne_nil some
  rw [copyout, uva2ka_missing none bound missing]
  rfl

/-- The round at an address whose page is not for the user. -/
theorem copyout_refused {pte : Pte} (some : bytes ≠ []) (bound : va < 2 ^ 32)
    (entry : d.pte? va = .some pte) (absent : d.place va = none) :
    copyout null d va bytes km = .ok (false, km, d) := by
  obtain ⟨first, rest, rfl⟩ := List.exists_cons_of_ne_nil some
  rw [copyout, uva2ka_eq null bound entry, absent]
  rfl

/-- Bytes left in the page of an address. -/
def pageLeft (va : Nat) : Nat := pgsize - va % pgsize

/-- The round at an address with a user page copies up to the end of that page. -/
theorem copyout_page (null : Option Pte) {frame : Frame} {offset : Fin pgsize} (some : bytes ≠ [])
    (limit : va + bytes.length ≤ kernbase) (here : d.place va = .some (frame, offset)) :
    copyout null d va bytes km = copyout null d (va + pageLeft va) (bytes.drop (pageLeft va))
      (km.store frame (va % pgsize) (bytes.take (pageLeft va))) := by
  have filled : 0 < bytes.length := List.length_pos_iff.mpr some
  have bound : va < 2 ^ 32 := by
    simp only [kernbase] at limit
    omega
  obtain ⟨pte, found, _⟩ := Pgdir.place_eq_some_iff.mp here
  have entry := (Pgdir.lookup_eq_some_iff.mp found).1
  obtain ⟨first, rest, rfl⟩ := List.exists_cons_of_ne_nil some
  have length : rest.length + 1 = (first :: rest).length := rfl
  have stored (chunk : List UInt8) : copyInto d (pgRoundDown va) frame (va % pgsize) chunk km =
      .ok (km.store frame (va % pgsize) chunk, d) := by
    unfold copyInto
    rw [d.pte?_page bound, entry]
  conv_lhs => rw [copyout, uva2ka_eq null bound entry, here]
  dsimp only [Option.map_some]
  change (copyInto d _ _ _ _ _ >>= fun result => copyout null result.2 _ _ result.1) = _
  rw [stored]
  change copyout null d _ _ _ = _
  rw [length]
  rcases Nat.le_total (pageLeft va) (first :: rest).length with long | short
  · have chunk : min (pgsize - va % pgsize) (first :: rest).length = pageLeft va :=
      Nat.min_eq_left long
    have next : (pgRoundDown va + pgsize) % 2 ^ 32 = va + pageLeft va := by
      simp only [pageLeft, pgRoundDown, pgsize, kernbase] at *
      omega
    rw [next, chunk]
  · have chunk : min (pgsize - va % pgsize) (first :: rest).length = (first :: rest).length :=
      Nat.min_eq_right short
    rw [chunk, List.drop_length, List.drop_of_length_le short, List.take_length,
      List.take_of_length_le short, copyout_nil, copyout_nil]

/-- `copyout` writes up to the first byte that is not in a user page. -/
theorem copyout_cases (d : Pgdir) (km : Kmem) (limit : va + bytes.length ≤ kernbase) :
    (∃ km', (∀ null, copyout null d va bytes km = .ok (true, km', d)) ∧
        (∀ i < bytes.length, (d.place (va + i)).isSome) ∧
        Deposited d.place va bytes km.cell km'.cell ∧ km'.freelist = km.freelist) ∨
      ∃ n < bytes.length, (∀ i < n, (d.place (va + i)).isSome) ∧ d.place (va + n) = none ∧
        ((d.pte? (va + n) = none ∧ copyout none d va bytes km = .error .nullPointer) ∨
          d.pte? (va + n) ≠ none ∧ ∃ km', (∀ null, copyout null d va bytes km = .ok (false, km', d)) ∧
            Deposited d.place va (bytes.take n) km.cell km'.cell ∧
            km'.freelist = km.freelist) := by
  induction left : bytes.length using Nat.strongRecOn generalizing va bytes km with
  | ind len ih =>
      rcases eq_or_ne bytes [] with rfl | some
      · exact .inl ⟨km, fun null => copyout_nil null d va km, fun i inside => absurd inside (by simp [← left]),
          .nil _ _ _, rfl⟩
      have filled : 0 < bytes.length := List.length_pos_iff.mpr some
      have bound : va < 2 ^ 32 := by
        simp only [kernbase] at limit
        omega
      cases here : d.place va with
      | none =>
          refine .inr ⟨0, by omega, fun i inside => absurd inside (Nat.not_lt_zero i), here, ?_⟩
          cases entry : d.pte? va with
          | none => exact .inl ⟨rfl, copyout_missing some bound entry⟩
          | some pte =>
              refine .inr ⟨Option.some_ne_none _, km, ?_, ?_, rfl⟩
              · exact fun null => copyout_refused some bound entry here
              · rw [List.take_zero]
                exact .nil _ _ _
      | some c =>
          obtain ⟨frame, offset⟩ := c
          have positive : 0 < pageLeft va := by
            simp only [pageLeft, pgsize]
            omega
          have chunk : (bytes.take (pageLeft va)).length = min (pageLeft va) len := by
            rw [List.length_take, left]
          have dropped : (bytes.drop (pageLeft va)).length = len - pageLeft va := by
            rw [List.length_drop, left]
          obtain ⟨covered, stored⟩ := store_deposited km (bytes.take (pageLeft va)) (by rw [chunk]; simp only [kernbase] at limit; omega)
            here (by rw [chunk]; simp only [pageLeft, pgsize]; omega)
          have early : ∀ i < min (pageLeft va) len, (d.place (va + i)).isSome := by
            intro i inside
            obtain ⟨off, there, _⟩ := covered i (by rw [chunk]; exact inside)
            rw [there]
            rfl
          simp only [copyout_page _ some limit here]
          rcases Nat.le_total len (pageLeft va) with short | long
          · rw [List.drop_of_length_le (by rw [left]; exact short)]
            refine .inl ⟨_, fun null => copyout_nil .., fun i inside => early i (by omega), ?_, rfl⟩
            rw [List.take_of_length_le (by rw [left]; exact short)] at stored ⊢
            exact stored
          · have split := List.take_append_drop (pageLeft va) bytes
            rw [Nat.min_eq_left long] at chunk early
            have all {n : Nat} (late : ∀ i < n, (d.place (va + pageLeft va + i)).isSome) :
                ∀ i < pageLeft va + n, (d.place (va + i)).isSome := by
              intro i inside
              by_cases first : i < pageLeft va
              · exact early i first
              · have later := late (i - pageLeft va) (by omega)
                rw [Nat.add_assoc, Nat.add_sub_cancel' (Nat.le_of_not_lt first)] at later
                exact later
            rcases @ih (len - pageLeft va) (by omega) (va + pageLeft va)
                (bytes.drop (pageLeft va))
                (km.store frame (va % pgsize) (bytes.take (pageLeft va))) (by rw [dropped]; omega) dropped with
              ⟨km', ran, late, rest, free⟩ | ⟨n, inside, late, absent, ends⟩
            · refine .inl ⟨km', ran, fun i inside => all late i (by omega), ?_, free⟩
              rw [← split]
              exact stored.append (by rw [chunk]; exact rest)
            · rw [Nat.add_assoc] at absent ends
              refine .inr ⟨pageLeft va + n, by omega, all late, absent, ends.imp_right ?_⟩
              rintro ⟨entry, km', ran, rest, free⟩
              refine ⟨entry, km', ran, ?_, free⟩
              have front : bytes.take (pageLeft va + n) =
                  bytes.take (pageLeft va) ++ (bytes.drop (pageLeft va)).take n := List.take_add
              rw [front]
              exact stored.append (by rw [chunk]; exact rest)

/-! ## When copyout does what it promises -/

/--
`copyout` returns, whatever is at user address 0; it returns 0 exactly when all
bytes of the range are in user pages, and then it has written these bytes and
nothing else, while otherwise it has written at most into user pages of the
range.
-/
def CopiesExactly (d : Pgdir) (va : Nat) (bytes : List UInt8) (km : Kmem) : Prop :=
  ∃ copied km', (∀ null, copyout null d va bytes km = .ok (copied, km', d)) ∧
    (copied = true ↔ ∀ i < bytes.length, (d.place (va + i)).isSome) ∧
    (copied = true → Deposited d.place va bytes km.cell km'.cell) ∧
    (∀ c, (∀ i < bytes.length, d.place (va + i) ≠ some c) → km'.cell c = km.cell c) ∧
    km'.freelist = km.freelist

/-- The first address of the range that is not in a user page has a page table. -/
def EntriesReached (d : Pgdir) (va len : Nat) : Prop :=
  ∀ n < len, (∀ i < n, (d.place (va + i)).isSome) → d.pte? (va + n) ≠ none

/-- `copyout` keeps its promise unless it comes upon a missing page table. -/
theorem copyout_exact_iff (limit : va + bytes.length ≤ kernbase) :
    CopiesExactly d va bytes km ↔ EntriesReached d va bytes.length := by
  rcases copyout_cases d km limit with
    ⟨km', ran, all, stored, free⟩ | ⟨n, inside, before, absent, ⟨missing, ran⟩ | ⟨entry, km', ran, stored, free⟩⟩
  · constructor
    · intro _ n inside _ missing
      have here := all n inside
      unfold Pgdir.place at here
      rw [missing] at here
      cases here
    · intro _
      exact ⟨true, km', ran, iff_of_true rfl all, fun _ => stored, stored.kept, free⟩
  · constructor
    · rintro ⟨copied, km', ended, _⟩
      cases ran.symm.trans (ended none)
    · intro reached
      exact absurd missing (reached n inside before)
  · constructor
    · intro _ k bound earlier missing
      rcases Nat.lt_trichotomy k n with lower | rfl | higher
      · have here := before k lower
        unfold Pgdir.place at here
        rw [missing] at here
        cases here
      · exact entry missing
      · have here := earlier n higher
        rw [absent] at here
        cases here
    · intro _
      refine ⟨false, km', ran, iff_of_false Bool.false_ne_true fun all => ?_, nofun, ?_, free⟩
      · have here := all n inside
        rw [absent] at here
        cases here
      · intro c apart
        refine stored.kept c fun i early => apart i ?_
        rw [List.length_take] at early
        omega

end Copying

/-- A directory with the topmost user page only, as `exec` has it for a program without heap. -/
def stackOnly : Pgdir :=
  (Pgdir.addTable ⟨0x1000, fun _ => none⟩ 0x7ffff000 0x1001).setPte 0x7ffff000
    ⟨0x1002, pteP ||| pteW ||| pteU⟩

theorem copyout_exact_one :
    CopiesExactly stackOnly 0x7ffff000 [65] ⟨[], fun _ _ => 0⟩ :=
  (copyout_exact_iff (by decide)).mpr fun n inside _ => by
    obtain rfl : n = 0 := Nat.lt_one_iff.mp inside
    exact Option.some_ne_none _

/-- A string of five megabytes begins below the addresses of the topmost page table. -/
theorem copyout_long_argument :
    0x7fb00000 + (List.replicate 0x4fffff (65 : UInt8)).length ≤ kernbase ∧
      ¬CopiesExactly stackOnly 0x7fb00000 (List.replicate 0x4fffff 65) ⟨[], fun _ _ => 0⟩ := by
  constructor
  · rw [List.length_replicate]
    decide
  · rintro ⟨copied, km', ran, _⟩
    have filled : List.replicate 0x4fffff (65 : UInt8) ≠ [] := by
      rw [List.replicate_succ]
      exact List.cons_ne_nil _ _
    cases (copyout_missing filled (by decide) rfl).symm.trans (ran none)

end SlabStudy.Xv6
