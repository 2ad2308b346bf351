import Mathlib.Algebra.BigOperators.Fin
import SlabStudy.Xv6.Mapping

/-!
# Releasing user memory

`deallocuvm` walks a range of the address space and jumps over directory
entries without a page table; `freevm` gives back everything a page directory
owns.  Given that the owned pages are pages `kfree` accepts, neither stops
the machine, and each freed page is moved to the free list.
-/

namespace SlabStudy.Xv6

/--
The loop of `deallocuvm`.  Without a page table the source sets `a` to the
last page of that directory entry before the increment.  The entry is not the
last one of the directory, since `oldsz` is at most `KERNBASE` in every call.
-/
def deallocuvmLoop (ld : Linkage) (oldsz a : Nat) (km : Kmem) (d : Pgdir) :
    Kern (Kmem × Pgdir) :=
  if a < oldsz then
    match walkpgdir km d a false with
    | none => deallocuvmLoop ld oldsz ((a / 2 ^ 22 + 1) * 2 ^ 22) km d
    | some (pte, _, _) =>
        if pte.present then
          if pte.addr = 0 then .error .kfree
          else
            match kfree ld km pte.addr with
            | .error reason => .error reason
            | .ok km => deallocuvmLoop ld oldsz (a + pgsize) km (d.setPte a Pte.zero)
        else deallocuvmLoop ld oldsz (a + pgsize) km d
  else .ok (km, d)
termination_by oldsz - a
decreasing_by
  · omega
  · simp only [pgsize]
    omega
  · simp only [pgsize]
    omega

/-- Deallocate user pages to bring the size from `oldsz` to `newsz`. -/
def deallocuvm (ld : Linkage) (km : Kmem) (d : Pgdir) (oldsz newsz : Nat) :
    Kern (Nat × Kmem × Pgdir) :=
  if oldsz ≤ newsz then .ok (oldsz, km, d)
  else do
    let (km, d) ← deallocuvmLoop ld oldsz (pgRoundUp newsz) km d
    return (newsz, km, d)

/-- The loop of `freevm` over the directory entries. -/
def freeTables (ld : Linkage) (d : Pgdir) : List (Fin npdentries) → Kmem → Kern Kmem
  | [], km => .ok km
  | i :: rest, km =>
      match d.pde i with
      | none => freeTables ld d rest km
      | some tab => do
          let km ← kfree ld km tab.frame
          freeTables ld d rest km

/-- Free a page table and all the physical pages in its user part. -/
def freevm (ld : Linkage) (km : Kmem) (pgdir : Option Pgdir) : Kern Kmem :=
  match pgdir with
  | none => .error .freevmNoPgdir
  | some d => do
      let (_, km, d) ← deallocuvm ld km d kernbase 0
      let km ← freeTables ld d (List.finRange npdentries) km
      kfree ld km d.frame

/-- The start of the page of an address lies in `[low, high)`. -/
def PageIn (low high va : Nat) : Prop := low ≤ pgRoundDown va ∧ pgRoundDown va < high

instance (low high va : Nat) : Decidable (PageIn low high va) :=
  inferInstanceAs (Decidable (_ ∧ _))

/-- Exactly the pages that start in `[low, high)` have been unmapped and freed. -/
structure Released (low high : Nat) (km : Kmem) (d : Pgdir) (km' : Kmem) (d' : Pgdir) :
    Prop where
  lookup : ∀ va, va < 2 ^ 32 →
    d'.lookup va = if PageIn low high va then none else d.lookup va
  conserved : (km'.freelist : Multiset Frame) + d'.frames = km.freelist + d.frames
  suffix : km.freelist <:+ km'.freelist
  untouched : ∀ frame, frame ∉ km'.freelist → km'.mem frame = km.mem frame
  home : d'.frame = d.frame
  tables : ∀ i, (d'.pde i).isSome = (d.pde i).isSome

/-! ## The loop over a range -/

section Range

variable {ld : Linkage} {oldsz a : Nat} {km : Kmem} {d : Pgdir}

theorem Released.refl (empty : oldsz ≤ a) : Released a oldsz km d km d := by
  refine ⟨fun va _ => ?_, rfl, List.suffix_refl _, fun _ _ => rfl, rfl, fun _ => rfl⟩
  rw [if_neg]
  rintro ⟨low, high⟩
  omega

/-- Pages of a directory entry without page table need no visit. -/
theorem Released.skip {km' : Kmem} {d' : Pgdir} (missing : d.pte? a = none)
    (limit : oldsz ≤ kernbase) (inside : a < oldsz)
    (later : Released ((a / 2 ^ 22 + 1) * 2 ^ 22) oldsz km d km' d') :
    Released a oldsz km d km' d' := by
  refine { later with lookup := fun va bound => ?_ }
  rw [later.lookup va bound]
  by_cases beyond : PageIn ((a / 2 ^ 22 + 1) * 2 ^ 22) oldsz va
  · have within : PageIn a oldsz va := by
      refine ⟨Nat.le_trans ?_ beyond.1, beyond.2⟩
      omega
    rw [if_pos beyond, if_pos within]
  · by_cases within : PageIn a oldsz va
    · rw [if_neg beyond, if_pos within]
      -- such a page belongs to the directory entry of `a`
      have dir : pdx va = pdx a := by
        simp only [PageIn, pgRoundDown, pdx, Fin.ofNat, Fin.mk.injEq, pgsize, kernbase,
          npdentries] at *
        omega
      apply Pgdir.lookup_eq_none_of_pte?
      unfold Pgdir.pte? at missing ⊢
      rw [dir, Option.map_eq_none_iff] at *
      exact missing
    · rw [if_neg beyond, if_neg within]

/-- A page that is not present is already as it should be. -/
theorem Released.absent {km' : Kmem} {d' : Pgdir} (aligned : a % pgsize = 0)
    (bound : a < 2 ^ 32) (empty : d.lookup a = none) (inside : a < oldsz)
    (later : Released (a + pgsize) oldsz km d km' d') : Released a oldsz km d km' d' := by
  refine { later with lookup := fun va small => ?_ }
  rw [later.lookup va small]
  by_cases page : va / pgsize = a / pgsize
  · have start : pgRoundDown va = a := by
      simp only [pgRoundDown, pgsize] at *
      omega
    have within : PageIn a oldsz va := ⟨Nat.le_of_eq start.symm, start ▸ inside⟩
    rw [if_pos within, Pgdir.lookup_congr d small bound page, empty, ite_self]
  · have same : PageIn (a + pgsize) oldsz va ↔ PageIn a oldsz va := by
      simp only [PageIn, pgRoundDown, pgsize] at *
      omega
    simp only [same]

/-- Clearing a present entry hands its page to the free list. -/
theorem Released.present {km₁ km' : Kmem} {d' : Pgdir} {pte : Pte} (aligned : a % pgsize = 0)
    (user : a < kernbase) (found : d.lookup a = some pte) (inside : a < oldsz)
    (freed : kfree ld km pte.addr = .ok km₁)
    (later : Released (a + pgsize) oldsz km₁ (d.setPte a Pte.zero) km' d') :
    Released a oldsz km d km' d' := by
  have bound : a < 2 ^ 32 := Nat.lt_trans user (by decide)
  have entry := Pgdir.lookup_eq_some_iff.mp found
  obtain ⟨_, listed, kept⟩ := kfree_eq_ok freed
  have owned : pte.frames = {pte.addr} := by simp [Pte.frames, entry.2]
  have traded := Pgdir.setPte_frames Pte.zero user entry.1
  rw [owned, Pte.zero_frames, add_zero] at traded
  refine ⟨fun va small => ?_, ?_, ?_, fun frame used => ?_, later.home, fun i => ?_⟩
  · rw [later.lookup va small, Pgdir.lookup_setPte bound small entry.1]
    by_cases page : va / pgsize = a / pgsize
    · have start : pgRoundDown va = a := by
        simp only [pgRoundDown, pgsize] at *
        omega
      have within : PageIn a oldsz va := ⟨Nat.le_of_eq start.symm, start ▸ inside⟩
      rw [if_pos page, if_pos within]
      simp [Option.filter]
    · have same : PageIn (a + pgsize) oldsz va ↔ PageIn a oldsz va := by
        simp only [PageIn, pgRoundDown, pgsize] at *
        omega
      simp only [same, if_neg page]
  · rw [later.conserved, listed, ← traded, ← Multiset.cons_coe, ← Multiset.singleton_add]
    abel
  · have longer := later.suffix
    rw [listed] at longer
    exact (List.suffix_cons _ _).trans longer
  · have notFreed : frame ≠ pte.addr := by
      rintro rfl
      exact used (later.suffix.subset (by simp [listed]))
    rw [later.untouched frame used, kept frame notFreed]
  · rw [later.tables]
    by_cases dir : i = pdx a
    · subst dir
      simp [Pgdir.setPte]
    · simp [Pgdir.setPte, dir]

/-- On owned pages the loop ends normally and releases its range. -/
theorem deallocuvmLoop_released (km : Kmem) (limit : oldsz ≤ kernbase)
    (aligned : a % pgsize = 0)
    (valid : ∀ frame ∈ d.frames, frame.Valid ld) :
    ∃ km' d', deallocuvmLoop ld oldsz a km d = .ok (km', d') ∧
      Released a oldsz km d km' d' := by
  induction size : oldsz - a using Nat.strong_induction_on generalizing a km d with
  | _ rounds ih =>
      unfold deallocuvmLoop
      split
      · next inside =>
          have user : a < kernbase := Nat.lt_of_lt_of_le inside limit
          have bound : a < 2 ^ 32 := Nat.lt_trans user (by decide)
          rw [walkpgdir_false]
          cases entry : d.pte? a with
          | none =>
              have nextAligned : (a / 2 ^ 22 + 1) * 2 ^ 22 % pgsize = 0 := by
                simp only [pgsize]
                omega
              obtain ⟨km', d', ran, later⟩ := ih _ (by omega) km nextAligned valid rfl
              exact ⟨km', d', ran, later.skip entry limit inside⟩
          | some pte =>
              have nextAligned : (a + pgsize) % pgsize = 0 := by
                rw [Nat.add_mod_right]
                exact aligned
              have fewer : oldsz - (a + pgsize) < rounds := by
                simp only [pgsize]
                omega
              cases shown : pte.present with
              | false =>
                  have empty : d.lookup a = none := by
                    simp [Pgdir.lookup, entry, Option.filter, shown]
                  obtain ⟨km', d', ran, later⟩ := ih _ fewer km nextAligned valid rfl
                  refine ⟨km', d', ?_, later.absent aligned bound empty inside⟩
                  simpa [shown] using ran
              | true =>
                  have found : d.lookup a = some pte :=
                    Pgdir.lookup_eq_some_iff.mpr ⟨entry, shown⟩
                  have ok := valid pte.addr (Pgdir.addr_mem_frames user found)
                  have traded := Pgdir.setPte_frames Pte.zero user entry
                  rw [Pte.zero_frames, add_zero] at traded
                  obtain ⟨km₁, freed⟩ := kfree_of_valid km ok
                  obtain ⟨km', d', ran, later⟩ := ih _ fewer km₁ nextAligned
                    (fun frame member => valid frame (by
                      rw [← traded]
                      exact Multiset.mem_add.mpr (.inl member))) rfl
                  refine ⟨km', d', ?_, later.present aligned user found inside freed⟩
                  simp only [Option.map_some, shown, if_true, freed]
                  rw [if_neg ok.ne_zero]
                  exact ran
      · next outside =>
          exact ⟨km, d, rfl, Released.refl (Nat.le_of_not_lt outside)⟩

end Range

section Whole

variable {ld : Linkage} {d : Pgdir}

/-- A shrinking call returns the new size and has released the pages above it. -/
theorem deallocuvm_released (km : Kmem) {oldsz newsz : Nat} (limit : oldsz ≤ kernbase)
    (shrinks : newsz < oldsz) (valid : ∀ frame ∈ d.frames, frame.Valid ld) :
    ∃ km' d', deallocuvm ld km d oldsz newsz = .ok (newsz, km', d') ∧
      Released (pgRoundUp newsz) oldsz km d km' d' := by
  obtain ⟨km', d', ran, released⟩ :=
    deallocuvmLoop_released km limit (pgRoundUp_mod newsz) valid
  refine ⟨km', d', ?_, released⟩
  rw [deallocuvm, if_neg (Nat.not_le.mpr shrinks), ran]
  rfl

/-- A call that returns has released a range or has done nothing. -/
theorem deallocuvm_cases {km km' : Kmem} {d' : Pgdir} {oldsz newsz result : Nat}
    (limit : oldsz ≤ kernbase) (valid : ∀ frame ∈ d.frames, frame.Valid ld)
    (ran : deallocuvm ld km d oldsz newsz = .ok (result, km', d')) :
    (oldsz ≤ newsz ∧ result = oldsz ∧ km' = km ∧ d' = d) ∨
      (newsz < oldsz ∧ result = newsz ∧ Released (pgRoundUp newsz) oldsz km d km' d') := by
  rcases Nat.lt_or_ge newsz oldsz with shrinks | grows
  · obtain ⟨km₁, d₁, freed, released⟩ := deallocuvm_released km limit shrinks valid
    rw [freed] at ran
    cases ran
    exact .inr ⟨shrinks, rfl, released⟩
  · rw [deallocuvm, if_pos grows] at ran
    cases ran
    exact .inl ⟨grows, rfl, rfl, rfl⟩

/-! ## Freeing a whole directory -/

/-- The page of the table in each listed directory entry. -/
def tableFrames (d : Pgdir) (entries : List (Fin npdentries)) : Multiset Frame :=
  (entries.map fun i => ((d.pde i).map PgTab.frame).elim 0 fun frame => {frame}).sum

theorem tableFrames_eq (d : Pgdir) (entries : List (Fin npdentries)) :
    tableFrames d entries =
      (entries.map fun i => ((d.pde i).map PgTab.frame).elim 0 fun frame => {frame}).sum := rfl

attribute [irreducible] tableFrames

theorem freeTables_ok (km : Kmem) {entries : List (Fin npdentries)}
    (valid : ∀ frame ∈ tableFrames d entries, frame.Valid ld) :
    ∃ km', freeTables ld d entries km = .ok km' ∧
      (km'.freelist : Multiset Frame) = km.freelist + tableFrames d entries ∧
      ∀ frame, frame ∉ km'.freelist → km'.mem frame = km.mem frame := by
  induction entries generalizing km with
  | nil => exact ⟨km, rfl, by simp [tableFrames_eq], fun _ _ => rfl⟩
  | cons i rest ih =>
      have split : tableFrames d (i :: rest) =
          (((d.pde i).map PgTab.frame).elim 0 fun frame => {frame}) + tableFrames d rest := by
        simp [tableFrames_eq]
      have later : ∀ frame ∈ tableFrames d rest, frame.Valid ld := fun frame member =>
        valid frame (by rw [split]; exact Multiset.mem_add.mpr (.inr member))
      cases atDir : d.pde i with
      | none =>
          obtain ⟨km', ran, listed, kept⟩ := ih km later
          refine ⟨km', ?_, ?_, kept⟩
          · simpa [freeTables, atDir] using ran
          · rw [listed, split, atDir]
            simp
      | some tab =>
          rw [atDir] at split
          have ok : tab.frame.Valid ld := valid _ (by rw [split]; simp)
          obtain ⟨km₁, freed⟩ := kfree_of_valid km ok
          obtain ⟨_, added, others⟩ := kfree_eq_ok freed
          obtain ⟨km', ran, listed, kept⟩ := ih km₁ later
          refine ⟨km', ?_, ?_, fun frame used => ?_⟩
          · simp only [freeTables, atDir, freed, bind, Except.bind]
            exact ran
          · rw [listed, added, split, ← Multiset.cons_coe, ← Multiset.singleton_add]
            simp only [Option.map_some, Option.elim_some]
            abel
          · have apart : frame ≠ tab.frame := by
              rintro rfl
              have inside : tab.frame ∈ (km'.freelist : Multiset Frame) := by
                rw [listed, added]
                simp
              exact used (Multiset.mem_coe.mp inside)
            rw [kept frame used, others frame apart]

/-- Without present user entries a directory owns its tables and its own page. -/
theorem Pgdir.frames_of_unmapped (unmapped : ∀ va, va < kernbase → d.lookup va = none) :
    d.frames = {d.frame} + tableFrames d (List.finRange npdentries) := by
  have each : ∀ i, PgTab.frames i (d.pde i) =
      ((d.pde i).map PgTab.frame).elim 0 fun frame => {frame} := by
    intro i
    cases atDir : d.pde i with
    | none => rfl
    | some tab =>
        simp only [Option.map_some, Option.elim_some, PgTab.frames]
        by_cases user : i.val < 512
        · have cleared : ∀ j, (tab.pte j).frames = 0 := by
            intro j
            have below : i.val * 2 ^ 22 + j.val * pgsize < kernbase := by
              have := j.isLt
              simp only [nptentries, pgsize, kernbase] at *
              omega
            have dir : pdx (i.val * 2 ^ 22 + j.val * pgsize) = i := by
              apply Fin.ext
              have := j.isLt
              simp only [pdx, Fin.ofNat, nptentries, npdentries, pgsize] at *
              omega
            have tabIndex : ptx (i.val * 2 ^ 22 + j.val * pgsize) = j := by
              apply Fin.ext
              have := j.isLt
              simp only [ptx, Fin.ofNat, nptentries, pgsize] at *
              omega
            have absent := unmapped _ below
            rw [Pgdir.lookup, Pgdir.pte?, dir, atDir, Option.map_some, tabIndex] at absent
            cases shown : (tab.pte j).present with
            | false => simp [Pte.frames, shown]
            | true => simp [Option.filter, shown] at absent
          simp [user, cleared]
        · simp [user]
  rw [Pgdir.frames_eq, Fin.sum_univ_def, tableFrames_eq]
  simp only [each]

/-- `freevm` moves every page of the directory to the free list. -/
theorem freevm_ok (km : Kmem) (valid : ∀ frame ∈ d.frames, frame.Valid ld) :
    ∃ km', freevm ld km (some d) = .ok km' ∧
      (km'.freelist : Multiset Frame) = km.freelist + d.frames ∧
      ∀ frame, frame ∉ km'.freelist → km'.mem frame = km.mem frame := by
  obtain ⟨km₁, d₁, emptied, released⟩ :=
    deallocuvm_released km (Nat.le_refl kernbase) (by decide : 0 < kernbase) valid
  have unmapped : ∀ va, va < kernbase → d₁.lookup va = none := by
    intro va user
    have within : PageIn (pgRoundUp 0) kernbase va := by
      refine ⟨Nat.zero_le _, Nat.lt_of_le_of_lt (Nat.div_mul_le_self _ _) user⟩
    rw [released.lookup va (Nat.lt_trans user (by decide)), if_pos within]
  have owned := Pgdir.frames_of_unmapped unmapped
  have total : (km₁.freelist : Multiset Frame) + d₁.frames = km.freelist + d.frames :=
    released.conserved
  -- the pages still owned were owned before or free before
  have stillValid : ∀ frame ∈ d₁.frames, frame.Valid ld := by
    intro frame member
    apply valid
    obtain ⟨more, grown⟩ := released.suffix
    have counted : (more : Multiset Frame) + d₁.frames = d.frames := by
      rw [← grown, ← Multiset.coe_add] at total
      apply add_left_cancel (a := (km.freelist : Multiset Frame))
      rw [← total]
      abel
    rw [← counted]
    exact Multiset.mem_add.mpr (.inr member)
  obtain ⟨km₂, tablesFreed, listed, kept⟩ := freeTables_ok km₁
    (fun frame member => stillValid frame (by
      rw [owned]
      exact Multiset.mem_add.mpr (.inr member)))
  have ok : d₁.frame.Valid ld := stillValid _ (by rw [owned]; simp)
  obtain ⟨km₃, freed⟩ := kfree_of_valid km₂ ok
  obtain ⟨_, added, others⟩ := kfree_eq_ok freed
  refine ⟨km₃, ?_, ?_, fun frame used => ?_⟩
  · simp only [freevm, emptied, bind, Except.bind, tablesFreed]
    exact freed
  · rw [added, ← Multiset.cons_coe, ← Multiset.singleton_add, listed, ← total, owned]
    abel
  · rw [added, List.mem_cons, not_or] at used
    have notTable : frame ∉ km₁.freelist := by
      intro free
      have inside : frame ∈ (km₂.freelist : Multiset Frame) := by
        rw [listed]
        exact Multiset.mem_add.mpr (.inl (Multiset.mem_coe.mpr free))
      exact used.2 (Multiset.mem_coe.mp inside)
    rw [others frame used.1, kept frame used.2, released.untouched frame notTable]

end Whole

end SlabStudy.Xv6
