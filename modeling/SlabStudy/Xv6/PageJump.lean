import SlabStudy.Xv6.Boot

/-!
# The jump of deallocuvm

`deallocuvm` on 32-bit addresses, with the shifts and masks of `mmu.h`.  Where a
page table is missing it goes on behind the range of that table, and still it
does what a loop over all pages of the range does.
-/

namespace SlabStudy.Xv6

/-! ## mmu.h -/

/-- `PDX`. -/
def pdxWord (va : BitVec 32) : BitVec 32 := va >>> 22 &&& 0x3ff#32

/-- `PGADDR`. -/
def pgaddr (d t o : BitVec 32) : BitVec 32 := d <<< 22 ||| t <<< 12 ||| o

/-- `PGROUNDUP`. -/
def pgRoundUpWord (sz : BitVec 32) : BitVec 32 := (sz + 4096#32 - 1#32) &&& ~~~4095#32

theorem getLsbD_pageMask : ∀ i < 32, (4095#32).getLsbD i = decide (i < 12) := by decide

/-- The mask clears the offset in the page. -/
theorem and_pageMask (x : BitVec 32) : x &&& ~~~4095#32 = x >>> 12 <<< 12 := by
  apply BitVec.eq_of_getLsbD_eq
  intro i inside
  rw [BitVec.getLsbD_and, BitVec.getLsbD_not, BitVec.getLsbD_shiftLeft, BitVec.getLsbD_ushiftRight,
    getLsbD_pageMask i inside]
  by_cases low : i < 12
  · simp [low]
  · simp [low, inside, Nat.add_sub_cancel' (Nat.le_of_not_lt low)]

theorem toNat_pgRoundUpWord (sz : BitVec 32) : (pgRoundUpWord sz).toNat = pgRoundUp sz.toNat := by
  have add : (sz + 4096#32 - 1#32).toNat = (sz.toNat + 4096 - 1) % 2 ^ 32 := by
    rw [BitVec.toNat_sub, BitVec.toNat_add]
    simp only [BitVec.toNat_ofNat]
    omega
  unfold pgRoundUpWord pgRoundUp
  rw [and_pageMask, BitVec.toNat_shiftLeft, BitVec.toNat_ushiftRight, add, Nat.shiftLeft_eq,
    Nat.shiftRight_eq_div_pow]
  simp only [pgsize]
  omega

theorem toNat_pdxWord (va : BitVec 32) : (pdxWord va).toNat = va.toNat / 2 ^ 22 := by
  have mask : (0x3ff#32).toNat = 2 ^ 10 - 1 := rfl
  have bound := va.isLt
  unfold pdxWord
  rw [BitVec.toNat_and, mask, Nat.and_two_pow_sub_one_eq_mod, BitVec.toNat_ushiftRight,
    Nat.shiftRight_eq_div_pow]
  omega

/-- Below `KERNBASE` the jump and the increment reach the first address of the next table. -/
theorem toNat_jump {a : BitVec 32} (low : a.toNat < kernbase) :
    (pgaddr (pdxWord a + 1#32) 0#32 0#32 - 4096#32 + 4096#32).toNat =
      (a.toNat / 2 ^ 22 + 1) * 2 ^ 22 := by
  have bound := a.isLt
  have next : (pdxWord a + 1#32).toNat = a.toNat / 2 ^ 22 + 1 := by
    rw [BitVec.toNat_add, toNat_pdxWord, BitVec.toNat_ofNat]
    omega
  unfold pgaddr
  rw [BitVec.sub_add_cancel, BitVec.zero_shiftLeft, BitVec.or_zero, BitVec.or_zero,
    BitVec.toNat_shiftLeft, next, Nat.shiftLeft_eq]
  simp only [kernbase] at low
  omega

/-! ## The loop -/

/-- The loop of `deallocuvm`, for some rounds; none if they are too few. -/
def deallocuvmRounds (ld : Linkage) (oldsz : BitVec 32) :
    Nat → BitVec 32 → Kmem → Pgdir → Option (Kern (Kmem × Pgdir))
  | 0, _, _, _ => none
  | rounds + 1, a, km, d =>
      if a < oldsz then
        match walkpgdir km d a.toNat false with
        | none =>
            let a := pgaddr (pdxWord a + 1#32) 0#32 0#32 - 4096#32
            deallocuvmRounds ld oldsz rounds (a + 4096#32) km d
        | some (pte, _, _) =>
            if pte.present then
              if pte.addr = 0 then some (.error .kfree)
              else
                match kfree ld km pte.addr with
                | .error reason => some (.error reason)
                | .ok km => deallocuvmRounds ld oldsz rounds (a + 4096#32) km
                    (d.setPte a.toNat Pte.zero)
            else deallocuvmRounds ld oldsz rounds (a + 4096#32) km d
      else some (.ok (km, d))

/-- `deallocuvm` on 32-bit sizes, for some rounds of its loop. -/
def deallocuvmWord (ld : Linkage) (rounds : Nat) (km : Kmem) (d : Pgdir) (oldsz newsz : BitVec 32) :
    Option (Kern (BitVec 32 × Kmem × Pgdir)) :=
  if oldsz ≤ newsz then some (.ok (oldsz, km, d))
  else (deallocuvmRounds ld oldsz rounds (pgRoundUpWord newsz) km d).map fun result =>
    result.map fun r => (newsz, r)

/-- The same without the jump: a loop over the pages. -/
def releasePages (ld : Linkage) : List Nat → Kmem → Pgdir → Kern (Kmem × Pgdir)
  | [], km, d => .ok (km, d)
  | a :: rest, km, d =>
      match d.pte? a with
      | none => releasePages ld rest km d
      | some pte =>
          if pte.present then
            if pte.addr = 0 then .error .kfree
            else
              match kfree ld km pte.addr with
              | .error reason => .error reason
              | .ok km => releasePages ld rest km (d.setPte a Pte.zero)
          else releasePages ld rest km d

section Loop

variable {ld : Linkage} {oldsz a : Nat} {km km' : Kmem} {d d' : Pgdir}

/-- Without its page table a range holds nothing to release. -/
theorem releasePages_skip (aligned : a % pgsize = 0) (low : a < kernbase)
    (missing : d.pte? a = none) :
    releasePages ld (pageAddrs a oldsz) km d =
      releasePages ld (pageAddrs ((a / 2 ^ 22 + 1) * 2 ^ 22) oldsz) km d := by
  induction left : (a / 2 ^ 22 + 1) * 2 ^ 22 - a using Nat.strongRecOn generalizing a with
  | ind k ih =>
      by_cases inside : a < oldsz
      · rw [pageAddrs_cons inside, releasePages, missing]
        dsimp only
        by_cases last : (a + pgsize) / 2 ^ 22 = a / 2 ^ 22
        · have dir : pdx (a + pgsize) = pdx a := by
            simp only [pdx, last]
          have absent : d.pte? (a + pgsize) = none := by
            unfold Pgdir.pte? at missing ⊢
            rw [dir]
            rw [Option.map_eq_none_iff] at missing ⊢
            exact missing
          have next := ih ((a / 2 ^ 22 + 1) * 2 ^ 22 - (a + pgsize))
            (by simp only [pgsize]; omega) (a := a + pgsize)
            (by rw [Nat.add_mod_right]; exact aligned)
            (by simp only [pgsize, kernbase] at *; omega) absent (by rw [last])
          rw [next, last]
        · have next : a + pgsize = (a / 2 ^ 22 + 1) * 2 ^ 22 := by
            simp only [pgsize] at *
            omega
          rw [next]
      · rw [pageAddrs_empty (Nat.le_of_not_lt inside), pageAddrs_empty (by omega)]

/-- The loop with the jump is the loop over the pages. -/
theorem deallocuvmRounds_eq {top b : BitVec 32} (limit : top.toNat ≤ kernbase)
    (aligned : b.toNat % pgsize = 0) {rounds : Nat}
    (enough : (top.toNat - b.toNat + pgsize - 1) / pgsize < rounds) :
    deallocuvmRounds ld top rounds b km d =
      some (releasePages ld (pageAddrs b.toNat top.toNat) km d) := by
  induction rounds generalizing b km d with
  | zero => exact absurd enough (Nat.not_lt_zero _)
  | succ rounds ih =>
      rw [deallocuvmRounds]
      by_cases inside : b.toNat < top.toNat
      · have low : b.toNat < kernbase := Nat.lt_of_lt_of_le inside limit
        have step : (b + 4096#32).toNat = b.toNat + pgsize := by
          rw [BitVec.toNat_add, BitVec.toNat_ofNat]
          simp only [kernbase, pgsize] at *
          omega
        have next {km : Kmem} {d : Pgdir} : deallocuvmRounds ld top rounds (b + 4096#32) km d =
            some (releasePages ld (pageAddrs (b.toNat + pgsize) top.toNat) km d) := by
          rw [← step]
          refine ih ?_ ?_
          · rw [step, Nat.add_mod_right]
            exact aligned
          · rw [step]
            simp only [pgsize] at *
            omega
        rw [if_pos (BitVec.lt_def.mpr inside), walkpgdir_false]
        cases entry : d.pte? b.toNat with
        | none =>
            have jump := toNat_jump low
            rw [releasePages_skip aligned low entry, ← jump]
            refine ih ?_ ?_
            · rw [jump]
              simp only [pgsize]
              omega
            · rw [jump]
              simp only [pgsize] at *
              omega
        | some pte =>
            rw [pageAddrs_cons inside, releasePages, entry]
            dsimp only [Option.map_some]
            split
            · split
              · rfl
              · cases freed : kfree ld km pte.addr with
                | error reason => rfl
                | ok km₁ => exact next
            · exact next
      · rw [if_neg (by rw [BitVec.lt_def]; exact inside), pageAddrs_empty (Nat.le_of_not_lt inside)]
        rfl

/-- So does the loop on numbers, with which the other modules work. -/
theorem deallocuvmLoop_eq (limit : oldsz ≤ kernbase) (aligned : a % pgsize = 0) :
    deallocuvmLoop ld oldsz a km d = releasePages ld (pageAddrs a oldsz) km d := by
  induction left : oldsz - a using Nat.strongRecOn generalizing a km d with
  | ind k ih =>
      rw [deallocuvmLoop]
      by_cases inside : a < oldsz
      · have low : a < kernbase := Nat.lt_of_lt_of_le inside limit
        have next {km : Kmem} {d : Pgdir} : deallocuvmLoop ld oldsz (a + pgsize) km d =
            releasePages ld (pageAddrs (a + pgsize) oldsz) km d := by
          refine ih (oldsz - (a + pgsize)) (by simp only [pgsize]; omega) ?_ rfl
          rw [Nat.add_mod_right]
          exact aligned
        rw [if_pos inside, walkpgdir_false]
        cases entry : d.pte? a with
        | none =>
            rw [releasePages_skip aligned low entry]
            refine ih (oldsz - (a / 2 ^ 22 + 1) * 2 ^ 22) (by omega) ?_ rfl
            simp only [pgsize]
            omega
        | some pte =>
            rw [pageAddrs_cons inside, releasePages, entry]
            dsimp only [Option.map_some]
            split
            · split
              · rfl
              · cases freed : kfree ld km pte.addr with
                | error reason => rfl
                | ok km₁ => exact next
            · exact next
      · rw [if_neg inside, pageAddrs_empty (Nat.le_of_not_lt inside)]
        rfl

/-! ## What is released -/

/-- The physical pages that some addresses map. -/
def mappedFrames (d : Pgdir) (pages : List Nat) : List Frame :=
  pages.filterMap fun a => (d.lookup a).map Pte.addr

/-- The present pages among `pages` have been freed, in this order, and their entries are zero. -/
structure PagesFreed (pages : List Nat) (km : Kmem) (d : Pgdir) (km' : Kmem) (d' : Pgdir) :
    Prop where
  freelist : km'.freelist = (mappedFrames d pages).reverse ++ km.freelist
  entries : ∀ va, va < 2 ^ 32 → d'.pte? va =
    if (∃ a ∈ pages, va / pgsize = a / pgsize) ∧ (d.lookup va).isSome then some Pte.zero
    else d.pte? va
  home : d'.frame = d.frame
  tables : ∀ i, (d'.pde i).map PgTab.frame = (d.pde i).map PgTab.frame
  memory : ∀ frame, frame ∉ mappedFrames d pages → km'.mem frame = km.mem frame

/-- A page that is not present is left alone. -/
theorem PagesFreed.absent {pages : List Nat} (bound : a < 2 ^ 32) (empty : d.lookup a = none)
    (later : PagesFreed pages km d km' d') : PagesFreed (a :: pages) km d km' d' := by
  have same : mappedFrames d (a :: pages) = mappedFrames d pages := by
    rw [mappedFrames, List.filterMap_cons, empty]
    rfl
  refine ⟨?_, fun va small => ?_, later.home, later.tables, ?_⟩
  · rw [same]
    exact later.freelist
  · rw [later.entries va small]
    refine if_congr ?_ rfl rfl
    constructor
    · rintro ⟨⟨b, member, page⟩, shown⟩
      exact ⟨⟨b, List.mem_cons_of_mem _ member, page⟩, shown⟩
    · rintro ⟨⟨b, member, page⟩, shown⟩
      rcases List.mem_cons.mp member with rfl | member
      · rw [Pgdir.lookup_congr d small bound page, empty] at shown
        cases shown
      · exact ⟨⟨b, member, page⟩, shown⟩
  · rw [same]
    exact later.memory

/-- A present page is freed, and its entry is cleared. -/
theorem PagesFreed.present {pages : List Nat} {km₁ : Kmem} {pte : Pte} (bound : a < 2 ^ 32)
    (small : ∀ b ∈ pages, b < 2 ^ 32) (apart : ∀ b ∈ pages, a / pgsize ≠ b / pgsize)
    (found : d.lookup a = some pte) (freed : kfree ld km pte.addr = .ok km₁)
    (later : PagesFreed pages km₁ (d.setPte a Pte.zero) km' d') :
    PagesFreed (a :: pages) km d km' d' := by
  have entry := (Pgdir.lookup_eq_some_iff.mp found).1
  obtain ⟨_, listed, kept⟩ := kfree_eq_ok freed
  have rest : mappedFrames (d.setPte a Pte.zero) pages = mappedFrames d pages := by
    refine List.filterMap_congr fun b member => ?_
    rw [Pgdir.lookup_setPte bound (small b member) entry, if_neg (apart b member).symm]
  have whole : mappedFrames d (a :: pages) = pte.addr :: mappedFrames d pages := by
    rw [mappedFrames, List.filterMap_cons, found]
    rfl
  refine ⟨?_, fun va low => ?_, later.home, fun i => ?_, fun frame other => ?_⟩
  · rw [later.freelist, rest, listed, whole, List.reverse_cons, List.append_assoc]
    rfl
  · rw [later.entries va low, Pgdir.lookup_setPte bound low entry]
    by_cases page : va / pgsize = a / pgsize
    · have shown : (d.lookup va).isSome = true := by
        rw [Pgdir.lookup_congr d low bound page, found]
        rfl
      have cleared : (d.setPte a Pte.zero).pte? va = some Pte.zero := by
        rw [← Pgdir.pte?_setPte_self Pte.zero entry]
        obtain ⟨dir, tab⟩ := (same_entry_iff low bound).mpr page
        simp only [Pgdir.pte?, dir, tab]
      have gone : ¬((∃ b ∈ pages, va / pgsize = b / pgsize) ∧
          ((some Pte.zero).filter Pte.present).isSome = true) := by
        rintro ⟨-, held⟩
        cases held
      rw [if_pos page, if_neg gone, cleared, if_pos ⟨⟨a, List.mem_cons_self, page⟩, shown⟩]
    · rw [if_neg page, Pgdir.pte?_setPte_other Pte.zero bound low (Ne.symm page)]
      refine if_congr ?_ rfl rfl
      constructor
      · rintro ⟨⟨b, member, same⟩, shown⟩
        exact ⟨⟨b, List.mem_cons_of_mem _ member, same⟩, shown⟩
      · rintro ⟨⟨b, member, same⟩, shown⟩
        rcases List.mem_cons.mp member with rfl | member
        · exact absurd same page
        · exact ⟨⟨b, member, same⟩, shown⟩
  · rw [later.tables]
    change Option.map PgTab.frame (Function.update d.pde (pdx a) _ i) = _
    by_cases dir : i = pdx a
    · subst dir
      rw [Function.update_self, Option.map_map]
      rfl
    · rw [Function.update_of_ne dir]
  · rw [whole, List.mem_cons, not_or] at other
    rw [later.memory frame (by rw [rest]; exact other.2), kept frame other.1]

theorem releasePages_ok {pages : List Nat} (small : ∀ b ∈ pages, b < 2 ^ 32)
    (apart : pages.Pairwise fun a b => a / pgsize ≠ b / pgsize)
    (ran : releasePages ld pages km d = .ok (km', d')) : PagesFreed pages km d km' d' := by
  induction pages generalizing km d with
  | nil =>
      cases ran
      refine ⟨rfl, fun va _ => ?_, rfl, fun _ => rfl, fun _ _ => rfl⟩
      rw [if_neg]
      rintro ⟨⟨b, member, _⟩, _⟩
      cases member
  | cons a pages ih =>
      obtain ⟨bound, small⟩ := List.forall_mem_cons.mp small
      obtain ⟨first, apart⟩ := List.pairwise_cons.mp apart
      rw [releasePages] at ran
      cases entry : d.pte? a with
      | none =>
          rw [entry] at ran
          exact (ih small apart ran).absent bound (Pgdir.lookup_eq_none_of_pte? entry)
      | some pte =>
          rw [entry] at ran
          dsimp only at ran
          cases shown : pte.present with
          | false =>
              rw [shown, if_neg (by decide)] at ran
              have empty : d.lookup a = none := by
                simp [Pgdir.lookup, entry, Option.filter, shown]
              exact (ih small apart ran).absent bound empty
          | true =>
              rw [shown, if_pos rfl] at ran
              have found := Pgdir.lookup_eq_some_iff.mpr ⟨entry, shown⟩
              split at ran
              · cases ran
              · cases freed : kfree ld km pte.addr with
                | error reason =>
                    rw [freed] at ran
                    cases ran
                | ok km₁ =>
                    rw [freed] at ran
                    exact (ih small apart ran).present bound small first found freed

/-- The loop does not stop at pages that `kfree` takes. -/
theorem releasePages_returns {pages : List Nat} (small : ∀ b ∈ pages, b < 2 ^ 32)
    (apart : pages.Pairwise fun a b => a / pgsize ≠ b / pgsize)
    (valid : ∀ frame ∈ mappedFrames d pages, frame.Valid ld) :
    ∃ km' d', releasePages ld pages km d = .ok (km', d') := by
  induction pages generalizing km d with
  | nil => exact ⟨km, d, rfl⟩
  | cons a pages ih =>
      obtain ⟨bound, small⟩ := List.forall_mem_cons.mp small
      obtain ⟨first, apart⟩ := List.pairwise_cons.mp apart
      rw [releasePages]
      cases entry : d.pte? a with
      | none =>
          refine ih small apart fun frame member => valid frame ?_
          rw [mappedFrames, List.filterMap_cons, Pgdir.lookup_eq_none_of_pte? entry]
          exact member
      | some pte =>
          dsimp only
          cases shown : pte.present with
          | false =>
              rw [if_neg (by decide)]
              refine ih small apart fun frame member => valid frame ?_
              have empty : d.lookup a = none := by
                simp [Pgdir.lookup, entry, Option.filter, shown]
              rw [mappedFrames, List.filterMap_cons, empty]
              exact member
          | true =>
              have found := Pgdir.lookup_eq_some_iff.mpr ⟨entry, shown⟩
              have whole : mappedFrames d (a :: pages) = pte.addr :: mappedFrames d pages := by
                rw [mappedFrames, List.filterMap_cons, found]
                rfl
              rw [whole] at valid
              obtain ⟨ok, valid⟩ := List.forall_mem_cons.mp valid
              obtain ⟨km₁, freed⟩ := kfree_of_valid km ok
              rw [if_pos rfl, if_neg ok.ne_zero, freed]
              refine ih small apart fun frame member => valid frame ?_
              have rest : mappedFrames (d.setPte a Pte.zero) pages = mappedFrames d pages := by
                refine List.filterMap_congr fun b inside => ?_
                rw [Pgdir.lookup_setPte bound (small b inside) entry, if_neg (first b inside).symm]
              rw [← rest]
              exact member

end Loop

section Range

variable {a oldsz : Nat}

theorem pageAddrs_lt (aligned : a % pgsize = 0) (limit : oldsz ≤ kernbase) :
    ∀ b ∈ pageAddrs a oldsz, b < 2 ^ 32 := by
  intro b member
  obtain ⟨_, below, _⟩ := (mem_pageAddrs aligned).mp member
  exact Nat.lt_trans (Nat.lt_of_lt_of_le below limit) (by decide)

/-- No two of the addresses lie in one page. -/
theorem pageAddrs_apart (aligned : a % pgsize = 0) :
    (pageAddrs a oldsz).Pairwise fun b c => b / pgsize ≠ c / pgsize := by
  refine List.Pairwise.imp_of_mem ?_ (pageAddrs_nodup a oldsz)
  intro b c first second distinct same
  obtain ⟨_, _, start⟩ := (mem_pageAddrs aligned).mp first
  obtain ⟨_, _, start'⟩ := (mem_pageAddrs aligned).mp second
  simp only [pgsize] at start start' same
  apply distinct
  omega

end Range

/-- Whatever page tables are missing, `deallocuvm` comes to an end and does the page-by-page loop. -/
theorem deallocuvm_exact (ld : Linkage) (km : Kmem) (d : Pgdir) (oldsz newsz : BitVec 32)
    (limit : oldsz.toNat ≤ kernbase) :
    ∃ rounds result,
      (∀ more, rounds ≤ more → deallocuvmWord ld more km d oldsz newsz = some result) ∧
      (oldsz ≤ newsz → result = .ok (oldsz, km, d)) ∧
      (newsz < oldsz →
        result = (releasePages ld (pageAddrs (pgRoundUp newsz.toNat) oldsz.toNat) km d).map
          fun r => (newsz, r)) ∧
      (newsz < oldsz → ∀ size km' d', result = .ok (size, km', d') →
        size = newsz ∧
          PagesFreed (pageAddrs (pgRoundUp newsz.toNat) oldsz.toNat) km d km' d') ∧
      ((∀ frame ∈ mappedFrames d (pageAddrs (pgRoundUp newsz.toNat) oldsz.toNat),
          frame.Valid ld) →
        ∃ size km' d', result = .ok (size, km', d')) := by
  by_cases grows : oldsz ≤ newsz
  · refine ⟨0, .ok (oldsz, km, d), ?_, fun _ => rfl, ?_, ?_, fun _ => ⟨oldsz, km, d, rfl⟩⟩
    · intro more _
      rw [deallocuvmWord, if_pos grows]
    · intro shrinks
      exact absurd shrinks (BitVec.not_lt.mpr grows)
    · intro shrinks
      exact absurd shrinks (BitVec.not_lt.mpr grows)
  · have aligned := pgRoundUp_mod newsz.toNat
    have small := pageAddrs_lt aligned limit
    have apart : (pageAddrs (pgRoundUp newsz.toNat) oldsz.toNat).Pairwise
        fun b c => b / pgsize ≠ c / pgsize := pageAddrs_apart aligned
    refine ⟨(oldsz.toNat - pgRoundUp newsz.toNat + pgsize - 1) / pgsize + 1,
      (releasePages ld (pageAddrs (pgRoundUp newsz.toNat) oldsz.toNat) km d).map
        fun r => (newsz, r), ?_, fun stays => absurd stays grows, fun _ => rfl, ?_, ?_⟩
    · intro more enough
      rw [deallocuvmWord, if_neg grows, deallocuvmRounds_eq limit, toNat_pgRoundUpWord]
      · rfl
      · rw [toNat_pgRoundUpWord]
        exact aligned
      · rw [toNat_pgRoundUpWord]
        exact enough
    · intro _ size km' d' ran
      cases released : releasePages ld (pageAddrs (pgRoundUp newsz.toNat) oldsz.toNat) km d with
      | error reason =>
          rw [released] at ran
          cases ran
      | ok r =>
          rw [released] at ran
          cases ran
          exact ⟨rfl, releasePages_ok small apart released⟩
    · intro valid
      obtain ⟨km', d', released⟩ := @releasePages_returns ld km d _ small apart valid
      exact ⟨newsz, km', d', by rw [released]; rfl⟩

/-- A directory whose second table is missing. -/
def holedPgdir : Pgdir where
  frame := 0x2000
  pde i :=
    if i.val = 0 then
      some ⟨0x2001, fun j =>
        if j.val = 0 then ⟨0x2010, 7⟩ else if j.val = 1022 then ⟨0x2011, 7⟩ else Pte.zero⟩
    else if i.val = 2 then some ⟨0x2002, fun j => if j.val = 1 then ⟨0x2012, 7⟩ else Pte.zero⟩
    else none

/-- The pages on both sides of the missing table are freed, and the first one is kept. -/
theorem deallocuvm_exact_holed :
    ∃ rounds km d,
      (∀ more, rounds ≤ more →
        deallocuvmWord sampleLinkage more (sampleKmem 1) holedPgdir 0x802000#32 0x3fd001#32 =
          some (.ok (0x3fd001#32, km, d))) ∧
      km.freelist = 0x2012 :: 0x2011 :: (sampleKmem 1).freelist ∧
      d.pte? 0 = some ⟨0x2010, 7⟩ ∧ d.pte? 0x3fe000 = some Pte.zero ∧
      d.pte? 0x400000 = none ∧ d.pte? 0x801000 = some Pte.zero := by
  obtain ⟨rounds, result, ran, _, _, freed, returns⟩ :=
    deallocuvm_exact sampleLinkage (sampleKmem 1) holedPgdir 0x802000#32 0x3fd001#32 (by decide)
  have mapped : mappedFrames holedPgdir (pageAddrs (pgRoundUp (0x3fd001#32).toNat)
      (0x802000#32).toNat) = [0x2011, 0x2012] := by
    decide +kernel
  rw [mapped] at returns
  obtain ⟨size, km, d, ended⟩ := returns (List.forall_mem_cons.mpr
    ⟨by decide, List.forall_mem_singleton.mpr (by decide)⟩)
  obtain ⟨same, released⟩ := freed (by decide) size km d ended
  have entry (va : Nat) (bound : va < 2 ^ 32) := released.entries va bound
  refine ⟨rounds, km, d, fun more enough => ?_, ?_, ?_, ?_, ?_, ?_⟩
  · rw [ran more enough, ended, same]
  · rw [released.freelist, mapped]
    rfl
  · rw [entry 0 (by decide)]
    decide +kernel
  · rw [entry 0x3fe000 (by decide)]
    decide +kernel
  · rw [entry 0x400000 (by decide)]
    decide +kernel
  · rw [entry 0x801000 (by decide)]
    decide +kernel

end SlabStudy.Xv6
