import SlabStudy.Xv6.PageTable

/-!
# walkpgdir and mappages

Entering a mapping allocates at most one page table.  `Grows` collects what
every allocating operation leaves alone: pages that were not free keep their
contents, present entries stay, and the free list only loses pages.
-/

namespace SlabStudy.Xv6

/--
The entry for `va`, with the memory and directory after the page table it may
have needed.  Stores through the returned pointer are `Pgdir.setPte`.
-/
def walkpgdir (km : Kmem) (d : Pgdir) (va : Nat) (alloc : Bool) :
    Option (Pte × Kmem × Pgdir) :=
  match d.pde (pdx va) with
  | some tab => some (tab.pte (ptx va), km, d)
  | none =>
      if alloc then
        match kalloc km with
        | none => none
        | some (frame, km) => some (Pte.zero, km.fill frame 0, d.addTable va frame)
      else none

/--
The pages from `a` up to and including `last`, each with its physical page.
The loop of `mappages` leaves at `a == last`, so a range whose end lies below
its start runs through the whole address space.
-/
def mapAddrs (a last : Nat) (frame : Frame) : List (Nat × Frame) :=
  (List.range ((last + 2 ^ 32 - a) % 2 ^ 32 / pgsize + 1)).map fun k =>
    ((a + pgsize * k) % 2 ^ 32, frame + BitVec.ofNat 20 k)

/-- The loop of `mappages`; the Boolean is false for the result `-1`. -/
def mappagesLoop (perm : Flags) :
    List (Nat × Frame) → Kmem → Pgdir → Kern (Bool × Kmem × Pgdir)
  | [], km, d => .ok (true, km, d)
  | (a, frame) :: rest, km, d =>
      match walkpgdir km d a true with
      | none => .ok (false, km, d)
      | some (pte, km, d) =>
          if pte.present then .error .remap
          else mappagesLoop perm rest km (d.setPte a ⟨frame, perm ||| pteP⟩)

/-- Create entries for the addresses from `va` that refer to pages from `frame`. -/
def mappages (km : Kmem) (d : Pgdir) (va size : Nat) (frame : Frame) (perm : Flags) :
    Kern (Bool × Kmem × Pgdir) :=
  mappagesLoop perm
    (mapAddrs (pgRoundDown va) (pgRoundDown ((va + size + 2 ^ 32 - 1) % 2 ^ 32)) frame) km d

/-- What an operation that only allocates keeps. -/
structure Grows (km : Kmem) (d : Pgdir) (km' : Kmem) (d' : Pgdir) : Prop where
  suffix : km'.freelist <:+ km.freelist
  untouched : ∀ frame, frame ∉ km.freelist → km'.mem frame = km.mem frame
  kept : ∀ va pte, va < 2 ^ 32 → d.lookup va = some pte → d'.lookup va = some pte
  home : d'.frame = d.frame

namespace Grows

theorem refl (km : Kmem) (d : Pgdir) : Grows km d km d :=
  ⟨List.suffix_refl _, fun _ _ => rfl, fun _ _ _ found => found, rfl⟩

theorem trans {km km' km'' : Kmem} {d d' d'' : Pgdir}
    (first : Grows km d km' d') (second : Grows km' d' km'' d'') : Grows km d km'' d'' where
  suffix := second.suffix.trans first.suffix
  untouched frame used := by
    rw [second.untouched frame fun free => used (first.suffix.subset free),
      first.untouched frame used]
  kept va pte bound found := second.kept va pte bound (first.kept va pte bound found)
  home := second.home.trans first.home

end Grows

/-- Directory entries of `dirs` that have no page table yet. -/
def Pgdir.missing (d : Pgdir) (dirs : Finset (Fin npdentries)) : Nat :=
  (dirs.filter fun i => (d.pde i).isNone).card

/-! ## One step of the walk -/

theorem walkpgdir_false (km : Kmem) (d : Pgdir) (va : Nat) :
    walkpgdir km d va false = (d.pte? va).map fun pte => (pte, km, d) := by
  unfold walkpgdir Pgdir.pte?
  cases d.pde (pdx va) with
  | none => rfl
  | some tab => rfl

/-- The walk fails only for want of a page for the page table. -/
theorem walkpgdir_true_eq_none_iff {km : Kmem} {d : Pgdir} {va : Nat} :
    walkpgdir km d va true = none ↔ d.pde (pdx va) = none ∧ km.freelist = [] := by
  unfold walkpgdir
  cases atDir : d.pde (pdx va) with
  | some tab => simp
  | none =>
      simp only [if_true, true_and]
      rw [← kalloc_eq_none_iff]
      cases kalloc km with
      | none => simp
      | some pair => simp

/-- Either the page table was there, or the first free page became one. -/
theorem walkpgdir_true_cases {km km' : Kmem} {d d' : Pgdir} {va : Nat} {pte : Pte}
    (walked : walkpgdir km d va true = some (pte, km', d')) :
    (km' = km ∧ d' = d ∧ d.pte? va = some pte) ∨
      (d.pde (pdx va) = none ∧ pte = Pte.zero ∧ ∃ frame,
        d' = d.addTable va frame ∧ km.freelist = frame :: km'.freelist ∧
        ∀ other, other ≠ frame → km'.mem other = km.mem other) := by
  unfold walkpgdir at walked
  cases atDir : d.pde (pdx va) with
  | some tab =>
      simp only [atDir, Option.some.injEq, Prod.mk.injEq] at walked
      obtain ⟨rfl, rfl, rfl⟩ := walked
      exact .inl ⟨rfl, rfl, by simp [Pgdir.pte?, atDir]⟩
  | none =>
      simp only [atDir, if_true] at walked
      cases taken : kalloc km with
      | none => simp [taken] at walked
      | some pair =>
          obtain ⟨frame, rest⟩ := pair
          simp only [taken, Option.some.injEq, Prod.mk.injEq] at walked
          obtain ⟨rfl, rfl, rfl⟩ := walked
          obtain ⟨listed, same⟩ := kalloc_eq_some_iff.mp taken
          refine .inr ⟨rfl, rfl, frame, rfl, listed, fun other apart => ?_⟩
          rw [Kmem.fill_mem_of_ne _ _ apart, same]

section Walk

variable {km km' : Kmem} {d d' : Pgdir} {va : Nat} {pte : Pte}

theorem walkpgdir_lookup (walked : walkpgdir km d va true = some (pte, km', d')) (vb : Nat) :
    d'.lookup vb = d.lookup vb := by
  rcases walkpgdir_true_cases walked with ⟨_, rfl, _⟩ | ⟨missing, _, frame, rfl, _⟩
  · rfl
  · exact Pgdir.lookup_addTable frame missing vb

theorem walkpgdir_pte? (walked : walkpgdir km d va true = some (pte, km', d')) :
    d'.pte? va = some pte := by
  rcases walkpgdir_true_cases walked with ⟨_, rfl, found⟩ | ⟨_, rfl, frame, rfl, _⟩
  · exact found
  · exact Pgdir.pte?_addTable_self d va frame

theorem walkpgdir_grows (walked : walkpgdir km d va true = some (pte, km', d')) :
    Grows km d km' d' := by
  have same := walkpgdir_lookup walked
  rcases walkpgdir_true_cases walked with ⟨rfl, rfl, _⟩ | ⟨_, _, frame, rfl, listed, kept⟩
  · exact Grows.refl _ _
  · refine ⟨?_, fun other used => kept other ?_, fun vb entry _ found => ?_, rfl⟩
    · rw [listed]
      exact List.suffix_cons _ _
    · rintro rfl
      exact used (by simp [listed])
    · rw [same, found]

theorem walkpgdir_conserves (walked : walkpgdir km d va true = some (pte, km', d')) :
    (km'.freelist : Multiset Frame) + d'.frames = km.freelist + d.frames := by
  rcases walkpgdir_true_cases walked with ⟨rfl, rfl, _⟩ | ⟨missing, _, frame, rfl, listed, _⟩
  · rfl
  · rw [Pgdir.addTable_frames frame missing, listed, ← Multiset.cons_coe,
      ← Multiset.singleton_add]
    abel

/-- Each page table comes off the free list. -/
theorem walkpgdir_missing {dirs : Finset (Fin npdentries)} (inside : pdx va ∈ dirs)
    (walked : walkpgdir km d va true = some (pte, km', d')) :
    km'.freelist.length + d.missing dirs = km.freelist.length + d'.missing dirs := by
  rcases walkpgdir_true_cases walked with ⟨rfl, rfl, _⟩ | ⟨missing, _, frame, rfl, listed, _⟩
  · rfl
  · have filled : (dirs.filter fun i => ((d.addTable va frame).pde i).isNone) =
        (dirs.filter fun i => (d.pde i).isNone).erase (pdx va) := by
      ext i
      by_cases dir : i = pdx va
      · subst dir
        simp [Pgdir.addTable]
      · simp [Pgdir.addTable, dir]
    have listedLength := congrArg List.length listed
    have member : pdx va ∈ dirs.filter fun i => (d.pde i).isNone := by
      simp [inside, missing]
    have counted := Finset.card_erase_add_one member
    unfold Pgdir.missing
    rw [filled, listedLength, ← counted, List.length_cons]
    omega

theorem Pgdir.missing_setPte (d : Pgdir) (va : Nat) (new : Pte)
    (dirs : Finset (Fin npdentries)) : (d.setPte va new).missing dirs = d.missing dirs := by
  have same : ∀ i, ((d.setPte va new).pde i).isNone = (d.pde i).isNone := by
    intro i
    by_cases dir : i = pdx va
    · subst dir
      simp [Pgdir.setPte]
    · simp [Pgdir.setPte, dir]
  simp only [Pgdir.missing, same]

/-- Filling an entry that was not present keeps every present entry. -/
theorem setPte_grows (km : Kmem) {old : Pte} (new : Pte) (bound : va < 2 ^ 32)
    (found : d.pte? va = some old) (absent : old.present = false) :
    Grows km d km (d.setPte va new) := by
  refine ⟨List.suffix_refl _, fun _ _ => rfl, fun vb entry bounded atEntry => ?_, rfl⟩
  rw [Pgdir.lookup_setPte bound bounded found]
  split
  · next page =>
      have shown := Pgdir.lookup_eq_some_iff.mp
        ((Pgdir.lookup_congr d bound bounded page.symm).trans atEntry)
      rw [found, Option.some.injEq] at shown
      rw [shown.1, shown.2] at absent
      cases absent
  · exact atEntry

end Walk

/-! ## The loop of mappages -/

section Loop

variable {perm : Flags}

theorem mappagesLoop_cons {a : Nat} {frame : Frame} {rest : List (Nat × Frame)}
    {km km' : Kmem} {d d' : Pgdir} {done : Bool}
    (ran : mappagesLoop perm ((a, frame) :: rest) km d = .ok (done, km', d')) :
    (walkpgdir km d a true = none ∧ done = false ∧ km' = km ∧ d' = d) ∨
      ∃ pte km₁ d₁, walkpgdir km d a true = some (pte, km₁, d₁) ∧ pte.present = false ∧
        mappagesLoop perm rest km₁ (d₁.setPte a ⟨frame, perm ||| pteP⟩) =
          .ok (done, km', d') := by
  unfold mappagesLoop at ran
  cases walked : walkpgdir km d a true with
  | none =>
      simp only [walked, Except.ok.injEq, Prod.mk.injEq] at ran
      obtain ⟨rfl, rfl, rfl⟩ := ran
      exact .inl ⟨rfl, rfl, rfl, rfl⟩
  | some triple =>
      obtain ⟨pte, km₁, d₁⟩ := triple
      simp only [walked] at ran
      split at ran
      · cases ran
      · next absent =>
          exact .inr ⟨pte, km₁, d₁, rfl, Bool.eq_false_of_not_eq_true absent, ran⟩

theorem mappagesLoop_grows {pages : List (Nat × Frame)} {km km' : Kmem} {d d' : Pgdir}
    {done : Bool} (bounded : ∀ page ∈ pages, page.1 < 2 ^ 32)
    (ran : mappagesLoop perm pages km d = .ok (done, km', d')) : Grows km d km' d' := by
  induction pages generalizing km d with
  | nil =>
      cases ran
      exact Grows.refl _ _
  | cons page rest ih =>
      obtain ⟨a, frame⟩ := page
      rcases mappagesLoop_cons ran with ⟨_, _, rfl, rfl⟩ | ⟨pte, km₁, d₁, walked, absent, ran⟩
      · exact Grows.refl _ _
      · have stored := setPte_grows km₁ ⟨frame, perm ||| pteP⟩
          (bounded (a, frame) (List.mem_cons_self ..)) (walkpgdir_pte? walked) absent
        have others := ih (fun page member => bounded page (List.mem_cons_of_mem _ member)) ran
        exact (walkpgdir_grows walked).trans (stored.trans others)

/-- After a complete run every listed page is present. -/
theorem mappagesLoop_maps {pages : List (Nat × Frame)} {km km' : Kmem} {d d' : Pgdir}
    (bounded : ∀ page ∈ pages, page.1 < 2 ^ 32)
    (ran : mappagesLoop perm pages km d = .ok (true, km', d')) :
    ∀ page ∈ pages, (d'.lookup page.1).isSome = true := by
  induction pages generalizing km d with
  | nil =>
      intro page member
      cases member
  | cons first rest ih =>
      obtain ⟨a, frame⟩ := first
      rcases mappagesLoop_cons ran with ⟨_, impossible, _⟩ | ⟨pte, km₁, d₁, walked, _, later⟩
      · cases impossible
      · have others : ∀ page ∈ rest, page.1 < 2 ^ 32 :=
          fun page member => bounded page (List.mem_cons_of_mem _ member)
        have small := bounded (a, frame) (List.mem_cons_self ..)
        intro page member
        rcases List.mem_cons.mp member with rfl | member
        · have here : (d₁.setPte a ⟨frame, perm ||| pteP⟩).lookup a =
              some ⟨frame, perm ||| pteP⟩ := by
            rw [Pgdir.lookup_setPte small small (walkpgdir_pte? walked), if_pos rfl]
            simp [Option.filter]
          rw [(mappagesLoop_grows others later).kept a _ small here]
          rfl
        · exact ih others later page member

/-- Kernel mappings own their page tables only and show no user entry. -/
theorem mappagesLoop_kernel {pages : List (Nat × Frame)} {km km' : Kmem} {d d' : Pgdir}
    {done : Bool} (kernel : ∀ page ∈ pages, kernbase ≤ page.1 ∧ page.1 < 2 ^ 32)
    (ran : mappagesLoop perm pages km d = .ok (done, km', d')) :
    (km'.freelist : Multiset Frame) + d'.frames = km.freelist + d.frames ∧
      ∀ va, va < kernbase → d'.lookup va = d.lookup va := by
  induction pages generalizing km d with
  | nil =>
      cases ran
      exact ⟨rfl, fun _ _ => rfl⟩
  | cons page rest ih =>
      obtain ⟨a, frame⟩ := page
      rcases mappagesLoop_cons ran with ⟨_, _, rfl, rfl⟩ | ⟨pte, km₁, d₁, walked, absent, ran⟩
      · exact ⟨rfl, fun _ _ => rfl⟩
      · obtain ⟨above, bound⟩ := kernel (a, frame) (List.mem_cons_self ..)
        obtain ⟨conserved, same⟩ :=
          ih (fun page member => kernel page (List.mem_cons_of_mem _ member)) ran
        constructor
        · rw [conserved, Pgdir.setPte_frames_kernel _ bound above, walkpgdir_conserves walked]
        · intro va user
          have apart : va / pgsize ≠ a / pgsize := by
            simp only [kernbase, pgsize] at *
            omega
          rw [same va user, Pgdir.lookup_setPte bound (Nat.lt_trans user (by decide))
            (walkpgdir_pte? walked), if_neg apart, walkpgdir_lookup walked]

/-- Pages that are not in the list are looked up as before. -/
theorem mappagesLoop_others {pages : List (Nat × Frame)} {km km' : Kmem} {d d' : Pgdir}
    {done : Bool} {va : Nat} (bounded : ∀ page ∈ pages, page.1 < 2 ^ 32) (small : va < 2 ^ 32)
    (apart : ∀ page ∈ pages, va / pgsize ≠ page.1 / pgsize)
    (ran : mappagesLoop perm pages km d = .ok (done, km', d')) :
    d'.lookup va = d.lookup va := by
  induction pages generalizing km d with
  | nil =>
      cases ran
      rfl
  | cons page rest ih =>
      obtain ⟨a, frame⟩ := page
      rcases mappagesLoop_cons ran with ⟨_, _, rfl, rfl⟩ | ⟨pte, km₁, d₁, walked, absent, ran⟩
      · rfl
      · rw [ih (fun page member => bounded page (List.mem_cons_of_mem _ member))
            (fun page member => apart page (List.mem_cons_of_mem _ member)) ran,
          Pgdir.lookup_setPte (bounded (a, frame) (List.mem_cons_self ..)) small
            (walkpgdir_pte? walked),
          if_neg (apart (a, frame) (List.mem_cons_self ..)), walkpgdir_lookup walked]

/--
Mapping distinct absent pages succeeds when the free list can supply the
missing page tables, and takes exactly those.
-/
theorem mappagesLoop_succeeds (perm : Flags) (km : Kmem) (pages : List (Nat × Frame)) {d : Pgdir}
    {dirs : Finset (Fin npdentries)}
    (bounded : ∀ page ∈ pages, page.1 < 2 ^ 32 ∧ pdx page.1 ∈ dirs)
    (absent : ∀ page ∈ pages, d.lookup page.1 = none)
    (distinct : (pages.map fun page => page.1 / pgsize).Nodup)
    (enough : d.missing dirs ≤ km.freelist.length) :
    ∃ km' d', mappagesLoop perm pages km d = .ok (true, km', d') ∧
      km'.freelist.length + d.missing dirs = km.freelist.length + d'.missing dirs := by
  induction pages generalizing km d with
  | nil => exact ⟨km, d, rfl, rfl⟩
  | cons page rest ih =>
      obtain ⟨a, frame⟩ := page
      obtain ⟨bound, inside⟩ := bounded (a, frame) (List.mem_cons_self ..)
      have here := absent (a, frame) (List.mem_cons_self ..)
      rw [List.map_cons, List.nodup_cons] at distinct
      cases walked : walkpgdir km d a true with
      | none =>
          -- a missing table and an empty list contradict the supply
          obtain ⟨noTable, empty⟩ := walkpgdir_true_eq_none_iff.mp walked
          have positive : 0 < d.missing dirs :=
            Finset.card_pos.mpr ⟨pdx a, by simp [inside, noTable]⟩
          rw [empty, List.length_nil] at enough
          omega
      | some triple =>
          obtain ⟨pte, km₁, d₁⟩ := triple
          have entry := walkpgdir_pte? walked
          have notPresent : pte.present = false := by
            have seen := walkpgdir_lookup walked a
            rw [here, Pgdir.lookup, entry] at seen
            cases shown : pte.present with
            | false => rfl
            | true => simp [Option.filter, shown] at seen
          have counted := walkpgdir_missing inside walked
          obtain ⟨km', d', ran, balance⟩ := ih km₁
            (d := d₁.setPte a ⟨frame, perm ||| pteP⟩)
            (fun page member => bounded page (List.mem_cons_of_mem _ member))
            (fun page member => by
              have apart : page.1 / pgsize ≠ a / pgsize := fun same =>
                distinct.1 (List.mem_map.mpr ⟨page, member, same⟩)
              rw [Pgdir.lookup_setPte bound
                (bounded page (List.mem_cons_of_mem _ member)).1 entry, if_neg apart,
                walkpgdir_lookup walked]
              exact absent page (List.mem_cons_of_mem _ member))
            distinct.2 (by rw [Pgdir.missing_setPte]; omega)
          refine ⟨km', d', ?_, ?_⟩
          · simp only [mappagesLoop, walked, notPresent, Bool.false_eq_true, if_false]
            exact ran
          · rw [Pgdir.missing_setPte] at balance
            omega

end Loop

/-! ## The pages of one call -/

/-- A range that does not wrap visits exactly the pages from its first to its last. -/
theorem mem_mapAddrs {a last : Nat} {frame : Frame} {page : Nat × Frame} (order : a ≤ last)
    (bound : last < 2 ^ 32) (member : page ∈ mapAddrs a last frame) :
    a ≤ page.1 ∧ page.1 ≤ last := by
  simp only [mapAddrs, List.mem_map, List.mem_range] at member
  obtain ⟨k, small, rfl⟩ := member
  simp only [pgsize] at *
  omega

theorem last_mem_mapAddrs {a last : Nat} (frame : Frame) (order : a ≤ last)
    (bound : last < 2 ^ 32) (whole : (last - a) % pgsize = 0) :
    ∃ page ∈ mapAddrs a last frame, page.1 = last := by
  refine ⟨_, List.mem_map.mpr ⟨(last - a) / pgsize, List.mem_range.mpr ?_, rfl⟩, ?_⟩
  · simp only [pgsize] at *
    omega
  · simp only [pgsize] at *
    omega

theorem mapAddrs_nodup (a last : Nat) (frame : Frame) :
    ((mapAddrs a last frame).map fun page => page.1 / pgsize).Nodup := by
  rw [mapAddrs, List.map_map]
  refine List.Nodup.map_on (fun j left k right same => ?_) List.nodup_range
  simp only [List.mem_range, Function.comp_apply, pgsize] at *
  omega

/-! ## Mapping one user page -/

theorem mappages_page (km : Kmem) (d : Pgdir) {a : Nat} (frame : Frame) (perm : Flags)
    (aligned : a % pgsize = 0) (bound : a < 2 ^ 32) :
    mappages km d a pgsize frame perm = mappagesLoop perm [(a, frame)] km d := by
  have first : pgRoundDown a = a := Nat.div_mul_cancel (Nat.dvd_of_mod_eq_zero aligned)
  have last : pgRoundDown ((a + pgsize + 2 ^ 32 - 1) % 2 ^ 32) = a := by
    change a % 4096 = 0 at aligned
    change (a + 4096 + 4294967296 - 1) % 4294967296 / 4096 * 4096 = a
    change a < 4294967296 at bound
    omega
  have single : (a + 2 ^ 32 - a) % 2 ^ 32 / pgsize + 1 = 1 := by
    rw [Nat.add_sub_cancel_left, Nat.mod_self, Nat.zero_div]
  unfold mappages mapAddrs
  rw [first, last, single]
  simp [Nat.mod_eq_of_lt (show a < 4294967296 from bound)]

end SlabStudy.Xv6
