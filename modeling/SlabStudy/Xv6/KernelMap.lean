import SlabStudy.Xv6.LongArgument

/-!
# The kernel half of every page directory

`setupkvm` maps the rows of `kmap` and nothing else above `KERNBASE`, and no
later operation reaches that half.  The entries of the page directory itself
permit everything, so the entry of the page table decides: none of the kernel
half has the user flag.  Only a copy that follows the null pointer can reach it.
-/

namespace SlabStudy.Xv6

/-! ## What the table prescribes -/

/-- The length of a row, by the subtraction of `setupkvm`. -/
def Kmap.size (row : Kmap) : Nat := (row.physEnd + 2 ^ 32 - row.physStart) % 2 ^ 32

def Kmap.Covers (row : Kmap) (va : Nat) : Prop := row.virt ≤ va ∧ va < row.virt + row.size

instance (row : Kmap) (va : Nat) : Decidable (row.Covers va) :=
  inferInstanceAs (Decidable (_ ∧ _))

/-- The entry that a row prescribes for one of its addresses. -/
def Kmap.pte (row : Kmap) (va : Nat) : Pte :=
  ⟨BitVec.ofNat 20 ((row.physStart + (va - row.virt)) / pgsize), row.perm ||| pteP⟩

/-- The entry that the first row covering an address prescribes. -/
def prescribed (rows : List Kmap) (va : Nat) : Option Pte :=
  (rows.find? fun row => decide (row.Covers va)).map fun row => row.pte va

/-- The kernel half is as `kmap` prescribes. -/
def MapsKernel (ld : Linkage) (d : Pgdir) : Prop :=
  ∀ va, kernbase ≤ va → va < 2 ^ 32 → d.lookup va = prescribed (kmap ld) va

/-- No row gives the user access. -/
theorem kmap_perm {ld : Linkage} {row : Kmap} (member : row ∈ kmap ld) (va : Nat) :
    (row.pte va).user = false := by
  simp only [kmap, List.mem_cons, List.not_mem_nil, or_false] at member
  have data : (pteW ||| pteP) &&& pteU = 0 := by decide +kernel
  have text : (0 ||| pteP) &&& pteU = 0 := by decide +kernel
  have none : (row.perm ||| pteP) &&& pteU = 0 := by
    obtain rfl | rfl | rfl | rfl := member
    · exact data
    · exact text
    · exact data
    · exact data
  rw [Pte.user, Kmap.pte, none]
  rfl

theorem MapsKernel.no_user {ld : Linkage} {d : Pgdir} (maps : MapsKernel ld d) {va : Nat} {pte : Pte}
    (kernel : kernbase ≤ va) (bound : va < 2 ^ 32) (found : d.lookup va = some pte) :
    pte.user = false := by
  rw [maps va kernel bound, prescribed, Option.map_eq_some_iff] at found
  obtain ⟨row, first, rfl⟩ := found
  exact kmap_perm (List.mem_of_find?_eq_some first) va

/-! ## mappages -/

section Loop

variable {perm : Flags} {km km' : Kmem} {d d' : Pgdir}

/-- After a complete run every listed page has its entry. -/
theorem mappagesLoop_entries {pages : List (Nat × Frame)}
    (bounded : ∀ page ∈ pages, page.1 < 2 ^ 32)
    (ran : mappagesLoop perm pages km d = .ok (true, km', d')) :
    ∀ page ∈ pages, d'.lookup page.1 = some ⟨page.2, perm ||| pteP⟩ := by
  induction pages generalizing km d with
  | nil =>
      intro page member
      cases member
  | cons first rest ih =>
      obtain ⟨a, frame⟩ := first
      rcases mappagesLoop_cons ran with ⟨_, impossible, _⟩ | ⟨pte, km₁, d₁, walked, _, later⟩
      · cases impossible
      · have others : ∀ page ∈ rest, page.1 < 2 ^ 32 :=
          fun page member => bounded page (List.mem_cons_of_mem _ member)
        have small := bounded (a, frame) (List.mem_cons_self ..)
        intro page member
        rcases List.mem_cons.mp member with rfl | member
        · have here : (d₁.setPte a ⟨frame, perm ||| pteP⟩).lookup a =
              some ⟨frame, perm ||| pteP⟩ := by
            rw [Pgdir.lookup_setPte small small (walkpgdir_pte? walked), if_pos rfl]
            simp [Option.filter]
          exact (mappagesLoop_grows others later).kept a _ small here
        · exact ih others later page member

/-- Pages that are absent and distinct are not mapped twice. -/
theorem mappagesLoop_returns (perm : Flags) (km : Kmem) {pages : List (Nat × Frame)} {d : Pgdir}
    (bounded : ∀ page ∈ pages, page.1 < 2 ^ 32) (absent : ∀ page ∈ pages, d.lookup page.1 = none)
    (distinct : (pages.map fun page => page.1 / pgsize).Nodup) :
    ∃ result, mappagesLoop perm pages km d = .ok result := by
  induction pages generalizing km d with
  | nil => exact ⟨_, rfl⟩
  | cons page rest ih =>
      obtain ⟨a, frame⟩ := page
      have bound := bounded (a, frame) (List.mem_cons_self ..)
      have here := absent (a, frame) (List.mem_cons_self ..)
      rw [List.map_cons, List.nodup_cons] at distinct
      unfold mappagesLoop
      cases walked : walkpgdir km d a true with
      | none => exact ⟨_, rfl⟩
      | some triple =>
          obtain ⟨pte, km₁, d₁⟩ := triple
          have entry := walkpgdir_pte? walked
          have notPresent : ¬ pte.present = true := by
            intro present
            have seen := walkpgdir_lookup walked a
            rw [here, Pgdir.lookup_eq_some_iff.mpr ⟨entry, present⟩] at seen
            cases seen
          simp only [notPresent]
          refine ih km₁ (fun page member => bounded page (List.mem_cons_of_mem _ member))
            (fun page member => ?_) distinct.2
          have apart : page.1 / pgsize ≠ a / pgsize := fun same =>
            distinct.1 (List.mem_map.mpr ⟨page, member, same⟩)
          rw [Pgdir.lookup_setPte bound (bounded page (List.mem_cons_of_mem _ member)) entry,
            if_neg apart, walkpgdir_lookup walked]
          exact absent page (List.mem_cons_of_mem _ member)

end Loop

/-! ## setupkvm -/

section Setup

variable {ld : Linkage} {km km' : Kmem} {d d' : Pgdir} {row : Kmap} {last : Nat}

/-- A row of whole pages, from its first to its last one. -/
structure Kmap.Whole (row : Kmap) (last : Nat) : Prop extends row.Spans last where
  virt : row.virt % pgsize = 0
  phys : row.physStart % pgsize = 0
  sized : last + pgsize = row.virt + row.size

theorem kmap_whole (ld : Linkage) : List.Forall₂ Kmap.Whole (kmap ld) (kmapLasts ld) := by
  have aligned : ld.data % 4096 = 0 := ld.data_aligned
  have low : 0x80100000 < ld.data := ld.kernlink_lt_data
  have high : ld.data < 0x8E000000 := Nat.lt_of_le_of_lt ld.data_le_end ld.end_lt
  have spans := kmap_spans ld
  unfold kmap kmapLasts at spans ⊢
  rw [List.forall₂_cons, List.forall₂_cons, List.forall₂_cons, List.forall₂_cons] at spans
  obtain ⟨first, second, third, fourth, -⟩ := spans
  refine .cons ⟨first, by decide, by decide, by decide⟩
    (.cons ⟨second, (rfl : kernlink % pgsize = 0), (rfl : extmem % pgsize = 0), ?_⟩ (.cons ⟨third, aligned, ?_, ?_⟩
      (.cons ⟨fourth, by decide, by decide, by decide⟩ .nil)))
  · change ld.data - 4096 + 4096 =
      0x80100000 + (ld.data - 0x80000000 + 4294967296 - 0x100000) % 4294967296
    omega
  · change (ld.data - 0x80000000) % 4096 = 0
    omega
  · change 0x8E000000 - 4096 + 4096 =
      ld.data + (0xE000000 + 4294967296 - (ld.data - 0x80000000)) % 4294967296
    omega

/-- The pages of a row with their frames. -/
theorem Kmap.Whole.page (whole : row.Whole last) {va : Nat} (covers : row.Covers va) :
    (pgRoundDown va, BitVec.ofNat 20 ((row.physStart + (va - row.virt)) / pgsize)) ∈
      mapAddrs row.virt last (BitVec.ofNat 20 (row.physStart / pgsize)) := by
  obtain ⟨low, high⟩ := covers
  have virt := whole.virt
  have phys := whole.phys
  have sized := whole.sized
  have bound := whole.bound
  have order := whole.order
  have aligned := whole.toSpans.whole
  refine List.mem_map.mpr ⟨(va - row.virt) / pgsize, List.mem_range.mpr ?_, ?_⟩
  · simp only [pgsize] at *
    omega
  · rw [← BitVec.ofNat_add]
    refine Prod.ext ?_ (congrArg (BitVec.ofNat 20) ?_)
    · simp only [pgRoundDown, pgsize] at *
      omega
    · simp only [pgsize] at *
      omega

/-- The addresses of a row are those of its pages. -/
theorem Kmap.Whole.covers (whole : row.Whole last) {va : Nat} {page : Nat × Frame}
    (member : page ∈ mapAddrs row.virt last (BitVec.ofNat 20 (row.physStart / pgsize)))
    (same : va / pgsize = page.1 / pgsize) : row.Covers va := by
  obtain ⟨low, high⟩ := mem_mapAddrs whole.order whole.bound member
  have virt := whole.virt
  have sized := whole.sized
  have aligned := whole.toSpans.whole
  unfold Covers
  simp only [pgsize] at *
  omega

/-- The directory after one row. -/
theorem Kmap.Whole.lookup (whole : row.Whole last) (ran : row.map km d = .ok (true, km', d'))
    {va : Nat} (bound : va < 2 ^ 32) :
    d'.lookup va = if row.Covers va then some (row.pte va) else d.lookup va := by
  rw [whole.pages] at ran
  have small := fun page member => (whole.toSpans.kernel page member).2
  split
  · next covers =>
      have entry := mappagesLoop_entries small ran _ (whole.page covers)
      have start := small _ (whole.page covers)
      have page : va / pgsize = pgRoundDown va / pgsize := by
        simp only [pgRoundDown, pgsize]
        omega
      rw [Pgdir.lookup_congr d' bound start page]
      exact entry
  · next outside =>
      exact mappagesLoop_others small bound
        (fun page member same => outside (whole.covers member same)) ran

/-- Rows that do not overlap are all there in the end. -/
theorem setupkvmLoop_lookup {rows : List Kmap} {lasts : List Nat}
    (whole : List.Forall₂ Kmap.Whole rows lasts)
    (apart : rows.Pairwise fun row other => ∀ va, row.Covers va → ¬ other.Covers va)
    (ran : setupkvmLoop ld rows km d = .ok (some d', km')) {va : Nat} (bound : va < 2 ^ 32) :
    d'.lookup va = (prescribed rows va).or (d.lookup va) := by
  induction whole generalizing km d with
  | nil =>
      cases ran
      rfl
  | @cons row last rows lasts here _ ih =>
      rw [List.pairwise_cons] at apart
      obtain ⟨⟨done, km₁, d₁⟩, mapped, tail⟩ := Kern.bind_eq_ok.mp ran
      cases done with
      | false =>
          obtain ⟨_, _, impossible⟩ := Kern.bind_eq_ok.mp tail
          cases impossible
      | true =>
          rw [ih apart.2 tail, here.lookup mapped bound]
          by_cases covers : row.Covers va
          · have others : rows.find? (fun other => decide (other.Covers va)) = none := by
              refine List.find?_eq_none.mpr fun other member => ?_
              simpa using apart.1 other member va covers
            simp [prescribed, others, covers]
          · simp [prescribed, covers]

theorem kmap_apart (ld : Linkage) :
    (kmap ld).Pairwise fun row other => ∀ va, row.Covers va → ¬ other.Covers va := by
  have low : 0x80100000 < ld.data := ld.kernlink_lt_data
  have high : ld.data < 0x8E000000 := Nat.lt_of_le_of_lt ld.data_le_end ld.end_lt
  have first (va : Nat) : Kmap.Covers ⟨kernbase, 0, extmem, pteW⟩ va →
      va < 0x80100000 := fun covers => covers.2
  have second (va : Nat) : Kmap.Covers ⟨kernlink, kernlink - kernbase, ld.data - kernbase, 0⟩ va →
      0x80100000 ≤ va ∧ va < ld.data := by
    rintro ⟨start, stop⟩
    change va < 0x80100000 + (ld.data - 0x80000000 + 4294967296 - 0x100000) % 4294967296 at stop
    exact ⟨start, by omega⟩
  have third (va : Nat) : Kmap.Covers ⟨ld.data, ld.data - kernbase, phystop, pteW⟩ va →
      ld.data ≤ va ∧ va < 0x8E000000 := by
    rintro ⟨start, stop⟩
    change ld.data ≤ va at start
    change va < ld.data + (0xE000000 + 4294967296 - (ld.data - 0x80000000)) % 4294967296 at stop
    exact ⟨start, by omega⟩
  have fourth (va : Nat) : Kmap.Covers ⟨devspace, devspace, 0, pteW⟩ va → 0xFE000000 ≤ va :=
    fun covers => covers.1
  unfold kmap
  simp only [List.pairwise_cons, List.mem_cons, List.not_mem_nil, or_false, forall_eq_or_imp,
    forall_eq]
  refine ⟨⟨fun va here there => ?_, fun va here there => ?_, fun va here there => ?_⟩,
    ⟨fun va here there => ?_, fun va here there => ?_⟩, fun va here there => ?_, ?_⟩
  · have := first va here
    have := second va there
    omega
  · have := first va here
    have := third va there
    omega
  · have := first va here
    have := fourth va there
    omega
  · have := second va here
    have := third va there
    omega
  · have := second va here
    have := fourth va there
    omega
  · have := third va here
    have := fourth va there
    omega
  · simp

/-- A directory that `setupkvm` returns maps the kernel. -/
theorem setupkvm_maps (ran : setupkvm ld km = .ok (some d, km')) : MapsKernel ld d := by
  intro va _ bound
  unfold setupkvm at ran
  split at ran
  · cases ran
  · rw [if_neg (by decide)] at ran
    rw [setupkvmLoop_lookup (kmap_whole ld) (kmap_apart ld) ran bound]
    have blank (frame : Frame) : (Pgdir.mk frame fun _ => none).lookup va = none := rfl
    rw [blank, Option.or_none]

/-! ## setupkvm maps no page twice -/

theorem kfree_error {frame : Frame} {reason : Panic} (stops : kfree ld km frame = .error reason) :
    reason = .kfree := by
  unfold kfree at stops
  split at stops
  · cases stops
  · cases stops
    rfl

theorem deallocuvmLoop_error {oldsz a : Nat} {reason : Panic}
    (stops : deallocuvmLoop ld oldsz a km d = .error reason) : reason = .kfree := by
  fun_induction deallocuvmLoop ld oldsz a km d with
  | case1 _ _ _ _ _ ih => exact ih stops
  | case2 =>
      cases stops
      rfl
  | case3 _ _ _ _ _ _ _ _ _ _ _ failed =>
      cases stops
      exact kfree_error failed
  | case4 _ _ _ _ _ _ _ _ _ _ _ _ ih => exact ih stops
  | case5 _ _ _ _ _ _ _ _ _ ih => exact ih stops
  | case6 => cases stops

theorem freeTables_error {entries : List (Fin npdentries)} {reason : Panic}
    (stops : freeTables ld d entries km = .error reason) : reason = .kfree := by
  induction entries generalizing km with
  | nil => cases stops
  | cons i rest ih =>
      unfold freeTables at stops
      split at stops
      · exact ih stops
      · obtain freed | ⟨_, _, later⟩ := Kern.bind_eq_error.mp stops
        · exact kfree_error freed
        · exact ih later

theorem deallocuvm_error {oldsz newsz : Nat} {reason : Panic}
    (stops : deallocuvm ld km d oldsz newsz = .error reason) : reason = .kfree := by
  unfold deallocuvm at stops
  split at stops
  · cases stops
  · obtain loop | ⟨_, _, impossible⟩ := Kern.bind_eq_error.mp stops
    · exact deallocuvmLoop_error loop
    · cases impossible

/-- Releasing a directory stops the machine only by a bad page. -/
theorem freevm_error {reason : Panic} (stops : freevm ld km (some d) = .error reason) :
    reason = .kfree := by
  obtain freed | ⟨_, _, tail⟩ := Kern.bind_eq_error.mp stops
  · exact deallocuvm_error freed
  · obtain tables | ⟨_, _, last⟩ := Kern.bind_eq_error.mp tail
    · exact freeTables_error tables
    · exact kfree_error last

theorem setupkvmLoop_no_remap {rows : List Kmap} {lasts : List Nat}
    (whole : List.Forall₂ Kmap.Whole rows lasts)
    (apart : rows.Pairwise fun row other => ∀ va, row.Covers va → ¬ other.Covers va)
    (absent : ∀ row ∈ rows, ∀ va, row.Covers va → va < 2 ^ 32 → d.lookup va = none) :
    setupkvmLoop ld rows km d ≠ .error .remap := by
  induction whole generalizing km d with
  | nil => exact fun impossible => by cases impossible
  | @cons row last rows lasts here _ ih =>
      rw [List.pairwise_cons] at apart
      have small := fun page member => (here.toSpans.kernel page member).2
      obtain ⟨⟨done, km₁, d₁⟩, mapped⟩ := mappagesLoop_returns row.perm km small
        (fun page member => absent row List.mem_cons_self _ (here.covers member rfl)
          (small page member)) (mapAddrs_nodup _ _ _)
      have mapped : row.map km d = .ok (done, km₁, d₁) := (here.pages km d).trans mapped
      rw [setupkvmLoop, mapped]
      cases done with
      | false =>
          intro stops
          have undone : (do
              let km ← freevm ld km₁ (some d₁)
              return (none, km) : Kern (Option Pgdir × Kmem)) = .error .remap := stops
          obtain freed | ⟨_, _, impossible⟩ := Kern.bind_eq_error.mp undone
          · cases freevm_error freed
          · cases impossible
      | true =>
          refine ih apart.2 fun other member va covers bound => ?_
          rw [here.lookup mapped bound, if_neg fun first => apart.1 other member va first covers]
          exact absent other (List.mem_cons_of_mem _ member) va covers bound

theorem setupkvm_no_remap (ld : Linkage) (km : Kmem) : setupkvm ld km ≠ .error .remap := by
  unfold setupkvm
  split
  · exact fun impossible => by cases impossible
  · rw [if_neg (by decide)]
    exact setupkvmLoop_no_remap (kmap_whole ld) (kmap_apart ld) fun _ _ _ _ _ => rfl

end Setup

/-! ## The operations on the user half -/

section User

variable {ld : Linkage} {km km' : Kmem} {d d' : Pgdir}

/-- The two directories have the same kernel half. -/
def SameKernel (d d' : Pgdir) : Prop :=
  ∀ va, kernbase ≤ va → va < 2 ^ 32 → d'.lookup va = d.lookup va

theorem SameKernel.refl (d : Pgdir) : SameKernel d d := fun _ _ _ => rfl

theorem SameKernel.trans {d'' : Pgdir} (first : SameKernel d d') (second : SameKernel d' d'') :
    SameKernel d d'' :=
  fun va kernel bound => (second va kernel bound).trans (first va kernel bound)

theorem SameKernel.maps (same : SameKernel d d') (maps : MapsKernel ld d) : MapsKernel ld d' :=
  fun va kernel bound => (same va kernel bound).trans (maps va kernel bound)

/-- A page of the user half is no page of the kernel half. -/
theorem page_apart {a va : Nat} (user : a < kernbase) (kernel : kernbase ≤ va) :
    va / pgsize ≠ a / pgsize := by
  simp only [kernbase, pgsize] at *
  omega

theorem MapsPage.sameKernel {a : Nat} {perm : Flags} {frame : Frame}
    (mapped : MapsPage km d a perm km' d' frame) (user : a < kernbase) : SameKernel d d' := by
  intro va kernel bound
  rw [mapped.lookup va bound, if_neg (page_apart user kernel)]

theorem deallocuvmLoop_sameKernel {oldsz a : Nat} (limit : oldsz ≤ kernbase)
    (ran : deallocuvmLoop ld oldsz a km d = .ok (km', d')) : SameKernel d d' := by
  fun_induction deallocuvmLoop ld oldsz a km d with
  | case1 _ _ _ _ _ ih => exact ih ran
  | case2 => cases ran
  | case3 => cases ran
  | case4 a km d below pte _ _ walked _ _ _ _ ih =>
      have user : a < kernbase := Nat.lt_of_lt_of_le below limit
      have found : d.pte? a = some pte := by
        rw [walkpgdir_false, Option.map_eq_some_iff] at walked
        obtain ⟨entry, here, same⟩ := walked
        cases same
        exact here
      refine SameKernel.trans (fun va kernel bound => ?_) (ih ran)
      rw [Pgdir.lookup_setPte (Nat.lt_trans user (by decide)) bound found,
        if_neg (page_apart user kernel)]
  | case5 _ _ _ _ _ _ _ _ _ ih => exact ih ran
  | case6 =>
      cases ran
      exact .refl _

theorem deallocuvm_sameKernel {oldsz newsz result : Nat} (limit : oldsz ≤ kernbase)
    (ran : deallocuvm ld km d oldsz newsz = .ok (result, km', d')) : SameKernel d d' := by
  unfold deallocuvm at ran
  split at ran
  · cases ran
    exact .refl _
  · obtain ⟨⟨km₁, d₁⟩, loop, last⟩ := Kern.bind_eq_ok.mp ran
    cases last
    exact deallocuvmLoop_sameKernel limit loop

theorem allocuvmLoop_sameKernel {oldsz newsz result : Nat} {pages : List Nat}
    (limit : newsz ≤ kernbase) (range : ∀ a ∈ pages, a % pgsize = 0 ∧ a < newsz)
    (ran : allocuvmLoop ld oldsz newsz pages km d = .ok (result, km', d')) : SameKernel d d' := by
  induction pages generalizing km d with
  | nil =>
      cases ran
      exact .refl _
  | cons a rest ih =>
      obtain ⟨aligned, high⟩ := range a (List.mem_cons_self ..)
      have user : a < kernbase := Nat.lt_of_lt_of_le high limit
      have bound : a < 2 ^ 32 := Nat.lt_trans user (by decide)
      unfold allocuvmLoop at ran
      cases step : mapFresh km d a (fun km mem => km.fill mem 0) (pteW ||| pteU) with
      | error reason =>
          rw [step] at ran
          cases ran
      | ok fresh =>
          rw [step] at ran
          cases fresh with
          | noPage =>
              obtain ⟨triple, freed, last⟩ := Kern.bind_eq_ok.mp ran
              cases last
              exact deallocuvm_sameKernel limit freed
          | noTable mem km₁ d₁ =>
              obtain ⟨rfl, _⟩ := mapFresh_noTable (writes_fill 0) aligned bound step
              obtain ⟨triple, freed, tail⟩ := Kern.bind_eq_ok.mp ran
              obtain ⟨_, _, last⟩ := Kern.bind_eq_ok.mp tail
              cases last
              exact deallocuvm_sameKernel limit freed
          | mapped km₁ d₁ =>
              obtain ⟨frame, _, _, mapped, _⟩ := mapFresh_mapped (writes_fill 0) aligned user step
              exact (mapped.sameKernel user).trans
                (ih (fun b member => range b (List.mem_cons_of_mem _ member)) ran)

theorem allocuvm_sameKernel {oldsz newsz result : Nat}
    (ran : allocuvm ld km d oldsz newsz = .ok (result, km', d')) : SameKernel d d' := by
  unfold allocuvm at ran
  split at ran
  · cases ran
    exact .refl _
  · next low =>
      split at ran
      · cases ran
        exact .refl _
      · refine allocuvmLoop_sameKernel (Nat.le_of_not_le low) (fun a member => ?_) ran
        obtain ⟨_, below, aligned⟩ := (mem_pageAddrs (pgRoundUp_mod oldsz)).mp member
        exact ⟨aligned, below⟩

theorem inituvm_sameKernel {init : List UInt8} (ran : inituvm km d init = .ok (km', d')) :
    SameKernel d d' := by
  obtain ⟨frame, ⟨mem, mapped⟩ | ⟨_, rfl, _⟩⟩ := inituvm_cases ran
  · exact mapped.sameKernel (by decide)
  · exact .refl _

/-- A copy reaches no page of the kernel half: what the original has there, the copy has too. -/
theorem copyPages_sameKernel {pgdir : Pgdir} {pages : List Nat} (source : MapsKernel ld pgdir)
    (maps : MapsKernel ld d) (range : ∀ a ∈ pages, a % pgsize = 0 ∧ a < 2 ^ 32)
    (ran : copyPages ld pgdir pages km d = .ok (some d', km')) : MapsKernel ld d' := by
  induction pages generalizing km d with
  | nil =>
      cases ran
      exact maps
  | cons i rest ih =>
      obtain ⟨aligned, bound⟩ := range i (List.mem_cons_self ..)
      unfold copyPages at ran
      cases walked : walkpgdir km pgdir i false with
      | none =>
          rw [walked] at ran
          cases ran
      | some triple =>
          obtain ⟨pte, km₁, d₁⟩ := triple
          rw [walked] at ran
          simp only at ran
          split at ran
          · next present =>
              have found : pgdir.lookup i = some pte := by
                rw [walkpgdir_false, Option.map_eq_some_iff] at walked
                obtain ⟨entry, here, same⟩ := walked
                cases same
                exact Pgdir.lookup_eq_some_iff.mpr ⟨here, present⟩
              cases step : mapFresh km d i (fun km mem => km.copyPage mem pte.addr) pte.flags with
              | error reason =>
                  rw [step] at ran
                  cases ran
              | ok fresh =>
                  rw [step] at ran
                  cases fresh with
                  | noPage =>
                      obtain ⟨_, _, last⟩ := Kern.bind_eq_ok.mp ran
                      cases last
                  | noTable mem km₂ d₂ =>
                      obtain ⟨_, _, tail⟩ := Kern.bind_eq_ok.mp ran
                      obtain ⟨_, _, last⟩ := Kern.bind_eq_ok.mp tail
                      cases last
                  | mapped km₂ d₂ =>
                      have user : i < kernbase := by
                        by_contra high
                        have kernel := Nat.le_of_not_lt high
                        refine mapFresh_present aligned bound ?_ step
                        rw [maps i kernel bound, ← source i kernel bound, found]
                        rfl
                      obtain ⟨frame, _, _, mapped, _⟩ :=
                        mapFresh_mapped (writes_copyPage pte.addr) aligned user step
                      exact ih ((mapped.sameKernel user).maps maps)
                        (fun b member => range b (List.mem_cons_of_mem _ member)) ran
          · cases ran

theorem copyuvm_maps {pgdir : Pgdir} {sz psize : Nat} (source : MapsKernel ld pgdir)
    (word : sz < 2 ^ 32) (ran : copyuvm ld km pgdir sz psize = .ok (some d', km')) :
    MapsKernel ld d' := by
  obtain ⟨⟨made, km₁⟩, setup, tail⟩ := Kern.bind_eq_ok.mp ran
  cases made with
  | none => cases tail
  | some blank =>
      refine copyPages_sameKernel source (setupkvm_maps setup) (fun a member => ?_) tail
      rcases List.mem_append.mp member with inHeap | inStack
      · obtain ⟨_, low, aligned⟩ := (mem_pageAddrs rfl).mp inHeap
        exact ⟨aligned, Nat.lt_trans low word⟩
      · obtain ⟨j, _, rfl⟩ := List.mem_map.mp inStack
        have rounded := pgRoundUp_mod (uint (stackbase - pgsize * psize))
        simp only [pgsize] at *
        omega

end User

/-! ## Every page directory -/

/-- A call of `copyout`, with the entry that it reads through the null pointer. -/
structure CopyCall where
  null : Option Pte
  d : Pgdir
  va : Nat
  bytes : List UInt8
  km : Kmem

/-- The call comes to an address without a page table, and the word at user address 0 is absent, or
it is an entry of a user page, and the call stores into this page. -/
def CopyCall.Strays (call : CopyCall) : Prop :=
  ¬Quiet call.null ∧ copyout none call.d call.va call.bytes call.km = .error .nullPointer

/-- A call that does not leaves the directory alone. -/
theorem CopyCall.keeps {call : CopyCall} (careful : ¬call.Strays) {copied : Bool} {km' : Kmem}
    {d' : Pgdir}
    (ran : copyout call.null call.d call.va call.bytes call.km = .ok (copied, km', d')) :
    d' = call.d := by
  by_cases quiet : Quiet call.null
  · exact copyout_keeps quiet ran
  · have stays : copyout none call.d call.va call.bytes call.km ≠ .error .nullPointer :=
      fun stops => careful ⟨quiet, stops⟩
    rw [copyout_agrees call.null stays, ← copyout_agrees (some (.ofWord 0)) stays] at ran
    exact copyout_keeps quiet_zero ran

/-- The page directories that the kernel works with: they come from `setupkvm` or `copyuvm`, and
are passed to the operations on the user half, and to those calls of `copyout` that are allowed.
No call gives `deallocuvm` a size above `KERNBASE`: the callers pass the size of a process, a
size that `allocuvm` has accepted, and `KERNBASE` itself. -/
inductive PageDirectory (ld : Linkage) (allowed : CopyCall → Prop) : Pgdir → Prop where
  | setupkvm {km km' : Kmem} {d : Pgdir} (ran : setupkvm ld km = .ok (some d, km')) :
      PageDirectory ld allowed d
  | inituvm {km km' : Kmem} {d d' : Pgdir} {init : List UInt8}
      (before : PageDirectory ld allowed d) (ran : inituvm km d init = .ok (km', d')) :
      PageDirectory ld allowed d'
  | allocuvm {km km' : Kmem} {d d' : Pgdir} {oldsz newsz result : Nat}
      (before : PageDirectory ld allowed d)
      (ran : allocuvm ld km d oldsz newsz = .ok (result, km', d')) : PageDirectory ld allowed d'
  | deallocuvm {km km' : Kmem} {d d' : Pgdir} {oldsz newsz result : Nat}
      (before : PageDirectory ld allowed d) (limit : oldsz ≤ kernbase)
      (ran : deallocuvm ld km d oldsz newsz = .ok (result, km', d')) : PageDirectory ld allowed d'
  -- `loaduvm` reads the directory and stores only into its pages
  | loaduvm {km km' : Kmem} {d : Pgdir} {read : Readi} {addr offset sz : Nat} {loaded : Bool}
      (before : PageDirectory ld allowed d)
      (ran : loaduvm read d addr offset sz km = .ok (loaded, km')) : PageDirectory ld allowed d
  | copyout {call : CopyCall} {km' : Kmem} {d' : Pgdir} {copied : Bool}
      (before : PageDirectory ld allowed call.d) (allows : allowed call)
      (ran : copyout call.null call.d call.va call.bytes call.km = .ok (copied, km', d')) :
      PageDirectory ld allowed d'
  | copyuvm {km km' : Kmem} {d d' : Pgdir} {sz psize : Nat} (before : PageDirectory ld allowed d)
      (word : sz < 2 ^ 32) (ran : copyuvm ld km d sz psize = .ok (some d', km')) :
      PageDirectory ld allowed d'

theorem PageDirectory.maps {ld : Linkage} {d : Pgdir}
    (made : PageDirectory ld (fun call => ¬call.Strays) d) : MapsKernel ld d := by
  induction made with
  | setupkvm ran => exact setupkvm_maps ran
  | inituvm _ ran ih => exact (inituvm_sameKernel ran).maps ih
  | allocuvm _ ran ih => exact (allocuvm_sameKernel ran).maps ih
  | deallocuvm _ limit ran ih => exact (deallocuvm_sameKernel limit ran).maps ih
  | loaduvm _ _ ih => exact ih
  | copyout _ careful ran ih =>
      rw [CopyCall.keeps careful ran]
      exact ih
  | copyuvm _ word ran ih => exact copyuvm_maps ih word ran

/-- Every page directory maps the kernel as `kmap` says and shows none of it to the user, unless
a copy has stored through the null pointer or faulted at it, and setting one up never maps a page
twice. -/
theorem kernel_mapped (ld : Linkage) :
    (∀ d, PageDirectory ld (fun call => ¬call.Strays) d →
      ∀ va, kernbase ≤ va → va < 2 ^ 32 →
        d.lookup va = prescribed (kmap ld) va ∧
          ∀ pte, d.lookup va = some pte → pte.user = false) ∧
    ∀ km, setupkvm ld km ≠ .error .remap :=
  ⟨fun _ made va kernel bound => ⟨made.maps va kernel bound,
    fun _ found => made.maps.no_user kernel bound found⟩, setupkvm_no_remap ld⟩

/-- A directory of a small machine, at the first kernel address. -/
theorem sample_kernel_mapped : ∃ d, PageDirectory sampleLinkage (fun call => ¬call.Strays) d ∧
    d.lookup kernbase = prescribed (kmap sampleLinkage) kernbase := by
  obtain ⟨d, km, ran, -⟩ := setupkvm_succeeds sampleLinkage
    (sampleKmem_length 65).ge
  have made : PageDirectory sampleLinkage (fun call => ¬call.Strays) d := .setupkvm ran
  exact ⟨d, made, ((kernel_mapped sampleLinkage).1 d made kernbase le_rfl (by decide)).1⟩

/-- The word names the first page table of the kernel: the long argument of an `exec` takes the
last entry out of it. -/
theorem kernel_unmapped : ¬∀ d, PageDirectory sampleLinkage (fun _ => True) d →
    ∀ va, kernbase ≤ va → va < 2 ^ 32 → d.lookup va = prescribed (kmap sampleLinkage) va := by
  intro all
  have free := sampleKmem_free (by decide : 67 ≤ 0x1000)
  obtain ⟨d, km, ran, left⟩ := setupkvm_succeeds sampleLinkage
    (by rw [sampleKmem_length]; decide : 65 ≤ (sampleKmem 67).freelist.length)
  rw [sampleKmem_length] at left
  obtain ⟨page, table, rest, listed⟩ := freelist_two (by omega : 2 ≤ km.freelist.length)
  have none (i : Fin npdentries) (user : i.val < 512) := setupkvm_pde user ran
  obtain ⟨km', grown, _⟩ := allocuvm_stack sampleLinkage listed (none _ (by decide))
  have made : PageDirectory sampleLinkage (fun _ => True) (d.withStack page table) :=
    .allocuvm (.setupkvm ran) grown
  have shown : prescribed (kmap sampleLinkage) 0x803ff000 ≠ Option.none := by decide +kernel
  have mapped := all _ made 0x803ff000 (by decide) (by decide)
  obtain ⟨pte, found⟩ := Option.ne_none_iff_exists'.mp (mapped ▸ shown)
  have entry := (Pgdir.lookup_eq_some_iff.mp found).1
  obtain ⟨tab, here, _⟩ := Option.map_eq_some_iff.mp entry
  have nodup : (d.withStack page table).frames.Nodup := by
    rcases setupkvm_ok free ran with ⟨_, same, total, _⟩ | ⟨impossible, _⟩
    · cases same
      have all := Multiset.coe_nodup.mpr free.nodup
      rw [← total] at all
      exact (Multiset.nodup_add.mp (Pgdir.withStack_nodup (none _ (by decide)) listed all)).2.1
    · cases impossible
  have strike : (d.withStack page table).strike tab.frame 4092 [66, 66, 66, 66] =
      some ((d.withStack page table).setPte 0x803ff000 argumentEntry) :=
    Pgdir.strike_entry nodup here (by decide) rfl (struck_argument _) (by decide)
  have next : ((d.withStack page table).setPte 0x803ff000 argumentEntry).pte? 0x7fc00000 =
      some Pte.zero := by
    rw [Pgdir.pte?_setPte_other _ (by decide) (by decide) (by decide), Pgdir.withStack_pte?]
  have missing : (d.withStack page table).pte? 0x7fbffffc = Option.none := by
    unfold Pgdir.pte?
    rw [Pgdir.withStack_pde (by decide), none _ (by decide)]
    rfl
  let call : CopyCall :=
    ⟨some tab.frame.userEntry, d.withStack page table, 0x7fbffffc, longArgument ++ [0], km'⟩
  have copied : copyout call.null call.d call.va call.bytes call.km =
      .ok (false, km', (d.withStack page table).setPte 0x803ff000 argumentEntry) :=
    copyout_longArgument rfl tab.frame.userEntry_allowed missing strike next rfl
  have struck := all _ (.copyout made trivial copied) 0x803ff000 (by decide) (by decide)
  rw [Pgdir.lookup_setPte (by decide) (by decide) entry, if_pos rfl] at struck
  exact shown struck.symm

-- the size of the last row wraps around to reach the end of the address space
example : prescribed (kmap sampleLinkage) 0xFFFFFFFF = some ⟨0xFFFFF, pteW ||| pteP⟩ := by
  decide +kernel

end SlabStudy.Xv6
