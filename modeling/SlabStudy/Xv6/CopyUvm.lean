import SlabStudy.Xv6.Setup

/-!
# Copying an address space

`copyuvm` copies two regions, the heap and the stack, page by page into a new
directory.  When it succeeds, each copied page has the flags and the contents
of the original; when memory runs out, everything it took is free again.
-/

namespace SlabStudy.Xv6

/-- Release what a copy has built so far. -/
def copyBad (ld : Linkage) (km : Kmem) (d : Pgdir) : Kern (Option Pgdir × Kmem) := do
  let km ← freevm ld km (some d)
  return (none, km)

/-- The body shared by the two loops of `copyuvm`, over the addresses they visit. -/
def copyPages (ld : Linkage) (pgdir : Pgdir) :
    List Nat → Kmem → Pgdir → Kern (Option Pgdir × Kmem)
  | [], km, d => .ok (some d, km)
  | i :: rest, km, d =>
      match walkpgdir km pgdir i false with
      | none => .error .copyuvmNoPte
      | some (pte, _, _) =>
          if pte.present then
            match mapFresh km d i (fun km mem => km.copyPage mem pte.addr) pte.flags with
            | .error reason => .error reason
            | .ok .noPage => copyBad ld km d
            | .ok (.noTable mem km d) => do
                let km ← kfree ld km mem
                copyBad ld km d
            | .ok (.mapped km d) => copyPages ld pgdir rest km d
          else .error .copyuvmNotPresent

/-- The addresses of the second loop, `psize` pages from the rounded stack bottom. -/
def stackAddrs (psize : Nat) : List Nat :=
  (List.range psize).map fun j =>
    (pgRoundUp (uint (stackbase - pgsize * psize)) + pgsize * j) % 2 ^ 32

/-- Create a copy of a page table for a child. -/
def copyuvm (ld : Linkage) (km : Kmem) (pgdir : Pgdir) (sz psize : Nat) :
    Kern (Option Pgdir × Kmem) := do
  let (made, km) ← setupkvm ld km
  match made with
  | none => return (none, km)
  | some d => copyPages ld pgdir (pageAddrs 0 sz ++ stackAddrs psize) km d

/-- Flags and contents of the page of an address. -/
def Pgdir.view (d : Pgdir) (km : Kmem) (va : Nat) : Option (Flags × Page) :=
  (d.lookup va).map fun pte => (pte.flags, km.mem pte.addr)

/-- The same user pages with the same flags and contents. -/
def SameImage (km : Kmem) (d : Pgdir) (km' : Kmem) (d' : Pgdir) : Prop :=
  ∀ va, va < kernbase → d'.view km' va = d.view km va

/-- The present user pages are the heap and `psize` pages below `KERNBASE`. -/
structure Layout (d : Pgdir) (sz psize : Nat) : Prop where
  heap_le : sz ≤ kernbase
  stack_le : psize * pgsize ≤ kernbase
  exact : ∀ va, va < kernbase →
    ((d.lookup va).isSome = true ↔ va < pgRoundUp sz ∨ kernbase - psize * pgsize ≤ va)

/-! ## The addresses of the two loops -/

/-- The stack bottom is computed with wrap-around, and is right all the same. -/
theorem pgRoundUp_stack {psize : Nat} (fits : psize * pgsize ≤ kernbase) :
    pgRoundUp (uint (stackbase - pgsize * psize)) = kernbase - psize * pgsize := by
  change psize * 4096 ≤ 2147483648 at fits
  change ((((2147483647 : Int) - 4096 * psize) % 4294967296).toNat + 4096 - 1) % 4294967296 /
    4096 * 4096 = 2147483648 - psize * 4096
  omega

theorem mem_stackAddrs {psize a : Nat} (fits : psize * pgsize ≤ kernbase) :
    a ∈ stackAddrs psize ↔ a % pgsize = 0 ∧ kernbase - psize * pgsize ≤ a ∧ a < kernbase := by
  unfold stackAddrs
  rw [pgRoundUp_stack fits]
  simp only [List.mem_map, List.mem_range]
  change psize * 4096 ≤ 2147483648 at fits
  change (∃ j < psize, (2147483648 - psize * 4096 + 4096 * j) % 4294967296 = a) ↔
    a % 4096 = 0 ∧ 2147483648 - psize * 4096 ≤ a ∧ a < 2147483648
  constructor
  · rintro ⟨j, small, rfl⟩
    omega
  · rintro ⟨aligned, low, high⟩
    exact ⟨(a - (2147483648 - psize * 4096)) / 4096, by omega, by omega⟩

theorem stackAddrs_nodup {psize : Nat} (fits : psize * pgsize ≤ kernbase) :
    (stackAddrs psize).Nodup := by
  refine List.Nodup.map_on (fun j left k right same => ?_) List.nodup_range
  rw [List.mem_range] at left right
  rw [pgRoundUp_stack fits] at same
  change psize * 4096 ≤ 2147483648 at fits
  change (2147483648 - psize * 4096 + 4096 * j) % 4294967296 =
    (2147483648 - psize * 4096 + 4096 * k) % 4294967296 at same
  omega

/-- A page is visited exactly when it belongs to the heap or to the stack. -/
theorem mem_copyAddrs {sz psize va : Nat} (heap : sz ≤ kernbase)
    (stack : psize * pgsize ≤ kernbase) (user : va < kernbase) :
    pgRoundDown va ∈ pageAddrs 0 sz ++ stackAddrs psize ↔
      va < pgRoundUp sz ∨ kernbase - psize * pgsize ≤ va := by
  rw [List.mem_append, mem_pageAddrs rfl, mem_stackAddrs stack]
  have rounded := lt_pgRoundUp_iff (pgRoundDown_mod va) heap
  have multiple := pgRoundUp_mod sz
  simp only [pgRoundDown, pgsize, kernbase] at *
  constructor
  · rintro (⟨_, low, _⟩ | ⟨_, low, _⟩)
    · have := rounded.mpr low
      omega
    · omega
  · rintro (low | high)
    · have := rounded.mp (by omega)
      omega
    · omega

/--
`stack_psize` passes the size of the user space by one page at most, and then
the loop starts with the last page of the address space.
-/
theorem stackAddrs_range {psize a : Nat} (bound : psize ≤ 2 ^ 19 + 1)
    (member : a ∈ stackAddrs psize) :
    a % pgsize = 0 ∧ a < 2 ^ 32 ∧ (kernbase ≤ a → a = 2 ^ 32 - pgsize) := by
  change psize ≤ 524289 at bound
  change a % 4096 = 0 ∧ a < 4294967296 ∧ (2147483648 ≤ a → a = 4294963200)
  by_cases fits : psize * pgsize ≤ kernbase
  · obtain ⟨aligned, _, user⟩ := (mem_stackAddrs fits).mp member
    change a % 4096 = 0 at aligned
    change a < 2147483648 at user
    omega
  · have full : psize = 524289 := by
      change ¬ psize * 4096 ≤ 2147483648 at fits
      omega
    subst full
    obtain ⟨j, small, rfl⟩ := List.mem_map.mp member
    rw [List.mem_range] at small
    change (4294963200 + 4096 * j) % 4294967296 % 4096 = 0 ∧
      (4294963200 + 4096 * j) % 4294967296 < 4294967296 ∧
      (2147483648 ≤ (4294963200 + 4096 * j) % 4294967296 →
        (4294963200 + 4096 * j) % 4294967296 = 4294963200)
    omega

theorem last_mem_stackAddrs {psize : Nat} (bound : psize ≤ 2 ^ 19 + 1)
    (large : ¬ psize * pgsize ≤ kernbase) : 2 ^ 32 - pgsize ∈ stackAddrs psize := by
  have full : psize = 524289 := by
    change psize ≤ 524289 at bound
    change ¬ psize * 4096 ≤ 2147483648 at large
    omega
  subst full
  exact List.mem_map.mpr ⟨0, List.mem_range.mpr (by decide), by decide⟩

/-! ## What the copy loop does -/

/-- The listed pages are copied, and every other page of the child is as it was. -/
structure Copied (pgdir : Pgdir) (pages : List Nat) (km : Kmem) (d : Pgdir) (km' : Kmem)
    (d' : Pgdir) : Prop where
  conserved : (km'.freelist : Multiset Frame) + d'.frames = km.freelist + d.frames
  grows : Grows km d km' d'
  user : ∀ a ∈ pages, a < kernbase
  copied : ∀ a ∈ pages, ∃ pte frame, pgdir.lookup a = some pte ∧
    d'.lookup a = some ⟨frame, pte.flags⟩ ∧ km'.mem frame = km.mem pte.addr
  others : ∀ va, va < 2 ^ 32 → pgRoundDown va ∉ pages → d'.lookup va = d.lookup va

section Loop

variable {ld : Linkage} {pgdir d d' : Pgdir} {km km' : Kmem}

/-- Giving up returns every page of the unfinished directory. -/
theorem copyBad_ok {result : Option Pgdir} (valid : ∀ frame ∈ d.frames, frame.Valid ld)
    (ran : copyBad ld km d = .ok (result, km')) :
    result = none ∧ (km'.freelist : Multiset Frame) = km.freelist + d.frames ∧
      ∀ frame, frame ∉ km'.freelist → km'.mem frame = km.mem frame := by
  obtain ⟨km₁, freed, last⟩ := Kern.bind_eq_ok.mp ran
  cases last
  obtain ⟨km₂, freeing, listed, kept⟩ := freevm_ok km valid
  rw [freeing] at freed
  cases freed
  exact ⟨rfl, listed, kept⟩

/-- The page read by a step is present in the original. -/
theorem copyPages_cons {i : Nat} {rest : List Nat} {result : Option Pgdir}
    (ran : copyPages ld pgdir (i :: rest) km d = .ok (result, km')) :
    ∃ pte, pgdir.lookup i = some pte ∧
      match mapFresh km d i (fun km mem => km.copyPage mem pte.addr) pte.flags with
      | .error _ => False
      | .ok .noPage => copyBad ld km d = .ok (result, km')
      | .ok (.noTable mem km₁ d₁) =>
          ∃ km₂, kfree ld km₁ mem = .ok km₂ ∧ copyBad ld km₂ d₁ = .ok (result, km')
      | .ok (.mapped km₁ d₁) => copyPages ld pgdir rest km₁ d₁ = .ok (result, km') := by
  unfold copyPages at ran
  rw [walkpgdir_false] at ran
  cases entry : pgdir.pte? i with
  | none =>
      rw [entry] at ran
      cases ran
  | some pte =>
      rw [entry] at ran
      simp only [Option.map_some] at ran
      cases shown : pte.present with
      | false =>
          rw [shown] at ran
          cases ran
      | true =>
          rw [shown, if_pos rfl] at ran
          refine ⟨pte, Pgdir.lookup_eq_some_iff.mpr ⟨entry, shown⟩, ?_⟩
          cases step : mapFresh km d i (fun km mem => km.copyPage mem pte.addr) pte.flags with
          | error reason =>
              rw [step] at ran
              cases ran
          | ok fresh =>
              rw [step] at ran
              cases fresh with
              | noPage => exact ran
              | noTable mem km₁ d₁ => exact Kern.bind_eq_ok.mp ran
              | mapped km₁ d₁ => exact ran

/-- One copied page followed by the copy of the others. -/
theorem Copied.cons {i : Nat} {rest : List Nat} {km₁ : Kmem} {d₁ : Pgdir} {pte : Pte}
    {frame : Frame} (owned : Owned ld km d) (aligned : i % pgsize = 0) (user : i < kernbase)
    (original : ∀ va entry, va < kernbase → pgdir.lookup va = some entry →
      entry.addr ∉ km.freelist)
    (found : pgdir.lookup i = some pte)
    (mapped : MapsPage km d i pte.flags km₁ d₁ frame)
    (contents : km₁.mem frame = km.mem pte.addr)
    (later : Copied pgdir rest km₁ d₁ km' d') :
    Copied pgdir (i :: rest) km d km' d' := by
  have small : i < 2 ^ 32 := Nat.lt_trans user (by decide)
  have shown := (Pgdir.lookup_eq_some_iff.mp found).2
  have here : d₁.lookup i = some ⟨frame, pte.flags⟩ := by
    rw [mapped.lookup i small, if_pos rfl, Pte.flags_or_pteP shown]
  have stillOwned := owned.of_conserved mapped.conserved
  refine ⟨later.conserved.trans mapped.conserved, mapped.grows.trans later.grows,
    List.forall_mem_cons.mpr ⟨user, later.user⟩, fun a member => ?_,
    fun va bound outside => ?_⟩
  · rcases List.mem_cons.mp member with rfl | member
    · refine ⟨pte, frame, found, later.grows.kept _ _ small here, ?_⟩
      -- the copy belongs to the child by now, so later steps leave it alone
      rw [later.grows.untouched frame
        (stillOwned.notFree (Pgdir.addr_mem_frames user here)), contents]
    · obtain ⟨entry, copy, atParent, atChild, same⟩ := later.copied a member
      refine ⟨entry, copy, atParent, atChild, ?_⟩
      rw [same, mapped.grows.untouched _ (original a entry (later.user a member) atParent)]
  · rw [List.mem_cons, not_or, pgRoundDown_eq_iff aligned] at outside
    rw [later.others va bound outside.2, mapped.lookup va bound, if_neg outside.1]

/--
The loop copies all its pages, or it returns every page to the free list.
Kernel addresses may be among them as long as the child has them already:
`mappages` stops the machine there.
-/
theorem copyPages_cases {pages : List Nat} {result : Option Pgdir} (owned : Owned ld km d)
    (range : ∀ a ∈ pages, a % pgsize = 0 ∧ a < 2 ^ 32)
    (kernel : ∀ a ∈ pages, kernbase ≤ a → (d.lookup a).isSome = true)
    (original : ∀ va entry, va < kernbase → pgdir.lookup va = some entry →
      entry.addr ∉ km.freelist)
    (ran : copyPages ld pgdir pages km d = .ok (result, km')) :
    (∃ d', result = some d' ∧ Copied pgdir pages km d km' d') ∨
      (result = none ∧ (km'.freelist : Multiset Frame) = km.freelist + d.frames ∧
        ∀ frame, frame ∉ km'.freelist → km'.mem frame = km.mem frame) := by
  induction pages generalizing km d with
  | nil =>
      cases ran
      exact .inl ⟨d, rfl, rfl, Grows.refl _ _, List.forall_mem_nil _, List.forall_mem_nil _,
        fun _ _ _ => rfl⟩
  | cons i rest ih =>
      obtain ⟨aligned, bound⟩ := range i (List.mem_cons_self ..)
      obtain ⟨pte, found, ended⟩ := copyPages_cons ran
      have writes := writes_copyPage pte.addr
      cases step : mapFresh km d i (fun km mem => km.copyPage mem pte.addr) pte.flags with
      | error reason =>
          rw [step] at ended
          exact ended.elim
      | ok fresh =>
          rw [step] at ended
          cases fresh with
          | noPage => exact .inr (copyBad_ok owned.validFrames ended)
          | noTable mem km₁ d₁ =>
              obtain ⟨rfl, listed, empty, _, kept⟩ := mapFresh_noTable writes aligned bound step
              obtain ⟨km₂, given, bad⟩ := ended
              obtain ⟨_, added, others⟩ := kfree_eq_ok given
              rw [empty, ← listed] at added
              obtain ⟨rfl, total, untouched⟩ := copyBad_ok owned.validFrames bad
              rw [added] at total
              refine .inr ⟨rfl, total, fun frame used => ?_⟩
              have apart : frame ≠ mem := by
                rintro rfl
                have inside : frame ∈ (km'.freelist : Multiset Frame) := by
                  rw [total, listed]
                  simp
                exact used (Multiset.mem_coe.mp inside)
              rw [untouched frame used, others frame apart, kept frame apart]
          | mapped km₁ d₁ =>
              have user : i < kernbase := by
                by_contra high
                have occupied := kernel i (List.mem_cons_self ..) (Nat.le_of_not_lt high)
                exact absurd step (mapFresh_present aligned bound occupied)
              obtain ⟨frame, km₂, taken, mapped, contents⟩ :=
                mapFresh_mapped writes aligned user step
              have copied : km₁.mem frame = km.mem pte.addr := by
                rw [contents owned.freelist_nodup, Kmem.copyPage_mem_self,
                  (kalloc_eq_some_iff.mp taken).2]
              have stillOwned := owned.of_conserved mapped.conserved
              rcases ih stillOwned (fun a member => range a (List.mem_cons_of_mem _ member))
                (fun a member high => by
                  obtain ⟨entry, seen⟩ := Option.isSome_iff_exists.mp
                    (kernel a (List.mem_cons_of_mem _ member) high)
                  rw [mapped.grows.kept a entry (range a (List.mem_cons_of_mem _ member)).2 seen]
                  rfl)
                (fun va entry below atParent free =>
                  original va entry below atParent (mapped.grows.suffix.subset free)) ended with
                ⟨d', done, later⟩ | ⟨done, total, untouched⟩
              · exact .inl ⟨d', done, Copied.cons owned aligned user original found mapped copied
                  later⟩
              · refine .inr ⟨done, total.trans mapped.conserved, fun frame used => ?_⟩
                have notFree : frame ∉ km.freelist := by
                  intro free
                  have inside : frame ∈ (km'.freelist : Multiset Frame) := by
                    rw [total, mapped.conserved]
                    exact Multiset.mem_add.mpr (.inl (Multiset.mem_coe.mpr free))
                  exact used (Multiset.mem_coe.mp inside)
                rw [untouched frame used, mapped.grows.untouched frame notFree]

/-- Two free pages for each page are enough for the loop. -/
theorem copyPages_succeeds (ld : Linkage) (km : Kmem) (pgdir : Pgdir) {d : Pgdir}
    {pages : List Nat} (range : ∀ a ∈ pages, a % pgsize = 0 ∧ a < kernbase)
    (shown : ∀ a ∈ pages, (pgdir.lookup a).isSome = true)
    (absent : ∀ a ∈ pages, d.lookup a = none) (distinct : pages.Nodup)
    (enough : 2 * pages.length ≤ km.freelist.length) :
    ∃ d' km', copyPages ld pgdir pages km d = .ok (some d', km') := by
  induction pages generalizing km d with
  | nil => exact ⟨d, km, rfl⟩
  | cons i rest ih =>
      obtain ⟨aligned, user⟩ := range i (List.mem_cons_self ..)
      have bound : i < 2 ^ 32 := Nat.lt_trans user (by decide)
      obtain ⟨pte, found⟩ := Option.isSome_iff_exists.mp (shown i (List.mem_cons_self ..))
      obtain ⟨entry, present⟩ := Pgdir.lookup_eq_some_iff.mp found
      have single : d.missing {pdx i} ≤ 1 := Finset.card_filter_le _ _
      rw [List.length_cons] at enough
      rw [List.nodup_cons] at distinct
      obtain ⟨km₁, d₁, step⟩ := mapFresh_succeeds pte.flags
        (writes_copyPage pte.addr) aligned bound (absent i (List.mem_cons_self ..))
        (by omega : 1 + d.missing {pdx i} ≤ km.freelist.length)
      obtain ⟨frame, _, _, mapped, _⟩ :=
        mapFresh_mapped (writes_copyPage pte.addr) aligned user step
      have counted := mapped.counted {pdx i} (Finset.mem_singleton_self _)
      obtain ⟨d', km', ran⟩ := ih km₁ (d := d₁)
        (fun a member => range a (List.mem_cons_of_mem _ member))
        (fun a member => shown a (List.mem_cons_of_mem _ member))
        (fun a member => by
          have inRange := range a (List.mem_cons_of_mem _ member)
          have apart : a / pgsize ≠ i / pgsize := by
            intro same
            have equal : a = i := by
              simp only [pgsize] at *
              omega
            exact distinct.1 (equal ▸ member)
          rw [mapped.lookup a (Nat.lt_trans inRange.2 (by decide)), if_neg apart]
          exact absent a (List.mem_cons_of_mem _ member))
        distinct.2 (by omega)
      refine ⟨d', km', ?_⟩
      unfold copyPages
      rw [walkpgdir_false, entry]
      simp only [Option.map_some, present, if_true, step]
      exact ran

end Loop

/-! ## The whole copy -/

/-- The child owns copies of the heap and stack pages, and nothing else below `KERNBASE`. -/
structure ImageCopied (pgdir : Pgdir) (sz psize : Nat) (km km' : Kmem) (d : Pgdir) : Prop where
  conserved : (km'.freelist : Multiset Frame) + d.frames = km.freelist
  untouched : ∀ frame, frame ∉ km.freelist → km'.mem frame = km.mem frame
  stack_le : psize * pgsize ≤ kernbase
  view : ∀ va, va < kernbase → d.view km' va =
    if va < pgRoundUp sz ∨ kernbase - psize * pgsize ≤ va then pgdir.view km va else none
  present : ∀ va, va < kernbase → (va < pgRoundUp sz ∨ kernbase - psize * pgsize ≤ va) →
    (pgdir.lookup va).isSome = true

section Whole

variable {ld : Linkage} {pgdir d : Pgdir} {km km' km₁ : Kmem} {sz psize : Nat}

/-- A finished loop over heap and stack, started in a directory without user pages. -/
theorem ImageCopied.ofCopied {blank : Pgdir} (heap : sz ≤ kernbase)
    (stack : psize * pgsize ≤ kernbase)
    (original : ∀ va entry, va < kernbase → pgdir.lookup va = some entry →
      entry.addr ∉ km.freelist)
    (made : (km₁.freelist : Multiset Frame) + blank.frames = km.freelist)
    (unmapped : ∀ va, va < kernbase → blank.lookup va = none)
    (shorter : km₁.freelist <:+ km.freelist)
    (kept : ∀ frame, frame ∉ km.freelist → km₁.mem frame = km.mem frame)
    (copied : Copied pgdir (pageAddrs 0 sz ++ stackAddrs psize) km₁ blank km' d) :
    ImageCopied pgdir sz psize km km' d := by
  have visited : ∀ va, va < kernbase → (va < pgRoundUp sz ∨ kernbase - psize * pgsize ≤ va) →
      ∃ pte frame, pgdir.lookup va = some pte ∧ d.lookup va = some ⟨frame, pte.flags⟩ ∧
        km'.mem frame = km.mem pte.addr := by
    intro va user inside
    have small : va < 2 ^ 32 := Nat.lt_trans user (by decide)
    have below : pgRoundDown va ≤ va := Nat.div_mul_le_self _ _
    have samePage : va / pgsize = pgRoundDown va / pgsize :=
      (Nat.mul_div_cancel _ (by decide)).symm
    obtain ⟨pte, frame, atParent, atChild, contents⟩ :=
      copied.copied _ ((mem_copyAddrs heap stack user).mpr inside)
    rw [← Pgdir.lookup_congr _ small (Nat.lt_of_le_of_lt below small) samePage] at atParent atChild
    refine ⟨pte, frame, atParent, atChild, ?_⟩
    rw [contents, kept _ (original va pte user atParent)]
  refine ⟨copied.conserved.trans made, fun frame used => ?_, stack, fun va user => ?_,
    fun va user inside => ?_⟩
  · rw [copied.grows.untouched frame fun free => used (shorter.subset free), kept frame used]
  · by_cases inside : va < pgRoundUp sz ∨ kernbase - psize * pgsize ≤ va
    · obtain ⟨pte, frame, atParent, atChild, contents⟩ := visited va user inside
      rw [if_pos inside, Pgdir.view, Pgdir.view, atParent, atChild]
      simp only [Option.map_some, contents]
    · have outside : pgRoundDown va ∉ pageAddrs 0 sz ++ stackAddrs psize := fun member =>
        inside ((mem_copyAddrs heap stack user).mp member)
      rw [if_neg inside, Pgdir.view,
        copied.others va (Nat.lt_trans user (by decide)) outside, unmapped va user]
      rfl
  · obtain ⟨pte, _, atParent, _⟩ := visited va user inside
    rw [atParent]
    rfl

/-- `copyuvm` copies the whole image, or leaves the same pages free as before. -/
theorem copyuvm_cases {result : Option Pgdir} (free : FreeOk ld km) (heap : sz ≤ kernbase)
    (bound : psize ≤ 2 ^ 19 + 1)
    (original : ∀ va entry, va < kernbase → pgdir.lookup va = some entry →
      entry.addr ∉ km.freelist)
    (ran : copyuvm ld km pgdir sz psize = .ok (result, km')) :
    (∃ d, result = some d ∧ ImageCopied pgdir sz psize km km' d) ∨
      (result = none ∧ (km'.freelist : Multiset Frame) = km.freelist ∧
        ∀ frame, frame ∉ km.freelist → km'.mem frame = km.mem frame) := by
  obtain ⟨⟨made, km₁⟩, setup, tail⟩ := Kern.bind_eq_ok.mp ran
  rcases setupkvm_ok free setup with
    ⟨blank, rfl, total, unmapped, device, shorter, kept⟩ | ⟨rfl, total, kept⟩
  · have owned : Owned ld km₁ blank := by
      refine ⟨?_, ?_⟩
      · rw [total]
        exact Multiset.coe_nodup.mpr free.nodup
      · rw [total]
        exact fun frame member => free.valid frame (Multiset.mem_coe.mp member)
    have range : ∀ a ∈ pageAddrs 0 sz ++ stackAddrs psize,
        a % pgsize = 0 ∧ a < 2 ^ 32 ∧ (kernbase ≤ a → a = 2 ^ 32 - pgsize) := by
      intro a member
      rcases List.mem_append.mp member with inHeap | inStack
      · obtain ⟨_, low, aligned⟩ := (mem_pageAddrs rfl).mp inHeap
        have user : a < kernbase := Nat.lt_of_lt_of_le low heap
        exact ⟨aligned, Nat.lt_trans user (by decide),
          fun high => absurd user (Nat.not_lt.mpr high)⟩
      · exact stackAddrs_range bound inStack
    rcases copyPages_cases owned (fun a member => ⟨(range a member).1, (range a member).2.1⟩)
      (fun a member high => by rw [(range a member).2.2 high]; exact device)
      (fun va entry user found member =>
        original va entry user found (shorter.subset member)) tail with
      ⟨d, rfl, copied⟩ | ⟨rfl, listed, untouched⟩
    · have stack : psize * pgsize ≤ kernbase := by
        by_contra large
        have user := copied.user _ (List.mem_append.mpr (.inr (last_mem_stackAddrs bound large)))
        exact absurd user (by decide)
      exact .inl ⟨d, rfl, .ofCopied heap stack original total unmapped shorter kept copied⟩
    · refine .inr ⟨rfl, listed.trans total, fun frame used => ?_⟩
      have notFree : frame ∉ km'.freelist := by
        intro member
        have inside : frame ∈ (km.freelist : Multiset Frame) := by
          rw [← total, ← listed]
          exact Multiset.mem_coe.mpr member
        exact used (Multiset.mem_coe.mp inside)
      rw [untouched frame notFree, kept frame used]
  · cases tail
    exact .inr ⟨rfl, total, kept⟩

/-- The copy of a process with heap and stack is the same image. -/
theorem ImageCopied.sameImage (copied : ImageCopied pgdir sz psize km km' d)
    (layout : Layout pgdir sz psize) : SameImage km pgdir km' d := by
  intro va user
  rw [copied.view va user]
  split
  · rfl
  · next outside =>
      have absent : pgdir.lookup va = none := Option.not_isSome_iff_eq_none.mp fun present =>
        outside ((layout.exact va user).mp present)
      rw [Pgdir.view, absent]
      rfl

/-- Directories with the same image have the same present pages. -/
theorem SameImage.layout (same : SameImage km pgdir km' d) (layout : Layout pgdir sz psize) :
    Layout d sz psize := by
  refine ⟨layout.heap_le, layout.stack_le, fun va user => ?_⟩
  rw [← layout.exact va user]
  have views := congrArg Option.isSome (same va user)
  simp only [Pgdir.view, Option.isSome_map] at views
  rw [views]

/-- A process with heap and stack is copied when memory is plenty. -/
theorem copyuvm_succeeds (free : FreeOk ld km) (layout : Layout pgdir sz psize)
    (apart : pgRoundUp sz ≤ kernbase - psize * pgsize)
    (enough : 65 + 2 * (pageAddrs 0 sz ++ stackAddrs psize).length ≤ km.freelist.length) :
    ∃ d km', copyuvm ld km pgdir sz psize = .ok (some d, km') := by
  obtain ⟨blank, km₁, setup, few⟩ := setupkvm_succeeds ld (Nat.le_trans (Nat.le_add_right _ _) enough)
  rcases setupkvm_ok free setup with ⟨_, same, _, unmapped, _⟩ | ⟨impossible, _⟩
  · cases same
    have range : ∀ a ∈ pageAddrs 0 sz ++ stackAddrs psize, a % pgsize = 0 ∧ a < kernbase := by
      intro a member
      rcases List.mem_append.mp member with inHeap | inStack
      · obtain ⟨_, low, aligned⟩ := (mem_pageAddrs rfl).mp inHeap
        exact ⟨aligned, Nat.lt_of_lt_of_le low layout.heap_le⟩
      · obtain ⟨aligned, _, user⟩ := (mem_stackAddrs layout.stack_le).mp inStack
        exact ⟨aligned, user⟩
    have whole : ∀ a ∈ pageAddrs 0 sz ++ stackAddrs psize, pgRoundDown a = a := fun a member =>
      Nat.div_mul_cancel (Nat.dvd_of_mod_eq_zero (range a member).1)
    obtain ⟨d, km', ran⟩ := copyPages_succeeds ld km₁ pgdir range
      (fun a member => (layout.exact a (range a member).2).mpr
        ((mem_copyAddrs layout.heap_le layout.stack_le (range a member).2).mp
          ((whole a member).symm ▸ member)))
      (fun a member => unmapped a (range a member).2)
      (List.Nodup.append (pageAddrs_nodup _ _) (stackAddrs_nodup layout.stack_le) (by
        intro a inHeap inStack
        obtain ⟨_, low, _⟩ := (mem_pageAddrs rfl).mp inHeap
        obtain ⟨_, high, _⟩ := (mem_stackAddrs layout.stack_le).mp inStack
        have rounded := le_pgRoundUp layout.heap_le
        omega))
      (by omega)
    refine ⟨d, km', ?_⟩
    unfold copyuvm
    rw [setup]
    exact ran
  · cases impossible

end Whole

end SlabStudy.Xv6
