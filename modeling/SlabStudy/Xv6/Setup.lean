import SlabStudy.Xv6.Alloc

/-!
# The kernel half of an address space

`setupkvm` builds a page directory that maps the four rows of `kmap` and
nothing below `KERNBASE`.  It needs one page for the directory and one for
each page table of the kernel half.
-/

namespace SlabStudy.Xv6

/-- A row of the table of kernel mappings. -/
structure Kmap where
  virt : Nat
  physStart : Nat
  physEnd : Nat
  perm : Flags

/-- I/O space, kernel text, kernel data with free memory, and devices. -/
def kmap (ld : Linkage) : List Kmap :=
  [⟨kernbase, 0, extmem, pteW⟩,
   ⟨kernlink, kernlink - kernbase, ld.data - kernbase, 0⟩,
   ⟨ld.data, ld.data - kernbase, phystop, pteW⟩,
   ⟨devspace, devspace, 0, pteW⟩]

/-- The `mappages` call for one row; the size of the last row wraps around. -/
def Kmap.map (row : Kmap) (km : Kmem) (d : Pgdir) : Kern (Bool × Kmem × Pgdir) :=
  mappages km d row.virt ((row.physEnd + 2 ^ 32 - row.physStart) % 2 ^ 32)
    (BitVec.ofNat 20 (row.physStart / pgsize)) row.perm

/-- The loop of `setupkvm`. -/
def setupkvmLoop (ld : Linkage) : List Kmap → Kmem → Pgdir → Kern (Option Pgdir × Kmem)
  | [], km, d => .ok (some d, km)
  | row :: rest, km, d => do
      let (done, km, d) ← row.map km d
      if done then setupkvmLoop ld rest km d
      else
        let km ← freevm ld km (some d)
        return (none, km)

/-- Set up the kernel part of a page table. -/
def setupkvm (ld : Linkage) (km : Kmem) : Kern (Option Pgdir × Kmem) :=
  match kalloc km with
  | none => .ok (none, km)
  | some (frame, km) =>
      if devspace < kernbase + phystop then .error .phystopTooHigh
      else setupkvmLoop ld (kmap ld) (km.fill frame 0) ⟨frame, fun _ => none⟩

/--
Load the initial program into address zero.  Neither the result of `kalloc`
nor that of `mappages` is checked.
-/
def inituvm (km : Kmem) (d : Pgdir) (init : List UInt8) : Kern (Kmem × Pgdir) :=
  if pgsize ≤ init.length then .error .inituvmSize
  else
    match kalloc km with
    | none => .error .nullPointer
    | some (frame, km) => do
        let (_, km, d) ← mappages (km.fill frame 0) d 0 pgsize frame (pteW ||| pteU)
        return ({ km with mem := Function.update km.mem frame fun i => init.getD i 0 }, d)

/-! ## The rows -/

/-- The addresses of a row: kernel addresses that do not wrap. -/
structure Kmap.Spans (row : Kmap) (last : Nat) : Prop where
  start : kernbase ≤ row.virt
  order : row.virt ≤ last
  bound : last < 2 ^ 32
  whole : (last - row.virt) % pgsize = 0
  pages : ∀ km d, row.map km d =
    mappagesLoop row.perm (mapAddrs row.virt last (BitVec.ofNat 20 (row.physStart / pgsize))) km d

theorem pgRoundDown_last {virt size : Nat} (aligned : virt % pgsize = 0)
    (pages : size % pgsize = 0) (positive : 0 < size) (bound : virt + size ≤ 2 ^ 32) :
    pgRoundDown ((virt + size + 2 ^ 32 - 1) % 2 ^ 32) = virt + size - pgsize := by
  change virt % 4096 = 0 at aligned
  change size % 4096 = 0 at pages
  change (virt + size + 4294967296 - 1) % 4294967296 / 4096 * 4096 = virt + size - 4096
  omega

theorem Kmap.spans_of (row : Kmap) (size : Nat) (start : kernbase ≤ row.virt)
    (aligned : row.virt % pgsize = 0) (positive : 0 < size) (pages : size % pgsize = 0)
    (bound : row.virt + size ≤ 2 ^ 32)
    (sized : (row.physEnd + 2 ^ 32 - row.physStart) % 2 ^ 32 = size) :
    row.Spans (row.virt + size - pgsize) := by
  have whole : pgsize ≤ size := Nat.le_of_dvd positive (Nat.dvd_of_mod_eq_zero pages)
  have first : pgRoundDown row.virt = row.virt :=
    Nat.div_mul_cancel (Nat.dvd_of_mod_eq_zero aligned)
  refine ⟨start, ?_, ?_, ?_, fun km d => ?_⟩
  · exact Nat.le_sub_of_add_le (Nat.add_le_add_left whole _)
  · have small : 0 < pgsize := by decide
    omega
  · simp only [pgsize] at *
    omega
  · rw [Kmap.map, sized, mappages, first, pgRoundDown_last aligned pages positive bound]

/-- Last page address of each row, in the order of the table. -/
def kmapLasts (ld : Linkage) : List Nat :=
  [kernlink - pgsize, ld.data - pgsize, kernbase + phystop - pgsize, 2 ^ 32 - pgsize]

theorem kmapLasts_getLast (ld : Linkage) : (kmapLasts ld).getLast? = some (2 ^ 32 - pgsize) := by
  simp only [kmapLasts, List.getLast?_cons_cons, List.getLast?_singleton]

theorem kmap_spans (ld : Linkage) : List.Forall₂ Kmap.Spans (kmap ld) (kmapLasts ld) := by
  have aligned : ld.data % 4096 = 0 := ld.data_aligned
  have low : 0x80100000 < ld.data := ld.kernlink_lt_data
  have high : ld.data < 0x8E000000 := Nat.lt_of_le_of_lt ld.data_le_end ld.end_lt
  refine .cons ?_ (.cons ?_ (.cons ?_ (.cons ?_ .nil)))
  · exact Kmap.spans_of ⟨kernbase, 0, extmem, pteW⟩ extmem
      (by decide) (by decide) (by decide) (by decide) (by decide) (by decide)
  · have sum : kernlink + (ld.data - 0x80100000) = ld.data := by
      change 0x80100000 + (ld.data - 0x80100000) = ld.data
      omega
    have spans := Kmap.spans_of ⟨kernlink, kernlink - kernbase, ld.data - kernbase, 0⟩
      (ld.data - 0x80100000) (Nat.le_add_right kernbase extmem) (rfl : kernlink % pgsize = 0)
      (by omega) (by change (ld.data - 0x80100000) % 4096 = 0; omega)
      (by change 0x80100000 + (ld.data - 0x80100000) ≤ 4294967296; omega)
      (by
        change (ld.data - 0x80000000 + 4294967296 - 0x100000) % 4294967296 = ld.data - 0x80100000
        omega)
    simpa only [sum] using spans
  · have sum : ld.data + (0x8E000000 - ld.data) = kernbase + phystop := by
      change ld.data + (0x8E000000 - ld.data) = 0x8E000000
      omega
    have spans := Kmap.spans_of ⟨ld.data, ld.data - kernbase, phystop, pteW⟩
      (0x8E000000 - ld.data) (by change 0x80000000 ≤ ld.data; omega) ld.data_aligned
      (by omega) (by change (0x8E000000 - ld.data) % 4096 = 0; omega)
      (by change ld.data + (0x8E000000 - ld.data) ≤ 4294967296; omega)
      (by
        change (0xE000000 + 4294967296 - (ld.data - 0x80000000)) % 4294967296 =
          0x8E000000 - ld.data
        omega)
    simpa only [sum] using spans
  · have sum : devspace + 0x2000000 = 2 ^ 32 := by decide
    have spans := Kmap.spans_of ⟨devspace, devspace, 0, pteW⟩ 0x2000000
      (by decide) (by decide) (by decide) (by decide) (by decide) (by decide)
    simpa only [sum] using spans

/-! ## What setupkvm builds -/

section Loop

variable {ld : Linkage} {km km' : Kmem} {d d' : Pgdir}

theorem Kmap.Spans.kernel {row : Kmap} {last : Nat} (spans : row.Spans last) :
    ∀ page ∈ mapAddrs row.virt last (BitVec.ofNat 20 (row.physStart / pgsize)),
      kernbase ≤ page.1 ∧ page.1 < 2 ^ 32 := by
  intro page member
  obtain ⟨low, high⟩ := mem_mapAddrs spans.order spans.bound member
  exact ⟨Nat.le_trans spans.start low, Nat.lt_of_le_of_lt high spans.bound⟩

/-- A row takes only page tables and shows nothing to the user. -/
theorem Kmap.map_ok {row : Kmap} {last : Nat} {done : Bool} (spans : row.Spans last)
    (ran : row.map km d = .ok (done, km', d')) :
    (km'.freelist : Multiset Frame) + d'.frames = km.freelist + d.frames ∧
      (∀ va, va < kernbase → d'.lookup va = d.lookup va) ∧ Grows km d km' d' := by
  rw [spans.pages] at ran
  obtain ⟨conserved, same⟩ := mappagesLoop_kernel spans.kernel ran
  exact ⟨conserved, same, mappagesLoop_grows (fun page member => (spans.kernel page member).2) ran⟩

theorem setupkvmLoop_ok {rows : List Kmap} {lasts : List Nat} {result : Option Pgdir}
    (spans : List.Forall₂ Kmap.Spans rows lasts) (owned : Owned ld km d)
    (ran : setupkvmLoop ld rows km d = .ok (result, km')) :
    (∃ d', result = some d' ∧
        (km'.freelist : Multiset Frame) + d'.frames = km.freelist + d.frames ∧
        (∀ va, va < kernbase → d'.lookup va = d.lookup va) ∧ Grows km d km' d') ∨
      (result = none ∧ (km'.freelist : Multiset Frame) = km.freelist + d.frames ∧
        ∀ frame, frame ∉ km'.freelist → km'.mem frame = km.mem frame) := by
  induction spans generalizing km d with
  | nil =>
      cases ran
      exact .inl ⟨d, rfl, rfl, fun _ _ => rfl, Grows.refl _ _⟩
  | cons rowSpans _ ih =>
      obtain ⟨⟨done, km₁, d₁⟩, mapped, tail⟩ := Kern.bind_eq_ok.mp ran
      obtain ⟨conserved, same, grows⟩ := Kmap.map_ok rowSpans mapped
      have stillOwned := owned.of_conserved conserved
      cases done with
      | true =>
          rcases ih stillOwned tail with ⟨d', rfl, total, user, more⟩ | ⟨rfl, total, kept⟩
          · refine .inl ⟨d', rfl, total.trans conserved, fun va below => ?_, grows.trans more⟩
            rw [user va below, same va below]
          · refine .inr ⟨rfl, total.trans conserved, fun frame used => ?_⟩
            have notFree : frame ∉ km.freelist := by
              intro free
              have member : frame ∈ (km'.freelist : Multiset Frame) := by
                rw [total, conserved]
                exact Multiset.mem_add.mpr (.inl (Multiset.mem_coe.mpr free))
              exact used (Multiset.mem_coe.mp member)
            rw [kept frame used, grows.untouched frame notFree]
      | false =>
          obtain ⟨km₂, freed, last⟩ := Kern.bind_eq_ok.mp tail
          cases last
          obtain ⟨km₃, freeing, listed, kept⟩ := freevm_ok km₁ stillOwned.validFrames
          rw [freeing] at freed
          cases freed
          refine .inr ⟨rfl, listed.trans conserved, fun frame used => ?_⟩
          have notFree : frame ∉ km.freelist := by
            intro free
            have member : frame ∈ (km'.freelist : Multiset Frame) := by
              rw [listed, conserved]
              exact Multiset.mem_add.mpr (.inl (Multiset.mem_coe.mpr free))
            exact used (Multiset.mem_coe.mp member)
          rw [kept frame used, grows.untouched frame notFree]

/-- The last page of the last row is present in a complete directory. -/
theorem setupkvmLoop_last {rows : List Kmap} {lasts : List Nat}
    (spans : List.Forall₂ Kmap.Spans rows lasts) {last : Nat}
    (final : lasts.getLast? = some last)
    (ran : setupkvmLoop ld rows km d = .ok (some d', km')) : (d'.lookup last).isSome = true := by
  induction spans generalizing km d with
  | nil => cases final
  | @cons row first rows others rowSpans rest ih =>
      obtain ⟨⟨done, km₁, d₁⟩, mapped, tail⟩ := Kern.bind_eq_ok.mp ran
      cases done with
      | false =>
          obtain ⟨_, _, impossible⟩ := Kern.bind_eq_ok.mp tail
          cases impossible
      | true =>
          cases rest with
          | nil =>
              cases final
              cases tail
              rw [rowSpans.pages] at mapped
              obtain ⟨page, member, rfl⟩ :=
                last_mem_mapAddrs (BitVec.ofNat 20 (row.physStart / pgsize)) rowSpans.order
                  rowSpans.bound rowSpans.whole
              exact mappagesLoop_maps (fun page member => (rowSpans.kernel page member).2) mapped
                page member
          | cons _ _ => exact ih final tail

/-- A directory without entries owns its own page only. -/
theorem Pgdir.frames_blank (frame : Frame) : (Pgdir.mk frame fun _ => none).frames = {frame} := by
  rw [Pgdir.frames_eq]
  simp only [PgTab.frames_none, Finset.sum_const_zero, add_zero]

/-- The free list of a memory in which nothing else is owned yet. -/
structure FreeOk (ld : Linkage) (km : Kmem) : Prop where
  nodup : km.freelist.Nodup
  valid : ∀ frame ∈ km.freelist, frame.Valid ld

theorem Owned.freeOk (owned : Owned ld km d) : FreeOk ld km :=
  ⟨owned.freelist_nodup, fun frame member =>
    owned.valid frame (Multiset.mem_add.mpr (.inl (Multiset.mem_coe.mpr member)))⟩

/-- What is left after a page has been taken. -/
theorem FreeOk.rest {frame : Frame} (free : FreeOk ld km)
    (listed : km.freelist = frame :: km'.freelist) : FreeOk ld km' := by
  have nodup := free.nodup
  rw [listed, List.nodup_cons] at nodup
  refine ⟨nodup.2, fun other member => free.valid other ?_⟩
  rw [listed]
  exact List.mem_cons_of_mem _ member

theorem setupkvm_ok {result : Option Pgdir} (free : FreeOk ld km)
    (ran : setupkvm ld km = .ok (result, km')) :
    (∃ d, result = some d ∧ (km'.freelist : Multiset Frame) + d.frames = km.freelist ∧
        (∀ va, va < kernbase → d.lookup va = none) ∧
        (d.lookup (2 ^ 32 - pgsize)).isSome = true ∧ km'.freelist <:+ km.freelist ∧
        ∀ frame, frame ∉ km.freelist → km'.mem frame = km.mem frame) ∨
      (result = none ∧ (km'.freelist : Multiset Frame) = km.freelist ∧
        ∀ frame, frame ∉ km.freelist → km'.mem frame = km.mem frame) := by
  unfold setupkvm at ran
  cases taken : kalloc km with
  | none =>
      rw [taken] at ran
      cases ran
      exact .inr ⟨rfl, rfl, fun _ _ => rfl⟩
  | some pair =>
      obtain ⟨frame, km₁⟩ := pair
      obtain ⟨listed, same⟩ := kalloc_eq_some_iff.mp taken
      rw [taken] at ran
      simp only at ran
      rw [if_neg (by decide)] at ran
      have total : ((km₁.fill frame 0).freelist : Multiset Frame) +
          (Pgdir.mk frame fun _ => none).frames = km.freelist := by
        rw [Pgdir.frames_blank, Kmem.fill_freelist, listed, ← Multiset.cons_coe,
          ← Multiset.singleton_add, add_comm]
      have owned : Owned ld (km₁.fill frame 0) (Pgdir.mk frame fun _ => none) := by
        refine ⟨?_, ?_⟩
        · rw [total]
          exact Multiset.coe_nodup.mpr free.nodup
        · rw [total]
          exact fun frame member => free.valid frame (Multiset.mem_coe.mp member)
      have filled : ∀ other, other ∉ km.freelist →
          (km₁.fill frame 0).mem other = km.mem other := by
        intro other used
        rw [Kmem.fill_mem_of_ne _ _ fun same => used (by simp [listed, same]), same]
      have shorter : km₁.freelist <:+ km.freelist := by
        rw [listed]
        exact List.suffix_cons _ _
      rcases setupkvmLoop_ok (kmap_spans ld) owned ran with
        ⟨d, rfl, conserved, user, grows⟩ | ⟨rfl, conserved, kept⟩
      · refine .inl ⟨d, rfl, conserved.trans total, user,
          setupkvmLoop_last (kmap_spans ld) (kmapLasts_getLast ld) ran, grows.suffix.trans shorter,
          fun other used => ?_⟩
        rw [grows.untouched other fun free => used (shorter.subset free), filled other used]
      · refine .inr ⟨rfl, conserved.trans total, fun other used => ?_⟩
        have notFree : other ∉ km'.freelist := by
          intro free
          have member : other ∈ (km.freelist : Multiset Frame) := by
            rw [← total, ← conserved]
            exact Multiset.mem_coe.mpr free
          exact used (Multiset.mem_coe.mp member)
        rw [kept other notFree, filled other used]

end Loop

/-! ## How much memory it takes -/

/-- Directory entries of the kernel half that `kmap` uses. -/
def kernelDirs : Finset (Fin npdentries) :=
  Finset.univ.filter fun i => (512 ≤ i.val ∧ i.val < 568) ∨ 1016 ≤ i.val

theorem kernelDirs_card : kernelDirs.card ≤ 64 := by
  have covered : kernelDirs ⊆
      (Finset.range 64).image fun k =>
        Fin.ofNat npdentries (if k < 56 then 512 + k else 960 + k) := by
    intro i member
    have bound := i.isLt
    simp only [kernelDirs, Finset.mem_filter, Finset.mem_univ, true_and] at member
    simp only [Finset.mem_image, Finset.mem_range]
    rcases member with ⟨low, high⟩ | high
    · refine ⟨i.val - 512, by omega, Fin.ext ?_⟩
      rw [if_pos (by omega)]
      simp only [Fin.ofNat, npdentries] at *
      omega
    · refine ⟨i.val - 960, by simp only [npdentries] at *; omega, Fin.ext ?_⟩
      rw [if_neg (by omega)]
      simp only [Fin.ofNat, npdentries] at *
      omega
  calc kernelDirs.card ≤ _ := Finset.card_le_card covered
    _ ≤ (Finset.range 64).card := Finset.card_image_le
    _ = 64 := Finset.card_range 64

theorem mem_kernelDirs {va : Nat}
    (range : (kernbase ≤ va ∧ va < kernbase + phystop) ∨ (devspace ≤ va ∧ va < 2 ^ 32)) :
    pdx va ∈ kernelDirs := by
  simp only [kernelDirs, Finset.mem_filter, Finset.mem_univ, true_and, pdx, Fin.ofNat]
  change (512 ≤ va / 4194304 % 1024 ∧ va / 4194304 % 1024 < 568) ∨ 1016 ≤ va / 4194304 % 1024
  change (0x80000000 ≤ va ∧ va < 0x8E000000) ∨ (0xFE000000 ≤ va ∧ va < 4294967296) at range
  omega

/-- Rows in ascending order, none of them starting below `low`. -/
inductive Ascending : Nat → List Kmap → List Nat → Prop where
  | nil (low : Nat) : Ascending low [] []
  | cons {low last : Nat} {row : Kmap} {rows : List Kmap} {lasts : List Nat}
      (above : low ≤ row.virt)
      (inside : ∀ va, row.virt ≤ va → va ≤ last → pdx va ∈ kernelDirs)
      (rest : Ascending (last + pgsize) rows lasts) :
      Ascending low (row :: rows) (last :: lasts)

theorem kmap_ascending (ld : Linkage) : Ascending 0 (kmap ld) (kmapLasts ld) := by
  have aligned : ld.data % 4096 = 0 := ld.data_aligned
  have low : 0x80100000 < ld.data := ld.kernlink_lt_data
  have high : ld.data < 0x8E000000 := Nat.lt_of_le_of_lt ld.data_le_end ld.end_lt
  have data : ∀ {va}, kernbase ≤ va → va < 0x8E000000 → pdx va ∈ kernelDirs :=
    fun start bound => mem_kernelDirs (.inl ⟨start, bound⟩)
  refine .cons (Nat.zero_le _) (fun va start bound => data start ?_)
    (.cons ?_ (fun va start bound => data ?_ ?_)
      (.cons ?_ (fun va start bound => data ?_ ?_)
        (.cons ?_ (fun va start bound => mem_kernelDirs (.inr ⟨start, ?_⟩)) (.nil _))))
  · change va ≤ 0x80100000 - 4096 at bound
    omega
  · change 0x80100000 - 4096 + 4096 ≤ 0x80100000
    omega
  · exact Nat.le_trans (Nat.le_add_right _ _) start
  · change va ≤ ld.data - 4096 at bound
    omega
  · change ld.data - 4096 + 4096 ≤ ld.data
    omega
  · change ld.data ≤ va at start
    change 0x80000000 ≤ va
    omega
  · change va ≤ 0x8E000000 - 4096 at bound
    omega
  · change 0x8E000000 - 4096 + 4096 ≤ 0xFE000000
    omega
  · change va ≤ 4294967296 - 4096 at bound
    change va < 4294967296
    omega

/-- With a page for every missing table the rows are mapped one after another. -/
theorem setupkvmLoop_succeeds (ld : Linkage) (km : Kmem) {d : Pgdir} {rows : List Kmap}
    {lasts : List Nat} {low : Nat} (spans : List.Forall₂ Kmap.Spans rows lasts)
    (ascending : Ascending low rows lasts)
    (absent : ∀ va, low ≤ va → va < 2 ^ 32 → d.lookup va = none)
    (enough : d.missing kernelDirs ≤ km.freelist.length) :
    ∃ d' km', setupkvmLoop ld rows km d = .ok (some d', km') ∧
      km'.freelist.length + d.missing kernelDirs =
        km.freelist.length + d'.missing kernelDirs := by
  induction spans generalizing km d low with
  | nil => exact ⟨d, km, rfl, rfl⟩
  | @cons row last rows lasts rowSpans _ ih =>
      cases ascending with
      | cons above inside later =>
          have within : ∀ page ∈ mapAddrs row.virt last
              (BitVec.ofNat 20 (row.physStart / pgsize)), row.virt ≤ page.1 ∧ page.1 ≤ last :=
            fun page member => mem_mapAddrs rowSpans.order rowSpans.bound member
          obtain ⟨km₁, d₁, ran, balance⟩ := mappagesLoop_succeeds row.perm km
            (mapAddrs row.virt last (BitVec.ofNat 20 (row.physStart / pgsize)))
            (fun page member => ⟨(rowSpans.kernel page member).2,
              inside _ (within page member).1 (within page member).2⟩)
            (fun page member => absent _ (Nat.le_trans above (within page member).1)
              (rowSpans.kernel page member).2)
            (mapAddrs_nodup _ _ _) enough
          have laterAbsent : ∀ va, last + pgsize ≤ va → va < 2 ^ 32 → d₁.lookup va = none := by
            intro va beyond small
            have apart : ∀ page ∈ mapAddrs row.virt last
                (BitVec.ofNat 20 (row.physStart / pgsize)), va / pgsize ≠ page.1 / pgsize := by
              intro page member same
              have high := (within page member).2
              simp only [pgsize] at *
              omega
            have order := rowSpans.order
            rw [mappagesLoop_others (fun page member => (rowSpans.kernel page member).2) small
              apart ran]
            exact absent va (by omega) small
          obtain ⟨d₂, km₂, rest, total⟩ := ih km₁ later laterAbsent (by omega)
          refine ⟨d₂, km₂, ?_, by omega⟩
          rw [setupkvmLoop, rowSpans.pages, ran]
          exact rest

/-- `setupkvm` succeeds with one page for the directory and 64 for its tables. -/
theorem setupkvm_succeeds (ld : Linkage) {km : Kmem} (enough : 65 ≤ km.freelist.length) :
    ∃ d km', setupkvm ld km = .ok (some d, km') ∧
      km.freelist.length ≤ km'.freelist.length + 65 := by
  cases listed : km.freelist with
  | nil => simp [listed] at enough
  | cons frame rest =>
      have taken : kalloc km = some (frame, { km with freelist := rest }) :=
        kalloc_eq_some_iff.mpr ⟨listed, rfl⟩
      rw [listed, List.length_cons] at enough
      have few : (Pgdir.mk frame fun _ => none).missing kernelDirs ≤ 64 :=
        Nat.le_trans (Finset.card_filter_le _ _) kernelDirs_card
      have filled : (({ km with freelist := rest } : Kmem).fill frame 0).freelist.length =
          rest.length := rfl
      obtain ⟨d, km', ran, balance⟩ := setupkvmLoop_succeeds ld
        (({ km with freelist := rest } : Kmem).fill frame 0)
        (d := Pgdir.mk frame fun _ => none) (kmap_spans ld) (kmap_ascending ld)
        (fun _ _ _ => rfl) (by rw [filled]; omega)
      refine ⟨d, km', ?_, ?_⟩
      · unfold setupkvm
        rw [taken]
        simp only
        rw [if_neg (by decide)]
        exact ran
      · rw [filled] at balance
        rw [List.length_cons]
        omega

/-! ## The first user page -/

section Inituvm

variable {km km' : Kmem} {d d' : Pgdir} {init : List UInt8}

/-- The page is mapped at address zero, or it is lost for want of a page table. -/
theorem inituvm_cases (ran : inituvm km d init = .ok (km', d')) :
    ∃ frame, (∃ mem, MapsPage km d 0 (pteW ||| pteU) ⟨km'.freelist, mem⟩ d' frame) ∨
      (km.freelist = frame :: km'.freelist ∧ d' = d ∧ km'.freelist = []) := by
  unfold inituvm at ran
  split at ran
  · cases ran
  · cases taken : kalloc km with
    | none =>
        rw [taken] at ran
        cases ran
    | some pair =>
        obtain ⟨frame, km₁⟩ := pair
        rw [taken] at ran
        obtain ⟨listed, same⟩ := kalloc_eq_some_iff.mp taken
        obtain ⟨⟨done, km₂, d₂⟩, mapped, last⟩ := Kern.bind_eq_ok.mp ran
        cases last
        rw [mappages_page _ _ _ _ (by decide) (by decide)] at mapped
        refine ⟨frame, ?_⟩
        rcases mappagesLoop_cons mapped with
          ⟨stuck, _, rfl, rfl⟩ | ⟨pte, km₃, d₃, walked, absent, rest⟩
        · exact .inr ⟨listed, rfl, (walkpgdir_true_eq_none_iff.mp stuck).2⟩
        · cases rest
          exact .inl ⟨_, mapsPage_of_walk (writes_fill 0) (by decide) (by decide) listed same
            walked absent⟩

/-- No page gets a second owner. -/
theorem inituvm_le (ran : inituvm km d init = .ok (km', d')) :
    (km'.freelist : Multiset Frame) + d'.frames ≤ km.freelist + d.frames := by
  obtain ⟨frame, ⟨mem, mapped⟩ | ⟨listed, rfl, _⟩⟩ := inituvm_cases ran
  · exact le_of_eq mapped.conserved
  · rw [listed, ← Multiset.cons_coe]
    exact add_le_add_left (Multiset.le_cons_self _ _) _

/-- With two free pages and nothing mapped the first page is mapped. -/
theorem inituvm_succeeds (small : init.length < pgsize) (absent : d.lookup 0 = none)
    (enough : 2 ≤ km.freelist.length) :
    ∃ km' d', inituvm km d init = .ok (km', d') := by
  cases listed : km.freelist with
  | nil => simp [listed] at enough
  | cons frame rest =>
      have taken : kalloc km = some (frame, { km with freelist := rest }) :=
        kalloc_eq_some_iff.mpr ⟨listed, rfl⟩
      rw [listed, List.length_cons] at enough
      have single : d.missing {pdx 0} ≤ 1 := Finset.card_filter_le _ _
      obtain ⟨km', d', mapped, _⟩ := mappagesLoop_succeeds (pteW ||| pteU)
        (({ km with freelist := rest } : Kmem).fill frame 0) [(0, frame)] (d := d)
        (List.forall_mem_singleton.mpr
          ⟨(by decide : 0 < 2 ^ 32), Finset.mem_singleton_self _⟩)
        (List.forall_mem_singleton.mpr absent) (List.nodup_singleton _)
        (by rw [Kmem.fill_freelist]; exact Nat.le_trans single (Nat.le_of_succ_le_succ enough))
      rw [← mappages_page _ _ _ _ (by decide) (by decide)] at mapped
      refine ⟨{ km' with mem := Function.update km'.mem frame fun i => init.getD i 0 }, d', ?_⟩
      unfold inituvm
      rw [if_neg (Nat.not_le.mpr small), taken]
      simp only [mapped, bind, Except.bind]
      rfl

end Inituvm

end SlabStudy.Xv6
