import SlabStudy.Xv6.Boot
import SlabStudy.Xv6.ExecEffects

/-!
# Memory at boot

`main` puts the pages below 4 MB on the free list, takes the page directory of
the kernel and the cpuStacks of the other processors from it, frees all other
pages of memory, and only then makes the first process.  After that every page
that `kfree` accepts is free or belongs to one of these.
-/

namespace SlabStudy.Xv6

open Library

variable {ld : Linkage} {km km' : Kmem}

/-! ## kalloc.c and main.c -/

/-- The pages that `freerange` visits; `vend` is far from `2 ^ 32`. -/
def freeAddrs (vstart vend : Nat) : List Nat :=
  (List.range ((vend - pgRoundUp vstart) / pgsize)).map fun k => pgRoundUp vstart + pgsize * k

/-- The page behind an address of the kernel. -/
def frameAt (v : Nat) : Frame := BitVec.ofNat 20 ((v - kernbase) / pgsize)

/-- The loop of `freerange`. -/
def freeLoop (ld : Linkage) : List Nat → Kmem → Kern Kmem
  | [], km => .ok km
  | p :: rest, km => do
      let km ← kfree ld km (frameAt p)
      freeLoop ld rest km

def freerange (ld : Linkage) (vstart vend : Nat) (km : Kmem) : Kern Kmem :=
  freeLoop ld (freeAddrs vstart vend) km

/-- The end of the memory that `entrypgdir` maps. -/
def entryEnd : Nat := kernbase + 4 * 1024 * 1024

/-- The cpuStacks that `startothers` takes for `n` processors; it does not check for a null
pointer, which is no page. -/
def startothers : Nat → Kmem → List Frame × Kmem
  | 0, km => ([], km)
  | n + 1, km =>
      match kalloc km with
      | none => startothers n km
      | some (page, km) =>
          let (cpuStacks, km) := startothers n km
          (page :: cpuStacks, km)

/-- The memory before `userinit`, with the pages that `main` has taken for good. -/
structure BootMemory where
  kpgdir : Pgdir
  cpuStacks : List Frame
  kmem : Kmem

/-- `kinit1`, `kvmalloc`, `startothers` for `others` processors and `kinit2`. -/
def bootMemory (ld : Linkage) (others : Nat) (mem : Frame → Page) : Kern BootMemory := do
  let km ← freerange ld ld.endAddr entryEnd ⟨[], mem⟩
  let (kpgdir, km) ← setupkvm ld km
  match kpgdir with
  -- the processor loads a null pointer as its page directory
  | none => .error .nullPointer
  | some kpgdir =>
      let (cpuStacks, km) := startothers others km
      let km ← freerange ld entryEnd (kernbase + phystop) km
      return ⟨kpgdir, cpuStacks, km⟩

/-! ## The pages of a range -/

theorem pgRoundUp_eq {v : Nat} (low : v + pgsize < 2 ^ 32) :
    pgRoundUp v = (v + pgsize - 1) / pgsize * pgsize := by
  unfold pgRoundUp
  rw [Nat.mod_eq_of_lt]
  simp only [pgsize] at *
  omega

theorem frameAt_toNat {v : Nat} (low : v < 2 ^ 32) :
    (frameAt v).toNat = (v - kernbase) / pgsize := by
  rw [frameAt, BitVec.toNat_ofNat, Nat.mod_eq_of_lt]
  simp only [kernbase, pgsize] at *
  omega

/-- The range consists of the pages that lie between its ends. -/
theorem mem_freeAddrs {vstart vend : Nat} (start : kernbase ≤ vstart)
    (low : vstart + pgsize < 2 ^ 32) (last : vend < 2 ^ 32) {frame : Frame} :
    frame ∈ (freeAddrs vstart vend).map frameAt ↔
      vstart ≤ frame.toNat * pgsize + kernbase ∧
        frame.toNat * pgsize + kernbase + pgsize ≤ vend := by
  have round := pgRoundUp_eq low
  unfold freeAddrs
  rw [List.map_map, List.mem_map]
  constructor
  · rintro ⟨k, inside, rfl⟩
    rw [List.mem_range] at inside
    change vstart ≤ (frameAt (pgRoundUp vstart + pgsize * k)).toNat * pgsize + kernbase ∧
      (frameAt (pgRoundUp vstart + pgsize * k)).toNat * pgsize + kernbase + pgsize ≤ vend
    rw [frameAt_toNat (by simp only [kernbase, pgsize] at *; omega)]
    simp only [kernbase, pgsize] at *
    omega
  · rintro ⟨above, below⟩
    refine ⟨(frame.toNat * pgsize + kernbase - pgRoundUp vstart) / pgsize, ?_, ?_⟩
    · rw [List.mem_range]
      simp only [kernbase, pgsize] at *
      omega
    · apply BitVec.eq_of_toNat_eq
      change (frameAt (pgRoundUp vstart + _)).toNat = _
      rw [frameAt_toNat (by simp only [kernbase, pgsize] at *; omega)]
      simp only [kernbase, pgsize] at *
      omega

theorem nodup_freeAddrs {vstart vend : Nat} (start : kernbase ≤ vstart)
    (low : vstart + pgsize < 2 ^ 32) (last : vend < 2 ^ 32) :
    ((freeAddrs vstart vend).map frameAt).Nodup := by
  have round := pgRoundUp_eq low
  unfold freeAddrs
  rw [List.map_map]
  refine List.Nodup.map_on (fun j left k right same => ?_) List.nodup_range
  rw [List.mem_range] at left right
  have numbers := congrArg BitVec.toNat same
  change (frameAt (pgRoundUp vstart + pgsize * j)).toNat =
    (frameAt (pgRoundUp vstart + pgsize * k)).toNat at numbers
  rw [frameAt_toNat (by simp only [kernbase, pgsize] at *; omega),
    frameAt_toNat (by simp only [kernbase, pgsize] at *; omega)] at numbers
  simp only [kernbase, pgsize] at *
  omega

/-! ## The loop -/

theorem freeLoop_ok {addrs : List Nat} (ran : freeLoop ld addrs km = .ok km') :
    km'.freelist = (addrs.map frameAt).reverse ++ km.freelist ∧
      ∀ frame ∈ addrs.map frameAt, frame.Valid ld := by
  induction addrs generalizing km with
  | nil =>
      cases ran
      exact ⟨rfl, fun _ member => absurd member List.not_mem_nil⟩
  | cons p rest ih =>
      obtain ⟨next, freed, ran⟩ := Kern.bind_eq_ok.mp ran
      obtain ⟨valid, listed, _⟩ := kfree_eq_ok freed
      obtain ⟨result, others⟩ := ih ran
      refine ⟨?_, fun frame member => ?_⟩
      · rw [result, listed, List.map_cons, List.reverse_cons, List.append_assoc,
          List.singleton_append]
      · rcases List.mem_cons.mp member with rfl | member
        · exact valid
        · exact others frame member

theorem freeLoop_succeeds {addrs : List Nat}
    (valid : ∀ frame ∈ addrs.map frameAt, frame.Valid ld) (km : Kmem) :
    ∃ km', freeLoop ld addrs km = .ok km' := by
  induction addrs generalizing km with
  | nil => exact ⟨km, rfl⟩
  | cons p rest ih =>
      obtain ⟨next, freed⟩ := kfree_of_valid km (valid (frameAt p) List.mem_cons_self)
      obtain ⟨km', ran⟩ := ih (fun frame member => valid frame (List.mem_cons_of_mem _ member)) next
      exact ⟨km', Kern.bind_eq_ok.mpr ⟨next, freed, ran⟩⟩

/-- The cpuStacks come from the free list. -/
theorem startothers_conserved (n : Nat) (km : Kmem) :
    ((startothers n km).2.freelist : Multiset Frame) + (startothers n km).1 = km.freelist := by
  induction n generalizing km with
  | zero => exact add_zero _
  | succ n ih =>
      unfold startothers
      cases taken : kalloc km with
      | none => exact ih km
      | some pair =>
          obtain ⟨page, next⟩ := pair
          obtain ⟨listed, _⟩ := kalloc_eq_some_iff.mp taken
          change ((startothers n next).2.freelist : Multiset Frame) +
            ((page :: (startothers n next).1 : List Frame) : Multiset Frame) = _
          rw [← Multiset.cons_coe, Multiset.add_cons, ih, listed]
          rfl

/-! ## All of memory -/

/-- The pages that `kalloc` and `kfree` manage, each of them once. -/
structure Managed (ld : Linkage) (total : Multiset Frame) : Prop where
  nodup : total.Nodup
  exact : ∀ {frame}, frame ∈ total ↔ frame.Valid ld

/-- What is free among the managed pages. -/
theorem Managed.freeOk {rest : Multiset Frame}
    (managed : Managed ld ((km.freelist : Multiset Frame) + rest)) : FreeOk ld km := by
  refine ⟨Multiset.coe_nodup.mp (Multiset.nodup_add.mp managed.nodup).1, fun frame member => ?_⟩
  exact managed.exact.mp (Multiset.mem_add.mpr (.inl (Multiset.mem_coe.mpr member)))

/-- The frames of the two ranges. -/
def initialPages (ld : Linkage) : Multiset Frame :=
  ((freeAddrs ld.endAddr entryEnd).map frameAt : Multiset Frame) +
    ((freeAddrs entryEnd (kernbase + phystop)).map frameAt : List Frame)

theorem mem_lowPages {frame : Frame} : frame ∈ (freeAddrs ld.endAddr entryEnd).map frameAt ↔
    ld.endAddr ≤ frame.toNat * pgsize + kernbase ∧
      frame.toNat * pgsize + kernbase + pgsize ≤ entryEnd := by
  have text := ld.kernlink_lt_data
  have order := ld.data_le_end
  have last := ld.end_lt
  apply mem_freeAddrs
  · simp only [kernbase, kernlink, extmem] at *
    omega
  · simp only [kernbase, pgsize, phystop] at *
    omega
  · decide

theorem mem_highPages {frame : Frame} :
    frame ∈ (freeAddrs entryEnd (kernbase + phystop)).map frameAt ↔
      entryEnd ≤ frame.toNat * pgsize + kernbase ∧
        frame.toNat * pgsize + kernbase + pgsize ≤ kernbase + phystop := by
  apply mem_freeAddrs <;> decide

/-- The two ranges do not overlap. -/
theorem initialPages_nodup (ld : Linkage) : (initialPages ld).Nodup := by
  have text := ld.kernlink_lt_data
  have order := ld.data_le_end
  have last := ld.end_lt
  refine Multiset.nodup_add.mpr ⟨Multiset.coe_nodup.mpr (nodup_freeAddrs ?_ ?_ (by decide)),
    Multiset.coe_nodup.mpr (nodup_freeAddrs (by decide) (by decide) (by decide)), ?_⟩
  · simp only [kernbase, kernlink, extmem] at *
    omega
  · simp only [kernbase, pgsize, phystop] at *
    omega
  · rw [Multiset.disjoint_left]
    intro frame left right
    have under := (mem_lowPages.mp (Multiset.mem_coe.mp left)).2
    have above := (mem_highPages.mp (Multiset.mem_coe.mp right)).1
    simp only [pgsize] at under above
    omega

/-- When `kfree` accepts the two ranges, they are all managed pages. -/
theorem initialPages_managed
    (low : ∀ frame ∈ (freeAddrs ld.endAddr entryEnd).map frameAt, frame.Valid ld)
    (high : ∀ frame ∈ (freeAddrs entryEnd (kernbase + phystop)).map frameAt, frame.Valid ld) :
    Managed ld (initialPages ld) := by
  refine ⟨initialPages_nodup ld, fun {frame} => ?_⟩
  rw [initialPages, Multiset.mem_add, Multiset.mem_coe, Multiset.mem_coe]
  constructor
  · rintro (member | member)
    · exact low frame member
    · exact high frame member
  · rintro ⟨above, below⟩
    rw [mem_lowPages, mem_highPages]
    simp only [entryEnd, kernbase, pgsize, phystop] at *
    omega

/-- `main` distributes all managed pages, and leaves many of them free. -/
theorem bootMemory_ok {others : Nat} {mem : Frame → Page} {b : BootMemory}
    (ran : bootMemory ld others mem = .ok b) :
    Managed ld ((b.kmem.freelist : Multiset Frame) + (b.kpgdir.frames + b.cpuStacks)) ∧
      0x400 ≤ b.kmem.freelist.length := by
  obtain ⟨km₁, first, ran⟩ := Kern.bind_eq_ok.mp ran
  obtain ⟨⟨made, km₂⟩, setup, ran⟩ := Kern.bind_eq_ok.mp ran
  cases made with
  | none => cases ran
  | some kpgdir =>
      obtain ⟨km₄, second, ran⟩ := Kern.bind_eq_ok.mp ran
      cases ran
      obtain ⟨listed, low⟩ := freeLoop_ok first
      obtain ⟨listed', high⟩ := freeLoop_ok second
      have managed := initialPages_managed low high
      rw [List.append_nil] at listed
      have free : FreeOk ld km₁ := by
        refine ⟨?_, fun frame member => ?_⟩
        · rw [listed, ← Multiset.coe_nodup, Multiset.coe_reverse]
          exact (Multiset.nodup_add.mp managed.nodup).1
        · rw [listed, List.mem_reverse] at member
          exact low frame member
      have taken := (setupkvm_made free setup).1
      have taken' := startothers_conserved others km₂
      have total : (km₄.freelist : Multiset Frame) +
          (kpgdir.frames + (startothers others km₂).1) = initialPages ld := by
        have start : (km₁.freelist : Multiset Frame) =
            (freeAddrs ld.endAddr entryEnd).map frameAt := by
          rw [listed, Multiset.coe_reverse]
        rw [initialPages, ← start, ← taken, ← taken', listed', ← Multiset.coe_add,
          Multiset.coe_reverse]
        abel
      refine ⟨total ▸ managed, ?_⟩
      have many : 0x400 ≤ (freeAddrs entryEnd (kernbase + phystop)).length := by
        unfold freeAddrs
        rw [List.length_map, List.length_range]
        decide
      rw [listed', List.length_append, List.length_reverse, List.length_map]
      omega

/-- With a kernel that leaves 65 pages below 4 MB the memory is set up. -/
theorem bootMemory_succeeds (low : ld.endAddr + 66 * pgsize ≤ entryEnd) (others : Nat)
    (mem : Frame → Page) : ∃ b, bootMemory ld others mem = .ok b := by
  have entry : entryEnd = 0x80400000 := rfl
  have lower (frame : Frame) (member : frame ∈ (freeAddrs ld.endAddr entryEnd).map frameAt) :
      frame.Valid ld := by
    obtain ⟨above, below⟩ := mem_lowPages.mp member
    refine ⟨above, ?_⟩
    simp only [kernbase, pgsize, phystop] at *
    omega
  have high (frame : Frame)
      (member : frame ∈ (freeAddrs entryEnd (kernbase + phystop)).map frameAt) :
      frame.Valid ld := by
    obtain ⟨above, below⟩ := mem_highPages.mp member
    unfold Frame.Valid
    simp only [kernbase, pgsize, phystop] at *
    omega
  obtain ⟨km₁, first⟩ := freeLoop_succeeds lower ⟨[], mem⟩
  have many : 65 ≤ km₁.freelist.length := by
    rw [(freeLoop_ok first).1, List.length_append, List.length_reverse, List.length_map, freeAddrs,
      List.length_map, List.length_range, pgRoundUp_eq]
    all_goals
      simp only [pgsize] at *
      omega
  obtain ⟨kpgdir, km₂, setup, _⟩ := setupkvm_succeeds ld many
  obtain ⟨km₃, second⟩ := freeLoop_succeeds high (startothers others km₂).2
  exact ⟨_, Kern.bind_eq_ok.mpr ⟨km₁, first, Kern.bind_eq_ok.mpr ⟨(some kpgdir, km₂), setup,
    Kern.bind_eq_ok.mpr ⟨km₃, second, rfl⟩⟩⟩⟩

/-! ## userinit -/

/-- With a page to spare for the page table, `inituvm` loses nothing. -/
theorem inituvm_conserved {d d' : Pgdir} {init : List UInt8} (enough : 2 ≤ km.freelist.length)
    (ran : inituvm km d init = .ok (km', d')) :
    (km'.freelist : Multiset Frame) + d'.frames = km.freelist + d.frames := by
  obtain ⟨frame, ⟨mem, mapped⟩ | ⟨listed, _, empty⟩⟩ := inituvm_cases ran
  · exact mapped.conserved
  · rw [listed, empty, List.length_singleton] at enough
    omega

/-- With 68 free pages the first process takes its pages from the free list. -/
theorem userinit_pages {initcode : List UInt8} {root : Nat} {s : Kernel} (free : FreeOk ld km)
    (enough : 68 ≤ km.freelist.length)
    (ran : userinit ld initcode root (Kernel.blank km) = .ok s) : s.pages = km.freelist := by
  obtain ⟨u, kstack, blank, km₁, km₂, d, stacked, setup, loaded, rfl⟩ := userinit_eq_ok ran
  have listed : km.freelist = kstack :: u.kmem.freelist := stacked.listed
  rw [listed, List.length_cons] at enough
  obtain ⟨made, next, setup', few⟩ := setupkvm_succeeds ld (by omega : 65 ≤ u.kmem.freelist.length)
  rw [setup] at setup'
  cases setup'
  have total := (setupkvm_made (free.rest listed) setup).1
  have conserved := inituvm_conserved (by omega) loaded
  rw [total] at conserved
  obtain ⟨kstack', d', boot⟩ := userinit_booted free ran
  have first := boot.first
  simp only [Kernel.modify_self, Kernel.setKmem_proc, stacked.proc] at first
  obtain rfl : d = d' := Option.some.inj (congrArg Proc.pgdir first)
  obtain rfl : kstack = kstack' := Option.some.inj (congrArg Proc.kstack first)
  rw [boot.pages]
  change (km₂.freelist : Multiset Frame) + ({kstack} + d.frames) = _
  rw [add_left_comm, conserved, listed]
  rfl

end SlabStudy.Xv6
