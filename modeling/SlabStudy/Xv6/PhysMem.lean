import Mathlib.Data.Multiset.AddSub
import SlabStudy.Xv6.Machine

/-!
# The physical page allocator

`kalloc.c` keeps the free pages on a list.  A page is named by its physical
page number, and the contents of all pages form one memory.  The pointer that
`kfree` stores in a free page is part of the list here, not of the contents.
-/

namespace SlabStudy.Xv6

/-- Physical page numbers: the upper twenty bits of a physical address. -/
abbrev Frame := BitVec 20

/-- The bytes of one page. -/
abbrev Page := Fin pgsize → UInt8

/-- The free list together with the contents of physical memory. -/
structure Kmem where
  freelist : List Frame
  mem : Frame → Page

namespace Kmem

/-- `memset(v, byte, PGSIZE)`. -/
def fill (km : Kmem) (frame : Frame) (byte : UInt8) : Kmem :=
  { km with mem := Function.update km.mem frame fun _ => byte }

/-- `memmove(dst, src, PGSIZE)`. -/
def copyPage (km : Kmem) (dst src : Frame) : Kmem :=
  { km with mem := Function.update km.mem dst (km.mem src) }

@[simp] theorem fill_freelist (km : Kmem) (frame : Frame) (byte : UInt8) :
    (km.fill frame byte).freelist = km.freelist := rfl

@[simp] theorem copyPage_freelist (km : Kmem) (dst src : Frame) :
    (km.copyPage dst src).freelist = km.freelist := rfl

theorem fill_mem_of_ne (km : Kmem) {frame other : Frame} (byte : UInt8)
    (apart : other ≠ frame) : (km.fill frame byte).mem other = km.mem other :=
  Function.update_of_ne apart _ _

theorem copyPage_mem_of_ne (km : Kmem) {dst other : Frame} (src : Frame)
    (apart : other ≠ dst) : (km.copyPage dst src).mem other = km.mem other :=
  Function.update_of_ne apart _ _

@[simp] theorem copyPage_mem_self (km : Kmem) (dst src : Frame) :
    (km.copyPage dst src).mem dst = km.mem src :=
  Function.update_self _ _ _

end Kmem

/-- The pages that `kfree` accepts: behind the kernel and below `PHYSTOP`. -/
def Frame.Valid (ld : Linkage) (frame : Frame) : Prop :=
  ld.endAddr ≤ frame.toNat * pgsize + kernbase ∧ frame.toNat * pgsize < phystop

instance (ld : Linkage) (frame : Frame) : Decidable (frame.Valid ld) :=
  inferInstanceAs (Decidable (_ ∧ _))

/-- Put a page back on the free list, filled with junk. -/
def kfree (ld : Linkage) (km : Kmem) (frame : Frame) : Kern Kmem :=
  if frame.Valid ld then
    .ok { freelist := frame :: km.freelist, mem := (km.fill frame 1).mem }
  else
    .error .kfree

/-- Take the first free page; none is the null pointer. -/
def kalloc (km : Kmem) : Option (Frame × Kmem) :=
  match km.freelist with
  | [] => none
  | frame :: rest => some (frame, { km with freelist := rest })

/-- Physical page zero lies below the kernel. -/
theorem Frame.Valid.ne_zero {ld : Linkage} {frame : Frame} (valid : frame.Valid ld) :
    frame ≠ 0 := by
  rintro rfl
  have low := valid.1
  have text := ld.kernlink_lt_data
  have order := ld.data_le_end
  simp only [BitVec.ofNat_eq_ofNat, BitVec.toNat_ofNat, pgsize, kernbase, kernlink, extmem] at *
  omega

theorem kalloc_eq_none_iff {km : Kmem} : kalloc km = none ↔ km.freelist = [] := by
  unfold kalloc
  cases km.freelist <;> simp

theorem kalloc_eq_some_iff {km next : Kmem} {frame : Frame} :
    kalloc km = some (frame, next) ↔
      km.freelist = frame :: next.freelist ∧ next.mem = km.mem := by
  obtain ⟨freelist, mem⟩ := km
  obtain ⟨rest, after⟩ := next
  cases freelist with
  | nil => simp [kalloc]
  | cons first others =>
      simp only [kalloc, Option.some.injEq, Prod.mk.injEq, Kmem.mk.injEq, List.cons.injEq]
      constructor
      · rintro ⟨rfl, rfl, rfl⟩
        exact ⟨⟨rfl, rfl⟩, rfl⟩
      · rintro ⟨⟨rfl, rfl⟩, rfl⟩
        exact ⟨rfl, rfl, rfl⟩

theorem kfree_of_valid {ld : Linkage} {frame : Frame} (km : Kmem) (valid : frame.Valid ld) :
    ∃ next, kfree ld km frame = .ok next :=
  ⟨_, if_pos valid⟩

theorem kfree_eq_ok {ld : Linkage} {km next : Kmem} {frame : Frame}
    (freed : kfree ld km frame = .ok next) :
    frame.Valid ld ∧ next.freelist = frame :: km.freelist ∧
      ∀ other, other ≠ frame → next.mem other = km.mem other := by
  unfold kfree at freed
  split at freed
  · next valid =>
      cases freed
      exact ⟨valid, rfl, fun other apart => km.fill_mem_of_ne 1 apart⟩
  · cases freed

/-- A computation in `Kern` that ends normally does so in both of its halves. -/
theorem Kern.bind_eq_ok {α β : Type} {first : Kern α} {second : α → Kern β} {result : β} :
    first >>= second = .ok result ↔ ∃ value, first = .ok value ∧ second value = .ok result := by
  cases first with
  | error reason => simp [bind, Except.bind]
  | ok value => simp [bind, Except.bind]

/-- A computation in `Kern` stops in its first half, or in its second. -/
theorem Kern.bind_eq_error {α β : Type} {first : Kern α} {second : α → Kern β} {reason : Panic} :
    first >>= second = .error reason ↔
      first = .error reason ∨ ∃ value, first = .ok value ∧ second value = .error reason := by
  cases first with
  | error other => simp [bind, Except.bind]
  | ok value => simp [bind, Except.bind]

end SlabStudy.Xv6
