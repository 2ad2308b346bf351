import SlabStudy.Xv6.UmallocRuns

/-!
# The order of the free list

From any position of `freep`, `free` puts a block at its place in the circular
list and joins it with the blocks that it touches, and `malloc` takes its units
from one block.  The list stays in order, and no block touches another.
-/

namespace SlabStudy.Xv6.Umalloc

open Library

/--
The free list links the header `base`, which has no units, and the blocks
behind it in the order of their addresses, and ends where it began.
-/
structure FreeList (h : Heap) (blocks : List Area) : Prop where
  ring : Chain h.next (some h.base) (h.base :: blocks.map Area.addr) (some h.base)
  freep : h.freep ∈ h.base :: blocks.map Area.addr
  empty : (h.mem h.base).size = 0
  sizes : ∀ a ∈ blocks, (h.mem a.addr).size = a.units
  units : ∀ a ∈ blocks, 0 < a.units
  loose : Loose blocks
  inside : ∀ a ∈ blocks, h.base + headerSize ≤ a.addr ∧ a.fin ≤ h.sz
  base : 0 < h.base
  loaded : h.base + headerSize ≤ h.sz
  user : h.sz < kernbase

/-- A block of the program's memory that has its size in its header and is in no block of the list. -/
structure Freeable (h : Heap) (blocks : List Area) (b : Area) : Prop where
  units : 0 < b.units
  size : (h.mem b.addr).size = b.units
  above : h.base + headerSize ≤ b.addr
  inside : b.fin ≤ h.sz
  apart : ∀ a ∈ blocks, a.Apart b

section Lists

variable {start : Nat} {h : Heap} {blocks live : List Area} {a b : Area}

theorem FreeList.areas (list : FreeList h blocks) (others : ∀ b ∈ live, Freeable h blocks b)
    (apart : live.Pairwise Area.Apart) : Areas (h.base + headerSize) h.sz blocks live := by
  refine ⟨fun a member => ?_, fun a member => ?_, ?_, apart, fun a member b other =>
    (others b other).apart a member⟩
  · rcases List.mem_append.mp member with listed | other
    · exact list.units a listed
    · exact (others a other).units
  · rcases List.mem_append.mp member with listed | other
    · exact list.inside a listed
    · exact ⟨(others a other).above, (others a other).inside⟩
  · apply list.loose.imp
    intro a b gap
    exact gap.le

/-- The list and blocks that are not in it. -/
theorem FreeList.inv (list : FreeList h blocks) (live : List Area)
    (others : ∀ b ∈ live, Freeable h blocks b) (apart : live.Pairwise Area.Apart) :
    HeapInv (h.base + headerSize) h blocks live := by
  refine ⟨⟨list.base, Nat.le_refl _, list.loaded, list.user⟩, list.areas others apart, list.ring,
    list.empty, fun a member => ?_, list.freep⟩
  rcases List.mem_append.mp member with listed | other
  · exact list.sizes a listed
  · exact (others a other).size

theorem HeapInv.list (inv : HeapInv start h blocks live) (first : start = h.base + headerSize)
    (loose : Loose blocks) : FreeList h blocks := by
  subst first
  constructor
  · exact inv.ring
  · exact inv.freep
  · exact inv.empty
  · exact fun a member => inv.sizes a (List.mem_append_left _ member)
  · exact fun a member => inv.areas.units a (List.mem_append_left _ member)
  · exact loose
  · exact fun a member => inv.areas.inside a (List.mem_append_left _ member)
  · exact inv.bounds.base
  · exact inv.bounds.order
  · exact inv.bounds.user

/-- Areas that are apart have no units in common. -/
theorem Areas.units_disjoint {lo hi : Nat} (areas : Areas lo hi blocks (a :: live)) :
    Disjoint (unitsOf blocks) (unitsOf [a]) := by
  rw [Set.disjoint_left]
  rintro x ⟨c, member, k, inside, rfl⟩ ⟨e, own, j, inside', same⟩
  obtain rfl := List.mem_singleton.mp own
  have apart := areas.disjoint c member e List.mem_cons_self
  simp only [Area.Apart, Area.fin, headerSize] at apart same
  omega

/-- The list keeps its form: `free` adds the units of the block, and `malloc` takes what it gives. -/
theorem free_list_kept (list : FreeList h blocks) :
    (∀ b, Freeable h blocks b → ∃ h' blocks', h.free (b.addr + headerSize) = some h' ∧
        FreeList h' blocks' ∧ h'.base = h.base ∧ h'.sz = h.sz ∧
        unitsOf blocks' = unitsOf blocks ∪ unitsOf [b]) ∧
      ∀ grants nbytes, (∃ a ∈ blocks, Heap.units nbytes ≤ a.units) →
        ∃ a h' blocks', h.malloc grants nbytes = some (a.addr + headerSize, h') ∧
          a.units = Heap.units nbytes ∧ FreeList h' blocks' ∧ h'.base = h.base ∧ h'.sz = h.sz ∧
          unitsOf [a] ⊆ unitsOf blocks ∧ unitsOf blocks' = unitsOf blocks \ unitsOf [a] := by
  constructor
  · intro b freeable
    have inv := list.inv [b] (List.forall_mem_singleton.mpr freeable) (List.pairwise_singleton ..)
    obtain ⟨h', blocks', freed, after, _, base, sz, units, loose⟩ := inv.frees
    exact ⟨h', blocks', freed, after.list (by rw [base]) (loose list.loose), base, sz, units⟩
  · intro grants nbytes large
    have inv := list.inv [] nofun .nil
    have positive : 0 < Heap.units nbytes := Nat.succ_pos _
    have few := inv.areas.length_le
    have user := list.user
    have enough : blocks.length < fuel := by
      simp only [fuel, kernbase] at user ⊢
      omega
    obtain ⟨left, prev, p, before, here, link, fits, walked⟩ := inv.reaches grants large enough
    obtain ⟨h', blocks', a, taken, count, after, base, sz, units, loose⟩ :=
      inv.take positive before here link fits
    refine ⟨a, h', blocks', ?_, count, after.list (by rw [base]) (loose list.loose), base, sz, ?_, ?_⟩
    · unfold Heap.malloc
      simp only [inv.freep_ne, if_false]
      rw [walked, Heap.mallocLoop, if_pos fits, taken]
    · rw [units]
      exact Set.subset_union_right
    · rw [units, Set.union_sdiff_right]
      exact (sdiff_eq_left.mpr after.areas.units_disjoint).symm

end Lists

/-- A list of one block of four units, and behind it two units that have been allocated. -/
def smallHeap : Heap where
  base := 4088
  freep := 4088
  mem := fun p => if p = 4088 then ⟨8192, 0⟩ else if p = 8192 then ⟨4088, 4⟩ else ⟨0, 2⟩
  sz := 16384

theorem smallHeap_list : FreeList smallHeap [⟨8192, 4⟩] := by
  constructor
  · exact ⟨rfl, rfl, rfl⟩
  · exact List.mem_cons_self
  · rfl
  · exact List.forall_mem_singleton.mpr rfl
  · exact List.forall_mem_singleton.mpr (by decide)
  · exact List.pairwise_singleton ..
  · exact List.forall_mem_singleton.mpr (by decide)
  · decide
  · decide
  · decide

theorem free_list_kept_two : ∃ h blocks, smallHeap.free 8232 = some h ∧ FreeList h blocks ∧
    unitsOf blocks = unitsOf [⟨8192, 4⟩] ∪ unitsOf [⟨8224, 2⟩] := by
  obtain ⟨frees, _⟩ := free_list_kept smallHeap_list
  have freeable : Freeable smallHeap [⟨8192, 4⟩] ⟨8224, 2⟩ :=
    ⟨by decide, rfl, by decide, by decide, List.forall_mem_singleton.mpr (.inl (by decide))⟩
  obtain ⟨h, blocks, freed, list, _, _, units⟩ := frees ⟨8224, 2⟩ freeable
  exact ⟨h, blocks, freed, list, units⟩

end SlabStudy.Xv6.Umalloc
