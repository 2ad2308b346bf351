import SlabStudy.Library.Chain
import SlabStudy.Xv6.Umalloc

/-!
# The free list of a program

The memory that a program has from `sbrk` is cut into areas, each behind its
header.  The free ones are linked in the order of their addresses; `free` puts
an area among them and joins it with the areas that it touches, and `malloc`
takes the end of one, after `morecore` has freed an area of new memory if there
is none of the size.
-/

namespace SlabStudy.Xv6.Umalloc

open Library

/-! ## Areas -/

/-- A header and the memory behind it. -/
structure Area where
  addr : Nat
  units : Nat
  deriving DecidableEq, Repr

namespace Area

def fin (a : Area) : Nat := a.addr + a.units * headerSize

def Apart (a b : Area) : Prop := a.fin ≤ b.addr ∨ b.fin ≤ a.addr

theorem Apart.symm {a b : Area} (apart : a.Apart b) : b.Apart a := Or.symm apart

instance : Std.Symm Apart := ⟨fun _ _ => Apart.symm⟩

end Area

/-- The addresses of the units of some areas. -/
def unitsOf (l : List Area) : Set Nat :=
  {x | ∃ a ∈ l, ∃ k < a.units, x = a.addr + k * headerSize}

/-- In order of addresses, and no area ends where the next one begins. -/
def Loose (l : List Area) : Prop := l.Pairwise fun a b => a.fin < b.addr

section Units

variable {a b : Area} {front back : List Area}

@[simp] theorem unitsOf_nil : unitsOf [] = ∅ := by
  simp [unitsOf]

theorem unitsOf_append : unitsOf (front ++ back) = unitsOf front ∪ unitsOf back := by
  ext x
  simp only [unitsOf, List.mem_append, Set.mem_ofPred_eq, Set.mem_union]
  constructor
  · rintro ⟨c, early | late, own⟩
    · exact .inl ⟨c, early, own⟩
    · exact .inr ⟨c, late, own⟩
  · rintro (⟨c, early, own⟩ | ⟨c, late, own⟩)
    · exact ⟨c, .inl early, own⟩
    · exact ⟨c, .inr late, own⟩

theorem unitsOf_cons : unitsOf (a :: back) = unitsOf [a] ∪ unitsOf back :=
  @unitsOf_append [a] back

theorem unitsOf_middle : unitsOf (front ++ a :: back) = unitsOf (front ++ back) ∪ unitsOf [a] := by
  rw [unitsOf_append, unitsOf_cons, unitsOf_append, Set.union_assoc, Set.union_comm (unitsOf back)]

/-- Two areas that touch have the units of one. -/
theorem unitsOf_merge (touch : a.fin = b.addr) :
    unitsOf [⟨a.addr, a.units + b.units⟩] = unitsOf [a] ∪ unitsOf [b] := by
  ext x
  simp only [unitsOf, List.mem_singleton, exists_eq_left, Set.mem_ofPred_eq, Set.mem_union]
  simp only [Area.fin, headerSize] at touch ⊢
  constructor
  · rintro ⟨k, inside, rfl⟩
    by_cases first : k < a.units
    · exact .inl ⟨k, first, rfl⟩
    · exact .inr ⟨k - a.units, by omega, by omega⟩
  · rintro (⟨k, inside, rfl⟩ | ⟨k, inside, rfl⟩)
    · exact ⟨k, by omega, rfl⟩
    · exact ⟨a.units + k, by omega, by omega⟩

end Units

/-- Areas between two addresses that do not overlap, those in the free list in order. -/
structure Areas (lo hi : Nat) (free live : List Area) : Prop where
  units : ∀ a ∈ free ++ live, 0 < a.units
  inside : ∀ a ∈ free ++ live, lo ≤ a.addr ∧ a.fin ≤ hi
  sorted : free.Pairwise fun a b => a.fin ≤ b.addr
  apart : live.Pairwise Area.Apart
  disjoint : ∀ a ∈ free, ∀ b ∈ live, a.Apart b

namespace Areas

variable {lo hi : Nat} {free live front back : List Area} {a b c : Area}

/-- An area that is apart from those of an ordered list has its place in it. -/
theorem place (sorted : free.Pairwise fun a b => a.fin ≤ b.addr) (positive : ∀ a ∈ free, 0 < a.units)
    (apart : ∀ a ∈ free, a.Apart b) : ∃ front back, free = front ++ back ∧
      (∀ a ∈ front, a.fin ≤ b.addr) ∧ ∀ a ∈ back, b.fin ≤ a.addr := by
  induction free with
  | nil => exact ⟨[], [], rfl, nofun, nofun⟩
  | cons a free ih =>
      obtain ⟨first, rest⟩ := List.pairwise_cons.mp sorted
      rcases apart a List.mem_cons_self with before | behind
      · obtain ⟨front, back, split, low, high⟩ := ih rest
          (fun c member => positive c (List.mem_cons_of_mem _ member))
          (fun c member => apart c (List.mem_cons_of_mem _ member))
        refine ⟨a :: front, back, congrArg _ split, fun c member => ?_, high⟩
        rcases List.mem_cons.mp member with rfl | later
        · exact before
        · exact low c later
      · refine ⟨[], a :: free, rfl, nofun, fun c member => ?_⟩
        rcases List.mem_cons.mp member with rfl | later
        · exact behind
        · have order := first c later
          unfold Area.fin at *
          omega

theorem mem_swap : c ∈ front ++ a :: back ++ live ↔ c ∈ front ++ back ++ a :: live := by
  simp only [List.mem_append, List.mem_cons]
  tauto

theorem mem_middle : c ∈ front ++ a :: back ++ live ↔ c = a ∨ c ∈ front ++ back ++ live := by
  simp only [List.mem_append, List.mem_cons]
  tauto

/-- A live area becomes a free one, at its place in the order. -/
theorem insertAt (areas : Areas lo hi (front ++ back) (b :: live))
    (low : ∀ a ∈ front, a.fin ≤ b.addr) (high : ∀ a ∈ back, b.fin ≤ a.addr) :
    Areas lo hi (front ++ b :: back) live := by
  obtain ⟨others, apart⟩ := List.pairwise_cons.mp areas.apart
  obtain ⟨left, right, order⟩ := List.pairwise_append.mp areas.sorted
  refine ⟨fun a member => areas.units a (mem_swap.mp member),
    fun a member => areas.inside a (mem_swap.mp member),
    ?_, apart, fun a member c live => ?_⟩
  · rw [List.pairwise_append, List.pairwise_cons]
    refine ⟨left, ⟨high, right⟩, fun a early c late => ?_⟩
    rcases List.mem_cons.mp late with rfl | late
    · exact low a early
    · exact order a early c late
  · have disjoint := fun a free => areas.disjoint a free c (List.mem_cons_of_mem _ live)
    simp only [List.mem_append, List.mem_cons] at member disjoint
    rcases member with early | rfl | late
    · exact disjoint a (.inl early)
    · exact others c live
    · exact disjoint a (.inr late)

theorem insert (areas : Areas lo hi free (b :: live)) : ∃ front back, free = front ++ back ∧
    (∀ a ∈ front, a.fin ≤ b.addr) ∧ (∀ a ∈ back, b.fin ≤ a.addr) ∧
    Areas lo hi (front ++ b :: back) live := by
  have positive : ∀ a ∈ free, 0 < a.units := fun a member =>
    areas.units a (List.mem_append_left _ member)
  have alone : ∀ a ∈ free, a.Apart b := fun a member =>
    areas.disjoint a member b List.mem_cons_self
  obtain ⟨front, back, rfl, low, high⟩ := place areas.sorted positive alone
  exact ⟨front, back, rfl, low, high, areas.insertAt low high⟩

/-- The areas in front of and behind an area of the free list. -/
theorem around (areas : Areas lo hi (front ++ a :: back) live) :
    (∀ c ∈ front, c.fin ≤ a.addr) ∧ ∀ c ∈ back, a.fin ≤ c.addr := by
  obtain ⟨_, behind, order⟩ := List.pairwise_append.mp areas.sorted
  exact ⟨fun c member => order c member a List.mem_cons_self, (List.pairwise_cons.mp behind).1⟩

/-- A free area becomes a live one. -/
theorem remove (areas : Areas lo hi (front ++ a :: back) live) :
    Areas lo hi (front ++ back) (a :: live) := by
  obtain ⟨left, behind, order⟩ := List.pairwise_append.mp areas.sorted
  obtain ⟨high, right⟩ := List.pairwise_cons.mp behind
  have others : ∀ c ∈ front ++ back, c ∈ front ++ a :: back := by
    intro c member
    simp only [List.mem_append, List.mem_cons] at member ⊢
    tauto
  have here : a ∈ front ++ a :: back := by simp
  refine ⟨fun c member => areas.units c (mem_swap.mpr member),
    fun c member => areas.inside c (mem_swap.mpr member),
    ?_, ?_, fun c member d live => ?_⟩
  · exact List.pairwise_append.mpr
      ⟨left, right, fun c early d late => order c early d (List.mem_cons_of_mem _ late)⟩
  · exact List.pairwise_cons.mpr ⟨areas.disjoint a here, areas.apart⟩
  · rcases List.mem_cons.mp live with rfl | live
    · rcases List.mem_append.mp member with early | late
      · exact .inl (order c early _ List.mem_cons_self)
      · exact .inr (high c late)
    · exact areas.disjoint c (others c member) d live

/-- The live areas are exchanged for others in the same place. -/
theorem exchange (old new : List Area) (areas : Areas lo hi free (old ++ live))
    (units : ∀ a ∈ new, 0 < a.units) (inside : ∀ a ∈ new, lo ≤ a.addr ∧ a.fin ≤ hi)
    (apart : new.Pairwise Area.Apart)
    (covered : ∀ a ∈ new, ∀ c ∈ free ++ live, (∀ b ∈ old, b.Apart c) → a.Apart c) :
    Areas lo hi free (new ++ live) := by
  obtain ⟨_, rest, across⟩ := List.pairwise_append.mp areas.apart
  have kept : ∀ c ∈ free ++ live, c ∈ free ++ (old ++ live) := by
    intro c member
    simp only [List.mem_append] at member ⊢
    tauto
  refine ⟨fun a member => ?_, fun a member => ?_, areas.sorted, ?_, fun a member c live => ?_⟩
  · by_cases here : a ∈ new
    · exact units a here
    · refine areas.units a (kept a ?_)
      simp only [List.mem_append] at member ⊢
      tauto
  · by_cases here : a ∈ new
    · exact inside a here
    · refine areas.inside a (kept a ?_)
      simp only [List.mem_append] at member ⊢
      tauto
  · refine List.pairwise_append.mpr ⟨apart, rest, fun a here c live => ?_⟩
    exact covered a here c (List.mem_append_right _ live) fun b there => across b there c live
  · rcases List.mem_append.mp live with here | live
    · refine (covered c here a (List.mem_append_left _ member) fun b there => ?_).symm
      exact (areas.disjoint a member b (List.mem_append_left _ there)).symm
    · exact areas.disjoint a member c (List.mem_append_right _ live)

/-- Two areas that touch are one. -/
theorem merge (areas : Areas lo hi (front ++ a :: b :: back) live) (touch : a.fin = b.addr) :
    Areas lo hi (front ++ ⟨a.addr, a.units + b.units⟩ :: back) live := by
  have fin : (⟨a.addr, a.units + b.units⟩ : Area).fin = b.fin := by
    simp only [Area.fin, headerSize] at *
    omega
  obtain ⟨low, _⟩ := areas.around
  have second : Areas lo hi (front ++ [a] ++ b :: back) live := by
    rw [List.append_assoc]
    exact areas
  obtain ⟨_, high⟩ := second.around
  have first := second.remove
  rw [List.append_assoc] at first
  have here : a ∈ front ++ a :: b :: back ++ live := by simp
  have there : b ∈ front ++ a :: b :: back ++ live := by simp
  have joined : Areas lo hi (front ++ back) ([⟨a.addr, a.units + b.units⟩] ++ live) := by
    refine exchange [a, b] _ first.remove (fun c member => ?_) (fun c member => ?_) (by simp)
      fun c member d other apart => ?_
    · cases List.mem_singleton.mp member
      exact Nat.lt_of_lt_of_le (areas.units a here) (Nat.le_add_right ..)
    · cases List.mem_singleton.mp member
      rw [fin]
      exact ⟨(areas.inside a here).1, (areas.inside b there).2⟩
    · cases List.mem_singleton.mp member
      have left := apart a (by simp)
      have right := apart b (by simp)
      have some := first.remove.units d (by
        simp only [List.mem_append, List.mem_cons] at other ⊢
        tauto)
      simp only [Area.Apart, Area.fin, headerSize] at *
      omega
  exact insertAt joined low (by rw [fin]; exact high)

/-- The end of a free area is cut off. -/
theorem cut (areas : Areas lo hi (front ++ a :: back) live) {n : Nat} (some : 0 < n)
    (less : n < a.units) : Areas lo hi (front ++ ⟨a.addr, a.units - n⟩ :: back)
      (⟨a.addr + (a.units - n) * headerSize, n⟩ :: live) := by
  obtain ⟨low, high⟩ := areas.around
  obtain ⟨first, last⟩ := areas.inside a (by simp)
  have parts : Areas lo hi (front ++ back)
      ([⟨a.addr, a.units - n⟩, ⟨a.addr + (a.units - n) * headerSize, n⟩] ++ live) := by
    refine exchange [a] _ areas.remove (fun c member => ?_) (fun c member => ?_) ?_
      fun c member d _ apart => ?_
    · simp only [List.mem_cons, List.not_mem_nil, or_false] at member
      rcases member with rfl | rfl
      · exact Nat.sub_pos_of_lt less
      · exact some
    · simp only [List.mem_cons, List.not_mem_nil, or_false] at member
      simp only [Area.fin, headerSize] at *
      rcases member with rfl | rfl
      · dsimp only
        omega
      · dsimp only
        omega
    · exact List.pairwise_pair.mpr (.inl (Nat.le_refl _))
    · have whole := apart a (by simp)
      simp only [List.mem_cons, List.not_mem_nil, or_false] at member
      simp only [Area.Apart, Area.fin, headerSize] at *
      rcases member with rfl | rfl
      · dsimp only
        omega
      · dsimp only
        omega
  refine insertAt parts low fun c member => ?_
  have behind := high c member
  simp only [Area.fin, headerSize] at *
  omega

/-- New memory is an area of its own. -/
theorem grow (areas : Areas lo hi free live) (order : lo ≤ hi) {n : Nat} (some : 0 < n) :
    Areas lo (hi + n * headerSize) free (⟨hi, n⟩ :: live) := by
  have wider : Areas lo (hi + n * headerSize) free live := by
    refine ⟨areas.units, fun a member => ?_, areas.sorted, areas.apart, areas.disjoint⟩
    obtain ⟨low, high⟩ := areas.inside a member
    exact ⟨low, Nat.le_add_right_of_le high⟩
  refine exchange [] [⟨hi, n⟩] wider (fun a member => ?_) (fun a member => ?_)
    (List.pairwise_singleton ..) fun a member c other _ => ?_
  · cases List.mem_singleton.mp member
    exact some
  · cases List.mem_singleton.mp member
    exact ⟨order, Nat.le_refl _⟩
  · cases List.mem_singleton.mp member
    exact .inr (areas.inside c other).2

theorem perm {live' : List Area} (areas : Areas lo hi free live) (same : live.Perm live') :
    Areas lo hi free live' := by
  have members : ∀ a, a ∈ free ++ live' ↔ a ∈ free ++ live := fun a => by
    rw [List.mem_append, List.mem_append, same.mem_iff]
  exact ⟨fun a member => areas.units a ((members a).mp member),
    fun a member => areas.inside a ((members a).mp member), areas.sorted,
    (same.pairwise_iff Area.Apart.symm).mp areas.apart,
    fun a member c live => areas.disjoint a member c (same.mem_iff.mpr live)⟩

/-- No other area has the address of a live one. -/
theorem live_alone (areas : Areas lo hi free (b :: live)) (member : c ∈ free ++ live) :
    c.addr ≠ b.addr := by
  have positive := areas.units b (by simp)
  have other := areas.units c (by
    simp only [List.mem_append, List.mem_cons] at member ⊢
    tauto)
  have apart : c.Apart b := by
    rcases List.mem_append.mp member with early | live
    · exact areas.disjoint c early b List.mem_cons_self
    · exact ((List.pairwise_cons.mp areas.apart).1 c live).symm
  simp only [Area.Apart, Area.fin, headerSize] at apart
  omega

/-- No other area has the address of one of the free list. -/
theorem alone (areas : Areas lo hi (front ++ a :: back) live) (member : c ∈ front ++ back ++ live) :
    c.addr ≠ a.addr :=
  areas.remove.live_alone member

/-- The free list is in order of addresses. -/
theorem ascending (areas : Areas lo hi free live) : (free.map Area.addr).Pairwise (· < ·) := by
  refine List.pairwise_map.mpr (areas.sorted.imp_of_mem fun {a b} left _ order => ?_)
  have positive := areas.units a (List.mem_append_left _ left)
  simp only [Area.fin, headerSize] at order
  omega

/-- There are fewer areas in the free list than bytes of memory. -/
theorem length_le (areas : Areas lo hi free live) : free.length ≤ hi := by
  have nodup : (free.map Area.addr).Nodup := areas.ascending.imp ne_of_lt
  have below : free.map Area.addr ⊆ List.range hi := by
    intro x member
    obtain ⟨a, inside, rfl⟩ := List.mem_map.mp member
    have positive := areas.units a (List.mem_append_left _ inside)
    have last := (areas.inside a (List.mem_append_left _ inside)).2
    simp only [Area.fin, headerSize] at last
    exact List.mem_range.mpr (by omega)
  have short := (nodup.subperm below).length_le
  rwa [List.length_map, List.length_range] at short

end Areas

/-! ## Headers in memory -/

namespace Heap

variable {h : Heap} {bp p q n f : Nat}

def next (h : Heap) (p : Nat) : Option Nat := some (h.mem p).ptr

@[simp] theorem setPtr_base : (h.setPtr p q).base = h.base := rfl
@[simp] theorem setPtr_sz : (h.setPtr p q).sz = h.sz := rfl
@[simp] theorem setSize_base : (h.setSize p n).base = h.base := rfl
@[simp] theorem setSize_sz : (h.setSize p n).sz = h.sz := rfl

@[simp] theorem setPtr_size (a : Nat) : ((h.setPtr p q).mem a).size = (h.mem a).size := by
  by_cases here : a = p
  · subst here
    simp [setPtr]
  · simp [setPtr, here]

theorem setPtr_next : (h.setPtr p q).next = Function.update h.next p (some q) := by
  funext a
  by_cases here : a = p
  · subst here
    simp [next, setPtr]
  · simp [next, setPtr, here]

@[simp] theorem setSize_ptr (a : Nat) : ((h.setSize p n).mem a).ptr = (h.mem a).ptr := by
  by_cases here : a = p
  · subst here
    simp [setSize]
  · simp [setSize, here]

@[simp] theorem setSize_next : (h.setSize p n).next = h.next :=
  funext fun a => congrArg some (setSize_ptr a)

@[simp] theorem setSize_self : ((h.setSize p n).mem p).size = n := by
  simp [setSize]

theorem setSize_other {a : Nat} (apart : a ≠ p) : ((h.setSize p n).mem a).size = (h.mem a).size := by
  simp [setSize, apart]

/-! ## The loop of free -/

/-- The loop ends at the first header of a chain that passes its test. -/
theorem freeLoop_walk {walked : List Nat} {w : Option Nat} {steps : Nat}
    (chain : Chain h.next (some f) (walked ++ [p]) w) (skips : ∀ y ∈ walked, h.between bp y = false)
    (ends : h.between bp p = true) (enough : walked.length < steps) :
    h.freeLoop bp steps f = some p := by
  obtain ⟨steps, rfl⟩ := Nat.exists_eq_succ_of_ne_zero (Nat.ne_of_gt (Nat.zero_lt_of_lt enough))
  induction walked generalizing f steps with
  | nil =>
      cases chain.1
      rw [freeLoop, if_pos ends]
  | cons y walked ih =>
      obtain ⟨same, rest⟩ := chain
      cases same
      have skip : ¬ h.between bp y = true := by
        rw [skips y List.mem_cons_self]
        exact Bool.false_ne_true
      obtain ⟨steps, rfl⟩ := Nat.exists_eq_succ_of_ne_zero
        (Nat.ne_of_gt (Nat.zero_lt_of_lt (Nat.lt_of_succ_lt_succ enough)))
      rw [freeLoop, if_neg skip]
      exact ih rest (fun z member => skips z (List.mem_cons_of_mem _ member)) steps
        (Nat.lt_of_succ_lt_succ enough)

/-- In an ordered ring the test finds the last header in front of `bp`. -/
theorem between_iff {l : List Nat} {b : Nat} (ring : Chain h.next (some b) (b :: l) (some b))
    (sorted : (b :: l).Pairwise (· < ·)) (above : b < bp) (apart : bp ∉ b :: l)
    (member : p ∈ b :: l) :
    h.between bp p = true ↔ p < bp ∧ ∀ u ∈ b :: l, u < bp → u ≤ p := by
  rcases ring.adjacent sorted member with ⟨n, target, link, order, gap⟩ | ⟨link, last⟩
  · have next : (h.mem p).ptr = n := Option.some.inj link
    have other : bp ≠ n := fun same => apart (same ▸ target)
    simp only [between, next, Bool.or_eq_true, Bool.and_eq_true, decide_eq_true_eq]
    constructor
    · rintro (⟨low, high⟩ | ⟨wraps, _⟩)
      · refine ⟨low, fun u inside less => (gap u inside).resolve_right ?_⟩
        omega
      · omega
    · rintro ⟨low, most⟩
      refine .inl ⟨low, ?_⟩
      by_contra high
      have behind := most n target (by omega)
      omega
  · have next : (h.mem p).ptr = b := Option.some.inj link
    have first := last b List.mem_cons_self
    simp only [between, next, Bool.or_eq_true, Bool.and_eq_true, decide_eq_true_eq]
    constructor
    · rintro (⟨low, high⟩ | ⟨_, low | high⟩)
      · omega
      · exact ⟨low, fun u inside _ => last u inside⟩
      · omega
    · rintro ⟨low, _⟩
      exact .inr ⟨first, .inl low⟩

/-- The loop of `free` finds the header behind which `bp` belongs, wherever it starts. -/
theorem freeLoop_finds {l front back : List Nat} {b : Nat} {steps : Nat}
    (ring : Chain h.next (some b) (b :: l) (some b)) (sorted : (b :: l).Pairwise (· < ·))
    (split : b :: l = front ++ p :: back) (low : p < bp) (high : ∀ u ∈ back, bp < u)
    (above : b < bp) (start : f ∈ b :: l) (enough : l.length < steps) :
    h.freeLoop bp steps f = some p := by
  have member : p ∈ b :: l := by
    rw [split]
    simp
  have before : ∀ u ∈ front, u < p := by
    rw [split] at sorted
    exact fun u inside => (List.pairwise_append.mp sorted).2.2 u inside p List.mem_cons_self
  have place : ∀ u ∈ b :: l, u ≤ p ∨ bp < u := by
    intro u inside
    rw [split, List.mem_append, List.mem_cons] at inside
    rcases inside with early | rfl | late
    · exact .inl (before u early).le
    · exact .inl le_rfl
    · exact .inr (high u late)
  have apart : bp ∉ b :: l := fun inside => by
    have := place bp inside
    omega
  obtain ⟨rest, around, same⟩ := ring.enter start
  obtain ⟨walked, later, cut⟩ := List.append_of_mem (same.mem_iff.mpr member)
  have nodup : (walked ++ p :: later).Nodup := by
    rw [← cut]
    exact same.nodup_iff.mpr (sorted.imp ne_of_lt)
  have short : walked.length ≤ l.length := by
    have total := same.length_eq
    rw [cut] at total
    simp only [List.length_append, List.length_cons] at total
    omega
  rw [cut, List.append_cons] at around
  obtain ⟨w, first, _⟩ := Chain.append.mp around
  refine freeLoop_walk first (fun y early => ?_) ?_ (by omega)
  · have inside : y ∈ b :: l := same.mem_iff.mp (by rw [cut]; simp [early])
    have other : y ≠ p := by
      rintro rfl
      exact (List.nodup_append.mp nodup).2.2 y early y List.mem_cons_self rfl
    rw [← Bool.not_eq_true, between_iff ring sorted above apart inside]
    rintro ⟨less, most⟩
    have left := most p member low
    have right := place y inside
    omega
  · rw [between_iff ring sorted above apart member]
    refine ⟨low, fun u inside less => ?_⟩
    have right := place u inside
    omega

end Heap

/-! ## The invariant of the heap -/

/-- `base` belongs to the program as it was loaded, and its memory ends below the kernel. -/
structure Bounds (start : Nat) (h : Heap) : Prop where
  base : 0 < h.base
  low : h.base + headerSize ≤ start
  order : start ≤ h.sz
  user : h.sz < kernbase

/-- The free list links `free`, and every area has its size in its header. -/
structure HeapInv (start : Nat) (h : Heap) (free live : List Area) : Prop where
  bounds : Bounds start h
  areas : Areas start h.sz free live
  ring : Chain h.next (some h.base) (h.base :: free.map Area.addr) (some h.base)
  empty : (h.mem h.base).size = 0
  sizes : ∀ a ∈ free ++ live, (h.mem a.addr).size = a.units
  freep : h.freep ∈ h.base :: free.map Area.addr

/-- Inside `free`: the area `b` is linked to the areas behind it, but nothing is linked to it. -/
structure Joining (start : Nat) (h : Heap) (front : List Area) (b : Area) (back live : List Area) :
    Prop where
  bounds : Bounds start h
  areas : Areas start h.sz (front ++ b :: back) live
  before : ∃ z, Chain h.next (some h.base) (h.base :: front.map Area.addr) z
  after : Chain h.next (h.next b.addr) (back.map Area.addr) (some h.base)
  empty : (h.mem h.base).size = 0
  sizes : ∀ a ∈ front ++ b :: back ++ live, (h.mem a.addr).size = a.units

section Joins

variable {start : Nat} {h : Heap} {front back free live : List Area} {a b : Area} {l : List Nat}
  {p : Nat}

theorem Bounds.same {h' : Heap} (bounds : Bounds start h) (base : h'.base = h.base)
    (sz : h'.sz = h.sz) : Bounds start h' :=
  ⟨by rw [base]; exact bounds.base, by rw [base]; exact bounds.low, by rw [sz]; exact bounds.order,
    by rw [sz]; exact bounds.user⟩

theorem Bounds.plus_eq (bounds : Bounds start h) (areas : Areas start h.sz free live)
    (member : a ∈ free ++ live) : plus a.addr a.units = a.fin := by
  have inside := (areas.inside a member).2
  have user := bounds.user
  simp only [kernbase] at user
  exact Nat.mod_eq_of_lt (by unfold Area.fin at inside; omega)

theorem Bounds.base_lt (bounds : Bounds start h) (areas : Areas start h.sz free live)
    (member : a ∈ free ++ live) : h.base < a.addr := by
  have inside := (areas.inside a member).1
  have low := bounds.low
  simp only [headerSize] at low
  omega

/-- The headers of the ring are in order of addresses. -/
theorem Bounds.sorted (bounds : Bounds start h) (areas : Areas start h.sz free live) :
    (h.base :: free.map Area.addr).Pairwise (· < ·) := by
  refine List.pairwise_cons.mpr ⟨fun x member => ?_, areas.ascending⟩
  obtain ⟨a, inside, rfl⟩ := List.mem_map.mp member
  exact bounds.base_lt areas (List.mem_append_left _ inside)

theorem joinNext_joining (bounds : Bounds start h) (areas : Areas start h.sz (front ++ b :: back) live)
    (ring : Chain h.next (some h.base) (h.base :: (front ++ back).map Area.addr) (some h.base))
    (empty : (h.mem h.base).size = 0)
    (sizes : ∀ a ∈ front ++ b :: back ++ live, (h.mem a.addr).size = a.units)
    (last : h.base :: front.map Area.addr = l ++ [p]) :
    ∃ b' back', Joining start (h.joinNext b.addr p) front b' back' live ∧ b'.addr = b.addr ∧
      b.units ≤ b'.units ∧ unitsOf (b' :: back') = unitsOf (b :: back) ∧
      (Loose back → Loose (b' :: back')) := by
  have here : b ∈ front ++ b :: back ++ live := by simp
  have lowest := bounds.base_lt areas here
  have fin := bounds.plus_eq areas here
  rw [List.map_append, ← List.cons_append] at ring
  obtain ⟨n, before, after⟩ := Chain.append.mp ring
  have absent : b.addr ∉ h.base :: front.map Area.addr := by
    rw [List.mem_cons, List.mem_map, not_or]
    refine ⟨Nat.ne_of_gt lowest, ?_⟩
    rintro ⟨a, member, same⟩
    exact areas.alone (by simp [member]) same
  have kept (x : Nat) (w : Option Nat) (member : x ∈ h.base :: front.map Area.addr) :
      Function.update h.next b.addr w x = h.next x := by
    refine Function.update_of_ne ?_ ..
    rintro rfl
    exact absent member
  have link : h.next p = n := by
    rw [last] at before
    obtain ⟨_, _, _, link⟩ := Chain.append.mp before
    exact link
  unfold Heap.joinNext
  rw [sizes b here, fin]
  by_cases touch : b.fin = (h.mem p).ptr
  · rw [if_pos touch]
    cases back with
    | nil =>
        have wraps : (h.mem p).ptr = h.base := Option.some.inj (link.trans after)
        simp only [Area.fin, headerSize] at touch
        omega
    | cons c back =>
        obtain ⟨same, after⟩ := after
        have ptr : (h.mem p).ptr = c.addr := Option.some.inj (link.trans same)
        rw [ptr] at touch ⊢
        have there : c ∈ front ++ b :: c :: back ++ live := by simp
        have size : ((h.mem b.addr).size + (h.mem c.addr).size) % 2 ^ 32 = b.units + c.units := by
          have inside := (areas.inside c there).2
          have user := bounds.user
          have positive := areas.units b here
          rw [sizes b here, sizes c there]
          refine Nat.mod_eq_of_lt ?_
          simp only [Area.fin, headerSize, kernbase] at touch inside user
          omega
        rw [sizes b here] at size
        rw [size]
        have merged := areas.merge touch
        refine ⟨⟨b.addr, b.units + c.units⟩, back, ⟨bounds.same rfl rfl, merged, ⟨n, ?_⟩, ?_, ?_, ?_⟩,
          rfl, Nat.le_add_right .., ?_, fun loose => ?_⟩
        · rw [Heap.setPtr_next, Heap.setSize_next]
          exact before.congr fun x member => kept x _ member
        · simp only [Heap.setPtr_next, Function.update_self, Heap.setSize_next, Heap.setSize_ptr, ptr]
          refine after.congr fun x member => Function.update_of_ne ?_ ..
          obtain ⟨a, inside, rfl⟩ := List.mem_map.mp member
          exact areas.alone (by simp [inside])
        · rw [Heap.setPtr_size, Heap.setSize_other (by exact Nat.ne_of_lt lowest)]
          exact empty
        · intro a member
          rw [Heap.setPtr_size]
          by_cases own : a = ⟨b.addr, b.units + c.units⟩
          · subst own
            exact Heap.setSize_self
          · have other := (Areas.mem_middle.mp member).resolve_left own
            rw [Heap.setSize_other (merged.alone other)]
            refine sizes a ?_
            simp only [List.mem_append, List.mem_cons] at other ⊢
            tauto
        · rw [unitsOf_cons, unitsOf_merge touch, Set.union_assoc, ← unitsOf_cons, ← unitsOf_cons]
        · obtain ⟨behind, loose⟩ := List.pairwise_cons.mp loose
          refine List.pairwise_cons.mpr ⟨fun a member => ?_, loose⟩
          have gap := behind a member
          simp only [Area.fin, headerSize] at touch gap ⊢
          omega
  · rw [if_neg touch]
    refine ⟨b, back, ⟨bounds.same rfl rfl, areas, ⟨n, ?_⟩, ?_, ?_, ?_⟩, rfl, Nat.le_refl _, rfl,
      fun loose => ?_⟩
    · rw [Heap.setPtr_next]
      exact before.congr fun x member => kept x _ member
    · rw [Heap.setPtr_next, Function.update_self]
      have target : some (h.mem p).ptr = n := link
      rw [target]
      refine after.congr fun x member => Function.update_of_ne ?_ ..
      obtain ⟨a, inside, rfl⟩ := List.mem_map.mp member
      exact areas.alone (by simp [inside])
    · simpa using empty
    · simpa using sizes
    · refine List.pairwise_cons.mpr ⟨fun a member => ?_, loose⟩
      obtain ⟨_, high⟩ := areas.around
      cases back with
      | nil => cases member
      | cons c back =>
          have near := high c List.mem_cons_self
          have ptr : (h.mem p).ptr = c.addr := Option.some.inj (link.trans after.1)
          rw [ptr] at touch
          rcases List.mem_cons.mp member with rfl | late
          · omega
          · have gap := (List.pairwise_cons.mp loose).1 a late
            simp only [Area.fin, headerSize] at near gap touch ⊢
            omega

theorem joinPrev_inv (joining : Joining start h front b back live)
    (last : h.base :: front.map Area.addr = l ++ [p]) :
    ∃ free', HeapInv start { h.joinPrev b.addr p with freep := p } free' live ∧
      (∃ a ∈ free', b.units ≤ a.units) ∧ unitsOf free' = unitsOf (front ++ b :: back) ∧
      (Loose front → Loose (b :: back) → Loose free') := by
  obtain ⟨bounds, areas, ⟨z, before⟩, after, empty, sizes⟩ := joining
  have here : b ∈ front ++ b :: back ++ live := by simp
  have sorted := bounds.sorted areas
  rw [List.map_append, List.map_cons, ← List.cons_append, last] at sorted
  rw [last] at before
  obtain ⟨order, behind, across⟩ := List.pairwise_append.mp sorted
  have unique : p ∉ l := fun member =>
    Nat.lt_irrefl p ((List.pairwise_append.mp order).2.2 p member p (List.mem_singleton_self p))
  have above (x : Nat) (member : x ∈ b.addr :: back.map Area.addr) : x ≠ p :=
    Nat.ne_of_gt (across p (by simp) x member)
  have kept (w : Option Nat) : Chain (Function.update h.next p w) (h.next b.addr)
      (back.map Area.addr) (some h.base) :=
    after.congr fun x member => Function.update_of_ne (above x (List.mem_cons_of_mem _ member)) ..
  have inside : p ∈ h.base :: front.map Area.addr := by
    rw [last]
    simp
  unfold Heap.joinPrev
  by_cases touch : plus p (h.mem p).size = b.addr
  · rw [if_pos touch]
    rcases List.eq_nil_or_concat' front with rfl | ⟨front, q, rfl⟩
    · have own : p = h.base := by simpa using inside
      have lowest := bounds.base_lt areas here
      have small := areas.inside b here
      have user := bounds.user
      simp only [kernbase, Area.fin, headerSize] at small user
      rw [own, empty, plus, Nat.zero_mul, Nat.add_zero, Nat.mod_eq_of_lt (by omega)] at touch
      omega
    · rw [List.map_append, ← List.cons_append] at last
      obtain ⟨rfl, same⟩ := List.append_inj' last rfl
      obtain rfl : q.addr = p := by simpa using same
      have there : q ∈ front ++ [q] ++ b :: back ++ live := by simp
      rw [sizes q there, bounds.plus_eq areas there] at touch
      have size : ((h.mem q.addr).size + (h.mem b.addr).size) % 2 ^ 32 = q.units + b.units := by
        have small := (areas.inside b here).2
        have user := bounds.user
        rw [sizes q there, sizes b here]
        refine Nat.mod_eq_of_lt ?_
        simp only [Area.fin, headerSize, kernbase] at touch small user
        omega
      rw [size]
      have merged : Areas start h.sz (front ++ ⟨q.addr, q.units + b.units⟩ :: back) live := by
        rw [List.append_assoc] at areas
        exact areas.merge touch
      have lowest := bounds.base_lt areas there
      refine ⟨front ++ ⟨q.addr, q.units + b.units⟩ :: back,
        ⟨bounds.same rfl rfl, merged, ?_, ?_, fun a member => ?_, ?_⟩,
        ⟨⟨q.addr, q.units + b.units⟩, by simp, Nat.le_add_left ..⟩, ?_, fun early late => ?_⟩
      · change Chain ((h.setSize q.addr (q.units + b.units)).setPtr q.addr _).next (some h.base)
          (h.base :: (front ++ ⟨q.addr, q.units + b.units⟩ :: back).map Area.addr) (some h.base)
        have list : h.base :: (front ++ ⟨q.addr, q.units + b.units⟩ :: back).map Area.addr =
            (h.base :: front.map Area.addr ++ [q.addr]) ++ back.map Area.addr := by simp
        rw [list, Heap.setPtr_next, Heap.setSize_next, Heap.setSize_ptr]
        exact Chain.append.mpr ⟨h.next b.addr, before.relink unique _, kept _⟩
      · refine (Heap.setPtr_size _).trans ((Heap.setSize_other ?_).trans empty)
        exact Nat.ne_of_lt lowest
      · refine (Heap.setPtr_size _).trans ?_
        by_cases own : a = ⟨q.addr, q.units + b.units⟩
        · subst own
          exact Heap.setSize_self
        · have other := (Areas.mem_middle.mp member).resolve_left own
          rw [Heap.setSize_other (merged.alone other)]
          refine sizes a ?_
          simp only [List.mem_append, List.mem_cons] at other ⊢
          tauto
      · change q.addr ∈ h.base :: (front ++ ⟨q.addr, q.units + b.units⟩ :: back).map Area.addr
        simp
      · have pair : unitsOf ([q] ++ b :: back) = unitsOf [q] ∪ (unitsOf [b] ∪ unitsOf back) :=
          unitsOf_append.trans (congrArg _ unitsOf_cons)
        rw [List.append_assoc, unitsOf_append, unitsOf_append, pair, unitsOf_cons,
          unitsOf_merge touch, Set.union_assoc]
      · obtain ⟨early, _, order⟩ := List.pairwise_append.mp early
        obtain ⟨gaps, late⟩ := List.pairwise_cons.mp late
        refine List.pairwise_append.mpr ⟨early, List.pairwise_cons.mpr ⟨fun c member => ?_, late⟩,
          fun c member e behind => ?_⟩
        · have gap := gaps c member
          simp only [Area.fin, headerSize] at touch gap ⊢
          omega
        · have before := order c member q (List.mem_singleton_self q)
          rcases List.mem_cons.mp behind with rfl | behind
          · exact before
          · have gap := gaps e behind
            simp only [Area.fin, headerSize] at touch before gap ⊢
            omega
  · rw [if_neg touch]
    refine ⟨front ++ b :: back, ⟨bounds.same rfl rfl, areas, ?_, ?_, ?_, ?_⟩,
      ⟨b, by simp, Nat.le_refl _⟩, rfl, fun early late => ?_⟩
    · change Chain (h.setPtr p b.addr).next (some h.base)
        (h.base :: (front ++ b :: back).map Area.addr) (some h.base)
      rw [Heap.setPtr_next, List.map_append, ← List.cons_append, last]
      refine Chain.append.mpr ⟨some b.addr, before.relink unique _, rfl, ?_⟩
      rw [Function.update_of_ne (above _ List.mem_cons_self)]
      exact kept _
    · exact (Heap.setPtr_size _).trans empty
    · exact fun a member => (Heap.setPtr_size _).trans (sizes a member)
    · change p ∈ h.base :: (front ++ b :: back).map Area.addr
      rw [List.map_append, ← List.cons_append]
      exact List.mem_append_left _ inside
    · refine List.pairwise_append.mpr ⟨early, late, fun c member e behind => ?_⟩
      -- the areas in front end below `b`, the last of them not at it
      have below : c.fin < b.addr := by
        rcases List.eq_nil_or_concat' front with rfl | ⟨front, q, rfl⟩
        · cases member
        · rw [List.map_append, ← List.cons_append] at last
          obtain ⟨_, same⟩ := List.append_inj' last rfl
          obtain rfl : q.addr = p := by simpa using same
          have there : q ∈ front ++ [q] ++ b :: back ++ live := by simp
          rw [sizes q there, bounds.plus_eq areas there] at touch
          have near := areas.around.1 q (by simp)
          rcases List.mem_append.mp member with first | own
          · have gap := (List.pairwise_append.mp early).2.2 c first q (List.mem_singleton_self q)
            simp only [Area.fin, headerSize] at near gap ⊢
            omega
          · obtain rfl := List.mem_singleton.mp own
            omega
      rcases List.mem_cons.mp behind with rfl | behind
      · exact below
      · have gap := (List.pairwise_cons.mp late).1 e behind
        simp only [Area.fin, headerSize] at below gap ⊢
        omega

theorem HeapInv.freep_ne (inv : HeapInv start h free live) : h.freep ≠ 0 := by
  have low := inv.bounds.base
  rcases List.mem_cons.mp inv.freep with same | member
  · omega
  · obtain ⟨a, member, same⟩ := List.mem_map.mp member
    have above := inv.bounds.base_lt inv.areas (List.mem_append_left live member)
    omega

theorem Heap.joinNext_frame (h : Heap) (bp p : Nat) :
    (h.joinNext bp p).base = h.base ∧ (h.joinNext bp p).sz = h.sz := by
  unfold Heap.joinNext
  split <;> exact ⟨rfl, rfl⟩

theorem Heap.joinPrev_frame (h : Heap) (bp p : Nat) :
    (h.joinPrev bp p).base = h.base ∧ (h.joinPrev bp p).sz = h.sz := by
  unfold Heap.joinPrev
  split <;> exact ⟨rfl, rfl⟩

/-- `free` puts an area into the free list. -/
theorem HeapInv.frees (inv : HeapInv start h free (b :: live)) :
    ∃ h' free', h.free (b.addr + headerSize) = some h' ∧ HeapInv start h' free' live ∧
      (∃ a ∈ free', b.units ≤ a.units) ∧ h'.base = h.base ∧ h'.sz = h.sz ∧
      unitsOf free' = unitsOf free ∪ unitsOf [b] ∧ (Loose free → Loose free') := by
  obtain ⟨front, back, rfl, low, high, areas⟩ := inv.areas.insert
  have here : b ∈ front ++ b :: back ++ live := by simp
  have lowest := inv.bounds.base_lt areas here
  obtain ⟨l, p, last⟩ : ∃ l p, h.base :: front.map Area.addr = l ++ [p] :=
    (List.eq_nil_or_concat' _).resolve_left (List.cons_ne_nil _ _)
  have header : (b.addr + headerSize + (2 ^ 32 - headerSize)) % 2 ^ 32 = b.addr := by
    have inside := (areas.inside b here).2
    have user := inv.bounds.user
    simp only [Area.fin, headerSize, kernbase] at inside user ⊢
    omega
  have sizes : ∀ a ∈ front ++ b :: back ++ live, (h.mem a.addr).size = a.units := fun a member =>
    inv.sizes a (Areas.mem_swap.mp member)
  have found : h.freeLoop b.addr fuel h.freep = some p := by
    have ring : h.base :: (front ++ back).map Area.addr = l ++ p :: back.map Area.addr := by
      rw [List.map_append, ← List.cons_append, last, List.append_assoc]
      rfl
    refine Heap.freeLoop_finds inv.ring (inv.bounds.sorted inv.areas) ring ?_ (fun u late => ?_)
      lowest inv.freep ?_
    · have inside : p ∈ h.base :: front.map Area.addr := by
        rw [last]
        simp
      rcases List.mem_cons.mp inside with rfl | inside
      · exact lowest
      · obtain ⟨a, early, rfl⟩ := List.mem_map.mp inside
        have order := low a early
        have positive := areas.units a (by simp [early])
        simp only [Area.fin, headerSize] at order
        omega
    · obtain ⟨a, behind, rfl⟩ := List.mem_map.mp late
      have order := high a behind
      have positive := areas.units b here
      simp only [Area.fin, headerSize] at order
      omega
    · have short := inv.areas.length_le
      have user := inv.bounds.user
      rw [List.length_map]
      simp only [kernbase] at user
      simp only [fuel]
      omega
  obtain ⟨b', back', joining, same, grown, joined, loosened⟩ :=
    joinNext_joining inv.bounds areas inv.ring inv.empty sizes last
  have base := (h.joinNext_frame b.addr p).1
  obtain ⟨free', done, ⟨a, member, larger⟩, all, apart⟩ :=
    joinPrev_inv joining (by rw [base]; exact last)
  rw [same] at done
  refine ⟨_, free', ?_, done, ⟨a, member, grown.trans larger⟩, ?_, ?_, ?_, fun loose => ?_⟩
  · unfold Heap.free
    simp only [header]
    rw [found]
    rfl
  · exact (Heap.joinPrev_frame _ _ _).1.trans base
  · exact (Heap.joinPrev_frame _ _ _).2.trans (h.joinNext_frame b.addr p).2
  · rw [all, unitsOf_append, joined, ← unitsOf_append, unitsOf_middle]
  · obtain ⟨early, late, _⟩ := List.pairwise_append.mp loose
    exact apart early (loosened late)

end Joins

end SlabStudy.Xv6.Umalloc
