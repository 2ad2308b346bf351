import SlabStudy.Xv6.UmallocHeap

/-!
# Exclusive memory

What a program gets from `malloc` is its own.  The rounding of `malloc` and the
argument of `sbrk` have 32 bits, and the argument is signed: a request from
`2^31 - 15` bytes on asks the system for nothing, for less than nothing or for
much less than is needed, and `malloc` uses what it did not get.
-/

namespace SlabStudy.Xv6.Umalloc

open Library

variable {start : Nat} {h : Heap} {free live : List Area} {grants : Nat → Int → Bool} {nunits : Nat}

/-! ## morecore -/

/-- What `sbrk` does when the heap is to grow. -/
theorem sbrk_grows (grants : Nat → Int → Bool) {sz n : Nat} (positive : 0 < n) (user : sz < kernbase) (small : n < 2 ^ 31) :
    sbrk grants sz (toInt n) = none ∨
      sbrk grants sz (toInt n) = some (sz, sz + n) ∧ sz + n < kernbase := by
  have int : toInt n = n := if_pos small
  have more : (0 : Int) < n := by omega
  unfold sbrk
  rw [int]
  split
  · exact .inl rfl
  · have sum : uint (sz + n : Int) = sz + n := by
      unfold uint
      simp only [kernbase] at user
      omega
    unfold resized
    rw [if_neg (ne_of_gt more)]
    unfold newSize
    rw [if_pos more, sum]
    by_cases high : kernbase ≤ sz + n
    · rw [if_pos high, if_pos rfl]
      exact .inl rfl
    · rw [if_neg high, if_neg (Nat.not_lt.mpr (Nat.le_add_right sz n)), if_neg (by omega)]
      exact .inr ⟨rfl, Nat.lt_of_not_le high⟩

/-- The new memory is an area that nothing else uses. -/
theorem HeapInv.extend (inv : HeapInv start h free live) {n : Nat} (some : 0 < n)
    (user : h.sz + n * headerSize < kernbase) :
    HeapInv start ({ h with sz := h.sz + n * headerSize }.setSize h.sz n) free (⟨h.sz, n⟩ :: live) := by
  have below : ∀ a ∈ free ++ live, a.addr ≠ h.sz := by
    intro a member
    have inside := (inv.areas.inside a member).2
    have positive := inv.areas.units a member
    simp only [Area.fin, headerSize] at inside
    omega
  have low := inv.bounds.low
  have order := inv.bounds.order
  simp only [headerSize] at low
  refine ⟨⟨inv.bounds.base, inv.bounds.low, Nat.le_add_right_of_le order, user⟩,
    inv.areas.grow order some, ?_, ?_, fun a member => ?_, inv.freep⟩
  · rw [Heap.setSize_next]
    exact inv.ring
  · exact (Heap.setSize_other (by change h.base ≠ h.sz; omega)).trans inv.empty
  · by_cases new : a = ⟨h.sz, n⟩
    · subst new
      exact Heap.setSize_self
    · have old : a ∈ free ++ live := by
        simp only [List.mem_append, List.mem_cons] at member ⊢
        tauto
      exact (Heap.setSize_other (below a old)).trans (inv.sizes a old)

/-- `morecore` fails, or adds an area that is large enough. -/
theorem HeapInv.morecore (inv : HeapInv start h free live) (grants : Nat → Int → Bool) (fits : nunits < 2 ^ 28) :
    h.morecore grants nunits = some (0, h) ∨
      ∃ h' free', h.morecore grants nunits = some (h'.freep, h') ∧ HeapInv start h' free' live ∧
        (∃ a ∈ free', nunits ≤ a.units) ∧ h'.base = h.base := by
  generalize amount : (if nunits < 4096 then 4096 else nunits) = nu
  have most : nunits ≤ nu ∧ 0 < nu ∧ nu < 2 ^ 28 := by
    split at amount <;> omega
  have bytes : nu * headerSize % 2 ^ 32 = nu * headerSize := by
    simp only [headerSize]
    omega
  unfold Heap.morecore
  simp only [amount, bytes]
  rcases sbrk_grows grants (n := nu * headerSize) (by simp only [headerSize]; omega)
    inv.bounds.user (by simp only [headerSize]; omega) with none | ⟨grown, user⟩
  · rw [none]
    exact .inl rfl
  · rw [grown]
    obtain ⟨h', free', freed, after, ⟨a, member, larger⟩, base, _⟩ :=
      (inv.extend most.2.1 user).frees
    have header : plus h.sz 1 = h.sz + headerSize := by
      have below := inv.bounds.user
      unfold plus
      simp only [headerSize, kernbase] at below ⊢
      omega
    refine .inr ⟨h', free', ?_, after, ⟨a, member, most.1.trans larger⟩, base⟩
    change (Heap.free _ (plus h.sz 1)) >>= _ = _
    rw [header]
    change Heap.free _ (h.sz + headerSize) = _ at freed
    rw [freed]
    rfl

/-! ## malloc -/

/-- Taking units from a free area that has enough of them. -/
theorem HeapInv.take (inv : HeapInv start h free live) {prevp p : Nat} (positive : 0 < nunits)
    (prev : prevp ∈ h.base :: free.map Area.addr) (this : p ∈ h.base :: free.map Area.addr)
    (link : (h.mem prevp).ptr = p) (enough : nunits ≤ (h.mem p).size) :
    ∃ h' free' a, h.take prevp p nunits = (a.addr + headerSize, h') ∧ a.units = nunits ∧
      HeapInv start h' free' (a :: live) ∧ h'.base = h.base ∧ h'.sz = h.sz ∧
      unitsOf free = unitsOf free' ∪ unitsOf [a] ∧ (Loose free → Loose free') := by
  have other : p ≠ h.base := by
    rintro rfl
    rw [inv.empty] at enough
    omega
  obtain ⟨q, member, rfl⟩ := List.mem_map.mp ((List.mem_cons.mp this).resolve_left other)
  obtain ⟨front, back, rfl⟩ := List.append_of_mem member
  have there : q ∈ front ++ q :: back ++ live := by simp
  have size := inv.sizes q there
  rw [size] at enough
  have user := inv.bounds.user
  have inside := (inv.areas.inside q there).2
  have lowest := inv.bounds.base_lt inv.areas there
  simp only [kernbase, Area.fin, headerSize] at user inside
  have plus_eq {n : Nat} (fits : n ≤ q.units) : plus q.addr n = q.addr + n * headerSize :=
    Nat.mod_eq_of_lt (by simp only [headerSize]; omega)
  -- the list in front of the area ends with `prevp`
  obtain ⟨l, split, unique, before, after, across⟩ : ∃ l,
      h.base :: front.map Area.addr = l ++ [prevp] ∧ prevp ∉ l ∧
      Chain h.next (some h.base) (h.base :: front.map Area.addr) (some q.addr) ∧
      Chain h.next (h.next q.addr) (back.map Area.addr) (some h.base) ∧
      ∀ x ∈ q.addr :: back.map Area.addr, prevp < x := by
    have ring := inv.ring
    have sorted := inv.bounds.sorted inv.areas
    have nodup := sorted.imp ne_of_lt
    obtain ⟨l, y, last⟩ : ∃ l y, h.base :: front.map Area.addr = l ++ [y] :=
      (List.eq_nil_or_concat' _).resolve_left (List.cons_ne_nil _ _)
    have list : h.base :: (front ++ q :: back).map Area.addr =
        (h.base :: front.map Area.addr) ++ q.addr :: back.map Area.addr := by
      rw [List.map_append, List.map_cons, List.cons_append]
    have ends : y ∈ h.base :: (front ++ q :: back).map Area.addr := by
      rw [list, last]
      simp
    obtain ⟨n, before, rfl, after⟩ := Chain.append.mp (list ▸ ring)
    have target : h.next y = some q.addr := by
      rw [last] at before
      obtain ⟨_, _, _, target⟩ := Chain.append.mp before
      exact target
    obtain rfl : y = prevp :=
      ring.next_inj nodup ends prev (target.trans (congrArg some link).symm)
    rw [list, last] at sorted
    obtain ⟨order, _, across⟩ := List.pairwise_append.mp sorted
    refine ⟨l, last, fun member => ?_, before, after, fun x => across y (by simp) x⟩
    exact Nat.lt_irrefl y
      ((List.pairwise_append.mp order).2.2 y member y (List.mem_singleton_self y))
  unfold Heap.take
  rw [size]
  by_cases exact : q.units = nunits
  · rw [if_pos exact, plus_eq (by omega), Nat.one_mul]
    refine ⟨_, front ++ back, q, rfl, exact, ⟨inv.bounds.same rfl rfl, inv.areas.remove, ?_, ?_,
      fun a member => ?_, ?_⟩, rfl, rfl, ?_, fun loose => loose.sublist ?_⟩
    · change Chain (h.setPtr prevp _).next (some h.base) (h.base :: (front ++ back).map Area.addr) _
      rw [Heap.setPtr_next, List.map_append, ← List.cons_append]
      rw [split] at before ⊢
      refine Chain.append.mpr ⟨_, before.relink unique _, after.congr fun x member => ?_⟩
      exact Function.update_of_ne (Nat.ne_of_gt (across x (List.mem_cons_of_mem _ member))) ..
    · exact (Heap.setPtr_size _).trans inv.empty
    · exact (Heap.setPtr_size _).trans (inv.sizes a (Areas.mem_swap.mpr member))
    · change prevp ∈ h.base :: (front ++ back).map Area.addr
      rw [List.map_append, ← List.cons_append, split]
      simp
    · exact unitsOf_middle
    · exact (List.sublist_cons_self q back).append_left front
  · rw [if_neg exact]
    have less : nunits < q.units := by omega
    have cut := inv.areas.cut positive less
    have part := plus_eq (Nat.sub_le q.units nunits)
    simp only [Heap.setSize_self, part]
    have header : plus (q.addr + (q.units - nunits) * headerSize) 1 =
        q.addr + (q.units - nunits) * headerSize + headerSize := by
      refine (Nat.mod_eq_of_lt ?_).trans (by rw [Nat.one_mul])
      simp only [headerSize]
      omega
    rw [header]
    refine ⟨_, front ++ ⟨q.addr, q.units - nunits⟩ :: back,
      ⟨q.addr + (q.units - nunits) * headerSize, nunits⟩, rfl, rfl,
      ⟨inv.bounds.same rfl rfl, cut, ?_, ?_, fun a member => ?_, ?_⟩, rfl, rfl, ?_, fun loose => ?_⟩
    · change Chain ((h.setSize q.addr _).setSize _ _).next _ _ _
      rw [Heap.setSize_next, Heap.setSize_next]
      have ring := inv.ring
      rw [List.map_append, List.map_cons] at ring ⊢
      exact ring
    · refine (Heap.setSize_other ?_).trans ((Heap.setSize_other (Nat.ne_of_lt lowest)).trans inv.empty)
      change h.base ≠ _
      omega
    · by_cases taken : a = ⟨q.addr + (q.units - nunits) * headerSize, nunits⟩
      · subst taken
        exact Heap.setSize_self
      · have other := cut.live_alone (c := a) (by
          simp only [List.mem_append, List.mem_cons] at member ⊢
          tauto)
        refine (Heap.setSize_other other).trans ?_
        by_cases rest : a = ⟨q.addr, q.units - nunits⟩
        · subst rest
          exact Heap.setSize_self
        · have old : a ∈ front ++ back ++ live := by
            simp only [List.mem_append, List.mem_cons] at member ⊢
            tauto
          refine (Heap.setSize_other (inv.areas.alone old)).trans (inv.sizes a ?_)
          exact Areas.mem_middle.mpr (.inr old)
    · change prevp ∈ _
      rw [List.map_append, List.map_cons] at prev ⊢
      exact prev
    · have parts := unitsOf_merge (a := ⟨q.addr, q.units - nunits⟩)
        (b := ⟨q.addr + (q.units - nunits) * headerSize, nunits⟩) rfl
      rw [Nat.sub_add_cancel less.le] at parts
      rw [unitsOf_middle, parts, unitsOf_middle, Set.union_assoc]
    · obtain ⟨early, late, order⟩ := List.pairwise_append.mp loose
      obtain ⟨gaps, late⟩ := List.pairwise_cons.mp late
      refine List.pairwise_append.mpr ⟨early, List.pairwise_cons.mpr ⟨fun c member => ?_, late⟩,
        fun c member e behind => ?_⟩
      · have gap := gaps c member
        simp only [Area.fin, headerSize] at gap ⊢
        omega
      · rcases List.mem_cons.mp behind with rfl | behind
        · exact order c member q List.mem_cons_self
        · exact order c member e (List.mem_cons_of_mem _ behind)

/-- The loop of `malloc` passes what is too small, up to where it began. -/
theorem mallocLoop_walk (grants : Nat → Int → Bool) (nunits : Nat) {walked : List Nat}
    {prevp p x : Nat} {w : Option Nat}
    (chain : Chain h.next (some p) (walked ++ [x]) w) (link : h.next prevp = some p)
    (skips : ∀ y ∈ walked, (h.mem y).size < nunits ∧ y ≠ h.freep) :
    ∃ prev ∈ prevp :: walked, h.next prev = some x ∧ ∀ steps,
      h.mallocLoop grants nunits (walked.length + steps) prevp p =
        h.mallocLoop grants nunits steps prev x := by
  induction walked generalizing prevp p with
  | nil =>
      cases chain.1
      exact ⟨prevp, List.mem_cons_self, link, fun steps => by rw [List.length_nil, Nat.zero_add]⟩
  | cons y walked ih =>
      obtain ⟨same, rest⟩ := chain
      cases same
      obtain ⟨small, apart⟩ := skips y List.mem_cons_self
      have target : h.next y = some (h.mem y).ptr := rfl
      rw [target] at rest
      obtain ⟨prev, member, found, same⟩ := ih rest target
        fun z inside => skips z (List.mem_cons_of_mem _ inside)
      refine ⟨prev, List.mem_cons_of_mem _ member, found, fun steps => ?_⟩
      rw [List.length_cons, Nat.add_right_comm, Heap.mallocLoop, if_neg (Nat.not_le.mpr small),
        if_neg apart, same]

/-- A round finds an area that is large enough, or ends where it began. -/
theorem HeapInv.round (inv : HeapInv start h free live) (grants : Nat → Int → Bool)
    (nunits : Nat) :
    ∃ walked prev x, walked ≤ free.length ∧ prev ∈ h.base :: free.map Area.addr ∧
      x ∈ h.base :: free.map Area.addr ∧ (h.mem prev).ptr = x ∧
      (∀ steps, h.mallocLoop grants nunits (walked + steps) h.freep (h.mem h.freep).ptr =
        h.mallocLoop grants nunits steps prev x) ∧
      (nunits ≤ (h.mem x).size ∨
        x = h.freep ∧ ∀ y ∈ h.base :: free.map Area.addr, (h.mem y).size < nunits) := by
  obtain ⟨rest, ring, same⟩ := inv.ring.enter inv.freep
  have nodup : (h.freep :: rest).Nodup :=
    same.nodup_iff.mpr ((inv.bounds.sorted inv.areas).imp ne_of_lt)
  obtain ⟨new, _⟩ := List.nodup_cons.mp nodup
  have members (y : Nat) (inside : y ∈ rest) : y ∈ h.base :: free.map Area.addr :=
    same.mem_iff.mp (List.mem_cons_of_mem _ inside)
  have short : rest.length = free.length := by
    have total := same.length_eq
    simpa using total
  have apart (y : Nat) (inside : y ∈ rest) : y ≠ h.freep := by
    rintro rfl
    exact new inside
  have around : Chain h.next (h.next h.freep) (rest ++ [h.freep]) (h.next h.freep) :=
    Chain.append.mpr ⟨_, ring.2, rfl, rfl⟩
  by_cases large : ∃ y ∈ rest, nunits ≤ (h.mem y).size
  · obtain ⟨x, found⟩ : ∃ x, rest.find? (fun y => decide (nunits ≤ (h.mem y).size)) = some x := by
      rw [← Option.isSome_iff_exists, List.find?_isSome]
      simpa using large
    obtain ⟨fits, walked, later, rfl, small⟩ := List.find?_eq_some_iff_append.mp found
    obtain ⟨w, first, _⟩ : ∃ w, Chain h.next (h.next h.freep) (walked ++ [x]) w ∧
        Chain h.next w (later ++ [h.freep]) (h.next h.freep) := by
      rw [List.append_assoc, List.cons_append, List.append_cons] at around
      exact Chain.append.mp around
    obtain ⟨prev, member, link, skipped⟩ := mallocLoop_walk grants nunits first rfl
      fun y early => ⟨by simpa using small y early, apart y (by simp [early])⟩
    refine ⟨walked.length, prev, x, ?_, ?_, members x (by simp), Option.some.inj link, skipped,
      .inl (by simpa using fits)⟩
    · rw [← short, List.length_append]
      exact Nat.le_add_right ..
    · rcases List.mem_cons.mp member with rfl | early
      · exact inv.freep
      · exact members prev (by simp [early])
  · have small (y : Nat) (inside : y ∈ rest) : (h.mem y).size < nunits :=
      Nat.lt_of_not_le fun fits => large ⟨y, inside, fits⟩
    obtain ⟨prev, member, link, skipped⟩ := mallocLoop_walk grants nunits around rfl
      fun y early => ⟨small y early, apart y early⟩
    refine ⟨rest.length, prev, h.freep, short.le, ?_, inv.freep, Option.some.inj link, skipped, ?_⟩
    · rcases List.mem_cons.mp member with rfl | early
      · exact inv.freep
      · exact members prev early
    · by_cases fits : nunits ≤ (h.mem h.freep).size
      · exact .inl fits
      · refine .inr ⟨rfl, fun y inside => ?_⟩
        rcases List.mem_cons.mp (same.mem_iff.mpr inside) with rfl | other
        · exact Nat.lt_of_not_le fits
        · exact small y other

/-- What `malloc` gives: nothing, or an area of the size looked for that was free or is new. -/
def Gives (start : Nat) (h : Heap) (live : List Area) (nunits : Nat) (p : Nat) (h' : Heap) : Prop :=
  h'.base = h.base ∧ ((p = 0 ∧ ∃ free', HeapInv start h' free' live) ∨
    ∃ a free', p = a.addr + headerSize ∧ a.units = nunits ∧ HeapInv start h' free' (a :: live))

/-- The loop returns from a header that is large enough. -/
theorem HeapInv.found (inv : HeapInv start h free live) {prevp p steps : Nat} (positive : 0 < nunits)
    (prev : prevp ∈ h.base :: free.map Area.addr) (this : p ∈ h.base :: free.map Area.addr)
    (link : (h.mem prevp).ptr = p) (enough : nunits ≤ (h.mem p).size) :
    ∃ p' h', h.mallocLoop grants nunits (steps + 1) prevp p = some (p', h') ∧
      Gives start h live nunits p' h' := by
  obtain ⟨h', free', a, taken, units, after, base, _⟩ :=
    inv.take positive prev this link enough
  refine ⟨a.addr + headerSize, h', ?_, base, .inr ⟨a, free', rfl, units, after⟩⟩
  rw [Heap.mallocLoop, if_pos enough, taken]

/-- Where some area is large enough, a round comes to one. -/
theorem HeapInv.reaches (inv : HeapInv start h free live) (grants : Nat → Int → Bool)
    (large : ∃ a ∈ free, nunits ≤ a.units) {steps : Nat} (enough : free.length < steps) :
    ∃ left prev x, prev ∈ h.base :: free.map Area.addr ∧ x ∈ h.base :: free.map Area.addr ∧
      (h.mem prev).ptr = x ∧ nunits ≤ (h.mem x).size ∧
      h.mallocLoop grants nunits steps h.freep (h.mem h.freep).ptr =
        h.mallocLoop grants nunits (left + 1) prev x := by
  obtain ⟨walked, prev, x, short, before, inside, link, skipped, result⟩ := inv.round grants nunits
  have fits : nunits ≤ (h.mem x).size := by
    refine result.resolve_right fun none => ?_
    obtain ⟨a, member, fits⟩ := large
    have small := none.2 a.addr (List.mem_cons_of_mem _ (List.mem_map_of_mem member))
    rw [inv.sizes a (List.mem_append_left _ member)] at small
    omega
  have total : steps = walked + (steps - walked - 1 + 1) := by omega
  rw [total]
  exact ⟨_, prev, x, before, inside, link, fits, skipped _⟩

theorem HeapInv.finds (inv : HeapInv start h free live) (grants : Nat → Int → Bool)
    (positive : 0 < nunits) (large : ∃ a ∈ free, nunits ≤ a.units) {steps : Nat}
    (enough : free.length < steps) :
    ∃ p h', h.mallocLoop grants nunits steps h.freep (h.mem h.freep).ptr = some (p, h') ∧
      Gives start h live nunits p h' := by
  obtain ⟨left, prev, x, before, inside, link, fits, walked⟩ := inv.reaches grants large enough
  rw [walked]
  exact inv.found positive before inside link fits

/-- The loop of `malloc` returns after two rounds at most, with a call of `morecore` between them. -/
theorem HeapInv.mallocLoop (inv : HeapInv start h free live) (grants : Nat → Int → Bool)
    (positive : 0 < nunits) (fits : nunits < 2 ^ 28) :
    ∃ p h', h.mallocLoop grants nunits fuel h.freep (h.mem h.freep).ptr = some (p, h') ∧
      Gives start h live nunits p h' := by
  obtain ⟨walked, prev, x, short, before, inside, link, skipped, result⟩ := inv.round grants nunits
  have few := inv.areas.length_le
  have user := inv.bounds.user
  simp only [kernbase] at user
  have total : fuel = walked + (fuel - walked - 1 + 1) := by
    simp only [fuel]
    omega
  rw [total, skipped]
  by_cases large : nunits ≤ (h.mem x).size
  · exact inv.found positive before inside link large
  · obtain ⟨rfl, _⟩ := result.resolve_left large
    rw [Heap.mallocLoop, if_neg large, if_pos rfl]
    rcases inv.morecore grants fits with none | ⟨h', free', grown, after, new, base⟩
    · rw [none]
      exact ⟨0, h, rfl, rfl, .inl ⟨rfl, free, inv⟩⟩
    · rw [grown]
      change ∃ p h'', (if h'.freep = 0 then _ else _) = _ ∧ _
      rw [if_neg after.freep_ne]
      have few' := after.areas.length_le
      have user' := after.bounds.user
      simp only [kernbase] at user'
      obtain ⟨p, h'', returned, same, gives⟩ := after.finds grants positive new
        (show free'.length < fuel - walked - 1 by simp only [fuel]; omega)
      exact ⟨p, h'', returned, same.trans base, gives⟩

/-- The heap before the first call of `malloc`, or with its free list. -/
def HeapOk (start : Nat) (h : Heap) (live : List Area) : Prop :=
  h.freep = 0 ∧ live = [] ∧ Bounds start h ∨ ∃ free, HeapInv start h free live

/-- The empty free list that the first call of `malloc` makes. -/
theorem Bounds.init (bounds : Bounds start h) :
    HeapInv start ({ h.setPtr h.base h.base with freep := h.base }.setSize h.base 0) [] [] := by
  refine ⟨bounds.same rfl rfl, ⟨nofun, nofun, .nil, .nil, nofun⟩, ⟨rfl, ?_⟩, Heap.setSize_self, nofun,
    List.mem_singleton_self _⟩
  rw [Heap.setSize_next]
  change (h.setPtr h.base h.base).next h.base = some h.base
  rw [Heap.setPtr_next, Function.update_self]

/-- The largest request that `malloc` computes right. -/
def maxRequest : Nat := 2 ^ 31 - 16

theorem units_of_small {nbytes : Nat} (small : nbytes ≤ maxRequest) :
    Heap.units nbytes < 2 ^ 28 ∧ nbytes + headerSize ≤ Heap.units nbytes * headerSize := by
  simp only [maxRequest] at small
  simp only [Heap.units, headerSize]
  omega

/-- What a call of `malloc` returns. -/
theorem HeapOk.malloc (ok : HeapOk start h live) (grants : Nat → Int → Bool) {nbytes : Nat}
    (small : nbytes ≤ maxRequest) : ∃ p h', h.malloc grants nbytes = some (p, h') ∧
      Gives start h live (Heap.units nbytes) p h' := by
  have units := (units_of_small small).1
  have positive : 0 < Heap.units nbytes := Nat.succ_pos _
  unfold Heap.malloc
  rcases ok with ⟨fresh, rfl, bounds⟩ | ⟨free, inv⟩
  · simp only [fresh, if_true]
    exact bounds.init.mallocLoop grants positive units
  · simp only [inv.freep_ne, if_false]
    exact inv.mallocLoop grants positive units

/-! ## Programs -/

/-- The results of `malloc` point into the live areas, which have room for what was asked. -/
structure ProgramOk (start : Nat) (s : Program) (live : List (Area × Nat)) : Prop where
  allocs : s.allocs = live.map fun x => (x.1.addr + headerSize, x.2)
  room : ∀ x ∈ live, x.2 + headerSize ≤ x.1.units * headerSize
  heap : HeapOk start s.heap (live.map Prod.fst)

section Programs

variable {s t : Program} {allocated : List (Area × Nat)} {call : Call}

/-- What is allocated has none of its bytes in the header of an area. -/
theorem HeapInv.header_apart (inv : HeapInv start h free (allocated.map Prod.fst))
    (room : ∀ x ∈ allocated, x.2 + headerSize ≤ x.1.units * headerSize) {x : Area × Nat}
    (live : x ∈ allocated) {p : Nat}
    (header : p ∈ h.base :: (free ++ allocated.map Prod.fst).map Area.addr) :
    Apart (x.1.addr + headerSize) x.2 p headerSize := by
  have own := room x live
  have there : x.1 ∈ free ++ allocated.map Prod.fst :=
    List.mem_append_right _ (List.mem_map_of_mem live)
  rcases List.mem_cons.mp header with rfl | header
  · have low := inv.bounds.low
    have inside := (inv.areas.inside x.1 there).1
    simp only [headerSize] at *
    exact .inr (by omega)
  · obtain ⟨a, member, rfl⟩ := List.mem_map.mp header
    by_cases same : a = x.1
    · exact .inr (by rw [same])
    · have apart : a.Apart x.1 := by
        rcases List.mem_append.mp member with listed | other
        · exact inv.areas.disjoint a listed x.1 (List.mem_map_of_mem live)
        · exact inv.areas.apart.forall other (List.mem_map_of_mem live) same
      have positive := inv.areas.units a member
      simp only [Apart, Area.Apart, Area.fin, headerSize] at *
      omega

/-- The invariant only depends on the headers of the areas. -/
theorem HeapInv.write (inv : HeapInv start h free live) {mem : Nat → Header}
    (same : ∀ p ∈ h.base :: (free ++ live).map Area.addr, mem p = h.mem p) :
    HeapInv start { h with mem := mem } free live := by
  refine ⟨inv.bounds.same rfl rfl, inv.areas, ?_, ?_, fun a member => ?_, inv.freep⟩
  · refine inv.ring.congr fun p member => ?_
    change some (mem p).ptr = some (h.mem p).ptr
    rw [same p]
    rw [List.map_append, ← List.cons_append]
    exact List.mem_append_left _ member
  · change (mem h.base).size = 0
    rw [same _ List.mem_cons_self]
    exact inv.empty
  · change (mem a.addr).size = a.units
    rw [same _ (List.mem_cons_of_mem _ (List.mem_map_of_mem member))]
    exact inv.sizes a member

theorem ProgramOk.mallocs (ok : ProgramOk start s allocated) (grants : Nat → Int → Bool)
    {nbytes : Nat} (small : nbytes ≤ maxRequest) :
    ∃ p heap allocated', s.heap.malloc grants nbytes = some (p, heap) ∧
      ProgramOk start ⟨heap, if p = 0 then s.allocs else (p, nbytes) :: s.allocs⟩ allocated' := by
  obtain ⟨p, heap, returned, _, gives⟩ := ok.heap.malloc grants small
  rcases gives with ⟨rfl, free', inv⟩ | ⟨a, free', rfl, units, inv⟩
  · refine ⟨0, heap, allocated, returned, ?_, ok.room, .inr ⟨free', inv⟩⟩
    rw [if_pos rfl]
    exact ok.allocs
  · refine ⟨_, heap, (a, nbytes) :: allocated, returned, ?_, fun x member => ?_, .inr ⟨free', inv⟩⟩
    · rw [if_neg (Nat.ne_of_gt (Nat.add_pos_right _ (by decide)))]
      exact congrArg _ ok.allocs
    · rcases List.mem_cons.mp member with rfl | member
      · change nbytes + headerSize ≤ a.units * headerSize
        rw [units]
        exact (units_of_small small).2
      · exact ok.room x member

theorem ProgramOk.frees (ok : ProgramOk start s allocated) {x : Nat × Nat} (member : x ∈ s.allocs) :
    ∃ heap allocated', s.heap.free x.1 = some heap ∧
      ProgramOk start ⟨heap, s.allocs.erase x⟩ allocated' := by
  obtain ⟨before, after, _, split, erased⟩ := List.exists_erase_eq member
  rw [ok.allocs] at split
  obtain ⟨front, rest, rfl, rfl, second⟩ := List.map_eq_append_iff.mp split
  obtain ⟨y, back, rfl, rfl, rfl⟩ := List.map_eq_cons_iff.mp second
  obtain ⟨free, inv⟩ : ∃ free, HeapInv start s.heap free ((front ++ y :: back).map Prod.fst) := by
    refine ok.heap.resolve_left fun fresh => ?_
    have none := fresh.2.1
    simp at none
  have moved : HeapInv start s.heap free (y.1 :: (front ++ back).map Prod.fst) := by
    have perm : ((front ++ y :: back).map Prod.fst).Perm (y.1 :: (front ++ back).map Prod.fst) := by
      rw [← List.map_cons]
      exact List.perm_middle.map Prod.fst
    exact ⟨inv.bounds, inv.areas.perm perm, inv.ring, inv.empty, fun a member =>
      inv.sizes a (((List.Perm.refl free).append perm).mem_iff.mpr member), inv.freep⟩
  obtain ⟨heap, free', freed, inv', _⟩ := moved.frees
  refine ⟨heap, front ++ back, freed, ?_, fun z member => ok.room z ?_, .inr ⟨free', inv'⟩⟩
  · rw [List.map_append]
    exact erased
  · exact List.mem_append.mpr ((List.mem_append.mp member).imp_right (List.mem_cons_of_mem y))

/-- A step whose request is not too large keeps the invariant. -/
theorem ProgramOk.step (ok : ProgramOk start s allocated)
    (small : ∀ nbytes grants, call = .malloc nbytes grants → nbytes ≤ maxRequest)
    (step : s.step call t) : ∃ allocated', ProgramOk start t allocated' := by
  cases call with
  | malloc nbytes grants =>
      obtain ⟨_, p, heap, ran, rfl⟩ := step
      obtain ⟨p', heap', allocated', returned, ok'⟩ :=
        ok.mallocs grants (small nbytes grants rfl)
      rw [returned] at ran
      cases ran
      exact ⟨allocated', ok'⟩
  | free ap =>
      obtain ⟨nbytes, heap, member, ran, rfl⟩ := step
      obtain ⟨heap', allocated', freed, ok'⟩ := ok.frees member
      rw [freed] at ran
      cases ran
      exact ⟨allocated', ok'⟩
  | write mem =>
      obtain ⟨kept, rfl⟩ := step
      refine ⟨allocated, ok.allocs, ok.room, ok.heap.imp ?_ ?_⟩
      · rintro ⟨fresh, none, bounds⟩
        exact ⟨fresh, none, bounds.same rfl rfl⟩
      · rintro ⟨free, inv⟩
        refine ⟨free, inv.write fun p header => kept p fun x member => ?_⟩
        rw [ok.allocs] at member
        obtain ⟨y, live, rfl⟩ := List.mem_map.mp member
        exact inv.header_apart ok.room live header

/-- The headers that `freep` leads to are those of the free list. -/
theorem HeapInv.listed (inv : HeapInv start h free live) (n : Nat) :
    h.listed n ∈ h.base :: free.map Area.addr := by
  induction n with
  | zero => exact inv.freep
  | succ n ih =>
      obtain ⟨y, member, link⟩ := inv.ring.mem_next ih
      unfold Heap.listed at *
      rw [Function.iterate_succ_apply', Option.some.inj link]
      exact member

/-- In such a state the allocated memory is the program's own. -/
theorem ProgramOk.exclusive (ok : ProgramOk start s allocated) : s.Exclusive start := by
  rcases ok.heap with ⟨fresh, none, _⟩ | ⟨free, inv⟩
  · have empty : s.allocs = [] := by
      rw [ok.allocs, List.map_eq_nil_iff.mp none]
      rfl
    refine ⟨?_, ?_, fun some => absurd fresh some⟩
    · rw [empty]
      exact nofun
    · rw [empty]
      exact .nil
  · refine ⟨fun x member => ?_, ?_, fun _ x member n => ?_⟩
    · rw [ok.allocs] at member
      obtain ⟨y, live, rfl⟩ := List.mem_map.mp member
      have inside := inv.areas.inside y.1 (List.mem_append_right _ (List.mem_map_of_mem live))
      have room := ok.room y live
      simp only [Area.fin, headerSize] at *
      omega
    · rw [ok.allocs, List.pairwise_map]
      have apart := List.pairwise_map.mp inv.areas.apart
      refine apart.imp_of_mem fun {x y} left right apart => ?_
      have first := ok.room x left
      have second := ok.room y right
      simp only [Apart, Area.Apart, Area.fin, headerSize] at *
      omega
    · rw [ok.allocs] at member
      obtain ⟨y, live, rfl⟩ := List.mem_map.mp member
      refine inv.header_apart ok.room live ?_
      rw [List.map_append, ← List.cons_append]
      exact List.mem_append_left _ (inv.listed n)

/-- Calls that the program may make return. -/
theorem ProgramOk.returns (ok : ProgramOk start s allocated) :
    (∀ nbytes grants, nbytes ≤ maxRequest → ∃ t, s.step (.malloc nbytes grants) t) ∧
      ∀ x ∈ s.allocs, ∃ t, s.step (.free x.1) t := by
  refine ⟨fun nbytes grants small => ?_, fun x member => ?_⟩
  · obtain ⟨p, heap, _, returned, _⟩ := ok.mallocs grants small
    have uint : nbytes < 2 ^ 32 := Nat.lt_of_le_of_lt small (by decide)
    exact ⟨_, uint, p, heap, returned, rfl⟩
  · obtain ⟨heap, _, freed, _⟩ := ok.frees member
    exact ⟨_, x.2, heap, member, freed, rfl⟩

/-- No request of the run is larger than `malloc` can compute. -/
def SmallRequests (calls : List Call) : Prop :=
  ∀ nbytes grants, Call.malloc nbytes grants ∈ calls → nbytes ≤ maxRequest

/--
In a run without too large requests every call returns, and what is allocated is
memory from `sbrk` that overlaps no other allocated memory and no header of the
free list.
-/
theorem malloc_exclusive {calls : List Call} (first : s.Initial)
    (run : mallocSystem.Run s calls t) (small : SmallRequests calls) :
    t.Exclusive s.heap.sz ∧
      (∀ nbytes grants, nbytes ≤ maxRequest → ∃ u, t.step (.malloc nbytes grants) u) ∧
      ∀ x ∈ t.allocs, ∃ u, t.step (.free x.1) u := by
  obtain ⟨allocated, ok⟩ : ∃ allocated, ProgramOk s.heap.sz t allocated := by
    induction run with
    | nil =>
        have bounds : Bounds s.heap.sz s.heap :=
          ⟨first.base, first.loaded, Nat.le_refl _, first.user⟩
        exact ⟨[], first.allocs, nofun, .inl ⟨first.freep, rfl, bounds⟩⟩
    | snoc _ next ih =>
        obtain ⟨allocated, ok⟩ := ih fun nbytes grants member =>
          small nbytes grants (List.mem_append_left _ member)
        exact ok.step (fun nbytes grants same => small nbytes grants (by rw [same]; simp)) next
  exact ⟨ok.exclusive, ok.returns⟩

end Programs

/-- A program of one page with `base` near its end. -/
def onePage : Program := ⟨⟨4088, 0, fun _ => ⟨0, 0⟩, 4096⟩, []⟩

theorem onePage_initial : onePage.Initial := ⟨rfl, rfl, by decide, by decide, by decide⟩

/-- A call of `malloc` whose result is known. -/
theorem malloc_run {nbytes p sz : Nat} (uint : nbytes < 2 ^ 32) (some : p ≠ 0)
    (returns : (onePage.heap.malloc (fun _ _ => true) nbytes).map (fun r => (r.1, r.2.sz)) =
      Option.some (p, sz)) :
    ∃ t, mallocSystem.Run onePage [.malloc nbytes fun _ _ => true] t ∧ t.allocs = [(p, nbytes)] ∧
      t.heap.sz = sz := by
  obtain ⟨⟨p', heap⟩, ran, same⟩ := Option.map_eq_some_iff.mp returns
  obtain ⟨rfl, rfl⟩ := Prod.mk.inj same
  have empty : mallocSystem.Run onePage [] onePage := .nil _
  refine ⟨_, empty.snoc ⟨uint, p', heap, ran, rfl⟩, if_neg some, rfl⟩

/-- Two requests, the first of which is freed before the third. -/
def threeRequests : List Call :=
  [.malloc 20 fun _ _ => true, .malloc 100 fun _ _ => true, .free 36840, .malloc 8 fun _ _ => true]

/-- The third request gets a part of the memory that the first had. -/
theorem malloc_exclusive_three : ∃ t, mallocSystem.Run onePage threeRequests t ∧
    t.allocs = [(36856, 8), (36728, 100)] ∧ t.Exclusive 4096 := by
  have returns : ((onePage.heap.malloc (fun _ _ => true) 20).bind fun x =>
      (x.2.malloc (fun _ _ => true) 100).bind fun y => (y.2.free x.1).bind fun heap =>
        (heap.malloc (fun _ _ => true) 8).map fun z => (x.1, y.1, z.1)) =
      some (36840, 36728, 36856) := by
    decide +kernel
  obtain ⟨⟨p, h₁⟩, first, returns⟩ := Option.bind_eq_some_iff.mp returns
  obtain ⟨⟨q, h₂⟩, second, returns⟩ := Option.bind_eq_some_iff.mp returns
  obtain ⟨h₃, freed, returns⟩ := Option.bind_eq_some_iff.mp returns
  obtain ⟨⟨r, h₄⟩, third, same⟩ := Option.map_eq_some_iff.mp returns
  obtain ⟨rfl, rfl, rfl⟩ : p = 36840 ∧ q = 36728 ∧ r = 36856 := by simpa using same
  have run : mallocSystem.Run onePage ([] ++ [.malloc 20 fun _ _ => true] ++
      [.malloc 100 fun _ _ => true] ++ [.free 36840] ++ [.malloc 8 fun _ _ => true])
        ⟨h₄, [(36856, 8), (36728, 100)]⟩ :=
    .snoc (.snoc (.snoc (.snoc (.nil _) ⟨by decide, _, h₁, first, rfl⟩)
      ⟨by decide, _, h₂, second, rfl⟩) ⟨20, h₃, .tail _ (.head _), freed, rfl⟩)
      ⟨by decide, _, h₄, third, rfl⟩
  have small : SmallRequests threeRequests := by
    intro nbytes grants member
    simp only [threeRequests, List.mem_cons, List.not_mem_nil, or_false, Call.malloc.injEq,
      reduceCtorEq, false_or] at member
    rcases member with ⟨rfl, _⟩ | ⟨rfl, _⟩ | ⟨rfl, _⟩ <;> decide
  exact ⟨_, run, rfl, (malloc_exclusive onePage_initial run small).1⟩

/-- The largest request of all gets the end of the memory, and not a byte of it. -/
theorem largest_request_overruns : ¬ ∀ s calls t, s.Initial → mallocSystem.Run s calls t →
    t.Exclusive s.heap.sz := by
  intro exclusive
  obtain ⟨t, run, allocs, sz⟩ :=
    @malloc_run (2 ^ 32 - 1) 36864 36864 (by decide) (by decide) (by decide +kernel)
  have inside := (exclusive onePage _ t onePage_initial run).inside (36864, 2 ^ 32 - 1)
    (by rw [allocs]; exact List.mem_singleton_self _)
  rw [sz] at inside
  exact absurd inside.2 (by decide)

end SlabStudy.Xv6.Umalloc
