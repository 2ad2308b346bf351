import SlabStudy.Xv6.StackFault

/-!
# Failed calls of growproc

`growproc` reports failure when the new size is zero.  Two calls that change
the address space end there as well: shrinking to nothing, and growing into
the stack until memory runs out, when the roll-back takes stack pages with it.
Every other failed call leaves the process as it was.
-/

namespace SlabStudy.Xv6

variable {ld : Linkage} {s s' : Kernel} {p : Slot} {d d' : Pgdir} {km km' : Kmem} {n : Int}

/-! ## Roll-backs -/

/-- A roll-back over absent pages leaves the image alone. -/
theorem RolledBack.sameImage {low high : Nat} (owned : Owned ld km d)
    (back : RolledBack low high km d km' d')
    (clear : ∀ va, va < kernbase → PageIn low high va → d.lookup va = none) :
    SameImage km d km' d' := by
  intro va user
  have found := back.lookup va (Nat.lt_trans user (by decide))
  have same : d'.lookup va = d.lookup va := by
    rw [found]
    split
    · next inside => exact (clear va user inside).symm
    · rfl
  unfold Pgdir.view
  rw [same]
  cases entry : d.lookup va with
  | none => rfl
  | some pte =>
      -- the page belongs to the process before and after, so nobody wrote to it
      have before := owned.notFree (Pgdir.addr_mem_frames user entry)
      have after := (owned.of_conserved back.conserved).notFree
        (Pgdir.addr_mem_frames user (same.trans entry))
      rw [Option.map_some, Option.map_some, back.untouched pte.addr before after]

/-- A page that is gone shows in the image. -/
theorem SameImage.isSome {va : Nat} (same : SameImage km d km' d') (user : va < kernbase) :
    (d'.lookup va).isSome = (d.lookup va).isSome := by
  have views := congrArg Option.isSome (same va user)
  rw [Pgdir.view, Pgdir.view, Option.isSome_map, Option.isSome_map] at views
  exact views

/-- The range above the heap is clear exactly when it ends below the stack. -/
theorem Layout.clear_iff {sz psize newsz : Nat} (layout : Layout d sz psize)
    (some : pgRoundUp sz < newsz) (user : newsz < kernbase) :
    (∀ va, va < kernbase → PageIn (pgRoundUp sz) newsz va → d.lookup va = none) ↔
      newsz ≤ kernbase - psize * pgsize := by
  have multiple := pgRoundUp_mod sz
  have fits := layout.stack_le
  constructor
  · intro clear
    by_contra high
    -- the first page of the range that belongs to the stack
    generalize first : max (pgRoundUp sz) (kernbase - psize * pgsize) = va
    have facts : va < kernbase ∧ PageIn (pgRoundUp sz) newsz va ∧
        kernbase - psize * pgsize ≤ va := by
      unfold PageIn pgRoundDown
      change newsz < 2147483648 at user
      change pgRoundUp sz % 4096 = 0 at multiple
      change psize * 4096 ≤ 2147483648 at fits
      change ¬ newsz ≤ 2147483648 - psize * 4096 at high
      change max (pgRoundUp sz) (2147483648 - psize * 4096) = va at first
      change va < 2147483648 ∧ (pgRoundUp sz ≤ va / 4096 * 4096 ∧ va / 4096 * 4096 < newsz) ∧
        2147483648 - psize * 4096 ≤ va
      omega
    have present := (layout.exact va facts.1).mpr (.inr facts.2.2)
    rw [clear va facts.1 facts.2.1] at present
    cases present
  · intro below va low inside
    refine Option.not_isSome_iff_eq_none.mp fun present => ?_
    have place := (layout.exact va low).mp present
    have start : pgRoundDown va ≤ va := Nat.div_mul_le_self _ _
    unfold PageIn at inside
    unfold pgRoundDown at inside start
    change psize * 4096 ≤ 2147483648 at fits
    change newsz ≤ 2147483648 - psize * 4096 at below
    change va < pgRoundUp sz ∨ 2147483648 - psize * 4096 ≤ va at place
    change pgRoundUp sz ≤ va / 4096 * 4096 ∧ va / 4096 * 4096 < newsz at inside
    omega

/-- After a failed growth the image is the same exactly when no stack page was in the range. -/
theorem RolledBack.sameImage_iff {sz psize newsz : Nat} (owned : Owned ld km d)
    (layout : Layout d sz psize) (some : pgRoundUp sz < newsz) (user : newsz < kernbase)
    (back : RolledBack (pgRoundUp sz) newsz km d km' d') :
    SameImage km d km' d' ↔ newsz ≤ kernbase - psize * pgsize := by
  rw [← layout.clear_iff some user]
  constructor
  · intro same va low inside
    have gone := same.isSome low
    rw [back.lookup va (Nat.lt_trans low (by decide)), if_pos inside] at gone
    exact Option.isNone_iff_eq_none.mp (Option.isSome_eq_false_iff.mp gone.symm)
  · exact back.sameImage owned

/-! ## The calls -/

/-- What a failed call stored. -/
theorem sameMemory_iff (own : (s.proc p).pgdir = some d)
    (stored : s' = (s.setKmem km).modify p fun pr => { pr with pgdir := some d' }) :
    SameMemory s p s' p ↔ SameImage s.kmem d km d' := by
  have self : s'.proc p = { s.proc p with pgdir := some d' } := by
    rw [stored]
    exact Kernel.modify_self _ _ _
  have kmem : s'.kmem = km := by
    rw [stored]
    rfl
  constructor
  · intro intact
    obtain ⟨d₀, d₁, before, after, same⟩ := intact.image
    rw [own] at before
    rw [self] at after
    cases before
    cases after
    rw [kmem] at same
    exact same
  · intro same
    refine ⟨by rw [self], by rw [self], d, d', own, by rw [self], ?_⟩
    rw [kmem]
    exact same

/-- Without a page between the sizes the call only computes the new size. -/
theorem allocuvm_within {oldsz newsz : Nat} (order : oldsz ≤ newsz) (user : newsz < kernbase)
    (within : newsz ≤ pgRoundUp oldsz) : allocuvm ld km d oldsz newsz = .ok (newsz, km, d) := by
  have none : pageAddrs (pgRoundUp oldsz) newsz = [] := by
    apply List.eq_nil_iff_forall_not_mem.mpr
    intro a member
    obtain ⟨low, high, _⟩ := (mem_pageAddrs (pgRoundUp_mod oldsz)).mp member
    omega
  unfold allocuvm
  rw [if_neg (Nat.not_le.mpr user), if_neg (Nat.not_lt.mpr order), none]
  rfl

/--
The condition on a call: when growing, the new size stays below the stack or is refused at
once; when shrinking, something is left.
-/
def KeepsImage (sz psize : Nat) (n : Int) : Prop :=
  (0 < n → sz + n ≤ (kernbase : Int) - psize * pgsize ∨ kernbase ≤ sz + n) ∧
    (n < 0 → sz + n ≠ 0)

theorem uint_grow {sz : Nat} (heap : sz ≤ kernbase) (positive : 0 < n) (word : n < 2 ^ 31) :
    (uint (sz + n) : Int) = sz + n := by
  unfold uint
  change sz ≤ 2147483648 at heap
  omega

theorem uint_shrink {sz : Nat} (heap : sz ≤ kernbase) (negative : n < 0) (word : -2 ^ 31 ≤ n) :
    (uint (sz + n) : Int) = sz + n ∧ uint (sz + n) < sz ∨ sz + n < 0 ∧ sz ≤ uint (sz + n) := by
  unfold uint
  change sz ≤ 2147483648 at heap
  omega

/-- A failed growth. -/
theorem grow_sameImage_iff {sz psize : Nat} (owned : Owned ld km d) (layout : Layout d sz psize)
    (positive : 0 < n) (word : n < 2 ^ 31)
    (failed : allocuvm ld km d sz (uint (sz + n)) = .ok (0, km', d')) :
    SameImage km d km' d' ↔ KeepsImage sz psize n := by
  have newsz := uint_grow layout.heap_le positive word
  have fits := layout.stack_le
  have condition : KeepsImage sz psize n ↔
      uint (sz + n) ≤ kernbase - psize * pgsize ∨ kernbase ≤ uint (sz + n) := by
    unfold KeepsImage
    change psize * 4096 ≤ 2147483648 at fits
    change (0 < n → sz + n ≤ (2147483648 : Int) - psize * 4096 ∨ (2147483648 : Int) ≤ sz + n) ∧
      (n < 0 → sz + n ≠ 0) ↔
      uint (sz + n) ≤ 2147483648 - psize * 4096 ∨ 2147483648 ≤ uint (sz + n)
    omega
  rw [condition]
  rcases allocuvm_cases owned failed with ⟨high, _, rfl, rfl⟩ | ⟨small, _, zero, _⟩ |
    ⟨_, _, zero, _⟩ | ⟨grow, user, _, back⟩
  · exact ⟨fun _ => .inr high, fun _ _ _ => rfl⟩
  · omega
  · omega
  · have some : pgRoundUp sz < uint (sz + n) := by
      by_contra within
      rw [allocuvm_within (Nat.le_of_lt grow) user (Nat.le_of_not_lt within)] at failed
      have zero := congrArg Prod.fst (Except.ok.inj failed)
      simp only at zero
      omega
    rw [back.sameImage_iff owned layout some user]
    exact ⟨.inl, fun either => either.resolve_right (Nat.not_le.mpr user)⟩

/-- A failed shrink. -/
theorem shrink_sameImage_iff {sz psize : Nat} (owned : Owned ld km d) (layout : Layout d sz psize)
    (negative : n < 0) (word : -2 ^ 31 ≤ n)
    (failed : deallocuvm ld km d sz (uint (sz + n)) = .ok (0, km', d')) :
    SameImage km d km' d' ↔ KeepsImage sz psize n := by
  have newsz := uint_shrink layout.heap_le negative word
  unfold KeepsImage
  rcases deallocuvm_cases layout.heap_le owned.validFrames failed with
    ⟨_, zero, rfl, rfl⟩ | ⟨shrinks, zero, released⟩
  · exact ⟨fun _ => ⟨by omega, by omega⟩, fun _ _ _ => rfl⟩
  · -- the new size is zero, and the page at address zero has been released
    constructor
    · intro same
      have user : 0 < kernbase := by decide
      have heap := le_pgRoundUp layout.heap_le
      have present := (layout.exact 0 user).mpr (.inl (by omega))
      rw [← same.isSome user, released.lookup 0 (by decide), ← zero,
        if_pos ⟨Nat.le_refl _, Nat.zero_lt_of_lt shrinks⟩] at present
      cases present
    · intro keeps
      exact (keeps.2 negative (by omega)).elim

/--
A failed call of `growproc` leaves the address space intact exactly when it
does not grow into the stack and does not shrink to nothing.
-/
theorem failed_growproc_intact_iff (own : (s.proc p).pgdir = some d) (owned : Owned ld s.kmem d)
    (layout : Layout d (s.proc p).sz (s.proc p).stackPsize) (word : -2 ^ 31 ≤ n ∧ n < 2 ^ 31)
    (failed : growproc ld s p n = .ok (-1, s')) :
    SameMemory s p s' p ↔ KeepsImage (s.proc p).sz (s.proc p).stackPsize n := by
  rcases growproc_eq_ok own failed with ⟨positive, result, km, d', grown, stored⟩ |
    ⟨negative, result, km, d', shrunk, stored⟩ | ⟨_, impossible, _⟩
  · rcases growprocResize_eq_ok stored with ⟨rfl, _, stored⟩ | ⟨_, impossible, _⟩
    · rw [sameMemory_iff own stored]
      exact grow_sameImage_iff owned layout positive word.2 grown
    · cases impossible
  · rcases growprocResize_eq_ok stored with ⟨rfl, _, stored⟩ | ⟨_, impossible, _⟩
    · rw [sameMemory_iff own stored]
      exact shrink_sameImage_iff owned layout negative word.1 shrunk
    · cases impossible
  · cases impossible

/-! ## Calls on the small machine -/

theorem growproc_of_allocuvm (own : (s.proc p).pgdir = some d) (positive : 0 < n)
    (failed : allocuvm ld s.kmem d (s.proc p).sz (uint ((s.proc p).sz + n)) = .ok (0, km', d')) :
    ∃ s', growproc ld s p n = .ok (-1, s') := by
  unfold growproc
  rw [own]
  simp only [positive, if_true]
  exact ⟨_, Kern.bind_eq_ok.mpr ⟨_, failed, rfl⟩⟩

/-- Without a free page a call that needs one fails. -/
theorem StackProc.growproc_fails {psize : Nat} (proc : StackProc ld s p d psize)
    (empty : s.kmem.freelist = []) (positive : 0 < n)
    (some : pgRoundUp (s.proc p).sz < (s.proc p).sz + n) (user : (s.proc p).sz + n < kernbase) :
    ∃ s', growproc ld s p n = .ok (-1, s') := by
  have word : n < 2 ^ 31 := by
    change (s.proc p).sz + n < (2147483648 : Int) at user
    omega
  have newsz := uint_grow proc.layout.heap_le positive word
  obtain ⟨km', d', failed⟩ := allocuvm_fails proc.layout.heap_le
    (by omega : uint ((s.proc p).sz + n) < kernbase) (by omega) proc.owned.validFrames empty
  exact growproc_of_allocuvm proc.own positive failed

/-- A call for one page, which is refused for lack of memory. -/
theorem failed_growproc_intact_page : ∃ s s', growproc sampleLinkage s 0 4096 = .ok (-1, s') ∧
    SameMemory s 0 s' 0 := by
  obtain ⟨s, d, started⟩ := sample_stack (by decide : 0 + 2 ≤ 0x800)
  have proc := started.drained
  have sz : ((s.setKmem ⟨[], s.kmem.mem⟩).proc 0).sz = pgsize := started.sz
  obtain ⟨s', failed⟩ := proc.growproc_fails rfl (by decide : (0 : Int) < 4096)
    (by rw [sz]; decide) (by rw [sz]; decide)
  refine ⟨_, s', failed, (failed_growproc_intact_iff proc.own proc.owned ?_ (by decide)
    failed).mpr ?_⟩
  · rw [proc.stackPsize]
    exact proc.layout
  · rw [sz, proc.stackPsize]
    unfold KeepsImage
    decide

/-- Shrinking to nothing returns `-1`, and the only page is gone. -/
theorem growproc_empties : ∃ s s', (system sampleLinkage).Reachable s ∧
    (s.proc 0).sz = 4096 ∧ growproc sampleLinkage s 0 (-4096) = .ok (-1, s') ∧
    ¬ SameMemory s 0 s' 0 := by
  obtain ⟨s, d, started⟩ := sample_started (by decide : 0 ≤ 0x800)
  have owned := started.source.owned
  obtain ⟨km', d', freed, released⟩ := deallocuvm_released s.kmem (by decide : pgsize ≤ kernbase)
    (by decide : 0 < pgsize) owned.validFrames
  have failed : growproc sampleLinkage s 0 (-4096) =
      .ok (-1, (s.setKmem km').modify 0 fun pr => { pr with pgdir := some d' }) := by
    unfold growproc
    rw [started.own]
    simp only [started.sz]
    exact Kern.bind_eq_ok.mpr ⟨_, freed, rfl⟩
  refine ⟨s, _, started.reached, started.sz, failed, fun intact => ?_⟩
  have same := (sameMemory_iff started.own rfl).mp intact
  have present := (started.layout.exact 0 (by decide)).mpr (.inl (by decide))
  rw [← same.isSome (by decide), released.lookup 0 (by decide), if_pos (by decide)] at present
  cases present

end SlabStudy.Xv6
