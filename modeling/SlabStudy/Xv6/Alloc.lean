import SlabStudy.Xv6.Dealloc

/-!
# Growing user memory

`allocuvm` and `copyuvm` share one step: take a free page, give it contents,
and map it.  The step fails when no page is left for the contents or for a
page table.  A failing `allocuvm` rolls back by deallocating the whole range
it was asked for, whatever is mapped there.
-/

namespace SlabStudy.Xv6

/-- Outcome of taking a page and mapping it. -/
inductive Fresh where
  /-- `kalloc` returned the null pointer. -/
  | noPage
  /-- `mappages` returned `-1`; the page is still in the hands of the caller. -/
  | noTable (frame : Frame) (km : Kmem) (d : Pgdir)
  | mapped (km : Kmem) (d : Pgdir)

/-- Reading of the result of `mappages` for the page `frame`. -/
def Fresh.ofMappages (frame : Frame) : Kern (Bool × Kmem × Pgdir) → Kern Fresh
  | .error reason => .error reason
  | .ok (true, km, d) => .ok (.mapped km d)
  | .ok (false, km, d) => .ok (.noTable frame km d)

/-- Take a free page, let `write` set its contents, and map it at `a`. -/
def mapFresh (km : Kmem) (d : Pgdir) (a : Nat) (write : Kmem → Frame → Kmem)
    (perm : Flags) : Kern Fresh :=
  match kalloc km with
  | none => .ok .noPage
  | some (frame, km) =>
      Fresh.ofMappages frame (mappages (write km frame) d a pgsize frame perm)

/-- The loop of `allocuvm`, with its two ways out of memory. -/
def allocuvmLoop (ld : Linkage) (oldsz newsz : Nat) :
    List Nat → Kmem → Pgdir → Kern (Nat × Kmem × Pgdir)
  | [], km, d => .ok (newsz, km, d)
  | a :: rest, km, d =>
      match mapFresh km d a (fun km mem => km.fill mem 0) (pteW ||| pteU) with
      | .error reason => .error reason
      | .ok .noPage => do
          let (_, km, d) ← deallocuvm ld km d newsz oldsz
          return (0, km, d)
      | .ok (.noTable mem km d) => do
          let (_, km, d) ← deallocuvm ld km d newsz oldsz
          let km ← kfree ld km mem
          return (0, km, d)
      | .ok (.mapped km d) => allocuvmLoop ld oldsz newsz rest km d

/-- Grow a process from `oldsz` to `newsz`; the new size, or zero on error. -/
def allocuvm (ld : Linkage) (km : Kmem) (d : Pgdir) (oldsz newsz : Nat) :
    Kern (Nat × Kmem × Pgdir) :=
  if kernbase ≤ newsz then .ok (0, km, d)
  else if newsz < oldsz then .ok (oldsz, km, d)
  else allocuvmLoop ld oldsz newsz (pageAddrs (pgRoundUp oldsz) newsz) km d

/-- Free pages and the pages of a directory are all different pages of memory. -/
structure Owned (ld : Linkage) (km : Kmem) (d : Pgdir) : Prop where
  nodup : ((km.freelist : Multiset Frame) + d.frames).Nodup
  valid : ∀ frame ∈ (km.freelist : Multiset Frame) + d.frames, frame.Valid ld

namespace Owned

variable {ld : Linkage} {km km' : Kmem} {d d' : Pgdir}

theorem of_conserved (owned : Owned ld km d)
    (conserved : (km'.freelist : Multiset Frame) + d'.frames = km.freelist + d.frames) :
    Owned ld km' d' := by
  refine ⟨?_, ?_⟩
  · rw [conserved]
    exact owned.nodup
  · rw [conserved]
    exact owned.valid

theorem validFrames (owned : Owned ld km d) : ∀ frame ∈ d.frames, frame.Valid ld :=
  fun frame member => owned.valid frame (Multiset.mem_add.mpr (.inr member))

theorem freelist_nodup (owned : Owned ld km d) : km.freelist.Nodup :=
  Multiset.coe_nodup.mp (Multiset.nodup_add.mp owned.nodup).1

theorem notFree (owned : Owned ld km d) {frame : Frame} (member : frame ∈ d.frames) :
    frame ∉ km.freelist := by
  intro free
  have disjoint := (Multiset.nodup_add.mp owned.nodup).2.2
  exact Multiset.disjoint_left.mp disjoint (Multiset.mem_coe.mpr free) member

/-- Different pages of a directory are different pages of memory. -/
theorem frames_apart (owned : Owned ld km d) {va vb : Nat} {pte other : Pte}
    (left : va < kernbase) (right : vb < kernbase) (found : d.lookup va = some pte)
    (also : d.lookup vb = some other) (apart : va / pgsize ≠ vb / pgsize) :
    pte.addr ≠ other.addr := by
  have bound {a : Nat} (low : a < kernbase) : a < 2 ^ 32 := Nat.lt_trans low (by decide)
  obtain ⟨entry, present⟩ := Pgdir.lookup_eq_some_iff.mp found
  -- without the first page the second one is still among the pages of the directory
  have still : (d.setPte va .zero).lookup vb = some other := by
    rw [Pgdir.lookup_setPte (bound left) (bound right) entry, if_neg (Ne.symm apart), also]
  have listed := Pgdir.addr_mem_frames right still
  have traded := Pgdir.setPte_frames Pte.zero left entry
  rw [Pte.zero_frames, add_zero] at traded
  have own : pte.addr ∈ pte.frames := by simp [Pte.frames, present]
  have distinct := (Multiset.nodup_add.mp owned.nodup).2.1
  rw [← traded] at distinct
  intro same
  rw [← same] at listed
  exact Multiset.disjoint_left.mp (Multiset.nodup_add.mp distinct).2.2 listed own

end Owned

/-! ## The shared step -/

/-- A way to set the contents of one page. -/
structure Writes (write : Kmem → Frame → Kmem) : Prop where
  freelist : ∀ km frame, (write km frame).freelist = km.freelist
  others : ∀ km frame other, other ≠ frame → (write km frame).mem other = km.mem other

theorem writes_fill (byte : UInt8) : Writes fun km frame => km.fill frame byte :=
  ⟨fun _ _ => rfl, fun km _ _ apart => km.fill_mem_of_ne byte apart⟩

theorem writes_copyPage (src : Frame) : Writes fun km frame => km.copyPage frame src :=
  ⟨fun _ _ => rfl, fun km _ _ apart => km.copyPage_mem_of_ne src apart⟩

section Step

variable {km km' : Kmem} {d d' : Pgdir} {a : Nat} {write : Kmem → Frame → Kmem} {perm : Flags}

/-- The step, after the page has been taken. -/
theorem mapFresh_of_kalloc {frame : Frame} {km₁ : Kmem} (aligned : a % pgsize = 0)
    (bound : a < 2 ^ 32) (taken : kalloc km = some (frame, km₁)) :
    mapFresh km d a write perm =
      Fresh.ofMappages frame (mappagesLoop perm [(a, frame)] (write km₁ frame) d) := by
  rw [mapFresh, taken, ← mappages_page _ _ _ _ aligned bound]

theorem Fresh.ofMappages_eq_ok {frame : Frame} {result : Kern (Bool × Kmem × Pgdir)}
    {fresh : Fresh} (read : Fresh.ofMappages frame result = .ok fresh) :
    ∃ km d, (result = .ok (true, km, d) ∧ fresh = .mapped km d) ∨
      (result = .ok (false, km, d) ∧ fresh = .noTable frame km d) := by
  unfold Fresh.ofMappages at read
  split at read
  · cases read
  · cases read
    exact ⟨_, _, .inl ⟨rfl, rfl⟩⟩
  · cases read
    exact ⟨_, _, .inr ⟨rfl, rfl⟩⟩

theorem mapFresh_noTable {frame : Frame} (writes : Writes write) (aligned : a % pgsize = 0)
    (bound : a < 2 ^ 32) (ran : mapFresh km d a write perm = .ok (.noTable frame km' d')) :
    d' = d ∧ km.freelist = [frame] ∧ km'.freelist = [] ∧ d.pde (pdx a) = none ∧
      ∀ other, other ≠ frame → km'.mem other = km.mem other := by
  cases taken : kalloc km with
  | none => simp [mapFresh, taken] at ran
  | some pair =>
      obtain ⟨first, km₁⟩ := pair
      rw [mapFresh_of_kalloc aligned bound taken] at ran
      obtain ⟨km₂, d₂, ⟨_, impossible⟩ | ⟨mapped, read⟩⟩ := Fresh.ofMappages_eq_ok ran
      · cases impossible
      · cases read
        obtain ⟨listed, same⟩ := kalloc_eq_some_iff.mp taken
        rcases mappagesLoop_cons mapped with ⟨stuck, _, rfl, rfl⟩ | ⟨_, _, _, _, _, rest⟩
        · obtain ⟨missing, empty⟩ := walkpgdir_true_eq_none_iff.mp stuck
          rw [writes.freelist] at empty
          refine ⟨rfl, by rw [listed, empty], ?_, missing, fun other apart => ?_⟩
          · rw [writes.freelist, empty]
          · rw [writes.others _ _ _ apart, same]
        · cases rest

/-- What a successful step did. -/
structure MapsPage (km : Kmem) (d : Pgdir) (a : Nat) (perm : Flags) (km' : Kmem) (d' : Pgdir)
    (frame : Frame) : Prop where
  taken : frame ∈ km.freelist
  absent : d.lookup a = none
  lookup : ∀ vb, vb < 2 ^ 32 → d'.lookup vb =
    if vb / pgsize = a / pgsize then some ⟨frame, perm ||| pteP⟩ else d.lookup vb
  conserved : (km'.freelist : Multiset Frame) + d'.frames = km.freelist + d.frames
  grows : Grows km d km' d'
  counted : ∀ dirs, pdx a ∈ dirs →
    km'.freelist.length + 1 + d.missing dirs = km.freelist.length + d'.missing dirs
  table : (d'.pde (pdx a)).isSome = true

theorem mapsPage_of_walk {frame : Frame} {km₁ : Kmem} {pte : Pte} (writes : Writes write)
    (bound : a < 2 ^ 32) (user : a < kernbase) (listed : km.freelist = frame :: km₁.freelist)
    (same : km₁.mem = km.mem)
    (walked : walkpgdir (write km₁ frame) d a true = some (pte, km', d'))
    (absent : pte.present = false) :
    MapsPage km d a perm km' (d'.setPte a ⟨frame, perm ||| pteP⟩) frame := by
  have entry := walkpgdir_pte? walked
  have unchanged : (write km₁ frame).freelist = km₁.freelist := writes.freelist _ _
  have firstStep : Grows km d (write km₁ frame) d := by
    refine ⟨?_, fun other used => ?_, fun _ _ _ found => found, rfl⟩
    · rw [unchanged, listed]
      exact List.suffix_cons _ _
    · rw [writes.others _ _ _ fun same => used (by simp [listed, same]), same]
  refine ⟨by simp [listed], ?_, fun vb small => ?_, ?_, ?_, fun dirs inside => ?_, ?_⟩
  · rw [← walkpgdir_lookup walked, Pgdir.lookup, entry]
    simp [Option.filter, absent]
  · rw [Pgdir.lookup_setPte bound small entry, walkpgdir_lookup walked]
    simp [Option.filter]
  · have traded := Pgdir.setPte_frames ⟨frame, perm ||| pteP⟩ user entry
    have nothing : pte.frames = 0 := by simp [Pte.frames, absent]
    have single : (Pte.mk frame (perm ||| pteP)).frames = {frame} := by simp [Pte.frames]
    rw [nothing, add_zero, single] at traded
    rw [traded, ← add_assoc, walkpgdir_conserves walked, unchanged, listed,
      ← Multiset.cons_coe, ← Multiset.singleton_add]
    abel
  · exact firstStep.trans ((walkpgdir_grows walked).trans (setPte_grows _ _ bound entry absent))
  · have counted := walkpgdir_missing inside walked
    rw [unchanged] at counted
    rw [Pgdir.missing_setPte, listed, List.length_cons]
    omega
  · obtain ⟨tab, atDir, _⟩ := Option.map_eq_some_iff.mp entry
    simp [Pgdir.setPte, atDir]

theorem mapFresh_mapped (writes : Writes write) (aligned : a % pgsize = 0)
    (user : a < kernbase) (ran : mapFresh km d a write perm = .ok (.mapped km' d')) :
    ∃ frame km₁, kalloc km = some (frame, km₁) ∧ MapsPage km d a perm km' d' frame ∧
      (km.freelist.Nodup → km'.mem frame = (write km₁ frame).mem frame) := by
  have bound : a < 2 ^ 32 := Nat.lt_trans user (by decide)
  cases taken : kalloc km with
  | none => simp [mapFresh, taken] at ran
  | some pair =>
      obtain ⟨frame, km₁⟩ := pair
      rw [mapFresh_of_kalloc aligned bound taken] at ran
      obtain ⟨km₂, d₂, ⟨mapped, read⟩ | ⟨_, impossible⟩⟩ := Fresh.ofMappages_eq_ok ran
      · cases read
        obtain ⟨listed, same⟩ := kalloc_eq_some_iff.mp taken
        rcases mappagesLoop_cons mapped with
          ⟨_, impossible, _⟩ | ⟨pte, km₃, d₃, walked, absent, rest⟩
        · cases impossible
        · simp only [mappagesLoop, Except.ok.injEq, Prod.mk.injEq, true_and] at rest
          obtain ⟨rfl, rfl⟩ := rest
          exact ⟨frame, km₁, rfl,
            mapsPage_of_walk writes bound user listed same walked absent, fun nodup => by
              -- the page table, if one was needed, is another page
              apply (walkpgdir_grows walked).untouched
              rw [writes.freelist]
              rw [listed, List.nodup_cons] at nodup
              exact nodup.1⟩
      · cases impossible

/-- A page that is present is not mapped again. -/
theorem mapFresh_present (aligned : a % pgsize = 0) (bound : a < 2 ^ 32)
    (occupied : (d.lookup a).isSome = true) :
    mapFresh km d a write perm ≠ .ok (.mapped km' d') := by
  intro ran
  cases taken : kalloc km with
  | none => simp [mapFresh, taken] at ran
  | some pair =>
      obtain ⟨frame, km₁⟩ := pair
      rw [mapFresh_of_kalloc aligned bound taken] at ran
      obtain ⟨km₂, d₂, ⟨mapped, _⟩ | ⟨_, impossible⟩⟩ := Fresh.ofMappages_eq_ok ran
      · rcases mappagesLoop_cons mapped with
          ⟨_, impossible, _⟩ | ⟨pte, km₃, d₃, walked, absent, _⟩
        · cases impossible
        · rw [← walkpgdir_lookup walked, Pgdir.lookup, walkpgdir_pte? walked] at occupied
          simp [Option.filter, absent] at occupied
      · cases impossible

/-- The step succeeds on an absent page when a page and its table can be had. -/
theorem mapFresh_succeeds (perm : Flags) (writes : Writes write) (aligned : a % pgsize = 0)
    (bound : a < 2 ^ 32) (absent : d.lookup a = none)
    (enough : 1 + d.missing {pdx a} ≤ km.freelist.length) :
    ∃ km' d', mapFresh km d a write perm = .ok (.mapped km' d') := by
  cases listed : km.freelist with
  | nil =>
      rw [listed, List.length_nil] at enough
      omega
  | cons frame rest =>
      have taken : kalloc km = some (frame, { km with freelist := rest }) :=
        kalloc_eq_some_iff.mpr ⟨listed, rfl⟩
      rw [listed, List.length_cons] at enough
      have single : ∀ page ∈ [(a, frame)], page = (a, frame) := by simp
      obtain ⟨km', d', ran, _⟩ := mappagesLoop_succeeds perm
        (write { km with freelist := rest } frame) [(a, frame)]
        (fun page member => by
          rw [single page member]
          exact ⟨bound, Finset.mem_singleton_self _⟩)
        (fun page member => by
          rw [single page member]
          exact absent)
        (List.nodup_singleton _) (by
          rw [writes.freelist]
          exact Nat.le_of_add_le_add_left (Nat.add_comm rest.length 1 ▸ enough))
      exact ⟨km', d', by rw [mapFresh_of_kalloc aligned bound taken, ran]; rfl⟩

end Step

/-! ## The loop of allocuvm -/

/-- The listed pages are mapped, and every other page is as it was. -/
structure Extended (pages : List Nat) (km : Kmem) (d : Pgdir) (km' : Kmem) (d' : Pgdir) :
    Prop where
  conserved : (km'.freelist : Multiset Frame) + d'.frames = km.freelist + d.frames
  grows : Grows km d km' d'
  added : ∀ va, va < 2 ^ 32 → pgRoundDown va ∈ pages →
    ∃ frame, d'.lookup va = some ⟨frame, pteW ||| pteU ||| pteP⟩
  others : ∀ va, va < 2 ^ 32 → pgRoundDown va ∉ pages → d'.lookup va = d.lookup va

/-- No page that starts in `[low, high)` is left, and every other page is as it was. -/
structure RolledBack (low high : Nat) (km : Kmem) (d : Pgdir) (km' : Kmem) (d' : Pgdir) :
    Prop where
  conserved : (km'.freelist : Multiset Frame) + d'.frames = km.freelist + d.frames
  lookup : ∀ va, va < 2 ^ 32 →
    d'.lookup va = if PageIn low high va then none else d.lookup va
  untouched : ∀ frame, frame ∉ km.freelist → frame ∉ km'.freelist →
    km'.mem frame = km.mem frame

section Loop

variable {ld : Linkage} {km km' : Kmem} {d d' : Pgdir} {oldsz newsz : Nat}

theorem pgRoundDown_eq_iff {a va : Nat} (aligned : a % pgsize = 0) :
    pgRoundDown va = a ↔ va / pgsize = a / pgsize := by
  simp only [pgRoundDown, pgsize] at *
  omega

/-- Mapping one page of the range does not change what a later roll-back leaves. -/
theorem RolledBack.after_page {km₁ : Kmem} {d₁ : Pgdir} {a low : Nat} {perm : Flags}
    {frame : Frame} (aligned : a % pgsize = 0) (inside : low ≤ a ∧ a < newsz)
    (mapped : MapsPage km d a perm km₁ d₁ frame)
    (back : RolledBack low newsz km₁ d₁ km' d') : RolledBack low newsz km d km' d' := by
  refine ⟨back.conserved.trans mapped.conserved, fun va bound => ?_, fun used before after => ?_⟩
  · rw [back.lookup va bound]
    by_cases within : PageIn low newsz va
    · rw [if_pos within, if_pos within]
    · have apart : va / pgsize ≠ a / pgsize := by
        intro page
        rw [← pgRoundDown_eq_iff aligned] at page
        exact within (by rw [PageIn, page]; exact inside)
      rw [if_neg within, if_neg within, mapped.lookup va bound, if_neg apart]
  · rw [back.untouched used (fun free => before (mapped.grows.suffix.subset free)) after,
      mapped.grows.untouched used before]

/-- A step without a page leaves everything to the roll-back. -/
theorem rollback_noPage (owned : Owned ld km d) (limit : newsz ≤ kernbase)
    (grow : oldsz < newsz)
    (ran : (do let (_, km, d) ← deallocuvm ld km d newsz oldsz; return (0, km, d)) =
      (.ok (0, km', d') : Kern (Nat × Kmem × Pgdir))) :
    RolledBack (pgRoundUp oldsz) newsz km d km' d' := by
  obtain ⟨km₁, d₁, freed, released⟩ := deallocuvm_released km limit grow owned.validFrames
  rw [freed] at ran
  cases ran
  exact ⟨released.conserved, released.lookup, fun frame _ after => released.untouched frame after⟩

/-- A step without a page table also gives back the page that it had taken. -/
theorem rollback_noTable {km₁ : Kmem} {mem : Frame} (owned : Owned ld km d)
    (limit : newsz ≤ kernbase) (grow : oldsz < newsz) (listed : km.freelist = [mem])
    (empty : km₁.freelist = [])
    (kept : ∀ other, other ≠ mem → km₁.mem other = km.mem other)
    (ran : (do
      let (_, km, d) ← deallocuvm ld km₁ d newsz oldsz
      let km ← kfree ld km mem
      return (0, km, d)) = (.ok (0, km', d') : Kern (Nat × Kmem × Pgdir))) :
    RolledBack (pgRoundUp oldsz) newsz km d km' d' := by
  obtain ⟨km₂, d₂, freed, released⟩ := deallocuvm_released km₁ limit grow owned.validFrames
  obtain ⟨triple, dealloc, tail⟩ := Kern.bind_eq_ok.mp ran
  rw [freed] at dealloc
  cases dealloc
  obtain ⟨km₃, given, last⟩ := Kern.bind_eq_ok.mp tail
  cases last
  obtain ⟨_, added, others⟩ := kfree_eq_ok given
  refine ⟨?_, released.lookup, fun frame before after => ?_⟩
  · have conserved := released.conserved
    rw [empty, Multiset.coe_nil, zero_add] at conserved
    rw [added, listed, ← Multiset.cons_coe, ← Multiset.singleton_add, add_assoc, conserved]
    rfl
  · rw [added, List.mem_cons, not_or] at after
    rw [others frame after.1, released.untouched frame after.2, kept frame after.1]

/-- `allocuvm` either maps the pages of its range, or ends with none of them. -/
theorem allocuvmLoop_cases {pages : List Nat} {result : Nat} (owned : Owned ld km d)
    (limit : newsz ≤ kernbase) (grow : oldsz < newsz)
    (range : ∀ a ∈ pages, a % pgsize = 0 ∧ pgRoundUp oldsz ≤ a ∧ a < newsz)
    (ran : allocuvmLoop ld oldsz newsz pages km d = .ok (result, km', d')) :
    (result = newsz ∧ Extended pages km d km' d') ∨
      (result = 0 ∧ RolledBack (pgRoundUp oldsz) newsz km d km' d') := by
  induction pages generalizing km d with
  | nil =>
      cases ran
      refine .inl ⟨rfl, rfl, Grows.refl _ _, fun _ _ member => ?_, fun _ _ _ => rfl⟩
      cases member
  | cons a rest ih =>
      obtain ⟨aligned, low, high⟩ := range a (List.mem_cons_self ..)
      have user : a < kernbase := Nat.lt_of_lt_of_le high limit
      have bound : a < 2 ^ 32 := Nat.lt_trans user (by decide)
      have writes := writes_fill 0
      unfold allocuvmLoop at ran
      cases step : mapFresh km d a (fun km mem => km.fill mem 0) (pteW ||| pteU) with
      | error reason =>
          rw [step] at ran
          cases ran
      | ok fresh =>
          rw [step] at ran
          cases fresh with
          | noPage =>
              obtain ⟨triple, _, last⟩ := Kern.bind_eq_ok.mp ran
              have zero : result = 0 := by cases last; rfl
              subst zero
              exact .inr ⟨rfl, rollback_noPage owned limit grow ran⟩
          | noTable mem km₁ d₁ =>
              obtain ⟨rfl, listed, empty, _, kept⟩ :=
                mapFresh_noTable writes aligned bound step
              obtain ⟨triple, _, tail⟩ := Kern.bind_eq_ok.mp ran
              obtain ⟨_, _, last⟩ := Kern.bind_eq_ok.mp tail
              have zero : result = 0 := by cases last; rfl
              subst zero
              exact .inr ⟨rfl, rollback_noTable owned limit grow listed empty kept ran⟩
          | mapped km₁ d₁ =>
              obtain ⟨frame, _, _, mapped, _⟩ := mapFresh_mapped writes aligned user step
              rcases ih (owned.of_conserved mapped.conserved)
                (fun b member => range b (List.mem_cons_of_mem _ member)) ran with
                ⟨done, extended⟩ | ⟨done, back⟩
              · refine .inl ⟨done, extended.conserved.trans mapped.conserved,
                  mapped.grows.trans extended.grows, fun va small member => ?_,
                  fun va small outside => ?_⟩
                · rcases List.mem_cons.mp member with here | later
                  · rw [pgRoundDown_eq_iff aligned] at here
                    refine ⟨frame, extended.grows.kept va _ small ?_⟩
                    rw [mapped.lookup va small, if_pos here]
                  · exact extended.added va small later
                · rw [List.mem_cons, not_or, pgRoundDown_eq_iff aligned] at outside
                  rw [extended.others va small outside.2, mapped.lookup va small,
                    if_neg outside.1]
              · exact .inr ⟨done, back.after_page aligned ⟨low, high⟩ mapped⟩

/-- The four ways in which a call of `allocuvm` returns. -/
theorem allocuvm_cases {result : Nat} (owned : Owned ld km d)
    (ran : allocuvm ld km d oldsz newsz = .ok (result, km', d')) :
    (kernbase ≤ newsz ∧ result = 0 ∧ km' = km ∧ d' = d) ∨
      (newsz < oldsz ∧ newsz < kernbase ∧ result = oldsz ∧ km' = km ∧ d' = d) ∨
      (oldsz ≤ newsz ∧ newsz < kernbase ∧ result = newsz ∧
        Extended (pageAddrs (pgRoundUp oldsz) newsz) km d km' d') ∨
      (oldsz < newsz ∧ newsz < kernbase ∧ result = 0 ∧
        RolledBack (pgRoundUp oldsz) newsz km d km' d') := by
  unfold allocuvm at ran
  split at ran
  · next high =>
      cases ran
      exact .inl ⟨high, rfl, rfl, rfl⟩
  · next low =>
      have user : newsz < kernbase := Nat.lt_of_not_le low
      split at ran
      · next smaller =>
          cases ran
          exact .inr (.inl ⟨smaller, user, rfl, rfl, rfl⟩)
      · next notSmaller =>
          have order : oldsz ≤ newsz := Nat.le_of_not_lt notSmaller
          have range : ∀ a ∈ pageAddrs (pgRoundUp oldsz) newsz,
              a % pgsize = 0 ∧ pgRoundUp oldsz ≤ a ∧ a < newsz := by
            intro a member
            obtain ⟨above, below, aligned⟩ := (mem_pageAddrs (pgRoundUp_mod oldsz)).mp member
            exact ⟨aligned, above, below⟩
          rcases Nat.lt_or_eq_of_le order with grow | same
          · rcases allocuvmLoop_cases owned (Nat.le_of_lt user) grow range ran with
              ⟨done, extended⟩ | ⟨done, back⟩
            · exact .inr (.inr (.inl ⟨order, user, done, extended⟩))
            · exact .inr (.inr (.inr ⟨grow, user, done, back⟩))
          · subst same
            have empty : pageAddrs (pgRoundUp oldsz) oldsz = [] := by
              apply List.eq_nil_iff_forall_not_mem.mpr
              intro a member
              obtain ⟨_, above, below⟩ := range a member
              have rounded := le_pgRoundUp (Nat.le_of_lt user)
              omega
            rw [empty] at ran ⊢
            cases ran
            exact .inr (.inr (.inl ⟨order, user, rfl, rfl, Grows.refl _ _,
              fun _ _ member => (List.not_mem_nil member).elim, fun _ _ _ => rfl⟩))

/-- A call that needs a page and finds none returns zero. -/
theorem allocuvm_fails (old : oldsz ≤ kernbase) (user : newsz < kernbase)
    (some : pgRoundUp oldsz < newsz) (valid : ∀ frame ∈ d.frames, frame.Valid ld)
    (empty : km.freelist = []) :
    ∃ km' d', allocuvm ld km d oldsz newsz = .ok (0, km', d') := by
  have grow : oldsz < newsz := Nat.lt_of_le_of_lt (le_pgRoundUp old) some
  obtain ⟨km', d', freed, _⟩ := deallocuvm_released km (Nat.le_of_lt user) grow valid
  refine ⟨km', d', ?_⟩
  unfold allocuvm
  rw [if_neg (Nat.not_le.mpr user), if_neg (Nat.not_lt.mpr (Nat.le_of_lt grow))]
  cases pages : pageAddrs (pgRoundUp oldsz) newsz with
  | nil =>
      have first := (mem_pageAddrs (pgRoundUp_mod oldsz)).mpr
        ⟨Nat.le_refl _, some, pgRoundUp_mod oldsz⟩
      rw [pages] at first
      cases first
  | cons a rest =>
      unfold allocuvmLoop
      rw [mapFresh, kalloc_eq_none_iff.mpr empty]
      exact Kern.bind_eq_ok.mpr ⟨_, freed, rfl⟩

/-- A size at or above `KERNBASE` is refused. -/
theorem allocuvm_user {result : Nat} (ran : allocuvm ld km d oldsz newsz = .ok (result, km', d'))
    (positive : result ≠ 0) : newsz < kernbase := by
  by_contra high
  rw [allocuvm, if_pos (Nat.le_of_not_lt high)] at ran
  cases ran
  exact positive rfl

/-- Whatever `allocuvm` does, no page is lost and the size stays in user space. -/
theorem allocuvm_conserved {result : Nat} (owned : Owned ld km d)
    (ran : allocuvm ld km d oldsz newsz = .ok (result, km', d')) :
    (km'.freelist : Multiset Frame) + d'.frames = km.freelist + d.frames ∧
      (oldsz ≤ kernbase → result ≤ kernbase) := by
  rcases allocuvm_cases owned ran with
    ⟨_, rfl, rfl, rfl⟩ | ⟨_, _, rfl, rfl, rfl⟩ | ⟨_, user, rfl, extended⟩ | ⟨_, _, rfl, back⟩
  · exact ⟨rfl, fun _ => Nat.zero_le _⟩
  · exact ⟨rfl, id⟩
  · exact ⟨extended.conserved, fun _ => Nat.le_of_lt user⟩
  · exact ⟨back.conserved, fun _ => Nat.zero_le _⟩

end Loop

end SlabStudy.Xv6
