import SlabStudy.Xv6.UserBytes

/-!
# The loop of exec over the program headers

While the segments are loaded the new directory has a heap and nothing else.
Whatever the headers say, the pages that `allocuvm` maps are absent, and those
that `loaduvm` stores into are present; so neither of them stops the machine.
-/

namespace SlabStudy.Xv6

variable {ld : Linkage} {km km' : Kmem} {d d' : Pgdir} {sz newsz va : Nat}

/-- A directory with a heap from address zero on, and no stack yet. -/
structure HeapOnly (ld : Linkage) (km : Kmem) (d : Pgdir) (sz : Nat) : Prop where
  owned : Owned ld km d
  maps : MapsKernel ld d
  layout : Layout d sz 0
  only : d.UserOnly

theorem setupkvm_heap (free : FreeOk ld km) (ran : setupkvm ld km = .ok (some d, km')) :
    HeapOnly ld km' d 0 := by
  obtain ⟨_, owned, maps, layout, _⟩ := setupkvm_made free ran
  refine ⟨owned, maps, layout, fun va pte low found => ?_⟩
  have inside := (layout.exact va low).mp (by rw [found]; rfl)
  rw [Nat.zero_mul, Nat.sub_zero] at inside
  rcases inside with heap | stack
  · exact absurd heap (Nat.not_lt_zero va)
  · omega

namespace HeapOnly

theorem heap_le (heap : HeapOnly ld km d sz) : pgRoundUp sz ≤ phystop :=
  heap.owned.heap_le heap.layout

theorem lookup_iff (heap : HeapOnly ld km d sz) (low : va < kernbase) :
    (d.lookup va).isSome = true ↔ va < pgRoundUp sz := by
  rw [heap.layout.exact va low, Nat.zero_mul, Nat.sub_zero]
  exact or_iff_left (Nat.not_le.mpr low)

theorem present (heap : HeapOnly ld km d sz) (inside : va < pgRoundUp sz) :
    (d.lookup va).isSome = true := by
  have few := heap.heap_le
  refine (heap.lookup_iff ?_).mpr inside
  simp only [phystop, kernbase] at *
  omega

theorem absent (heap : HeapOnly ld km d sz) (above : pgRoundUp sz ≤ va) (low : va < kernbase) :
    d.lookup va = none := by
  rw [← Option.not_isSome_iff_eq_none, heap.lookup_iff low]
  exact Nat.not_lt.mpr above

/-! ## allocuvm and loaduvm -/

/-- The heap grows to a larger size, and keeps its size otherwise. -/
theorem allocuvm {size : Nat} (heap : HeapOnly ld km d sz)
    (ran : allocuvm ld km d sz newsz = .ok (size, km', d')) (positive : size ≠ 0) :
    HeapOnly ld km' d' size ∧ size = max sz newsz ∧
      (∀ va, va < pgRoundUp sz → userByte km' d' va = userByte km d va) ∧
      ∀ va, pgRoundUp sz ≤ va → va < pgRoundUp size → userByte km' d' va = some 0 := by
  obtain ⟨grows, only, new⟩ := allocuvm_fresh heap.owned heap.only ran positive
  have maps := (allocuvm_sameKernel ran).maps heap.maps
  have owned := (allocuvm_reworks heap.owned ran).owned heap.owned
  have made : Layout d' size 0 ∧ size = max sz newsz := by
    rcases allocuvm_cases heap.owned ran with
      ⟨_, zero, _⟩ | ⟨shorter, _, rfl, rfl, rfl⟩ | ⟨order, user, rfl, extended⟩ | ⟨_, _, zero, _⟩
    · exact absurd zero positive
    · exact ⟨heap.layout, (Nat.max_eq_left (Nat.le_of_lt shorter)).symm⟩
    · exact ⟨heap.layout.heap order user extended, (Nat.max_eq_right order).symm⟩
    · exact absurd zero positive
  have after : HeapOnly ld km' d' size := ⟨owned, maps, made.1, only⟩
  have few := after.heap_le
  have before := heap.heap_le
  have limit : phystop < kernbase := by decide
  refine ⟨after, made.2, fun va inside => ?_, fun va above below => ?_⟩
  · obtain ⟨pte, found⟩ := Option.isSome_iff_exists.mp (heap.present inside)
    have low : va < kernbase := by omega
    have here : userByte km d va = some (km.cell (pte.addr, Fin.ofNat pgsize va)) :=
      userByte_eq_some_iff.mpr ⟨_, heap.only.place low found, rfl⟩
    rw [here]
    exact grows.userByte heap.owned low here
  · have low : va < kernbase := by omega
    exact new.userByte only low (heap.absent above low) (after.present below)

/-- Loading stores into pages of the heap only. -/
theorem loaduvm {read : Readi} {addr offset filesz : Nat} {loaded : Bool}
    (heap : HeapOnly ld km d sz) (fits : addr + filesz ≤ sz)
    (ran : loaduvm read d addr offset filesz km = .ok (loaded, km')) : HeapOnly ld km' d sz := by
  have limit := heap.layout.heap_le
  have reworks := loaduvm_reworks (Nat.le_trans fits limit) (fun va inside => heap.present
    (Nat.lt_of_lt_of_le inside (Nat.le_trans fits (le_pgRoundUp limit)))) ran
  exact ⟨reworks.owned heap.owned, heap.maps, heap.layout, heap.only⟩

end HeapOnly

/-! ## The loop -/

/-- What `exec` checks of a segment before it allocates. -/
structure Proghdr.Ok (ph : Proghdr) : Prop where
  load : ph.type = elfProgLoad
  filesz_le : ph.filesz ≤ ph.memsz
  end_lt : ph.vaddr + ph.memsz < 2 ^ 32

/-- The four ways of a round: it gives up, skips the header, or allocates for it. -/
theorem execLoad_round (ld : Linkage) (read : Readi) (left off sz : Nat) (km : Kmem) (d : Pgdir) :
    execLoad ld read (left + 1) off sz km d = .ok (none, km, d) ∨
    ∃ bytes, read off 32 = some bytes ∧
      (((Proghdr.parse bytes).type ≠ elfProgLoad ∧ execLoad ld read (left + 1) off sz km d =
        execLoad ld read left ((off + 32) % 2 ^ 32) sz km d) ∨
      ((Proghdr.parse bytes).Ok ∧ execLoad ld read (left + 1) off sz km d = (do
        let ph := Proghdr.parse bytes
        let (sz, km, d) ← allocuvm ld km d sz (ph.vaddr + ph.memsz)
        if sz = 0 then .ok (none, km, d)
        else if ph.vaddr % pgsize ≠ 0 then .ok (none, km, d)
        else
          let (loaded, km) ← loaduvm read d ph.vaddr ph.off ph.filesz km
          if loaded then execLoad ld read left ((off + 32) % 2 ^ 32) sz km d
          else .ok (none, km, d)))) := by
  cases found : read off 32 with
  | none =>
      refine .inl ?_
      rw [execLoad, found]
  | some bytes =>
      rw [execLoad, found]
      dsimp only
      by_cases load : (Proghdr.parse bytes).type = elfProgLoad
      · rw [if_neg (not_not.mpr load)]
        by_cases short : (Proghdr.parse bytes).memsz < (Proghdr.parse bytes).filesz
        · exact .inl (if_pos short)
        rw [if_neg short]
        by_cases wraps : ((Proghdr.parse bytes).vaddr + (Proghdr.parse bytes).memsz) % 2 ^ 32 <
            (Proghdr.parse bytes).vaddr
        · exact .inl (if_pos wraps)
        rw [if_neg wraps]
        have word : (Proghdr.parse bytes).vaddr < 2 ^ 32 := leWord_lt bytes 8
        have long : (Proghdr.parse bytes).memsz < 2 ^ 32 := leWord_lt bytes 20
        have small : (Proghdr.parse bytes).vaddr + (Proghdr.parse bytes).memsz < 2 ^ 32 := by
          omega
        rw [Nat.mod_eq_of_lt small]
        exact .inr ⟨bytes, rfl, .inr ⟨⟨load, Nat.le_of_not_lt short, small⟩, rfl⟩⟩
      · exact .inr ⟨bytes, rfl, .inl ⟨load, if_pos load⟩⟩

namespace HeapOnly

variable {read : Readi} {left off : Nat}

/-- A segment that has been loaded: the heap has grown for it, and then been stored into. -/
structure Segment (ld : Linkage) (read : Readi) (ph : Proghdr) (sz : Nat) (km : Kmem) (d : Pgdir)
    (size : Nat) (km₁ : Kmem) (d' : Pgdir) (km' : Kmem) : Prop where
  ok : ph.Ok
  aligned : ph.vaddr % pgsize = 0
  positive : size ≠ 0
  grown : Xv6.allocuvm ld km d sz (ph.vaddr + ph.memsz) = .ok (size, km₁, d')
  stored : Xv6.loaduvm read d' ph.vaddr ph.off ph.filesz km₁ = .ok (true, km')

theorem Segment.fits {ph : Proghdr} {size : Nat} {km₁ : Kmem} (heap : HeapOnly ld km d sz)
    (segment : Segment ld read ph sz km d size km₁ d' km') : ph.vaddr + ph.filesz ≤ size := by
  obtain ⟨_, rfl, _⟩ := heap.allocuvm segment.grown segment.positive
  have small := segment.ok.filesz_le
  omega

/-- The heap after a segment. -/
theorem segment {ph : Proghdr} {size : Nat} {km₁ : Kmem} (heap : HeapOnly ld km d sz)
    (segment : Segment ld read ph sz km d size km₁ d' km') : HeapOnly ld km' d' size := by
  obtain ⟨grown, _⟩ := heap.allocuvm segment.grown segment.positive
  exact grown.loaduvm (Segment.fits heap segment) segment.stored

end HeapOnly

/-- A loop that has loaded everything has taken one header after the other. -/
theorem execLoad_succ {read : Readi} {left off sz' : Nat}
    (ran : execLoad ld read (left + 1) off sz km d = .ok (some sz', km', d')) :
    ∃ bytes, read off 32 = some bytes ∧
      (((Proghdr.parse bytes).type ≠ elfProgLoad ∧
        execLoad ld read left ((off + 32) % 2 ^ 32) sz km d = .ok (some sz', km', d')) ∨
      ∃ size km₁ d₁ km₂, HeapOnly.Segment ld read (Proghdr.parse bytes) sz km d size km₁ d₁ km₂ ∧
        execLoad ld read left ((off + 32) % 2 ^ 32) size km₂ d₁ = .ok (some sz', km', d')) := by
  rcases execLoad_round ld read left off sz km d with
    ends | ⟨bytes, found, ⟨other, skips⟩ | ⟨ok, loads⟩⟩
  · rw [ends] at ran
    cases ran
  · rw [skips] at ran
    exact ⟨bytes, found, .inl ⟨other, ran⟩⟩
  · rw [loads] at ran
    obtain ⟨⟨size, km₁, d₁⟩, grown, tail⟩ := Kern.bind_eq_ok.mp ran
    dsimp only at tail
    split at tail
    · cases tail
    next positive =>
    split at tail
    · cases tail
    next aligned =>
    obtain ⟨⟨loaded, km₂⟩, stored, last⟩ := Kern.bind_eq_ok.mp tail
    cases loaded with
    | false => cases last
    | true =>
        exact ⟨bytes, found, .inr ⟨size, km₁, d₁, km₂,
          ⟨ok, not_not.mp aligned, positive, grown, stored⟩, last⟩⟩

/-- What the loop leaves is again a heap. -/
theorem HeapOnly.execLoad {read : Readi} {left off sz' : Nat} (heap : HeapOnly ld km d sz)
    (ran : execLoad ld read left off sz km d = .ok (some sz', km', d')) :
    HeapOnly ld km' d' sz' := by
  induction left generalizing off sz km d with
  | zero =>
      cases ran
      exact heap
  | succ left ih =>
      obtain ⟨_, _, ⟨_, rest⟩ | ⟨_, _, _, _, segment, rest⟩⟩ := execLoad_succ ran
      · exact ih heap rest
      · exact ih (heap.segment segment) rest

end SlabStudy.Xv6
