import SlabStudy.Xv6.CopyOut
import SlabStudy.Xv6.ExecEffects

/-!
# The user bytes of a new image

Every page below `KERNBASE` that `allocuvm` maps is for the user, is a page of
memory of its own and holds zeros.  Since the pages of memory are few, a heap
that grows from address zero stays far below the stack.
-/

namespace SlabStudy.Xv6

open Library

variable {ld : Linkage} {km km' km'' : Kmem} {d d' d'' : Pgdir} {va vb : Nat}

/-! ## Addresses and places -/

/-- Every present page of the user half is for the user. -/
def Pgdir.UserOnly (d : Pgdir) : Prop :=
  ∀ va pte, va < kernbase → d.lookup va = some pte → pte.user = true

/-- A present page has a place for each of its addresses. -/
theorem Pgdir.UserOnly.place (only : d.UserOnly) {pte : Pte} (low : va < kernbase)
    (found : d.lookup va = some pte) : d.place va = some (pte.addr, Fin.ofNat pgsize va) :=
  Pgdir.place_eq_some_iff.mpr ⟨pte, found, only va pte low found, rfl⟩

theorem Pgdir.lookup_of_place {c : Cell} (here : d.place va = some c) :
    (d.lookup va).isSome = true := by
  obtain ⟨pte, found, _⟩ := Pgdir.place_eq_some_iff.mp here
  rw [found]
  rfl

/-- A page below `KERNBASE` that the user can reach belongs to the directory. -/
theorem Pgdir.place_frames {c : Cell} (low : va < kernbase) (here : d.place va = some c) :
    c.1 ∈ d.frames := by
  obtain ⟨pte, found, _, rfl⟩ := Pgdir.place_eq_some_iff.mp here
  exact Pgdir.addr_mem_frames low found

/-- Different user addresses are different bytes of memory. -/
theorem Owned.place_inj (owned : Owned ld km d) {c : Cell} (left : va < kernbase)
    (right : vb < kernbase) (here : d.place va = some c) (there : d.place vb = some c) :
    va = vb := by
  obtain ⟨pte, found, _, rfl⟩ := Pgdir.place_eq_some_iff.mp here
  obtain ⟨other, also, _, same⟩ := Pgdir.place_eq_some_iff.mp there
  have offset := congrArg Fin.val (Prod.mk.inj same).2
  simp only [Fin.ofNat, pgsize] at offset
  by_contra different
  refine owned.frames_apart left right found also ?_ (Prod.mk.inj same).1
  simp only [pgsize]
  omega

/-- A user address beyond the user half has no place. -/
theorem MapsKernel.place_none (maps : MapsKernel ld d) (high : kernbase ≤ va)
    (bound : va < 2 ^ 32) : d.place va = none := by
  cases here : d.place va with
  | none => rfl
  | some c =>
      obtain ⟨pte, found, user, _⟩ := Pgdir.place_eq_some_iff.mp here
      rw [maps.no_user high bound found] at user
      cases user

/-! ## Reading through a directory -/

/-- The byte that the user reads at an address. -/
def userByte (km : Kmem) (d : Pgdir) (va : Nat) : Option UInt8 := (d.place va).map km.cell

theorem userByte_eq_some_iff {byte : UInt8} :
    userByte km d va = some byte ↔ ∃ c, d.place va = some c ∧ km.cell c = byte :=
  Option.map_eq_some_iff

/-- The bytes are there from an address on. -/
def BytesAt (read : Nat → Option UInt8) (va : Nat) (bytes : List UInt8) : Prop :=
  ∀ i byte, bytes[i]? = some byte → read (va + i) = some byte

/-- Bytes that are in pages for the user are read back after they have been deposited. -/
theorem Owned.deposited_bytes (owned : Owned ld km d) {start : Nat} {data : List UInt8}
    (limit : start + data.length ≤ kernbase)
    (placed : ∀ i < data.length, (d.place (start + i)).isSome = true)
    (deposited : Deposited d.place start data km.cell km'.cell) :
    BytesAt (userByte km' d) start data := by
  intro i byte found
  have inside := (List.getElem?_eq_some_iff.mp found).1
  obtain ⟨c, here⟩ := Option.isSome_iff_exists.mp (placed i inside)
  refine userByte_eq_some_iff.mpr ⟨c, here, deposited.written i byte found c here ?_⟩
  intro j later bound there
  have same := owned.place_inj (by omega) (by omega) here there
  omega

/-- A byte outside the range is read as before. -/
theorem Owned.deposited_kept (owned : Owned ld km d) (va : Nat) {start : Nat} {data : List UInt8}
    (limit : start + data.length ≤ kernbase)
    (deposited : Deposited d.place start data km.cell km'.cell) (low : va < kernbase)
    (apart : va < start ∨ start + data.length ≤ va) : userByte km' d va = userByte km d va := by
  unfold userByte
  cases here : d.place va with
  | none => rfl
  | some c =>
      refine congrArg some (deposited.kept c fun i inside there => ?_)
      have same := owned.place_inj low (by omega) here there
      omega

/-! ## How many pages there are -/

/-- A directory has no more user pages than there are pages of memory. -/
theorem Owned.pages_le (owned : Owned ld km d) (pages : Finset Nat)
    (present : ∀ k ∈ pages, k * pgsize < kernbase ∧ (d.lookup (k * pgsize)).isSome = true) :
    pages.card ≤ phystop / pgsize := by
  let frame (k : Nat) : Nat := ((d.lookup (k * pgsize)).map fun pte => pte.addr.toNat).getD 0
  have inside : ∀ k ∈ pages, frame k ∈ Finset.range (phystop / pgsize) := by
    intro k member
    obtain ⟨low, mapped⟩ := present k member
    obtain ⟨pte, found⟩ := Option.isSome_iff_exists.mp mapped
    have valid := (owned.validFrames _ (Pgdir.addr_mem_frames low found)).2
    have value : frame k = pte.addr.toNat := by
      change ((d.lookup (k * pgsize)).map fun pte => pte.addr.toNat).getD 0 = _
      rw [found]
      rfl
    rw [value, Finset.mem_range]
    simp only [phystop, pgsize] at *
    omega
  have apart : Set.InjOn frame pages := by
    intro j first k second same
    obtain ⟨low, mapped⟩ := present j first
    obtain ⟨high, also⟩ := present k second
    obtain ⟨pte, found⟩ := Option.isSome_iff_exists.mp mapped
    obtain ⟨other, shown⟩ := Option.isSome_iff_exists.mp also
    have equal : pte.addr = other.addr := by
      apply BitVec.eq_of_toNat_eq
      change ((d.lookup (j * pgsize)).map fun pte => pte.addr.toNat).getD 0 =
        ((d.lookup (k * pgsize)).map fun pte => pte.addr.toNat).getD 0 at same
      rw [found, shown] at same
      exact same
    by_contra different
    refine owned.frames_apart low high found shown ?_ equal
    simp only [pgsize]
    omega
  have few := Finset.card_le_card_of_injOn frame inside apart
  rwa [Finset.card_range] at few

/-- The heap takes pages of memory, of which there are less than addresses. -/
theorem Owned.heap_le (owned : Owned ld km d) {sz psize : Nat} (layout : Layout d sz psize) :
    pgRoundUp sz ≤ phystop := by
  have near := pgRoundUp_lt layout.heap_le
  have high := layout.heap_le
  have multiple := pgRoundUp_mod sz
  have few := owned.pages_le (Finset.range (pgRoundUp sz / pgsize)) fun k member => by
    rw [Finset.mem_range] at member
    have low : k * pgsize < pgRoundUp sz := by
      simp only [pgsize] at *
      omega
    have user : k * pgsize < kernbase := by
      simp only [kernbase, pgsize] at *
      omega
    exact ⟨user, (layout.exact _ user).mpr (.inl low)⟩
  rw [Finset.card_range] at few
  simp only [phystop, pgsize] at *
  omega

/-! ## What allocuvm maps -/

/-- Pages that have been mapped in between hold zeros. -/
def NewZero (d : Pgdir) (km' : Kmem) (d' : Pgdir) : Prop :=
  ∀ va pte, va < kernbase → d.lookup va = none → d'.lookup va = some pte →
    km'.mem pte.addr = fun _ => 0

theorem NewZero.refl (d : Pgdir) (km : Kmem) : NewZero d km d := by
  intro va pte _ absent found
  rw [absent] at found
  cases found

/-- What allocates later stores only into pages that are still free. -/
theorem NewZero.trans (owned : Owned ld km' d') (first : NewZero d km' d')
    (grows : Grows km' d' km'' d'') (second : NewZero d' km'' d'') : NewZero d km'' d'' := by
  intro va pte low absent found
  cases before : d'.lookup va with
  | none => exact second va pte low before found
  | some old =>
      have kept := grows.kept va old (Nat.lt_trans low (by decide)) before
      rw [kept] at found
      cases found
      rw [grows.untouched pte.addr (owned.notFree (Pgdir.addr_mem_frames low before))]
      exact first va pte low absent before

theorem MapsPage.newZero {a : Nat} {perm : Flags} {frame : Frame}
    (mapped : MapsPage km d a perm km' d' frame) (zero : km'.mem frame = fun _ => 0) :
    NewZero d km' d' := by
  intro va pte low absent found
  rw [mapped.lookup va (Nat.lt_trans low (by decide))] at found
  split at found
  · cases found
    exact zero
  · rw [absent] at found
    cases found

theorem MapsPage.userOnly {a : Nat} {frame : Frame}
    (mapped : MapsPage km d a (pteW ||| pteU) km' d' frame) (only : d.UserOnly) :
    d'.UserOnly := by
  intro va pte low found
  rw [mapped.lookup va (Nat.lt_trans low (by decide))] at found
  split at found
  · cases found
    have flags : (pteW ||| pteU ||| pteP) &&& pteU ≠ 0 := by decide +kernel
    exact bne_iff_ne.mpr flags
  · exact only va pte low found

/-- The loop maps pages for the user and fills them with zeros. -/
theorem allocuvmLoop_fresh {oldsz newsz result : Nat} {pages : List Nat} (owned : Owned ld km d)
    (only : d.UserOnly) (range : ∀ a ∈ pages, a % pgsize = 0 ∧ a < kernbase)
    (ran : allocuvmLoop ld oldsz newsz pages km d = .ok (result, km', d')) (positive : result ≠ 0) :
    Grows km d km' d' ∧ d'.UserOnly ∧ NewZero d km' d' := by
  induction pages generalizing km d with
  | nil =>
      cases ran
      exact ⟨.refl _ _, only, .refl _ _⟩
  | cons a rest ih =>
      obtain ⟨aligned, user⟩ := range a (List.mem_cons_self ..)
      unfold allocuvmLoop at ran
      cases step : mapFresh km d a (fun km mem => km.fill mem 0) (pteW ||| pteU) with
      | error reason =>
          rw [step] at ran
          cases ran
      | ok fresh =>
          rw [step] at ran
          cases fresh with
          | noPage =>
              obtain ⟨_, _, last⟩ := Kern.bind_eq_ok.mp ran
              cases last
              exact absurd rfl positive
          | noTable mem km₁ d₁ =>
              obtain ⟨_, _, tail⟩ := Kern.bind_eq_ok.mp ran
              obtain ⟨_, _, last⟩ := Kern.bind_eq_ok.mp tail
              cases last
              exact absurd rfl positive
          | mapped km₁ d₁ =>
              obtain ⟨frame, km₂, _, mapped, filled⟩ :=
                mapFresh_mapped (writes_fill 0) aligned user step
              have zero : km₁.mem frame = fun _ => 0 := by
                rw [filled owned.freelist_nodup]
                exact Function.update_self _ _ _
              have owned₁ := owned.of_conserved mapped.conserved
              obtain ⟨grows, only', later⟩ := ih owned₁ (mapped.userOnly only)
                (fun b member => range b (List.mem_cons_of_mem _ member)) ran
              exact ⟨mapped.grows.trans grows, only',
                (mapped.newZero zero).trans owned₁ grows later⟩

/-- What `allocuvm` has done when it does not return zero. -/
theorem allocuvm_fresh {oldsz newsz result : Nat} (owned : Owned ld km d) (only : d.UserOnly)
    (ran : allocuvm ld km d oldsz newsz = .ok (result, km', d')) (positive : result ≠ 0) :
    Grows km d km' d' ∧ d'.UserOnly ∧ NewZero d km' d' := by
  have user := allocuvm_user ran positive
  unfold allocuvm at ran
  rw [if_neg (Nat.not_le.mpr user)] at ran
  split at ran
  · cases ran
    exact ⟨.refl _ _, only, .refl _ _⟩
  · refine allocuvmLoop_fresh owned only (fun a member => ?_) ran positive
    obtain ⟨_, below, aligned⟩ := (mem_pageAddrs (pgRoundUp_mod oldsz)).mp member
    exact ⟨aligned, Nat.lt_trans below user⟩

/-- A byte that was there is still there. -/
theorem Grows.userByte (grows : Grows km d km' d') (owned : Owned ld km d) (low : va < kernbase)
    {byte : UInt8} (here : userByte km d va = some byte) : userByte km' d' va = some byte := by
  obtain ⟨c, place, rfl⟩ := userByte_eq_some_iff.mp here
  obtain ⟨pte, found, user, rfl⟩ := Pgdir.place_eq_some_iff.mp place
  have kept := grows.kept va pte (Nat.lt_trans low (by decide)) found
  refine userByte_eq_some_iff.mpr ⟨_, Pgdir.place_eq_some_iff.mpr ⟨pte, kept, user, rfl⟩, ?_⟩
  have same := grows.untouched pte.addr (owned.notFree (Pgdir.addr_mem_frames low found))
  exact congrFun same _

/-- A byte that has come is zero. -/
theorem NewZero.userByte (new : NewZero d km' d') (only : d'.UserOnly) (low : va < kernbase)
    (absent : d.lookup va = none) (present : (d'.lookup va).isSome = true) :
    userByte km' d' va = some 0 := by
  obtain ⟨pte, found⟩ := Option.isSome_iff_exists.mp present
  have zero := new va pte low absent found
  exact userByte_eq_some_iff.mpr ⟨_, only.place low found, congrFun zero _⟩

/-! ## allocuvm returns -/

/-- The pages of a range are absent, each at its own address. -/
structure Hole (ld : Linkage) (newsz : Nat) (pages : List Nat) (km : Kmem) (d : Pgdir) :
    Prop where
  owned : Owned ld km d
  range : ∀ a ∈ pages, a % pgsize = 0 ∧ a < newsz ∧ d.lookup a = none
  distinct : pages.Nodup

theorem Hole.next {newsz a : Nat} {rest : List Nat} {frame : Frame} (limit : newsz ≤ kernbase)
    (hole : Hole ld newsz (a :: rest) km d)
    (mapped : MapsPage km d a (pteW ||| pteU) km' d' frame) : Hole ld newsz rest km' d' := by
  obtain ⟨aligned, _, _⟩ := hole.range a (List.mem_cons_self ..)
  obtain ⟨fresh, distinct⟩ := List.nodup_cons.mp hole.distinct
  refine ⟨hole.owned.of_conserved mapped.conserved, fun b member => ?_, distinct⟩
  obtain ⟨aligned', high, absent⟩ := hole.range b (List.mem_cons_of_mem _ member)
  have small : b < 2 ^ 32 := Nat.lt_trans (Nat.lt_of_lt_of_le high limit) (by decide)
  have apart : b / pgsize ≠ a / pgsize := by
    intro same
    have equal : b = a := by
      simp only [pgsize] at aligned aligned' same
      omega
    exact fresh (equal ▸ member)
  refine ⟨aligned', high, ?_⟩
  rw [mapped.lookup b small, if_neg apart, absent]

/-- The byte that a process reads at an address. -/
def Kernel.user? (s : Kernel) (p : Slot) (va : Nat) : Option UInt8 :=
  (s.proc p).pgdir.bind fun d => userByte s.kmem d va

section Commit

variable {s s' : Kernel} {p : Slot} {name : String} {entry sz sp : Nat} {value : Int}

/-- The process has the new image. -/
structure HasImage (ld : Linkage) (s' : Kernel) (p : Slot) (entry sz sp : Nat) (km : Kmem)
    (d : Pgdir) : Prop where
  own : (s'.proc p).pgdir = some d
  owned : Owned ld s'.kmem d
  sz : (s'.proc p).sz = sz
  stackPsize : (s'.proc p).stackPsize = 1
  eip : (s'.proc p).tf.eip = .ofNat entry
  esp : (s'.proc p).tf.esp = .ofNat sp
  bytes : ∀ va, va < kernbase → s'.user? p va = userByte km d va

/-- A process with a kernel stack can commit. -/
theorem execCommit_succeeds {old : Pgdir} {kstack : Frame} (name : String) (entry sz sp : Nat)
    (km : Kmem) (d : Pgdir) (stack : (s.proc p).kstack = some kstack)
    (own : (s.proc p).pgdir = some old) (owned : Owned ld s.kmem old) :
    ∃ s', execCommit ld s p name entry sz sp km d = .ok (0, s') := by
  obtain ⟨km', released, _⟩ := freevm_ok km owned.validFrames
  refine ⟨_, Kern.bind_eq_ok.mpr ⟨(), ?_, Kern.bind_eq_ok.mpr ⟨km', ?_, rfl⟩⟩⟩
  · apply switchuvm_succeeds
    rw [Kernel.modify_self]
    refine ⟨?_, rfl⟩
    change (s.proc p).kstack.isSome = true
    rw [stack]
    rfl
  · rw [own]
    exact released

end Commit

end SlabStudy.Xv6
