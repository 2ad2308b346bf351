import SlabStudy.Xv6.ExecArgs
import SlabStudy.Xv6.Growproc
import SlabStudy.Xv6.Fetch

/-!
# Heap and stack

The heap grows up from address zero and the stack down from `KERNBASE`, and
nothing compares the two.  Every user page takes a page of memory of its own,
though, and there are far fewer of these than user addresses; so the two never
meet, and a page that is to be mapped is always absent.
-/

namespace SlabStudy.Xv6

open Library

variable {ld : Linkage} {km km' : Kmem} {d d' : Pgdir} {sz psize va : Nat}

/-! ## Room between the two -/

/-- The stack takes pages of memory too. -/
theorem Owned.stack_le (owned : Owned ld km d) (layout : Layout d sz psize) :
    psize ≤ phystop / pgsize := by
  have fits := layout.stack_le
  have bottom : kernbase / pgsize - psize ≤ kernbase / pgsize := Nat.sub_le _ _
  have few := owned.pages_le (Finset.Ico (kernbase / pgsize - psize) (kernbase / pgsize))
    fun k member => by
      rw [Finset.mem_Ico] at member
      have user : k * pgsize < kernbase := by
        simp only [kernbase, pgsize] at *
        omega
      refine ⟨user, (layout.exact _ user).mpr (.inr ?_)⟩
      simp only [kernbase, pgsize] at *
      omega
  rw [Nat.card_Ico] at few
  simp only [phystop, kernbase, pgsize] at *
  omega

/-- There is always an absent page between the heap and the stack. -/
theorem Owned.room (owned : Owned ld km d) (layout : Layout d sz psize) : Room sz psize 1 := by
  have heap := owned.heap_le layout
  have stack := owned.stack_le layout
  unfold Room
  simp only [phystop, kernbase, pgsize] at *
  omega

/-! ## The heap gets smaller -/

/-- Only pages of the heap are released. -/
theorem Layout.shrink {newsz : Nat} (layout : Layout d sz psize) (room : Room sz psize 1)
    (order : newsz < sz) (released : Released (pgRoundUp newsz) sz km d km' d') :
    Layout d' newsz psize := by
  have heap := layout.heap_le
  have limit : newsz ≤ kernbase := Nat.le_of_lt (Nat.lt_of_lt_of_le order heap)
  refine ⟨limit, layout.stack_le, fun va user => ?_⟩
  have low := le_pgRoundUp heap
  have near := pgRoundUp_lt heap
  have old := pgRoundUp_mod sz
  have low' := le_pgRoundUp limit
  have near' := pgRoundUp_lt limit
  have new := pgRoundUp_mod newsz
  rw [released.lookup va (Nat.lt_trans user (by decide))]
  have before := layout.exact va user
  unfold Room at room
  split
  · next inside =>
      refine ⟨nofun, fun still => ?_⟩
      unfold PageIn pgRoundDown at inside
      simp only [kernbase, pgsize] at *
      omega
  · next outside =>
      rw [before]
      unfold PageIn pgRoundDown at outside
      simp only [kernbase, pgsize] at *
      omega

/-! ## The heap gets larger -/

/-- A page is added to a heap that ends with a page. -/
theorem Layout.page {a : Nat} {frame : Frame} (layout : Layout d a psize)
    (room : Room a psize 1) (aligned : a % pgsize = 0)
    (mapped : MapsPage km d a (pteW ||| pteU) km' d' frame) : Layout d' (a + pgsize) psize := by
  have heap := layout.heap_le
  rw [Room, pgRoundUp_of_aligned aligned heap] at room
  have limit : a + pgsize ≤ kernbase := by
    simp only [kernbase, pgsize] at *
    omega
  have aligned' : (a + pgsize) % pgsize = 0 := by
    rw [Nat.add_mod_right]
    exact aligned
  refine ⟨limit, layout.stack_le, fun va user => ?_⟩
  have before := layout.exact va user
  rw [pgRoundUp_of_aligned aligned heap] at before
  rw [pgRoundUp_of_aligned aligned' limit, mapped.lookup va (Nat.lt_trans user (by decide))]
  split
  · next here =>
      refine ⟨fun _ => .inl ?_, fun _ => rfl⟩
      simp only [pgsize] at *
      omega
  · next other =>
      rw [before]
      simp only [pgsize] at *
      omega

/-- Between the heap and the stack nothing is mapped. -/
theorem Layout.absent (layout : Layout d sz psize) (above : pgRoundUp sz ≤ va)
    (below : va < kernbase - psize * pgsize) : d.lookup va = none := by
  have user : va < kernbase := Nat.lt_of_lt_of_le below (Nat.sub_le _ _)
  refine Option.not_isSome_iff_eq_none.mp fun present => ?_
  rcases (layout.exact va user).mp present with heap | stack
  · exact absurd heap (Nat.not_lt.mpr above)
  · exact absurd stack (Nat.not_le.mpr below)

/-- The pages below the range are mapped, from address zero on. -/
structure Filled (ld : Linkage) (psize newsz : Nat) (pages : List Nat) (km : Kmem) (d : Pgdir) :
    Prop where
  owned : Owned ld km d
  range : ∃ a, a % pgsize = 0 ∧ pages = pageAddrs a newsz ∧ Layout d a psize

/-- The first page of the range is absent, for otherwise too many pages would be mapped. -/
theorem Filled.first {newsz a : Nat} {rest : List Nat}
    (filled : Filled ld psize newsz (a :: rest) km d) :
    a % pgsize = 0 ∧ a < newsz ∧ rest = pageAddrs (a + pgsize) newsz ∧ Layout d a psize ∧
      Room a psize 1 ∧ d.lookup a = none := by
  obtain ⟨start, aligned, pages, layout⟩ := filled.range
  have inside : start < newsz := by
    by_contra outside
    rw [pageAddrs_empty (Nat.le_of_not_lt outside)] at pages
    cases pages
  rw [pageAddrs_cons inside] at pages
  cases pages
  have room := filled.owned.room layout
  have whole := pgRoundUp_of_aligned aligned layout.heap_le
  refine ⟨aligned, inside, rfl, layout, room, layout.absent (Nat.le_of_eq whole) ?_⟩
  rw [Room, whole] at room
  simp only [kernbase, pgsize] at *
  omega

theorem Filled.next {newsz a : Nat} {rest : List Nat} {frame : Frame}
    (filled : Filled ld psize newsz (a :: rest) km d)
    (mapped : MapsPage km d a (pteW ||| pteU) km' d' frame) :
    Filled ld psize newsz rest km' d' := by
  obtain ⟨aligned, _, tail, layout, room, _⟩ := filled.first
  refine ⟨filled.owned.of_conserved mapped.conserved, a + pgsize, ?_, tail,
    layout.page room aligned mapped⟩
  rw [Nat.add_mod_right]
  exact aligned

section Run

variable {s s' s₁ s₂ : Kernel} {p : Slot}

/-- The table entry of an address in the directory of the process. -/
def Kernel.pte? (s : Kernel) (p : Slot) (va : Nat) : Option Pte :=
  (s.proc p).pgdir.bind fun d => d.lookup va

/--
What happens to an address space between calls of `exec` and `fork`, as long as
nothing fails.  Whatever else runs leaves the sizes and the directory alone and
takes no page of the process.
-/
inductive StackStep (ld : Linkage) (p : Slot) (s s' : Kernel) : Prop where
  | growproc (n : Int) (ran : Xv6.growproc ld s p n = .ok (0, s'))
  | fault (va : Nat) (user : Bool) (low : va ≤ stackbase) (ran : pgflt ld s p va user = .ok s')
  | elsewhere (sz : (s'.proc p).sz = (s.proc p).sz) (pgdir : (s'.proc p).pgdir = (s.proc p).pgdir)
      (stackPsize : (s'.proc p).stackPsize = (s.proc p).stackPsize)
      (owned : ∀ d, (s.proc p).pgdir = some d → Owned ld s.kmem d → Owned ld s'.kmem d)

/-- The address space is a heap from address zero on and a stack below `KERNBASE`. -/
structure HeapStack (ld : Linkage) (s : Kernel) (p : Slot) (d : Pgdir) : Prop where
  own : (s.proc p).pgdir = some d
  owned : Owned ld s.kmem d
  maps : MapsKernel ld d
  layout : Layout d (s.proc p).sz (s.proc p).stackPsize
  only : d.UserOnly
  nonempty : 1 ≤ (s.proc p).stackPsize

/-- A page of zeros has come below the stack, and everything else is as before. -/
structure StackExtended (s s' : Kernel) (p : Slot) : Prop where
  sz : (s'.proc p).sz = (s.proc p).sz
  stackPsize : (s'.proc p).stackPsize = (s.proc p).stackPsize + 1
  absent : ∀ va, pgRoundDown va = stackNext (s.proc p).stackPsize → s.user? p va = none
  zero : ∀ va, pgRoundDown va = stackNext (s.proc p).stackPsize → s'.user? p va = some 0
  table : ∀ va, va < 2 ^ 32 → pgRoundDown va ≠ stackNext (s.proc p).stackPsize →
    s'.pte? p va = s.pte? p va
  bytes : ∀ va, va < 2 ^ 32 → pgRoundDown va ≠ stackNext (s.proc p).stackPsize →
    s'.user? p va = s.user? p va

namespace HeapStack

theorem room (space : HeapStack ld s p d) : Room (s.proc p).sz (s.proc p).stackPsize 1 :=
  space.owned.room space.layout

theorem stackProc (space : HeapStack ld s p d) : StackProc ld s p d (s.proc p).stackPsize :=
  ⟨space.own, space.owned, rfl, space.layout, space.nonempty⟩

/-- The user can reach exactly the heap and the stack. -/
theorem userByte_iff (space : HeapStack ld s p d) (bound : va < 2 ^ 32) :
    UserByte s p va ↔ va < pgRoundUp (s.proc p).sz ∨
      kernbase - (s.proc p).stackPsize * pgsize ≤ va ∧ va < kernbase := by
  have room := space.room
  unfold Room at room
  constructor
  · rintro ⟨d₀, pte, own, found, user⟩
    rw [space.own] at own
    cases own
    have low : va < kernbase := by
      by_contra high
      rw [space.maps.no_user (Nat.le_of_not_lt high) bound found] at user
      cases user
    rcases (space.layout.exact va low).mp (Option.isSome_iff_exists.mpr ⟨pte, found⟩) with
      heap | stack
    · exact .inl heap
    · exact .inr ⟨stack, low⟩
  · intro inside
    have low : va < kernbase := by
      rcases inside with heap | ⟨_, low⟩
      · omega
      · exact low
    obtain ⟨pte, found⟩ := Option.isSome_iff_exists.mp
      ((space.layout.exact va low).mpr (inside.imp_right And.left))
    exact ⟨d, pte, space.own, found, space.only va pte low found⟩

/-! ## growproc -/

/-- The process after a call that has changed its size. -/
theorem resized {size : Nat} (space : HeapStack ld s p d) (owned : Owned ld km d')
    (same : SameKernel d d') (layout : Layout d' size (s.proc p).stackPsize)
    (only : d'.UserOnly) :
    HeapStack ld ((s.setKmem km).modify p fun pr => { pr with pgdir := some d', sz := size })
      p d' := by
  refine ⟨?_, owned, same.maps space.maps, ?_, only, ?_⟩
  · rw [Kernel.modify_self]
  · rw [Kernel.modify_self]
    exact layout
  · rw [Kernel.modify_self]
    exact space.nonempty

theorem growproc {n : Int} (space : HeapStack ld s p d)
    (ran : Xv6.growproc ld s p n = .ok (0, s')) : ∃ d', HeapStack ld s' p d' := by
  have limit := space.layout.heap_le
  rcases growproc_eq_ok space.own ran with ⟨_, result, km, d', grown, stored⟩ |
    ⟨_, result, km, d', shrunk, stored⟩ | ⟨_, _, rfl⟩
  · rcases growprocResize_eq_ok stored with ⟨_, impossible, _⟩ | ⟨positive, _, rfl⟩
    · cases impossible
    · obtain ⟨_, only, _⟩ := allocuvm_fresh space.owned space.only grown positive
      have owned := (allocuvm_reworks space.owned grown).owned space.owned
      refine ⟨d', space.resized owned (allocuvm_sameKernel grown) ?_ only⟩
      rcases allocuvm_cases space.owned grown with
        ⟨_, zero, _⟩ | ⟨_, _, rfl, rfl, rfl⟩ | ⟨order, user, rfl, extended⟩ | ⟨_, _, zero, _⟩
      · exact absurd zero positive
      · exact space.layout
      · exact space.layout.heap order user extended
      · exact absurd zero positive
  · rcases growprocResize_eq_ok stored with ⟨_, impossible, _⟩ | ⟨_, _, rfl⟩
    · cases impossible
    · have same := deallocuvm_sameKernel limit shrunk
      rcases deallocuvm_cases limit space.owned.validFrames shrunk with
        ⟨_, rfl, rfl, rfl⟩ | ⟨order, rfl, released⟩
      · exact ⟨d', space.resized space.owned same space.layout space.only⟩
      · refine ⟨d', space.resized (space.owned.of_conserved released.conserved) same
          (space.layout.shrink space.room order released) fun va pte low found => ?_⟩
        rw [released.lookup va (Nat.lt_trans low (by decide))] at found
        split at found
        · cases found
        · exact space.only va pte low found
  · exact ⟨d, space⟩

/-- A byte of another page is read as before. -/
theorem others_kept {frame : Frame} {a : Nat} (space : HeapStack ld s p d) (user : a < kernbase)
    (mapped : MapsPage s.kmem d a (pteW ||| pteU) km d' frame) (bound : va < 2 ^ 32)
    (apart : va / pgsize ≠ a / pgsize) :
    userByte km d' va = userByte s.kmem d va := by
  rcases Nat.lt_or_ge va kernbase with low | high
  · have same : d'.place va = d.place va := by
      apply Option.ext
      intro c
      rw [Pgdir.place_eq_some_iff, Pgdir.place_eq_some_iff, mapped.lookup va bound, if_neg apart]
    unfold userByte
    rw [same]
    cases here : d.place va with
    | none => rfl
    | some c =>
        have kept := mapped.grows.untouched c.1
          (space.owned.notFree (Pgdir.place_frames low here))
        exact congrArg some (congrFun kept c.2)
  · unfold userByte
    rw [((mapped.sameKernel user).maps space.maps).place_none high bound,
      space.maps.place_none high bound]
    rfl

/-- A handled fault extends the stack by a page. -/
theorem fault {user : Bool} (space : HeapStack ld s p d) (low : va ≤ stackbase)
    (ran : pgflt ld s p va user = .ok s') :
    StackExtended s s' p ∧ ∃ d', HeapStack ld s' p d' := by
  obtain ⟨aligned, above, bottom, fits⟩ := stackNext_facts space.room
  have below := stackNext_below space.nonempty space.room
  obtain ⟨km, d', frame, mapped, zero, rfl⟩ := space.stackProc.pgflt_ok low space.room ran
  have user : stackNext (s.proc p).stackPsize < kernbase :=
    Nat.lt_of_le_of_lt (Nat.le_add_right _ _) below
  have only := mapped.userOnly space.only
  have grown := space.stackProc.grown space.room mapped
  have before (vb : Nat) : s.user? p vb = userByte s.kmem d vb := by
    rw [Kernel.user?, space.own, Option.bind_some]
  have after (vb : Nat) :
      (stackGrown s p ((s.proc p).stackPsize + 1) km d').user? p vb = userByte km d' vb := by
    rw [Kernel.user?, grown.own, Option.bind_some]
    rfl
  have page (vb : Nat) : pgRoundDown vb = stackNext (s.proc p).stackPsize ↔
      vb / pgsize = stackNext (s.proc p).stackPsize / pgsize := by
    simp only [pgRoundDown, pgsize] at *
    omega
  have inside (vb : Nat) (here : pgRoundDown vb = stackNext (s.proc p).stackPsize) :
      vb < kernbase ∧ d.lookup vb = none := by
    simp only [pgRoundDown, pgsize] at *
    have low : vb < kernbase := by omega
    exact ⟨low, space.layout.absent (by omega) (by simp only [pgsize]; omega)⟩
  constructor
  · constructor
    · rw [stackGrown_self]
    · exact grown.stackPsize
    · intro vb here
      obtain ⟨_, absent⟩ := inside vb here
      rw [before]
      cases place : d.place vb with
      | none => rw [userByte, place, Option.map_none]
      | some c =>
          have present := Pgdir.lookup_of_place place
          rw [absent] at present
          cases present
    · intro vb here
      obtain ⟨low, absent⟩ := inside vb here
      rw [after]
      refine (mapped.newZero zero).userByte only low absent ?_
      rw [mapped.lookup vb (Nat.lt_trans low (by decide)), if_pos ((page vb).mp here)]
      rfl
    · intro vb bound apart
      rw [Kernel.pte?, Kernel.pte?, grown.own, space.own, Option.bind_some, Option.bind_some,
        mapped.lookup vb bound, if_neg (mt (page vb).mpr apart)]
    · intro vb bound apart
      rw [before, after]
      exact space.others_kept user mapped bound (mt (page vb).mpr apart)
  · refine ⟨d', grown.own, grown.owned, (mapped.sameKernel user).maps space.maps, ?_, only, ?_⟩
    · rw [grown.stackPsize]
      exact grown.layout
    · rw [grown.stackPsize]
      exact grown.nonempty

theorem step (space : HeapStack ld s p d) (step : StackStep ld p s s') :
    ∃ d', HeapStack ld s' p d' := by
  cases step with
  | growproc n ran => exact space.growproc ran
  | fault va user low ran => exact (space.fault low ran).2
  | elsewhere sz pgdir stackPsize owned =>
      refine ⟨d, pgdir.trans space.own, owned d space.own space.owned, space.maps, ?_,
        space.only, ?_⟩
      · rw [sz, stackPsize]
        exact space.layout
      · rw [stackPsize]
        exact space.nonempty

theorem run (space : HeapStack ld s₁ p d) (run : Relation.ReflTransGen (StackStep ld p) s₁ s₂) :
    ∃ d', HeapStack ld s₂ p d' := by
  induction run with
  | refl => exact ⟨d, space⟩
  | tail _ step ih =>
      obtain ⟨_, space'⟩ := ih
      exact space'.step step

end HeapStack

/-! ## From exec on -/

section Call

variable {file : Option Readi} {name : String} {argv : List (List UInt8)} {old : Pgdir}

end Call

end Run

end SlabStudy.Xv6
