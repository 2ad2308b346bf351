import SlabStudy.Xv6.Fork

/-!
# Page faults below the stack

The page-fault handler adds one page to the stack, wherever the fault was.
Delivered again and again, the fault is resolved when the stack has reached
the faulting page.  Each delivery takes a page, and a page table when the
stack enters a new directory entry; when these cannot be had, the machine
stops.
-/

namespace SlabStudy.Xv6

/-! ## Deliveries -/

/-- `n` deliveries of the same fault from user mode, with no other step in between. -/
def deliver (ld : Linkage) (c : Fin ncpu) (p : Slot) (va : Nat) : Nat → Kernel → Kern Kernel
  | 0, s => .ok s
  | n + 1, s => do
      let s ← trap ld s c p va true
      deliver ld c p va n s

/-- The page of the address is present and user-accessible, or the process is killed. -/
def Settled (s : Kernel) (p : Slot) (va : Nat) : Prop :=
  (s.proc p).killed = true ∨
    ∃ d pte, (s.proc p).pgdir = some d ∧ d.lookup va = some pte ∧ pte.user = true

/-- The page that the next delivery adds below a stack of `psize` pages. -/
def stackNext (psize : Nat) : Nat := kernbase - (psize + 1) * pgsize

/-- The directory entries of the next `n` stack pages. -/
def stackDirs (psize : Nat) : Nat → Finset (Fin npdentries)
  | 0 => ∅
  | n + 1 => insert (pdx (stackNext psize)) (stackDirs (psize + 1) n)

/-- Free pages that `n` deliveries take: the stack pages and the missing page tables. -/
def stackCost (d : Pgdir) (psize n : Nat) : Nat := n + d.missing (stackDirs psize n)

/-- Stack pages from the current bottom down to the page of `va`. -/
def pagesTo (psize va : Nat) : Nat := kernbase / pgsize - psize - va / pgsize

theorem deliver_add (ld : Linkage) (c : Fin ncpu) (p : Slot) (va m n : Nat) (s : Kernel) :
    deliver ld c p va (m + n) s = (do
      let s ← deliver ld c p va m s
      deliver ld c p va n s) := by
  induction m generalizing s with
  | zero =>
      rw [Nat.zero_add]
      rfl
  | succ m ih =>
      rw [Nat.succ_add, deliver, deliver]
      cases trap ld s c p va true with
      | error reason => rfl
      | ok s => exact ih s

theorem Pgdir.missing_mono (d : Pgdir) {some more : Finset (Fin npdentries)} (less : some ⊆ more) :
    d.missing some ≤ d.missing more :=
  Finset.card_le_card (Finset.filter_subset_filter _ less)

theorem Pgdir.missing_insert {d : Pgdir} {i : Fin npdentries} (dirs : Finset (Fin npdentries))
    (present : (d.pde i).isSome = true) : d.missing (insert i dirs) = d.missing dirs := by
  unfold Pgdir.missing
  rw [Finset.filter_insert, if_neg]
  rw [Option.isNone_iff_eq_none]
  exact Option.isSome_iff_ne_none.mp present

/-! ## One page -/

section Page

variable {ld : Linkage} {km km' : Kmem} {d d' : Pgdir} {a result : Nat}

theorem pageAddrs_one {a : Nat} (aligned : a % pgsize = 0) (user : a ≤ kernbase) :
    pageAddrs (pgRoundUp a) (a + pgsize) = [a] := by
  rw [pgRoundUp_of_aligned aligned user]
  have single : (a + pgsize - a + pgsize - 1) / pgsize = 1 := by
    rw [Nat.add_sub_cancel_left]
    rfl
  rw [pageAddrs, single]
  rfl

/-- A call for one page that does not return zero has mapped it, filled with zeros. -/
theorem allocuvm_page (aligned : a % pgsize = 0) (user : a + pgsize < kernbase)
    (ran : allocuvm ld km d a (a + pgsize) = .ok (result, km', d')) (positive : result ≠ 0) :
    ∃ frame, MapsPage km d a (pteW ||| pteU) km' d' frame ∧
      (km.freelist.Nodup → km'.mem frame = fun _ => 0) := by
  have low : a < kernbase := Nat.lt_of_le_of_lt (Nat.le_add_right _ _) user
  unfold allocuvm at ran
  rw [if_neg (Nat.not_le.mpr user), if_neg (Nat.not_lt.mpr (Nat.le_add_right _ _)),
    pageAddrs_one aligned (Nat.le_of_lt low)] at ran
  unfold allocuvmLoop at ran
  cases step : mapFresh km d a (fun km mem => km.fill mem 0) (pteW ||| pteU) with
  | error reason =>
      rw [step] at ran
      cases ran
  | ok fresh =>
      rw [step] at ran
      cases fresh with
      | noPage =>
          obtain ⟨_, _, last⟩ := Kern.bind_eq_ok.mp ran
          cases last
          exact absurd rfl positive
      | noTable mem km₁ d₁ =>
          obtain ⟨_, _, tail⟩ := Kern.bind_eq_ok.mp ran
          obtain ⟨_, _, last⟩ := Kern.bind_eq_ok.mp tail
          cases last
          exact absurd rfl positive
      | mapped km₁ d₁ =>
          cases ran
          obtain ⟨frame, km₂, _, mapped, filled⟩ :=
            mapFresh_mapped (writes_fill 0) aligned low step
          refine ⟨frame, mapped, fun nodup => ?_⟩
          rw [filled nodup]
          exact Function.update_self _ _ _

theorem allocuvm_page_succeeds (ld : Linkage) (aligned : a % pgsize = 0)
    (user : a + pgsize < kernbase) (absent : d.lookup a = none)
    (enough : 1 + d.missing {pdx a} ≤ km.freelist.length) :
    ∃ km' d', allocuvm ld km d a (a + pgsize) = .ok (a + pgsize, km', d') := by
  have low : a < kernbase := Nat.lt_of_le_of_lt (Nat.le_add_right _ _) user
  obtain ⟨km', d', mapped⟩ := mapFresh_succeeds (pteW ||| pteU) (writes_fill 0) aligned
    (Nat.lt_trans low (by decide)) absent enough
  refine ⟨km', d', ?_⟩
  unfold allocuvm
  rw [if_neg (Nat.not_le.mpr user), if_neg (Nat.not_lt.mpr (Nat.le_add_right _ _)),
    pageAddrs_one aligned (Nat.le_of_lt low)]
  unfold allocuvmLoop
  rw [mapped]
  rfl

/-- A mapped page had to be had, and its page table too. -/
theorem MapsPage.enough {frame : Frame} (mapped : MapsPage km d a (pteW ||| pteU) km' d' frame) :
    1 + d.missing {pdx a} ≤ km.freelist.length := by
  have counted := mapped.counted {pdx a} (Finset.mem_singleton_self _)
  have none : d'.missing {pdx a} = 0 := by
    rw [← insert_empty_eq, Pgdir.missing_insert _ mapped.table]
    rfl
  omega

end Page

/-! ## One delivery -/

section Delivery

variable {ld : Linkage} {s s' : Kernel} {c : Fin ncpu} {p : Slot} {d : Pgdir} {psize va : Nat}

/-- A process whose user pages are its heap and a stack of `psize` pages. -/
structure StackProc (ld : Linkage) (s : Kernel) (p : Slot) (d : Pgdir) (psize : Nat) : Prop where
  own : (s.proc p).pgdir = some d
  owned : Owned ld s.kmem d
  stackPsize : (s.proc p).stackPsize = psize
  layout : Layout d (s.proc p).sz psize
  nonempty : 1 ≤ psize

/-- The state after the handler has stored the new stack size and directory. -/
def stackGrown (s : Kernel) (p : Slot) (psize : Nat) (km : Kmem) (d : Pgdir) : Kernel :=
  (s.setKmem km).modify p fun pr => { pr with stackPsize := psize, pgdir := some d }

@[simp] theorem stackGrown_self (s : Kernel) (p : Slot) (psize : Nat) (km : Kmem) (d : Pgdir) :
    (stackGrown s p psize km d).proc p = { s.proc p with stackPsize := psize, pgdir := some d } :=
  Kernel.modify_self _ _ _

/-- The pages of the stack belong to the user. -/
theorem Pte.user_stack (frame : Frame) : (Pte.mk frame (pteW ||| pteU ||| pteP)).user = true :=
  (by decide : ((pteW ||| pteU ||| pteP) &&& pteU != 0) = true)

/-- The next `n` stack pages lie above the heap. -/
def Room (sz psize n : Nat) : Prop := pgRoundUp sz + (psize + n) * pgsize ≤ kernbase

theorem Room.mono {sz m n : Nat} (room : Room sz psize n) (fewer : m ≤ n) : Room sz psize m :=
  Nat.le_trans (Nat.add_le_add_left
    (Nat.mul_le_mul_right _ (Nat.add_le_add_left fewer _)) _) room

theorem Room.next {sz n : Nat} (room : Room sz psize (n + 1)) :
    Room sz psize 1 ∧ Room sz (psize + 1) n := by
  unfold Room at *
  change pgRoundUp sz + (psize + (n + 1)) * 4096 ≤ 2147483648 at room
  change pgRoundUp sz + (psize + 1) * 4096 ≤ 2147483648 ∧
    pgRoundUp sz + (psize + 1 + n) * 4096 ≤ 2147483648
  omega

theorem stackNext_facts {sz : Nat} (room : Room sz psize 1) :
    stackNext psize % pgsize = 0 ∧ pgRoundUp sz ≤ stackNext psize ∧
      stackNext psize + pgsize = kernbase - psize * pgsize ∧
      (psize + 1) * pgsize ≤ kernbase := by
  unfold Room stackNext at *
  change pgRoundUp sz + (psize + 1) * 4096 ≤ 2147483648 at room
  change (2147483648 - (psize + 1) * 4096) % 4096 = 0 ∧
    pgRoundUp sz ≤ 2147483648 - (psize + 1) * 4096 ∧
    2147483648 - (psize + 1) * 4096 + 4096 = 2147483648 - psize * 4096 ∧
    (psize + 1) * 4096 ≤ 2147483648
  omega

/-- The end of the new page is below `KERNBASE`, as `allocuvm` demands. -/
theorem stackNext_below {sz : Nat} (nonempty : 1 ≤ psize) (room : Room sz psize 1) :
    stackNext psize + pgsize < kernbase := by
  obtain ⟨_, _, bottom, fits⟩ := stackNext_facts room
  rw [bottom]
  change (psize + 1) * 4096 ≤ 2147483648 at fits
  change 2147483648 - psize * 4096 < 2147483648
  omega

/-- A new page below the stack makes it one page larger. -/
theorem Layout.grow {d' : Pgdir} {km km' : Kmem} {frame : Frame} {sz : Nat}
    (layout : Layout d sz psize) (room : Room sz psize 1)
    (mapped : MapsPage km d (stackNext psize) (pteW ||| pteU) km' d' frame) :
    Layout d' sz (psize + 1) := by
  obtain ⟨aligned, _, bottom, fits⟩ := stackNext_facts room
  refine ⟨layout.heap_le, fits, fun va user => ?_⟩
  rw [mapped.lookup va (Nat.lt_trans user (by decide))]
  have before := layout.exact va user
  have page : stackNext psize = kernbase - (psize + 1) * pgsize := rfl
  split
  · next here =>
      refine ⟨fun _ => .inr ?_, fun _ => rfl⟩
      rw [← page]
      simp only [pgsize] at *
      omega
  · next other =>
      rw [before]
      constructor
      · rintro (low | high)
        · exact .inl low
        · refine .inr ?_
          rw [← page]
          omega
      · rintro (low | high)
        · exact .inl low
        · refine .inr ?_
          rw [← page] at high
          simp only [pgsize] at *
          omega

/-- A handled fault has added the next stack page. -/
theorem StackProc.pgflt_ok (proc : StackProc ld s p d psize) (low : va ≤ stackbase)
    (room : Room (s.proc p).sz psize 1) {user : Bool} (ran : pgflt ld s p va user = .ok s') :
    ∃ km d' frame, MapsPage s.kmem d (stackNext psize) (pteW ||| pteU) km d' frame ∧
      (km.mem frame = fun _ => 0) ∧ s' = stackGrown s p (psize + 1) km d' := by
  obtain ⟨aligned, _, _, fits⟩ := stackNext_facts room
  have user := stackNext_below proc.nonempty room
  rcases pgflt_eq_ok proc.own ran with ⟨_, old, result, km, d', bottom, grown, positive, same⟩ |
    ⟨high, _⟩
  · rw [proc.stackPsize, pgRoundUp_stack fits] at bottom
    rw [proc.stackPsize] at same
    have next : old = stackNext psize := bottom
    have small : (old + pgsize) % 2 ^ 32 = old + pgsize :=
      Nat.mod_eq_of_lt (Nat.lt_trans (next ▸ user) (by decide))
    rw [small, next] at grown
    obtain ⟨frame, mapped, zero⟩ := allocuvm_page aligned user grown positive
    exact ⟨km, d', frame, mapped, zero proc.owned.freelist_nodup, same⟩
  · exact absurd low (Nat.not_le.mpr high)

/-- What the call of `allocuvm` in the handler is. -/
theorem StackProc.pgflt_eq (proc : StackProc ld s p d psize) (low : va ≤ stackbase)
    (room : Room (s.proc p).sz psize 1) (user : Bool) :
    pgflt ld s p va user = (do
      let (result, km, d) ← allocuvm ld s.kmem d (stackNext psize) (stackNext psize + pgsize)
      if result = 0 then .error .stackOverflow
      else return stackGrown s p (psize + 1) km d) := by
  obtain ⟨_, _, _, fits⟩ := stackNext_facts room
  have below := stackNext_below proc.nonempty room
  have small : (stackNext psize + pgsize) % 2 ^ 32 = stackNext psize + pgsize :=
    Nat.mod_eq_of_lt (Nat.lt_trans below (by decide))
  have bottom : pgRoundUp (uint (stackbase - pgsize * (psize + 1 : Nat))) = stackNext psize :=
    pgRoundUp_stack fits
  unfold pgflt
  rw [if_pos low, proc.own]
  simp only [proc.stackPsize]
  rw [bottom, small]
  rfl

/-- A fault is handled when the page and its page table can be had. -/
theorem StackProc.pgflt_succeeds (proc : StackProc ld s p d psize) (low : va ≤ stackbase)
    (room : Room (s.proc p).sz psize 1) (user : Bool)
    (enough : 1 + d.missing {pdx (stackNext psize)} ≤ s.kmem.freelist.length) :
    ∃ s', pgflt ld s p va user = .ok s' := by
  obtain ⟨aligned, above, next, _⟩ := stackNext_facts room
  have below := stackNext_below proc.nonempty room
  have absent : d.lookup (stackNext psize) = none := by
    refine Option.not_isSome_iff_eq_none.mp fun present => ?_
    have inside := (proc.layout.exact _ (by omega)).mp present
    have page : 0 < pgsize := by decide
    omega
  obtain ⟨km, d', grown⟩ := allocuvm_page_succeeds ld aligned below absent enough
  rw [proc.pgflt_eq low room, grown]
  exact ⟨_, rfl⟩

/-- Without a free page the machine stops. -/
theorem StackProc.pgflt_fails (proc : StackProc ld s p d psize) (low : va ≤ stackbase)
    (room : Room (s.proc p).sz psize 1) (user : Bool) (empty : s.kmem.freelist = []) :
    pgflt ld s p va user = .error .stackOverflow := by
  obtain ⟨aligned, _⟩ := stackNext_facts room
  have below := stackNext_below proc.nonempty room
  have start : stackNext psize ≤ kernbase :=
    Nat.le_of_lt (Nat.lt_of_le_of_lt (Nat.le_add_right _ _) below)
  obtain ⟨km, d', failed⟩ := allocuvm_fails start below
    (by
      rw [pgRoundUp_of_aligned aligned start]
      exact Nat.lt_add_of_pos_right (by decide))
    proc.owned.validFrames empty
  rw [proc.pgflt_eq low room, failed]
  rfl

/-- The process after a handled fault. -/
theorem StackProc.grown (proc : StackProc ld s p d psize) (room : Room (s.proc p).sz psize 1)
    {km : Kmem} {d' : Pgdir} {frame : Frame}
    (mapped : MapsPage s.kmem d (stackNext psize) (pteW ||| pteU) km d' frame) :
    StackProc ld (stackGrown s p (psize + 1) km d') p d' (psize + 1) := by
  refine ⟨?_, proc.owned.of_conserved mapped.conserved, ?_, ?_, Nat.le_add_left _ _⟩
  · rw [stackGrown_self]
  · rw [stackGrown_self]
  · rw [stackGrown_self]
    exact proc.layout.grow room mapped

/-! ## Many deliveries -/

/-- What `n` deliveries have done to a process that is not killed. -/
structure Delivered (ld : Linkage) (s s' : Kernel) (p : Slot) (d d' : Pgdir) (psize n : Nat) :
    Prop where
  proc : StackProc ld s' p d' (psize + n)
  sz : (s'.proc p).sz = (s.proc p).sz
  killed : (s'.proc p).killed = false
  kept : ∀ vb pte, vb < kernbase → d.lookup vb = some pte → d'.lookup vb = some pte
  user : ∀ vb pte, vb < kernbase → d.lookup vb = none → d'.lookup vb = some pte → pte.user = true

/-- A trap of a process that is not killed is the handled fault. -/
theorem trap_eq (proc : StackProc ld s p d psize) (low : va ≤ stackbase)
    (room : Room (s.proc p).sz psize 1) (alive : (s.proc p).killed = false) :
    trap ld s c p va true = pgflt ld s p va true := by
  unfold trap
  cases ran : pgflt ld s p va true with
  | error reason => rfl
  | ok t =>
      obtain ⟨km, d', frame, _, _, rfl⟩ := proc.pgflt_ok low room ran
      simp only [bind, Except.bind, stackGrown_self, alive, Bool.false_and]
      rfl

theorem deliver_delivered (proc : StackProc ld s p d psize) (low : va ≤ stackbase) {n : Nat}
    (room : Room (s.proc p).sz psize n) (alive : (s.proc p).killed = false)
    (ran : deliver ld c p va n s = .ok s') :
    stackCost d psize n ≤ s.kmem.freelist.length ∧ ∃ d', Delivered ld s s' p d d' psize n := by
  induction n generalizing s d psize with
  | zero =>
      cases ran
      refine ⟨Nat.zero_le _, d, proc, rfl, alive, fun _ _ _ found => found,
        fun vb pte _ absent found => ?_⟩
      rw [absent] at found
      cases found
  | succ n ih =>
      obtain ⟨first, rest⟩ := room.next
      obtain ⟨t, trapped, tail⟩ := Kern.bind_eq_ok.mp ran
      rw [trap_eq proc low first alive] at trapped
      obtain ⟨km, d₁, frame, mapped, _, rfl⟩ := proc.pgflt_ok low first trapped
      have self := stackGrown_self s p (psize + 1) km d₁
      obtain ⟨cost, d', done⟩ := ih (proc.grown first mapped) (by rw [self]; exact rest)
        (by rw [self]; exact alive) tail
      refine ⟨?_, d', ?_, ?_, done.killed, fun vb pte user found => ?_,
        fun vb pte user absent found => ?_⟩
      · have counted := mapped.counted (stackDirs psize (n + 1)) (Finset.mem_insert_self _ _)
        have present : d₁.missing (stackDirs psize (n + 1)) = d₁.missing (stackDirs (psize + 1) n) :=
          Pgdir.missing_insert _ mapped.table
        change n + d₁.missing (stackDirs (psize + 1) n) ≤ km.freelist.length at cost
        unfold stackCost
        omega
      · have total : psize + 1 + n = psize + (n + 1) := by omega
        rw [← total]
        exact done.proc
      · rw [done.sz, self]
      · exact done.kept vb pte user
          (mapped.grows.kept vb pte (Nat.lt_trans user (by decide)) found)
      · have first := mapped.lookup vb (Nat.lt_trans user (by decide))
        rw [absent] at first
        split at first
        · rw [done.kept vb _ user first] at found
          cases found
          exact Pte.user_stack frame
        · exact done.user vb pte user first found

theorem deliver_succeeds (proc : StackProc ld s p d psize) (low : va ≤ stackbase) {n : Nat}
    (room : Room (s.proc p).sz psize n) (alive : (s.proc p).killed = false)
    (enough : stackCost d psize n ≤ s.kmem.freelist.length) :
    ∃ s', deliver ld c p va n s = .ok s' := by
  induction n generalizing s d psize with
  | zero => exact ⟨s, rfl⟩
  | succ n ih =>
      obtain ⟨first, rest⟩ := room.next
      unfold stackCost at enough
      have single : d.missing {pdx (stackNext psize)} ≤ d.missing (stackDirs psize (n + 1)) :=
        d.missing_mono (Finset.singleton_subset_iff.mpr (Finset.mem_insert_self _ _))
      obtain ⟨t, handled⟩ := proc.pgflt_succeeds low first true (by omega)
      have trapped := handled
      rw [← trap_eq (c := c) proc low first alive] at trapped
      obtain ⟨km, d₁, frame, mapped, _, rfl⟩ := proc.pgflt_ok low first handled
      have self := stackGrown_self s p (psize + 1) km d₁
      have counted := mapped.counted (stackDirs psize (n + 1)) (Finset.mem_insert_self _ _)
      have present : d₁.missing (stackDirs psize (n + 1)) = d₁.missing (stackDirs (psize + 1) n) :=
        Pgdir.missing_insert _ mapped.table
      obtain ⟨s', delivered⟩ := ih (proc.grown first mapped) (by rw [self]; exact rest)
        (by rw [self]; exact alive) (by
          change n + d₁.missing (stackDirs (psize + 1) n) ≤ km.freelist.length
          omega)
      exact ⟨s', Kern.bind_eq_ok.mpr ⟨_, trapped, delivered⟩⟩

/-- Where an unmapped address lies, and how far the stack is from it. -/
theorem StackProc.distance (proc : StackProc ld s p d psize) (low : va ≤ stackbase)
    (unmapped : d.lookup va = none) :
    1 ≤ pagesTo psize va ∧ Room (s.proc p).sz psize (pagesTo psize va) ∧
      ∀ n, kernbase - (psize + n) * pgsize ≤ va ↔ pagesTo psize va ≤ n := by
  have user : va < kernbase := Nat.lt_of_le_of_lt low (by decide)
  have outside : ¬ (va < pgRoundUp (s.proc p).sz ∨ kernbase - psize * pgsize ≤ va) := by
    rw [← proc.layout.exact va user, unmapped]
    exact Bool.false_ne_true
  have multiple := pgRoundUp_mod (s.proc p).sz
  have fits := proc.layout.stack_le
  unfold Room pagesTo
  change va < 2147483648 at user
  change ¬ (va < pgRoundUp (s.proc p).sz ∨ 2147483648 - psize * 4096 ≤ va) at outside
  change pgRoundUp (s.proc p).sz % 4096 = 0 at multiple
  change psize * 4096 ≤ 2147483648 at fits
  change 1 ≤ 524288 - psize - va / 4096 ∧
    pgRoundUp (s.proc p).sz + (psize + (524288 - psize - va / 4096)) * 4096 ≤ 2147483648 ∧
    ∀ n, 2147483648 - (psize + n) * 4096 ≤ va ↔ 524288 - psize - va / 4096 ≤ n
  refine ⟨by omega, by omega, fun n => ?_⟩
  constructor
  · intro
    omega
  · intro
    omega

/-- A process that is not killed is settled exactly when its stack has reached the page. -/
theorem Delivered.settled_iff {d' : Pgdir} {n : Nat} (proc : StackProc ld s p d psize)
    (low : va ≤ stackbase) (unmapped : d.lookup va = none)
    (done : Delivered ld s s' p d d' psize n) : Settled s' p va ↔ pagesTo psize va ≤ n := by
  have user : va < kernbase := Nat.lt_of_le_of_lt low (by decide)
  obtain ⟨_, _, reach⟩ := proc.distance low unmapped
  have outside : ¬ va < pgRoundUp (s.proc p).sz := by
    intro inside
    have present := (proc.layout.exact va user).mpr (.inl inside)
    rw [unmapped] at present
    cases present
  have layout := done.proc.layout.exact va user
  rw [done.sz] at layout
  constructor
  · rintro (killed | ⟨d₁, pte, own, found, _⟩)
    · rw [done.killed] at killed
      cases killed
    · rw [done.proc.own] at own
      cases own
      refine (reach n).mp ((layout.mp ?_).resolve_left outside)
      rw [found]
      rfl
  · intro enough
    obtain ⟨pte, found⟩ := Option.isSome_iff_exists.mp (layout.mpr (.inr ((reach n).mpr enough)))
    exact .inr ⟨d', pte, done.proc.own, found, done.user va pte user unmapped found⟩

/-- A killed process exits at the end of the first delivery. -/
theorem trap_killed (proc : StackProc ld s p d psize) (low : va ≤ stackbase)
    (room : Room (s.proc p).sz psize 1) (killed : (s.proc p).killed = true)
    (ran : trap ld s c p va true = .ok s') :
    stackCost d psize 1 ≤ s.kmem.freelist.length ∧ s.initproc ≠ some p ∧
      (s'.proc p).killed = true := by
  obtain ⟨t, handled, tail⟩ := Kern.bind_eq_ok.mp ran
  obtain ⟨km, d', frame, mapped, _, rfl⟩ := proc.pgflt_ok low room handled
  simp only [stackGrown_self, killed, Bool.and_self, if_true] at tail
  have exits := exit_exited tail
  refine ⟨mapped.enough, exits.notInit, ?_⟩
  rw [exits.self, stackGrown_self]
  exact killed

theorem trap_killed_succeeds (proc : StackProc ld s p d psize) (low : va ≤ stackbase)
    (room : Room (s.proc p).sz psize 1) (killed : (s.proc p).killed = true)
    (enough : stackCost d psize 1 ≤ s.kmem.freelist.length) (notInit : s.initproc ≠ some p) :
    ∃ s', trap ld s c p va true = .ok s' := by
  obtain ⟨t, handled⟩ := proc.pgflt_succeeds low room true enough
  obtain ⟨km, d', frame, mapped, _, rfl⟩ := proc.pgflt_ok low room handled
  obtain ⟨s', exits⟩ : ∃ s', exit (stackGrown s p (psize + 1) km d') c p 1 = .ok s' :=
    ⟨_, if_neg notInit⟩
  refine ⟨s', Kern.bind_eq_ok.mpr ⟨_, handled, ?_⟩⟩
  simp only [stackGrown_self, killed, Bool.and_self, if_true]
  exact exits

/-- Deliveries until the fault is resolved: one for a process that is killed already. -/
def deliveries (pr : Proc) (va : Nat) : Nat := if pr.killed then 1 else pagesTo pr.stackPsize va

/--
A fault below the stack is resolved, without stopping the machine, exactly
when the pages for the deliveries it takes are free and the process is not an
init that has been killed.
-/
theorem page_fault_resolved_iff (own : (s.proc p).pgdir = some d) (owned : Owned ld s.kmem d)
    (layout : Layout d (s.proc p).sz (s.proc p).stackPsize)
    (nonempty : 1 ≤ (s.proc p).stackPsize) (low : va ≤ stackbase)
    (unmapped : d.lookup va = none) :
    (∃ n s', 1 ≤ n ∧ deliver ld c p va n s = .ok s' ∧ Settled s' p va) ↔
      stackCost d (s.proc p).stackPsize (deliveries (s.proc p) va) ≤ s.kmem.freelist.length ∧
        ¬ ((s.proc p).killed = true ∧ s.initproc = some p) := by
  have proc : StackProc ld s p d (s.proc p).stackPsize := ⟨own, owned, rfl, layout, nonempty⟩
  obtain ⟨some, room, _⟩ := proc.distance low unmapped
  cases killed : (s.proc p).killed with
  | true =>
      have once : deliveries (s.proc p) va = 1 := if_pos killed
      have first := room.mono some
      rw [once]
      constructor
      · rintro ⟨n, s', positive, ran, _⟩
        obtain ⟨m, rfl⟩ := Nat.exists_eq_add_of_le' positive
        obtain ⟨t, trapped, _⟩ := Kern.bind_eq_ok.mp ran
        obtain ⟨enough, notInit, _⟩ := trap_killed proc low first killed trapped
        exact ⟨enough, fun isInit => notInit isInit.2⟩
      · rintro ⟨enough, notInit⟩
        obtain ⟨t, trapped⟩ := trap_killed_succeeds (c := c) proc low first killed enough
          fun isInit => notInit ⟨rfl, isInit⟩
        exact ⟨1, t, Nat.le_refl _, Kern.bind_eq_ok.mpr ⟨t, trapped, rfl⟩,
          .inl (trap_killed proc low first killed trapped).2.2⟩
  | false =>
      have count : deliveries (s.proc p) va = pagesTo (s.proc p).stackPsize va := by
        rw [deliveries, killed]
        rfl
      rw [count]
      constructor
      · rintro ⟨n, s', _, ran, settled⟩
        refine ⟨?_, fun isInit => Bool.false_ne_true isInit.1⟩
        rcases Nat.lt_or_ge n (pagesTo (s.proc p).stackPsize va) with early | reached
        · obtain ⟨_, d', done⟩ :=
            deliver_delivered proc low (room.mono (Nat.le_of_lt early)) killed ran
          exact absurd ((done.settled_iff proc low unmapped).mp settled) (Nat.not_le.mpr early)
        · obtain ⟨k, rfl⟩ := Nat.exists_eq_add_of_le reached
          rw [deliver_add] at ran
          obtain ⟨t, delivered, _⟩ := Kern.bind_eq_ok.mp ran
          exact (deliver_delivered proc low room killed delivered).1
      · rintro ⟨enough, _⟩
        obtain ⟨s', delivered⟩ := deliver_succeeds (c := c) proc low room killed enough
        obtain ⟨_, d', done⟩ := deliver_delivered proc low room killed delivered
        exact ⟨_, s', some, delivered, (done.settled_iff proc low unmapped).mpr (Nat.le_refl _)⟩

end Delivery

/-! ## The small machine with a stack -/

section Sample

variable {s : Kernel} {d : Pgdir} {pages : Nat}

/-- After `exec` the first process has one page of program and one of stack. -/
theorem sample_stack (few : pages + 2 ≤ 0x800) : ∃ s d, Started s d 1 pages := by
  obtain ⟨s, d, started⟩ := sample_started few
  have room : Room pgsize 0 1 := by
    unfold Room
    decide
  obtain ⟨aligned, above, next, _⟩ := stackNext_facts room
  have user : stackNext 0 < kernbase := by decide
  have absent : d.lookup (stackNext 0) = none :=
    Option.not_isSome_iff_eq_none.mp fun present =>
      absurd ((started.layout.exact _ user).mp present) (by decide)
  have one : d.missing {pdx (stackNext 0)} ≤ 1 := Finset.card_filter_le _ _
  have enough : 1 + d.missing {pdx (stackNext 0)} ≤ s.kmem.freelist.length := by
    have free := started.enough
    omega
  obtain ⟨km, d', grown⟩ := mapFresh_succeeds (pteW ||| pteU) (writes_fill 0) aligned
    (Nat.lt_trans user (by decide)) absent enough
  obtain ⟨frame, _, _, mapped, _⟩ := mapFresh_mapped (writes_fill 0) aligned user grown
  have counted := mapped.counted _ (Finset.mem_singleton_self _)
  have step : Step sampleLinkage s (.exec 0) ((s.setKmem km).modify 0 fun pr =>
      { pr with pgdir := some d', sz := pgsize, tf := initTrapframe, name := "init",
                stackPsize := 1 }) :=
    .exec started.free started.own mapped.conserved
      (fun frame unused _ => mapped.grows.untouched frame unused) (by decide)
  refine ⟨_, d', started.quiet.step ⟨⟨rfl, rfl⟩, step⟩, ⟨started.free.running, started.free.idle⟩,
    ?_, ?_, ?_, ?_, ?_, fun q apart => ?_, started.initproc, started.nextpid,
    started.layout.grow room mapped, ?_⟩
  · rw [Kernel.modify_self]
  · rw [Kernel.modify_self]
  · rw [Kernel.modify_self]
  · rw [Kernel.modify_self]
    exact started.pid
  · rw [Kernel.modify_self]
    exact started.killed
  · rw [Kernel.modify_of_ne _ _ _ apart]
    exact started.others q apart
  · have free := started.enough
    change pages ≤ km.freelist.length
    omega

theorem Started.stackProc (started : Started s d 1 pages) : StackProc sampleLinkage s 0 d 1 :=
  ⟨started.own, started.source.owned, started.stackPsize, by rw [started.sz]; exact started.layout,
    Nat.le_refl _⟩

/-- The same process on a machine that has run out of pages. -/
theorem Started.drained (started : Started s d 1 pages) :
    StackProc sampleLinkage (s.setKmem ⟨[], s.kmem.mem⟩) 0 d 1 := by
  have owned := started.source.owned
  have fewer : (([] : List Frame) : Multiset Frame) + d.frames ≤ s.kmem.freelist + d.frames :=
    add_le_add_left (Multiset.zero_le _) _
  refine ⟨started.own, ⟨?_, fun frame member => owned.valid frame ?_⟩, started.stackPsize,
    started.stackProc.layout, Nat.le_refl _⟩
  · exact Multiset.nodup_of_le fewer owned.nodup
  · exact Multiset.mem_of_le fewer member

/-- A fault in the page below the stack is resolved when two pages are free. -/
theorem page_fault_resolved_next : ∃ s, (system sampleLinkage).Reachable s ∧
    ∃ n s', 1 ≤ n ∧ deliver sampleLinkage 0 0 0x7fffe000 n s = .ok s' ∧
      Settled s' 0 0x7fffe000 := by
  obtain ⟨s, d, started⟩ := sample_stack (by decide : 2 + 2 ≤ 0x800)
  have proc := started.stackProc
  have absent : d.lookup 0x7fffe000 = none :=
    Option.not_isSome_iff_eq_none.mp fun present =>
      absurd ((started.layout.exact _ (by decide)).mp present) (by decide)
  have once : deliveries (s.proc 0) 0x7fffe000 = 1 := by
    rw [deliveries, started.killed, started.stackPsize]
    rfl
  have enough := started.enough
  have one : d.missing {pdx (stackNext 1)} ≤ 1 := Finset.card_filter_le _ _
  refine ⟨s, started.reached, (page_fault_resolved_iff proc.own proc.owned ?_ ?_ (by decide)
    absent).mpr ⟨?_, ?_⟩⟩
  · rw [started.sz, started.stackPsize]
    exact started.layout
  · rw [started.stackPsize]
  · rw [once, started.stackPsize]
    change 1 + d.missing {pdx (stackNext 1)} ≤ _
    omega
  · rw [started.killed]
    exact fun isInit => Bool.false_ne_true isInit.1

/-- With no free page left the first fault below the stack stops the machine. -/
theorem page_fault_panics : ∃ s d, StackProc sampleLinkage s 0 d 1 ∧ s.kmem.freelist = [] ∧
    d.lookup 0x7fffe000 = none ∧
    trap sampleLinkage s 0 0 0x7fffe000 true = .error .stackOverflow ∧
    ¬ ∃ n s', 1 ≤ n ∧ deliver sampleLinkage 0 0 0x7fffe000 n s = .ok s' ∧
      Settled s' 0 0x7fffe000 := by
  obtain ⟨s, d, started⟩ := sample_stack (by decide : 0 + 2 ≤ 0x800)
  have proc := started.drained
  have absent : d.lookup 0x7fffe000 = none :=
    Option.not_isSome_iff_eq_none.mp fun present =>
      absurd ((started.layout.exact _ (by decide)).mp present) (by decide)
  have stops : trap sampleLinkage (s.setKmem ⟨[], s.kmem.mem⟩) 0 0 0x7fffe000 true =
      .error .stackOverflow := by
    unfold trap
    rw [proc.pgflt_fails (by decide) ?_ true rfl]
    · rfl
    · change Room (s.proc 0).sz 1 1
      rw [started.sz]
      unfold Room
      decide
  refine ⟨_, d, proc, rfl, absent, stops, ?_⟩
  rintro ⟨n, s', positive, ran, _⟩
  obtain ⟨m, rfl⟩ := Nat.exists_eq_add_of_le' positive
  obtain ⟨t, trapped, _⟩ := Kern.bind_eq_ok.mp ran
  rw [stops] at trapped
  cases trapped

end Sample

end SlabStudy.Xv6
