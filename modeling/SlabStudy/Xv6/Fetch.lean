import SlabStudy.Xv6.StackFault

/-!
# System call arguments

The functions of `syscall.c` that read the arguments of a system call from
user memory.  They compare addresses with `STACKBASE` only.  A load from the
hole between heap and stack faults inside the kernel, and the page-fault
handler answers by growing the stack until the load succeeds; a pointer that
is only passed on is not loaded from, and nothing is mapped for it.
-/

namespace SlabStudy.Xv6

/-! ## Loads by the kernel -/

/-- The byte at a user address; an unmapped address shows the zeros it would be mapped with. -/
def byteAt (km : Kmem) (d : Pgdir) (va : Nat) : UInt8 :=
  match d.lookup va with
  | some pte => km.mem pte.addr (Fin.ofNat pgsize va)
  | none => 0

/-- The byte at an address of the running process, if its page is present. -/
def Kernel.byte? (s : Kernel) (p : Slot) (va : Nat) : Option UInt8 :=
  (s.proc p).pgdir.bind fun d =>
    (d.lookup va).map fun pte => s.kmem.mem pte.addr (Fin.ofNat pgsize va)

/--
A load that is restarted after every handled fault.  A handled fault takes a
page from the free list, so it cannot be handled more often than pages are free.
-/
def loadRetry (ld : Linkage) (p : Slot) (va : Nat) : Nat → Kernel → Kern (UInt8 × Kernel)
  | 0, _ => .error .stackOverflow
  | n + 1, s =>
      match s.byte? p va with
      | some byte => .ok (byte, s)
      | none => do
          let s ← pgflt ld s p va false
          loadRetry ld p va n s

/-- A load by the kernel on behalf of process `p`. -/
def load (ld : Linkage) (s : Kernel) (p : Slot) (va : Nat) : Kern (UInt8 × Kernel) :=
  loadRetry ld p va (s.kmem.freelist.length + 1) s

/-- `*(int*)addr`, as the unsigned word it is. -/
def loadInt (ld : Linkage) (s : Kernel) (p : Slot) (addr : Nat) : Kern (Nat × Kernel) := do
  let (b0, s) ← load ld s p addr
  let (b1, s) ← load ld s p (addr + 1)
  let (b2, s) ← load ld s p (addr + 2)
  let (b3, s) ← load ld s p (addr + 3)
  return (b0.toNat + 256 * b1.toNat + 65536 * b2.toNat + 16777216 * b3.toNat, s)

/-! ## syscall.c -/

/-- Fetch the int at `addr` from the current process; `none` is the result `-1`. -/
def fetchint (ld : Linkage) (s : Kernel) (p : Slot) (addr : Nat) : Kern (Option Nat × Kernel) :=
  if stackbase ≤ addr ∨ stackbase < (addr + 4) % 2 ^ 32 then .ok (none, s)
  else do
    let (word, s) ← loadInt ld s p addr
    return (some word, s)

/-- The scan for the terminating NUL, with the number of bytes left before `STACKBASE`. -/
def fetchstrLoop (ld : Linkage) (p : Slot) (start : Nat) :
    Nat → Nat → Kernel → Kern (Option Nat × Kernel)
  | 0, _, s => .ok (none, s)
  | left + 1, cursor, s => do
      let (byte, s) ← load ld s p cursor
      if byte = 0 then return (some (cursor - start), s)
      else fetchstrLoop ld p start left (cursor + 1) s

/-- Length of the string at `addr`, without its NUL. -/
def fetchstr (ld : Linkage) (s : Kernel) (p : Slot) (addr : Nat) : Kern (Option Nat × Kernel) :=
  if stackbase ≤ addr then .ok (none, s)
  else fetchstrLoop ld p addr (stackbase - addr) addr s

/-- Where the `n`th argument is stored: behind the return address of the stub. -/
def argAddr (s : Kernel) (p : Slot) (n : Int) : Nat :=
  uint ((s.proc p).tf.esp.toNat + 4 + 4 * n)

/-- Fetch the `n`th 32-bit system call argument. -/
def argint (ld : Linkage) (s : Kernel) (p : Slot) (n : Int) : Kern (Option Nat × Kernel) :=
  fetchint ld s p (argAddr s p n)

/-- Fetch the `n`th argument as a pointer to a block of `size` bytes. -/
def argptr (ld : Linkage) (s : Kernel) (p : Slot) (n size : Int) : Kern (Option Nat × Kernel) := do
  let (word, s) ← argint ld s p n
  match word with
  | none => return (none, s)
  | some i =>
      if size < 0 ∨ stackbase ≤ i ∨ stackbase < uint (i + size) then return (none, s)
      else return (some i, s)

/-- Fetch the `n`th argument as a string pointer; the result is the pointer and the length. -/
def argstr (ld : Linkage) (s : Kernel) (p : Slot) (n : Int) :
    Kern (Option (Nat × Nat) × Kernel) := do
  let (word, s) ← argint ld s p n
  match word with
  | none => return (none, s)
  | some addr =>
      let (length, s) ← fetchstr ld s p addr
      return (length.map fun length => (addr, length), s)

/-! ## Processes with a heap and a stack -/

/-- The page of a user address is present and user-accessible in the process's page table. -/
def UserByte (s : Kernel) (p : Slot) (va : Nat) : Prop :=
  ∃ d pte, (s.proc p).pgdir = some d ∧ d.lookup va = some pte ∧ pte.user = true

/-- A process whose present pages are its heap and its stack, all of them for the user. -/
structure UserImage (ld : Linkage) (s : Kernel) (p : Slot) (d : Pgdir) : Prop where
  own : (s.proc p).pgdir = some d
  owned : Owned ld s.kmem d
  layout : Layout d (s.proc p).sz (s.proc p).stackPsize
  user : ∀ va pte, va < kernbase → d.lookup va = some pte → pte.user = true

/-- Pages the stack has to grow by before `va` is mapped. -/
def reach (d : Pgdir) (psize va : Nat) : Nat :=
  if (d.lookup va).isSome then 0 else pagesTo psize va

/-- The stack of the process has grown by `n` pages, which hold zeros. -/
structure StackGrows (ld : Linkage) (s s' : Kernel) (p : Slot) (d d' : Pgdir) (n : Nat) :
    Prop where
  image : UserImage ld s' p d'
  started : n = 0 ∨ 1 ≤ (s.proc p).stackPsize
  stackPsize : (s'.proc p).stackPsize = (s.proc p).stackPsize + n
  sz : (s'.proc p).sz = (s.proc p).sz
  kept : ∀ va pte, va < kernbase → d.lookup va = some pte → d'.lookup va = some pte
  bytes : ∀ va, va < kernbase → byteAt s'.kmem d' va = byteAt s.kmem d va
  cost : ∀ m, stackCost d' ((s.proc p).stackPsize + n) m ≤ s'.kmem.freelist.length ↔
    stackCost d (s.proc p).stackPsize (n + m) ≤ s.kmem.freelist.length

section Image

variable {ld : Linkage} {s s' s₁ : Kernel} {p : Slot} {d d' d₁ : Pgdir} {va : Nat}

theorem UserImage.stackProc (image : UserImage ld s p d) (nonempty : 1 ≤ (s.proc p).stackPsize) :
    StackProc ld s p d (s.proc p).stackPsize :=
  ⟨image.own, image.owned, rfl, image.layout, nonempty⟩

theorem UserImage.userByte (image : UserImage ld s p d) (low : va < kernbase)
    (present : (d.lookup va).isSome = true) : UserByte s p va := by
  obtain ⟨pte, found⟩ := Option.isSome_iff_exists.mp present
  exact ⟨d, pte, image.own, found, image.user va pte low found⟩

theorem UserImage.userByte_iff (image : UserImage ld s p d) (low : va < kernbase) :
    UserByte s p va ↔
      va < pgRoundUp (s.proc p).sz ∨ kernbase - (s.proc p).stackPsize * pgsize ≤ va := by
  rw [← image.layout.exact va low]
  refine ⟨?_, image.userByte low⟩
  rintro ⟨d₁, pte, own, found, _⟩
  rw [image.own] at own
  cases own
  rw [found]
  rfl

theorem UserImage.byte? (image : UserImage ld s p d) (va : Nat) :
    s.byte? p va = (d.lookup va).map fun pte => s.kmem.mem pte.addr (Fin.ofNat pgsize va) := by
  unfold Kernel.byte?
  rw [image.own]
  rfl

theorem UserImage.byte?_eq (image : UserImage ld s p d) (present : (d.lookup va).isSome = true) :
    s.byte? p va = some (byteAt s.kmem d va) := by
  obtain ⟨pte, found⟩ := Option.isSome_iff_exists.mp present
  rw [image.byte?, byteAt, found]
  rfl

/-- An unmapped address lies in the hole. -/
theorem UserImage.hole (image : UserImage ld s p d) (low : va < kernbase)
    (absent : d.lookup va = none) :
    pgRoundUp (s.proc p).sz ≤ va ∧ va < kernbase - (s.proc p).stackPsize * pgsize := by
  have outside := image.layout.exact va low
  rw [absent] at outside
  have neither : ¬ (va < pgRoundUp (s.proc p).sz ∨
      kernbase - (s.proc p).stackPsize * pgsize ≤ va) :=
    fun inside => Bool.false_ne_true (outside.mpr inside)
  omega

/-- The page directly below the stack is free while something is unmapped. -/
theorem UserImage.room (image : UserImage ld s p d) (low : va < kernbase)
    (absent : d.lookup va = none) :
    Room (s.proc p).sz (s.proc p).stackPsize (reach d (s.proc p).stackPsize va) ∧
      1 ≤ reach d (s.proc p).stackPsize va := by
  obtain ⟨above, below⟩ := image.hole low absent
  have multiple := pgRoundUp_mod (s.proc p).sz
  have fits := image.layout.stack_le
  unfold reach
  rw [absent]
  change Room _ _ (pagesTo _ _) ∧ 1 ≤ pagesTo _ _
  unfold Room pagesTo
  change va < 2147483648 - (s.proc p).stackPsize * 4096 at below
  change pgRoundUp (s.proc p).sz % 4096 = 0 at multiple
  change (s.proc p).stackPsize * 4096 ≤ 2147483648 at fits
  change pgRoundUp (s.proc p).sz + ((s.proc p).stackPsize + (524288 - (s.proc p).stackPsize -
    va / 4096)) * 4096 ≤ 2147483648 ∧ 1 ≤ 524288 - (s.proc p).stackPsize - va / 4096
  omega

/-- How far an address is after the stack has grown. -/
theorem StackGrows.reach_eq {n : Nat} (image : UserImage ld s p d)
    (grows : StackGrows ld s s' p d d' n) (low : va < kernbase) :
    reach d' (s'.proc p).stackPsize va = reach d (s.proc p).stackPsize va - n := by
  have fits := grows.image.layout.stack_le
  have after := grows.image.layout.exact va low
  rw [grows.sz, grows.stackPsize] at after
  rw [grows.stackPsize] at fits ⊢
  change ((s.proc p).stackPsize + n) * 4096 ≤ 2147483648 at fits
  cases found : d.lookup va with
  | some pte =>
      rw [reach, reach, found, grows.kept va pte low found]
      simp
  | none =>
      obtain ⟨above, below⟩ := image.hole low found
      change va < 2147483648 - (s.proc p).stackPsize * 4096 at below
      change _ ↔ va < _ ∨ 2147483648 - ((s.proc p).stackPsize + n) * 4096 ≤ va at after
      have here : reach d (s.proc p).stackPsize va =
          524288 - (s.proc p).stackPsize - va / 4096 := by
        rw [reach, found]
        rfl
      rw [here, reach]
      split
      · next present =>
          have inside := after.mp present
          omega
      · next gone =>
          have outside := fun inside => gone (after.mpr inside)
          change 524288 - ((s.proc p).stackPsize + n) - va / 4096 = _
          omega

theorem StackGrows.refl (image : UserImage ld s p d) : StackGrows ld s s p d d 0 :=
  ⟨image, .inl rfl, rfl, rfl, fun _ _ _ found => found, fun _ _ => rfl, fun m => by
    rw [Nat.zero_add, Nat.add_zero]⟩

theorem StackGrows.trans {m n : Nat} (first : StackGrows ld s s₁ p d d₁ m)
    (second : StackGrows ld s₁ s' p d₁ d' n) : StackGrows ld s s' p d d' (m + n) := by
  refine ⟨second.image, ?_, ?_, ?_, fun va pte low found => ?_, fun va low => ?_, fun k => ?_⟩
  · have before := first.started
    have after := second.started
    rw [first.stackPsize] at after
    omega
  · rw [second.stackPsize, first.stackPsize, Nat.add_assoc]
  · rw [second.sz, first.sz]
  · exact second.kept va pte low (first.kept va pte low found)
  · rw [second.bytes va low, first.bytes va low]
  · have later := second.cost k
    rw [first.stackPsize, first.cost (n + k)] at later
    rw [← Nat.add_assoc, later, Nat.add_assoc]

/-- One handled fault. -/
theorem UserImage.grow (image : UserImage ld s p d) (nonempty : 1 ≤ (s.proc p).stackPsize)
    (room : Room (s.proc p).sz (s.proc p).stackPsize 1) (low : va ≤ stackbase)
    (ran : pgflt ld s p va false = .ok s') : ∃ d', StackGrows ld s s' p d d' 1 := by
  have proc := image.stackProc nonempty
  obtain ⟨km, d', frame, mapped, zero, rfl⟩ := proc.pgflt_ok low room ran
  have self := stackGrown_self s p ((s.proc p).stackPsize + 1) km d'
  have grown := proc.grown room mapped
  refine ⟨d', ⟨grown.own, grown.owned, ?_, fun vb pte user found => ?_⟩,
    .inr nonempty, ?_, ?_, fun vb pte user found => ?_, fun vb user => ?_,
    fun m => ?_⟩
  · rw [grown.stackPsize]
    exact grown.layout
  · rw [mapped.lookup vb (Nat.lt_trans user (by decide))] at found
    split at found
    · cases found
      exact Pte.user_stack frame
    · exact image.user vb pte user found
  · rw [self]
  · rw [self]
  · exact mapped.grows.kept vb pte (Nat.lt_trans user (by decide)) found
  · have after := mapped.lookup vb (Nat.lt_trans user (by decide))
    unfold byteAt
    cases found : d.lookup vb with
    | some pte =>
        have used : pte.addr ∉ s.kmem.freelist :=
          image.owned.notFree (Pgdir.addr_mem_frames user found)
        rw [mapped.grows.kept vb pte (Nat.lt_trans user (by decide)) found]
        exact congrFun (mapped.grows.untouched _ used) _
    | none =>
        rw [found] at after
        split at after
        · rw [after]
          exact congrFun zero _
        · rw [after]
  · have counted := mapped.counted (stackDirs (s.proc p).stackPsize (m + 1))
      (Finset.mem_insert_self _ _)
    have present : d'.missing (stackDirs (s.proc p).stackPsize (m + 1)) =
        d'.missing (stackDirs ((s.proc p).stackPsize + 1) m) :=
      Pgdir.missing_insert _ mapped.table
    unfold stackCost
    rw [Nat.add_comm 1 m]
    change m + d'.missing (stackDirs ((s.proc p).stackPsize + 1) m) ≤ km.freelist.length ↔ _
    omega

/-- Without a stack page the handler asks for a page that ends at `KERNBASE`, and stops. -/
theorem UserImage.stackless (image : UserImage ld s p d) (none : (s.proc p).stackPsize = 0)
    (low : va ≤ stackbase) : pgflt ld s p va false ≠ .ok s' := by
  intro ran
  rcases pgflt_eq_ok image.own ran with ⟨_, old, result, km, d', bottom, grown, positive, _⟩ |
    ⟨high, _⟩
  · rw [none, pgRoundUp_stack (by decide : (0 + 1) * pgsize ≤ kernbase)] at bottom
    rw [bottom] at grown
    unfold allocuvm at grown
    rw [if_pos (by decide)] at grown
    cases grown
    exact positive rfl
  · exact absurd low (Nat.not_le.mpr high)

/-- The stack can grow by `n` pages: it has a first page, and the pages are free. -/
def CanGrow (s : Kernel) (p : Slot) (d : Pgdir) (n : Nat) : Prop :=
  (n = 0 ∨ 1 ≤ (s.proc p).stackPsize) ∧
    stackCost d (s.proc p).stackPsize n ≤ s.kmem.freelist.length

theorem StackGrows.canGrow {n : Nat} (grows : StackGrows ld s s' p d d' n) : CanGrow s p d n :=
  ⟨grows.started, (grows.cost 0).mp (Nat.zero_le _)⟩

theorem stackDirs_mono {psize m n : Nat} (fewer : m ≤ n) :
    stackDirs psize m ⊆ stackDirs psize n := by
  induction m generalizing psize n with
  | zero => exact Finset.empty_subset _
  | succ m ih =>
      obtain ⟨k, rfl⟩ := Nat.exists_eq_add_of_le fewer
      rw [Nat.add_right_comm]
      exact Finset.insert_subset_insert _ (ih (Nat.le_add_right _ _))

theorem CanGrow.mono {m n : Nat} (can : CanGrow s p d n) (fewer : m ≤ n) : CanGrow s p d m := by
  refine ⟨?_, Nat.le_trans (Nat.add_le_add fewer ?_) can.2⟩
  · have first := can.1
    omega
  · exact d.missing_mono (stackDirs_mono fewer)

/-- A load that ends has grown the stack as far as the address, and no further. -/
theorem loadRetry_ok {fuel : Nat} {byte : UInt8} (image : UserImage ld s p d)
    (low : va < stackbase) (ran : loadRetry ld p va fuel s = .ok (byte, s')) :
    ∃ d', StackGrows ld s s' p d d' (reach d (s.proc p).stackPsize va) ∧
      byte = byteAt s.kmem d va ∧ (d'.lookup va).isSome = true := by
  have user : va < kernbase := Nat.lt_trans low (by decide)
  induction fuel generalizing s d with
  | zero => cases ran
  | succ fuel ih =>
      unfold loadRetry at ran
      cases found : d.lookup va with
      | some pte =>
          have present : (d.lookup va).isSome = true := by
            rw [found]
            rfl
          rw [image.byte?_eq present] at ran
          cases ran
          have near : reach d (s'.proc p).stackPsize va = 0 := if_pos present
          rw [near]
          exact ⟨d, StackGrows.refl image, rfl, present⟩
      | none =>
          rw [image.byte?, found] at ran
          obtain ⟨s₁, handled, rest⟩ := Kern.bind_eq_ok.mp ran
          obtain ⟨room, positive⟩ := image.room user found
          have nonempty : 1 ≤ (s.proc p).stackPsize := by
            by_contra empty
            exact image.stackless (by omega) (Nat.le_of_lt low) handled
          obtain ⟨d₁, first⟩ :=
            image.grow nonempty (room.mono positive) (Nat.le_of_lt low) handled
          obtain ⟨d', later, read, present⟩ := ih first.image rest
          have total := first.trans later
          rw [first.reach_eq image user, Nat.add_sub_cancel' positive] at total
          refine ⟨d', total, ?_, present⟩
          rw [read, first.bytes va user]

/-- A load ends when the stack can grow as far as the address. -/
theorem loadRetry_succeeds {fuel : Nat} (image : UserImage ld s p d) (low : va < stackbase)
    (can : CanGrow s p d (reach d (s.proc p).stackPsize va))
    (enough : reach d (s.proc p).stackPsize va < fuel) :
    ∃ byte s', loadRetry ld p va fuel s = .ok (byte, s') := by
  have user : va < kernbase := Nat.lt_trans low (by decide)
  induction fuel generalizing s d with
  | zero => exact absurd enough (Nat.not_lt_zero _)
  | succ fuel ih =>
      unfold loadRetry
      cases found : d.lookup va with
      | some pte =>
          rw [image.byte?_eq (by rw [found]; rfl)]
          exact ⟨_, s, rfl⟩
      | none =>
          rw [image.byte?, found]
          obtain ⟨room, positive⟩ := image.room user found
          have nonempty := can.1.resolve_left (Nat.ne_of_gt positive)
          have single : d.missing {pdx (stackNext (s.proc p).stackPsize)} ≤
              d.missing (stackDirs (s.proc p).stackPsize (reach d (s.proc p).stackPsize va)) := by
            obtain ⟨m, more⟩ := Nat.exists_eq_add_of_le' positive
            rw [more]
            exact d.missing_mono (Finset.singleton_subset_iff.mpr (Finset.mem_insert_self _ _))
          obtain ⟨s₁, handled⟩ := (image.stackProc nonempty).pgflt_succeeds (Nat.le_of_lt low)
            (room.mono positive) false (by
              have cost := can.2
              unfold stackCost at cost
              omega)
          obtain ⟨d₁, first⟩ :=
            image.grow nonempty (room.mono positive) (Nat.le_of_lt low) handled
          have left := first.reach_eq image user
          obtain ⟨byte, s', loaded⟩ := ih first.image (by
            rw [left]
            refine ⟨.inr (by rw [first.stackPsize]; omega), ?_⟩
            rw [first.stackPsize]
            refine (first.cost _).mpr ?_
            rw [Nat.add_sub_cancel' positive]
            exact can.2) (by omega)
          refine ⟨byte, s', ?_⟩
          change (do
            let s ← pgflt ld s p va false
            loadRetry ld p va fuel s) = _
          exact Kern.bind_eq_ok.mpr ⟨s₁, handled, loaded⟩

/-- A load after the stack has grown by `n` pages already. -/
theorem StackGrows.load {n : Nat} {byte : UInt8} (image : UserImage ld s p d)
    (grows : StackGrows ld s s₁ p d d₁ n) (low : va < stackbase)
    (ran : load ld s₁ p va = .ok (byte, s')) :
    ∃ d', StackGrows ld s s' p d d' (max n (reach d (s.proc p).stackPsize va)) ∧
      byte = byteAt s.kmem d va ∧ (d'.lookup va).isSome = true := by
  have user : va < kernbase := Nat.lt_trans low (by decide)
  obtain ⟨d', later, read, present⟩ := loadRetry_ok grows.image low ran
  have total := grows.trans later
  rw [grows.reach_eq image user, Nat.add_comm, Nat.sub_add_eq_max, Nat.max_comm] at total
  refine ⟨d', total, ?_, present⟩
  rw [read, grows.bytes va user]

theorem StackGrows.load_succeeds {n : Nat} (image : UserImage ld s p d)
    (grows : StackGrows ld s s₁ p d d₁ n) (low : va < stackbase)
    (can : CanGrow s p d (max n (reach d (s.proc p).stackPsize va))) :
    ∃ byte s', Xv6.load ld s₁ p va = .ok (byte, s') := by
  have user : va < kernbase := Nat.lt_trans low (by decide)
  have left := grows.reach_eq image user
  have cost : stackCost d₁ (s₁.proc p).stackPsize (reach d₁ (s₁.proc p).stackPsize va) ≤
      s₁.kmem.freelist.length := by
    rw [left, grows.stackPsize]
    refine (grows.cost _).mpr ?_
    rw [Nat.add_comm, Nat.sub_add_eq_max, Nat.max_comm]
    exact can.2
  refine loadRetry_succeeds grows.image low ⟨?_, cost⟩ ?_
  · have first := can.1
    rw [left, grows.stackPsize]
    omega
  · exact Nat.lt_succ_of_le (Nat.le_trans (Nat.le_add_right _ _) cost)

/-- What the stack has grown to is mapped. -/
theorem StackGrows.present {n : Nat} (image : UserImage ld s p d)
    (grows : StackGrows ld s s' p d d' n) (low : va < kernbase)
    (near : reach d (s.proc p).stackPsize va ≤ n) : (d'.lookup va).isSome = true := by
  by_contra absent
  have far := (grows.image.room low (Option.not_isSome_iff_eq_none.mp absent)).2
  rw [grows.reach_eq image low] at far
  omega

/-! ## Words -/

/-- The word at a user address, unmapped bytes being zero. -/
def wordAt (km : Kmem) (d : Pgdir) (addr : Nat) : Nat :=
  (byteAt km d addr).toNat + 256 * (byteAt km d (addr + 1)).toNat +
    65536 * (byteAt km d (addr + 2)).toNat + 16777216 * (byteAt km d (addr + 3)).toNat

/-- Pages the stack grows by when the word at `addr` is loaded. -/
def growth (d : Pgdir) (psize addr : Nat) : Nat :=
  max (reach d psize addr) (reach d psize (addr + 3))

/-- A word touches the pages of its first and its last byte only. -/
theorem reach_le_growth (d : Pgdir) (psize : Nat) {addr k : Nat} (low : addr + 4 ≤ stackbase)
    (inside : k < 4) : reach d psize (addr + k) ≤ growth d psize addr := by
  have same : ∀ vb, vb ≤ addr + 3 → (addr + k) / pgsize = vb / pgsize →
      reach d psize (addr + k) = reach d psize vb := by
    intro vb bound page
    have small : addr + 3 < 2 ^ 32 :=
      Nat.lt_trans (Nat.lt_of_succ_le low) (by decide)
    unfold reach pagesTo
    rw [d.lookup_congr (by omega) (by omega) page, page]
  have pages : (addr + k) / 4096 = addr / 4096 ∨ (addr + k) / 4096 = (addr + 3) / 4096 := by omega
  rcases pages with first | last
  · rw [same addr (by omega) first]
    exact Nat.le_max_left _ _
  · rw [same (addr + 3) (Nat.le_refl _) last]
    exact Nat.le_max_right _ _

/-- A loaded word, and the stack that was needed for it. -/
theorem loadInt_ok {addr word : Nat} (image : UserImage ld s p d) (low : addr + 4 ≤ stackbase)
    (ran : loadInt ld s p addr = .ok (word, s')) :
    word = wordAt s.kmem d addr ∧
      ∃ d', StackGrows ld s s' p d d' (growth d (s.proc p).stackPsize addr) := by
  obtain ⟨⟨b0, s₀⟩, load0, ran⟩ := Kern.bind_eq_ok.mp ran
  obtain ⟨⟨b1, s₁⟩, load1, ran⟩ := Kern.bind_eq_ok.mp ran
  obtain ⟨⟨b2, s₂⟩, load2, ran⟩ := Kern.bind_eq_ok.mp ran
  obtain ⟨⟨b3, s₃⟩, load3, ran⟩ := Kern.bind_eq_ok.mp ran
  obtain ⟨d₀, grows0, rfl, _⟩ := (StackGrows.refl image).load image (by omega) load0
  obtain ⟨d₁, grows1, rfl, _⟩ := grows0.load image (by omega) load1
  obtain ⟨d₂, grows2, rfl, _⟩ := grows1.load image (by omega) load2
  obtain ⟨d₃, grows3, rfl, _⟩ := grows2.load image (by omega) load3
  cases ran
  refine ⟨rfl, d₃, ?_⟩
  have second := reach_le_growth d (s.proc p).stackPsize low (by decide : 1 < 4)
  have third := reach_le_growth d (s.proc p).stackPsize low (by decide : 2 < 4)
  have total : max (max (max (max 0 (reach d (s.proc p).stackPsize addr))
      (reach d (s.proc p).stackPsize (addr + 1))) (reach d (s.proc p).stackPsize (addr + 2)))
      (reach d (s.proc p).stackPsize (addr + 3)) = growth d (s.proc p).stackPsize addr := by
    unfold growth at *
    omega
  rw [total] at grows3
  exact grows3

theorem loadInt_succeeds {addr : Nat} (image : UserImage ld s p d) (low : addr + 4 ≤ stackbase)
    (can : CanGrow s p d (growth d (s.proc p).stackPsize addr)) :
    ∃ word s', loadInt ld s p addr = .ok (word, s') := by
  have within : ∀ k, k < 4 → reach d (s.proc p).stackPsize (addr + k) ≤
      growth d (s.proc p).stackPsize addr := fun k => reach_le_growth d _ low
  have first := within 0 (by decide)
  have second := within 1 (by decide)
  have third := within 2 (by decide)
  have fourth := within 3 (by decide)
  have start := StackGrows.refl image
  obtain ⟨b0, s₀, load0⟩ := start.load_succeeds image (by omega : addr < stackbase)
    (can.mono (Nat.max_le.mpr ⟨Nat.zero_le _, first⟩))
  obtain ⟨d₀, grows0, _⟩ := start.load image (by omega) load0
  have upto0 := Nat.max_le.mpr ⟨Nat.zero_le _, first⟩
  obtain ⟨b1, s₁, load1⟩ := grows0.load_succeeds image (by omega : addr + 1 < stackbase)
    (can.mono (Nat.max_le.mpr ⟨upto0, second⟩))
  obtain ⟨d₁, grows1, _⟩ := grows0.load image (by omega) load1
  have upto1 := Nat.max_le.mpr ⟨upto0, second⟩
  obtain ⟨b2, s₂, load2⟩ := grows1.load_succeeds image (by omega : addr + 2 < stackbase)
    (can.mono (Nat.max_le.mpr ⟨upto1, third⟩))
  obtain ⟨d₂, grows2, _⟩ := grows1.load image (by omega) load2
  obtain ⟨b3, s₃, load3⟩ := grows2.load_succeeds image (by omega : addr + 3 < stackbase)
    (can.mono (Nat.max_le.mpr ⟨Nat.max_le.mpr ⟨upto1, third⟩, fourth⟩))
  exact ⟨_, s₃, Kern.bind_eq_ok.mpr ⟨_, load0, Kern.bind_eq_ok.mpr ⟨_, load1,
    Kern.bind_eq_ok.mpr ⟨_, load2, Kern.bind_eq_ok.mpr ⟨_, load3, rfl⟩⟩⟩⟩⟩

/-! ## What a successful call has mapped -/

theorem fetchint_ok {addr : Nat} {result : Option Nat} (image : UserImage ld s p d)
    (ran : fetchint ld s p addr = .ok (result, s')) :
    (result = none ∧ s' = s ∧ ¬ addr + 4 ≤ stackbase) ∨
      (addr + 4 ≤ stackbase ∧ result = some (wordAt s.kmem d addr) ∧
        ∃ d', StackGrows ld s s' p d d' (growth d (s.proc p).stackPsize addr)) := by
  unfold fetchint at ran
  split at ran
  · next refused =>
      cases ran
      refine .inl ⟨rfl, rfl, ?_⟩
      change 2147483647 ≤ addr ∨ 2147483647 < (addr + 4) % 4294967296 at refused
      change ¬ addr + 4 ≤ 2147483647
      omega
  · next accepted =>
      have low : addr + 4 ≤ stackbase := by
        change ¬ (2147483647 ≤ addr ∨ 2147483647 < (addr + 4) % 4294967296) at accepted
        change addr + 4 ≤ 2147483647
        omega
      obtain ⟨⟨word, t⟩, loaded, rest⟩ := Kern.bind_eq_ok.mp ran
      cases rest
      obtain ⟨rfl, grown⟩ := loadInt_ok image low loaded
      exact .inr ⟨low, rfl, grown⟩

theorem fetchint_succeeds {addr : Nat} (image : UserImage ld s p d) (low : addr + 4 ≤ stackbase)
    (can : CanGrow s p d (growth d (s.proc p).stackPsize addr)) :
    ∃ s', fetchint ld s p addr = .ok (some (wordAt s.kmem d addr), s') := by
  have accepted : ¬ (stackbase ≤ addr ∨ stackbase < (addr + 4) % 2 ^ 32) := by
    change addr + 4 ≤ 2147483647 at low
    change ¬ (2147483647 ≤ addr ∨ 2147483647 < (addr + 4) % 4294967296)
    omega
  obtain ⟨word, s', loaded⟩ := loadInt_succeeds image low can
  obtain ⟨rfl, _⟩ := loadInt_ok image low loaded
  refine ⟨s', ?_⟩
  unfold fetchint
  rw [if_neg accepted]
  exact Kern.bind_eq_ok.mpr ⟨_, loaded, rfl⟩

/-- The bytes of a word are mapped once the stack has grown for it. -/
theorem StackGrows.word {addr : Nat} (image : UserImage ld s p d) (low : addr + 4 ≤ stackbase)
    (grows : StackGrows ld s s' p d d' (growth d (s.proc p).stackPsize addr))
    (above : addr ≤ va) (below : va < addr + 4) : UserByte s' p va := by
  obtain ⟨k, rfl⟩ := Nat.exists_eq_add_of_le above
  have user : addr + k < kernbase := by
    change addr + 4 ≤ 2147483647 at low
    change addr + k < 2147483648
    omega
  exact grows.image.userByte user
    (grows.present image user (reach_le_growth d _ low (by omega)))

/-- The scan has loaded every byte up to the NUL. -/
theorem fetchstrLoop_ok {start left cursor length : Nat} (image : UserImage ld s p d)
    (inside : cursor + left = stackbase) (behind : start ≤ cursor)
    (loaded : ∀ va, start ≤ va → va < cursor → UserByte s p va)
    (ran : fetchstrLoop ld p start left cursor s = .ok (some length, s')) :
    ∀ va, start ≤ va → va < start + (length + 1) → UserByte s' p va := by
  induction left generalizing s d cursor with
  | zero => cases ran
  | succ left ih =>
      obtain ⟨⟨byte, s₁⟩, first, rest⟩ := Kern.bind_eq_ok.mp ran
      obtain ⟨d₁, grows, _, present⟩ :=
        (StackGrows.refl image).load image (by omega : cursor < stackbase) first
      -- what was mapped before this byte still is
      have upto : ∀ va, start ≤ va → va < cursor + 1 → UserByte s₁ p va := by
        intro va above below
        have user : va < kernbase := Nat.lt_trans (by omega : va < stackbase) (by decide)
        by_cases last : va = cursor
        · subst last
          exact grows.image.userByte user present
        · obtain ⟨d₀, pte, own, found, _⟩ := loaded va above (by omega)
          rw [image.own] at own
          cases own
          refine grows.image.userByte user ?_
          rw [grows.kept va pte user found]
          rfl
      simp only at rest
      split at rest
      · cases rest
        intro va above below
        exact upto va above (by omega)
      · exact ih grows.image (by omega) (by omega) upto rest

theorem fetchstr_ok {addr length : Nat} (image : UserImage ld s p d)
    (ran : fetchstr ld s p addr = .ok (some length, s')) :
    ∀ va, addr ≤ va → va < addr + (length + 1) → UserByte s' p va := by
  unfold fetchstr at ran
  split at ran
  · cases ran
  · next low =>
      refine fetchstrLoop_ok image (by omega) (Nat.le_refl _) (fun va above below => ?_) ran
      omega

/-! ## The four functions together -/

/-- The calls that check an address of user memory. -/
inductive Fetch where
  | fetchint (addr : Nat)
  | argptr (n size : Int)
  | fetchstr (addr : Nat)
  | argstr (n : Int)

/-- Run a call; the result of a successful one is the start and the length of its range. -/
def Fetch.run (ld : Linkage) (s : Kernel) (p : Slot) : Fetch → Kern (Option (Nat × Nat) × Kernel)
  | .fetchint addr => do
      let (word, s) ← Xv6.fetchint ld s p addr
      return (word.map fun _ => (addr, 4), s)
  | .argptr n size => do
      let (pointer, s) ← Xv6.argptr ld s p n size
      return (pointer.map fun pointer => (pointer, size.toNat), s)
  | .fetchstr addr => do
      let (length, s) ← Xv6.fetchstr ld s p addr
      return (length.map fun length => (addr, length + 1), s)
  | .argstr n => do
      let (string, s) ← Xv6.argstr ld s p n
      return (string.map fun (addr, length) => (addr, length + 1), s)

/-- The sizes `argptr` is asked for are positive values of type `int`. -/
def Fetch.Typed : Fetch → Prop
  | .argptr _ size => 0 < size ∧ size < 2 ^ 31
  | _ => True

/-- If the call succeeds, every byte of the range it accepted is backed by user memory. -/
def Fetch.Backed (ld : Linkage) (s : Kernel) (p : Slot) (call : Fetch) : Prop :=
  ∀ start length s', call.run ld s p = .ok (some (start, length), s') →
    ∀ va, start ≤ va → va < start + length → UserByte s' p va

/--
The argument word at `addr` starts a range of `size` bytes that `argptr`
accepts rightly: if the word can be loaded and the range ends below
`STACKBASE`, the range has no byte in the hole that is left between the heap
and the stack, the stack having grown as far as the word needs it.
-/
def RangeAvoidsHole (s : Kernel) (p : Slot) (d : Pgdir) (addr size : Nat) : Prop :=
  addr + 4 ≤ stackbase → CanGrow s p d (growth d (s.proc p).stackPsize addr) →
    wordAt s.kmem d addr + size ≤ stackbase →
      ∀ va, wordAt s.kmem d addr ≤ va → va < wordAt s.kmem d addr + size →
        va < pgRoundUp (s.proc p).sz ∨
          kernbase - ((s.proc p).stackPsize + growth d (s.proc p).stackPsize addr) * pgsize ≤ va

/-- Only `argptr` accepts bytes that it does not load. -/
def Fetch.AvoidsHole (s : Kernel) (p : Slot) (d : Pgdir) : Fetch → Prop
  | .argptr n size => RangeAvoidsHole s p d (argAddr s p n) size.toNat
  | _ => True

theorem argptr_ok {n size : Int} {pointer : Nat} (image : UserImage ld s p d) (positive : 0 < size)
    (bounded : size < 2 ^ 31) (ran : argptr ld s p n size = .ok (some pointer, s')) :
    argAddr s p n + 4 ≤ stackbase ∧ pointer = wordAt s.kmem d (argAddr s p n) ∧
      pointer + size.toNat ≤ stackbase ∧
      ∃ d', StackGrows ld s s' p d d' (growth d (s.proc p).stackPsize (argAddr s p n)) := by
  obtain ⟨⟨word, s₁⟩, fetched, rest⟩ := Kern.bind_eq_ok.mp ran
  rcases fetchint_ok image fetched with ⟨rfl, _⟩ | ⟨low, rfl, grown⟩
  · cases rest
  · simp only at rest
    split at rest
    · cases rest
    · next accepted =>
        cases rest
        refine ⟨low, rfl, ?_, grown⟩
        generalize wordAt s.kmem d (argAddr s p n) = word at accepted ⊢
        unfold uint at accepted
        change ¬ (size < 0 ∨ 2147483647 ≤ word ∨ 2147483647 < ((word + size) % 4294967296).toNat)
          at accepted
        change word + size.toNat ≤ 2147483647
        omega

theorem argptr_succeeds {n size : Int} (image : UserImage ld s p d) (positive : 0 < size)
    (low : argAddr s p n + 4 ≤ stackbase)
    (can : CanGrow s p d (growth d (s.proc p).stackPsize (argAddr s p n)))
    (fits : wordAt s.kmem d (argAddr s p n) + size.toNat ≤ stackbase) :
    ∃ s', argptr ld s p n size = .ok (some (wordAt s.kmem d (argAddr s p n)), s') := by
  obtain ⟨s', fetched⟩ := fetchint_succeeds image low can
  refine ⟨s', Kern.bind_eq_ok.mpr ⟨_, fetched, ?_⟩⟩
  generalize wordAt s.kmem d (argAddr s p n) = word at fits ⊢
  have accepted : ¬ (size < 0 ∨ stackbase ≤ word ∨ stackbase < uint (word + size)) := by
    unfold uint
    change word + size.toNat ≤ 2147483647 at fits
    change ¬ (size < 0 ∨ 2147483647 ≤ word ∨ 2147483647 < ((word + size) % 4294967296).toNat)
    omega
  simp only
  rw [if_neg accepted]
  rfl

theorem argstr_ok {n : Int} {addr length : Nat} (image : UserImage ld s p d)
    (ran : argstr ld s p n = .ok (some (addr, length), s')) :
    ∀ va, addr ≤ va → va < addr + (length + 1) → UserByte s' p va := by
  obtain ⟨⟨word, s₁⟩, fetched, rest⟩ := Kern.bind_eq_ok.mp ran
  rcases fetchint_ok image fetched with ⟨rfl, _⟩ | ⟨_, rfl, d₁, grown⟩
  · cases rest
  · obtain ⟨⟨found, s₂⟩, scanned, last⟩ := Kern.bind_eq_ok.mp rest
    cases found with
    | none => cases last
    | some found =>
        cases last
        exact fetchstr_ok grown.image scanned

/-- The range of a successful `argptr` is backed exactly when it avoids the hole. -/
theorem argptr_backed_iff {n size : Int} (image : UserImage ld s p d) (positive : 0 < size)
    (bounded : size < 2 ^ 31) :
    (Fetch.argptr n size).Backed ld s p ↔ (Fetch.argptr n size).AvoidsHole s p d := by
  have user : ∀ {start va : Nat}, start + size.toNat ≤ stackbase → va < start + size.toNat →
      va < kernbase := fun fits inside =>
    Nat.lt_of_lt_of_le (Nat.lt_of_lt_of_le inside fits) (by decide)
  constructor
  · intro backed low can fits va above below
    obtain ⟨s', ran⟩ := argptr_succeeds image positive low can fits
    obtain ⟨_, _, _, d', grown⟩ := argptr_ok image positive bounded ran
    have byte := backed _ size.toNat s' (Kern.bind_eq_ok.mpr ⟨_, ran, rfl⟩) va above below
    have inside := (grown.image.userByte_iff (user fits below)).mp byte
    rw [grown.sz, grown.stackPsize] at inside
    exact inside
  · intro avoids start length s' ran va above below
    obtain ⟨⟨pointer, t⟩, called, last⟩ := Kern.bind_eq_ok.mp ran
    cases pointer with
    | none => cases last
    | some pointer =>
        cases last
        obtain ⟨low, rfl, fits, d', grown⟩ := argptr_ok image positive bounded called
        refine (grown.image.userByte_iff (user fits below)).mpr ?_
        rw [grown.sz, grown.stackPsize]
        exact avoids low grown.canGrow fits va above below

/--
For every process with a heap and a stack and every call that checks an
address of user memory: the range of a successful call is present and
user-accessible, except for the ranges of `argptr` that reach into the hole.
-/
theorem fetch_backed_iff (image : UserImage ld s p d) (call : Fetch) (typed : call.Typed) :
    call.Backed ld s p ↔ call.AvoidsHole s p d := by
  cases call with
  | fetchint addr =>
      refine iff_of_true (fun start length s' ran va above below => ?_) trivial
      obtain ⟨⟨word, t⟩, fetched, last⟩ := Kern.bind_eq_ok.mp ran
      rcases fetchint_ok image fetched with ⟨rfl, _⟩ | ⟨low, rfl, d', grown⟩
      · cases last
      · cases last
        exact grown.word image low above below
  | argptr n size => exact argptr_backed_iff image typed.1 typed.2
  | fetchstr addr =>
      refine iff_of_true (fun start length s' ran va above below => ?_) trivial
      obtain ⟨⟨found, t⟩, fetched, last⟩ := Kern.bind_eq_ok.mp ran
      cases found with
      | none => cases last
      | some found =>
          cases last
          exact fetchstr_ok image fetched va above below
  | argstr n =>
      refine iff_of_true (fun start length s' ran va above below => ?_) trivial
      obtain ⟨⟨found, t⟩, fetched, last⟩ := Kern.bind_eq_ok.mp ran
      cases found with
      | none => cases last
      | some found =>
          cases last
          exact argstr_ok image fetched va above below

end Image

/-! ## A process with one page of heap and one page of stack -/

/-- A page directory without page tables. -/
def bareDir (frame : Frame) : Pgdir := ⟨frame, fun _ => none⟩

theorem bareDir_frames (frame : Frame) : (bareDir frame).frames = {frame} := by
  rw [Pgdir.frames_eq, bareDir]
  simp

theorem sample_owned : Owned sampleLinkage (sampleKmem 8) (bareDir (BitVec.ofNat 20 0x1008)) := by
  have free := sampleKmem_free (by decide : 9 ≤ 0x1000)
  have all : ((sampleKmem 8).freelist : Multiset Frame) +
      (bareDir (BitVec.ofNat 20 0x1008)).frames = (sampleKmem 9).freelist := by
    rw [bareDir_frames, sampleKmem, sampleKmem, List.range_succ, List.map_append]
    rfl
  refine ⟨?_, fun frame member => free.valid frame ?_⟩
  · rw [all]
    exact Multiset.coe_nodup.mpr free.nodup
  · rw [all] at member
    exact Multiset.mem_coe.mp member

/-- The saved stack pointer lies in the stack page, above which sixteen words follow. -/
def sampleProc (d : Pgdir) : Proc :=
  { Proc.zero with
    sz := pgsize, pgdir := some d, stackPsize := 1, state := .running, pid := 1,
    tf := { Trapframe.zero with esp := 0x7fffffc0 } }

def sampleKernel (km : Kmem) (d : Pgdir) : Kernel :=
  (Kernel.blank km).modify 0 fun _ => sampleProc d

theorem sampleKernel_proc (km : Kmem) (d : Pgdir) : (sampleKernel km d).proc 0 = sampleProc d :=
  Kernel.modify_self _ _ _

theorem sampleKernel_sz (km : Kmem) (d : Pgdir) : ((sampleKernel km d).proc 0).sz = pgsize := by
  rw [sampleKernel_proc]
  rfl

theorem sampleKernel_stackPsize (km : Kmem) (d : Pgdir) :
    ((sampleKernel km d).proc 0).stackPsize = 1 := by
  rw [sampleKernel_proc]
  rfl

/-- The argument words of the sample process are zero. -/
theorem sample_image : ∃ km d, UserImage sampleLinkage (sampleKernel km d) 0 d ∧
    ∀ va, 0x7ffff000 ≤ va → va < kernbase → byteAt km d va = 0 := by
  have owned := sample_owned
  generalize bareAt : bareDir (BitVec.ofNat 20 0x1008) = bare at owned
  have blank : ∀ va, bare.lookup va = none := by
    rw [← bareAt]
    exact fun _ => rfl
  have few : ∀ (d : Pgdir) (va : Nat), d.missing {pdx va} ≤ 1 :=
    fun d va => Finset.card_filter_le _ _
  have eight : (sampleKmem 8).freelist.length = 8 := sampleKmem_length 8
  have enough₁ : 1 + bare.missing {pdx 0} ≤ (sampleKmem 8).freelist.length := by
    have one := few bare 0
    omega
  obtain ⟨km₁, d₁, ran₁⟩ := mapFresh_succeeds (pteW ||| pteU) (writes_fill 0) rfl (by decide)
    (blank 0) enough₁
  obtain ⟨heap, _, _, mapped₁, _⟩ := mapFresh_mapped (writes_fill 0) rfl (by decide) ran₁
  have owned₁ := owned.of_conserved mapped₁.conserved
  have lookup₁ : ∀ va, va < kernbase → d₁.lookup va =
      if va / pgsize = 0 then some ⟨heap, pteW ||| pteU ||| pteP⟩ else none := by
    intro va user
    rw [mapped₁.lookup va (Nat.lt_trans user (by decide)), blank]
    rfl
  have enough₂ : 1 + d₁.missing {pdx 0x7ffff000} ≤ km₁.freelist.length := by
    have one := few d₁ 0x7ffff000
    have counted := mapped₁.counted {pdx 0} (Finset.mem_singleton_self _)
    have before := few bare 0
    omega
  obtain ⟨km, d, ran⟩ := mapFresh_succeeds (pteW ||| pteU) (writes_fill 0)
    (by decide : 0x7ffff000 % pgsize = 0) (by decide) (lookup₁ 0x7ffff000 (by decide)) enough₂
  obtain ⟨stack, km₂, _, mapped, filled⟩ :=
    mapFresh_mapped (writes_fill 0) (by decide) (by decide) ran
  have zero : km.mem stack = fun _ => 0 := by
    rw [filled owned₁.freelist_nodup]
    exact Function.update_self _ _ _
  have lookup : ∀ va, va < kernbase → d.lookup va =
      if va / pgsize = 0x7ffff then some ⟨stack, pteW ||| pteU ||| pteP⟩
      else if va / pgsize = 0 then some ⟨heap, pteW ||| pteU ||| pteP⟩ else none := by
    intro va user
    rw [mapped.lookup va (Nat.lt_trans user (by decide)), lookup₁ va user]
    rfl
  refine ⟨km, d, ⟨?_, owned₁.of_conserved mapped.conserved, ?_, fun va pte user found => ?_⟩,
    fun va above user => ?_⟩
  · rw [sampleKernel_proc]
    rfl
  · rw [sampleKernel_sz, sampleKernel_stackPsize]
    refine ⟨by decide, by decide, fun va user => ?_⟩
    rw [lookup va user]
    change va < 2147483648 at user
    have heapEnd : pgRoundUp pgsize = 4096 := by decide
    have stackStart : kernbase - 1 * pgsize = 2147479552 := by decide
    rw [heapEnd, stackStart]
    simp only [pgsize]
    split
    · exact iff_of_true rfl (.inr (by omega))
    · split
      · exact iff_of_true rfl (.inl (by omega))
      · exact iff_of_false Bool.false_ne_true (by omega)
  · rw [lookup va user] at found
    split at found
    · cases found
      exact Pte.user_stack stack
    · split at found
      · cases found
        exact Pte.user_stack heap
      · cases found
  · unfold byteAt
    rw [lookup va user]
    change va < 2147483648 at user
    rw [if_pos (by change va / 4096 = 524287; omega)]
    exact congrFun zero _

/-- The first argument of the sample process is the null pointer. -/
theorem sample_word {km : Kmem} {d : Pgdir}
    (zero : ∀ va, 0x7ffff000 ≤ va → va < kernbase → byteAt km d va = 0) :
    argAddr (sampleKernel km d) 0 0 = 0x7fffffc4 ∧ wordAt km d 0x7fffffc4 = 0 := by
  refine ⟨?_, ?_⟩
  · unfold argAddr
    rw [sampleKernel_proc]
    rfl
  · unfold wordAt
    rw [zero _ (by decide) (by decide), zero _ (by decide) (by decide),
      zero _ (by decide) (by decide), zero _ (by decide) (by decide)]
    rfl

/-- Its argument word is mapped, so the stack does not grow for it. -/
theorem sample_growth {km : Kmem} {d : Pgdir}
    (image : UserImage sampleLinkage (sampleKernel km d) 0 d) :
    growth d ((sampleKernel km d).proc 0).stackPsize 0x7fffffc4 = 0 := by
  have present : ∀ va, 0x7ffff000 ≤ va → va < kernbase → (d.lookup va).isSome = true := by
    intro va above user
    refine (image.layout.exact va user).mpr (.inr ?_)
    rw [sampleKernel_stackPsize]
    exact above
  unfold growth reach
  rw [if_pos (present _ (by decide) (by decide)), if_pos (present _ (by decide) (by decide))]
  rfl

/-- The first page of the sample process is accepted, and backed. -/
theorem fetch_backed_heap : ∃ s d, UserImage sampleLinkage s 0 d ∧
    (Fetch.argptr 0 4096).Typed ∧ (Fetch.argptr 0 4096).Backed sampleLinkage s 0 := by
  obtain ⟨km, d, image, zero⟩ := sample_image
  obtain ⟨addr, word⟩ := sample_word zero
  have typed : (Fetch.argptr 0 4096).Typed := ⟨by decide, by decide⟩
  refine ⟨_, d, image, typed, (fetch_backed_iff image _ typed).mpr ?_⟩
  change RangeAvoidsHole _ 0 d (argAddr (sampleKernel km d) 0 0) 4096
  rw [addr]
  intro _ _ _ va _ below
  change va < wordAt km d 0x7fffffc4 + 4096 at below
  rw [word] at below
  refine .inl ?_
  rw [sampleKernel_sz]
  exact below

/-- Two pages from address zero are accepted, but the second one is not mapped. -/
theorem argptr_accepts_hole : ∃ s d, UserImage sampleLinkage s 0 d ∧
    (Fetch.argptr 0 8192).Typed ∧ ¬ (Fetch.argptr 0 8192).Backed sampleLinkage s 0 := by
  obtain ⟨km, d, image, zero⟩ := sample_image
  obtain ⟨addr, word⟩ := sample_word zero
  have small := sample_growth image
  refine ⟨_, d, image, ⟨by decide, by decide⟩, fun backed => ?_⟩
  have avoids : RangeAvoidsHole (sampleKernel km d) 0 d (argAddr (sampleKernel km d) 0 0) 8192 :=
    (argptr_backed_iff image (by decide) (by decide)).mp backed
  unfold RangeAvoidsHole at avoids
  change _ → _ → wordAt km d _ + 8192 ≤ _ → ∀ va, wordAt km d _ ≤ va →
    va < wordAt km d _ + 8192 → _ at avoids
  rw [addr, word, small, sampleKernel_sz, sampleKernel_stackPsize] at avoids
  have inside := avoids (by decide) ⟨.inl rfl, Nat.zero_le _⟩ (by decide) 4096 (by decide)
    (by decide)
  exact absurd inside (by decide)

end SlabStudy.Xv6
