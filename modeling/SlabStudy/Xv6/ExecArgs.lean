import SlabStudy.Xv6.ExecHeap

/-!
# The argument stack

`exec` pushes the strings one below the other, each at a word, and then the
vector with the pointers to them.  A copy begins at its lowest address, and the
page below the stack is not there; so whatever has been copied is in the one
page of the stack.
-/

namespace SlabStudy.Xv6

open Library

variable {null : Option Pte} {ld : Linkage} {km km' : Kmem} {d d' : Pgdir} {sz va : Nat}

/-! ## Pages that no copy passes -/

/-- The page has an entry, which is not for the user. -/
def Pgdir.Refuses (d : Pgdir) (va : Nat) : Prop :=
  ∃ pte, d.pte? va = some pte ∧ (pte.present && pte.user) = false

/-- A store through the null pointer gives no page to the user. -/
theorem Pgdir.Refuses.strike {frame : Frame} {start : Nat} {bytes : List UInt8}
    (refuses : d.Refuses va) (struck : d.strike frame start bytes = some d') : d'.Refuses va := by
  obtain ⟨pte, entry, refused⟩ := refuses
  obtain ⟨i, tab, here, thinned, rfl⟩ := Pgdir.strike_eq_some struck
  obtain ⟨tab', table, rfl⟩ := Option.map_eq_some_iff.mp entry
  unfold Pgdir.Refuses Pgdir.pte?
  dsimp only
  by_cases same : pdx va = i
  · subst same
    rw [Function.update_self]
    cases here.symm.trans table
    refine ⟨(tab.struck start bytes).pte (ptx va), rfl, ?_⟩
    cases present : ((tab.struck start bytes).pte (ptx va)).present with
    | false => rfl
    | true =>
        have same := thinned _ present
        rw [same] at present ⊢
        rw [present] at refused
        exact refused
  · rw [Function.update_of_ne same, table]
    exact ⟨_, rfl, refused⟩

/-- A copy that succeeds ends below every such page that it does not begin above. -/
theorem copyout_below {bytes : List UInt8} {page : Nat} (some : bytes ≠ []) (bound : va < 2 ^ 32)
    (aligned : page % pgsize = 0) (limit : page < 2 ^ 32) (refuses : d.Refuses page)
    (order : pgRoundDown va ≤ page)
    (ran : copyout null d va bytes km = .ok (true, km', d')) : va + bytes.length ≤ page := by
  fun_induction copyout null d va bytes km with
  | case1 => exact absurd rfl some
  | case2 d va km first rest ih =>
      obtain ⟨place, found, tail⟩ := Kern.bind_eq_ok.mp ran
      cases place with
      | none => cases tail
      | some frame =>
          obtain ⟨⟨km₁, d₁⟩, stored, tail⟩ := Kern.bind_eq_ok.mp tail
          have low : pgRoundDown va < page := by
            refine Nat.lt_of_le_of_ne order fun same => ?_
            obtain ⟨pte, entry, refused⟩ := refuses
            unfold uva2ka at found
            rw [same, entry, Option.some_or] at found
            dsimp only at found
            rw [refused] at found
            cases found
          have refuses₁ : d₁.Refuses page := by
            unfold copyInto at stored
            split at stored
            · cases stored
              exact refuses
            · split at stored
              · next struck =>
                  cases stored
                  exact refuses.strike struck
              · cases stored
          have size : (first :: rest).length = rest.length + 1 := rfl
          change copyout null d₁ _ _ _ = _ at tail
          generalize moved : min (pgsize - va % pgsize) (rest.length + 1) = n at tail ih
          rw [size]
          by_cases last : (first :: rest).drop n = []
          · rw [List.drop_eq_nil_iff, size] at last
            simp only [pgRoundDown, pgsize] at *
            omega
          · have onward : pgRoundDown ((pgRoundDown va + pgsize) % 2 ^ 32) ≤ page := by
              simp only [pgRoundDown, pgsize] at low aligned ⊢
              omega
            have next := ih km₁ d₁ last (Nat.mod_lt _ (by decide)) refuses₁ onward tail
            rw [List.length_drop, size] at next
            simp only [pgRoundDown, pgsize] at low aligned next moved
            omega

/-! ## The stack page -/

/-- A directory with a heap from address zero on and one stack page. -/
structure OneStack (ld : Linkage) (km : Kmem) (d : Pgdir) (sz : Nat) : Prop where
  owned : Owned ld km d
  maps : MapsKernel ld d
  layout : Layout d sz 1
  only : d.UserOnly

/-- The page for the stack is mapped, and the heap is kept. -/
theorem HeapOnly.stack {result : Nat} (heap : HeapOnly ld km d sz)
    (ran : Xv6.allocuvm ld km d (pgRoundUp (stackbase - pgsize)) stackbase = .ok (result, km', d'))
    (positive : result ≠ 0) :
    OneStack ld km' d' sz ∧
      ∀ va, va < pgRoundUp sz → userByte km' d' va = userByte km d va := by
  obtain ⟨grows, only, _⟩ := allocuvm_fresh heap.owned heap.only ran positive
  have layout : Layout d' sz 1 := by
    rcases allocuvm_cases heap.owned ran with
      ⟨high, _⟩ | ⟨shorter, _⟩ | ⟨_, _, _, extended⟩ | ⟨_, _, zero, _⟩
    · exact absurd high (by decide)
    · exact absurd shorter (by decide)
    · exact heap.layout.firstStack extended
    · exact absurd zero positive
  refine ⟨⟨(allocuvm_reworks heap.owned ran).owned heap.owned,
    (allocuvm_sameKernel ran).maps heap.maps, layout, only⟩, fun va inside => ?_⟩
  obtain ⟨pte, found⟩ := Option.isSome_iff_exists.mp (heap.present inside)
  have few := heap.heap_le
  have low : va < kernbase := by
    simp only [phystop, kernbase] at *
    omega
  have here : userByte km d va = some (km.cell (pte.addr, Fin.ofNat pgsize va)) :=
    userByte_eq_some_iff.mpr ⟨_, heap.only.place low found, rfl⟩
  rw [here]
  exact grows.userByte heap.owned low here

namespace OneStack

theorem heap_le (stack : OneStack ld km d sz) : pgRoundUp sz ≤ phystop :=
  stack.owned.heap_le stack.layout

/-- Between the heap and the stack no byte has a place. -/
theorem hole (stack : OneStack ld km d sz) (above : pgRoundUp sz ≤ va) (below : va < stackPage) :
    d.place va = none := by
  cases here : d.place va with
  | none => rfl
  | some c =>
      have low : va < kernbase := Nat.lt_of_lt_of_le below (by decide)
      rcases (stack.layout.exact va low).mp (Pgdir.lookup_of_place here) with heap | page
      · omega
      · rw [Nat.one_mul] at page
        exact absurd page (Nat.not_le.mpr below)

/-- No copy passes the page below the stack page. -/
theorem refuses_below (stack : OneStack ld km d sz) : d.Refuses (stackPage - pgsize) := by
  have few := stack.heap_le
  obtain ⟨pte, found⟩ := Option.isSome_iff_exists.mp
    ((stack.layout.exact stackPage (by decide)).mpr (.inr (by decide)))
  obtain ⟨tab, table, _⟩ := Option.map_eq_some_iff.mp (Pgdir.lookup_eq_some_iff.mp found).1
  have entry : d.pte? (stackPage - pgsize) = some (tab.pte (ptx (stackPage - pgsize))) := by
    have same : pdx (stackPage - pgsize) = pdx stackPage := by decide
    unfold Pgdir.pte?
    rw [same, table]
    rfl
  refine ⟨_, entry, Bool.eq_false_iff.mpr fun allowed => ?_⟩
  have absent := stack.hole (Nat.le_trans few (by decide))
    (by decide : stackPage - pgsize < stackPage)
  rw [Pgdir.place, entry, Option.filter, if_pos allowed] at absent
  cases absent

/-- Nor a page of the kernel. -/
theorem refuses_kernel (stack : OneStack ld km d sz) {row : Kmap} (member : row ∈ kmap ld)
    (kernel : kernbase ≤ va) (bound : va < 2 ^ 32) (covers : row.Covers va) : d.Refuses va := by
  have mapped := stack.maps va kernel bound
  cases found : d.lookup va with
  | none =>
      rw [found, prescribed, eq_comm, Option.map_eq_none_iff, List.find?_eq_none] at mapped
      exact absurd (decide_eq_true covers) (mapped row member)
  | some pte =>
      refine ⟨pte, (Pgdir.lookup_eq_some_iff.mp found).1, ?_⟩
      rw [stack.maps.no_user kernel bound found, Bool.and_false]

/-- A copy that succeeds and ends near the stack page or above it lies in it. -/
theorem copy_inside (stack : OneStack ld km d sz) {bytes : List UInt8} (some : bytes ≠ [])
    (user : va < kernbase) (near : stackPage < va + bytes.length + 16)
    (ran : Xv6.copyout null d va bytes km = .ok (true, km', d')) :
    stackPage ≤ va ∧ va + bytes.length ≤ kernbase := by
  have bound : va < 2 ^ 32 := Nat.lt_trans user (by decide)
  constructor
  · by_contra low
    have ends := copyout_below some bound (by decide) (by decide) stack.refuses_below (by
      simp only [pgRoundDown, stackPage, kernbase, pgsize] at *
      omega) ran
    simp only [stackPage, kernbase, pgsize] at *
    omega
  · have first : (⟨kernbase, 0, extmem, pteW⟩ : Kmap) ∈ kmap ld := List.mem_cons_self
    refine copyout_below some bound (by decide) (by decide)
      (stack.refuses_kernel first (Nat.le_refl _) (by decide) ⟨Nat.le_refl _, by decide⟩) ?_ ran
    exact Nat.le_of_lt (Nat.lt_of_le_of_lt (pgRoundDown_le va) user)

/-- A copy that succeeds in the kernel half does not wrap around. -/
theorem copy_kernel (stack : OneStack ld km d sz) {bytes : List UInt8} (some : bytes ≠ [])
    (bound : va < 2 ^ 32) (ran : Xv6.copyout null d va bytes km = .ok (true, km', d')) :
    va + bytes.length ≤ 2 ^ 32 - pgsize := by
  have last : (⟨devspace, devspace, 0, pteW⟩ : Kmap) ∈ kmap ld := by
    unfold kmap
    simp
  refine copyout_below some bound (by decide) (by decide)
    (stack.refuses_kernel last (by decide) (by decide) ⟨by decide, by decide⟩) ?_ ran
  simp only [pgRoundDown, pgsize]
  omega

/-- A copy into the page succeeds, whatever is at user address 0. -/
theorem copyout_returns (stack : OneStack ld km d sz) (bytes : List UInt8) (low : stackPage ≤ va)
    (limit : va + bytes.length ≤ kernbase) :
    ∃ km', (∀ null, copyout null d va bytes km = .ok (true, km', d)) ∧
      (∀ i < bytes.length, (d.place (va + i)).isSome = true) ∧
      Deposited d.place va bytes km.cell km'.cell ∧ km'.freelist = km.freelist := by
  rcases copyout_cases d km limit with
    ⟨km', ran, written⟩ | ⟨n, inside, _, absent, _⟩
  · exact ⟨km', ran, written⟩
  · have user : va + n < kernbase := by omega
    have page : kernbase - 1 * pgsize ≤ va + n := Nat.le_trans low (Nat.le_add_right va n)
    obtain ⟨pte, found⟩ :=
      Option.isSome_iff_exists.mp ((stack.layout.exact _ user).mpr (.inr page))
    rw [stack.only.place user found] at absent
    cases absent

/-- A copy that succeeds has written its bytes, all of them into user pages. -/
theorem copyout_true (stack : OneStack ld km d sz) {bytes : List UInt8} (low : stackPage ≤ va)
    (limit : va + bytes.length ≤ kernbase)
    (ran : Xv6.copyout null d va bytes km = .ok (true, km', d')) :
    d' = d ∧ (∀ other, Xv6.copyout other d va bytes km = .ok (true, km', d)) ∧
      (∀ i < bytes.length, (d.place (va + i)).isSome = true) ∧
      Deposited d.place va bytes km.cell km'.cell := by
  obtain ⟨km₁, all, placed, deposited, _⟩ := stack.copyout_returns bytes low limit
  cases ran.symm.trans (all null)
  exact ⟨rfl, all, placed, deposited⟩

/-- Storing keeps the layout. -/
theorem copyout {bytes : List UInt8} {copied : Bool} (stack : OneStack ld km d sz)
    (bound : va < 2 ^ 32) (ran : ∀ null, copyout null d va bytes km = .ok (copied, km', d')) :
    OneStack ld km' d sz :=
  ⟨(copyout_reworks stack.maps quiet_zero bound (ran _)).owned stack.owned, stack.maps, stack.layout,
    stack.only⟩

end OneStack

/-! ## The strings -/

/-- The strings lie one below the other at the addresses; the last one begins at `sp`. -/
inductive Pushed (read : Nat → Option UInt8) : List (List UInt8) → List Nat → Nat → Prop where
  | nil : Pushed read [] [] stackbase
  | push {strings : List (List UInt8)} {addrs : List Nat} {sp a : Nat} {string : List UInt8}
      (above : Pushed read strings addrs sp) (fits : a + (string.length + 1) ≤ sp)
      (bytes : BytesAt read a (string ++ [0])) :
      Pushed read (strings ++ [string]) (addrs ++ [a]) a

namespace Pushed

variable {read read' : Nat → Option UInt8} {strings : List (List UInt8)} {addrs : List Nat}
  {sp : Nat}

theorem le_stackbase (stacked : Pushed read strings addrs sp) : sp ≤ stackbase := by
  induction stacked with
  | nil => exact Nat.le_refl _
  | push _ fits _ ih => omega

theorem length_eq (stacked : Pushed read strings addrs sp) : addrs.length = strings.length := by
  induction stacked with
  | nil => rfl
  | push _ _ _ ih => rw [List.length_append, List.length_append, ih]; rfl

/-- What is below the last string does not matter. -/
theorem congr (stacked : Pushed read strings addrs sp)
    (same : ∀ va, sp ≤ va → va < kernbase → read' va = read va) :
    Pushed read' strings addrs sp := by
  induction stacked with
  | nil => exact .nil
  | @push strings addrs sp a string above fits bytes ih =>
      have limit := above.le_stackbase
      refine .push (ih fun va high => same va (by omega)) fits fun i byte found => ?_
      have inside := (List.getElem?_eq_some_iff.mp found).1
      rw [List.length_append, List.length_singleton] at inside
      rw [same (a + i) (by omega) (by simp only [stackbase] at limit; omega)]
      exact bytes i byte found

/-- Every string is where its address says, between the last one and the top. -/
theorem string (stacked : Pushed read strings addrs sp) {i a : Nat} {string : List UInt8}
    (addr : addrs[i]? = some a) (found : strings[i]? = some string) :
    BytesAt read a (string ++ [0]) ∧ sp ≤ a ∧ a + (string.length + 1) ≤ stackbase := by
  induction stacked with
  | nil => cases addr
  | @push strings addrs sp b last above fits bytes ih =>
      have limit := above.le_stackbase
      have equal := above.length_eq
      by_cases earlier : i < addrs.length
      · rw [List.getElem?_append_left earlier] at addr
        rw [List.getElem?_append_left (by omega)] at found
        obtain ⟨there, low, high⟩ := ih addr found
        exact ⟨there, by omega, high⟩
      · have inside := (List.getElem?_eq_some_iff.mp addr).1
        rw [List.length_append, List.length_singleton] at inside
        obtain rfl : i = addrs.length := by omega
        rw [List.getElem?_concat_length] at addr
        rw [equal, List.getElem?_concat_length] at found
        cases addr
        cases found
        exact ⟨bytes, Nat.le_refl _, by omega⟩

end Pushed

/-- One string is pushed. -/
theorem OneStack.push {arg : List UInt8} {sp a : Nat} (stack : OneStack ld km d sz)
    (low : stackPage ≤ sp) (high : sp ≤ stackbase)
    (next : a = (sp + 2 ^ 32 - (arg.length + 1) % 2 ^ 32) % 2 ^ 32 / 4 * 4)
    (ran : Xv6.copyout null d a (arg ++ [0]) km = .ok (true, km', d')) :
    OneStack ld km' d sz ∧ stackPage ≤ a ∧ a + (arg.length + 1) ≤ sp ∧
      BytesAt (userByte km' d) a (arg ++ [0]) ∧
      (∀ va, va < kernbase → (va < a ∨ sp ≤ va) → userByte km' d va = userByte km d va) ∧
      d' = d ∧ ∀ other, Xv6.copyout other d a (arg ++ [0]) km = .ok (true, km', d) := by
  have bound : a < 2 ^ 32 := by omega
  have length : (arg ++ [0]).length = arg.length + 1 := List.length_append
  have filled : arg ++ [0] ≠ [] := List.append_ne_nil_of_right_ne_nil _ (List.cons_ne_nil _ _)
  have user : a < kernbase := by
    by_contra kernel
    have limit := stack.copy_kernel filled bound ran
    rw [length] at limit
    simp only [stackPage, stackbase, kernbase, pgsize] at *
    omega
  have near : stackPage < a + (arg ++ [0]).length + 16 := by
    rw [length]
    simp only [stackPage, stackbase, kernbase, pgsize] at *
    omega
  obtain ⟨inside, limit⟩ := stack.copy_inside filled user near ran
  obtain ⟨same, all, placed, deposited⟩ := stack.copyout_true inside limit ran
  have kept := fun va low apart => stack.owned.deposited_kept va limit deposited low apart
  have bytes := stack.owned.deposited_bytes limit placed deposited
  rw [length] at limit placed kept
  have ends : a + (arg.length + 1) ≤ sp := by
    simp only [stackPage, stackbase, kernbase, pgsize] at *
    omega
  refine ⟨stack.copyout bound all, inside, ends, bytes, fun va user apart => kept va user ?_,
    same, all⟩
  omega

/-- The loop pushes the strings in their order, whatever is at user address 0. -/
theorem OneStack.pushArgs {argv strings : List (List UInt8)} {addrs addrs' : List Nat}
    {sp sp' : Nat} (stack : OneStack ld km d sz) (low : stackPage ≤ sp)
    (few : addrs.length ≤ maxarg) (stacked : Pushed (userByte km d) strings addrs sp)
    (ran : pushArgs null d argv sp addrs km = .ok (some (sp', addrs'), km', d')) :
    OneStack ld km' d sz ∧ stackPage ≤ sp' ∧ addrs'.length ≤ maxarg ∧
      Pushed (userByte km' d) (strings ++ argv) addrs' sp' ∧
      (∀ va, va < stackPage → userByte km' d va = userByte km d va) ∧
      d' = d ∧ ∀ other, pushArgs other d argv sp addrs km = .ok (some (sp', addrs'), km', d) := by
  induction argv generalizing strings addrs sp km with
  | nil =>
      cases ran
      rw [List.append_nil]
      exact ⟨stack, low, few, stacked, fun _ _ => rfl, rfl, fun _ => rfl⟩
  | cons arg rest ih =>
      unfold Xv6.pushArgs at ran ⊢
      split at ran
      · cases ran
      next room =>
      obtain ⟨⟨copied, km₁, d₁⟩, copy, tail⟩ := Kern.bind_eq_ok.mp ran
      cases copied with
      | false => cases tail
      | true =>
          obtain ⟨stack₁, low₁, fits, bytes, kept, rfl, copies⟩ :=
            stack.push low stacked.le_stackbase rfl copy
          have limit := stacked.le_stackbase
          have pushed := (stacked.congr fun va above user => kept va user (.inr above)).push fits bytes
          obtain ⟨stack', low', few', stacked', others, same, pushes⟩ := ih stack₁ low₁ (by
            rw [List.length_append, List.length_singleton]
            omega) pushed tail
          rw [List.append_assoc] at stacked'
          refine ⟨stack', low', few', stacked', fun va below => ?_, same, fun other => ?_⟩
          · rw [others va below, kept va (Nat.lt_of_lt_of_le below (by decide)) (.inl (by omega))]
          · rw [if_neg room]
            exact Kern.bind_eq_ok.mpr ⟨_, copies other, pushes other⟩

/-! ## The vector -/

/-- The word at a user address. -/
def userWord (read : Nat → Option UInt8) (va : Nat) : Option Nat := do
  let b0 ← read va
  let b1 ← read (va + 1)
  let b2 ← read (va + 2)
  let b3 ← read (va + 3)
  return b0.toNat + 2 ^ 8 * b1.toNat + 2 ^ 16 * b2.toNat + 2 ^ 24 * b3.toNat

/-- The string at a user address, up to its NUL, which is looked for in `n` bytes. -/
def cstringAt (read : Nat → Option UInt8) : Nat → Nat → Option (List UInt8)
  | 0, _ => none
  | n + 1, va => do
      let byte ← read va
      if byte = 0 then return []
      else
        let rest ← cstringAt read n (va + 1)
        return byte :: rest

section Decoding

variable {read : Nat → Option UInt8}

theorem BytesAt.word {word : Nat} (bytes : BytesAt read va (wordBytes word))
    (small : word < 2 ^ 32) : userWord read va = some word := by
  have first : read va = some (.ofNat word) := bytes 0 _ rfl
  have second : read (va + 1) = some (.ofNat (word / 2 ^ 8)) := bytes 1 _ rfl
  have third : read (va + 2) = some (.ofNat (word / 2 ^ 16)) := bytes 2 _ rfl
  have fourth : read (va + 3) = some (.ofNat (word / 2 ^ 24)) := bytes 3 _ rfl
  unfold userWord
  rw [first, second, third, fourth]
  refine congrArg some ?_
  simp only [UInt8.toNat_ofNat']
  omega

/-- Words that are stored in a row. -/
theorem BytesAt.words {words : List Nat} (bytes : BytesAt read va (words.flatMap wordBytes))
    {i word : Nat} (found : words[i]? = some word) (small : word < 2 ^ 32) :
    userWord read (va + 4 * i) = some word := by
  induction words generalizing va i with
  | nil => cases found
  | cons first rest ih =>
      rw [List.flatMap_cons] at bytes
      cases i with
      | zero =>
          cases found
          refine BytesAt.word (fun j byte there => bytes j byte ?_) small
          rw [List.getElem?_append_left (List.getElem?_eq_some_iff.mp there).1]
          exact there
      | succ i =>
          rw [List.getElem?_cons_succ] at found
          have later : BytesAt read (va + 4) (rest.flatMap wordBytes) := by
            intro j byte there
            rw [Nat.add_assoc]
            refine bytes (4 + j) byte ?_
            rw [List.getElem?_append_right (Nat.le_add_right 4 j)]
            exact (congrArg (fun k => (rest.flatMap wordBytes)[k]?) (Nat.add_sub_cancel_left 4 j)).trans
              there
          have next := ih later found
          rw [Nat.add_assoc] at next
          rw [Nat.mul_succ, Nat.add_comm (4 * i) 4]
          exact next

/-- A string that is stored with its NUL is read back. -/
theorem BytesAt.cstring {string : List UInt8} {n : Nat} (bytes : BytesAt read va (string ++ [0]))
    (plain : (0 : UInt8) ∉ string) (room : string.length < n) :
    cstringAt read n va = some string := by
  induction string generalizing va n with
  | nil =>
      obtain ⟨n, rfl⟩ := Nat.exists_eq_succ_of_ne_zero (Nat.ne_zero_of_lt room)
      have first : read va = some 0 := bytes 0 0 rfl
      rw [cstringAt, first]
      rfl
  | cons byte rest ih =>
      rw [List.length_cons] at room
      obtain ⟨n, rfl⟩ := Nat.exists_eq_succ_of_ne_zero (Nat.ne_zero_of_lt room)
      rw [List.mem_cons, not_or] at plain
      have first : read va = some byte := bytes 0 byte rfl
      have later : BytesAt read (va + 1) (rest ++ [0]) := by
        intro i x found
        rw [Nat.add_assoc, Nat.add_comm 1 i]
        exact bytes (i + 1) x found
      have tail := ih later plain.2 (by omega : rest.length < n)
      rw [cstringAt, first]
      change (if byte = 0 then _ else _) = _
      rw [if_neg (Ne.symm plain.1), tail]
      rfl

end Decoding

/-- The vector that `exec` stores, from the fake return address on. -/
def ustack (esp : Nat) (addrs : List Nat) : List Nat :=
  [0xffffffff, addrs.length, esp + 12] ++ addrs ++ [0]

/-- The strings and the vector below them. -/
structure ArgStack (read : Nat → Option UInt8) (argv : List (List UInt8)) (esp : Nat)
    (addrs : List Nat) : Prop where
  few : addrs.length ≤ maxarg
  low : stackPage ≤ esp
  strings : Pushed read argv addrs (esp + 4 * (addrs.length + 4))
  vector : BytesAt read esp ((ustack esp addrs).flatMap wordBytes)

theorem length_words (words : List Nat) : (words.flatMap wordBytes).length = 4 * words.length := by
  induction words with
  | nil => rfl
  | cons word rest ih =>
      rw [List.flatMap_cons, List.length_append, ih, List.length_cons]
      change 4 + 4 * rest.length = _
      omega

/-- What `execStack` has built, whatever is at user address 0, and the heap that it has kept. -/
theorem HeapOnly.execStack {argv : List (List UInt8)} {esp : Nat} (heap : HeapOnly ld km d sz)
    (ran : execStack null ld argv km d = .ok (some esp, km', d')) :
    (∃ addrs, ArgStack (userByte km' d') argv esp addrs) ∧ OneStack ld km' d' sz ∧
      (∀ va, va < pgRoundUp sz → userByte km' d' va = userByte km d va) ∧
      ∀ other, Xv6.execStack other ld argv km d = .ok (some esp, km', d') := by
  obtain ⟨⟨result, km₁, d₁⟩, grown, ran⟩ := Kern.bind_eq_ok.mp ran
  dsimp only at ran
  split at ran
  · cases ran
  next positive =>
  obtain ⟨stack, heapKept⟩ := heap.stack grown positive
  obtain ⟨⟨pushed, km₂, d₂⟩, pushes, tail⟩ := Kern.bind_eq_ok.mp ran
  cases pushed with
  | none => cases tail
  | some pair =>
      obtain ⟨sp, addrs⟩ := pair
      obtain ⟨stack₂, low, few, strings, kept, rfl, pushAlways⟩ :=
        stack.pushArgs (by decide) (Nat.zero_le _) .nil pushes
      obtain ⟨⟨copied, km₃, d₃⟩, copy, last⟩ := Kern.bind_eq_ok.mp tail
      cases copied with
      | false => cases last
      | true =>
          cases last
          have always (other : Option Pte) (vector : Xv6.copyout other d₂
              ((sp + 2 ^ 32 - (3 + addrs.length + 1) * 4) % 2 ^ 32)
              (([0xffffffff, addrs.length, (sp + 2 ^ 32 - (addrs.length + 1) * 4) % 2 ^ 32] ++
                addrs ++ [0]).flatMap wordBytes) km₂ = .ok (true, km₃, d₃)) :
              Xv6.execStack other ld argv km d = .ok
                (some ((sp + 2 ^ 32 - (3 + addrs.length + 1) * 4) % 2 ^ 32), km₃, d₃) := by
            refine Kern.bind_eq_ok.mpr ⟨_, grown, ?_⟩
            dsimp only
            rw [if_neg positive]
            exact Kern.bind_eq_ok.mpr ⟨_, pushAlways other, Kern.bind_eq_ok.mpr ⟨_, vector, rfl⟩⟩
          have high := strings.le_stackbase
          rw [List.nil_append] at strings
          -- neither subtraction wraps around
          have start : (sp + 2 ^ 32 - (3 + addrs.length + 1) * 4) % 2 ^ 32 =
              sp - 4 * (addrs.length + 4) := by
            simp only [stackPage, stackbase, kernbase, pgsize, maxarg] at *
            omega
          have av : (sp + 2 ^ 32 - (addrs.length + 1) * 4) % 2 ^ 32 =
              sp - 4 * (addrs.length + 4) + 12 := by
            simp only [stackPage, stackbase, kernbase, pgsize, maxarg] at *
            omega
          rw [start, av] at copy
          simp only [start, av] at always
          rw [start]
          generalize bottom : sp - 4 * (addrs.length + 4) = esp at copy always
          have top : sp = esp + 4 * (addrs.length + 4) := by
            simp only [stackPage, stackbase, kernbase, pgsize, maxarg] at *
            omega
          change Xv6.copyout null _ esp ((ustack esp addrs).flatMap wordBytes) _ = _ at copy
          have length : ((ustack esp addrs).flatMap wordBytes).length = 4 * (addrs.length + 4) := by
            rw [length_words]
            simp [ustack]
          have user : esp < kernbase := by
            simp only [stackbase, kernbase] at *
            omega
          have filled : (ustack esp addrs).flatMap wordBytes ≠ [] := by
            rw [← List.length_pos_iff, length]
            omega
          obtain ⟨page, limit⟩ := stack₂.copy_inside filled user (by rw [length]; omega) copy
          obtain ⟨rfl, vector, placed, deposited⟩ := stack₂.copyout_true page limit copy
          have bound : esp < 2 ^ 32 := Nat.lt_trans user (by decide)
          have others := fun va low apart =>
            stack₂.owned.deposited_kept va limit deposited low apart
          rw [length] at others
          refine ⟨⟨addrs, few, page, ?_, stack₂.owned.deposited_bytes limit placed deposited⟩,
            stack₂.copyout bound vector, fun va inside => ?_,
            fun other => always other (vector other)⟩
          · rw [← top]
            exact strings.congr fun va above user => others va user (.inr (by omega))
          · have size := stack₂.heap_le
            have gap : phystop < stackPage := by decide
            have user : stackPage < kernbase := by decide
            rw [others va (by omega) (.inl (by omega)), kept va (by omega), heapKept va inside]

/-! ## A small program -/

section Sample

/-- An ELF file with one segment of three bytes, for a page at address zero. -/
def sampleProgram : List UInt8 :=
  [0x7f, 0x45, 0x4c, 0x46] ++ List.replicate 20 0 ++ [2, 0, 0, 0] ++ [52, 0, 0, 0] ++
    List.replicate 12 0 ++ [1, 0] ++ List.replicate 6 0 ++
  [1, 0, 0, 0] ++ [84, 0, 0, 0] ++ List.replicate 8 0 ++ [3, 0, 0, 0] ++ [0, 16, 0, 0] ++
    List.replicate 8 0 ++
  [1, 2, 3]

/-- One absent page is mapped when two pages are free. -/
theorem allocuvm_one (ld : Linkage) {oldsz a : Nat} (order : oldsz ≤ newsz)
    (limit : newsz < kernbase) (single : pageAddrs (pgRoundUp oldsz) newsz = [a])
    (absent : d.lookup a = none) (enough : 2 ≤ km.freelist.length) :
    ∃ km' d', allocuvm ld km d oldsz newsz = .ok (newsz, km', d') ∧
      km.freelist.length ≤ km'.freelist.length + 2 := by
  have member : a ∈ pageAddrs (pgRoundUp oldsz) newsz := by
    rw [single]
    exact List.mem_singleton_self a
  obtain ⟨_, below, aligned⟩ := (mem_pageAddrs (pgRoundUp_mod oldsz)).mp member
  have user := Nat.lt_trans below limit
  have one : d.missing {pdx a} ≤ 1 := Finset.card_filter_le _ _
  obtain ⟨km', d', fresh⟩ := mapFresh_succeeds (pteW ||| pteU) (writes_fill 0) aligned
    (Nat.lt_trans user (by decide)) absent (Nat.le_trans (Nat.add_le_add_left one 1) enough)
  obtain ⟨_, _, _, mapped, _⟩ := mapFresh_mapped (writes_fill 0) aligned user fresh
  have counted := mapped.counted _ (Finset.mem_singleton_self (pdx a))
  refine ⟨km', d', ?_, by omega⟩
  unfold allocuvm
  rw [if_neg (Nat.not_le.mpr limit), if_neg (Nat.not_lt.mpr order), single]
  unfold allocuvmLoop
  rw [fresh]
  rfl

/-- The program is loaded. -/
theorem sample_load {read : Readi} (ld : Linkage) (heap : HeapOnly ld km d 0)
    (program : read 52 32 = some ((sampleProgram.drop 52).take 32))
    (data : read 84 3 = some [1, 2, 3]) (enough : 2 ≤ km.freelist.length) :
    ∃ km' d', execLoad ld read 1 52 0 km d = .ok (some pgsize, km', d') ∧
      km.freelist.length ≤ km'.freelist.length + 2 := by
  obtain ⟨km₁, d₁, grown, left⟩ := allocuvm_one ld (Nat.zero_le pgsize) (by decide)
    (rfl : pageAddrs (pgRoundUp 0) pgsize = [0]) (heap.absent (Nat.le_refl _) (by decide)) enough
  obtain ⟨heap₁, _⟩ := heap.allocuvm grown (by decide)
  obtain ⟨pte, found⟩ := Option.isSome_iff_exists.mp
    (heap₁.present (by decide : 0 < pgRoundUp pgsize))
  have stored : loaduvm read d₁ 0 84 3 km₁ = .ok (true, km₁.store pte.addr 0 [1, 2, 3]) := by
    have walked := walkpgdir_false km₁ d₁ 0
    rw [(Pgdir.lookup_eq_some_iff.mp found).1] at walked
    have pages : pageAddrs 0 3 = [0] := rfl
    rw [loaduvm, if_neg (by decide), pages, loaduvmLoop]
    simp only [Nat.add_zero, Nat.sub_zero, Nat.zero_mod]
    rw [walked]
    simp only [show min 3 pgsize = 3 from rfl, show 84 % 2 ^ 32 = 84 from rfl, data]
    rfl
  refine ⟨km₁.store pte.addr 0 [1, 2, 3], d₁, ?_, left⟩
  have header : Proghdr.parse ((sampleProgram.drop 52).take 32) = ⟨1, 84, 0, 3, pgsize⟩ := rfl
  rw [execLoad, program]
  dsimp only
  rw [header]
  exact Kern.bind_eq_ok.mpr ⟨_, grown, Kern.bind_eq_ok.mpr ⟨_, stored, rfl⟩⟩

/-- One argument of one character is pushed. -/
theorem sample_args (ld : Linkage) (heap : HeapOnly ld km d sz) (enough : 2 ≤ km.freelist.length) :
    ∃ km' d', execStack none ld [[65]] km d = .ok (some 0x7fffffe8, km', d') ∧
      km.freelist.length ≤ km'.freelist.length + 2 := by
  have few := heap.heap_le
  obtain ⟨km₁, d₁, grown, left⟩ := allocuvm_one ld
    (by decide : pgRoundUp (stackbase - pgsize) ≤ stackbase) (by decide)
    (by decide : pageAddrs (pgRoundUp (pgRoundUp (stackbase - pgsize))) stackbase = [stackPage])
    (heap.absent (Nat.le_trans few (by decide)) (by decide)) enough
  obtain ⟨stack, _⟩ := heap.stack grown (by decide)
  obtain ⟨km₂, first, _, _, same⟩ := stack.copyout_returns [65, 0]
    (by decide : stackPage ≤ 0x7ffffffc) (by decide)
  obtain ⟨km₃, second, _, _, same'⟩ := (stack.copyout (by decide) first).copyout_returns
    ([0xffffffff, 1, 0x7ffffff4, 0x7ffffffc, 0].flatMap wordBytes)
    (by decide : stackPage ≤ 0x7fffffe8) (by decide)
  refine ⟨km₃, d₁, Kern.bind_eq_ok.mpr ⟨_, grown, ?_⟩, by rw [same', same]; exact left⟩
  have pushes : pushArgs none d₁ [[65]] stackbase [] km₁ =
      .ok (some (0x7ffffffc, [0x7ffffffc]), km₂, d₁) :=
    Kern.bind_eq_ok.mpr ⟨_, first none, rfl⟩
  exact Kern.bind_eq_ok.mpr ⟨_, pushes, Kern.bind_eq_ok.mpr ⟨_, second none, rfl⟩⟩

/-- A process with a heap of one page and enough free pages runs the program. -/
theorem Started.execs {read : Readi} {s : Kernel} {pages : Nat}
    (header : read 0 52 = some (sampleProgram.take 52))
    (program : read 52 32 = some ((sampleProgram.drop 52).take 32))
    (data : read 84 3 = some [1, 2, 3]) (started : Started s d 0 pages) (enough : 69 ≤ pages) :
    ∃ s' km' d', Owned sampleLinkage s.kmem d ∧
      exec sampleLinkage (some read) "init" [[65]] s 0 = .ok (0, s') ∧
      execReading none sampleLinkage (some read) "init" [[65]] s 0 = .ok (0, s') ∧
      execCommit sampleLinkage s 0 "init" 2 pgsize 0x7fffffe8 km' d' = .ok (0, s') ∧
      pages ≤ km'.freelist.length + 69 ∧ Layout d' pgsize 1 := by
  have inv := Inv.reachable started.reached
  obtain ⟨kstack, d', stack, own⟩ := inv.equipped started.free.running
  cases own.symm.trans started.own
  have owned := inv.memory.owned stack own
  have free := started.enough
  obtain ⟨d₀, km₀, made, left⟩ :=
    setupkvm_succeeds sampleLinkage (by omega : 65 ≤ s.kmem.freelist.length)
  have empty := setupkvm_heap owned.freeOk made
  obtain ⟨km₁, d₁, loaded, left'⟩ := sample_load sampleLinkage empty program data (by omega)
  obtain ⟨km₂, d₂, stacked, left''⟩ :=
    sample_args sampleLinkage (empty.execLoad loaded) (by omega)
  obtain ⟨_, one, _, always⟩ := (empty.execLoad loaded).execStack stacked
  have elf : Elfhdr.parse (sampleProgram.take 52) = ⟨elfMagic, 2, 52, 1⟩ := rfl
  obtain ⟨s', committed⟩ :=
    execCommit_succeeds "init" 2 pgsize 0x7fffffe8 km₂ d₂ stack own owned
  have ran (null : Option Pte) :
      execReading null sampleLinkage (some read) "init" [[65]] s 0 = .ok (0, s') := by
    unfold execReading
    dsimp only
    rw [header]
    dsimp only
    rw [elf, if_neg (not_not.mpr rfl)]
    exact Kern.bind_eq_ok.mpr ⟨_, made, Kern.bind_eq_ok.mpr ⟨_, loaded,
      Kern.bind_eq_ok.mpr ⟨_, always null, committed⟩⟩⟩
  exact ⟨s', km₂, d₂, owned, ran _, ran none, committed, by omega, one.layout⟩

end Sample

/-! ## A call that succeeds -/

section Call

variable {s s' : Kernel} {p : Slot} {file : Option Readi} {read : Readi} {name : String}
  {argv : List (List UInt8)} {old : Pgdir}

/-- What the parts of a call that succeeds have built. -/
structure ExecParts.Sound (parts : ExecParts null ld read name argv s p s') : Prop where
  empty : HeapOnly ld parts.km₀ parts.d₀ 0
  heap : HeapOnly ld parts.km₁ parts.d₁ parts.sz
  stack : OneStack ld parts.km₂ parts.d₂ parts.sz
  args : ∃ addrs, ArgStack (userByte parts.km₂ parts.d₂) argv parts.sp addrs
  kept : ∀ va, va < pgRoundUp parts.sz →
    userByte parts.km₂ parts.d₂ va = userByte parts.km₁ parts.d₁ va
  image : HasImage ld s' p (Elfhdr.parse parts.header).entry parts.sz parts.sp parts.km₂ parts.d₂

end Call

end SlabStudy.Xv6
