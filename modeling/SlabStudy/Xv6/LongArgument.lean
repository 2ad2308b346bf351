import SlabStudy.Xv6.Boot
import SlabStudy.Xv6.NullPointer

/-!
# An argument of four megabytes

The copy of a string that begins below the addresses of the topmost page table
follows the null pointer.  Which pages `setupkvm` and `allocuvm` take depends on
the free list only, so a process can put the page that will be a page table into
its word at address 0; the argument then takes entries out of that table.
-/

namespace SlabStudy.Xv6

variable {ld : Linkage} {km km' km₂ : Kmem} {d d' : Pgdir}

/-! ## What the free list decides -/

theorem walkpgdir_congr {pte : Pte} {va : Nat} (same : km₂.freelist = km.freelist)
    (walked : walkpgdir km d va true = some (pte, km', d')) :
    ∃ km₂', walkpgdir km₂ d va true = some (pte, km₂', d') ∧ km₂'.freelist = km'.freelist := by
  unfold walkpgdir kalloc at walked ⊢
  cases table : d.pde (pdx va) with
  | some tab =>
      rw [table] at walked
      cases walked
      exact ⟨km₂, rfl, same⟩
  | none =>
      rw [table] at walked
      rw [same]
      cases listed : km.freelist with
      | nil =>
          rw [listed] at walked
          cases walked
      | cons frame rest =>
          rw [listed] at walked
          cases walked
          exact ⟨_, rfl, rfl⟩

theorem mappagesLoop_congr {perm : Flags} {pages : List (Nat × Frame)}
    (same : km₂.freelist = km.freelist)
    (ran : mappagesLoop perm pages km d = .ok (true, km', d')) :
    ∃ km₂', mappagesLoop perm pages km₂ d = .ok (true, km₂', d') ∧
      km₂'.freelist = km'.freelist := by
  induction pages generalizing km km₂ d with
  | nil =>
      cases ran
      exact ⟨km₂, rfl, same⟩
  | cons page rest ih =>
      rcases mappagesLoop_cons ran with ⟨_, impossible, _⟩ | ⟨pte, km₁, d₁, walked, absent, later⟩
      · cases impossible
      · obtain ⟨km₃, walked', same'⟩ := walkpgdir_congr same walked
        unfold mappagesLoop
        rw [walked']
        dsimp only
        rw [if_neg (by rw [absent]; exact Bool.false_ne_true)]
        exact ih same' later

theorem setupkvmLoop_congr {rows : List Kmap} (same : km₂.freelist = km.freelist)
    (ran : setupkvmLoop ld rows km d = .ok (some d', km')) :
    ∃ km₂', setupkvmLoop ld rows km₂ d = .ok (some d', km₂') ∧ km₂'.freelist = km'.freelist := by
  induction rows generalizing km km₂ d with
  | nil =>
      cases ran
      exact ⟨km₂, rfl, same⟩
  | cons row rest ih =>
      obtain ⟨⟨done, km₁, d₁⟩, mapped, tail⟩ := Kern.bind_eq_ok.mp ran
      cases done with
      | false =>
          obtain ⟨_, _, impossible⟩ := Kern.bind_eq_ok.mp tail
          cases impossible
      | true =>
          obtain ⟨km₃, mapped', same'⟩ := mappagesLoop_congr same mapped
          obtain ⟨km₂', rest', listed⟩ := ih same' tail
          exact ⟨km₂', Kern.bind_eq_ok.mpr ⟨_, mapped', rest'⟩, listed⟩

/-- The content of the memory does not matter to `setupkvm`. -/
theorem setupkvm_congr (same : km₂.freelist = km.freelist)
    (ran : setupkvm ld km = .ok (some d, km')) :
    ∃ km₂', setupkvm ld km₂ = .ok (some d, km₂') ∧ km₂'.freelist = km'.freelist := by
  unfold setupkvm kalloc at ran ⊢
  rw [same]
  cases listed : km.freelist with
  | nil =>
      rw [listed] at ran
      cases ran
  | cons frame rest =>
      rw [listed] at ran
      dsimp only at ran ⊢
      rw [if_neg (by decide)] at ran ⊢
      refine setupkvmLoop_congr ?_ ran
      rfl

/-! ## Tables of the user half -/

theorem mappagesLoop_pde {perm : Flags} {pages : List (Nat × Frame)} {done : Bool}
    {i : Fin npdentries} (apart : ∀ page ∈ pages, pdx page.1 ≠ i)
    (ran : mappagesLoop perm pages km d = .ok (done, km', d')) : d'.pde i = d.pde i := by
  induction pages generalizing km d with
  | nil =>
      cases ran
      rfl
  | cons page rest ih =>
      have here := apart page List.mem_cons_self
      rcases mappagesLoop_cons ran with ⟨_, _, _, rfl⟩ | ⟨pte, km₁, d₁, walked, _, later⟩
      · rfl
      · rw [ih (fun page member => apart page (List.mem_cons_of_mem _ member)) later]
        change Function.update _ _ _ i = _
        rw [Function.update_of_ne here.symm]
        rcases walkpgdir_true_cases walked with ⟨_, rfl, _⟩ | ⟨_, _, frame, rfl, _⟩
        · rfl
        · exact Function.update_of_ne here.symm _ _

/-- `setupkvm` makes no page table of the user half. -/
theorem setupkvm_pde {i : Fin npdentries} (user : i.val < 512)
    (ran : setupkvm ld km = .ok (some d, km')) : d.pde i = none := by
  have loop {rows : List Kmap} {lasts : List Nat} (spans : List.Forall₂ Kmap.Spans rows lasts)
      {km : Kmem} {d₀ : Pgdir} (ran : setupkvmLoop ld rows km d₀ = .ok (some d, km')) :
      d.pde i = d₀.pde i := by
    induction spans generalizing km d₀ with
    | nil =>
        cases ran
        rfl
    | @cons row last rows lasts here _ ih =>
        obtain ⟨⟨done, km₁, d₁⟩, mapped, tail⟩ := Kern.bind_eq_ok.mp ran
        rw [here.pages] at mapped
        have apart : ∀ page ∈ mapAddrs row.virt last
            (BitVec.ofNat 20 (row.physStart / pgsize)), pdx page.1 ≠ i := by
          rintro page member rfl
          obtain ⟨kernel, bound⟩ := here.kernel page member
          exact absurd ((pdx_lt_iff bound).mp user) (Nat.not_lt.mpr kernel)
        have same := mappagesLoop_pde apart mapped
        cases done with
        | false =>
            obtain ⟨_, _, impossible⟩ := Kern.bind_eq_ok.mp tail
            cases impossible
        | true => rw [ih tail, same]
  unfold setupkvm kalloc at ran
  cases listed : km.freelist with
  | nil =>
      rw [listed] at ran
      cases ran
  | cons frame rest =>
      rw [listed] at ran
      dsimp only at ran
      rw [if_neg (by decide)] at ran
      exact loop (kmap_spans ld) ran

/-! ## The stack page -/

/-- The first address of the stack page. -/
abbrev stackPage : Nat := kernbase - pgsize

/-- The directory with a new table for the stack and its page. -/
def Pgdir.withStack (d : Pgdir) (page table : Frame) : Pgdir :=
  (d.addTable stackPage table).setPte stackPage ⟨page, pteW ||| pteU ||| pteP⟩

theorem freelist_two (enough : 2 ≤ km.freelist.length) :
    ∃ page table rest, km.freelist = page :: table :: rest := by
  obtain ⟨page, tail, whole⟩ := List.exists_cons_of_length_pos (Nat.lt_of_lt_of_le Nat.two_pos enough)
  rw [whole, List.length_cons] at enough
  obtain ⟨table, rest, rfl⟩ := List.exists_cons_of_length_pos (Nat.lt_of_succ_lt_succ enough)
  exact ⟨page, table, rest, whole⟩

/-- The page for the stack and its table are the first two free pages. -/
theorem allocuvm_stack (ld : Linkage) {page table : Frame} {rest : List Frame}
    (listed : km.freelist = page :: table :: rest) (missing : d.pde (pdx stackPage) = none) :
    ∃ km', allocuvm ld km d (pgRoundUp (stackbase - pgsize)) stackbase =
      .ok (stackbase, km', d.withStack page table) ∧ km'.freelist = rest := by
  have taken : kalloc km = some (page, { km with freelist := table :: rest }) :=
    kalloc_eq_some_iff.mpr ⟨listed, rfl⟩
  have walked : walkpgdir (({ km with freelist := table :: rest } : Kmem).fill page 0) d stackPage
      true = some (Pte.zero, (({ km with freelist := rest } : Kmem).fill page 0).fill table 0,
        d.addTable stackPage table) := by
    unfold walkpgdir
    rw [missing]
    rfl
  have fresh : mapFresh km d stackPage (fun km mem => km.fill mem 0) (pteW ||| pteU) =
      .ok (.mapped ((({ km with freelist := rest } : Kmem).fill page 0).fill table 0)
        (d.withStack page table)) := by
    rw [mapFresh_of_kalloc (by decide) (by decide) taken, mappagesLoop, walked]
    rfl
  refine ⟨(({ km with freelist := rest } : Kmem).fill page 0).fill table 0, ?_, rfl⟩
  unfold allocuvm
  rw [if_neg (by decide), if_neg (by decide),
    (by decide : pageAddrs (pgRoundUp (pgRoundUp (stackbase - pgsize))) stackbase = [stackPage]),
    allocuvmLoop, fresh]
  rfl

namespace Pgdir

theorem withStack_frames {page table : Frame} (missing : d.pde (pdx stackPage) = none) :
    (d.withStack page table).frames = d.frames + {table} + {page} := by
  have traded := setPte_frames ⟨page, pteW ||| pteU ||| pteP⟩ (by decide : stackPage < kernbase)
    (pte?_addTable_self d stackPage table)
  rw [Pte.zero_frames, add_zero, addTable_frames table missing] at traded
  rw [withStack, traded, Pte.frames, if_pos (Pte.present_or_pteP page (pteW ||| pteU))]

/-- Another directory entry is as it was. -/
theorem withStack_pde {page table : Frame} {i : Fin npdentries} (other : i ≠ pdx stackPage) :
    (d.withStack page table).pde i = d.pde i :=
  (Function.update_of_ne other _ _).trans (Function.update_of_ne other _ _)

/-- The new table, with its one entry. -/
theorem withStack_table (d : Pgdir) (page table : Frame) :
    ∃ tab, (d.withStack page table).pde (pdx stackPage) = some tab ∧ tab.frame = table ∧
      tab.pte (ptx stackPage) = ⟨page, pteW ||| pteU ||| pteP⟩ := by
  unfold withStack setPte addTable
  dsimp only
  rw [Function.update_self, Function.update_self, Option.map_some]
  refine ⟨_, rfl, rfl, ?_⟩
  exact Function.update_self (ptx stackPage) _ (PgTab.empty table).pte

/-- The other entries of the new table are empty. -/
theorem withStack_pte? (d : Pgdir) (page table : Frame) :
    (d.withStack page table).pte? 0x7fc00000 = some Pte.zero := by
  unfold withStack
  rw [pte?_setPte_other _ (by decide) (by decide) (by decide)]
  have same : pdx 0x7fc00000 = pdx stackPage := by decide
  change (Function.update d.pde (pdx stackPage) (some (PgTab.empty table)) (pdx 0x7fc00000)).map
    (fun tab => tab.pte (ptx 0x7fc00000)) = _
  rw [same, Function.update_self]
  rfl

/-- Next to a free list that has no page twice the new directory has none either. -/
theorem withStack_nodup {page table : Frame} {rest : List Frame}
    (missing : d.pde (pdx stackPage) = none) (listed : km.freelist = page :: table :: rest)
    (nodup : ((km.freelist : Multiset Frame) + d.frames).Nodup) :
    ((rest : Multiset Frame) + (d.withStack page table).frames).Nodup := by
  have traded : (rest : Multiset Frame) + (d.withStack page table).frames =
      km.freelist + d.frames := by
    rw [listed, withStack_frames missing, ← Multiset.cons_coe, ← Multiset.cons_coe,
      ← Multiset.singleton_add, ← Multiset.singleton_add]
    ac_rfl
  rw [traded]
  exact nodup

/-! ## A store into a page table -/

/-- Two page tables of a directory are different pages. -/
theorem table_unique (nodup : d.frames.Nodup) {i j : Fin npdentries} {tab tab' : PgTab}
    (left : d.pde i = some tab) (right : d.pde j = some tab') (same : tab'.frame = tab.frame) :
    i = j := by
  have held {k : Fin npdentries} {tab : PgTab} (here : d.pde k = some tab) :
      tab.frame ∈ PgTab.frames k (d.pde k) := by
    rw [here]
    exact Multiset.mem_add.mpr (.inl (Multiset.mem_singleton_self _))
  rw [frames_eq] at nodup
  generalize counted : ∑ k, PgTab.frames k (d.pde k) = total at nodup
  refine Library.holder_unique counted (Multiset.nodup_add.mp nodup).2.1 (held left) ?_
  rw [← same]
  exact held right

/-- Four bytes stored over an entry make it the entry of their word. -/
theorem strike_entry (nodup : d.frames.Nodup) {va start : Nat} {tab : PgTab}
    {bytes : List UInt8} {entry : Pte} (here : d.pde (pdx va) = some tab)
    (spot : 4 * (ptx va).val = start) (four : bytes.length = 4)
    (word : (tab.pte (ptx va)).struck start start bytes = entry)
    (absent : entry.present = false) :
    d.strike tab.frame start bytes = some (d.setPte va entry) := by
  subst spot
  have found : ((List.finRange npdentries).find? fun i =>
      (d.pde i).any fun other => other.frame == tab.frame) = some (pdx va) := by
    cases search : (List.finRange npdentries).find? fun i =>
        (d.pde i).any fun other => other.frame == tab.frame with
    | none =>
        have all := List.find?_eq_none.mp search (pdx va) (List.mem_finRange _)
        rw [here] at all
        exact absurd (beq_self_eq_true tab.frame) all
    | some i =>
        have passed := List.find?_some search
        obtain ⟨other, there, same⟩ := (Option.any_eq_true _ _).mp passed
        rw [table_unique nodup here there (beq_iff_eq.mp same)]
  have struck : tab.struck (4 * (ptx va).val) bytes =
      { tab with pte := Function.update tab.pte (ptx va) entry } := by
    refine congrArg (PgTab.mk tab.frame) (funext fun j => ?_)
    by_cases same : j = ptx va
    · subst same
      rw [Function.update_self, word]
    · have apart : ¬(4 * (ptx va).val < 4 * j.val + 4 ∧
          4 * j.val < 4 * (ptx va).val + bytes.length) := by
        rw [four]
        have distinct : j.val ≠ (ptx va).val := fun equal => same (Fin.ext equal)
        omega
      rw [Function.update_of_ne same, Pte.struck, if_neg apart]
  have thinned : tab.Thinned (tab.struck (4 * (ptx va).val) bytes) := by
    intro j present
    rw [struck] at present ⊢
    change (Function.update tab.pte (ptx va) entry j).present = true at present
    change Function.update tab.pte (ptx va) entry j = tab.pte j
    by_cases same : j = ptx va
    · subst same
      rw [Function.update_self, absent] at present
      cases present
    · rw [Function.update_of_ne same]
  simp only [strike, found, here, Option.bind_eq_bind, Option.bind_some, setPte, Option.map_some]
  rw [if_pos thinned, struck]

end Pgdir

/-! ## The argument -/

/-- A string that with its NUL reaches four bytes below the addresses of the topmost table. -/
def longArgument : List UInt8 := List.replicate (4 + 0x3ffffe) 66

/-- The entry that four bytes of the string are: none that is present. -/
def argumentEntry : Pte := .ofWord 0x42424242

theorem struck_argument (pte : Pte) : pte.struck 4092 4092 [66, 66, 66, 66] = argumentEntry := by
  simp [Pte.struck, wordBytes, leWord, argumentEntry]

theorem longArgument_eq : ∃ rest, rest ≠ [] ∧ longArgument ++ [0] = [66, 66, 66, 66] ++ rest := by
  have four : List.replicate 4 (66 : UInt8) = [66, 66, 66, 66] := rfl
  refine ⟨List.replicate 0x3ffffe 66 ++ [0],
    List.append_ne_nil_of_right_ne_nil _ (List.cons_ne_nil 0 []), ?_⟩
  rw [longArgument, List.replicate_add, List.append_assoc, four]

theorem longArgument_length : longArgument.length = 0x400002 := by
  rw [longArgument, List.length_replicate]

-- four megabytes are never to be computed
attribute [irreducible] longArgument

/-- The entry of a user page, as a process can have it for a word. -/
def Frame.userEntry (frame : Frame) : Pte := ⟨frame, pteP ||| pteW ||| pteU⟩

theorem Frame.userEntry_allowed (frame : Frame) :
    (frame.userEntry.present && frame.userEntry.user) = true := by
  have present : (pteP ||| pteW ||| pteU) &&& pteP ≠ 0 := by decide +kernel
  have user : (pteP ||| pteW ||| pteU) &&& pteU ≠ 0 := by decide +kernel
  rw [Bool.and_eq_true, Pte.present, Pte.user, bne_iff_ne, bne_iff_ne]
  exact ⟨present, user⟩

variable {null : Option Pte} {word : Pte}

/-- The first four bytes go to the page of the word, and then the copy gives up. -/
theorem copyout_longArgument (read : null = some word)
    (allowed : (word.present && word.user) = true) (missing : d.pte? 0x7fbffffc = none)
    (strike : d.strike word.addr 4092 [66, 66, 66, 66] = some d') {entry : Pte}
    (next : d'.pte? 0x7fc00000 = some entry) (refused : entry.present = false) :
    copyout null d 0x7fbffffc (longArgument ++ [0]) km = .ok (false, km, d') := by
  have absent : d'.place 0x7fc00000 = none := by
    unfold Pgdir.place
    rw [next]
    simp [Option.filter, refused]
  obtain ⟨rest, filled, whole⟩ := longArgument_eq
  rw [whole]
  have last : copyout null d' 0x7fc00000 rest km = .ok (false, km, d') :=
    copyout_refused filled (by decide) next absent
  have found : uva2ka null d (pgRoundDown 0x7fbffffc) = .ok (some word.addr) := by
    rw [uva2ka_missing null (by decide) missing, read]
    dsimp only
    rw [allowed]
    rfl
  have stored : copyInto d (pgRoundDown 0x7fbffffc) word.addr 4092 [66, 66, 66, 66] km =
      .ok (km, d') := by
    unfold copyInto
    rw [d.pte?_page (by decide), missing]
    dsimp only
    rw [strike]
  have chunk : min (pgsize - 0x7fbffffc % pgsize) (([66, 66, 66] ++ rest).length + 1) = 4 := by
    rw [List.length_append]
    simp only [pgsize, List.length_cons, List.length_nil]
    omega
  change copyout null d 0x7fbffffc (66 :: ([66, 66, 66] ++ rest)) km = _
  rw [copyout]
  refine Kern.bind_eq_ok.mpr ⟨_, found, ?_⟩
  dsimp only
  rw [chunk]
  exact Kern.bind_eq_ok.mpr ⟨_, stored, last⟩

/-- The stack is set up, and the argument takes an entry out of a page table. -/
theorem execStack_longArgument (read : null = some word)
    (allowed : (word.present && word.user) = true) {page table : Frame} {rest : List Frame}
    (listed : km.freelist = page :: table :: rest) (stack : d.pde (pdx stackPage) = none)
    (below : d.pde (pdx 0x7fbffffc) = none)
    (strike : (d.withStack page table).strike word.addr 4092 [66, 66, 66, 66] = some d')
    {entry : Pte} (next : d'.pte? 0x7fc00000 = some entry) (refused : entry.present = false) :
    ∃ km', execStack null ld [longArgument] km d = .ok (none, km', d') ∧ km'.freelist = rest := by
  obtain ⟨km', grown, left⟩ := allocuvm_stack ld listed stack
  have missing : (d.withStack page table).pte? 0x7fbffffc = none := by
    unfold Pgdir.pte?
    rw [Pgdir.withStack_pde (by decide), below]
    rfl
  have pushed : pushArgs null (d.withStack page table) [longArgument] stackbase [] km' =
      .ok (none, km', d') := by
    unfold pushArgs
    rw [if_neg (by decide), longArgument_length]
    exact Kern.bind_eq_ok.mpr
      ⟨_, copyout_longArgument read allowed missing strike next refused, rfl⟩
  exact ⟨km', Kern.bind_eq_ok.mpr ⟨_, grown, Kern.bind_eq_ok.mpr ⟨_, pushed, rfl⟩⟩, left⟩

/-! ## A process whose word names the page table of the stack -/

theorem leWord_wordBytes {word : Nat} (small : word < 2 ^ 32) :
    leWord (wordBytes word) 0 = word := by
  simp only [leWord, wordBytes, List.getD_cons_zero, List.getD_cons_succ, Nat.zero_add,
    UInt8.toNat_ofNat']
  omega

theorem Frame.userEntry_word (frame : Frame) :
    frame.userEntry.word < 2 ^ 32 ∧ Pte.ofWord frame.userEntry.word = frame.userEntry := by
  have bound := frame.isLt
  have flags : (pteP ||| pteW ||| pteU).toNat = 7 := by decide +kernel
  have word : frame.userEntry.word = frame.toNat * 4096 + 7 := by
    rw [Pte.word, Frame.userEntry, flags]
  refine ⟨by omega, ?_⟩
  rw [word, Pte.ofWord, Frame.userEntry, Pte.mk.injEq]
  constructor
  · refine BitVec.eq_of_toNat_eq ?_
    rw [BitVec.toNat_ofNat, pgsize]
    omega
  · refine BitVec.eq_of_toNat_eq ?_
    rw [BitVec.toNat_ofNat, flags]
    omega

/-- The page of the stack is lost: its entry is gone when the new directory is released. -/
theorem longArgument_loses {free : Kmem} (ok : FreeOk ld free)
    (made : setupkvm ld free = .ok (some d, km)) {page table : Frame} {rest : List Frame}
    (listed : km.freelist = page :: table :: rest) (named : null = some table.userEntry) :
    ∃ km₁ d' km', execStack null ld [longArgument] km d = .ok (none, km₁, d') ∧
      freevm ld km₁ (some d') = .ok km' ∧ page ∈ free.freelist ∧ page ∉ km'.freelist := by
  have missing := setupkvm_pde (by decide : (pdx stackPage).val < 512) made
  rcases setupkvm_ok ok made with ⟨_, same, total, _⟩ | ⟨impossible, _⟩
  · cases same
    have nodup := Pgdir.withStack_nodup missing listed (by
      rw [total]
      exact Multiset.coe_nodup.mpr ok.nodup)
    obtain ⟨tab, here, own, mapped⟩ := d.withStack_table page table
    have strike : (d.withStack page table).strike tab.frame 4092 [66, 66, 66, 66] =
        some ((d.withStack page table).setPte stackPage argumentEntry) :=
      Pgdir.strike_entry (Multiset.nodup_add.mp nodup).2.1 here (by decide) rfl
        (struck_argument _) (by decide)
    rw [own] at strike
    have next : ((d.withStack page table).setPte stackPage argumentEntry).pte? 0x7fc00000 =
        some Pte.zero := by
      rw [Pgdir.pte?_setPte_other _ (by decide) (by decide) (by decide), Pgdir.withStack_pte?]
    obtain ⟨km₁, stacked, left⟩ := execStack_longArgument named table.userEntry_allowed listed
      missing (setupkvm_pde (by decide) made) strike next rfl
    have entry : (d.withStack page table).pte? stackPage =
        some ⟨page, pteW ||| pteU ||| pteP⟩ := by
      rw [Pgdir.pte?, here, Option.map_some, mapped]
    have frames : ((d.withStack page table).setPte stackPage argumentEntry).frames =
        d.frames + {table} := by
      have traded := Pgdir.setPte_frames argumentEntry (by decide : stackPage < kernbase) entry
      have gone : argumentEntry.frames = 0 := if_neg (by decide)
      have held : (Pte.mk page (pteW ||| pteU ||| pteP)).frames = {page} :=
        if_pos (Pte.present_or_pteP page (pteW ||| pteU))
      rw [gone, held, add_zero, Pgdir.withStack_frames missing] at traded
      exact add_right_cancel traded
    have taken : ∀ frame, frame ∈ km.freelist ∨ frame ∈ d.frames → frame ∈ free.freelist := by
      intro frame member
      rw [← Multiset.mem_coe, ← total, Multiset.mem_add]
      exact member
    have valid : ∀ frame ∈ ((d.withStack page table).setPte stackPage argumentEntry).frames,
        frame.Valid ld := by
      intro frame member
      rw [frames, Multiset.mem_add, Multiset.mem_singleton] at member
      refine ok.valid frame (taken frame ?_)
      rcases member with old | rfl
      · exact .inr old
      · rw [listed]
        exact .inl (List.mem_cons_of_mem _ List.mem_cons_self)
    obtain ⟨km', freed, back, _⟩ := freevm_ok km₁ valid
    refine ⟨km₁, _, km', stacked, freed, taken page (.inl (by rw [listed]; exact List.mem_cons_self)),
      fun inside => ?_⟩
    have member : page ∈ (km'.freelist : Multiset Frame) := Multiset.mem_coe.mpr inside
    rw [back, left, frames] at member
    rw [Pgdir.withStack_frames missing, ← add_assoc] at nodup
    exact Multiset.disjoint_left.mp (Multiset.nodup_add.mp nodup).2.2 member
      (Multiset.mem_singleton_self page)
  · cases impossible

/-- The memory with a word at the start of a page. -/
def Kmem.withWord (km : Kmem) (frame : Frame) (word : Nat) : Kmem :=
  km.store frame 0 (wordBytes word)

theorem Kmem.withWord_word (km : Kmem) (frame : Frame) {word : Nat} (small : word < 2 ^ 32) :
    leWord ((List.range 4).map fun i => (km.withWord frame word).mem frame (Fin.ofNat pgsize i)) 0 =
      word := by
  have bytes : ((List.range 4).map fun i =>
      (km.withWord frame word).mem frame (Fin.ofNat pgsize i)) = wordBytes word := by
    unfold Kmem.withWord Kmem.store
    simp only [Function.update_self]
    rfl
  rw [bytes, leWord_wordBytes small]

variable {s : Kernel} {c : Fin ncpu} {p : Slot} {own : Pgdir} {pte : Pte}

/-- A process with a page at address 0 stores the word there, and calls `exec` with the argument. -/
theorem user_longArgument (ok : FreeOk ld s.kmem) (free : Free s c p)
    (dir : (s.proc p).pgdir = some own) (zero : own.lookup 0 = some pte)
    (enough : 67 ≤ s.kmem.freelist.length) :
    ∃ t d km km₁ d' km' page, Step ld s (.user p) t ∧ Free t c p ∧
      t.kmem.freelist = s.kmem.freelist ∧ setupkvm ld t.kmem = .ok (some d, km) ∧
      execStack (t.nullPte p) ld [longArgument] km d = .ok (none, km₁, d') ∧
      freevm ld km₁ (some d') = .ok km' ∧ page ∈ t.kmem.freelist ∧ page ∉ km'.freelist := by
  obtain ⟨d, km, made, left⟩ := setupkvm_succeeds ld (by omega : 65 ≤ s.kmem.freelist.length)
  obtain ⟨page, table, rest, listed⟩ := freelist_two (by omega : 2 ≤ km.freelist.length)
  obtain ⟨small, same⟩ := table.userEntry_word
  generalize written : s.kmem.withWord pte.addr table.userEntry.word = now
  have freelist : now.freelist = s.kmem.freelist := by
    rw [← written]
    rfl
  obtain ⟨km₂, made', listed'⟩ := setupkvm_congr freelist made
  have stores : ∀ frame, now.mem frame ≠ s.kmem.mem frame →
      ∃ va pte, va < kernbase ∧ own.lookup va = some pte ∧ pte.addr = frame := by
    intro frame changed
    refine ⟨0, pte, by decide, zero, ?_⟩
    by_contra apart
    rw [← written] at changed
    exact changed (Kmem.store_mem_of_ne _ _ _ (Ne.symm apart))
  generalize stored : (s.setKmem { s.kmem with mem := now.mem }).modify p (fun pr =>
    { pr with tf := (s.proc p).tf, ofile := (s.proc p).ofile, cwd := (s.proc p).cwd }) = t
  have step : Step ld s (.user p) t := stored ▸ Step.user free dir stores
  have kmem : t.kmem = now := by
    rw [← stored]
    exact congrArg (Kmem.mk · now.mem) freelist.symm
  have dir' : (t.proc p).pgdir = some own := by
    rw [← stored, Kernel.modify_self]
    exact dir
  have free' : Free t c p := by
    rw [← stored]
    exact ⟨free.running, free.idle⟩
  have named : t.nullPte p = some table.userEntry := by
    unfold Kernel.nullPte
    rw [dir', Option.bind_some, zero, Option.map_some, kmem, ← written,
      Kmem.withWord_word _ _ small, same]
  rw [← kmem] at made' freelist
  obtain ⟨km₁, d', km', stacked, freed, taken, lost⟩ :=
    longArgument_loses ⟨freelist ▸ ok.nodup, freelist ▸ ok.valid⟩ made' (listed'.trans listed) named
  exact ⟨t, d, km₂, km₁, d', km', page, step, free', freelist, made', stacked, freed, taken, lost⟩

/-- A program without segments: its header only. -/
def elfHeader : List UInt8 := [0x7f, 0x45, 0x4c, 0x46] ++ List.replicate 48 0

def emptyProgram : Readi := fun off n => some ((elfHeader.drop off).take n)

theorem emptyProgram_header : emptyProgram 0 52 = some elfHeader := rfl

theorem elfHeader_parse : Elfhdr.parse elfHeader = ⟨elfMagic, 0, 0, 0⟩ := rfl

/-- The call returns -1, and one page less is free. -/
theorem exec_longArgument {d : Pgdir} {km km₁ : Kmem} {name : String}
    (made : setupkvm ld s.kmem = .ok (some d, km))
    (stacked : execStack (s.nullPte p) ld [longArgument] km d = .ok (none, km₁, d'))
    (freed : freevm ld km₁ (some d') = .ok km') :
    exec ld (some emptyProgram) name [longArgument] s p = .ok (-1, s.setKmem km') := by
  unfold exec execReading
  dsimp only
  rw [emptyProgram_header]
  dsimp only
  rw [elfHeader_parse, if_neg (not_not.mpr rfl)]
  exact Kern.bind_eq_ok.mpr ⟨_, made, Kern.bind_eq_ok.mpr ⟨_, rfl, Kern.bind_eq_ok.mpr
    ⟨_, stacked, Kern.bind_eq_ok.mpr ⟨_, freed, rfl⟩⟩⟩⟩

end SlabStudy.Xv6
