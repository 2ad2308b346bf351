import SlabStudy.Xv6.Delivery
import SlabStudy.Xv6.ExecArgs
import SlabStudy.Xv6.Fork
import SlabStudy.Xv6.MachinePages

/-!
# Where every page is

Every page that `kfree` accepts is in one place: on the free list, a user page,
page table or page directory of one address space, a kernel stack or a pipe.
-/

namespace SlabStudy.Xv6

open Library

variable {ld : Linkage}

/-! ## Places -/

/-- Where a page can be.  The address space of `none` is that of the kernel. -/
inductive PagePlace where
  | free
  /-- Mapped by entry `j` of page table `i`, below `KERNBASE`. -/
  | user (dir : Option Slot) (i : Fin npdentries) (j : Fin nptentries)
  | table (dir : Option Slot) (i : Fin npdentries)
  | directory (dir : Option Slot)
  | kstack (p : Slot)
  | cpuStack (k : Nat)
  | pipe

namespace Machine

/-- The page directories in use; without a kernel stack the pointer in a slot is stale. -/
def pgdir (s : Machine) : Option Slot → Option Pgdir
  | none => some s.kpgdir
  | some p => (s.kernel.proc p).kstack.bind fun _ => (s.kernel.proc p).pgdir

/-- A page is in a place. -/
def At (s : Machine) : PagePlace → Frame → Prop
  | .free, page => page ∈ s.kernel.kmem.freelist
  | .user dir i j, page => ∃ d tab, s.pgdir dir = some d ∧ d.pde i = some tab ∧ i.val < 512 ∧
      (tab.pte j).present = true ∧ (tab.pte j).addr = page
  | .table dir i, page => ∃ d tab, s.pgdir dir = some d ∧ d.pde i = some tab ∧ tab.frame = page
  | .directory dir, page => ∃ d, s.pgdir dir = some d ∧ d.frame = page
  | .kstack p, page => (s.kernel.proc p).kstack = some page
  | .cpuStack k, page => s.cpuStacks[k]? = some page
  | .pipe, page => ∃ f writable, (s.file f).Ends page writable

end Machine

/-! ## Pages with their places -/

abbrev Tags := Multiset (PagePlace × Frame)

def Pte.tags (dir : Option Slot) (i : Fin npdentries) (j : Fin nptentries) (pte : Pte) : Tags :=
  if pte.present then {(.user dir i j, pte.addr)} else 0

def PgTab.tags (dir : Option Slot) (i : Fin npdentries) : Option PgTab → Tags
  | none => 0
  | some tab => {(.table dir i, tab.frame)} +
      if i.val < 512 then ∑ j, (tab.pte j).tags dir i j else 0

def Pgdir.tags (dir : Option Slot) (d : Pgdir) : Tags :=
  {(.directory dir, d.frame)} + ∑ i, PgTab.tags dir i (d.pde i)

def Proc.tags (p : Slot) (pr : Proc) : Tags :=
  match pr.kstack with
  | none => 0
  | some kstack => {(.kstack p, kstack)} + pr.pgdir.elim 0 (Pgdir.tags (some p))

def cpuTags (cpuStacks : List Frame) : Tags :=
  (cpuStacks.zipIdx.map fun stack => (.cpuStack stack.2, stack.1) : List (PagePlace × Frame))

/-- All pages with their places. -/
def Machine.tags (s : Machine) : Tags :=
  ((s.kernel.kmem.freelist : Multiset Frame).map (Prod.mk .free) +
      ∑ p, (s.kernel.proc p).tags p) +
    ((pipePages s.file).val.map (Prod.mk .pipe) + (s.kpgdir.tags none + cpuTags s.cpuStacks))

/-! ## The tags stand on all pages -/

theorem Pte.tags_pages (dir : Option Slot) (i : Fin npdentries) (j : Fin nptentries) (pte : Pte) :
    (pte.tags dir i j).map Prod.snd = pte.frames := by
  unfold Pte.tags Pte.frames
  split <;> rfl

theorem PgTab.tags_pages (dir : Option Slot) (i : Fin npdentries) (tab : Option PgTab) :
    (PgTab.tags dir i tab).map Prod.snd = PgTab.frames i tab := by
  cases tab with
  | none => rfl
  | some tab =>
      unfold PgTab.tags PgTab.frames
      rw [Multiset.map_add, Multiset.map_singleton]
      split
      · rw [map_snd_sum]
        simp only [Pte.tags_pages]
      · rfl

theorem Pgdir.tags_pages (dir : Option Slot) (d : Pgdir) :
    (d.tags dir).map Prod.snd = d.frames := by
  rw [Pgdir.tags, Pgdir.frames_eq, Multiset.map_add, Multiset.map_singleton, map_snd_sum]
  simp only [PgTab.tags_pages]

theorem Proc.tags_pages (p : Slot) (pr : Proc) : (pr.tags p).map Prod.snd = pr.pages := by
  unfold Proc.tags Proc.pages
  cases pr.kstack with
  | none => rfl
  | some kstack =>
      dsimp only
      rw [Multiset.map_add, Multiset.map_singleton]
      cases pr.pgdir with
      | none => rfl
      | some d =>
          dsimp only [Option.elim]
          rw [Pgdir.tags_pages]

theorem cpuTags_pages (cpuStacks : List Frame) :
    (cpuTags cpuStacks).map Prod.snd = cpuStacks := by
  unfold cpuTags
  rw [Multiset.map_coe, List.map_map]
  exact congrArg _ (List.zipIdx_map_fst 0 cpuStacks)

theorem Machine.tags_pages (s : Machine) : s.tags.map Prod.snd = s.pages := by
  unfold Machine.tags Machine.pages
  rw [Multiset.map_add, Multiset.map_add, Multiset.map_add, Multiset.map_add, cpuTags_pages,
    Pgdir.tags_pages, map_snd_sum, Multiset.map_map, Multiset.map_map, Kernel.pages_eq]
  simp only [Proc.tags_pages, Function.comp_def, Multiset.map_id']

/-! ## The tags say where a page is -/

variable {place : PagePlace} {page : Frame}

theorem Pte.mem_tags {dir : Option Slot} {i : Fin npdentries} {j : Fin nptentries} {pte : Pte} :
    (place, page) ∈ pte.tags dir i j ↔
      place = .user dir i j ∧ pte.present = true ∧ pte.addr = page := by
  unfold Pte.tags
  split
  · next present =>
      rw [Multiset.mem_singleton, Prod.mk.injEq, eq_comm (a := page)]
      exact and_congr_right fun _ => (and_iff_right present).symm
  · next absent =>
      exact iff_of_false (Multiset.notMem_zero _) fun found => absent found.2.1

theorem PgTab.mem_tags {dir : Option Slot} {i : Fin npdentries} {tab : PgTab} :
    (place, page) ∈ PgTab.tags dir i (some tab) ↔
      (place = .table dir i ∧ tab.frame = page) ∨ (i.val < 512 ∧ ∃ j, place = .user dir i j ∧
        (tab.pte j).present = true ∧ (tab.pte j).addr = page) := by
  unfold PgTab.tags
  rw [Multiset.mem_add, Multiset.mem_singleton, Prod.mk.injEq, eq_comm (a := page)]
  refine or_congr_right ?_
  split
  · next low =>
      rw [Multiset.mem_sum]
      simp [low, Pte.mem_tags]
  · next high => exact iff_of_false (Multiset.notMem_zero _) fun found => high found.1

theorem Pgdir.mem_tags {dir : Option Slot} {d : Pgdir} :
    (place, page) ∈ d.tags dir ↔ (place = .directory dir ∧ d.frame = page) ∨
      ∃ i tab, d.pde i = some tab ∧ ((place = .table dir i ∧ tab.frame = page) ∨
        (i.val < 512 ∧ ∃ j, place = .user dir i j ∧
          (tab.pte j).present = true ∧ (tab.pte j).addr = page)) := by
  unfold Pgdir.tags
  rw [Multiset.mem_add, Multiset.mem_singleton, Prod.mk.injEq, eq_comm (a := page),
    Multiset.mem_sum]
  refine or_congr_right ?_
  constructor
  · rintro ⟨i, _, member⟩
    cases entry : d.pde i with
    | none =>
        rw [entry] at member
        exact absurd member (Multiset.notMem_zero _)
    | some tab =>
        rw [entry] at member
        exact ⟨i, tab, entry, PgTab.mem_tags.mp member⟩
  · rintro ⟨i, tab, entry, found⟩
    refine ⟨i, Finset.mem_univ i, ?_⟩
    rw [entry]
    exact PgTab.mem_tags.mpr found

-- as for the sum of the frames
attribute [irreducible] Pgdir.tags

theorem Proc.mem_tags {p : Slot} {pr : Proc} :
    (place, page) ∈ pr.tags p ↔ (place = .kstack p ∧ pr.kstack = some page) ∨
      ∃ d, (pr.kstack.bind fun _ => pr.pgdir) = some d ∧ (place, page) ∈ d.tags (some p) := by
  unfold Proc.tags
  cases pr.kstack with
  | none => simp
  | some kstack =>
      dsimp only [Option.bind_some]
      rw [Multiset.mem_add, Multiset.mem_singleton, Prod.mk.injEq, eq_comm (a := page),
        Option.some.injEq]
      refine or_congr_right ?_
      cases pr.pgdir with
      | none => simp
      | some d => simp

theorem mem_cpuTags {cpuStacks : List Frame} :
    (place, page) ∈ cpuTags cpuStacks ↔ ∃ k, place = .cpuStack k ∧ cpuStacks[k]? = some page := by
  unfold cpuTags
  rw [Multiset.mem_coe, List.mem_map]
  constructor
  · rintro ⟨⟨stack, k⟩, member, same⟩
    cases same
    exact ⟨k, rfl, List.mem_zipIdx_iff_getElem?.mp member⟩
  · rintro ⟨k, rfl, here⟩
    exact ⟨(page, k), List.mem_zipIdx_iff_getElem?.mpr here, rfl⟩

namespace Machine

variable {s : Machine}

/-- The kinds of owners. -/
theorem mem_tags_iff : (place, page) ∈ s.tags ↔
    (place = .free ∧ page ∈ s.kernel.kmem.freelist) ∨
    (∃ p, place = .kstack p ∧ (s.kernel.proc p).kstack = some page) ∨
    (∃ dir d, s.pgdir dir = some d ∧ (place, page) ∈ d.tags dir) ∨
    (place = .pipe ∧ page ∈ pipePages s.file) ∨
    ∃ k, place = .cpuStack k ∧ s.cpuStacks[k]? = some page := by
  unfold Machine.tags
  rw [Multiset.mem_add, Multiset.mem_add, Multiset.mem_add, Multiset.mem_add, Multiset.mem_map,
    Multiset.mem_map, Multiset.mem_sum, mem_cpuTags]
  constructor
  · rintro ((⟨other, free, same⟩ | ⟨p, _, owned⟩) | (⟨other, pipe, same⟩ | kernel | cpu))
    · cases same
      exact .inl ⟨rfl, Multiset.mem_coe.mp free⟩
    · rcases Proc.mem_tags.mp owned with stack | ⟨d, own, tagged⟩
      · exact .inr (.inl ⟨p, stack⟩)
      · exact .inr (.inr (.inl ⟨some p, d, own, tagged⟩))
    · cases same
      exact .inr (.inr (.inr (.inl ⟨rfl, pipe⟩)))
    · exact .inr (.inr (.inl ⟨none, s.kpgdir, rfl, kernel⟩))
    · exact .inr (.inr (.inr (.inr cpu)))
  · rintro (⟨rfl, free⟩ | ⟨p, stack⟩ | ⟨dir, d, own, tagged⟩ | ⟨rfl, pipe⟩ | cpu)
    · exact .inl (.inl ⟨page, Multiset.mem_coe.mpr free, rfl⟩)
    · exact .inl (.inr ⟨p, Finset.mem_univ p, Proc.mem_tags.mpr (.inl stack)⟩)
    · cases dir with
      | none =>
          cases own
          exact .inr (.inr (.inl tagged))
      | some p =>
          exact .inl (.inr ⟨p, Finset.mem_univ p, Proc.mem_tags.mpr (.inr ⟨d, own, tagged⟩)⟩)
    · exact .inr (.inl ⟨page, pipe, rfl⟩)
    · exact .inr (.inr (.inr cpu))

theorem mem_tags : (place, page) ∈ s.tags ↔ s.At place page := by
  rw [mem_tags_iff]
  cases place <;> simp [At, Pgdir.mem_tags, mem_pipePages]

end Machine

/-! ## Every page has its place -/

/-- A page that the machine manages is in exactly one place. -/
theorem MachineOk.existsUnique {s : Machine} (ok : MachineOk ld s) (valid : page.Valid ld) :
    ∃! place, s.At place page := by
  obtain ⟨place, tagged, only⟩ := existsUnique_tag s.tags_pages ok.managed.nodup
    (ok.managed.exact.mpr valid)
  exact ⟨place, Machine.mem_tags.mp tagged,
    fun other found => only other (Machine.mem_tags.mpr found)⟩

/-- Only such pages are in a place. -/
theorem MachineOk.valid {s : Machine} (ok : MachineOk ld s) (found : s.At place page) :
    page.Valid ld :=
  ok.managed.exact.mp (mem_of_tag s.tags_pages (Machine.mem_tags.mpr found))

/-- Whatever calls the machine has made, if no `exec` has stored through the null pointer or faulted
at it, every page that `kfree` accepts is in one place; it stands once on the free list, and no two
address spaces map it. -/
theorem pages_in_one_place {s : Machine} (reached : (carefulSystem ld).Reachable s) :
    (∀ page, page.Valid ld → ∃! place, s.At place page) ∧
      (∀ place page, s.At place page → page.Valid ld) ∧ s.kernel.kmem.freelist.Nodup ∧
      ∀ dir dir' i i' j j' page, s.At (.user dir i j) page → s.At (.user dir' i' j') page →
        dir = dir' ∧ i = i' ∧ j = j' := by
  have ok := MachineOk.ofReachable reached
  refine ⟨fun page => ok.existsUnique, fun place page => ok.valid, ok.inv.memory.freeOk.nodup,
    fun dir dir' i i' j j' page left right => ?_⟩
  obtain ⟨place, _, only⟩ := ok.existsUnique (ok.valid left)
  cases (only _ left).trans (only _ right).symm
  exact ⟨rfl, rfl, rfl⟩

/-! ## Runs of a small machine -/

/-- Steps of the kernel that take no pages are steps of the machine. -/
theorem Machine.kernelRun {s : Machine} {labels : List Label} {k : Kernel}
    (run : (system ld).Run s.kernel labels k) (other : ∀ label ∈ labels, ¬label.TakesPages) :
    (carefulSystem ld).Run s (labels.map .kernel) { s with kernel := k } := by
  generalize from_ : s.kernel = start at run
  induction run with
  | nil =>
      subst from_
      exact .nil s
  | snoc _ next ih =>
      rw [List.map_append]
      exact (ih (fun label member => other label (List.mem_append_left _ member))).snoc
        ⟨trivial, .kernel next (other _ (List.mem_append_right _ (List.mem_singleton_self _)))⟩

/-- The small machine boots with two processors, and the first process runs. -/
theorem machine_boots : ∃ first s d, (carefulSystem sampleLinkage).initial first ∧
    (carefulSystem sampleLinkage).Run first [.kernel (.round 0 (some 0) none)] s ∧
    Started s.kernel d 0 0x300 ∧ (s.kernel.cpu 1).proc = none := by
  obtain ⟨b, boot⟩ := bootMemory_succeeds (by decide : sampleLinkage.endAddr + _ ≤ _) 1 fun _ _ => 0
  obtain ⟨managed, many⟩ := bootMemory_ok boot
  obtain ⟨k, kstack, d, init, booted, layout, left⟩ := userinit_succeeds 1 managed.freeOk
    (by decide : ([] : List UInt8).length < pgsize) (Nat.le_trans (by decide) many)
  have free := managed.freeOk
  have started := booted.started free ⟨_, [], 1, free, init⟩ layout
    (by omega : 0x300 ≤ k.kmem.freelist.length)
  have idle : (k.cpu 1).proc = none := by rw [booted.cpu]
  have round : (system sampleLinkage).Run k [.round 0 (some 0) none] (dispatch k 0 0) :=
    .snoc (.nil k) (booted.round free 0)
  let first : Machine :=
    ⟨k, b.kpgdir, b.cpuStacks, fun _ => ⟨.none, 0, false, 0⟩, fun _ => ⟨false, false⟩⟩
  refine ⟨first, { first with kernel := dispatch k 0 0 }, d, ⟨b, 1, _, _, 1, boot, init, rfl, rfl, fun _ => ⟨rfl, rfl⟩⟩,
    Machine.kernelRun (s := first) round ?_, started, ?_⟩
  · simp [Label.TakesPages]
  · rw [dispatch_cpu, Function.update_of_ne (by decide)]
    exact idle

/-- The first process runs a program, forks, and waits for its child. -/
theorem pages_in_one_place_runs : ∃ first labels s file child corpse,
    (carefulSystem sampleLinkage).initial first ∧
    (carefulSystem sampleLinkage).Run first labels s ∧
    .exec 0 (some file) "init" [[65]] ∈ labels ∧ .kernel (.start 0 child) ∈ labels ∧
    .kernel (.wait 0 (.reaped corpse)) ∈ labels ∧
    ∀ page, page.Valid sampleLinkage → ∃! place, s.At place page := by
  obtain ⟨first, s, d, begins, boots, started, idle⟩ := machine_boots
  obtain ⟨k, km, d', _, ran, same, commit, left, layout⟩ :=
    @Started.execs _ (fun off n => some ((sampleProgram.drop off).take n)) _ _ rfl rfl rfl started
      (by decide)
  have careful : MachineLabel.Careful sampleLinkage s
      (.exec 0 (some fun off n => some ((sampleProgram.drop off).take n)) "init" [[65]]) := by
    rintro ⟨_, stops⟩
    cases same.symm.trans stops
  obtain ⟨started', cpu⟩ := started.afterExec careful ran commit left layout
  have execs := boots.snoc ⟨careful, .exec started.free ran⟩
  obtain ⟨u, child, frame, forks, forked⟩ := started'.forks (by decide) (by decide)
  obtain ⟨np, claims⟩ := fork_run (Inv.reachable started'.reached) started'.free forks (by decide)
  obtain ⟨corpse, w, _, _, ends⟩ := started'.reapsChild forks forked (by rw [cpu]; exact idle)
  have run := (execs.append (Machine.kernelRun claims (by simp [Label.TakesPages]))).append
    (Machine.kernelRun ends (by simp [Label.TakesPages]))
  refine ⟨first, _, _, _, np, corpse, begins, run,
    List.mem_append_left _ (List.mem_append_left _ (List.mem_append_right _
      (List.mem_singleton_self _))), ?_, ?_, ?_⟩
  · simp
  · simp
  · exact (pages_in_one_place ⟨first, _, begins, run⟩).1

/-- The word at address 0 of the first process names the page table of its new stack; after an
`exec` with an argument of four megabytes the page of the stack is nowhere. -/
theorem page_is_lost : ∃ s, (machineSystem sampleLinkage).Reachable s ∧
    ¬∀ page, page.Valid sampleLinkage → ∃! place, s.At place page := by
  obtain ⟨first, s, d, begins, boots, started, _⟩ := machine_boots
  obtain ⟨pte, zero⟩ := Option.isSome_iff_exists.mp
    ((started.layout.exact 0 (by decide)).mpr (.inl (by decide)))
  obtain ⟨k, d₀, km, km₁, d', km', page, step, free, _, made, stacked, freed, taken, lost⟩ :=
    user_longArgument (Inv.reachable started.reached).memory.freeOk started.free started.own zero
      (Nat.le_trans (by decide) started.enough)
  have careful : MachineLabel.Careful sampleLinkage s (.kernel (.user 0)) := trivial
  have stored := boots.snoc ⟨careful, .kernel step (by exact id)⟩
  have ok := MachineOk.ofReachable ⟨first, _, begins, stored⟩
  have ran : exec sampleLinkage (some emptyProgram) "a" [longArgument] k 0 = _ :=
    exec_longArgument made stacked freed
  refine ⟨_, ⟨first, _, begins, stored.ofGuarded.snoc (.exec free ran)⟩, fun all => ?_⟩
  have valid := ok.inv.memory.freeOk.valid page taken
  obtain ⟨place, found, _⟩ := all page valid
  obtain ⟨_, _, only⟩ := ok.existsUnique valid
  -- the other places are those of before
  cases place with
  | free => exact lost found
  | user dir i j => cases (only (.user dir i j) found).trans (only .free taken).symm
  | table dir i => cases (only (.table dir i) found).trans (only .free taken).symm
  | directory dir => cases (only (.directory dir) found).trans (only .free taken).symm
  | kstack p => cases (only (.kstack p) found).trans (only .free taken).symm
  | cpuStack k => cases (only (.cpuStack k) found).trans (only .free taken).symm
  | pipe => cases (only (.pipe) found).trans (only .free taken).symm

end SlabStudy.Xv6
