import SlabStudy.Xv6.Dispatch

/-!
# A machine that boots

`userinit` succeeds when enough pages are free, and leaves one user page and
no stack.  A small machine shows that the hypotheses of the later results can
be met: its first process can be scheduled, and it can fork.
-/

namespace SlabStudy.Xv6

open Library

variable {ld : Linkage}

/-! ## userinit succeeds -/

/-- After `inituvm` the page at address zero is the only user page. -/
theorem inituvm_layout {km km' : Kmem} {d d' : Pgdir} {init : List UInt8}
    (unmapped : ∀ va, va < kernbase → d.lookup va = none)
    (enough : 2 ≤ km.freelist.length) (ran : inituvm km d init = .ok (km', d')) :
    Layout d' pgsize 0 ∧ km.freelist.length ≤ km'.freelist.length + 2 := by
  obtain ⟨frame, ⟨mem, mapped⟩ | ⟨listed, _, empty⟩⟩ := inituvm_cases ran
  · refine ⟨⟨by decide, by decide, fun va user => ?_⟩, ?_⟩
    · rw [mapped.lookup va (Nat.lt_trans user (by decide)), unmapped va user]
      change va < 2147483648 at user
      change (if va / 4096 = 0 then _ else _ : Option Pte).isSome = true ↔
        va < 4096 ∨ 2147483648 ≤ va
      split
      · next first =>
          refine ⟨fun _ => .inl ?_, fun _ => rfl⟩
          omega
      · next other =>
          constructor
          · intro impossible
            cases impossible
          · omega
    · have counted := mapped.counted {pdx 0} (Finset.mem_singleton_self _)
      have few : d.missing {pdx 0} ≤ 1 := Finset.card_filter_le _ _
      change km'.freelist.length + 1 + d.missing {pdx 0} = _ at counted
      omega
  · rw [listed, empty, List.length_singleton] at enough
    omega

/-- With 68 free pages and a program of less than a page the machine boots. -/
theorem userinit_succeeds {km : Kmem} {initcode : List UInt8} (root : Nat) (free : FreeOk ld km)
    (small : initcode.length < pgsize) (enough : 68 ≤ km.freelist.length) :
    ∃ s kstack d, userinit ld initcode root (Kernel.blank km) = .ok s ∧
      Booted km root s kstack d ∧ Layout d pgsize 0 ∧
      km.freelist.length ≤ s.kmem.freelist.length + 68 := by
  generalize claimed : ({ (Kernel.blank km).modify 0 fun pr =>
    { pr with state := .embryo, pid := 1 } with nextpid := 2 } : Kernel) = t
  have kmem : t.kmem = km := by
    rw [← claimed]
    rfl
  have some : t.kmem.freelist ≠ [] := by
    intro empty
    rw [kmem] at empty
    simp [empty] at enough
  obtain ⟨u, kstack, taken, stacked⟩ := allocprocStack_succeeds 0 some
  have listed := stacked.listed
  rw [kmem] at listed
  have count : km.freelist.length = u.kmem.freelist.length + 1 := by rw [listed, List.length_cons]
  obtain ⟨blank, km₁, setup, few⟩ := setupkvm_succeeds ld (by omega : 65 ≤ u.kmem.freelist.length)
  rcases setupkvm_ok (free.rest listed) setup with ⟨_, same, _, unmapped, _⟩ | ⟨impossible, _⟩
  · cases same
    have two : 2 ≤ km₁.freelist.length := by omega
    obtain ⟨km₂, d, loaded⟩ := inituvm_succeeds small (unmapped 0 (by decide)) two
    obtain ⟨layout, last⟩ := inituvm_layout unmapped two loaded
    generalize result : ({ (u.setKmem km₂).modify 0 fun pr =>
      { pr with
        pgdir := .some d, sz := pgsize, tf := initTrapframe, name := "initcode",
        cwd := .some root, state := .runnable } with initproc := .some 0 } : Kernel) = s
    have ran : userinit ld initcode root (Kernel.blank km) = .ok s := by
      unfold userinit
      rw [allocprocClaim_blank]
      simp only
      rw [claimed, taken]
      simp only [setup, loaded, bind, Except.bind]
      rw [← result]
      rfl
    obtain ⟨kstack', d', boot⟩ := userinit_booted free ran
    have own : (s.proc 0).pgdir = .some d := by
      rw [← result]
      rfl
    rw [boot.first] at own
    cases own
    refine ⟨s, kstack', d, ran, boot, layout, ?_⟩
    rw [← result]
    change _ ≤ km₂.freelist.length + 68
    omega
  · cases impossible

/-! ## A small machine -/

/-- A kernel of about one megabyte. -/
def sampleLinkage : Linkage where
  data := 0x80107000
  endAddr := 0x80114000
  data_aligned := by decide
  kernlink_lt_data := by decide
  data_le_end := by decide
  end_lt := by decide

/-- Some zeroed pages behind the kernel. -/
def sampleKmem (pages : Nat) : Kmem where
  freelist := (List.range pages).map fun k => BitVec.ofNat 20 (0x1000 + k)
  mem := fun _ _ => 0

theorem sampleKmem_length (pages : Nat) : (sampleKmem pages).freelist.length = pages := by
  simp [sampleKmem]

theorem sampleKmem_free {pages : Nat} (few : pages ≤ 0x1000) :
    FreeOk sampleLinkage (sampleKmem pages) := by
  refine ⟨List.Nodup.map_on (fun j left k right same => ?_) List.nodup_range, fun frame member => ?_⟩
  · rw [List.mem_range] at left right
    have numbers := congrArg BitVec.toNat same
    rw [BitVec.toNat_ofNat, BitVec.toNat_ofNat] at numbers
    omega
  · obtain ⟨k, small, rfl⟩ := List.mem_map.mp member
    rw [List.mem_range] at small
    unfold Frame.Valid
    rw [BitVec.toNat_ofNat]
    change 2148614144 ≤ (4096 + k) % 1048576 * 4096 + 2147483648 ∧
      (4096 + k) % 1048576 * 4096 < 234881024
    omega

/-- The first process runs on CPU 0, alone in the table, and some pages are free. -/
structure Started (s : Kernel) (d : Pgdir) (psize pages : Nat) : Prop where
  quiet : (quietSystem sampleLinkage).Reachable s
  free : Free s 0 0
  own : (s.proc 0).pgdir = some d
  sz : (s.proc 0).sz = pgsize
  stackPsize : (s.proc 0).stackPsize = psize
  pid : (s.proc 0).pid = 1
  killed : (s.proc 0).killed = false
  others : ∀ q, q ≠ 0 → s.proc q = .zero
  initproc : s.initproc = some 0
  nextpid : s.nextpid = 2
  layout : Layout d pgsize psize
  enough : pages ≤ s.kmem.freelist.length

theorem Started.reached {s : Kernel} {d : Pgdir} {psize pages : Nat}
    (started : Started s d psize pages) : (system sampleLinkage).Reachable s :=
  started.quiet.ofGuarded

/-- The small machine boots. -/
theorem sample_boots {pages : Nat} (few : pages ≤ 0x800) :
    ∃ s kstack d, (system sampleLinkage).initial s ∧ Booted (sampleKmem (pages + 68)) 1 s kstack d ∧
      Layout d pgsize 0 ∧ pages ≤ s.kmem.freelist.length := by
  have free : FreeOk sampleLinkage (sampleKmem (pages + 68)) := sampleKmem_free (by omega)
  have length := sampleKmem_length (pages + 68)
  obtain ⟨s, kstack, d, ran, boot, layout, left⟩ :=
    userinit_succeeds 1 free (by decide : ([] : List UInt8).length < pgsize) (by omega)
  exact ⟨s, kstack, d, ⟨_, [], 1, free, ran⟩, boot, layout, by omega⟩

/-- A round of the idle machine dispatches the first process. -/
theorem Booted.round {km : Kmem} {root : Nat} {s : Kernel} {kstack : Frame} {d : Pgdir}
    (free : FreeOk ld km) (boot : Booted km root s kstack d) (c : Fin ncpu) :
    Step ld s (.round c (some 0) none) (dispatch s c 0) := by
  refine step_round_only (boot.inv free) (by rw [boot.cpu]) (by rw [boot.first])
    (fun q runnable => ?_) (.inl (by rw [boot.thread]))
  by_contra apart
  rw [boot.others q apart] at runnable
  cases runnable

/-- The first round leads to a state in which the first process runs. -/
theorem Booted.started {km : Kmem} {root pages : Nat} {s : Kernel} {kstack : Frame} {d : Pgdir}
    (free : FreeOk sampleLinkage km) (first : (system sampleLinkage).initial s)
    (boot : Booted km root s kstack d) (layout : Layout d pgsize 0)
    (enough : pages ≤ s.kmem.freelist.length) : Started (dispatch s 0 0) d 0 pages := by
  have round := boot.round free 0
  have quiet : (quietSystem sampleLinkage).Reachable s := .start first
  refine ⟨quiet.step ⟨⟨rfl, rfl⟩, round⟩, ⟨?_, ?_⟩, ?_, ?_, ?_, ?_, ?_,
    fun q apart => ?_, boot.initproc, boot.nextpid, layout, enough⟩
  · rw [dispatch_cpu, Function.update_self]
  · rw [dispatch_thread, boot.thread]
  · rw [dispatch_self, boot.first]
  · rw [dispatch_self, boot.first]
  · rw [dispatch_self, boot.first]
    rfl
  · rw [dispatch_self, boot.first]
  · rw [dispatch_self, boot.first]
    rfl
  · rw [dispatch_of_ne _ _ _ apart, boot.others q apart]

theorem sample_started {pages : Nat} (few : pages ≤ 0x800) :
    ∃ s d, Started s d 0 pages := by
  obtain ⟨s, kstack, d, first, boot, layout, enough⟩ := sample_boots few
  exact ⟨dispatch s 0 0, d, boot.started (sampleKmem_free (by omega)) first layout enough⟩

end SlabStudy.Xv6
