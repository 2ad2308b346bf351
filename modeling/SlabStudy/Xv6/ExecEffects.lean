import SlabStudy.Xv6.KernelMap

/-!
# What exec leaves behind

A call of `exec` that returns has moved pages between the free list and the
directory it builds, and has stored into no page of anybody else.  A call
that succeeds leaves a heap from address zero on and one stack page.
-/

namespace SlabStudy.Xv6

variable {null : Option Pte} {ld : Linkage} {km km' km'' : Kmem} {d d' d'' : Pgdir}

/-! ## Pages that an operation may touch -/

/-- Pages move only between the free list and the directory, and no other page is stored to. -/
structure Reworks (km : Kmem) (d : Pgdir) (km' : Kmem) (d' : Pgdir) : Prop where
  conserved : (km'.freelist : Multiset Frame) + d'.frames = km.freelist + d.frames
  untouched : ∀ frame, frame ∉ km.freelist → frame ∉ d.frames → km'.mem frame = km.mem frame

namespace Reworks

theorem refl (km : Kmem) (d : Pgdir) : Reworks km d km d := ⟨rfl, fun _ _ _ => rfl⟩

/-- What is neither free nor in the directory before is so afterwards. -/
theorem outside (reworks : Reworks km d km' d') {frame : Frame} (listed : frame ∉ km.freelist)
    (owned : frame ∉ d.frames) : frame ∉ km'.freelist ∧ frame ∉ d'.frames := by
  have total : frame ∉ (km'.freelist : Multiset Frame) + d'.frames := by
    rw [reworks.conserved]
    simp [listed, owned]
  simpa using total

theorem trans (first : Reworks km d km' d') (second : Reworks km' d' km'' d'') :
    Reworks km d km'' d'' where
  conserved := second.conserved.trans first.conserved
  untouched frame listed owned := by
    obtain ⟨later, kept⟩ := first.outside listed owned
    rw [second.untouched frame later kept, first.untouched frame listed owned]

theorem owned (reworks : Reworks km d km' d') (owned : Owned ld km d) : Owned ld km' d' :=
  owned.of_conserved reworks.conserved

end Reworks

theorem RolledBack.reworks {low high : Nat} (back : RolledBack low high km d km' d') :
    Reworks km d km' d' where
  conserved := back.conserved
  untouched frame listed owned := by
    refine back.untouched frame listed fun later => ?_
    have total : frame ∈ (km.freelist : Multiset Frame) + d.frames := by
      rw [← back.conserved]
      exact Multiset.mem_add.mpr (.inl (Multiset.mem_coe.mpr later))
    rcases Multiset.mem_add.mp total with free | held
    · exact listed (Multiset.mem_coe.mp free)
    · exact owned held

theorem allocuvm_reworks {oldsz newsz result : Nat} (owned : Owned ld km d)
    (ran : allocuvm ld km d oldsz newsz = .ok (result, km', d')) : Reworks km d km' d' := by
  rcases allocuvm_cases owned ran with
    ⟨_, _, rfl, rfl⟩ | ⟨_, _, _, rfl, rfl⟩ | ⟨_, _, _, extended⟩ | ⟨_, _, _, back⟩
  · exact .refl _ _
  · exact .refl _ _
  · exact ⟨extended.conserved, fun frame listed _ => extended.grows.untouched frame listed⟩
  · exact back.reworks

/-- A store into a page of the directory. -/
theorem store_reworks {frame : Frame} (held : frame ∈ d.frames) (start : Nat) (bytes : List UInt8) :
    Reworks km d (km.store frame start bytes) d where
  conserved := rfl
  untouched _ _ owned := Kmem.store_mem_of_ne km start bytes fun same => owned (same ▸ held)

/-! ## loaduvm and copyout -/

theorem loaduvmLoop_reworks {read : Readi} {addr offset sz : Nat} {pages : List Nat} {loaded : Bool}
    (present : ∀ i ∈ pages, addr + i < kernbase ∧ (d.lookup (addr + i)).isSome = true)
    (ran : loaduvmLoop read d addr offset sz pages km = .ok (loaded, km')) :
    Reworks km d km' d := by
  induction pages generalizing km with
  | nil =>
      cases ran
      exact .refl _ _
  | cons i rest ih =>
      obtain ⟨user, mapped⟩ := present i (List.mem_cons_self ..)
      have small : (addr + i) % 2 ^ 32 = addr + i :=
        Nat.mod_eq_of_lt (Nat.lt_trans user (by decide))
      unfold loaduvmLoop at ran
      rw [small, walkpgdir_false] at ran
      obtain ⟨pte, found⟩ := Option.isSome_iff_exists.mp mapped
      rw [(Pgdir.lookup_eq_some_iff.mp found).1] at ran
      simp only [Option.map_some] at ran
      split at ran
      · cases ran
        exact .refl _ _
      · exact (store_reworks (Pgdir.addr_mem_frames user found) 0 _).trans
          (ih (fun j member => present j (List.mem_cons_of_mem _ member)) ran)

/-- Loading into pages that are present. -/
theorem loaduvm_reworks {read : Readi} {addr offset sz : Nat} {loaded : Bool}
    (limit : addr + sz ≤ kernbase)
    (present : ∀ va, va < addr + sz → (d.lookup va).isSome = true)
    (ran : loaduvm read d addr offset sz km = .ok (loaded, km')) : Reworks km d km' d := by
  unfold loaduvm at ran
  split at ran
  · cases ran
  · refine loaduvmLoop_reworks (fun i member => ?_) ran
    obtain ⟨_, below, _⟩ := (mem_pageAddrs rfl).mp member
    exact ⟨by omega, present _ (by omega)⟩

theorem copyout_reworks (maps : MapsKernel ld d) (quiet : Quiet null) {va : Nat}
    {bytes : List UInt8} {copied : Bool} (bound : va < 2 ^ 32)
    (ran : copyout null d va bytes km = .ok (copied, km', d')) : Reworks km d km' d := by
  fun_induction copyout null d va bytes km with
  | case1 =>
      cases ran
      exact .refl _ _
  | case2 d va km first rest ih =>
      obtain ⟨place, found, tail⟩ := Kern.bind_eq_ok.mp ran
      have low : pgRoundDown va < 2 ^ 32 := Nat.lt_of_le_of_lt (Nat.div_mul_le_self _ _) bound
      cases place with
      | none =>
          cases tail
          exact .refl _ _
      | some frame =>
          obtain ⟨pte, entry, allowed, rfl⟩ := uva2ka_entry quiet found
          obtain ⟨⟨km₁, d₁⟩, stored, tail⟩ := Kern.bind_eq_ok.mp tail
          rw [copyInto_entry entry] at stored
          cases stored
          rw [Bool.and_eq_true] at allowed
          have shown := Pgdir.lookup_eq_some_iff.mpr ⟨entry, allowed.1⟩
          have user : pgRoundDown va < kernbase := by
            by_contra high
            rw [maps.no_user (Nat.le_of_not_lt high) low shown] at allowed
            cases allowed.2
          exact (store_reworks (Pgdir.addr_mem_frames user shown) _ _).trans
            (ih _ _ maps (Nat.mod_lt _ (by decide)) tail)

theorem pushArgs_reworks (maps : MapsKernel ld d) (quiet : Quiet null) {argv : List (List UInt8)}
    {sp : Nat} {ustack : List Nat} {pushed : Option (Nat × List Nat)}
    (ran : pushArgs null d argv sp ustack km = .ok (pushed, km', d')) : Reworks km d km' d := by
  induction argv generalizing sp ustack km with
  | nil =>
      cases ran
      exact .refl _ _
  | cons arg rest ih =>
      unfold pushArgs at ran
      split at ran
      · cases ran
        exact .refl _ _
      · obtain ⟨⟨copied, km₁, d₁⟩, stored, tail⟩ := Kern.bind_eq_ok.mp ran
        have bound : (sp + 2 ^ 32 - (arg.length + 1) % 2 ^ 32) % 2 ^ 32 / 4 * 4 < 2 ^ 32 :=
          Nat.lt_of_le_of_lt (Nat.div_mul_le_self _ _) (Nat.mod_lt _ (by decide))
        have first := copyout_reworks maps quiet bound stored
        obtain rfl := copyout_keeps quiet stored
        cases copied with
        | false =>
            cases tail
            exact first
        | true => exact first.trans (ih tail)

/-! ## The layout of the new image -/

/-- A directory without user pages. -/
theorem Layout.empty (unmapped : ∀ va, va < kernbase → d.lookup va = none) : Layout d 0 0 := by
  refine ⟨Nat.zero_le _, by decide, fun va user => ?_⟩
  rw [unmapped va user]
  have zero : pgRoundUp 0 = 0 := by decide
  rw [zero]
  change va < 2147483648 at user
  constructor
  · intro impossible
    cases impossible
  · rintro (impossible | high)
    · exact absurd impossible (Nat.not_lt_zero va)
    · change 2147483648 - 0 * 4096 ≤ va at high
      omega

/-- The heap grows. -/
theorem Layout.heap {sz psize newsz : Nat} (layout : Layout d sz psize) (order : sz ≤ newsz)
    (user : newsz < kernbase) (extended : Extended (pageAddrs (pgRoundUp sz) newsz) km d km' d') :
    Layout d' newsz psize := by
  refine ⟨Nat.le_of_lt user, layout.stack_le, fun va below => ?_⟩
  have bound : va < 2 ^ 32 := Nat.lt_trans below (by decide)
  have old := pgRoundUp_mod sz
  have new := pgRoundUp_mod newsz
  have low := le_pgRoundUp layout.heap_le
  have near := pgRoundUp_lt layout.heap_le
  have high := le_pgRoundUp (Nat.le_of_lt user)
  have close := pgRoundUp_lt (Nat.le_of_lt user)
  have pages := @mem_pageAddrs (pgRoundUp sz) newsz (pgRoundDown va) old
  by_cases member : pgRoundDown va ∈ pageAddrs (pgRoundUp sz) newsz
  · obtain ⟨frame, found⟩ := extended.added va bound member
    rw [found]
    obtain ⟨_, inside, _⟩ := pages.mp member
    refine ⟨fun _ => .inl ?_, fun _ => rfl⟩
    simp only [pgRoundDown, pgsize] at *
    omega
  · rw [extended.others va bound member, layout.exact va below]
    have outside := mt pages.mpr member
    have aligned := pgRoundDown_mod va
    have inside : va < pgRoundUp sz ↔ va < pgRoundUp newsz := by
      simp only [pgRoundDown, pgsize] at *
      omega
    rw [inside]

/-- The first stack page, the one directly below `KERNBASE`. -/
theorem Layout.firstStack {sz : Nat} (layout : Layout d sz 0)
    (extended : Extended (pageAddrs (pgRoundUp (pgRoundUp (stackbase - pgsize))) stackbase)
      km d km' d') : Layout d' sz 1 := by
  refine ⟨layout.heap_le, by decide, fun va below => ?_⟩
  have bound : va < 2 ^ 32 := Nat.lt_trans below (by decide)
  have start : pgRoundUp (pgRoundUp (stackbase - pgsize)) = 0x7FFFF000 := by decide
  rw [start] at extended
  have pages := @mem_pageAddrs 0x7FFFF000 stackbase (pgRoundDown va) (by decide)
  change va < 0x80000000 at below
  by_cases member : pgRoundDown va ∈ pageAddrs 0x7FFFF000 stackbase
  · obtain ⟨frame, found⟩ := extended.added va bound member
    rw [found]
    obtain ⟨first, _⟩ := pages.mp member
    refine ⟨fun _ => .inr ?_, fun _ => rfl⟩
    change 0x80000000 - 1 * 4096 ≤ va
    change 0x7FFFF000 ≤ va / 4096 * 4096 at first
    omega
  · rw [extended.others va bound member, layout.exact va below]
    have outside := mt pages.mpr member
    have edge : ¬ 0x7FFFF000 ≤ va := by
      intro high
      refine outside ⟨?_, ?_, pgRoundDown_mod va⟩
      · change 0x7FFFF000 ≤ va / 4096 * 4096
        omega
      · change va / 4096 * 4096 < 0x80000000 - 1
        omega
    have none : ¬ kernbase - 0 * pgsize ≤ va := by
      change ¬ 0x80000000 - 0 * 4096 ≤ va
      omega
    have none' : ¬ kernbase - 1 * pgsize ≤ va := edge
    simp only [none, none', or_false]

/-! ## exec -/

/-- What the loading of a program keeps, and what it has built when it succeeds. -/
theorem execLoad_cases {read : Readi} {left off sz : Nat} {loaded : Option Nat}
    (owned : Owned ld km d) (maps : MapsKernel ld d) (layout : Layout d sz 0)
    (ran : execLoad ld read left off sz km d = .ok (loaded, km', d')) :
    Reworks km d km' d' ∧ MapsKernel ld d' ∧ ∀ sz', loaded = some sz' → Layout d' sz' 0 := by
  induction left generalizing off sz km d with
  | zero =>
      cases ran
      refine ⟨.refl _ _, maps, fun sz' same => ?_⟩
      cases same
      exact layout
  | succ left ih =>
      have bad : Reworks km d km d ∧ MapsKernel ld d ∧ ∀ sz', none = some sz' → Layout d sz' 0 :=
        ⟨.refl _ _, maps, fun _ impossible => by cases impossible⟩
      unfold execLoad at ran
      split at ran
      · cases ran
        exact bad
      · next bytes _ =>
          simp only at ran
          split at ran
          · exact ih owned maps layout ran
          split at ran
          · cases ran
            exact bad
          split at ran
          · cases ran
            exact bad
          next small wraps =>
          obtain ⟨⟨size, km₁, d₁⟩, grown, tail⟩ := Kern.bind_eq_ok.mp ran
          have reworks := allocuvm_reworks owned grown
          have maps₁ := (allocuvm_sameKernel grown).maps maps
          have failed : Reworks km d km₁ d₁ ∧ MapsKernel ld d₁ ∧
              ∀ sz', none = some sz' → Layout d₁ sz' 0 :=
            ⟨reworks, maps₁, fun _ impossible => by cases impossible⟩
          simp only at tail
          split at tail
          · cases tail
            exact failed
          next positive =>
          split at tail
          · cases tail
            exact failed
          · obtain ⟨⟨done, km₂⟩, read, last⟩ := Kern.bind_eq_ok.mp tail
            -- the segment ends below the size that has been allocated
            have word := leWord_lt bytes 8
            have long := leWord_lt bytes 20
            have user := allocuvm_user grown positive
            have grownLayout : Layout d₁ size 0 ∧
                (Proghdr.parse bytes).vaddr + (Proghdr.parse bytes).filesz ≤ size := by
              rcases allocuvm_cases owned grown with
                ⟨_, zero, _⟩ | ⟨shorter, _, rfl, rfl, rfl⟩ | ⟨order, _, rfl, extended⟩ | ⟨_, _, zero, _⟩
              · exact absurd zero positive
              · refine ⟨layout, ?_⟩
                simp only [Proghdr.parse] at *
                omega
              · refine ⟨layout.heap order user extended, ?_⟩
                simp only [Proghdr.parse] at *
                omega
              · exact absurd zero positive
            obtain ⟨layout₁, fits⟩ := grownLayout
            have heap := layout₁.heap_le
            have stored := loaduvm_reworks (Nat.le_trans fits heap) (fun va inside =>
              (layout₁.exact va (by omega)).mpr (.inl
                (Nat.lt_of_lt_of_le inside (Nat.le_trans fits (le_pgRoundUp heap))))) read
            cases done with
            | false =>
                cases last
                exact ⟨reworks.trans stored, maps₁, fun _ impossible => by cases impossible⟩
            | true =>
                obtain ⟨rest, maps₂, built⟩ :=
                  ih (stored.owned (reworks.owned owned)) maps₁ layout₁ last
                exact ⟨(reworks.trans stored).trans rest, maps₂, built⟩

theorem execStack_cases {argv : List (List UInt8)} {sz : Nat} {stacked : Option Nat}
    (owned : Owned ld km d) (maps : MapsKernel ld d) (layout : Layout d sz 0) (quiet : Quiet null)
    (ran : execStack null ld argv km d = .ok (stacked, km', d')) :
    Reworks km d km' d' ∧ MapsKernel ld d' ∧ ∀ sp, stacked = some sp → Layout d' sz 1 := by
  obtain ⟨⟨result, km₁, d₁⟩, grown, tail⟩ := Kern.bind_eq_ok.mp ran
  have reworks := allocuvm_reworks owned grown
  have maps₁ := (allocuvm_sameKernel grown).maps maps
  simp only at tail
  split at tail
  · cases tail
    exact ⟨reworks, maps₁, fun _ impossible => by cases impossible⟩
  · next positive =>
      have layout₁ : Layout d₁ sz 1 := by
        rcases allocuvm_cases owned grown with
          ⟨high, _⟩ | ⟨shorter, _⟩ | ⟨_, _, _, extended⟩ | ⟨_, _, zero, _⟩
        · exact absurd high (by decide)
        · exact absurd shorter (by decide)
        · exact layout.firstStack extended
        · exact absurd zero positive
      obtain ⟨⟨pushed, km₂, d₂⟩, args, rest⟩ := Kern.bind_eq_ok.mp tail
      have stored := reworks.trans (pushArgs_reworks maps₁ quiet args)
      obtain rfl := pushArgs_keeps quiet args
      cases pushed with
      | none =>
          cases rest
          exact ⟨stored, maps₁, fun _ impossible => by cases impossible⟩
      | some pair =>
          obtain ⟨sp, words⟩ := pair
          obtain ⟨⟨copied, km₃, d₃⟩, last, ended⟩ := Kern.bind_eq_ok.mp rest
          cases ended
          have copy := copyout_reworks maps₁ quiet (Nat.mod_lt _ (by decide)) last
          obtain rfl := copyout_keeps quiet last
          exact ⟨stored.trans copy, maps₁, fun _ _ => layout₁⟩

/-! ## The whole call -/

section Call

variable {s s' : Kernel} {p : Slot} {file : Option Readi} {name : String}
  {argv : List (List UInt8)} {value : Int}

/-- The directory that `setupkvm` makes. -/
theorem setupkvm_made {km' : Kmem} (free : FreeOk ld km)
    (ran : setupkvm ld km = .ok (some d, km')) :
    (km'.freelist : Multiset Frame) + d.frames = km.freelist ∧ Owned ld km' d ∧
      MapsKernel ld d ∧ Layout d 0 0 ∧
      ∀ frame, frame ∉ km.freelist → km'.mem frame = km.mem frame := by
  rcases setupkvm_ok free ran with ⟨d', same, total, unmapped, _, _, kept⟩ | ⟨none, _⟩
  · cases same
    refine ⟨total, ⟨?_, fun frame member => free.valid frame ?_⟩, setupkvm_maps ran,
      .empty unmapped, kept⟩
    · rw [total]
      exact Multiset.coe_nodup.mpr free.nodup
    · rw [total] at member
      exact Multiset.mem_coe.mp member
  · cases none

/-- `exec` has failed: the pages it took are free again, and nothing else has changed. -/
structure ExecFailed (s s' : Kernel) : Prop where
  kernel : ∃ km, s' = s.setKmem km
  free : (s'.kmem.freelist : Multiset Frame) = s.kmem.freelist
  untouched : ∀ frame, frame ∉ s.kmem.freelist → s'.kmem.mem frame = s.kmem.mem frame

theorem execBad_value (ran : execBad ld s km d = .ok (value, s')) : value = -1 := by
  obtain ⟨_, _, ended⟩ := Kern.bind_eq_ok.mp ran
  cases ended
  rfl

/-- The label `bad` gives back the whole new directory. -/
theorem execBad_failed (owned : Owned ld km d)
    (total : (km.freelist : Multiset Frame) + d.frames = s.kmem.freelist)
    (kept : ∀ frame, frame ∉ s.kmem.freelist → km.mem frame = s.kmem.mem frame)
    (ran : execBad ld s km d = .ok (value, s')) : value = -1 ∧ ExecFailed s s' := by
  obtain ⟨km', freed, back, untouched⟩ := freevm_ok km owned.validFrames
  unfold execBad at ran
  rw [freed] at ran
  cases ran
  refine ⟨rfl, ⟨km', rfl⟩, back.trans total, fun frame used => ?_⟩
  have gone : frame ∉ km'.freelist := by
    intro listed
    have inside : frame ∈ (km'.freelist : Multiset Frame) := Multiset.mem_coe.mpr listed
    rw [back, total] at inside
    exact used (Multiset.mem_coe.mp inside)
  exact (untouched frame gone).trans (kept frame used)

/-- The parts of a call of `exec` that succeeds. -/
structure ExecParts (null : Option Pte) (ld : Linkage) (read : Readi) (name : String)
    (argv : List (List UInt8)) (s : Kernel) (p : Slot) (s' : Kernel) where
  header : List UInt8
  d₀ : Pgdir
  km₀ : Kmem
  sz : Nat
  d₁ : Pgdir
  km₁ : Kmem
  sp : Nat
  d₂ : Pgdir
  km₂ : Kmem
  elf : read 0 52 = some header
  magic : (Elfhdr.parse header).magic = elfMagic
  made : setupkvm ld s.kmem = .ok (some d₀, km₀)
  loaded : execLoad ld read (Elfhdr.parse header).phnum (Elfhdr.parse header).phoff 0 km₀ d₀ =
    .ok (some sz, km₁, d₁)
  stacked : execStack null ld argv km₁ d₁ = .ok (some sp, km₂, d₂)
  commit : execCommit ld s p name (Elfhdr.parse header).entry sz sp km₂ d₂ = .ok (0, s')

theorem execCommit_value {entry sz sp : Nat}
    (ran : execCommit ld s p name entry sz sp km d = .ok (value, s')) : value = 0 := by
  unfold execCommit at ran
  obtain ⟨_, _, ran⟩ := Kern.bind_eq_ok.mp ran
  obtain ⟨km', _, ran⟩ := Kern.bind_eq_ok.mp ran
  cases ran
  rfl

/-- A call of `exec` that returns has failed, or has gone through all its parts. -/
theorem execReading_cases (free : FreeOk ld s.kmem)
    (ran : execReading null ld file name argv s p = .ok (value, s')) :
    (value = -1 ∧ (Quiet null → ExecFailed s s')) ∨
      (value = 0 ∧ ∃ read, file = some read ∧
        Nonempty (ExecParts null ld read name argv s p s')) := by
  have nothing : Quiet null → ExecFailed s s := fun _ => ⟨⟨s.kmem, rfl⟩, rfl, fun _ _ => rfl⟩
  unfold execReading at ran
  cases file with
  | none =>
      cases ran
      exact .inl ⟨rfl, nothing⟩
  | some read =>
      cases elf : read 0 52 with
      | none =>
          simp only [elf] at ran
          cases ran
          exact .inl ⟨rfl, nothing⟩
      | some header =>
          simp only [elf] at ran
          split at ran
          · cases ran
            exact .inl ⟨rfl, nothing⟩
          next notMagic =>
          obtain ⟨⟨dir, km₀⟩, made, ran⟩ := Kern.bind_eq_ok.mp ran
          cases dir with
          | none =>
              cases ran
              rcases setupkvm_ok free made with ⟨_, impossible, _⟩ | ⟨_, total, kept⟩
              · cases impossible
              · exact .inl ⟨rfl, fun _ => ⟨⟨km₀, rfl⟩, total, kept⟩⟩
          | some d₀ =>
              obtain ⟨total, owned, maps, layout, kept⟩ := setupkvm_made free made
              obtain ⟨⟨size, km₁, d₁⟩, loaded, ran⟩ := Kern.bind_eq_ok.mp ran
              obtain ⟨reworks, maps₁, built⟩ := execLoad_cases owned maps layout loaded
              have owned₁ := reworks.owned owned
              have total₁ := reworks.conserved.trans total
              -- a page that was not free before is not in the new directory either
              have apart : ∀ {frame}, frame ∉ s.kmem.freelist →
                  frame ∉ km₀.freelist ∧ frame ∉ d₀.frames := by
                intro frame used
                have outside : frame ∉ (km₀.freelist : Multiset Frame) + d₀.frames := by
                  rw [total]
                  exact fun member => used (Multiset.mem_coe.mp member)
                rw [Multiset.mem_add, not_or] at outside
                exact ⟨fun listed => outside.1 (Multiset.mem_coe.mpr listed), outside.2⟩
              have kept₁ : ∀ frame, frame ∉ s.kmem.freelist →
                  km₁.mem frame = s.kmem.mem frame := fun frame used =>
                (reworks.untouched frame (apart used).1 (apart used).2).trans (kept frame used)
              cases size with
              | none =>
                  obtain ⟨minus, failed⟩ := execBad_failed owned₁ total₁ kept₁ ran
                  exact .inl ⟨minus, fun _ => failed⟩
              | some sz =>
                  obtain ⟨⟨stack, km₂, d₂⟩, stacked, ran⟩ := Kern.bind_eq_ok.mp ran
                  cases stack with
                  | none =>
                      refine .inl ⟨execBad_value ran, fun quiet => ?_⟩
                      obtain ⟨more, _, _⟩ :=
                        execStack_cases owned₁ maps₁ (built sz rfl) quiet stacked
                      have both := reworks.trans more
                      refine (execBad_failed (more.owned owned₁) (both.conserved.trans total)
                        (fun frame used => ?_) ran).2
                      exact (both.untouched frame (apart used).1 (apart used).2).trans
                        (kept frame used)
                  | some sp =>
                      obtain rfl := execCommit_value ran
                      exact .inr ⟨rfl, read, rfl, ⟨⟨header, d₀, km₀, sz, d₁, km₁, sp, d₂, km₂, elf,
                        of_not_not notMagic, made, loaded, stacked, ran⟩⟩⟩

/-- The same for a call that neither stores through the null pointer nor faults at it. -/
theorem exec_cases (free : FreeOk ld s.kmem) (careful : ¬ExecStrays ld file name argv s p)
    (ran : exec ld file name argv s p = .ok (value, s')) :
    (value = -1 ∧ ExecFailed s s') ∨
      (value = 0 ∧ ∃ null read, Quiet null ∧ file = some read ∧
        Nonempty (ExecParts null ld read name argv s p s')) := by
  obtain ⟨null, quiet, same⟩ := exec_quiet careful
  rw [same] at ran
  rcases execReading_cases free ran with ⟨minus, failed⟩ | ⟨zero, read, found, parts⟩
  · exact .inl ⟨minus, failed quiet⟩
  · exact .inr ⟨zero, null, read, quiet, found, parts⟩

end Call

end SlabStudy.Xv6
