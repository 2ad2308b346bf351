import SlabStudy.Xv6.ThreadInvariant

/-!
# How a new thread starts

`allocproc` builds a stack on which `swtch` finds a context and `forkret` the way
out of the kernel, and `fork` copies its caller's trap frame on it.  The child
comes out of the kernel as a copy of its parent that has got zero.
-/

namespace SlabStudy.Xv6.Assembly

open Library

variable {T : Type} {text : Text} {areas : Areas T} {t u : T} {m : ByteMemory}
  {r : X86.Regs}

/-- The stack that `allocproc` makes: room for a trap frame, the address of
`trapret`, and a context of zeros that goes on in `forkret`.  `slot` is where
the address of the context is kept. -/
def allocproc (trapret forkret slot top : BitVec 32) (m : ByteMemory) : ByteMemory :=
  let tf := top - 76
  let sp := tf - 4
  let m := m.setWord sp trapret
  let context := sp - 20
  let m := m.setWord slot context
  let m := m.clear context 20
  m.setWord (context + 16) forkret

/-- `fork` copies the trap frame and clears its `eax`. -/
def copyFrame (tf old : BitVec 32) (m : ByteMemory) : ByteMemory :=
  (m.copy tf old 76).setWord (tf + 28) 0

/-- Where a new thread has its trap frame. -/
def frameAt (areas : Areas T) (u : T) : BitVec 32 := BitVec.ofNat 32 (areas.high u) - 76

/-- What `fork` writes for the child `u` of a parent with its trap frame at `old`. -/
def fork (text : Text) (areas : Areas T) (u : T) (old : BitVec 32) (m : ByteMemory) : ByteMemory :=
  copyFrame (frameAt areas u) old
    (allocproc text.trapretAt text.forkretAt (areas.slot u) (BitVec.ofNat 32 (areas.high u)) m)

theorem frameAt_toNat (room : areas.low u + 100 ≤ areas.high u) :
    (frameAt areas u).toNat + 76 = areas.high u := by
  have fits := areas.fits u
  unfold frameAt
  bv_omega

/-- The words that `allocproc` writes. -/
theorem allocproc_words (trapret forkret : BitVec 32) {slot top : BitVec 32} {low high : Nat}
    (fits : high < 2 ^ 32) (place : top.toNat = high) (room : low + 100 ≤ high)
    (own : Disjoint (wordSpan slot) (span low high)) (m : ByteMemory) :
    let m' := allocproc trapret forkret slot top m
    m'.word slot = top - 100 ∧ m'.word (top - 80) = trapret ∧ m'.word (top - 84) = forkret ∧
      (∀ k : BitVec 32, k.toNat + 4 ≤ 16 → m'.word (top - 100 + k) = 0) ∧
      ∀ b, b ∉ wordSpan slot → b ∉ span low high → m' b = m b := by
  intro m'
  have context : top - 80 - 20 = top - 100 := by bv_omega
  have ret : top - 76 - 4 = top - 80 := by bv_omega
  have pc : top - 100 + 16 = top - 84 := by bv_omega
  have shape : m' = (((m.setWord (top - 80) trapret).setWord slot (top - 100)).clear
      (top - 100) 20).setWord (top - 84) forkret := by
    simp only [m', allocproc, context, ret, pc]
  have stack {a : BitVec 32} {n : Nat} (first : low ≤ a.toNat) (last : a.toNat + n ≤ high) :
      Disjoint (bytesAt a n) (wordSpan slot) :=
    (own.mono_right (bytesAt_subset_span first last fits.le)).symm
  refine ⟨?_, ?_, ?_, fun k inside => ?_, fun b outer above => ?_⟩
  · rw [shape, word_setWord_of_disjoint (stack (by bv_omega) (by bv_omega)),
      word_clear_of_disjoint (stack (by bv_omega) (by bv_omega)), word_setWord]
  · rw [shape, word_setWord_of_disjoint (wordSpan_disjoint (by bv_omega) (by bv_omega)),
      word_clear_of_disjoint (bytesAt_disjoint_wordSpan (by bv_omega) (by bv_omega)),
      word_setWord_of_disjoint (stack (by bv_omega) (by bv_omega)).symm, word_setWord]
  · rw [shape, word_setWord]
  · rw [shape, word_setWord_of_disjoint (wordSpan_disjoint (by bv_omega) (by bv_omega))]
    exact word_clear (by omega) (by decide)
  · have outside {a : BitVec 32} {n : Nat} (first : low ≤ a.toNat) (last : a.toNat + n ≤ high) :
        b ∉ bytesAt a n := fun inner => above (bytesAt_subset_span first last fits.le inner)
    rw [shape, setWord_outside (outside (by bv_omega) (by bv_omega)),
      clear_outside (outside (by bv_omega) (by bv_omega)), setWord_outside outer,
      setWord_outside (outside (by bv_omega) (by bv_omega))]

/-- A store to the frame's `eax`. -/
theorem Saves.setEax {base : BitVec 32} (saves : Saves m base r) (v : BitVec 32) :
    Saves (m.setWord (base + 28) v) base (r.set .eax v) := by
  have word {k : BitVec 32} (last : k.toNat + 4 ≤ 76) (apart : 32 ≤ k.toNat ∨ k.toNat + 4 ≤ 28) :
      (m.setWord (base + 28) v).word (base + k) = m.word (base + k) := by
    refine word_setWord_of_disjoint ?_
    rcases apart with low | high <;> exact wordSpan_disjoint (by bv_omega) (by bv_omega)
  have same (q : X86.Seg) : (r.set .eax v).seg q = r.seg q := rfl
  have sp : (r.set .eax v).sp = r.sp := by simp [X86.Regs.sp]
  refine ⟨fun reg other => ?_, fun q other => ?_, ?_, ?_, fun user => ⟨?_, ?_⟩, fun inner => ?_⟩
  · by_cases first : reg = .eax
    · subst first
      simp [gprOffset]
    · rw [word (by cases reg <;> decide)
        (by cases reg <;> first | decide | exact absurd rfl first)]
      simpa [first] using saves.gpr reg other
  · rw [word (by cases q <;> decide) (by cases q <;> decide), same]
    exact saves.seg q other
  · rw [word (by decide) (by decide)]
    exact saves.eip
  · rw [word (by decide) (by decide)]
    exact saves.eflags
  · rw [word (by decide) (by decide), sp]
    exact (saves.user user).1
  · rw [word (by decide) (by decide), same]
    exact (saves.user user).2
  · rw [sp]
    exact saves.kernel inner

/-- A copy of a frame of user code. -/
theorem Saves.copy {tf old : BitVec 32} (saves : Saves m old r) (user : r.User) :
    Saves (m.copy tf old 76) tf r := by
  have word {k : BitVec 32} (last : k.toNat + 4 ≤ 76) :
      (m.copy tf old 76).word (tf + k) = m.word (old + k) := word_copy last (by decide)
  refine ⟨fun reg other => ?_, fun q other => ?_, ?_, ?_, fun _ => ⟨?_, ?_⟩,
    fun no => absurd user no⟩
  · rw [word (by cases reg <;> decide)]
    exact saves.gpr reg other
  · rw [word (by cases q <;> decide)]
    exact saves.seg q other
  · rw [word (by decide)]
    exact saves.eip
  · rw [word (by decide)]
    exact saves.eflags
  · rw [word (by decide)]
    exact (saves.user user).1
  · rw [word (by decide)]
    exact (saves.user user).2

/-- A copied frame holds the registers of the old one, with zero in `eax`. -/
theorem copyFrame_saves {tf old : BitVec 32} (saves : Saves m old r) (user : r.User) :
    Saves (copyFrame tf old m) tf (r.set .eax 0) :=
  (saves.copy user).setEax 0

theorem top_toNat {high : Nat} (fits : high < 2 ^ 32) : (BitVec.ofNat 32 high).toNat = high := by
  bv_omega

/-- A stack of `allocproc` with a frame of user code in its place is a new thread. -/
theorem allocproc_newborn {m' : ByteMemory} (user : r.User)
    (room : areas.low u + 100 ≤ areas.high u) (saves : Saves m' (frameAt areas u) r)
    (below : ∀ b, b ∉ bytesAt (frameAt areas u) 76 → m' b = allocproc text.trapretAt
      text.forkretAt (areas.slot u) (BitVec.ofNat 32 (areas.high u)) m b) :
    Newborn text areas m' u (frameAt areas u) r := by
  have fits := areas.fits u
  have place := frameAt_toNat room
  obtain ⟨slot, ret, pc, zeros, _⟩ := allocproc_words text.trapretAt
    text.forkretAt fits (top_toNat fits) room (areas.own u) m
  have at100 : BitVec.ofNat 32 (areas.high u) - 100 = frameAt areas u - 24 := by
    unfold frameAt
    bv_omega
  have at80 : BitVec.ofNat 32 (areas.high u) - 80 = frameAt areas u - 4 := by
    unfold frameAt
    bv_omega
  have at84 : BitVec.ofNat 32 (areas.high u) - 84 = frameAt areas u - 24 + 16 := by
    unfold frameAt
    bv_omega
  rw [at100] at slot zeros
  rw [at80] at ret
  rw [at84] at pc
  have word {b : BitVec 32} (apart : Disjoint (bytesAt (frameAt areas u) 76) (wordSpan b)) :
      m'.word b = (allocproc text.trapretAt text.forkretAt (areas.slot u)
        (BitVec.ofNat 32 (areas.high u)) m).word b :=
    word_congr fun c inside => below c (Set.disjoint_right.mp apart inside)
  have context (k : BitVec 32) (inside : k.toNat + 4 ≤ 20) :
      Disjoint (bytesAt (frameAt areas u) 76) (wordSpan (frameAt areas u - 24 + k)) :=
    bytesAt_disjoint_wordSpan (by bv_omega) (by bv_omega)
  have zero (k : BitVec 32) (inside : k.toNat + 4 ≤ 16) :
      m'.word (frameAt areas u - 24 + k) = 0 :=
    (word (context k (by omega))).trans (zeros k inside)
  have first : m'.word (frameAt areas u - 24) = 0 := by
    simpa using zero 0 (by decide)
  refine ⟨?_, fun kernel => ⟨first, ?_, ?_, ?_, ?_, ?_⟩, ?_, saves, user, ?_, place⟩
  · rw [word ((areas.own u).symm.mono_left (bytesAt_subset_span (by bv_omega) (by bv_omega)
      fits.le))]
    exact slot
  · exact zero 4 (by decide)
  · exact zero 8 (by decide)
  · exact zero 12 (by decide)
  · rw [word (context 16 (by decide))]
    exact pc
  · simp only [firstView, X86.Regs.sp, if_true]
    bv_omega
  · rw [word (bytesAt_disjoint_wordSpan (by bv_omega) (by bv_omega))]
    exact ret
  · omega

/-- What `fork` writes is a new thread that goes on as a copy of the parent. -/
theorem fork_newborn {old : BitVec 32} (apart : Disjoint (areas.area t) (areas.area u))
    (saves : Saves m old r) (user : r.User)
    (low : areas.low t ≤ old.toNat) (high : old.toNat + 76 ≤ areas.high t)
    (room : areas.low u + 100 ≤ areas.high u) :
    Newborn text areas (fork text areas u old m) u (frameAt areas u) (r.set .eax 0) := by
  have fitsT := areas.fits t
  have fits := areas.fits u
  have size : frameSize r = 76 := if_pos user
  obtain ⟨_, _, _, _, kept⟩ := allocproc_words text.trapretAt
    text.forkretAt fits (top_toNat fits) room (areas.own u) m
  have parent : Set.EqOn m (allocproc text.trapretAt text.forkretAt (areas.slot u)
      (BitVec.ofNat 32 (areas.high u)) m) (span (areas.low t) (areas.high t)) := by
    intro b inside
    have outer := Set.disjoint_left.mp apart (.inl inside)
    exact (kept b (fun pointer => outer (.inr pointer)) fun stack => outer (.inl stack)).symm
  refine allocproc_newborn (m := m) user room
    (copyFrame_saves (saves.congr parent low (by omega) fitsT) user) fun b outside => ?_
  have eax : wordSpan (frameAt areas u + 28) ⊆ bytesAt (frameAt areas u) 76 :=
    wordSpan_subset_bytesAt (by decide) (by decide)
  rw [fork, copyFrame, setWord_outside fun inner => outside (eax inner), copy_outside outside]

/-- `fork` writes to the new process's own memory only. -/
theorem fork_outside {old b : BitVec 32} (room : areas.low u + 100 ≤ areas.high u)
    (outside : b ∉ areas.area u) : fork text areas u old m b = m b := by
  have fits := areas.fits u
  have place := frameAt_toNat room
  obtain ⟨_, _, _, _, kept⟩ := allocproc_words text.trapretAt
    text.forkretAt fits (top_toNat fits) room (areas.own u) m
  have frame : b ∉ bytesAt (frameAt areas u) 76 := fun inner =>
    outside (.inl (bytesAt_subset_span (by omega) (by omega) fits.le inner))
  have eax : wordSpan (frameAt areas u + 28) ⊆ bytesAt (frameAt areas u) 76 :=
    wordSpan_subset_bytesAt (by decide) (by decide)
  rw [fork, copyFrame, setWord_outside fun inner => frame (eax inner), copy_outside frame]
  exact kept b (fun pointer => outside (.inr pointer)) fun stack => outside (.inl stack)

/-! ## The first process -/

/-- What `userinit` stores in the trap frame. -/
def initFrame (tf : BitVec 32) (m : ByteMemory) : ByteMemory :=
  let m := m.clear tf 76
  let m := m.setHalf (tf + 60) 0x1b
  let m := m.setHalf (tf + 44) 0x23
  let m := m.setHalf (tf + 40) (X86.half (m.word (tf + 44)))
  let m := m.setHalf (tf + 72) (X86.half (m.word (tf + 44)))
  let m := m.setWord (tf + 64) 0x200
  let m := m.setWord (tf + 68) 4096
  m.setWord (tf + 56) 0

/-- The first process starts at address zero with a stack of one page. -/
def initRegs : X86.Regs where
  gpr reg := if reg = .esp then 4096 else 0
  seg
    | .cs => 0x1b
    | .ds | .es | .ss => 0x23
    | .fs | .gs => 0
  eip := 0
  eflags := 0x200

theorem initRegs_user : initRegs.User := by
  unfold X86.Regs.User
  decide

theorem initFrame_words (tf : BitVec 32) (m : ByteMemory) :
    let m' := initFrame tf m
    (∀ k : BitVec 32, k.toNat + 4 ≤ 40 → m'.word (tf + k) = 0) ∧
      X86.half (m'.word (tf + 40)) = 0x23 ∧ X86.half (m'.word (tf + 44)) = 0x23 ∧
      m'.word (tf + 56) = 0 ∧ X86.half (m'.word (tf + 60)) = 0x1b ∧ m'.word (tf + 64) = 0x200 ∧
      m'.word (tf + 68) = 4096 ∧ X86.half (m'.word (tf + 72)) = 0x23 := by
  unfold initFrame X86.half
  have zero (k : BitVec 32) (last : k.toNat + 4 ≤ 76) : (m.clear tf 76).word (tf + k) = 0 :=
    word_clear last (by decide)
  have apart {j k : BitVec 32} (low : j.toNat ≤ 72) (low' : k.toNat ≤ 72)
      (far : j.toNat + 4 ≤ k.toNat ∨ k.toNat + 4 ≤ j.toNat) :
      Disjoint (wordSpan (tf + j)) (wordSpan (tf + k)) := by
    rcases far with far | far <;> exact wordSpan_disjoint (by bv_omega) (by bv_omega)
  have past {j k : BitVec 32} {v : BitVec 32} (m : ByteMemory) (low : j.toNat ≤ 72)
      (low' : k.toNat ≤ 72) (far : j.toNat + 4 ≤ k.toNat ∨ k.toNat + 4 ≤ j.toNat) :
      (m.setWord (tf + j) v).word (tf + k) = m.word (tf + k) :=
    word_setWord_of_disjoint (apart low low' far)
  have pastHalf {j k : BitVec 32} {v : BitVec 16} (m : ByteMemory) (low : j.toNat ≤ 72)
      (low' : k.toNat ≤ 72) (far : j.toNat + 4 ≤ k.toNat ∨ k.toNat + 4 ≤ j.toNat) :
      (m.setHalf (tf + j) v).word (tf + k) = m.word (tf + k) :=
    word_setHalf_of_disjoint (apart low low' far)
  refine ⟨fun k last => ?_, ?_, ?_, ?_, ?_, ?_, ?_, ?_⟩
  · simp (disch := grind) only [past, pastHalf, zero]
  all_goals
    simp (disch := decide) only [past, pastHalf, word_setWord, half_word_setHalf]

theorem initFrame_saves (tf : BitVec 32) (m : ByteMemory) :
    Saves (initFrame tf m) tf initRegs := by
  obtain ⟨zeros, es, ds, eip, cs, eflags, sp, ss⟩ := initFrame_words tf m
  refine ⟨fun reg other => ?_, fun q other => ?_, eip, eflags, fun _ => ⟨sp, ss⟩,
    fun no => absurd initRegs_user no⟩
  · rw [zeros (gprOffset reg) (by cases reg <;> decide)]
    exact (if_neg other).symm
  · cases q with
    | cs => exact cs
    | ds => exact ds
    | es => exact es
    | fs => exact congrArg X86.half (zeros 36 (by decide))
    | gs => exact congrArg X86.half (zeros 32 (by decide))
    | ss => exact absurd rfl other

/-- What `userinit` writes for the first process. -/
def userinit (text : Text) (areas : Areas T) (u : T) (m : ByteMemory) : ByteMemory :=
  initFrame (frameAt areas u)
    (allocproc text.trapretAt text.forkretAt (areas.slot u) (BitVec.ofNat 32 (areas.high u)) m)

theorem initFrame_outside {tf b : BitVec 32} (outside : b ∉ bytesAt tf 76) :
    initFrame tf m b = m b := by
  have word {k : BitVec 32} (last : k.toNat + 4 ≤ 76) : b ∉ wordSpan (tf + k) :=
    fun inner => outside (wordSpan_subset_bytesAt last (by decide) inner)
  have half {k : BitVec 32} (last : k.toNat + 4 ≤ 76) : b ∉ bytesAt (tf + k) 2 := by
    intro inner
    refine word last ?_
    rw [mem_bytesAt] at inner ⊢
    omega
  unfold initFrame
  rw [setWord_outside (word (by decide)), setWord_outside (word (by decide)),
    setWord_outside (word (by decide)), setHalf_outside (half (by decide)),
    setHalf_outside (half (by decide)), setHalf_outside (half (by decide)),
    setHalf_outside (half (by decide)), clear_outside outside]

theorem userinit_newborn (room : areas.low u + 100 ≤ areas.high u) :
    Newborn text areas (userinit text areas u m) u (frameAt areas u) initRegs :=
  allocproc_newborn initRegs_user room (initFrame_saves _ _) fun _ outside =>
    initFrame_outside outside

/-- `userinit` writes to the new process's own memory only. -/
theorem userinit_outside (room : areas.low u + 100 ≤ areas.high u) {b : BitVec 32}
    (outside : b ∉ areas.area u) : userinit text areas u m b = m b := by
  have fits := areas.fits u
  have place := frameAt_toNat room
  obtain ⟨_, _, _, _, kept⟩ := allocproc_words text.trapretAt
    text.forkretAt fits (top_toNat fits) room (areas.own u) m
  rw [userinit, initFrame_outside fun inner => outside (.inl ?_)]
  · exact kept b (fun pointer => outside (.inr pointer)) fun stack => outside (.inl stack)
  · exact bytesAt_subset_span (by omega) (by omega) fits.le inner

/-- The frame of user code determines the registers. -/
theorem Saves.unique {base : BitVec 32} {r' : X86.Regs} (saves : Saves m base r)
    (saves' : Saves m base r') (user : r.User) (user' : r'.User) : r = r' := by
  obtain ⟨sp, ss⟩ := saves.user user
  obtain ⟨sp', ss'⟩ := saves'.user user'
  ext1
  · funext reg
    by_cases pointer : reg = .esp
    · subst pointer
      exact sp.symm.trans sp'
    · exact (saves.gpr reg pointer).symm.trans (saves'.gpr reg pointer)
  · funext q
    by_cases stack : q = .ss
    · subst stack
      exact ss.symm.trans ss'
    · exact (saves.seg q stack).symm.trans (saves'.seg q stack)
  · exact saves.eip.symm.trans saves'.eip
  · exact saves.eflags.symm.trans saves'.eflags

end SlabStudy.Xv6.Assembly
