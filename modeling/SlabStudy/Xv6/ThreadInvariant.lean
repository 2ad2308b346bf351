import SlabStudy.Xv6.KernelThreads

/-!
# What a thread's stack keeps

Whatever is put on top of it, a stack keeps what the code below goes on with.
The invariant follows the frames of a thread: under each of them lies code that
can go on, in compiled code or in the middle of the assembly.
-/

namespace SlabStudy.Xv6.Assembly

open Library

variable {T C : Type} {text : Text} {areas : Areas T} {t u : T} {r v : X86.Regs}
  {m m' : ByteMemory} {f : Frame} {fs : List Frame}

/-! ## Words of a frame -/

/-- The words of a frame are a part of the stack above its address. -/
theorem word_in_frame {low high : Nat} {base k : BitVec 32} (below : low ≤ base.toNat)
    (above : base.toNat + k.toNat + 4 ≤ high) (fits : high < 2 ^ 32) :
    wordSpan (base + k) ⊆ span low high := by
  have place : (base + k).toNat = base.toNat + k.toNat := by bv_omega
  exact bytesAt_subset_span (by omega) (by omega) (by omega)

/-- Memories that agree on the stack from `low` on, which the frame is a part of,
hold the same frame. -/
theorem Tail.congr {base : BitVec 32} {low high : Nat} (tail : Tail m base r)
    (same : Set.EqOn m m' (span low high)) (below : low ≤ base.toNat + 56)
    (above : base.toNat + frameSize r ≤ high) (fits : high < 2 ^ 32) : Tail m' base r := by
  have word (k : BitVec 32) (first : 56 ≤ k.toNat) (last : k.toNat + 4 ≤ frameSize r) :
      m'.word (base + k) = m.word (base + k) := by
    have place : (base + k).toNat = base.toNat + k.toNat := by bv_omega
    exact (word_congr (same.mono (bytesAt_subset_span (by omega) (by omega) (by omega)))).symm
  have inner : 68 ≤ frameSize r := by
    unfold frameSize
    split <;> decide
  have outer (user : r.User) : frameSize r = 76 := if_pos user
  refine ⟨?_, ?_, ?_, fun user => ?_, tail.kernel⟩
  · rw [word 56 (by decide) (by simpa using by omega)]
    exact tail.eip
  · rw [word 60 (by decide) (by simpa using by omega)]
    exact tail.cs
  · rw [word 64 (by decide) (by simpa using by omega)]
    exact tail.eflags
  · rw [word 68 (by decide) (by simpa using by rw [outer user]; decide),
      word 72 (by decide) (by simpa using by rw [outer user])]
    exact tail.user user

theorem Saves.congr {base : BitVec 32} {low high : Nat} (saves : Saves m base r)
    (same : Set.EqOn m m' (span low high)) (below : low ≤ base.toNat)
    (above : base.toNat + frameSize r ≤ high) (fits : high < 2 ^ 32) : Saves m' base r := by
  have inner : 68 ≤ frameSize r := by
    unfold frameSize
    split <;> decide
  have word (k : BitVec 32) (last : k.toNat + 4 ≤ 68) : m'.word (base + k) = m.word (base + k) :=
    (word_congr (same.mono (word_in_frame below (by omega) fits))).symm
  have tail := saves.tail.congr same (by omega) above fits
  refine ⟨fun reg other => ?_, fun q other => ?_, tail.eip, tail.eflags, tail.user, tail.kernel⟩
  · rw [word (gprOffset reg) (by cases reg <;> decide)]
    exact saves.gpr reg other
  · rw [word (segOffset q) (by cases q <;> first | decide | exact absurd rfl other)]
    exact saves.seg q other

/-- The instructions that go on with the next one and leave the segments of the
code and the stack alone. -/
def plain (i : X86.Instr) : Bool := X86.falls i && X86.keepsSeg .cs i && X86.keepsSeg .ss i

theorem exec_plain {i : X86.Instr} (easy : plain i) (e : BitVec 32) (s : X86.State) :
    (X86.exec e i s).1.eip = e ∧ (X86.exec e i s).1.seg .cs = s.1.seg .cs ∧
      (X86.exec e i s).1.seg .ss = s.1.seg .ss := by
  unfold plain at easy
  rw [Bool.and_eq_true, Bool.and_eq_true] at easy
  exact ⟨X86.exec_eip easy.1.1 s, X86.exec_seg easy.1.2 s, X86.exec_seg easy.2 s⟩

theorem Text.fetch_after {text : Text} {e : BitVec 32} {i : X86.Instr} {rest : List X86.Instr}
    (code : text.fetch e = i :: rest) (more : rest ≠ []) : text.fetch (text.next e) = rest := by
  cases rest with
  | nil => exact absurd rfl more
  | cons j rest => exact text.fetch_next code

/-! ## The invariant of a stack -/

section Invariant

variable (text : Text) (areas : Areas T) (t : T)

/-- A frame lies within the stack, and its code returns to the way out. -/
structure FrameOk (f : Frame) : Prop where
  exits : (text.fetch f.exit = .add 4 .esp :: trapret ∧ f.exitSp = f.base - 4) ∨
    (text.fetch f.exit = trapret ∧ f.exitSp = f.base)
  low : areas.low t + 8 ≤ f.base.toNat
  high : f.base.toNat + frameSize f.regs ≤ areas.high t
  syscall : f.syscall = true → f.regs.User

/-- Where the code on top of frame `f` is: in compiled code, on the way to it, or
on the way back from it. -/
inductive Level (f : Frame) (r : X86.Regs) (m : ByteMemory) : Prop where
  | compiled (code : text.fetch r.eip = []) (saves : Saves m f.base f.regs)
      (below : r.sp.toNat ≤ f.base.toNat)
  | entering (body todo : List X86.Instr) (k : Nat) (easy : body.all plain)
      (code : (text.fetch r.eip = body ++ .call text.trapAt :: .add 4 .esp :: trapret ∧
          todo = body ++ [.call text.trapAt]) ∨
        (text.fetch r.eip = body ++ [.jmp text.alltrapsAt] ∧
          todo = body ++ .jmp text.alltrapsAt :: buildFrame text.trapAt))
      (sinks : X86.total X86.sinks todo = some k)
      (sp : r.sp.toNat + 8 = f.base.toNat + k)
      (below : r.sp.toNat ≤ f.base.toNat + frameSize f.regs)
      (saves : Saves (X86.runs text.next todo (r, m)).2 f.base f.regs)
      (last : (X86.runs text.next todo (r, m)).1.eip = text.trapAt)
  | leaving (rest : List X86.Instr) (k : Nat) (easy : rest.all plain)
      (code : text.fetch r.eip = rest ++ [.iret])
      (lifts : X86.total X86.lifts rest = some k) (sp : r.sp.toNat + k = f.base.toNat + 56)
      (restored : Restored f.base f.regs (X86.runs text.next rest (r, m)).1)
      (tail : Tail m f.base f.regs)

/-- A thread with the registers `r` and these frames can go on to its end. -/
def Good (m : ByteMemory) : X86.Regs → List Frame → Prop
  | r, [] => r.User ∨
      InKernel r ∧ text.fetch r.eip = [] ∧ areas.low t ≤ r.sp.toNat ∧ r.sp.toNat ≤ areas.high t
  | r, f :: fs => InKernel r ∧ areas.low t ≤ r.sp.toNat ∧ FrameOk text areas t f ∧
      Level text f r m ∧ Good m f.regs fs

end Invariant

theorem frameSize_cases (r : X86.Regs) :
    r.User ∧ frameSize r = 76 ∨ ¬ r.User ∧ frameSize r = 68 := by
  unfold frameSize
  split
  · exact .inl ⟨‹_›, rfl⟩
  · exact .inr ⟨‹_›, rfl⟩

/-- Kernel code goes on above its frame. -/
theorem Level.above (level : Level text f r m) (inner : ¬ f.regs.User) :
    f.regs.sp = f.base + 68 := by
  cases level with
  | compiled _ saves _ => exact saves.kernel inner
  | entering _ _ _ _ _ _ _ _ saves _ => exact saves.kernel inner
  | leaving _ _ _ _ _ _ _ tail => exact tail.kernel inner

theorem Level.sp_le (level : Level text f r m) (ok : FrameOk text areas t f)
    (inner : ¬ f.regs.User) (fits : areas.high t < 2 ^ 32) : r.sp.toNat ≤ f.regs.sp.toNat := by
  have high := ok.high
  have size : frameSize f.regs = 68 := if_neg inner
  have above : f.regs.sp.toNat = f.base.toNat + 68 := by
    rw [level.above inner]
    bv_omega
  cases level with
  | compiled _ _ below => omega
  | entering _ _ _ _ _ _ _ below _ _ => omega
  | leaving _ _ _ _ _ sp _ _ => omega

/-- The code on top of a frame needs the stack from its stack pointer on only. -/
theorem Level.congr (level : Level text f r m) (ok : FrameOk text areas t f)
    (fits : areas.high t < 2 ^ 32) (same : Set.EqOn m m' (span r.sp.toNat (areas.high t))) :
    Level text f r m' := by
  have low := ok.low
  have high := ok.high
  rcases level with ⟨code, saves, below⟩ |
    ⟨body, todo, k, easy, code, sinks, sp, below, saves, last⟩ | ⟨rest, k, easy, code, lifts, sp, restored, tail⟩
  · exact .compiled code (saves.congr same below high fits) below
  · have steady : X86.Steady text.next 0 (areas.high t) todo (r, m) := by
      refine X86.steady_sinks sinks ?_ ?_ fits
      · dsimp only
        omega
      · dsimp only
        omega
    obtain ⟨regs, memory, _⟩ := X86.runs_steady (r, m') steady same rfl
    have bottom := X86.runs_sinks text.next (s := (r, m)) sinks (by dsimp only; omega)
    dsimp only at bottom
    refine .entering body todo k easy code sinks sp below (saves.congr memory ?_ high fits) ?_
    · rw [bottom]
      omega
    · rw [← regs]
      exact last
  · have size := frameSize_cases f.regs
    have steady : X86.Steady text.next 0 (areas.high t) rest (r, m) :=
      X86.steady_lifts lifts (by dsimp only; omega) fits
    obtain ⟨regs, _, _⟩ := X86.runs_steady (r, m') steady same rfl
    refine .leaving rest k easy code lifts sp ?_ (tail.congr same (by omega) high fits)
    rw [← regs]
    exact restored

theorem Good.congr (good : Good text areas t m r fs) (fits : areas.high t < 2 ^ 32)
    (same : ¬ r.User → Set.EqOn m m' (span r.sp.toNat (areas.high t))) :
    Good text areas t m' r fs := by
  induction fs generalizing r with
  | nil => exact good
  | cons f fs ih =>
      obtain ⟨kernel, room, ok, level, below⟩ := good
      have agree := same kernel.1
      refine ⟨kernel, room, ok, level.congr ok fits agree, ih below fun inner => ?_⟩
      exact agree.mono (span_subset_span (level.sp_le ok inner fits) le_rfl)

/-! ## One step of the assembly -/

theorem sinks_keep {i : X86.Instr} {k : Nat} (sinks : X86.sinks i = some k)
    (room : k ≤ r.sp.toNat) (e : BitVec 32) {b : BitVec 32}
    (outer : b ∉ span (r.sp.toNat - k) r.sp.toNat) : (X86.exec e i (r, m)).2 b = m b := by
  obtain ⟨_, stores, _⟩ := X86.exec_sinks (e := e) (m := m) sinks room
  refine X86.exec_outside i r m fun written => outer ?_
  rw [stores, mem_bytesAt] at written
  rw [mem_span]
  bv_omega

/-- What an instruction on the way in or out does. -/
structure Moves (text : Text) (areas : Areas T) (t : T) (f : Frame) (r : X86.Regs)
    (m : ByteMemory) (s : X86.State) : Prop where
  level : Level text f s.1 s.2
  low : areas.low t ≤ s.1.sp.toNat
  cs : s.1.seg .cs = r.seg .cs
  ss : s.1.seg .ss = r.seg .ss
  kept : ∀ b, b ∉ span (areas.low t) r.sp.toNat → s.2 b = m b

/-- An instruction that pushes stays within the stack. -/
theorem sinks_room (areas : Areas T) {i : X86.Instr} {k : Nat} (sinks : X86.sinks i = some k)
    (room : areas.low t + k ≤ r.sp.toNat) (e : BitVec 32) :
    areas.low t ≤ (X86.exec e i (r, m)).1.sp.toNat ∧
      ∀ b, b ∉ span (areas.low t) r.sp.toNat → (X86.exec e i (r, m)).2 b = m b := by
  obtain ⟨_, _, moved⟩ := X86.exec_sinks (e := e) (m := m) (r := r) sinks (by omega)
  refine ⟨by omega, fun b outer => sinks_keep sinks (by omega) e fun inner => outer ?_⟩
  exact span_subset_span (by omega) le_rfl inner

theorem Level.enter {body todo : List X86.Instr} {k : Nat} {i : X86.Instr} {rest : List X86.Instr}
    (easy : body.all plain)
    (code : (text.fetch r.eip = body ++ .call text.trapAt :: .add 4 .esp :: trapret ∧
        todo = body ++ [.call text.trapAt]) ∨
      (text.fetch r.eip = body ++ [.jmp text.alltrapsAt] ∧
        todo = body ++ .jmp text.alltrapsAt :: buildFrame text.trapAt))
    (sinks : X86.total X86.sinks todo = some k) (sp : r.sp.toNat + 8 = f.base.toNat + k)
    (below : r.sp.toNat ≤ f.base.toNat + frameSize f.regs)
    (saves : Saves (X86.runs text.next todo (r, m)).2 f.base f.regs)
    (last : (X86.runs text.next todo (r, m)).1.eip = text.trapAt) (ok : FrameOk text areas t f)
    (next : text.fetch r.eip = i :: rest) :
    Moves text areas t f r m (X86.exec (text.next r.eip) i (r, m)) := by
  have low := ok.low
  have head : ∃ after, todo = i :: after := by
    rcases code with ⟨code, rfl⟩ | ⟨code, rfl⟩
    · rw [code] at next
      cases body with
      | nil => exact ⟨_, by rw [(List.cons.inj next).1]; rfl⟩
      | cons j body => exact ⟨_, by rw [(List.cons.inj next).1]; rfl⟩
    · rw [code] at next
      cases body with
      | nil => exact ⟨_, by rw [(List.cons.inj next).1]; rfl⟩
      | cons j body => exact ⟨_, by rw [(List.cons.inj next).1]; rfl⟩
  obtain ⟨after, rfl⟩ := head
  obtain ⟨a, b, first, later, rfl⟩ := X86.total_cons sinks
  obtain ⟨_, _, moved⟩ :=
    X86.exec_sinks (e := text.next r.eip) (m := m) first (r := r) (by omega)
  obtain ⟨room, kept⟩ := sinks_room areas (t := t) (r := r) (m := m) first (by omega)
    (text.next r.eip)
  cases body with
  | nil =>
      rcases code with ⟨_, todo⟩ | ⟨_, todo⟩
      · obtain ⟨rfl, rfl⟩ := List.cons.inj todo
        obtain rfl : 4 = a := Option.some.inj first
        obtain rfl : 0 = b := Option.some.inj later
        exact ⟨.compiled text.fetch_trap saves (by omega), room, rfl, rfl, kept⟩
      · obtain ⟨rfl, rfl⟩ := List.cons.inj todo
        obtain rfl : 0 = a := Option.some.inj first
        refine ⟨.entering [.pushSeg .ds, .pushSeg .es, .pushSeg .fs, .pushSeg .gs, .pushAll,
          .setLow segKdata .eax, .setSeg .eax .ds, .setSeg .eax .es, .push .esp] _ b (by rfl)
          (.inl ⟨text.fetch_alltraps, rfl⟩) later ?_ ?_ saves last, room, rfl, rfl, kept⟩
        · omega
        · omega
  | cons j body =>
      rw [List.all_cons, Bool.and_eq_true] at easy
      rcases code with ⟨code, todo⟩ | ⟨code, todo⟩
      · obtain ⟨rfl, rfl⟩ := List.cons.inj todo
        obtain ⟨eip, cs, ss⟩ := exec_plain easy.1 (text.next r.eip) (r, m)
        have then' := Text.fetch_after code (by simp)
        rw [← eip] at then'
        refine ⟨.entering body _ b easy.2 (.inl ⟨then', rfl⟩) later ?_ ?_ saves last, room, cs, ss,
          kept⟩
        · omega
        · omega
      · obtain ⟨rfl, rfl⟩ := List.cons.inj todo
        obtain ⟨eip, cs, ss⟩ := exec_plain easy.1 (text.next r.eip) (r, m)
        have then' := Text.fetch_after code (by simp)
        rw [← eip] at then'
        refine ⟨.entering body _ b easy.2 (.inr ⟨then', rfl⟩) later ?_ ?_ saves last, room, cs, ss,
          kept⟩
        · omega
        · omega

theorem Level.leave {before : List X86.Instr} {k : Nat} {i : X86.Instr}
    (easy : (i :: before).all plain) (code : text.fetch r.eip = i :: before ++ [.iret])
    (lifts : X86.total X86.lifts (i :: before) = some k)
    (sp : r.sp.toNat + k = f.base.toNat + 56)
    (restored : Restored f.base f.regs (X86.runs text.next (i :: before) (r, m)).1)
    (tail : Tail m f.base f.regs) (ok : FrameOk text areas t f) (fits : areas.high t < 2 ^ 32)
    (room : areas.low t ≤ r.sp.toNat) :
    Moves text areas t f r m (X86.exec (text.next r.eip) i (r, m)) := by
  have high := ok.high
  have size := frameSize_cases f.regs
  rw [List.all_cons, Bool.and_eq_true] at easy
  obtain ⟨a, b, first, later, rfl⟩ := X86.total_cons lifts
  obtain ⟨_, none, moved⟩ :=
    X86.exec_lifts (e := text.next r.eip) (m := m) first (r := r) (by omega)
  have kept (b : BitVec 32) : (X86.exec (text.next r.eip) i (r, m)).2 b = m b := by
    refine X86.exec_outside i r m ?_
    rw [none]
    exact Set.notMem_empty b
  have same : (X86.exec (text.next r.eip) i (r, m)).2 = m := funext kept
  obtain ⟨eip, cs, ss⟩ := exec_plain easy.1 (text.next r.eip) (r, m)
  refine ⟨.leaving before b easy.2 ?_ later ?_ restored ?_, ?_, cs, ss, fun b _ => kept b⟩
  · rw [eip]
    exact Text.fetch_after code (by simp)
  · rw [moved]
    omega
  · rw [same]
    exact tail
  · rw [moved]
    omega

/-- Code that is interrupted in the kernel runs on the kernel's stack segment. -/
theorem Good.kernel (good : Good text areas t m r fs) (inner : ¬ r.User) : InKernel r := by
  cases fs with
  | nil => exact (good.resolve_left inner).1
  | cons f fs => exact good.1

/-- The way out ends with the registers of the interrupted code. -/
theorem Level.iret {rest : List X86.Instr} (level : Level text f r m)
    (code : text.fetch r.eip = .iret :: rest) (kernel : InKernel r)
    (good : Good text areas t m f.regs fs) : X86.iret r m = f.regs := by
  rcases level with ⟨none, _, _⟩ | ⟨body, _, _, easy, code', _, _, _, _, _⟩ |
    ⟨body, k, easy, code', lifts, sp, restored, tail⟩
  · rw [code] at none
    exact absurd none (List.cons_ne_nil _ _)
  · rcases code' with ⟨code', _⟩ | ⟨code', _⟩
    · rw [code] at code'
      cases body with
      | nil => exact absurd (List.cons.inj code').1 (by simp)
      | cons j body =>
          obtain ⟨rfl, _⟩ := List.cons.inj code'
          exact absurd easy (by simp [plain, X86.falls])
    · rw [code] at code'
      cases body with
      | nil => exact absurd (List.cons.inj code').1 (by simp)
      | cons j body =>
          obtain ⟨rfl, _⟩ := List.cons.inj code'
          exact absurd easy (by simp [plain, X86.falls])
  · rw [code] at code'
    cases body with
    | nil =>
        refine iret_restores restored tail kernel.1 fun inner => ?_
        rw [kernel.2, (good.kernel inner).2]
    | cons j body =>
        obtain ⟨rfl, _⟩ := List.cons.inj code'
        exact absurd easy (by simp [plain, X86.falls])

/-- One instruction of the assembly outside of `swtch`. -/
theorem Good.exec {i : X86.Instr} {rest : List X86.Instr} (good : Good text areas t m r fs)
    (fits : areas.high t < 2 ^ 32) (inner : ¬ r.User) (code : text.fetch r.eip = i :: rest) :
    Good text areas t (X86.exec (text.next r.eip) i (r, m)).2
        (X86.exec (text.next r.eip) i (r, m)).1 (if i = .iret then fs.tail else fs) ∧
      (∀ b, b ∉ span (areas.low t) r.sp.toNat → (X86.exec (text.next r.eip) i (r, m)).2 b = m b) ∧
      (i = .iret → ∃ f gs, fs = f :: gs ∧ (X86.exec (text.next r.eip) i (r, m)).1 = f.regs) := by
  cases fs with
  | nil =>
      have none := (good.resolve_left inner).2.1
      rw [code] at none
      exact absurd none (List.cons_ne_nil _ _)
  | cons f fs =>
      obtain ⟨kernel, room, ok, level, below⟩ := good
      by_cases last : i = .iret
      · subst last
        have regs := level.iret code kernel below
        have shape : X86.exec (text.next r.eip) .iret (r, m) = (X86.iret r m, m) := rfl
        rw [shape, regs, if_pos rfl]
        exact ⟨below, fun _ _ => rfl, fun _ => ⟨f, fs, rfl, rfl⟩⟩
      · rw [if_neg last]
        have moves : Moves text areas t f r m (X86.exec (text.next r.eip) i (r, m)) := by
          rcases level with ⟨none, _, _⟩ |
            ⟨body, todo, k, easy, code', sinks, sp, below', saves, end'⟩ |
            ⟨body, k, easy, code', lifts, sp, restored, tail⟩
          · rw [code] at none
            exact absurd none (List.cons_ne_nil _ _)
          · exact Level.enter easy code' sinks sp below' saves end' ok code
          · cases body with
            | nil =>
                rw [code] at code'
                exact absurd (List.cons.inj code').1 last
            | cons j body =>
                obtain rfl : i = j := by
                  rw [code] at code'
                  exact (List.cons.inj code').1
                exact Level.leave easy code' lifts sp restored tail ok fits room
        refine ⟨⟨⟨?_, ?_⟩, moves.low, ok, moves.level, ?_⟩, moves.kept, fun yes => absurd yes last⟩
        · unfold X86.Regs.User
          rw [moves.cs]
          exact inner
        · rw [moves.ss]
          exact kernel.2
        · refine below.congr fits fun inner b above => (moves.kept b ?_).symm
          have under := level.sp_le ok inner fits
          rw [mem_span] at above ⊢
          omega

/-! ## Traps -/

theorem fetch_resume (text : Text) : text.fetch text.resumeAt = .add 4 .esp :: trapret := by
  have start := text.fetch_alltraps
  unfold alltraps buildFrame at start
  exact text.fetch_next (text.fetch_next (text.fetch_next (text.fetch_next (text.fetch_next
    (text.fetch_next (text.fetch_next (text.fetch_next (text.fetch_next
      (text.fetch_next start)))))))))

theorem Good.sp_le (good : Good text areas t m r fs) (inner : ¬ r.User) :
    r.sp.toNat ≤ areas.high t := by
  cases fs with
  | nil => exact (good.resolve_left inner).2.2.2
  | cons f fs =>
      obtain ⟨_, _, ok, level, _⟩ := good
      have high := ok.high
      have size := frameSize_cases f.regs
      cases level with
      | compiled _ _ below => omega
      | entering _ _ _ _ _ _ _ below _ _ => omega
      | leaving _ _ _ _ _ sp _ _ => omega

theorem Good.floor_le (good : Good text areas t m r fs) : floor areas t fs ≤ areas.high t := by
  cases fs with
  | nil => exact le_rfl
  | cons f fs => exact (Nat.le_add_right _ _).trans good.2.2.1.high

theorem Good.entry_le (good : Good text areas t m r fs) :
    (entrySp (BitVec.ofNat 32 (areas.high t)) r).toNat ≤ areas.high t := by
  by_cases user : r.User
  · rw [entrySp, if_pos user, BitVec.toNat_ofNat]
    exact Nat.mod_le _ _
  · rw [entrySp, if_neg user]
    exact good.sp_le user

theorem interruptWords_length (r : X86.Regs) :
    4 * (interruptWords r).length + 56 = frameSize r := by
  unfold interruptWords frameSize
  split <;> rfl

/-- What the processor pushes when it takes a trap. -/
theorem interrupt_pushes (gate esp0 : BitVec 32) (n : Fin 256) (err : BitVec 32) (r : X86.Regs)
    (m : ByteMemory) :
    let more := if HasError n then 4 else 0
    let s := interrupt gate esp0 n err (r, m)
    s.1.eip = gate ∧
      s.1.sp = entrySp esp0 r - BitVec.ofNat 32 (4 * (interruptWords r).length + more) ∧
      ∀ b, b ∉ bytesAt (entrySp esp0 r - BitVec.ofNat 32 (4 * (interruptWords r).length + more))
        (4 * (interruptWords r).length + more) → s.2 b = m b := by
  intro more s
  have count : 4 * (interruptWords r ++ if HasError n then [err] else []).length =
      4 * (interruptWords r).length + more := by
    rw [List.length_append]
    split <;> rename_i has <;> simp [more, has, Nat.mul_add]
  have size := interruptWords_length r
  have bound := frameSize_cases r
  have small : more ≤ 4 := by
    unfold more
    split <;> decide
  refine ⟨rfl, ?_, fun b outer => ?_⟩
  · have start : (r.set .esp (entrySp esp0 r)).sp = entrySp esp0 r := by simp
    rw [← count, ← start]
    exact X86.pushes_sp (interruptWords r ++ if HasError n then [err] else [])
      (r.set .esp (entrySp esp0 r), m)
  · refine X86.pushes_outside (interruptWords r ++ if HasError n then [err] else [])
      (r.set .esp (entrySp esp0 r)) m ?_ ?_
    · omega
    · unfold X86.pushed
      rw [count]
      simpa [X86.Regs.sp] using outer

/-- An entry point is a row of pushes and a jump. -/
theorem vector_body (a trap : BitVec 32) (n : Fin 256) :
    ∃ body, body.all plain ∧ vector a n = body ++ [.jmp a] ∧
      X86.total X86.sinks (body ++ .jmp a :: buildFrame trap) =
        some (64 - if HasError n then 4 else 0) := by
  unfold vector
  split
  · exact ⟨[.pushImm (BitVec.ofNat 32 n)], rfl, rfl, rfl⟩
  · exact ⟨[.pushImm 0, .pushImm (BitVec.ofNat 32 n)], rfl, rfl, rfl⟩

/-- A trap leaves a thread in order, whatever it does, with a frame more. -/
theorem Good.interrupt (good : Good text areas t m r fs) (fits : areas.high t < 2 ^ 32)
    (n : Fin 256) (err : BitVec 32)
    (room : areas.low t + 84 ≤ (entrySp (BitVec.ofNat 32 (areas.high t)) r).toNat) :
    let s := Assembly.interrupt (text.vectorAt n) (BitVec.ofNat 32 (areas.high t)) n err (r, m)
    Good text areas t s.2 s.1 (trapFrame text areas t n r :: fs) ∧
      ∀ b, b ∉ span (areas.low t) (entrySp (BitVec.ofNat 32 (areas.high t)) r).toNat →
        s.2 b = m b := by
  intro s
  obtain ⟨eip, sp, kept⟩ := interrupt_pushes (text.vectorAt n) (BitVec.ofNat 32 (areas.high t)) n
    err r m
  have size := frameSize_cases r
  have words := interruptWords_length r
  have top := good.entry_le
  generalize start : entrySp (BitVec.ofNat 32 (areas.high t)) r = esp at *
  have base : esp = (trapFrame text areas t n r).base + BitVec.ofNat 32 (frameSize r) := by
    unfold trapFrame
    rw [start, BitVec.sub_add_cancel]
  have place : (trapFrame text areas t n r).base.toNat + frameSize r = esp.toNat := by bv_omega
  obtain ⟨saves, bottom, trap, cs, ss⟩ := entered text.next (text.vectorAt n) text.alltrapsAt
    text.trapAt (BitVec.ofNat 32 (areas.high t)) err n r m (start.trans base)
  have outside (b : BitVec 32) (outer : b ∉ span (areas.low t) esp.toNat) : s.2 b = m b := by
    refine kept b fun inner => outer ?_
    rw [mem_bytesAt] at inner
    rw [mem_span]
    split at inner <;> bv_omega
  obtain ⟨body, easy, entry, sinks⟩ := vector_body text.alltrapsAt text.trapAt n
  have code : text.fetch s.1.eip = body ++ [.jmp text.alltrapsAt] := by
    rw [eip, text.fetch_vector, entry]
  have todo : vector text.alltrapsAt n ++ buildFrame text.trapAt =
      body ++ .jmp text.alltrapsAt :: buildFrame text.trapAt := by
    rw [entry, List.append_assoc]
    rfl
  rw [todo] at saves trap
  have small : (if HasError n then 4 else 0) ≤ 4 := by split <;> decide
  generalize (if HasError n then 4 else 0) = more at *
  have user : s.1.seg .cs = segKcode := by simp [s, Assembly.interrupt]
  have segment : s.1.seg .ss = if r.User then segKdata else r.seg .ss := by
    simp [s, Assembly.interrupt]
  refine ⟨⟨⟨?_, ?_⟩, ?_, ⟨.inl ⟨fetch_resume text, rfl⟩, ?_, ?_, ?_⟩,
    .entering body _ _ easy (.inr ⟨code, rfl⟩) sinks ?_ ?_ saves trap, ?_⟩, outside⟩
  · unfold X86.Regs.User
    rw [user]
    decide
  · rw [segment]
    split
    · rfl
    · exact (good.kernel ‹_›).2
  · rw [sp]
    bv_omega
  · omega
  · exact place.le.trans top
  · exact fun call => (of_decide_eq_true call).2
  · rw [sp]
    bv_omega
  · have regs : (trapFrame text areas t n r).regs = r := rfl
    rw [regs, place, sp]
    bv_omega
  · refine good.congr fits fun inner b above => (outside b ?_).symm
    have under : esp = r.sp := by
      rw [← start, entrySp, if_neg inner]
    rw [mem_span] at above ⊢
    rw [under]
    omega

/-- Kernel code lies above all that runs on top of it. -/
theorem Good.under {upper : List Frame} (good : Good text areas t m r (upper ++ f :: fs))
    (fits : areas.high t < 2 ^ 32) (inner : ¬ f.regs.User) :
    r.sp.toNat ≤ f.regs.sp.toNat ∧ floor areas t (upper ++ f :: fs) ≤ f.regs.sp.toNat := by
  induction upper generalizing r with
  | nil =>
      obtain ⟨_, _, ok, level, _⟩ := good
      have high := ok.high
      refine ⟨level.sp_le ok inner fits, ?_⟩
      have above := level.above inner
      have size : frameSize f.regs = 68 := if_neg inner
      rw [List.nil_append, floor, above]
      bv_omega
  | cons g upper ih =>
      obtain ⟨_, _, ok, level, below⟩ := good
      obtain ⟨lower, _⟩ := ih below
      have kernel : ¬ g.regs.User := by
        cases upper with
        | nil => exact below.1.1
        | cons h upper => exact below.1.1
      have high := ok.high
      have above := level.above kernel
      have size : frameSize g.regs = 68 := if_neg kernel
      have first := level.sp_le ok kernel fits
      refine ⟨first.trans lower, ?_⟩
      rw [List.cons_append, floor]
      bv_omega

/-! ## Compiled code -/

/-- Under compiled code lies a whole frame. -/
theorem Level.on_top (level : Level text f r m) (code : text.fetch r.eip = []) :
    Saves m f.base f.regs ∧ r.sp.toNat ≤ f.base.toNat := by
  rcases level with ⟨_, saves, below⟩ | ⟨body, _, _, _, code', _, _, _, _, _⟩ |
    ⟨body, _, _, code', _, _, _, _⟩
  · exact ⟨saves, below⟩
  · rcases code' with ⟨code', _⟩ | ⟨code', _⟩
    · rw [code] at code'
      exact absurd code'.symm (by simp)
    · rw [code] at code'
      exact absurd code'.symm (by simp)
  · rw [code] at code'
    exact absurd code'.symm (by simp)

theorem Good.free (good : Good text areas t m r fs) (inner : ¬ r.User)
    (code : text.fetch r.eip = []) :
    areas.low t ≤ r.sp.toNat ∧ r.sp.toNat ≤ floor areas t fs := by
  cases fs with
  | nil => exact (good.resolve_left inner).2.2
  | cons f fs => exact ⟨good.2.1, (good.2.2.2.1.on_top code).2⟩

/-- Compiled code that keeps to the free part of the stack. -/
theorem Good.work (good : Good text areas t m r fs) (fits : areas.high t < 2 ^ 32)
    (code : text.fetch r.eip = [])
    (own : Set.EqOn m m' (span (floor areas t fs) (areas.high t))) (kernel : InKernel v)
    (after : text.fetch v.eip = []) (low : areas.low t ≤ v.sp.toNat)
    (free : v.sp.toNat ≤ floor areas t fs) : Good text areas t m' v fs := by
  cases fs with
  | nil => exact .inr ⟨kernel, after, low, free⟩
  | cons f fs =>
      obtain ⟨_, _, ok, level, below⟩ := good
      have high := ok.high
      have saves := (level.on_top code).1
      refine ⟨kernel, low, ok, .compiled after (saves.congr own le_rfl high fits) free,
        below.congr fits fun kernel' => own.mono (span_subset_span ?_ le_rfl)⟩
      have size : frameSize f.regs = 68 := if_neg kernel'
      have above := level.above kernel'
      unfold floor
      rw [above]
      bv_omega

/-- A system call that changes its frame. -/
theorem Good.setFrame (good : Good text areas t m r (f :: fs)) (code : text.fetch r.eip = [])
    (syscall : f.syscall = true) (user : v.User) (saves : Saves m' f.base v) :
    Good text areas t m' r ({ f with regs := v } :: fs) ∧ fs = [] := by
  obtain ⟨kernel, low, ok, level, below⟩ := good
  have outer := ok.syscall syscall
  have under := (level.on_top code).2
  cases fs with
  | nil =>
      have high := ok.high
      have size : frameSize f.regs = 76 := if_pos outer
      have size' : frameSize v = 76 := if_pos user
      refine ⟨⟨kernel, low, ⟨ok.exits, ok.low, ?_, fun _ => user⟩, .compiled code saves under,
        .inl user⟩, rfl⟩
      dsimp only
      omega
  | cons g gs => exact absurd outer below.1.1

/-- The return of compiled code to the way out. -/
theorem Good.leave (good : Good text areas t m r (f :: fs))
    (code : text.fetch r.eip = []) {r' : X86.Regs} (kernel : InKernel r')
    (exit : r'.eip = f.exit) (sp : r'.sp = f.exitSp) : Good text areas t m r' (f :: fs) := by
  obtain ⟨_, _, ok, level, below⟩ := good
  have low := ok.low
  have high := ok.high
  have size := frameSize_cases f.regs
  have saves := (level.on_top code).1
  rcases ok.exits with ⟨out, under⟩ | ⟨out, under⟩
  · rw [under] at sp
    have at0 : (X86.exec (text.next r'.eip) (.add 4 .esp) (r', m)).1.sp = f.base := by
      simp [X86.exec, X86.Regs.sp] at sp ⊢
      rw [sp, BitVec.sub_add_cancel]
    refine ⟨kernel, ?_, ok, .leaving (.add 4 .esp :: restoreRegs) 60 (by rfl) ?_ (by rfl) ?_
      (restoreRegs_restores text.next saves at0) saves.tail, below⟩
    · rw [sp]
      bv_omega
    · rw [exit, out]
      rfl
    · rw [sp]
      bv_omega
  · rw [under] at sp
    refine ⟨kernel, ?_, ok, .leaving restoreRegs 56 (by rfl) ?_ (by rfl) ?_
      (restoreRegs_restores text.next saves sp) saves.tail, below⟩
    · rw [sp]
      omega
    · rw [exit, out]
      rfl
    · rw [sp]

end SlabStudy.Xv6.Assembly
