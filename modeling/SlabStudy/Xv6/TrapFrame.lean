import SlabStudy.Library.X86

/-!
# Trap frames and contexts

The assembly that enters the kernel, leaves it and switches between kernel
threads, instruction by instruction, and the layout of what it stores.
-/

namespace SlabStudy.Xv6.Assembly

open Library

/-- The selectors of the kernel's code and data segments. -/
abbrev segKcode : BitVec 16 := 1 <<< 3
abbrev segKdata : BitVec 16 := 2 <<< 3

instance neZero_gates : NeZero 256 := ⟨by decide⟩

/-- The trap number of system calls. -/
abbrev tSyscall : Fin 256 := 64

/-- The traps for which the processor pushes an error code itself. -/
def HasError (n : Fin 256) : Prop := n = 8 ∨ 10 ≤ n ∧ n ≤ 14 ∨ n = 17

instance (n : Fin 256) : Decidable (HasError n) := inferInstanceAs (Decidable (_ ∨ _))

/-- The entry point of trap `n`, as the script writes it. -/
def vector (alltraps : BitVec 32) (n : Fin 256) : List X86.Instr :=
  (if HasError n then [] else [.pushImm 0]) ++ [.pushImm (BitVec.ofNat 32 n), .jmp alltraps]

/-- The part of `alltraps` up to the call. -/
def buildFrame (trap : BitVec 32) : List X86.Instr :=
  [.pushSeg .ds, .pushSeg .es, .pushSeg .fs, .pushSeg .gs, .pushAll,
    .setLow segKdata .eax, .setSeg .eax .ds, .setSeg .eax .es, .push .esp, .call trap]

def trapret : List X86.Instr :=
  [.popAll, .popSeg .gs, .popSeg .fs, .popSeg .es, .popSeg .ds, .add 8 .esp, .iret]

def alltraps (trap : BitVec 32) : List X86.Instr := buildFrame trap ++ .add 4 .esp :: trapret

def swtch : List X86.Instr :=
  [.load 4 .esp .eax, .load 8 .esp .edx, .push .ebp, .push .ebx, .push .esi, .push .edi,
    .store .esp .eax, .move .edx .esp, .pop .edi, .pop .esi, .pop .ebx, .pop .ebp, .ret]

/-- What the processor does to the flags: a trap gate leaves the interrupt flag
alone, the others clear it. -/
def gateFlags (n : Fin 256) (eflags : BitVec 32) : BitVec 32 :=
  if n = tSyscall then eflags &&& ~~~0x34100#32 else eflags &&& ~~~0x34300#32

/-- What the processor pushes before the error code. -/
def interruptWords (r : X86.Regs) : List (BitVec 32) :=
  (if r.User then [(r.seg .ss).setWidth 32, r.sp] else []) ++
    [r.eflags, (r.seg .cs).setWidth 32, r.eip]

/-- Where the processor starts to push: user code leaves for the stack that the
task state names. -/
def entrySp (esp0 : BitVec 32) (r : X86.Regs) : BitVec 32 := if r.User then esp0 else r.sp

/-- The processor takes trap `n`, whose gate leads to `gate`. -/
def interrupt (gate esp0 : BitVec 32) (n : Fin 256) (err : BitVec 32) (s : X86.State) : X86.State :=
  let t := X86.pushes (interruptWords s.1 ++ if HasError n then [err] else [])
    (s.1.set .esp (entrySp esp0 s.1), s.2)
  let ss := if s.1.User then segKdata else s.1.seg .ss
  ({ ((t.1.setSeg .cs segKcode).setSeg .ss ss).goto gate with
      eflags := gateFlags n s.1.eflags }, t.2)

/-! ## The layout of a frame -/

/-- Where a trap frame has the general registers. -/
def gprOffset : X86.Reg → BitVec 32
  | .edi => 0
  | .esi => 4
  | .ebp => 8
  | .esp => 12
  | .ebx => 16
  | .edx => 20
  | .ecx => 24
  | .eax => 28

/-- Where it has the segment registers. -/
def segOffset : X86.Seg → BitVec 32
  | .gs => 32
  | .fs => 36
  | .es => 40
  | .ds => 44
  | .cs => 60
  | .ss => 72

/-- The bytes of a frame: the last two words are there for user code only. -/
def frameSize (r : X86.Regs) : Nat := if r.User then 76 else 68

/-- The frame at `base` holds the registers `r`.  Kernel code goes on above the
frame. -/
structure Saves (m : ByteMemory) (base : BitVec 32) (r : X86.Regs) : Prop where
  gpr : ∀ reg, reg ≠ .esp → m.word (base + gprOffset reg) = r.gpr reg
  seg : ∀ q, q ≠ .ss → X86.half (m.word (base + segOffset q)) = r.seg q
  eip : m.word (base + 56) = r.eip
  eflags : m.word (base + 64) = r.eflags
  user : r.User → m.word (base + 68) = r.sp ∧ X86.half (m.word (base + 72)) = r.seg .ss
  kernel : ¬ r.User → r.sp = base + 68

/-- The words of the trap frame from its end on. -/
def frameWords (n : Fin 256) (err sp : BitVec 32) (r : X86.Regs) : List (BitVec 32) :=
  interruptWords r ++ [if HasError n then err else 0, BitVec.ofNat 32 n, (r.seg .ds).setWidth 32,
    (r.seg .es).setWidth 32, (r.seg .fs).setWidth 32, (r.seg .gs).setWidth 32, r.gpr .eax,
    r.gpr .ecx, r.gpr .edx, r.gpr .ebx, sp, r.gpr .ebp, r.gpr .esi, r.gpr .edi]

/-- The stack pointer is `values` below `r`'s, the memory has them on the stack,
and the other registers that go into a frame are still those of `r`. -/
structure Pushed (r : X86.Regs) (m : ByteMemory) (values : List (BitVec 32)) (s : X86.State) :
    Prop where
  memory : s.2 = (X86.pushes values (r, m)).2
  sp : s.1.sp = r.sp - BitVec.ofNat 32 (4 * values.length)
  gpr : ∀ reg, reg ≠ .esp → s.1.gpr reg = r.gpr reg
  seg : ∀ q, q ≠ .cs → q ≠ .ss → s.1.seg q = r.seg q

variable {r r' : X86.Regs} {m : ByteMemory} {values : List (BitVec 32)} {s : X86.State}

theorem Pushed.nil : Pushed r m [] (r, m) where
  memory := rfl
  sp := by simp
  gpr _ _ := rfl
  seg _ _ _ := rfl

theorem Pushed.pushes (done : Pushed r m values s) (more : List (BitVec 32)) :
    Pushed r m (values ++ more) (X86.pushes more s) where
  memory := by
    obtain ⟨r', m'⟩ := s
    obtain rfl : m' = (X86.pushes values (r, m)).2 := done.memory
    rw [X86.pushes_append]
    exact X86.pushes_memory _ (done.sp.trans (X86.pushes_sp values (r, m)).symm) _
  sp := by
    have before := done.sp
    rw [X86.pushes_sp, before, List.length_append]
    bv_omega
  gpr reg other := by
    obtain ⟨r', m'⟩ := s
    rw [X86.pushes_regs]
    simpa [other] using done.gpr reg other
  seg q code stack := by
    obtain ⟨r', m'⟩ := s
    rw [X86.pushes_regs]
    exact done.seg q code stack

theorem Pushed.goto (done : Pushed r m values s) (e : BitVec 32) :
    Pushed r m values (s.1.goto e, s.2) := ⟨done.memory, done.sp, done.gpr, done.seg⟩

theorem Pushed.pushSegs (done : Pushed r m values s) (next : BitVec 32 → BitVec 32)
    (segs : List X86.Seg) (data : ∀ q ∈ segs, q ≠ .cs ∧ q ≠ .ss) :
    Pushed r m (values ++ segs.map fun q => (r.seg q).setWidth 32)
      (X86.runs next (segs.map .pushSeg) s) := by
  induction segs generalizing values s with
  | nil =>
      rw [List.map_nil, List.append_nil]
      exact done
  | cons q rest ih =>
      obtain ⟨code, stack⟩ := data q List.mem_cons_self
      have first : Pushed r m (values ++ [(r.seg q).setWidth 32])
          (X86.exec (next s.1.eip) (.pushSeg q) s) := by
        rw [← done.seg q code stack]
        exact (done.goto _).pushes _
      have all := ih first fun p inside => data p (List.mem_cons_of_mem _ inside)
      rw [List.append_assoc] at all
      exact all

theorem Pushed.pushAll (done : Pushed r m values s) (e : BitVec 32) :
    Pushed r m (values ++ [r.gpr .eax, r.gpr .ecx, r.gpr .edx, r.gpr .ebx,
      r.sp - BitVec.ofNat 32 (4 * values.length), r.gpr .ebp, r.gpr .esi, r.gpr .edi])
      (X86.exec e .pushAll s) := by
  rw [← done.gpr .eax (by decide), ← done.gpr .ecx (by decide), ← done.gpr .edx (by decide),
    ← done.gpr .ebx (by decide), ← done.gpr .ebp (by decide), ← done.gpr .esi (by decide),
    ← done.gpr .edi (by decide), ← done.sp]
  exact (done.goto e).pushes _

/-- The entry point adds the error code, where the processor has not, and the
number of the trap. -/
theorem Pushed.vector (done : Pushed r m values s) (next : BitVec 32 → BitVec 32)
    (a : BitVec 32) (n : Fin 256) :
    Pushed r m (values ++ ((if HasError n then [] else [0]) ++ [BitVec.ofNat 32 n]))
      (X86.runs next (vector a n) s) := by
  unfold Assembly.vector
  split
  · exact ((done.goto (next s.1.eip)).pushes [BitVec.ofNat 32 n]).goto a
  · have zero := (done.goto (next s.1.eip)).pushes [0]
    rw [← List.append_assoc]
    exact ((zero.goto (next (next s.1.eip))).pushes [BitVec.ofNat 32 n]).goto a

theorem frameWords_length (n : Fin 256) (err sp : BitVec 32) (r : X86.Regs) :
    4 * (frameWords n err sp r).length = frameSize r := by
  unfold frameWords interruptWords frameSize
  split <;> rfl

/-- The word at a place of a row of pushed words, counted from its end. -/
theorem pushed_word {r₀ : X86.Regs} (more : List (BitVec 32)) {k : Nat} {off base v : BitVec 32}
    (few : 4 * (values ++ more).length < 2 ^ 32)
    (start : r₀.sp = base + BitVec.ofNat 32 (4 * values.length))
    (place : off.toNat = 4 * k) (found : values.reverse[k]? = some v) :
    (X86.pushes (values ++ more) (r₀, m)).2.word (base + off) = v := by
  obtain ⟨inside, rfl⟩ := List.getElem?_eq_some_iff.mp found
  rw [List.length_reverse] at inside
  rw [List.length_append] at few
  have address : base + off = r₀.sp - BitVec.ofNat 32 (4 * (values.length - 1 - k + 1)) := by
    rw [start]
    bv_omega
  have before : values.length - 1 - k < values.length := by omega
  rw [address, X86.pushes_word (values ++ more) r₀ m (by rw [List.length_append]; omega)
    (by rw [List.length_append]; omega), List.getElem_append_left before, List.getElem_reverse]

/-- The words of a frame on the stack are the fields of the frame at its end. -/
theorem saves_of_words {r₀ : X86.Regs} {n : Fin 256} {err sp base : BitVec 32}
    (more : List (BitVec 32)) (few : more.length ≤ 2)
    (start : r₀.sp = base + BitVec.ofNat 32 (frameSize r)) (kernel : ¬ r.User → r.sp = r₀.sp) :
    Saves (X86.pushes (frameWords n err sp r ++ more) (r₀, m)).2 base r := by
  rw [← frameWords_length n err sp r] at start
  have short : 4 * (frameWords n err sp r ++ more).length < 2 ^ 32 := by
    have size := frameWords_length n err sp r
    have bound : frameSize r ≤ 76 := by
      unfold frameSize
      split <;> decide
    rw [List.length_append]
    omega
  have word {k : Nat} {off v : BitVec 32} (place : off.toNat = 4 * k)
      (found : (frameWords n err sp r).reverse[k]? = some v) :
      (X86.pushes (frameWords n err sp r ++ more) (r₀, m)).2.word (base + off) = v :=
    pushed_word more short start place found
  have field {k : Nat} {off : BitVec 32} {v : BitVec 16} (place : off.toNat = 4 * k)
      (found : (frameWords n err sp r).reverse[k]? = some (v.setWidth 32)) :
      X86.half ((X86.pushes (frameWords n err sp r ++ more) (r₀, m)).2.word (base + off)) = v := by
    rw [word place found, X86.half_setWidth]
  have tail : (frameWords n err sp r).reverse = [r.gpr .edi, r.gpr .esi, r.gpr .ebp, sp, r.gpr .ebx,
      r.gpr .edx, r.gpr .ecx, r.gpr .eax, (r.seg .gs).setWidth 32, (r.seg .fs).setWidth 32,
      (r.seg .es).setWidth 32, (r.seg .ds).setWidth 32, BitVec.ofNat 32 n,
      if HasError n then err else 0, r.eip, (r.seg .cs).setWidth 32, r.eflags] ++
        if r.User then [r.sp, (r.seg .ss).setWidth 32] else [] := by
    unfold frameWords interruptWords
    split <;> rfl
  rw [tail] at word field
  refine ⟨?_, ?_, word (k := 14) rfl rfl, word (k := 16) rfl rfl, ?_, ?_⟩
  · intro reg other
    cases reg with
    | edi => exact word (k := 0) rfl rfl
    | esi => exact word (k := 1) rfl rfl
    | ebp => exact word (k := 2) rfl rfl
    | esp => exact absurd rfl other
    | ebx => exact word (k := 4) rfl rfl
    | edx => exact word (k := 5) rfl rfl
    | ecx => exact word (k := 6) rfl rfl
    | eax => exact word (k := 7) rfl rfl
  · intro q other
    cases q with
    | gs => exact field (k := 8) rfl rfl
    | fs => exact field (k := 9) rfl rfl
    | es => exact field (k := 10) rfl rfl
    | ds => exact field (k := 11) rfl rfl
    | cs => exact field (k := 15) rfl rfl
    | ss => exact absurd rfl other
  · intro user
    rw [if_pos user] at word field
    exact ⟨word (k := 17) rfl rfl, field (k := 18) rfl rfl⟩
  · intro inner
    rw [kernel inner, start, frameWords_length]
    unfold frameSize
    rw [if_neg inner]
    rfl

/-- The registers are stored: the frame is whole. -/
theorem Pushed.frame (done : Pushed r m values s) (next : BitVec 32 → BitVec 32) (r' : X86.Regs)
    (n : Fin 256) (err : BitVec 32)
    (words : values = interruptWords r' ++ [if HasError n then err else 0, BitVec.ofNat 32 n])
    (regs : ∀ reg, reg ≠ .esp → r.gpr reg = r'.gpr reg) (segs : r.seg = r'.seg) :
    ∃ sp, Pushed r m (frameWords n err sp r') (X86.runs next
      [.pushSeg .ds, .pushSeg .es, .pushSeg .fs, .pushSeg .gs, .pushAll] s) := by
  subst words
  have segments := done.pushSegs next [.ds, .es, .fs, .gs] (by decide)
  have all := segments.pushAll (next (X86.runs next ([.ds, .es, .fs, .gs].map .pushSeg) s).1.eip)
  simp only [List.append_assoc, List.cons_append, List.nil_append, List.map_cons, List.map_nil,
    segs] at all
  rw [regs .eax (by decide), regs .ecx (by decide), regs .edx (by decide), regs .ebx (by decide),
    regs .ebp (by decide), regs .esi (by decide), regs .edi (by decide)] at all
  exact ⟨_, all⟩

/-- The rest of `alltraps`, up to the call. -/
theorem Pushed.call (done : Pushed r m values s) (next : BitVec 32 → BitVec 32)
    (trap : BitVec 32) :
    let t := X86.runs next [.setLow segKdata .eax, .setSeg .eax .ds, .setSeg .eax .es, .push .esp,
      .call trap] s
    ∃ ret, t.2 = (X86.pushes (values ++ [s.1.sp, ret]) (r, m)).2 ∧ t.1.sp = s.1.sp - 8 ∧
      t.1.eip = trap := by
  obtain ⟨r', m'⟩ := s
  intro t
  have last : t.1.sp = r'.sp - 4 - 4 := rfl
  refine ⟨next (next (next (next (next r'.eip)))), ?_, ?_, rfl⟩
  · rw [X86.pushes_append]
    obtain rfl : m' = (X86.pushes values (r, m)).2 := done.memory
    have sp : r'.sp = (X86.pushes values (r, m)).1.sp :=
      done.sp.trans (X86.pushes_sp values (r, m)).symm
    exact X86.pushes_memory [r'.sp, next (next (next (next (next r'.eip))))] sp _
  · rw [last]
    bv_omega

/-- From the interrupted code to `trap`: the frame holds the registers of the
code, and `trap` is called with the address of the frame above its return address. -/
theorem entered (next : BitVec 32 → BitVec 32) (gate a trap esp0 err : BitVec 32) (n : Fin 256)
    (r : X86.Regs) (m : ByteMemory) {base : BitVec 32}
    (start : entrySp esp0 r = base + BitVec.ofNat 32 (frameSize r)) :
    let s := X86.runs next (vector a n ++ buildFrame trap) (interrupt gate esp0 n err (r, m))
    Saves s.2 base r ∧ s.1.sp = base - 8 ∧ s.1.eip = trap ∧ s.1.seg .cs = segKcode ∧
      s.1.seg .ss = if r.User then segKdata else r.seg .ss := by
  intro s
  have taken : Pushed (r.set .esp (entrySp esp0 r)) m
      (interruptWords r ++ if HasError n then [err] else [])
      (interrupt gate esp0 n err (r, m)) := by
    obtain ⟨memory, sp, gpr, seg⟩ := Pushed.nil.pushes (r := r.set .esp (entrySp esp0 r)) (m := m)
      (interruptWords r ++ if HasError n then [err] else [])
    refine ⟨memory, sp, gpr, fun q code stack => ?_⟩
    rw [← seg q code stack]
    simp [interrupt, code, stack]
  obtain ⟨sp, frame⟩ := (taken.vector next a n).frame next r n err
    (by split <;> simp) (fun reg other => by simp [other]) rfl
  obtain ⟨ret, memory, low, eip⟩ := frame.call next trap
  have split : vector a n ++ buildFrame trap = vector a n ++
      ([.pushSeg .ds, .pushSeg .es, .pushSeg .fs, .pushSeg .gs, .pushAll] ++
        [.setLow segKdata .eax, .setSeg .eax .ds, .setSeg .eax .es, .push .esp, .call trap]) := rfl
  have same : s = X86.runs next
      [.setLow segKdata .eax, .setSeg .eax .ds, .setSeg .eax .es, .push .esp, .call trap]
      (X86.runs next [.pushSeg .ds, .pushSeg .es, .pushSeg .fs, .pushSeg .gs, .pushAll]
        (X86.runs next (vector a n) (interrupt gate esp0 n err (r, m)))) := by
    rw [← X86.runs_append, ← X86.runs_append, ← split]
  rw [← same] at memory low eip
  have keep (q : X86.Seg) (code : q = .cs ∨ q = .ss) :
      s.1.seg q = (interrupt gate esp0 n err (r, m)).1.seg q := by
    apply X86.runs_seg
    unfold vector buildFrame
    rcases code with rfl | rfl <;> split <;> rfl
  have bottom := frame.sp
  have top : (r.set .esp (entrySp esp0 r)).sp = base + BitVec.ofNat 32 (frameSize r) := by
    rw [← start]
    simp
  rw [frameWords_length, top, BitVec.add_sub_cancel] at bottom
  refine ⟨?_, ?_, eip, ?_, ?_⟩
  · rw [memory]
    refine saves_of_words _ (by simp) top fun inner => ?_
    simp [entrySp, inner]
  · rw [low, bottom]
  · rw [keep .cs (.inl rfl)]
    simp [interrupt]
  · rw [keep .ss (.inr rfl)]
    simp [interrupt]

/-! ## The way out -/

/-- What `trapret` has restored before `iret`. -/
structure Restored (base : BitVec 32) (r r' : X86.Regs) : Prop where
  gpr : ∀ reg, reg ≠ .esp → r'.gpr reg = r.gpr reg
  seg : ∀ q, q ≠ .cs → q ≠ .ss → r'.seg q = r.seg q
  sp : r'.sp = base + 56

/-- The words `iret` takes from the frame. -/
structure Tail (m : ByteMemory) (base : BitVec 32) (r : X86.Regs) : Prop where
  eip : m.word (base + 56) = r.eip
  cs : X86.half (m.word (base + 60)) = r.seg .cs
  eflags : m.word (base + 64) = r.eflags
  user : r.User → m.word (base + 68) = r.sp ∧ X86.half (m.word (base + 72)) = r.seg .ss
  kernel : ¬ r.User → r.sp = base + 68

theorem Saves.tail {base : BitVec 32} (saves : Saves m base r) : Tail m base r :=
  ⟨saves.eip, saves.seg .cs (by decide), saves.eflags, saves.user, saves.kernel⟩

/-- `iret` gives the interrupted code its registers back. -/
theorem iret_restores {base : BitVec 32} (restored : Restored base r r') (tail : Tail m base r)
    (inside : ¬ r'.User) (stack : ¬ r.User → r'.seg .ss = r.seg .ss) : X86.iret r' m = r := by
  have at4 : r'.sp + 4 = base + 60 := by
    rw [restored.sp]
    bv_omega
  have at8 : r'.sp + 8 = base + 64 := by
    rw [restored.sp]
    bv_omega
  have at12 : r'.sp + 12 = base + 68 := by
    rw [restored.sp]
    bv_omega
  have at16 : r'.sp + 16 = base + 72 := by
    rw [restored.sp]
    bv_omega
  unfold X86.iret
  rw [at4, at8, at12, at16, restored.sp, tail.eip, tail.cs, tail.eflags]
  by_cases user : r.User
  · obtain ⟨sp, ss⟩ := tail.user user
    have outer : ¬ (r'.User ∨ r.seg .cs &&& 3 ≠ 3) := fun either =>
      either.elim inside fun inner => inner user
    rw [if_neg outer, sp, ss]
    ext1
    · funext reg
      by_cases pointer : reg = .esp
      · subst pointer
        simp
      · simpa [pointer] using restored.gpr reg pointer
    · funext q
      by_cases code : q = .cs
      · subst code
        simp
      · by_cases own : q = .ss
        · subst own
          simp
        · simpa [code, own] using restored.seg q code own
    · rfl
    · rfl
  · rw [if_pos (.inr user), ← tail.kernel user]
    ext1
    · funext reg
      by_cases pointer : reg = .esp
      · subst pointer
        simp
      · simpa [pointer] using restored.gpr reg pointer
    · funext q
      by_cases code : q = .cs
      · subst code
        simp
      · by_cases own : q = .ss
        · subst own
          simpa using stack user
        · simpa [code] using restored.seg q code own
    · rfl
    · rfl

/-- The part of `trapret` before `iret`. -/
def restoreRegs : List X86.Instr :=
  [.popAll, .popSeg .gs, .popSeg .fs, .popSeg .es, .popSeg .ds, .add 8 .esp]

theorem restoreRegs_restores {base : BitVec 32} (next : BitVec 32 → BitVec 32)
    (saves : Saves m base r) (sp : r'.sp = base) :
    Restored base r (X86.runs next restoreRegs (r', m)).1 := by
  subst sp
  refine ⟨?_, ?_, ?_⟩
  · intro reg other
    rw [← saves.gpr reg other]
    cases reg with
    | edi => exact congrArg m.word (BitVec.add_zero r'.sp).symm
    | esp => exact absurd rfl other
    | _ => rfl
  · intro q code stack
    rw [← saves.seg q stack]
    cases q with
    | cs => exact absurd rfl code
    | ss => exact absurd rfl stack
    | gs => rfl
    | fs =>
        have sum : r'.sp + 32 + 4 = r'.sp + 36 := by bv_omega
        exact congrArg (fun a => X86.half (m.word a)) sum
    | es =>
        have sum : r'.sp + 32 + 4 + 4 = r'.sp + 40 := by bv_omega
        exact congrArg (fun a => X86.half (m.word a)) sum
    | ds =>
        have sum : r'.sp + 32 + 4 + 4 + 4 = r'.sp + 44 := by bv_omega
        exact congrArg (fun a => X86.half (m.word a)) sum
  · have last : (X86.runs next restoreRegs (r', m)).1.sp = r'.sp + 32 + 4 + 4 + 4 + 4 + 8 := rfl
    rw [last]
    bv_omega

/-! ## Contexts -/

/-- The context at `ctx` holds what a thread goes on with at `v`. -/
structure Context (m : ByteMemory) (ctx : BitVec 32) (v : X86.Regs) : Prop where
  edi : m.word ctx = v.gpr .edi
  esi : m.word (ctx + 4) = v.gpr .esi
  ebx : m.word (ctx + 8) = v.gpr .ebx
  ebp : m.word (ctx + 12) = v.gpr .ebp
  eip : m.word (ctx + 16) = v.eip
  sp : v.sp = ctx + 20

/-- The registers a callee keeps, the stack pointer and the place are those of `v`. -/
structure Resumes (v r : X86.Regs) : Prop where
  edi : r.gpr .edi = v.gpr .edi
  esi : r.gpr .esi = v.gpr .esi
  ebx : r.gpr .ebx = v.gpr .ebx
  ebp : r.gpr .ebp = v.gpr .ebp
  sp : r.sp = v.sp
  eip : r.eip = v.eip

/-- The registers after the return from a call of an assembly routine that keeps all. -/
def returned (r : X86.Regs) (m : ByteMemory) : X86.Regs :=
  (r.set .esp (r.sp + 4)).goto (m.word r.sp)

/-- The first half of `swtch`, up to the change of the stack pointer. -/
def putAway : List X86.Instr :=
  [.load 4 .esp .eax, .load 8 .esp .edx, .push .ebp, .push .ebx, .push .esi, .push .edi,
    .store .esp .eax, .move .edx .esp]

/-- The second half. -/
def takeUp : List X86.Instr := [.pop .edi, .pop .esi, .pop .ebx, .pop .ebp, .ret]

theorem swtch_eq : swtch = putAway ++ takeUp := rfl

theorem runs_putAway (next : BitVec 32 → BitVec 32) (r : X86.Regs) (m : ByteMemory) :
    let s := X86.runs next putAway (r, m)
    s.1.sp = m.word (r.sp + 8) ∧ s.1.seg = r.seg ∧
      s.2 = (X86.pushes [r.gpr .ebp, r.gpr .ebx, r.gpr .esi, r.gpr .edi] (r, m)).2.setWord
        (m.word (r.sp + 4)) (r.sp - 16) := by
  have address : r.sp - 4 - 4 - 4 - 4 = r.sp - 16 := by bv_omega
  rw [← address]
  exact ⟨rfl, rfl, rfl⟩

theorem runs_takeUp (next : BitVec 32 → BitVec 32) {v : X86.Regs} (context : Context m r.sp v) :
    let s := X86.runs next takeUp (r, m)
    s.2 = m ∧ s.1.seg = r.seg ∧ Resumes v s.1 := by
  intro s
  have at8 : r.sp + 4 + 4 = r.sp + 8 := by bv_omega
  have at12 : r.sp + 4 + 4 + 4 = r.sp + 12 := by bv_omega
  have at16 : r.sp + 4 + 4 + 4 + 4 = r.sp + 16 := by bv_omega
  have at20 : r.sp + 4 + 4 + 4 + 4 + 4 = r.sp + 20 := by bv_omega
  have ebx : s.1.gpr .ebx = m.word (r.sp + 4 + 4) := rfl
  have ebp : s.1.gpr .ebp = m.word (r.sp + 4 + 4 + 4) := rfl
  have eip : s.1.eip = m.word (r.sp + 4 + 4 + 4 + 4) := rfl
  have sp : s.1.sp = r.sp + 4 + 4 + 4 + 4 + 4 := rfl
  rw [at8] at ebx
  rw [at12] at ebp
  rw [at16] at eip
  rw [at20, ← context.sp] at sp
  exact ⟨rfl, rfl, context.edi, context.esi, ebx.trans context.ebx, ebp.trans context.ebp, sp,
    eip.trans context.eip⟩

/-- `swtch` stores the caller's context below its stack, its address in the
first argument, and takes up the context the second argument points to. -/
theorem swtch_switches (next : BitVec 32 → BitVec 32) {v : X86.Regs}
      (old : Disjoint (wordSpan (m.word (r.sp + 4))) (bytesAt (r.sp - 16) 20))
    (pushed : Disjoint (bytesAt (r.sp - 16) 16) (bytesAt (m.word (r.sp + 8)) 20))
    (stored : Disjoint (wordSpan (m.word (r.sp + 4))) (bytesAt (m.word (r.sp + 8)) 20))
    (context : Context m (m.word (r.sp + 8)) v) :
    let s := X86.runs next swtch (r, m)
    Resumes v s.1 ∧ s.1.seg = r.seg ∧ s.2.word (m.word (r.sp + 4)) = r.sp - 16 ∧
      Context s.2 (r.sp - 16) (returned r m) := by
  intro s
  obtain ⟨sp, seg, memory⟩ := runs_putAway next r m
  have both : s = X86.runs next takeUp (X86.runs next putAway (r, m)) := by
    rw [← X86.runs_append, ← swtch_eq]
  generalize X86.runs next putAway (r, m) = t at sp seg memory both
  obtain ⟨r', M⟩ := t
  dsimp only at sp seg memory
  have kept {b : BitVec 32} (outer : b ∉ bytesAt (r.sp - 16) 16)
      (other : b ∉ wordSpan (m.word (r.sp + 4))) : M b = m b := by
    rw [memory, setWord_outside other]
    exact X86.pushes_outside _ r m (by simp) outer
  have loaded {k : BitVec 32} (inside : k.toNat + 4 ≤ 20) :
      M.word (m.word (r.sp + 8) + k) = m.word (m.word (r.sp + 8) + k) := by
    refine word_congr fun b at0 => ?_
    have row := wordSpan_subset_bytesAt inside (by decide) at0
    exact kept (Set.disjoint_right.mp pushed row) (Set.disjoint_right.mp stored row)
  have first : M.word (m.word (r.sp + 8)) = m.word (m.word (r.sp + 8)) := by
    simpa using loaded (k := 0) (by decide)
  have own {k : Nat} {at0 v : BitVec 32} (inside : k < 4)
      (place : at0 = r.sp - BitVec.ofNat 32 (4 * (k + 1)))
      (found : [r.gpr .ebp, r.gpr .ebx, r.gpr .esi, r.gpr .edi][k]? = some v) :
      M.word at0 = v := by
    obtain ⟨_, rfl⟩ := List.getElem?_eq_some_iff.mp found
    have apart : Disjoint (wordSpan (m.word (r.sp + 4))) (wordSpan at0) := by
      refine old.mono_right fun b inner => ?_
      rw [place, mem_bytesAt] at inner
      rw [mem_bytesAt]
      bv_omega
    rw [memory, word_setWord_of_disjoint apart, place]
    exact X86.pushes_word _ r m inside (by simp)
  have kept_context : Context M r'.sp v := by
    rw [sp]
    exact ⟨first.trans context.edi, (loaded (by decide)).trans context.esi,
      (loaded (by decide)).trans context.ebx, (loaded (by decide)).trans context.ebp,
      (loaded (by decide)).trans context.eip, context.sp⟩
  obtain ⟨same, segs, resumes⟩ := runs_takeUp next kept_context
  rw [← both] at same segs resumes
  rw [same]
  refine ⟨resumes, segs.trans seg, ?_, ⟨?_, ?_, ?_, ?_, ?_, ?_⟩⟩
  · rw [memory]
    exact word_setWord _ _ _
  · exact own (k := 3) (by decide) rfl rfl
  · exact own (k := 2) (by decide) (by bv_omega) rfl
  · exact own (k := 1) (by decide) (by bv_omega) rfl
  · exact own (k := 0) (by decide) (by bv_omega) rfl
  · have top : r.sp - 16 + 16 = r.sp := by bv_omega
    rw [top]
    refine word_congr fun b at0 => kept ?_ ?_
    · rw [mem_bytesAt] at at0 ⊢
      bv_omega
    · refine Set.disjoint_right.mp old ?_
      rw [mem_bytesAt] at at0 ⊢
      bv_omega
  · simp only [returned, X86.Regs.sp, X86.Regs.goto_gpr, X86.Regs.set_gpr, if_true]
    bv_omega

/-- What `swtch` reads and writes. -/
theorem swtch_inside (next : BitVec 32 → BitVec 32) {R W : Set (BitVec 32)}
    (own : bytesAt (r.sp - 16) 28 ⊆ R) (context : bytesAt (m.word (r.sp + 8)) 20 ⊆ R)
    (saved : bytesAt (r.sp - 16) 16 ⊆ W) (old : wordSpan (m.word (r.sp + 4)) ⊆ W) :
    X86.Inside next R W swtch (r, m) := by
  have arg {a : BitVec 32} (low : (a - (r.sp - 16)).toNat + 4 ≤ 28) : wordSpan a ⊆ R := by
    refine Set.Subset.trans (fun b inner => ?_) own
    rw [mem_bytesAt] at inner ⊢
    bv_omega
  have push {a : BitVec 32} (low : (a - (r.sp - 16)).toNat + 4 ≤ 16) : wordSpan a ⊆ W := by
    refine Set.Subset.trans (fun b inner => ?_) saved
    rw [mem_bytesAt] at inner ⊢
    bv_omega
  have pop {a : BitVec 32} (k : BitVec 32) (place : a = m.word (r.sp + 8) + k)
      (low : k.toNat + 4 ≤ 20) : wordSpan a ⊆ R := by
    rw [place]
    exact (wordSpan_subset_bytesAt low (by decide)).trans context
  have none (F : Set (BitVec 32)) : ∅ ⊆ F := Set.empty_subset F
  have arg1 : wordSpan (r.sp + 4) ⊆ R := arg (by bv_omega)
  have arg2 : wordSpan (r.sp + 8) ⊆ R := arg (by bv_omega)
  have push1 : wordSpan (r.sp - 4) ⊆ W := push (by bv_omega)
  have push2 : wordSpan (r.sp - 4 - 4) ⊆ W := push (by bv_omega)
  have push3 : wordSpan (r.sp - 4 - 4 - 4) ⊆ W := push (by bv_omega)
  have push4 : wordSpan (r.sp - 4 - 4 - 4 - 4) ⊆ W := push (by bv_omega)
  have pop1 : wordSpan (m.word (r.sp + 8)) ⊆ R := pop 0 (by simp) (by decide)
  have pop2 : wordSpan (m.word (r.sp + 8) + 4) ⊆ R := pop 4 rfl (by decide)
  have pop3 : wordSpan (m.word (r.sp + 8) + 4 + 4) ⊆ R := pop 8 (by bv_omega) (by decide)
  have pop4 : wordSpan (m.word (r.sp + 8) + 4 + 4 + 4) ⊆ R := pop 12 (by bv_omega) (by decide)
  have pop5 : wordSpan (m.word (r.sp + 8) + 4 + 4 + 4 + 4) ⊆ R := pop 16 (by bv_omega) (by decide)
  exact ⟨arg1, none W, arg2, none W, none R, push1, none R, push2, none R, push3, none R, push4,
    none R, old, none R, none W, pop1, none W, pop2, none W, pop3, none W, pop4, none W, pop5,
    none W, trivial⟩

end SlabStudy.Xv6.Assembly
