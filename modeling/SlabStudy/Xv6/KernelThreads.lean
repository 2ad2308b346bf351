import SlabStudy.Library.Runs
import SlabStudy.Xv6.TrapFrame

/-!
# Kernel threads on the processors

Threads with a stack each run on processors that share one memory.  Compiled
code and user code may do what they like within the bounds of the calling
convention; the assembly runs instruction by instruction, and traps may come
between any two instructions but those of `swtch`, which runs with interrupts off.
-/

namespace SlabStudy.Xv6.Assembly

open Library

/-- Where the assembly lies.  `fetch` is the assembly from an address on: none
where there is compiled code. -/
structure Text where
  next : BitVec 32 → BitVec 32
  fetch : BitVec 32 → List X86.Instr
  swtchAt : BitVec 32
  alltrapsAt : BitVec 32
  trapretAt : BitVec 32
  trapAt : BitVec 32
  forkretAt : BitVec 32
  vectorAt : Fin 256 → BitVec 32
  fetch_next : ∀ {e i j rest}, fetch e = i :: j :: rest → fetch (next e) = j :: rest
  fetch_swtch : fetch swtchAt = swtch
  fetch_alltraps : fetch alltrapsAt = alltraps trapAt
  fetch_trapret : fetch trapretAt = trapret
  fetch_vector : ∀ n, fetch (vectorAt n) = vector alltrapsAt n
  fetch_trap : fetch trapAt = []
  fetch_forkret : fetch forkretAt = []

/-- Where `trap` returns to. -/
def Text.resumeAt (text : Text) : BitVec 32 :=
  text.next (text.next (text.next (text.next (text.next (text.next (text.next (text.next
    (text.next (text.next text.alltrapsAt)))))))))

/-- The stacks of the threads, and the places where the pointers to their
contexts are kept.  A thread is one life of a process: the same entry of the
process table with another page for its stack is another thread, and a page or
an entry may belong to many threads, one after the other. -/
structure Areas (T : Type) where
  slot : T → BitVec 32
  low : T → Nat
  high : T → Nat
  fits : ∀ t, high t < 2 ^ 32
  own : ∀ t, Disjoint (wordSpan (slot t)) (span (low t) (high t))

/-- What belongs to a thread. -/
def Areas.area {T : Type} (areas : Areas T) (t : T) : Set (BitVec 32) :=
  span (areas.low t) (areas.high t) ∪ wordSpan (areas.slot t)

/-- A call of `trap`, or the start of a new thread: where the trap frame is, the
registers in it, where the compiled code returns to and with which stack
pointer, and whether it serves a system call. -/
structure Frame where
  base : BitVec 32
  regs : X86.Regs
  exit : BitVec 32
  exitSp : BitVec 32
  syscall : Bool

inductive Phase (T : Type) where
  | on (t : T)
  /-- In `swtch`, from the first thread to the second. -/
  | switching (t u : T)

def Phase.Has {T : Type} : Phase T → T → Prop
  | .on t, x => x = t
  | .switching t u, x => x = t ∨ x = u

inductive Status where
  | unborn | parked | engaged
  deriving DecidableEq

/-- `view` is what a thread that is not running goes on with, `frames` its calls
of `trap` from the last one on. -/
structure Machine (T C : Type) where
  mem : ByteMemory
  regs : C → X86.Regs
  phase : C → Phase T
  status : T → Status
  view : T → X86.Regs
  frames : T → List Frame

inductive Action (T : Type) where
  /-- Compiled code or user code. -/
  | work (r : X86.Regs) (m : ByteMemory)
  /-- Compiled code ends in a call of `swtch`. -/
  | call (u : T) (r : X86.Regs) (m : ByteMemory)
  /-- One instruction of the assembly. -/
  | exec
  | interrupt (n : Fin 256) (err : BitVec 32)
  /-- A system call changes its trap frame. -/
  | setFrame (r : X86.Regs) (m : ByteMemory)
  /-- `trap` or `forkret` returns. -/
  | leave (r : X86.Regs)
  /-- A new thread with its first context and trap frame. -/
  | spawn (u : T) (base : BitVec 32) (r : X86.Regs)
  /-- A thread that does not run is given up. -/
  | reap (u : T)

/-- The processor is in the kernel. -/
def InKernel (r : X86.Regs) : Prop := ¬ r.User ∧ r.seg .ss = segKdata

variable {T C : Type}

/-- Where the part of the stack begins that compiled code leaves alone. -/
def floor (areas : Areas T) (t : T) : List Frame → Nat
  | [] => areas.high t
  | f :: _ => f.base.toNat

variable [DecidableEq T] [DecidableEq C]

section Steps

variable (text : Text) (areas : Areas T)

/-- Processor `c` runs compiled kernel code of `t`. -/
structure Compiled (s : Machine T C) (c : C) (t : T) : Prop where
  on : s.phase c = .on t
  kernel : InKernel (s.regs c)
  code : text.fetch (s.regs c).eip = []

/-- Compiled code of `t` writes to no other thread's stack and not above its own frames. -/
structure Minds (s : Machine T C) (t : T) (m : ByteMemory) : Prop where
  others : ∀ u, u ≠ t → s.status u ≠ .unborn → Set.EqOn s.mem m (areas.area u)
  own : Set.EqOn s.mem m (span (floor areas t (s.frames t)) (areas.high t))

/-- The stack pointer is in the free part of the stack. -/
def Free (s : Machine T C) (t : T) (r : X86.Regs) : Prop :=
  areas.low t ≤ r.sp.toNat ∧ r.sp.toNat ≤ floor areas t (s.frames t)

/-- The caller of `swtch` has pushed the arguments and its return address. -/
structure Calls (s : Machine T C) (t u : T) (r : X86.Regs) (m : ByteMemory) : Prop where
  kernel : InKernel r
  entry : r.eip = text.swtchAt
  back : text.fetch (m.word r.sp) = []
  old : m.word (r.sp + 4) = areas.slot t
  new : m.word (r.sp + 8) = m.word (areas.slot u)
  low : areas.low t + 16 ≤ r.sp.toNat
  high : r.sp.toNat + 12 ≤ floor areas t (s.frames t)

/-- Thread `u` is not there, and its page and its entry of the table are free. -/
structure Vacant (s : Machine T C) (u : T) : Prop where
  unborn : s.status u = .unborn
  apart : ∀ t, s.status t ≠ .unborn → Disjoint (areas.area t) (areas.area u)

/-- What a new thread goes on with. -/
def firstView (text : Text) (base : BitVec 32) (kernel : X86.Regs) : X86.Regs where
  gpr reg := if reg = .esp then base - 4 else 0
  seg := kernel.seg
  eip := text.forkretAt
  eflags := kernel.eflags

/-- A new thread's stack: its context, the address of `trapret`, the trap frame. -/
structure Newborn (m : ByteMemory) (u : T) (base : BitVec 32) (r : X86.Regs) : Prop where
  slot : m.word (areas.slot u) = base - 24
  context : ∀ kernel, Context m (base - 24) (firstView text base kernel)
  ret : m.word (base - 4) = text.trapretAt
  saves : Saves m base r
  user : r.User
  low : areas.low u + 24 ≤ base.toNat
  high : base.toNat + 76 = areas.high u

def Machine.run (s : Machine T C) (c : C) (r : X86.Regs) (m : ByteMemory) : Machine T C :=
  { s with mem := m, regs := Function.update s.regs c r }

/-- The frame a trap makes. -/
def trapFrame (t : T) (n : Fin 256) (r : X86.Regs) : Frame :=
  let base := entrySp (BitVec.ofNat 32 (areas.high t)) r - BitVec.ofNat 32 (frameSize r)
  ⟨base, r, text.resumeAt, base - 4, n = tSyscall ∧ r.User⟩

inductive Step (s : Machine T C) : C × Action T → Machine T C → Prop where
  | user {c t r m} (on : s.phase c = .on t) (before : (s.regs c).User) (after : r.User)
      (minds : ∀ u, s.status u ≠ .unborn → Set.EqOn s.mem m (areas.area u)) :
      Step s (c, .work r m) (s.run c r m)
  | work {c t r m} (now : Compiled text s c t) (minds : Minds areas s t m) (kernel : InKernel r)
      (code : text.fetch r.eip = []) (free : Free areas s t r) :
      Step s (c, .work r m) (s.run c r m)
  | call {c t u r m} (now : Compiled text s c t) (minds : Minds areas s t m)
      (parked : s.status u = .parked) (calls : Calls text areas s t u r m) :
      Step s (c, .call u r m)
        { s.run c r m with
          phase := Function.update s.phase c (.switching t u)
          status := Function.update s.status u .engaged
          view := Function.update s.view t (returned r m) }
  | exec {c t i rest} (on : s.phase c = .on t) (kernel : ¬ (s.regs c).User)
      (code : text.fetch (s.regs c).eip = i :: rest) :
      Step s (c, .exec)
        { s.run c (X86.exec (text.next (s.regs c).eip) i (s.regs c, s.mem)).1
            (X86.exec (text.next (s.regs c).eip) i (s.regs c, s.mem)).2 with
          frames := if i = .iret then Function.update s.frames t (s.frames t).tail else s.frames }
  | swtch {c t u i rest} (on : s.phase c = .switching t u)
      (code : text.fetch (s.regs c).eip = i :: rest) (more : rest ≠ []) :
      Step s (c, .exec)
        (s.run c (X86.exec (text.next (s.regs c).eip) i (s.regs c, s.mem)).1
          (X86.exec (text.next (s.regs c).eip) i (s.regs c, s.mem)).2)
  | swtched {c t u i} (on : s.phase c = .switching t u)
      (code : text.fetch (s.regs c).eip = [i]) :
      Step s (c, .exec)
        { s.run c (X86.exec (text.next (s.regs c).eip) i (s.regs c, s.mem)).1
            (X86.exec (text.next (s.regs c).eip) i (s.regs c, s.mem)).2 with
          phase := Function.update s.phase c (.on u)
          status := Function.update s.status t .parked }
  | interrupt {c t n err} (on : s.phase c = .on t)
      (room : areas.low t + 84 ≤
        (entrySp (BitVec.ofNat 32 (areas.high t)) (s.regs c)).toNat) :
      Step s (c, .interrupt n err)
        { s.run c
            (Assembly.interrupt (text.vectorAt n) (BitVec.ofNat 32 (areas.high t)) n err
              (s.regs c, s.mem)).1
            (Assembly.interrupt (text.vectorAt n) (BitVec.ofNat 32 (areas.high t)) n err
              (s.regs c, s.mem)).2 with
          frames := Function.update s.frames t
            (trapFrame text areas t n (s.regs c) :: s.frames t) }
  | setFrame {c t f fs r m} (now : Compiled text s c t) (frames : s.frames t = f :: fs)
      (syscall : f.syscall = true) (user : r.User)
      (others : ∀ u, u ≠ t → s.status u ≠ .unborn → Set.EqOn s.mem m (areas.area u))
      (saves : Saves m f.base r) :
      Step s (c, .setFrame r m)
        { s with mem := m, frames := Function.update s.frames t ({ f with regs := r } :: fs) }
  | leave {c t f fs r} (now : Compiled text s c t) (frames : s.frames t = f :: fs)
      (kernel : InKernel r) (exit : r.eip = f.exit) (sp : r.sp = f.exitSp) :
      Step s (c, .leave r) (s.run c r s.mem)
  | spawn {c t u base r} (now : Compiled text s c t) (vacant : Vacant areas s u)
      (newborn : Newborn text areas s.mem u base r) :
      Step s (c, .spawn u base r)
        { s with
          status := Function.update s.status u .parked
          view := Function.update s.view u (firstView text base (s.regs c))
          frames := Function.update s.frames u
            [⟨base, r, s.mem.word (base - 4), base, false⟩] }
  | reap {c t u} (now : Compiled text s c t) (parked : s.status u = .parked) :
      Step s (c, .reap u) { s with status := Function.update s.status u .unborn }

/-- Every processor starts in compiled code, on a thread of its own, and no
other thread is there. -/
structure Boots (s : Machine T C) : Prop where
  start : ∀ c, ∃ t, Compiled text s c t ∧ s.frames t = [] ∧ s.status t = .engaged ∧
    Free areas s t (s.regs c)
  alone : ∀ {c d t}, s.phase c = .on t → s.phase d = .on t → c = d
  others : ∀ t, s.status t ≠ .parked
  apart : ∀ {t u}, t ≠ u → s.status t ≠ .unborn → s.status u ≠ .unborn →
    Disjoint (areas.area t) (areas.area u)

def machine : System (Machine T C) (C × Action T) where
  initial := Boots text areas
  step s label s' := Step text areas s label s'

end Steps

/-! ## A small kernel -/

/-- The assembly from `e` on when every instruction takes one address. -/
def flatFetch (e : BitVec 32) : List X86.Instr :=
  if e.toNat < 0x1000 then []
  else if e.toNat < 0x2000 then swtch.drop (e.toNat - 0x1000)
  else if e.toNat < 0x3000 then (alltraps 0x4000).drop (e.toNat - 0x2000)
  else if e.toNat < 0x3400 then
    (vector 0x2000 (Fin.ofNat 256 ((e.toNat - 0x3000) / 4))).drop (e.toNat % 4)
  else []

theorem drop_next {l rest : List X86.Instr} {k : Nat} {i j : X86.Instr}
    (code : l.drop k = i :: j :: rest) : l.drop (k + 1) = j :: rest ∧ k + 2 ≤ l.length := by
  have length := congrArg List.length code
  rw [List.length_drop, List.length_cons, List.length_cons] at length
  refine ⟨?_, by omega⟩
  rw [← List.tail_drop, code, List.tail_cons]

theorem flatFetch_next {e : BitVec 32} {i j : X86.Instr} {rest : List X86.Instr}
    (code : flatFetch e = i :: j :: rest) : flatFetch (e + 1) = j :: rest := by
  unfold flatFetch at code
  split at code
  · cases code
  split at code
  · obtain ⟨next, bound⟩ := drop_next code
    have length : swtch.length = 13 := rfl
    have after : (e + 1).toNat = e.toNat + 1 := by bv_omega
    unfold flatFetch
    have index : e.toNat + 1 - 0x1000 = e.toNat - 0x1000 + 1 := by omega
    rw [after, if_neg (by omega), if_pos (by omega), index]
    exact next
  split at code
  · obtain ⟨next, bound⟩ := drop_next code
    have length : (alltraps 0x4000).length = 18 := rfl
    have after : (e + 1).toNat = e.toNat + 1 := by bv_omega
    unfold flatFetch
    have index : e.toNat + 1 - 0x2000 = e.toNat - 0x2000 + 1 := by omega
    rw [after, if_neg (by omega), if_neg (by omega), if_pos (by omega), index]
    exact next
  split at code
  · obtain ⟨next, bound⟩ := drop_next code
    have length (n : Fin 256) : (vector 0x2000 n).length ≤ 3 := by
      unfold vector
      split <;> simp
    have short := length (Fin.ofNat 256 ((e.toNat - 0x3000) / 4))
    have after : (e + 1).toNat = e.toNat + 1 := by bv_omega
    have same : (e.toNat + 1 - 0x3000) / 4 = (e.toNat - 0x3000) / 4 := by omega
    have inner : (e.toNat + 1) % 4 = e.toNat % 4 + 1 := by omega
    unfold flatFetch
    rw [after, if_neg (by omega), if_neg (by omega), if_neg (by omega), if_pos (by omega), same,
      inner]
    exact next
  · cases code

def flatText : Text where
  next e := e + 1
  fetch := flatFetch
  swtchAt := 0x1000
  alltrapsAt := 0x2000
  trapretAt := 0x200b
  trapAt := 0x4000
  forkretAt := 0x5000
  vectorAt n := BitVec.ofNat 32 (0x3000 + 4 * n)
  fetch_next := flatFetch_next
  fetch_swtch := rfl
  fetch_alltraps := rfl
  fetch_trapret := rfl
  fetch_vector n := by
    have place : (BitVec.ofNat 32 (0x3000 + 4 * n)).toNat = 0x3000 + 4 * n := by
      have bound := n.isLt
      bv_omega
    have index : (0x3000 + 4 * n.val - 0x3000) / 4 = n := by omega
    have start : (0x3000 + 4 * n.val) % 4 = 0 := by omega
    have bound := n.isLt
    unfold flatFetch
    rw [place, if_neg (by omega), if_neg (by omega), if_neg (by omega), if_pos (by omega), index,
      start, Fin.ofNat_val_eq_self, List.drop_zero]
  fetch_trap := rfl
  fetch_forkret := rfl

/-- Eight entries of the process table, each of which can go with any of eight pages. -/
def pageAreas : Areas (Fin 8 × Fin 8) where
  slot t := BitVec.ofNat 32 (0x80000 + 4 * t.1)
  low t := 0x100000 + 0x1000 * t.2
  high t := 0x101000 + 0x1000 * t.2
  fits t := by omega
  own t := by
    have bound := t.1.isLt
    have place : (BitVec.ofNat 32 (0x80000 + 4 * t.1.val)).toNat = 0x80000 + 4 * t.1 := by
      bv_omega
    exact bytesAt_disjoint_span (by omega) (by omega)

theorem pageAreas_apart {t u : Fin 8 × Fin 8} (entry : t.1 ≠ u.1) (page : t.2 ≠ u.2) :
    Disjoint (pageAreas.area t) (pageAreas.area u) := by
  have entry := Fin.val_ne_of_ne entry
  have page := Fin.val_ne_of_ne page
  unfold Areas.area pageAreas
  dsimp only
  rw [Set.disjoint_left]
  rintro b (stack | pointer) (stack' | pointer')
  · rw [mem_span] at stack stack'
    omega
  · rw [mem_span] at stack
    rw [mem_bytesAt] at pointer'
    bv_omega
  · rw [mem_span] at stack'
    rw [mem_bytesAt] at pointer
    bv_omega
  · rw [mem_bytesAt] at pointer pointer'
    bv_omega

/-- One processor on the first of the stacks, in compiled code. -/
def boot : Machine (Fin 8 × Fin 8) Unit where
  mem _ := 0
  regs _ :=
    { gpr := fun reg => if reg = .esp then 0x101000 else 0
      seg := fun q => if q = .cs then segKcode else segKdata
      eip := 0
      eflags := 0 }
  phase _ := .on (0, 0)
  status t := if t = (0, 0) then .engaged else .unborn
  view _ := ⟨fun _ => 0, fun _ => 0, 0, 0⟩
  frames _ := []

theorem boot_compiled : Compiled flatText boot () (0, 0) := by
  refine ⟨rfl, ⟨?_, rfl⟩, rfl⟩
  unfold X86.Regs.User
  decide

theorem boot_alone {t : Fin 8 × Fin 8} (born : boot.status t ≠ .unborn) : t = (0, 0) := by
  by_contra other
  exact born (if_neg other)

theorem boot_boots : Boots flatText pageAreas boot := by
  have sp : (boot.regs ()).sp.toNat = 0x101000 := by decide
  refine ⟨fun _ => ⟨(0, 0), boot_compiled, rfl, rfl, ?_, ?_⟩, fun _ _ => rfl, fun t => ?_,
    fun other first second => ?_⟩
  · rw [sp]
    decide
  · rw [sp]
    decide
  · simp only [boot]
    split <;> decide
  · exact absurd ((boot_alone first).trans (boot_alone second).symm) other

end SlabStudy.Xv6.Assembly
