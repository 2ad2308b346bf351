import Mathlib.Logic.Function.Basic
import SlabStudy.Library.ByteMemory

/-!
# A part of the 32-bit x86

The registers of one processor and the instructions that entry code and context
switches are written in.  A run of instructions depends on the memory it reads
and on nothing else: what lies below the stack pointer may change under it.
-/

namespace SlabStudy.Library.X86

inductive Reg where
  | eax | ecx | edx | ebx | esp | ebp | esi | edi
  deriving DecidableEq

inductive Seg where
  | cs | ss | ds | es | fs | gs
  deriving DecidableEq

@[ext] structure Regs where
  gpr : Reg → BitVec 32
  seg : Seg → BitVec 16
  eip : BitVec 32
  eflags : BitVec 32

/-- A processor's registers and the memory. -/
abbrev State := Regs × ByteMemory

namespace Regs

abbrev sp (r : Regs) : BitVec 32 := r.gpr .esp

def set (r : Regs) (target : Reg) (v : BitVec 32) : Regs :=
  { r with gpr := Function.update r.gpr target v }

def setSeg (r : Regs) (target : Seg) (v : BitVec 16) : Regs :=
  { r with seg := Function.update r.seg target v }

def goto (r : Regs) (e : BitVec 32) : Regs := { r with eip := e }

/-- The privilege level is kept in the low bits of the code segment. -/
def User (r : Regs) : Prop := r.seg .cs &&& 3 = 3

instance (r : Regs) : Decidable r.User := inferInstanceAs (Decidable (_ = _))

variable (r : Regs) (target reg : Reg) (s q : Seg) (v e : BitVec 32) (w : BitVec 16)

@[simp] theorem set_gpr : (r.set target v).gpr reg = if reg = target then v else r.gpr reg :=
  Function.update_apply _ _ _ _
@[simp] theorem set_seg : (r.set target v).seg = r.seg := rfl
@[simp] theorem set_eip : (r.set target v).eip = r.eip := rfl
@[simp] theorem set_eflags : (r.set target v).eflags = r.eflags := rfl
@[simp] theorem setSeg_gpr : (r.setSeg s w).gpr = r.gpr := rfl
@[simp] theorem setSeg_seg : (r.setSeg s w).seg q = if q = s then w else r.seg q :=
  Function.update_apply _ _ _ _
@[simp] theorem setSeg_eip : (r.setSeg s w).eip = r.eip := rfl
@[simp] theorem setSeg_eflags : (r.setSeg s w).eflags = r.eflags := rfl
@[simp] theorem goto_gpr : (r.goto e).gpr = r.gpr := rfl
@[simp] theorem goto_seg : (r.goto e).seg = r.seg := rfl
@[simp] theorem goto_eip : (r.goto e).eip = e := rfl
@[simp] theorem goto_eflags : (r.goto e).eflags = r.eflags := rfl

end Regs

/-- The flag at place `k`. -/
def flag (on : Bool) (k : Nat) : BitVec 32 := if on then 1#32 <<< k else 0

/-- What an addition leaves in the flags: carry, parity, adjust, zero, sign, overflow. -/
def addFlags (old a b : BitVec 32) : BitVec 32 :=
  (old &&& ~~~0x8d5#32) ||| flag (a.uaddOverflow b) 0 |||
    flag (((List.range 8).countP fun k => (a + b).getLsbD k) % 2 = 0) 2 |||
    flag (16 ≤ a.toNat % 16 + b.toNat % 16) 4 ||| flag (a + b = 0) 6 |||
    flag (a + b).msb 7 ||| flag (a.saddOverflow b) 11

inductive Instr where
  | load (offset : BitVec 32) (base target : Reg)
  | store (source base : Reg)
  | move (source target : Reg)
  | push (source : Reg)
  | pushImm (value : BitVec 32)
  | pushSeg (source : Seg)
  | pushAll
  | pop (target : Reg)
  | popSeg (target : Seg)
  | popAll
  | setLow (value : BitVec 16) (target : Reg)
  | setSeg (source : Reg) (target : Seg)
  | add (value : BitVec 32) (target : Reg)
  | jmp (target : BitVec 32)
  | call (target : BitVec 32)
  | ret
  | iret
  deriving DecidableEq

def push (v : BitVec 32) (s : State) : State :=
  (s.1.set .esp (s.1.sp - 4), s.2.setWord (s.1.sp - 4) v)

/-- Words pushed one after the other. -/
def pushes (values : List (BitVec 32)) (s : State) : State := values.foldl (fun t v => push v t) s

/-- `pushal`: the stack pointer that is stored is the one before the first push. -/
def pushAll (s : State) : State :=
  pushes ([Reg.eax, .ecx, .edx, .ebx, .esp, .ebp, .esi, .edi].map s.1.gpr) s

/-- `popal`: the stored stack pointer is skipped. -/
def popAll (r : Regs) (m : ByteMemory) : Regs :=
  { r with
    gpr := fun
      | .edi => m.word r.sp
      | .esi => m.word (r.sp + 4)
      | .ebp => m.word (r.sp + 8)
      | .esp => r.sp + 32
      | .ebx => m.word (r.sp + 16)
      | .edx => m.word (r.sp + 20)
      | .ecx => m.word (r.sp + 24)
      | .eax => m.word (r.sp + 28) }

/-- The low half of a word. -/
def half (v : BitVec 32) : BitVec 16 := v.setWidth 16

@[simp] theorem half_setWidth (v : BitVec 16) : half (v.setWidth 32) = v := by
  unfold half
  bv_omega

/-- `iret`: the stack pointer and its segment come from the stack on the way to
an outer level only. -/
def iret (r : Regs) (m : ByteMemory) : Regs :=
  let cs := half (m.word (r.sp + 4))
  let out := ((r.setSeg .cs cs).goto (m.word r.sp))
  if r.User ∨ cs &&& 3 ≠ 3 then
    { out.set .esp (r.sp + 12) with eflags := m.word (r.sp + 8) }
  else
    { (out.set .esp (m.word (r.sp + 12))).setSeg .ss (half (m.word (r.sp + 16))) with
      eflags := m.word (r.sp + 8) }

/-- One instruction; `next` is the address of the instruction after it. -/
def exec (next : BitVec 32) : Instr → State → State
  | .load offset base target, (r, m) =>
    ((r.set target (m.word (r.gpr base + offset))).goto next, m)
  | .store source base, (r, m) => (r.goto next, m.setWord (r.gpr base) (r.gpr source))
  | .move source target, (r, m) => ((r.set target (r.gpr source)).goto next, m)
  | .push source, (r, m) => push (r.gpr source) (r.goto next, m)
  | .pushImm value, (r, m) => push value (r.goto next, m)
  | .pushSeg source, (r, m) => push ((r.seg source).setWidth 32) (r.goto next, m)
  | .pushAll, (r, m) => pushAll (r.goto next, m)
  | .pop target, (r, m) =>
    (((r.set .esp (r.sp + 4)).set target (m.word r.sp)).goto next, m)
  | .popSeg target, (r, m) =>
    (((r.set .esp (r.sp + 4)).setSeg target (half (m.word r.sp))).goto next, m)
  | .popAll, (r, m) => ((popAll r m).goto next, m)
  | .setLow value target, (r, m) =>
    ((r.set target ((r.gpr target).extractLsb' 16 16 ++ value)).goto next, m)
  | .setSeg source target, (r, m) => ((r.setSeg target (half (r.gpr source))).goto next, m)
  | .add value target, (r, m) =>
    ({ (r.set target (r.gpr target + value)).goto next with
        eflags := addFlags r.eflags (r.gpr target) value }, m)
  | .jmp target, (r, m) => (r.goto target, m)
  | .call target, (r, m) => push next (r.goto target, m)
  | .ret, (r, m) => ((r.set .esp (r.sp + 4)).goto (m.word r.sp), m)
  | .iret, (r, m) => (iret r m, m)

/-- Instructions one after the other; `next` tells the address after an address. -/
def runs (next : BitVec 32 → BitVec 32) : List Instr → State → State
  | [], s => s
  | i :: rest, s => runs next rest (exec (next s.1.eip) i s)

/-- The bytes an instruction reads. -/
def reads (r : Regs) : Instr → Set (BitVec 32)
  | .load offset base _ => wordSpan (r.gpr base + offset)
  | .pop _ | .popSeg _ | .ret => wordSpan r.sp
  | .popAll => bytesAt r.sp 32
  | .iret => bytesAt r.sp 20
  | .store _ _ | .move _ _ | .push _ | .pushImm _ | .pushSeg _ | .pushAll | .setLow _ _
  | .setSeg _ _ | .add _ _ | .jmp _ | .call _ => ∅

/-- The bytes `n` pushed words go to. -/
def pushed (r : Regs) (n : Nat) : Set (BitVec 32) :=
  bytesAt (r.sp - BitVec.ofNat 32 (4 * n)) (4 * n)

/-- The bytes an instruction writes. -/
def writes (r : Regs) : Instr → Set (BitVec 32)
  | .store _ base => wordSpan (r.gpr base)
  | .push _ | .pushImm _ | .pushSeg _ | .call _ => wordSpan (r.sp - 4)
  | .pushAll => pushed r 8
  | .load _ _ _ | .move _ _ | .pop _ | .popSeg _ | .popAll | .setLow _ _ | .setSeg _ _
  | .add _ _ | .jmp _ | .ret | .iret => ∅

variable {next : BitVec 32 → BitVec 32} {e : BitVec 32} {r : Regs} {m m' : ByteMemory}
  {F : Set (BitVec 32)} {code : List Instr} {low high : Nat}

theorem pushes_cons (v : BitVec 32) (rest : List (BitVec 32)) (r : Regs) (m : ByteMemory) :
    pushes (v :: rest) (r, m) = pushes rest (r.set .esp (r.sp - 4), m.setWord (r.sp - 4) v) := rfl

theorem pushes_regs (values : List (BitVec 32)) (r : Regs) (m : ByteMemory) :
    (pushes values (r, m)).1 = r.set .esp (r.sp - BitVec.ofNat 32 (4 * values.length)) := by
  induction values generalizing r m with
  | nil =>
      ext1
      · funext reg
        by_cases same : reg = .esp
        · subst same
          simp [pushes]
        · simp [pushes, same]
      all_goals rfl
  | cons v rest ih =>
      rw [pushes_cons, ih]
      ext1
      · funext reg
        by_cases same : reg = .esp
        · subst same
          simp only [Regs.sp, Regs.set_gpr, if_true, List.length_cons]
          bv_omega
        · simp [same]
      all_goals rfl

theorem pushes_sp (values : List (BitVec 32)) (s : State) :
    (pushes values s).1.sp = s.1.sp - BitVec.ofNat 32 (4 * values.length) := by
  obtain ⟨r, m⟩ := s
  rw [pushes_regs]
  simp

theorem pushed_goto (n : Nat) : pushed (r.goto e) n = pushed r n := rfl

theorem pushed_succ {n : Nat} (bound : 4 * (n + 1) < 2 ^ 32) :
    pushed r (n + 1) = wordSpan (r.sp - 4) ∪ pushed (r.set .esp (r.sp - 4)) n := by
  ext b
  simp only [pushed, Set.mem_union, mem_bytesAt, Regs.sp, Regs.set_gpr, if_true]
  constructor
  · intro inside
    bv_omega
  · rintro (first | later)
    · bv_omega
    · bv_omega

theorem pushes_outside (values : List (BitVec 32)) (r : Regs) (m : ByteMemory) {b : BitVec 32}
    (bound : 4 * values.length < 2 ^ 32) (outside : b ∉ pushed r values.length) :
    (pushes values (r, m)).2 b = m b := by
  induction values generalizing r m with
  | nil => rfl
  | cons v rest ih =>
      rw [List.length_cons, pushed_succ bound, Set.mem_union, not_or] at outside
      rw [List.length_cons] at bound
      rw [pushes_cons, ih _ _ (by omega) outside.2]
      exact setWord_outside outside.1

theorem pushes_local (values : List (BitVec 32)) (r : Regs) (bound : 4 * values.length < 2 ^ 32)
    (same : Set.EqOn m m' F) : Set.EqOn (pushes values (r, m)).2 (pushes values (r, m')).2
      (F ∪ pushed r values.length) := by
  induction values generalizing r m m' F with
  | nil =>
      rintro b (inside | none)
      · exact same inside
      · exact absurd none (Nat.not_lt_zero _)
  | cons v rest ih =>
      rw [List.length_cons] at bound
      rw [List.length_cons, pushed_succ bound, ← Set.union_assoc]
      exact ih (r.set .esp (r.sp - 4)) (by omega) (setWord_congr same)

theorem pushes_append (first second : List (BitVec 32)) (s : State) :
    pushes (first ++ second) s = pushes second (pushes first s) := List.foldl_append

theorem pushes_memory (values : List (BitVec 32)) {r r' : Regs} (same : r.sp = r'.sp)
    (m : ByteMemory) : (pushes values (r, m)).2 = (pushes values (r', m)).2 := by
  induction values generalizing r r' m with
  | nil => rfl
  | cons v rest ih =>
      rw [pushes_cons, pushes_cons, same]
      exact ih (by simp) _

/-- Pushed words are found at their places below the old stack pointer. -/
theorem pushes_word (values : List (BitVec 32)) (r : Regs) (m : ByteMemory) {k : Nat}
    (inside : k < values.length) (bound : 4 * values.length < 2 ^ 32) :
    (pushes values (r, m)).2.word (r.sp - BitVec.ofNat 32 (4 * (k + 1))) = values[k] := by
  induction values generalizing r m k with
  | nil => exact absurd inside (Nat.not_lt_zero k)
  | cons v rest ih =>
      rw [List.length_cons] at inside bound
      rw [pushes_cons]
      have below : (r.set .esp (r.sp - 4)).sp = r.sp - 4 := by simp
      cases k with
      | zero =>
          have apart : Set.EqOn (pushes rest (r.set .esp (r.sp - 4), m.setWord (r.sp - 4) v)).2
              (m.setWord (r.sp - 4) v) (wordSpan (r.sp - 4)) := by
            intro b at0
            refine pushes_outside rest _ _ (by omega) ?_
            rw [pushed, below, mem_bytesAt]
            rw [mem_bytesAt] at at0
            bv_omega
          exact (word_congr apart).trans (word_setWord m _ v)
      | succ k =>
          have place : r.sp - BitVec.ofNat 32 (4 * (k + 1 + 1)) =
              (r.set .esp (r.sp - 4)).sp - BitVec.ofNat 32 (4 * (k + 1)) := by
            rw [below]
            bv_omega
          rw [place, List.getElem_cons_succ]
          exact ih _ _ (by omega) (by omega)

/-- An instruction changes the bytes it writes and no others. -/
theorem exec_outside (i : Instr) (r : Regs) (m : ByteMemory) {b : BitVec 32}
    (outside : b ∉ writes r i) : (exec e i (r, m)).2 b = m b := by
  cases i with
  | store source base => exact setWord_outside outside
  | push source => exact setWord_outside outside
  | pushImm value => exact setWord_outside outside
  | pushSeg source => exact setWord_outside outside
  | call target => exact setWord_outside outside
  | pushAll => exact pushes_outside _ _ _ (by simp) outside
  | _ => rfl

theorem popAll_congr (same : Set.EqOn m m' (bytesAt r.sp 32)) : popAll r m = popAll r m' := by
  have word (k : BitVec 32) (last : k.toNat + 4 ≤ 32) : m.word (r.sp + k) = m'.word (r.sp + k) :=
    word_congr (same.mono (wordSpan_subset_bytesAt last (by decide)))
  have first : m.word r.sp = m'.word r.sp := by simpa using word 0 (by decide)
  unfold popAll
  rw [first, word 4 (by decide), word 8 (by decide), word 16 (by decide), word 20 (by decide),
    word 24 (by decide), word 28 (by decide)]

theorem iret_congr (same : Set.EqOn m m' (bytesAt r.sp 20)) : iret r m = iret r m' := by
  have word (k : BitVec 32) (last : k.toNat + 4 ≤ 20) : m.word (r.sp + k) = m'.word (r.sp + k) :=
    word_congr (same.mono (wordSpan_subset_bytesAt last (by decide)))
  have first : m.word r.sp = m'.word r.sp := by simpa using word 0 (by decide)
  unfold iret
  rw [first, word 4 (by decide), word 8 (by decide), word 12 (by decide), word 16 (by decide)]

/-- On two memories that agree where it reads, an instruction does the same to
the registers. -/
theorem exec_regs (i : Instr) (same : Set.EqOn m m' (reads r i)) :
    (exec e i (r, m)).1 = (exec e i (r, m')).1 := by
  cases i with
  | load offset base target => simp only [exec, word_congr same]
  | pop target => simp only [exec, word_congr same]
  | popSeg target => simp only [exec, word_congr same]
  | ret => simp only [exec, word_congr same]
  | popAll => simp only [exec, popAll_congr same]
  | iret => simp only [exec, iret_congr same]
  | pushAll => simp only [exec, pushAll, pushes_regs]
  | _ => rfl

/-- The memories agree on what it has written as well. -/
theorem exec_local (i : Instr) (same : Set.EqOn m m' F) :
    Set.EqOn (exec e i (r, m)).2 (exec e i (r, m')).2 (F ∪ writes r i) := by
  have stored (a v : BitVec 32) : Set.EqOn (m.setWord a v) (m'.setWord a v) (F ∪ wordSpan a) :=
    setWord_congr same
  have kept : Set.EqOn m m' (F ∪ ∅) := by
    rw [Set.union_empty]
    exact same
  cases i with
  | store source base => exact stored (r.gpr base) (r.gpr source)
  | push source => exact stored (r.sp - 4) (r.gpr source)
  | pushImm value => exact stored (r.sp - 4) value
  | pushSeg source => exact stored (r.sp - 4) ((r.seg source).setWidth 32)
  | call target => exact stored (r.sp - 4) e
  | pushAll =>
      have gone := pushes_local ([Reg.eax, .ecx, .edx, .ebx, .esp, .ebp, .esi, .edi].map r.gpr)
        (r.goto e) (by simp) same
      rw [List.length_map, pushed_goto] at gone
      exact gone
  | _ => exact kept

theorem runs_append (first second : List Instr) (s : State) :
    runs next (first ++ second) s = runs next second (runs next first s) := by
  induction first generalizing s with
  | nil => rfl
  | cons i rest ih => exact ih _

/-- The instructions that leave a segment register alone. -/
def keepsSeg (q : Seg) : Instr → Bool
  | .popSeg target | .setSeg _ target => target ≠ q
  | .iret => false
  | .load _ _ _ | .store _ _ | .move _ _ | .push _ | .pushImm _ | .pushSeg _ | .pushAll | .pop _
  | .popAll | .setLow _ _ | .add _ _ | .jmp _ | .call _ | .ret => true

theorem exec_seg {q : Seg} {i : Instr} (keeps : keepsSeg q i) (s : State) :
    (exec e i s).1.seg q = s.1.seg q := by
  obtain ⟨r, m⟩ := s
  cases i with
  | popSeg target =>
      have other : target ≠ q := by simpa [keepsSeg] using keeps
      simp [exec, Ne.symm other]
  | setSeg source target =>
      have other : target ≠ q := by simpa [keepsSeg] using keeps
      simp [exec, Ne.symm other]
  | iret => exact absurd keeps (by simp [keepsSeg])
  | pushAll => simp [exec, pushAll, pushes_regs]
  | _ => rfl

theorem runs_seg {q : Seg} (keep : code.all (keepsSeg q)) (s : State) :
    (runs next code s).1.seg q = s.1.seg q := by
  induction code generalizing s with
  | nil => rfl
  | cons i rest ih =>
      rw [List.all_cons, Bool.and_eq_true] at keep
      exact (ih keep.2 _).trans (exec_seg keep.1 s)

/-! ## Runs beside other changes of the memory -/

/-- Every instruction reads between the stack pointer and `high` only and writes
between `low` and `high` only, and what lies between the stack pointer and
`high` after it was there before or has been written by it. -/
def Steady (next : BitVec 32 → BitVec 32) (low high : Nat) : List Instr → State → Prop
  | [], _ => True
  | i :: rest, s =>
    reads s.1 i ⊆ span s.1.sp.toNat high ∧ writes s.1 i ⊆ span low high ∧
      span (exec (next s.1.eip) i s).1.sp.toNat high ⊆ span s.1.sp.toNat high ∪ writes s.1 i ∧
      Steady next low high rest (exec (next s.1.eip) i s)

/-- What lies below the stack pointer has no part in a steady run. -/
theorem runs_steady {s : State} (s' : State) (steady : Steady next low high code s)
    (same : Set.EqOn s.2 s'.2 (span s.1.sp.toNat high)) (regs : s.1 = s'.1) :
    (runs next code s).1 = (runs next code s').1 ∧
      Set.EqOn (runs next code s).2 (runs next code s').2
        (span (runs next code s).1.sp.toNat high) ∧
      Steady next low high code s' := by
  induction code generalizing s s' with
  | nil => exact ⟨regs, same, trivial⟩
  | cons i rest ih =>
      obtain ⟨r, m⟩ := s
      obtain ⟨r', m'⟩ := s'
      obtain rfl : r = r' := regs
      obtain ⟨needs, stores, covered, later⟩ := steady
      have after : (exec (next r.eip) i (r, m)).1 = (exec (next r.eip) i (r, m')).1 :=
        exec_regs i (same.mono needs)
      obtain ⟨regs', memory, later'⟩ := ih _ later ((exec_local i same).mono covered) after
      refine ⟨regs', memory, needs, stores, ?_, later'⟩
      rw [← after]
      exact covered

/-- How far an instruction moves the stack pointer down, for those that only push. -/
def sinks : Instr → Option Nat
  | .push _ | .pushImm _ | .pushSeg _ | .call _ => some 4
  | .pushAll => some 32
  | .jmp _ | .setSeg _ _ => some 0
  | .setLow _ target => if target = .esp then none else some 0
  | .load _ _ _ | .store _ _ | .move _ _ | .pop _ | .popSeg _ | .popAll | .add _ _ | .ret
  | .iret => none

/-- How far an instruction moves the stack pointer up, for those that only pop. -/
def lifts : Instr → Option Nat
  | .pop target => if target = .esp then none else some 4
  | .popSeg _ => some 4
  | .popAll => some 32
  | .add value target => if target = .esp then some value.toNat else none
  | .load _ _ _ | .store _ _ | .move _ _ | .push _ | .pushImm _ | .pushSeg _ | .pushAll
  | .setLow _ _ | .setSeg _ _ | .jmp _ | .call _ | .ret | .iret => none

/-- The sum of the moves of a row of instructions, when each is of the kind. -/
def total (move : Instr → Option Nat) : List Instr → Option Nat
  | [] => some 0
  | i :: rest => do return (← move i) + (← total move rest)

theorem bytesAt_zero (a : BitVec 32) : bytesAt a 0 = ∅ :=
  Set.eq_empty_of_forall_notMem fun _ => Nat.not_lt_zero _

theorem exec_sinks {i : Instr} {k : Nat} (sinking : sinks i = some k) (room : k ≤ r.sp.toNat) :
    reads r i = ∅ ∧ writes r i = bytesAt (r.sp - BitVec.ofNat 32 k) k ∧
      (exec e i (r, m)).1.sp.toNat = r.sp.toNat - k := by
  have word : (r.sp - 4).toNat = r.sp.toNat - 4 ∨ r.sp.toNat < 4 := by bv_omega
  cases i with
  | push source =>
      obtain rfl := Option.some.inj sinking
      exact ⟨rfl, rfl, word.resolve_right (by omega)⟩
  | pushImm value =>
      obtain rfl := Option.some.inj sinking
      exact ⟨rfl, rfl, word.resolve_right (by omega)⟩
  | pushSeg source =>
      obtain rfl := Option.some.inj sinking
      exact ⟨rfl, rfl, word.resolve_right (by omega)⟩
  | call target =>
      obtain rfl := Option.some.inj sinking
      exact ⟨rfl, rfl, word.resolve_right (by omega)⟩
  | pushAll =>
      obtain rfl := Option.some.inj sinking
      refine ⟨rfl, rfl, ?_⟩
      simp only [exec, pushAll, pushes_regs]
      simp only [Regs.sp, Regs.set_gpr, if_true, List.length_map, List.length_cons,
        List.length_nil, Regs.goto_gpr] at room ⊢
      bv_omega
  | jmp target =>
      obtain rfl := Option.some.inj sinking
      exact ⟨rfl, (bytesAt_zero _).symm, rfl⟩
  | setSeg source target =>
      obtain rfl := Option.some.inj sinking
      exact ⟨rfl, (bytesAt_zero _).symm, rfl⟩
  | setLow value target =>
      obtain ⟨other, rfl⟩ : target ≠ .esp ∧ 0 = k := by simpa [sinks] using sinking
      refine ⟨rfl, (bytesAt_zero _).symm, ?_⟩
      simp [exec, Regs.sp, Ne.symm other]
  | _ => simp [sinks] at sinking

theorem exec_lifts {i : Instr} {k : Nat} (lifting : lifts i = some k)
    (room : r.sp.toNat + k < 2 ^ 32) :
    reads r i ⊆ bytesAt r.sp k ∧ writes r i = ∅ ∧
      (exec e i (r, m)).1.sp.toNat = r.sp.toNat + k := by
  simp only [Regs.sp] at room
  cases i with
  | pop target =>
      obtain ⟨other, rfl⟩ : target ≠ .esp ∧ 4 = k := by simpa [lifts] using lifting
      refine ⟨subset_rfl, rfl, ?_⟩
      simp only [exec, Regs.sp, Regs.goto_gpr, Regs.set_gpr, if_neg (Ne.symm other), if_true]
      bv_omega
  | popSeg target =>
      obtain rfl := Option.some.inj lifting
      refine ⟨subset_rfl, rfl, ?_⟩
      simp only [exec, Regs.sp, Regs.goto_gpr, Regs.setSeg_gpr, Regs.set_gpr, if_true]
      bv_omega
  | popAll =>
      obtain rfl := Option.some.inj lifting
      refine ⟨subset_rfl, rfl, ?_⟩
      simp only [exec, popAll, Regs.sp, Regs.goto_gpr]
      bv_omega
  | add value target =>
      obtain ⟨rfl, rfl⟩ : target = .esp ∧ value.toNat = k := by simpa [lifts] using lifting
      refine ⟨Set.empty_subset _, rfl, ?_⟩
      simp only [exec, Regs.sp, Regs.goto_gpr, Regs.set_gpr, if_true]
      bv_omega
  | _ => simp [lifts] at lifting

theorem total_cons {move : Instr → Option Nat} {i : Instr} {rest : List Instr} {k : Nat}
    (sum : total move (i :: rest) = some k) :
    ∃ a b, move i = some a ∧ total move rest = some b ∧ a + b = k := by
  simpa [total, Option.bind_eq_some_iff] using sum

theorem runs_sinks (next : BitVec 32 → BitVec 32) {k : Nat} {s : State}
    (sinking : total sinks code = some k) (room : k ≤ s.1.sp.toNat) : (runs next code s).1.sp.toNat = s.1.sp.toNat - k := by
  induction code generalizing s k with
  | nil =>
      obtain rfl : 0 = k := Option.some.inj sinking
      rfl
  | cons i rest ih =>
      obtain ⟨r, m⟩ := s
      obtain ⟨a, b, first, later, rfl⟩ := total_cons sinking
      dsimp only at room
      obtain ⟨_, _, moved⟩ := exec_sinks (e := next r.eip) (m := m) first (r := r) (by omega)
      have after := ih (s := exec (next r.eip) i (r, m)) later (by omega)
      rw [moved] at after
      refine after.trans ?_
      dsimp only
      omega

theorem steady_sinks {k : Nat} {s : State} (sinking : total sinks code = some k)
    (room : low + k ≤ s.1.sp.toNat) (below : s.1.sp.toNat ≤ high) (fits : high < 2 ^ 32) :
    Steady next low high code s := by
  induction code generalizing s k with
  | nil => exact trivial
  | cons i rest ih =>
      obtain ⟨r, m⟩ := s
      obtain ⟨a, b, first, later, rfl⟩ := total_cons sinking
      dsimp only at room below
      obtain ⟨none, stores, moved⟩ :=
        exec_sinks (e := next r.eip) (m := m) first (r := r) (by omega)
      have start : (r.sp - BitVec.ofNat 32 a).toNat = r.sp.toNat - a := by bv_omega
      refine ⟨?_, ?_, ?_, ih later ?_ ?_⟩
      · rw [none]
        exact Set.empty_subset _
      · rw [stores]
        exact bytesAt_subset_span (by omega) (by omega) (by omega)
      · intro b between
        rw [mem_span, moved] at between
        rw [Set.mem_union, mem_span, stores, mem_bytesAt]
        bv_omega
      · rw [moved]
        omega
      · rw [moved]
        omega

theorem steady_lifts {k : Nat} {s : State} (lifting : total lifts code = some k)
    (room : s.1.sp.toNat + k ≤ high) (fits : high < 2 ^ 32) : Steady next low high code s := by
  induction code generalizing s k with
  | nil => exact trivial
  | cons i rest ih =>
      obtain ⟨r, m⟩ := s
      obtain ⟨a, b, first, later, rfl⟩ := total_cons lifting
      dsimp only at room
      obtain ⟨needs, none, moved⟩ :=
        exec_lifts (e := next r.eip) (m := m) first (r := r) (by omega)
      refine ⟨?_, ?_, ?_, ih later ?_⟩
      · exact needs.trans (bytesAt_subset_span le_rfl (by omega) (by omega))
      · rw [none]
        exact Set.empty_subset _
      · have above : r.sp.toNat ≤ (exec (next r.eip) i (r, m)).1.sp.toNat := by omega
        exact (span_subset_span above le_rfl).trans Set.subset_union_left
      · rw [moved]
        omega

/-- Every instruction reads in `R` and writes in `W` only. -/
def Inside (next : BitVec 32 → BitVec 32) (R W : Set (BitVec 32)) : List Instr → State → Prop
  | [], _ => True
  | i :: rest, s =>
    reads s.1 i ⊆ R ∧ writes s.1 i ⊆ W ∧ Inside next R W rest (exec (next s.1.eip) i s)

/-- What lies outside of what it reads has no part in a run. -/
theorem runs_inside {R W : Set (BitVec 32)} {s : State} (s' : State)
    (inside : Inside next R W code s) (same : Set.EqOn s.2 s'.2 F) (within : R ⊆ F)
    (regs : s.1 = s'.1) :
    (runs next code s).1 = (runs next code s').1 ∧
      Set.EqOn (runs next code s).2 (runs next code s').2 F ∧ Inside next R W code s' := by
  induction code generalizing s s' with
  | nil => exact ⟨regs, same, trivial⟩
  | cons i rest ih =>
      obtain ⟨r, m⟩ := s
      obtain ⟨r', m'⟩ := s'
      obtain rfl : r = r' := regs
      obtain ⟨needs, stores, later⟩ := inside
      have after : (exec (next r.eip) i (r, m)).1 = (exec (next r.eip) i (r, m')).1 :=
        exec_regs i (same.mono (needs.trans within))
      obtain ⟨regs', memory, later'⟩ := ih _ later
        ((exec_local i same).mono Set.subset_union_left) after
      exact ⟨regs', memory, needs, stores, later'⟩

/-- A run changes what it writes only. -/
theorem Inside.outside {R W : Set (BitVec 32)} {s : State} (inside : Inside next R W code s)
    {b : BitVec 32} (outer : b ∉ W) : (runs next code s).2 b = s.2 b := by
  induction code generalizing s with
  | nil => rfl
  | cons i rest ih =>
      obtain ⟨r, m⟩ := s
      obtain ⟨_, stores, later⟩ := inside
      exact (ih later).trans (exec_outside i r m fun written => outer (stores written))

/-- The instructions that go on with the one after them. -/
def falls : Instr → Bool
  | .jmp _ | .call _ | .ret | .iret => false
  | .load _ _ _ | .store _ _ | .move _ _ | .push _ | .pushImm _ | .pushSeg _ | .pushAll | .pop _
  | .popSeg _ | .popAll | .setLow _ _ | .setSeg _ _ | .add _ _ => true

theorem exec_eip {i : Instr} (falling : falls i) (s : State) : (exec e i s).1.eip = e := by
  obtain ⟨r, m⟩ := s
  cases i with
  | jmp target => exact absurd falling (by simp [falls])
  | call target => exact absurd falling (by simp [falls])
  | ret => exact absurd falling (by simp [falls])
  | iret => exact absurd falling (by simp [falls])
  | pushAll => simp [exec, pushAll, pushes_regs]
  | _ => rfl

end SlabStudy.Library.X86
