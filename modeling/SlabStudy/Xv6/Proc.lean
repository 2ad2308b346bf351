import SlabStudy.Library.CyclicScan
import SlabStudy.Xv6.CopyUvm

/-!
# Processes

The process table with the fields of `struct proc`, the per-CPU state that the
scheduler uses, and the operations that create processes and change their
memory.  Pointers into the table are slots; a null pointer is `none`.  The
trap frame, which lives in the kernel stack page, is kept as a value.
-/

namespace SlabStudy.Xv6

/-- `enum procstate`. -/
inductive ProcState where
  | unused
  | embryo
  | sleeping
  | runnable
  | running
  | zombie
  deriving DecidableEq, Repr

/-- Pointers into `ptable.proc`. -/
abbrev Slot := Fin nproc

/-- Sleep channels: a process, or the address of some other kernel object. -/
inductive Chan where
  | proc (slot : Slot)
  | other (address : Nat)
  deriving DecidableEq, Repr

/-- The registers of `struct trapframe`. -/
structure Trapframe where
  edi : UInt32
  esi : UInt32
  ebp : UInt32
  oesp : UInt32
  ebx : UInt32
  edx : UInt32
  ecx : UInt32
  eax : UInt32
  gs : UInt16
  fs : UInt16
  es : UInt16
  ds : UInt16
  trapno : UInt32
  err : UInt32
  eip : UInt32
  cs : UInt16
  eflags : UInt32
  esp : UInt32
  ss : UInt16
  deriving DecidableEq

/-- `memset(p->tf, 0, sizeof(*p->tf))`. -/
def Trapframe.zero : Trapframe :=
  ⟨0, 0, 0, 0, 0, 0, 0, 0, 0, 0, 0, 0, 0, 0, 0, 0, 0, 0, 0⟩

/-- Per-process state.  Open files and directories are named by their addresses. -/
structure Proc where
  sz : Nat
  pgdir : Option Pgdir
  kstack : Option Frame
  state : ProcState
  pid : Int
  parent : Option Slot
  tf : Trapframe
  chan : Option Chan
  killed : Bool
  ofile : Fin nofile → Option Nat
  cwd : Option Nat
  name : String
  exitStatus : Int
  priority : Int
  stackPsize : Nat

/-- A slot of the table in zeroed memory. -/
def Proc.zero : Proc where
  sz := 0
  pgdir := none
  kstack := none
  state := .unused
  pid := 0
  parent := none
  tf := .zero
  chan := none
  killed := false
  ofile := fun _ => none
  cwd := none
  name := ""
  exitStatus := 0
  priority := 0
  stackPsize := 0

/-- Where the saved context of a process continues, when the scheduler switches to it. -/
inductive Resume where
  | forkret
  | yield
  | sleep
  | wait
  | waitpid (pid : Int)
  deriving DecidableEq, Repr

/-- What a system call has still to do after it released `ptable.lock`. -/
inductive Pending where
  | idle
  | forkCopy (np : Slot)
  | forkStart (np : Slot)
  | yield
  deriving DecidableEq, Repr

/-- The kernel thread of a process. -/
structure Thread where
  resume : Resume
  pending : Pending

/-- `c->proc`, and the local variable `cur` of `scheduler`. -/
structure Cpu where
  proc : Option Slot
  cur : Slot

/-- The kernel state outside the file system. -/
structure Kernel where
  proc : Slot → Proc
  initproc : Option Slot
  nextpid : Int
  cpu : Fin ncpu → Cpu
  thread : Slot → Thread
  kmem : Kmem

namespace Kernel

/-- The state before `userinit`, with the given free memory. -/
def blank (km : Kmem) : Kernel where
  proc _ := .zero
  initproc := none
  nextpid := 1
  cpu _ := ⟨none, 0⟩
  thread _ := ⟨.forkret, .idle⟩
  kmem := km

/-- Stores to the fields of one process. -/
def modify (s : Kernel) (p : Slot) (store : Proc → Proc) : Kernel :=
  { s with proc := Function.update s.proc p (store (s.proc p)) }

def setThread (s : Kernel) (p : Slot) (thread : Thread) : Kernel :=
  { s with thread := Function.update s.thread p thread }

def setPending (s : Kernel) (p : Slot) (pending : Pending) : Kernel :=
  s.setThread p { s.thread p with pending := pending }

def setKmem (s : Kernel) (km : Kmem) : Kernel := { s with kmem := km }

/-- The first process, in table order, that meets a condition. -/
def first (s : Kernel) (wanted : Proc → Bool) : Option Slot :=
  Fin.find? fun p => wanted (s.proc p)

end Kernel

/-! ## allocproc and userinit -/

/-- Arithmetic on `int`. -/
def int (value : Int) : Int := Int.bmod value (2 ^ 32)

/-- The part of `allocproc` under `ptable.lock`. -/
def allocprocClaim (s : Kernel) : Option (Slot × Kernel) :=
  match s.first fun pr => pr.state = .unused with
  | none => none
  | some p =>
      some (p, { s.modify p fun pr => { pr with state := .embryo, pid := s.nextpid } with
        nextpid := int (s.nextpid + 1) })

/-- The rest of `allocproc`: the kernel stack, with a context that starts at `forkret`. -/
def allocprocStack (s : Kernel) (p : Slot) : Bool × Kernel :=
  match kalloc s.kmem with
  | none => (false, s.modify p fun pr => { pr with kstack := none, state := .unused })
  | some (frame, km) =>
      (true, ((s.setKmem km).modify p fun pr => { pr with kstack := some frame }).setThread p
        ⟨.forkret, .idle⟩)

/-- Registers of the first user process; `esp` is the end of its only page. -/
def initTrapframe : Trapframe :=
  { Trapframe.zero with
    cs := 0x1b, ds := 0x23, es := 0x23, ss := 0x23, eflags := 0x200, esp := 4096, eip := 0 }

/-- Set up the first user process.  The result of `allocproc` is not checked. -/
def userinit (ld : Linkage) (initcode : List UInt8) (root : Nat) (s : Kernel) : Kern Kernel :=
  match allocprocClaim s with
  | none => .error .nullPointer
  | some (p, s) =>
      match allocprocStack s p with
      | (false, _) => .error .nullPointer
      | (true, s) => do
          let (made, km) ← setupkvm ld s.kmem
          match made with
          | none => .error .userinitNoMemory
          | some d =>
              let (km, d) ← inituvm km d initcode
              return { (s.setKmem km).modify p fun pr =>
                { pr with
                  pgdir := some d
                  sz := pgsize
                  tf := initTrapframe
                  name := "initcode"
                  cwd := some root
                  state := .runnable } with
                initproc := some p }

/-! ## Memory of a process -/

/-- The checks of `switchuvm`; what it loads into the hardware is not part of the state. -/
def switchuvm (pr : Proc) : Kern Unit :=
  if pr.kstack = none then .error .switchuvmNoKstack
  else if pr.pgdir.isNone then .error .switchuvmNoPgdir
  else .ok ()

/-- The common end of `growproc`, from the assignment of the new size on. -/
def growprocCommit (s : Kernel) (p : Slot) (sz : Nat) : Kern (Int × Kernel) := do
  let s := s.modify p fun pr => { pr with sz := sz }
  switchuvm (s.proc p)
  return (0, s)

/-- The test for a zero size after `allocuvm` or `deallocuvm` has changed the directory. -/
def growprocResize (s : Kernel) (p : Slot) (resized : Nat × Kmem × Pgdir) :
    Kern (Int × Kernel) :=
  let s := (s.setKmem resized.2.1).modify p fun pr => { pr with pgdir := some resized.2.2 }
  if resized.1 = 0 then .ok (-1, s) else growprocCommit s p resized.1

/-- Grow the memory of process `p` by `n` bytes. -/
def growproc (ld : Linkage) (s : Kernel) (p : Slot) (n : Int) : Kern (Int × Kernel) :=
  match (s.proc p).pgdir with
  | none => .error .nullPointer
  | some d =>
      let sz := (s.proc p).sz
      if 0 < n then do
        let resized ← allocuvm ld s.kmem d sz (uint (sz + n))
        growprocResize s p resized
      else if n < 0 then do
        let resized ← deallocuvm ld s.kmem d sz (uint (sz + n))
        growprocResize s p resized
      else growprocCommit s p sz

/-! ## fork -/

/-- `np->ofile[i]` is stored only where the parent has a file. -/
def dupFiles (parent stale : Fin nofile → Option Nat) : Fin nofile → Option Nat :=
  fun i => match parent i with
    | some file => some file
    | none => stale i

/-- The fields that `fork` copies once the address space has been copied. -/
def forkFields (parent : Slot) (pr : Proc) (child : Pgdir) (np : Proc) : Proc :=
  { np with
    pgdir := some child
    sz := pr.sz
    parent := some parent
    tf := { pr.tf with eax := 0 }
    ofile := dupFiles pr.ofile np.ofile
    cwd := pr.cwd
    name := pr.name }

/-- What `fork` does with the result of `copyuvm`. -/
def forkCopied (ld : Linkage) (s : Kernel) (p np : Slot) (made : Option Pgdir × Kmem) :
    Kern (Bool × Kernel) :=
  match made with
  | (some child, km) =>
      .ok (true, (s.setKmem km).modify np (forkFields p (s.proc p) child))
  | (none, km) =>
      match (s.proc np).kstack with
      | none => .error .kfree
      | some kstack => do
          let km ← kfree ld km kstack
          return (false, (s.setKmem km).modify np fun pr =>
            { pr with pgdir := none, kstack := none, state := .unused })

/-- The part of `fork` between the two critical sections; false for the result `-1`. -/
def forkCopy (ld : Linkage) (s : Kernel) (p np : Slot) : Kern (Bool × Kernel) :=
  match allocprocStack s np with
  | (false, s) => .ok (false, s)
  | (true, s) =>
      match (s.proc p).pgdir with
      | none => .error .nullPointer
      | some d => do
          let made ← copyuvm ld s.kmem d (s.proc p).sz (s.proc p).stackPsize
          forkCopied ld s p np made

/-- The second critical section of `fork`. -/
def forkStart (s : Kernel) (np : Slot) : Kernel :=
  s.modify np fun pr => { pr with priority := 0, state := .runnable }

/-- Create a new process copying `p` as the parent. -/
def fork (ld : Linkage) (s : Kernel) (p : Slot) : Kern (Int × Kernel) :=
  match allocprocClaim s with
  | none => .ok (-1, s)
  | some (np, s) => do
      let (copied, s) ← forkCopy ld s p np
      if copied then return ((s.proc np).pid, forkStart s np)
      else return (-1, s)

/-! ## Small laws of the state updates -/

namespace Kernel

variable (s : Kernel) (p : Slot) (store : Proc → Proc)

theorem modify_proc (q : Slot) :
    (s.modify p store).proc q = if q = p then store (s.proc p) else s.proc q := by
  simp [modify, Function.update_apply]

@[simp] theorem modify_self : (s.modify p store).proc p = store (s.proc p) := by
  simp [modify]

theorem modify_of_ne {q : Slot} (apart : q ≠ p) : (s.modify p store).proc q = s.proc q := by
  simp [modify, apart]

theorem modify_modify (next : Proc → Proc) :
    (s.modify p store).modify p next = s.modify p fun pr => next (store pr) := by
  simp [modify]

variable {s p store} in
theorem modify_eq_self (same : store (s.proc p) = s.proc p) : s.modify p store = s := by
  rw [modify, same, Function.update_eq_self]

@[simp] theorem modify_initproc : (s.modify p store).initproc = s.initproc := rfl
@[simp] theorem modify_nextpid : (s.modify p store).nextpid = s.nextpid := rfl
@[simp] theorem modify_cpu : (s.modify p store).cpu = s.cpu := rfl
@[simp] theorem modify_thread : (s.modify p store).thread = s.thread := rfl
@[simp] theorem modify_kmem : (s.modify p store).kmem = s.kmem := rfl

@[simp] theorem setThread_proc (thread : Thread) : (s.setThread p thread).proc = s.proc := rfl
@[simp] theorem setThread_initproc (thread : Thread) :
    (s.setThread p thread).initproc = s.initproc := rfl
@[simp] theorem setThread_cpu (thread : Thread) : (s.setThread p thread).cpu = s.cpu := rfl
@[simp] theorem setThread_kmem (thread : Thread) : (s.setThread p thread).kmem = s.kmem := rfl
@[simp] theorem setThread_nextpid (thread : Thread) :
    (s.setThread p thread).nextpid = s.nextpid := rfl

theorem setThread_thread (thread : Thread) (q : Slot) :
    (s.setThread p thread).thread q = if q = p then thread else s.thread q := by
  simp [setThread, Function.update_apply]

theorem setPending_pending (pending : Pending) :
    ((s.setPending p pending).thread p).pending = pending := by
  simp [setPending, setThread]

theorem setPending_resume (pending : Pending) (q : Slot) :
    ((s.setPending p pending).thread q).resume = (s.thread q).resume := by
  rw [setPending, setThread_thread]
  split
  · next here => rw [here]
  · rfl

theorem setPending_setPending (first second : Pending) :
    (s.setPending p first).setPending p second = s.setPending p second := by
  simp [setPending, setThread]

variable {s p} in
theorem setPending_eq_self {pending : Pending} (same : (s.thread p).pending = pending) :
    s.setPending p pending = s := by
  subst same
  rw [setPending, setThread, Function.update_eq_self]

@[simp] theorem setKmem_proc (km : Kmem) : (s.setKmem km).proc = s.proc := rfl
@[simp] theorem setKmem_initproc (km : Kmem) : (s.setKmem km).initproc = s.initproc := rfl
@[simp] theorem setKmem_nextpid (km : Kmem) : (s.setKmem km).nextpid = s.nextpid := rfl
@[simp] theorem setKmem_cpu (km : Kmem) : (s.setKmem km).cpu = s.cpu := rfl
@[simp] theorem setKmem_thread (km : Kmem) : (s.setKmem km).thread = s.thread := rfl
@[simp] theorem setKmem_kmem (km : Kmem) : (s.setKmem km).kmem = km := rfl

variable {s}

/-- The search finds the first matching slot. -/
theorem first_eq_some {wanted : Proc → Bool} {p : Slot} (found : s.first wanted = some p) :
    wanted (s.proc p) = true ∧ ∀ q < p, wanted (s.proc q) = false :=
  Fin.find?_eq_some_iff.mp found

theorem first_eq_of {wanted : Proc → Bool} {p : Slot} (here : wanted (s.proc p) = true)
    (before : ∀ q < p, wanted (s.proc q) = false) : s.first wanted = some p :=
  Fin.find?_eq_some_iff.mpr ⟨here, before⟩

theorem first_eq_none {wanted : Proc → Bool} :
    s.first wanted = none ↔ ∀ q, wanted (s.proc q) = false :=
  Fin.find?_eq_none_iff

end Kernel

/-! ## What growproc stores -/

section Growproc

variable {ld : Linkage} {s s' : Kernel} {p : Slot} {n value : Int}

theorem growprocCommit_eq_ok {sz : Nat} (ran : growprocCommit s p sz = .ok (value, s')) :
    value = 0 ∧ s' = s.modify p fun pr => { pr with sz := sz } := by
  obtain ⟨_, _, ended⟩ := Kern.bind_eq_ok.mp ran
  cases ended
  exact ⟨rfl, rfl⟩

/-- The directory is stored in any case, the size only when it is not zero. -/
theorem growprocResize_eq_ok {result : Nat} {km : Kmem} {d : Pgdir}
    (ran : growprocResize s p (result, km, d) = .ok (value, s')) :
    (result = 0 ∧ value = -1 ∧
        s' = (s.setKmem km).modify p fun pr => { pr with pgdir := some d }) ∨
      (result ≠ 0 ∧ value = 0 ∧
        s' = (s.setKmem km).modify p fun pr => { pr with pgdir := some d, sz := result }) := by
  unfold growprocResize at ran
  simp only at ran
  split at ran
  · next zero =>
      cases ran
      exact .inl ⟨zero, rfl, rfl⟩
  · next positive =>
      obtain ⟨rfl, rfl⟩ := growprocCommit_eq_ok ran
      exact .inr ⟨positive, rfl, Kernel.modify_modify _ _ _ _⟩

/-- A call that returns has resized the address space, or was asked for nothing. -/
theorem growproc_eq_ok {d : Pgdir} (own : (s.proc p).pgdir = some d)
    (ran : growproc ld s p n = .ok (value, s')) :
    (0 < n ∧ ∃ result km d', allocuvm ld s.kmem d (s.proc p).sz (uint ((s.proc p).sz + n)) =
        .ok (result, km, d') ∧ growprocResize s p (result, km, d') = .ok (value, s')) ∨
      (n < 0 ∧ ∃ result km d', deallocuvm ld s.kmem d (s.proc p).sz (uint ((s.proc p).sz + n)) =
        .ok (result, km, d') ∧ growprocResize s p (result, km, d') = .ok (value, s')) ∨
      (n = 0 ∧ value = 0 ∧ s' = s) := by
  unfold growproc at ran
  rw [own] at ran
  simp only at ran
  split at ran
  · next positive =>
      obtain ⟨⟨result, km, d'⟩, grown, ended⟩ := Kern.bind_eq_ok.mp ran
      exact .inl ⟨positive, result, km, d', grown, ended⟩
  · next notPositive =>
      split at ran
      · next negative =>
          obtain ⟨⟨result, km, d'⟩, shrunk, ended⟩ := Kern.bind_eq_ok.mp ran
          exact .inr (.inl ⟨negative, result, km, d', shrunk, ended⟩)
      · next notNegative =>
          obtain ⟨rfl, rfl⟩ := growprocCommit_eq_ok ran
          exact .inr (.inr ⟨by omega, rfl, Kernel.modify_eq_self rfl⟩)

end Growproc

end SlabStudy.Xv6
