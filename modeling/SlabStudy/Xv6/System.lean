import SlabStudy.Library.Runs
import SlabStudy.Xv6.Sched

/-!
# The kernel as a transition system

A step is one critical section of `ptable.lock`, or the work that a running
process does between two of them.  `fork` takes three steps, between which
other CPUs and, by preemption, other processes may run.  A call that stops
the machine is not a step.  Labels record what a step returns to its caller.
-/

namespace SlabStudy.Xv6

open Library

inductive Label where
  /-- One iteration of `scheduler` on CPU `c`. -/
  | round (c : Fin ncpu) (chosen : Option Slot) (outcome : Option Outcome)
  /-- `fork` claims a slot; without one it returns `-1`. -/
  | claim (p : Slot) (np : Option Slot)
  | copy (p np : Slot) (copied : Bool)
  | start (p np : Slot)
  | exit (p : Slot) (corpse : Corpse)
  | wait (p : Slot) (outcome : Outcome)
  | waitpid (p : Slot) (pid : Int) (outcome : Outcome)
  | kill (p : Slot) (pid value : Int)
  | setpriority (p : Slot) (pid priority value : Int)
  | yield (p : Slot)
  | sleep (p : Slot) (address : Nat)
  | wakeup (address : Nat)
  | pages
  | sbrk (p : Slot) (n value : Int)
  | pgflt (p : Slot) (va : Nat)
  | exec (p : Slot)
  | user (p : Slot)

/-- How the pass of a step through the loop of `wait` or `waitpid` has ended. -/
def Label.outcome : Label → Option Outcome
  | .round _ _ outcome => outcome
  | .wait _ outcome => some outcome
  | .waitpid _ _ outcome => some outcome
  | _ => none

/-- The pid that a call of `kill` names. -/
def Label.victim : Label → Option Int
  | .kill _ pid _ => some pid
  | _ => none

/-- Process `p` runs on CPU `c` and is free to start a system call. -/
structure Free (s : Kernel) (c : Fin ncpu) (p : Slot) : Prop where
  running : (s.cpu c).proc = some p
  idle : (s.thread p).pending = .idle

/-- The pages a slot owns; without a kernel stack the directory pointer is stale. -/
def Proc.pages (pr : Proc) : Multiset Frame :=
  match pr.kstack with
  | none => 0
  | some kstack => {kstack} + pr.pgdir.elim 0 Pgdir.frames

/-- What the modelled kernel can do next. -/
inductive Step (ld : Linkage) (s : Kernel) : Label → Kernel → Prop where
  | round {c : Fin ncpu} {chosen : Option Slot} {outcome : Option Outcome} {s' : Kernel}
      (idle : (s.cpu c).proc = none)
      (ran : scheduler ld s c = .ok (chosen, outcome, s')) :
      Step ld s (.round c chosen outcome) s'
  | claimNone {c : Fin ncpu} {p : Slot} (free : Free s c p)
      (full : allocprocClaim s = none) :
      Step ld s (.claim p none) s
  | claimSome {c : Fin ncpu} {p np : Slot} {s' : Kernel} (free : Free s c p)
      (claimed : allocprocClaim s = some (np, s')) :
      Step ld s (.claim p (some np)) (s'.setPending p (.forkCopy np))
  | copyFails {c : Fin ncpu} {p np : Slot} {s' : Kernel} (running : (s.cpu c).proc = some p)
      (pending : (s.thread p).pending = .forkCopy np)
      (ran : forkCopy ld s p np = .ok (false, s')) :
      Step ld s (.copy p np false) (s'.setPending p .idle)
  | copyDone {c : Fin ncpu} {p np : Slot} {s' : Kernel} (running : (s.cpu c).proc = some p)
      (pending : (s.thread p).pending = .forkCopy np)
      (ran : forkCopy ld s p np = .ok (true, s')) :
      Step ld s (.copy p np true) (s'.setPending p (.forkStart np))
  | start {c : Fin ncpu} {p np : Slot} (running : (s.cpu c).proc = some p)
      (pending : (s.thread p).pending = .forkStart np) :
      Step ld s (.start p np) ((forkStart s np).setPending p .idle)
  | exit {c : Fin ncpu} {p : Slot} {status : Int} {s' : Kernel} (free : Free s c p)
      (ran : exit s c p status = .ok s') :
      Step ld s (.exit p { (s.proc p).corpse with status := status }) s'
  | wait {c : Fin ncpu} {p : Slot} {outcome : Outcome} {s' : Kernel} (free : Free s c p)
      (ran : wait ld s c p = .ok (outcome, s')) :
      Step ld s (.wait p outcome) s'
  | waitpid {c : Fin ncpu} {p : Slot} {pid : Int} {outcome : Outcome} {s' : Kernel}
      (free : Free s c p) (ran : waitpid ld s c p pid = .ok (outcome, s')) :
      Step ld s (.waitpid p pid outcome) s'
  | kill {c : Fin ncpu} {p : Slot} (pid : Int) (free : Free s c p) :
      Step ld s (.kill p pid (kill s pid).1) (kill s pid).2
  | setpriority {c : Fin ncpu} {p : Slot} (pid priority : Int) (free : Free s c p) :
      Step ld s (.setpriority p pid priority (setpriority s p pid priority).1)
        (if (setpriority s p pid priority).1 = 0 then
          (setpriority s p pid priority).2.setPending p .yield
        else (setpriority s p pid priority).2)
  -- `setpriority` gives up the CPU after its critical section
  | priorityYield {c : Fin ncpu} {p : Slot} (running : (s.cpu c).proc = some p)
      (pending : (s.thread p).pending = .yield) :
      Step ld s (.yield p) ((yield s c p).setPending p .idle)
  -- a timer interrupt, also in the middle of a system call
  | preempt {c : Fin ncpu} {p : Slot} (running : (s.cpu c).proc = some p) :
      Step ld s (.yield p) (yield s c p)
  | sleep {c : Fin ncpu} {p : Slot} (address : Nat) (free : Free s c p) :
      Step ld s (.sleep p address) (sleep s c p (some (.other address)) .sleep)
  -- also called by interrupt handlers on behalf of no process
  | wakeup (address : Nat) :
      Step ld s (.wakeup address) (wakeup s (some (.other address)))
  -- pipes, and an `exec` that fails: pages of no process are taken or given back
  | pages {km : Kmem} (free : FreeOk ld km)
      (apart : ∀ p, ∀ frame ∈ (s.proc p).pages,
        frame ∉ km.freelist ∧ km.mem frame = s.kmem.mem frame) :
      Step ld s .pages (s.setKmem km)
  | sbrk {c : Fin ncpu} {p : Slot} {n value : Int} {s' : Kernel} (free : Free s c p)
      (ran : growproc ld s p n = .ok (value, s')) :
      Step ld s (.sbrk p n value) s'
  | pgflt {c : Fin ncpu} {p : Slot} {va : Nat} {user : Bool} {s' : Kernel} (free : Free s c p)
      (ran : pgflt ld s p va user = .ok s') :
      Step ld s (.pgflt p va) s'
  -- the commit of `exec`: a new image of conserved pages replaces the old one
  | exec {c : Fin ncpu} {p : Slot} {d d' : Pgdir} {km : Kmem} {sz : Nat} {tf : Trapframe}
      {name : String} (free : Free s c p) (old : (s.proc p).pgdir = some d)
      (conserved : (km.freelist : Multiset Frame) + d'.frames = s.kmem.freelist + d.frames)
      (untouched : ∀ frame, frame ∉ s.kmem.freelist → frame ∉ d.frames →
        km.mem frame = s.kmem.mem frame)
      (bounded : sz ≤ kernbase) :
      Step ld s (.exec p) ((s.setKmem km).modify p fun pr =>
        { pr with pgdir := some d', sz := sz, tf := tf, name := name, stackPsize := 1 })
  -- user mode, and system calls that only concern the files of the process
  | user {c : Fin ncpu} {p : Slot} {d : Pgdir} {mem : Frame → Page} {tf : Trapframe}
      {ofile : Fin nofile → Option Nat} {cwd : Option Nat} (free : Free s c p)
      (own : (s.proc p).pgdir = some d)
      (stores : ∀ frame, mem frame ≠ s.kmem.mem frame →
        ∃ va pte, va < kernbase ∧ d.lookup va = some pte ∧ pte.addr = frame) :
      Step ld s (.user p) ((s.setKmem { s.kmem with mem := mem }).modify p fun pr =>
        { pr with tf := tf, ofile := ofile, cwd := cwd })

/-- The kernel from the end of `userinit` on, started with any free memory. -/
def system (ld : Linkage) : System Kernel Label where
  initial s := ∃ km initcode root, FreeOk ld km ∧
    userinit ld initcode root (Kernel.blank km) = .ok s
  step := Step ld

/-- The same kernel as long as nobody is killed or goes through the loop of `wait` or `waitpid`. -/
def quietSystem (ld : Linkage) : System Kernel Label :=
  (system ld).guarded fun _ label => label.outcome = none ∧ label.victim = none

end SlabStudy.Xv6
