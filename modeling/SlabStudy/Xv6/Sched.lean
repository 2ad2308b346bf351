import SlabStudy.Xv6.Proc

/-!
# Sleeping, exiting and scheduling

The operations of `proc.c` that run under `ptable.lock`, and the page-fault
case of `trap`.  A process that calls `sched` hands its CPU back to the loop
of `scheduler`, which moves its cursor behind the process.
-/

namespace SlabStudy.Xv6

open Library

/-! ## Giving up the CPU -/

/-- The rest of a scheduler iteration, after the process has switched back. -/
def sched (s : Kernel) (c : Fin ncpu) : Kernel :=
  { s with cpu := Function.update s.cpu c ⟨none, nextSlot (s.cpu c).cur⟩ }

/-- Give up the CPU for one scheduling round. -/
def yield (s : Kernel) (c : Fin ncpu) (p : Slot) : Kernel :=
  sched ((s.modify p fun pr => { pr with state := .runnable }).setThread p
    { s.thread p with resume := .yield }) c

/-- Sleep on `chan`; `resume` says which caller goes on after the wakeup. -/
def sleep (s : Kernel) (c : Fin ncpu) (p : Slot) (chan : Option Chan) (resume : Resume) :
    Kernel :=
  sched ((s.modify p fun pr => { pr with chan := chan, state := .sleeping }).setThread p
    { s.thread p with resume := resume }) c

/-- The end of `sleep`, after the process has been scheduled again. -/
def sleepTidy (s : Kernel) (p : Slot) : Kernel := s.modify p fun pr => { pr with chan := none }

/-- Wake up all processes sleeping on `chan`. -/
def wakeup1 (chan : Option Chan) (table : Slot → Proc) : Slot → Proc := fun q =>
  if (table q).state = .sleeping ∧ (table q).chan = chan then
    { table q with state := .runnable }
  else table q

def wakeup (s : Kernel) (chan : Option Chan) : Kernel :=
  { s with proc := wakeup1 chan s.proc }

/-! ## exit -/

/-- The loop of `exit` that passes abandoned children to init. -/
def reparent (p : Slot) (initproc : Option Slot) :
    List Slot → (Slot → Proc) → (Slot → Proc)
  | [], table => table
  | q :: rest, table =>
      if (table q).parent = some p then
        let table := Function.update table q { table q with parent := initproc }
        reparent p initproc rest
          (if (table q).state = .zombie then wakeup1 (initproc.map .proc) table else table)
      else reparent p initproc rest table

/-- The table after the critical section of `exit`. -/
def exitTable (p : Slot) (initproc : Option Slot) (status : Int) (table : Slot → Proc) :
    Slot → Proc :=
  let table := wakeup1 ((table p).parent.map .proc) table
  let table := reparent p initproc (List.finRange nproc) table
  Function.update table p { table p with state := .zombie, exitStatus := status }

/-- Exit process `p`, which does not return from `sched`. -/
def exit (s : Kernel) (c : Fin ncpu) (p : Slot) (status : Int) : Kern Kernel :=
  if s.initproc = some p then .error .initExiting
  else
    let s := s.modify p fun pr => { pr with ofile := fun _ => none, cwd := none }
    .ok (sched { s with proc := exitTable p s.initproc status s.proc } c)

/-! ## wait and waitpid -/

/-- What is left of an exited process. -/
structure Corpse where
  pid : Int
  status : Int
  kstack : Option Frame
  pgdir : Option Pgdir

def Proc.corpse (pr : Proc) : Corpse := ⟨pr.pid, pr.exitStatus, pr.kstack, pr.pgdir⟩

/-- How a pass through the loop of `wait` or `waitpid` ends. -/
inductive Outcome where
  | returned (value : Int)
  /-- The pid is returned and the status is stored through the pointer argument. -/
  | reaped (corpse : Corpse)
  | slept

/-- The fields that are cleared when a zombie has been found. -/
def Proc.clear (pr : Proc) : Proc :=
  { pr with kstack := none, pid := 0, parent := none, name := "", killed := false,
            state := .unused }

/-- Free what the zombie in slot `q` still holds. -/
def reap (ld : Linkage) (s : Kernel) (q : Slot) : Kern (Outcome × Kernel) :=
  match (s.proc q).kstack with
  | none => .error .kfree
  | some kstack => do
      let km ← kfree ld s.kmem kstack
      let km ← freevm ld km (s.proc q).pgdir
      return (.reaped (s.proc q).corpse, (s.setKmem km).modify q Proc.clear)

/-- One pass through the loop of `wait`. -/
def wait (ld : Linkage) (s : Kernel) (c : Fin ncpu) (p : Slot) : Kern (Outcome × Kernel) :=
  match s.first fun pr => pr.parent = some p ∧ pr.state = .zombie with
  | some q => reap ld s q
  | none =>
      if (s.first fun pr => pr.parent = some p).isNone ∨ (s.proc p).killed then
        .ok (.returned (-1), s)
      else .ok (.slept, sleep s c p (some (.proc p)) .wait)

/-- One pass through the loop of `waitpid`, which looks at the first match only. -/
def waitpid (ld : Linkage) (s : Kernel) (c : Fin ncpu) (p : Slot) (pid : Int) :
    Kern (Outcome × Kernel) :=
  match s.first fun pr => pr.pid = pid with
  | none => .ok (.returned (-1), s)
  | some q =>
      if (s.proc q).state = .zombie then reap ld s q
      else if (s.proc p).killed then .ok (.returned (-1), s)
      else .ok (.slept, sleep s c p ((s.proc q).parent.map .proc) (.waitpid pid))

/-! ## Operations on a pid -/

/-- Kill the process with the given pid. -/
def kill (s : Kernel) (pid : Int) : Int × Kernel :=
  match s.first fun pr => pr.pid = pid with
  | none => (-1, s)
  | some q =>
      (0, s.modify q fun pr =>
        { pr with killed := true
                  state := if pr.state = .sleeping then .runnable else pr.state })

/-- `setpriority` called by `p`, up to the `yield` of a successful call. -/
def setpriority (s : Kernel) (p : Slot) (pid priority : Int) : Int × Kernel :=
  if priority < lowprio ∨ highprio < priority then (-1, s)
  else
    let pid := if pid = 0 then (s.proc p).pid else pid
    match s.first fun pr => pr.pid = pid with
    | none => (-1, s)
    | some q => (0, s.modify q fun pr => { pr with priority := priority })

/-- `getpriority` called by `p`; the priority itself is not stored anywhere. -/
def getpriority (s : Kernel) (p : Slot) (pid : Int) : Int :=
  let pid := if pid = 0 then (s.proc p).pid else pid
  match s.first fun pr => pr.pid = pid with
  | none => -1
  | some _ => 0

/-! ## The scheduler -/

/-- One step of the loop that computes `highest_prio` and `update`. -/
def prioStep (table : Slot → Proc) (best : Int × Bool) (p : Slot) : Int × Bool :=
  if (table p).state = .runnable then
    if best.1 ≤ (table p).priority then ((table p).priority, true) else best
  else best

/-- The final values of `highest_prio` and `update`. -/
def highestPrio (table : Slot → Proc) : Int × Bool :=
  (List.finRange nproc).foldl (prioStep table) (lowprio - 1, false)

/-- The process chosen by a scheduler iteration that starts with cursor `cur`. -/
def choose (table : Slot → Proc) (cur : Slot) : Option Slot :=
  if (highestPrio table).2 then
    scanFrom cur fun p =>
      (table p).state = .runnable && (table p).priority = (highestPrio table).1
  else none

/-- What the switched-to process does before `ptable.lock` is released. -/
def resume (ld : Linkage) (s : Kernel) (c : Fin ncpu) (p : Slot) :
    Kern (Option Outcome × Kernel) :=
  match (s.thread p).resume with
  | .forkret => .ok (none, s)
  | .yield => .ok (none, s)
  | .sleep => .ok (none, sleepTidy s p)
  | .wait => do
      let (outcome, s) ← wait ld (sleepTidy s p) c p
      return (some outcome, s)
  | .waitpid pid => do
      let (outcome, s) ← waitpid ld (sleepTidy s p) c p pid
      return (some outcome, s)

/-- Enter the chosen process as running on this CPU. -/
def dispatch (s : Kernel) (c : Fin ncpu) (p : Slot) : Kernel :=
  { s.modify p fun pr => { pr with state := .running } with
    cpu := Function.update s.cpu c ⟨some p, p⟩ }

section Dispatch

variable (s : Kernel) (c : Fin ncpu) (p : Slot)

@[simp] theorem dispatch_self : (dispatch s c p).proc p = { s.proc p with state := .running } :=
  Function.update_self _ _ _

theorem dispatch_of_ne {q : Slot} (apart : q ≠ p) : (dispatch s c p).proc q = s.proc q :=
  Function.update_of_ne apart _ _

@[simp] theorem dispatch_cpu :
    (dispatch s c p).cpu = Function.update s.cpu c ⟨some p, p⟩ := rfl

@[simp] theorem dispatch_thread : (dispatch s c p).thread = s.thread := rfl

end Dispatch

/-- One iteration of the loop of `scheduler`, until `ptable.lock` is free again. -/
def scheduler (ld : Linkage) (s : Kernel) (c : Fin ncpu) :
    Kern (Option Slot × Option Outcome × Kernel) :=
  match choose s.proc (s.cpu c).cur with
  | none => .ok (none, none, s)
  | some p => do
      switchuvm (s.proc p)
      let (outcome, s) ← resume ld (dispatch s c p) c p
      return (some p, outcome, s)

/-! ## Page faults -/

/-- The T_PGFLT case of `trap`; `user` says that the fault came from user mode. -/
def pgflt (ld : Linkage) (s : Kernel) (p : Slot) (va : Nat) (user : Bool) : Kern Kernel :=
  if va ≤ stackbase then
    match (s.proc p).pgdir with
    | none => .error .nullPointer
    | some d => do
        let psize := (s.proc p).stackPsize + 1
        let old := pgRoundUp (uint (stackbase - pgsize * psize))
        let (result, km, d) ← allocuvm ld s.kmem d old ((old + pgsize) % 2 ^ 32)
        if result = 0 then .error .stackOverflow
        else return (s.setKmem km).modify p fun pr =>
          { pr with stackPsize := psize, pgdir := some d }
  else if user then .ok (s.modify p fun pr => { pr with killed := true })
  else .error .trap

/-- A handled fault has grown the stack by one page, or has marked the process killed. -/
theorem pgflt_eq_ok {ld : Linkage} {s s' : Kernel} {p : Slot} {va : Nat} {user : Bool}
    {d : Pgdir} (own : (s.proc p).pgdir = some d) (ran : pgflt ld s p va user = .ok s') :
    (va ≤ stackbase ∧ ∃ old result km d',
        old = pgRoundUp (uint (stackbase - pgsize * ((s.proc p).stackPsize + 1 : Nat))) ∧
        allocuvm ld s.kmem d old ((old + pgsize) % 2 ^ 32) = .ok (result, km, d') ∧
        result ≠ 0 ∧ s' = (s.setKmem km).modify p fun pr =>
          { pr with stackPsize := (s.proc p).stackPsize + 1, pgdir := some d' }) ∨
      (stackbase < va ∧ user = true ∧
        s' = s.modify p fun pr => { pr with killed := true }) := by
  unfold pgflt at ran
  split at ran
  · next low =>
      rw [own] at ran
      obtain ⟨⟨result, km, d'⟩, grown, ended⟩ := Kern.bind_eq_ok.mp ran
      refine .inl ⟨low, _, result, km, d', rfl, grown, ?_⟩
      simp only at ended
      split at ended
      · cases ended
      · next positive =>
          cases ended
          exact ⟨positive, rfl⟩
  · next high =>
      split at ran
      · next isUser =>
          cases ran
          exact .inr ⟨Nat.lt_of_not_le high, isUser, rfl⟩
      · cases ran

/-- `trap` for a page fault of process `p` on CPU `c`. -/
def trap (ld : Linkage) (s : Kernel) (c : Fin ncpu) (p : Slot) (va : Nat) (user : Bool) :
    Kern Kernel := do
  let s ← pgflt ld s p va user
  if (s.proc p).killed && user then exit s c p 1 else return s

end SlabStudy.Xv6
