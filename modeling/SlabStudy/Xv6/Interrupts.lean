import Mathlib.Data.Finset.Card
import SlabStudy.Library.Runs
import SlabStudy.Xv6.Proc

/-!
# Interrupts, nesting and context switches

`pushcli`, `popcli` and `holding`, the spinlocks over them, and the switches
between the kernel threads in `scheduler` and `sched`.  Every CPU takes its
steps on its own; a step that an interrupt or another CPU could divide is two
steps here.
-/

namespace SlabStudy.Xv6.Interrupts

open Library

/-- The kernel threads: the loop in `scheduler` of a CPU, and the processes.  A slot that is used
again is another process. -/
inductive Thread (C P : Type) where
  | scheduler (c : C)
  | proc (p : P)
  deriving DecidableEq

/-- A `struct cpu`, with `FL_IF` of its register. -/
structure Cpu (P : Type) where
  ncli : Int
  intena : Bool
  flag : Bool
  proc : Option P

section

variable {C P : Type} [DecidableEq C]

/-- `pushcli`, from `cli` on. -/
def pushcli (eflags : Bool) (cpu : Cpu P) : Cpu P :=
  { cpu with
    flag := false
    intena := if cpu.ncli = 0 then eflags else cpu.intena
    ncli := cpu.ncli + 1 }

/-- `popcli`; `none` is its panic. -/
def popcli (cpu : Cpu P) : Option (Cpu P) :=
  if cpu.flag then none
  else if cpu.ncli - 1 < 0 then none
  else some { cpu with ncli := cpu.ncli - 1, flag := cpu.ncli - 1 = 0 && cpu.intena }

/-- `holding`.  The owner is the CPU that has `locked` set. -/
def holding (owner : Option C) (c : C) (cpu : Cpu P) : Option (Bool × Cpu P) :=
  (popcli (pushcli cpu.flag cpu)).map fun cpu => (owner = some c, cpu)

variable {c : C} {cpu cpu' : Cpu P}

/-- Inside of another `pushcli`, `holding` changes nothing. -/
theorem holding_eq (off : cpu.flag = false) (more : 0 < cpu.ncli) (o : Option C) :
    holding o c cpu = some (decide (o = some c), cpu) := by
  have closed : ¬ cpu.ncli < 0 := by omega
  have nested : cpu.ncli ≠ 0 := by omega
  simp [holding, popcli, pushcli, closed, nested]
  rw [← off]

theorem holding_owner {o : Option C} {held : Bool} (held_eq : holding o c cpu = some (held, cpu')) :
    decide (o = some c) = held := by
  obtain ⟨_, -, same⟩ := Option.map_eq_some_iff.mp held_eq
  exact congrArg Prod.fst same

/-- What `popcli` does if it does not panic. -/
theorem popcli_eq_some (popped : popcli cpu = some cpu') : cpu.flag = false ∧
    cpu' = { cpu with ncli := cpu.ncli - 1, flag := cpu.ncli - 1 = 0 && cpu.intena } := by
  unfold popcli at popped
  split at popped
  · cases popped
  · next off =>
      split at popped
      · cases popped
      · exact ⟨Bool.eq_false_iff.mpr off, (Option.some.inj popped).symm⟩

end

/-- Where a kernel thread is in the functions of `spinlock.c`. -/
inductive Pc (L : Type) where
  /-- Outside of them. -/
  | run
  /-- In `pushcli`, called by `acquire` of a lock or by itself, after `readeflags`. -/
  | read (eflags : Bool) (lk : Option L)
  /-- In `acquire`, after `pushcli`. -/
  | pushed (lk : L)
  /-- In `acquire`, after the check. -/
  | spin (lk : L)
  /-- In `release`, before `popcli`. -/
  | unlocked
  deriving DecidableEq

/-- A kernel thread: what it has open, and where the interrupts that it is in have found it. -/
structure Task (L : Type) where
  pc : Pc L
  plain : Nat
  held : Finset L
  frames : List (Pc L)

/-- A stack that is not in use: at `forkret`, or in `sched` with the `intena` it has saved. -/
inductive Context where
  | forkret
  | sched (intena : Bool)

structure State (C P L : Type) where
  cpu : C → Cpu P
  owner : L → Option C
  task : Thread C P → Task L
  state : P → ProcState
  context : P → Context

inductive Action (P L : Type) where
  /-- The start of `pushcli`, or of `acquire`. -/
  | readeflags (lk : Option L)
  | cli
  /-- The check of `acquire`. -/
  | check
  | xchg
  /-- `release` up to the store. -/
  | unlock (lk : L)
  | popcli
  | sti
  | trap
  | iret
  /-- The process gives up its CPU, in this state. -/
  | sched (state : ProcState)
  | swtch (p : P)
  /-- Another process gets this state, from `allocproc`, `fork`, `wakeup1` or `kill`. -/
  | mark (p : P) (state : ProcState)

variable {C P L : Type}

/-- The `pushcli`'s of a thread that are open. -/
def Pc.opens : Pc L → Nat
  | .pushed _ => 1
  | .spin _ => 1
  | .unlocked => 1
  | _ => 0

def Task.opens (t : Task L) : Nat := t.plain + t.held.card + t.pc.opens

/-- The end of `pushcli`. -/
def Task.push (t : Task L) : Option L → Task L
  | none => { t with pc := .run, plain := t.plain + 1 }
  | some lk => { t with pc := .pushed lk }

/-- A `popcli` that has a `pushcli` before it. -/
def Task.pop (t : Task L) : Option (Task L) :=
  match t.pc with
  | .unlocked => some { t with pc := .run }
  | .run => if 0 < t.plain then some { t with plain := t.plain - 1 } else none
  | _ => none

/-- The thread holds only `ptable.lock`. -/
def Task.Switching (ptable : L) (t : Task L) : Prop :=
  t.pc = .run ∧ t.plain = 0 ∧ t.held = {ptable}

instance [DecidableEq L] (ptable : L) (t : Task L) : Decidable (t.Switching ptable) :=
  instDecidableAnd

/-- The `intena` after the switch. -/
def Context.restore : Context → Bool → Bool
  | .forkret, found => found
  | .sched saved, _ => saved

/-- The changes of `state` by other threads. -/
def Marks : ProcState → ProcState → Prop
  | .unused, .embryo => True
  | .embryo, .unused => True
  | .embryo, .runnable => True
  | .sleeping, .runnable => True
  | _, _ => False

instance : DecidableRel Marks := fun before after => by
  cases before <;> cases after <;> unfold Marks <;> infer_instance

namespace State

variable {s : State C P L} {c : C} {p : P}

/-- The thread whose stack the CPU is on. -/
def thread (s : State C P L) (c : C) : Thread C P :=
  match (s.cpu c).proc with
  | none => .scheduler c
  | some p => .proc p

theorem thread_proc (on : (s.cpu c).proc = some p) : s.thread c = .proc p := by
  rw [thread, on]

theorem thread_scheduler (on : (s.cpu c).proc = none) : s.thread c = .scheduler c := by
  rw [thread, on]

theorem proc_of_thread (on : s.thread c = .proc p) : (s.cpu c).proc = some p := by
  rw [thread] at on
  split at on
  · cases on
  · next q running =>
      cases on
      exact running

def running (s : State C P L) (c : C) : Task L := s.task (s.thread c)

section

variable [DecidableEq C] [DecidableEq P] [DecidableEq L]

/-- The thread on the CPU goes on. -/
def put (s : State C P L) (c : C) (cpu : Cpu P) (t : Task L) : State C P L :=
  { s with cpu := Function.update s.cpu c cpu, task := Function.update s.task (s.thread c) t }

def lock (s : State C P L) (lk : L) (owner : Option C) : State C P L :=
  { s with owner := Function.update s.owner lk owner }

/-- The switch to the scheduler, which clears `proc`. -/
def park (s : State C P L) (c : C) (cpu : Cpu P) (p : P) (state : ProcState) : State C P L :=
  { s with
    cpu := Function.update s.cpu c { cpu with proc := none }
    state := Function.update s.state p state
    context := Function.update s.context p (.sched cpu.intena) }

/-- The switch to a process, which restores its `intena`. -/
def resume (s : State C P L) (c : C) (p : P) : State C P L :=
  { s with
    cpu := Function.update s.cpu c
      { s.cpu c with proc := some p, intena := (s.context p).restore (s.cpu c).intena }
    state := Function.update s.state p .running }

def mark (s : State C P L) (p : P) (state : ProcState) : State C P L :=
  { s with state := Function.update s.state p state }

end

section

variable [DecidableEq C] [DecidableEq P] {cpu : Cpu P} {t : Task L} {state : ProcState} {d : C}

theorem cpu_put : (s.put c cpu t).cpu c = cpu := Function.update_self ..

theorem cpu_put_of_ne (other : d ≠ c) : (s.put c cpu t).cpu d = s.cpu d :=
  Function.update_of_ne other ..

theorem cpu_park : (s.park c cpu p state).cpu c = { cpu with proc := none } :=
  Function.update_self ..

theorem cpu_park_of_ne (other : d ≠ c) : (s.park c cpu p state).cpu d = s.cpu d :=
  Function.update_of_ne other ..

theorem cpu_resume : (s.resume c p).cpu c =
    { s.cpu c with proc := some p, intena := (s.context p).restore (s.cpu c).intena } :=
  Function.update_self ..

theorem cpu_resume_of_ne (other : d ≠ c) : (s.resume c p).cpu d = s.cpu d :=
  Function.update_of_ne other ..

end

end State

section

variable [DecidableEq C] [DecidableEq P] [DecidableEq L]

/-- The next step of a CPU; `none` if it is not possible, or is a panic. -/
def step (ptable : L) (s : State C P L) (c : C) : Action P L → Option (State C P L)
  | .readeflags lk =>
      if (s.running c).pc = .run then
        some (s.put c (s.cpu c) { s.running c with pc := .read (s.cpu c).flag lk })
      else none
  | .cli =>
      match (s.running c).pc with
      | .read eflags lk => some (s.put c (pushcli eflags (s.cpu c)) ((s.running c).push lk))
      | _ => none
  | .check =>
      match (s.running c).pc with
      | .pushed lk =>
          match holding (s.owner lk) c (s.cpu c) with
          | some (false, cpu) => some (s.put c cpu { s.running c with pc := .spin lk })
          | _ => none
      | _ => none
  | .xchg =>
      match (s.running c).pc with
      | .spin lk =>
          if s.owner lk = none then
            some ((s.put c (s.cpu c)
              { s.running c with pc := .run, held := insert lk (s.running c).held }).lock lk (some c))
          else none
      | _ => none
  | .unlock lk =>
      if (s.running c).pc = .run then
        match holding (s.owner lk) c (s.cpu c) with
        | some (true, cpu) =>
            some ((s.put c cpu
              { s.running c with pc := .unlocked, held := (s.running c).held.erase lk }).lock lk none)
        | _ => none
      else none
  | .popcli => do
      let t ← (s.running c).pop
      let cpu ← popcli (s.cpu c)
      some (s.put c cpu t)
  | .sti =>
      if (s.cpu c).proc = none ∧ (s.running c).pc = .run ∧ (s.running c).opens = 0 then
        some (s.put c { s.cpu c with flag := true } (s.running c))
      else none
  | .trap =>
      if (s.cpu c).flag then
        some (s.put c { s.cpu c with flag := false }
          { s.running c with pc := .run, frames := (s.running c).pc :: (s.running c).frames })
      else none
  | .iret =>
      match (s.running c).frames with
      | [] => none
      | pc :: frames =>
          if (s.running c).pc = .run ∧ (s.running c).opens = 0 then
            some (s.put c { s.cpu c with flag := true } { s.running c with pc, frames })
          else none
  | .sched state =>
      match (s.cpu c).proc with
      | none => none
      | some p =>
          if (s.running c).pc = .run then
            match holding (s.owner ptable) c (s.cpu c) with
            | some (true, cpu) =>
                if cpu.ncli ≠ 1 then none
                else if state = .running then none
                else if cpu.flag then none
                else some (s.park c cpu p state)
            | _ => none
          else none
  | .swtch p =>
      if (s.cpu c).proc = none ∧ (s.running c).Switching ptable ∧ s.state p = .runnable then
        some (s.resume c p)
      else none
  | .mark p state =>
      if Marks (s.state p) state then some (s.mark p state) else none

/-- The start: no process has been allocated.  A new process begins in `forkret`, which returns to
`trapret`. -/
def boot (ptable : L) (intena : C → Bool) : State C P L where
  cpu c := ⟨0, intena c, false, none⟩
  owner _ := none
  task
    | .scheduler _ => ⟨.run, 0, ∅, []⟩
    | .proc _ => ⟨.run, 0, {ptable}, [.run]⟩
  state _ := .unused
  context _ := .forkret

/-- The kernel. -/
def kernel (ptable : L) : System (State C P L) (C × Action P L) where
  initial s := ∃ intena, s = boot ptable intena
  step s label s' := step ptable s label.1 label.2 = some s'

end

/-! ## The invariant -/

/-- Where an interrupt can find a thread: it has nothing open, and `FL_IF` is set. -/
def Pc.Interrupted : Pc L → Prop
  | .run => True
  | .read eflags _ => eflags = true
  | _ => False

structure Sound (ptable : L) (s : State C P L) : Prop where
  nested : ∀ c, (s.cpu c).ncli = (s.running c).opens
  off : ∀ c, 0 < (s.running c).opens → (s.cpu c).flag = false
  saved : ∀ c eflags lk, (s.running c).pc = .read eflags lk → eflags = (s.cpu c).flag
  frames : ∀ t, ∀ pc ∈ (s.task t).frames, pc.Interrupted
  owner : ∀ lk c, s.owner lk = some c ↔ lk ∈ (s.running c).held
  switching : ∀ t, (∀ c, s.thread c ≠ t) → (s.task t).Switching ptable
  once : ∀ c d, s.thread c = s.thread d → c = d
  state : ∀ c p, (s.cpu c).proc = some p → s.state p = .running

/-- A step of the thread on a CPU, from what is there to this `struct cpu`, this thread and these
owners. -/
structure Moves (s : State C P L) (c : C) (cpu : Cpu P) (t : Task L) (owner : L → Option C) :
    Prop where
  proc : cpu.proc = (s.cpu c).proc
  nested : cpu.ncli = t.opens
  off : 0 < t.opens → cpu.flag = false
  saved : ∀ eflags lk, t.pc = .read eflags lk → eflags = cpu.flag
  frames : ∀ pc ∈ t.frames, pc.Interrupted
  owned : ∀ lk, owner lk = some c ↔ lk ∈ t.held
  others : ∀ lk d, d ≠ c → (owner lk = some d ↔ s.owner lk = some d)
  kept : 0 < (s.running c).opens → cpu.intena = (s.cpu c).intena
  opened : (s.running c).opens = 0 → 0 < t.opens → cpu.intena = (s.cpu c).flag
  closed : 0 < (s.running c).opens → t.opens = 0 → cpu.flag = (s.cpu c).intena

variable {ptable : L} {s s' : State C P L} {c d : C} {p : P} {cpu cpu' : Cpu P} {t t' : Task L}
variable {owner : L → Option C} {lk : L} {lk' : Option L} {eflags : Bool} {a : Action P L}

/-- The `pushcli`'s that a process has open. -/
def State.nesting (s : State C P L) (p : P) : Nat := (s.task (.proc p)).opens

/-- `intena` is kept: on the CPU of the process, or in its `sched`. -/
def Kept (s : State C P L) (p : P) (intena : Bool) : Prop :=
  (∀ c, (s.cpu c).proc = some p → (s.cpu c).intena = intena) ∧
    ((∀ c, (s.cpu c).proc ≠ some p) → s.context p = .sched intena)

theorem nesting_running (on : (s.cpu c).proc = some p) : s.nesting p = (s.running c).opens := by
  rw [State.nesting, State.running, State.thread_proc on]

theorem Task.Switching.opens (switching : t.Switching ptable) : t.opens = 1 := by
  obtain ⟨pc, plain, held⟩ := switching
  rw [Task.opens, pc, plain, held]
  rfl

theorem Task.pop_eq_some (popped : t.pop = some t') :
    t.opens = t'.opens + 1 ∧ t'.pc = .run ∧ t'.held = t.held ∧ t'.frames = t.frames := by
  unfold pop at popped
  split at popped
  · next pc =>
      cases popped
      exact ⟨by simp [opens, pc, Pc.opens], rfl, rfl, rfl⟩
  · next pc =>
      split at popped
      · next more =>
          cases popped
          refine ⟨?_, pc, rfl, rfl⟩
          simp only [opens, pc, Pc.opens]
          omega
      · cases popped
  · cases popped

theorem boot_sound (ptable : L) (intena : C → Bool) :
    Sound ptable (boot ptable intena : State C P L) where
  nested _ := rfl
  off _ := nofun
  saved _ := nofun
  frames t := by
    cases t with
    | scheduler => nofun
    | proc =>
        intro pc member
        cases List.mem_singleton.mp member
        trivial
  owner lk c := iff_of_false nofun (Finset.notMem_empty lk)
  switching t away := by
    cases t with
    | scheduler c => exact absurd rfl (away c)
    | proc => exact ⟨rfl, rfl, rfl⟩
  once c d same := by
    cases same
    rfl
  state _ _ := nofun

namespace Sound

/-- A thread with something open has `FL_IF` clear, and `ncli` counts it. -/
theorem inside (sound : Sound ptable s) (more : 0 < (s.running c).opens) :
    (s.cpu c).flag = false ∧ 0 < (s.cpu c).ncli :=
  ⟨sound.off c more, by rw [sound.nested]; exact Int.natCast_pos.mpr more⟩

/-- A process is on one CPU. -/
theorem proc_injective (sound : Sound ptable s) (on : (s.cpu c).proc = some p)
    (runs : (s.cpu d).proc = some p) : d = c :=
  sound.once d c ((State.thread_proc runs).trans (State.thread_proc on).symm)

/-- Without a step. -/
theorem still (sound : Sound ptable s) (c : C) : Moves s c (s.cpu c) (s.running c) s.owner where
  proc := rfl
  nested := sound.nested c
  off := sound.off c
  saved := sound.saved c
  frames := sound.frames (s.thread c)
  owned lk := sound.owner lk c
  others _ _ _ := Iff.rfl
  kept _ := rfl
  opened none more := absurd none more.ne'
  closed more none := absurd none more.ne'

end Sound

/-- The thread is elsewhere, with as much open. -/
theorem Moves.at_pc (moves : Moves s c cpu t owner) (pc : Pc L) (same : pc.opens = t.pc.opens)
    (saved : ∀ eflags lk, pc = .read eflags lk → eflags = cpu.flag) :
    Moves s c cpu { t with pc } owner := by
  have opens : ({ t with pc } : Task L).opens = t.opens := congrArg (t.plain + t.held.card + ·) same
  exact {
    moves with
    saved
    nested := opens ▸ moves.nested
    off := opens ▸ moves.off
    opened := opens ▸ moves.opened
    closed := opens ▸ moves.closed }

namespace Sound

theorem cli (sound : Sound ptable s) (pc : (s.running c).pc = .read eflags lk') :
    Moves s c (pushcli eflags (s.cpu c)) ((s.running c).push lk') s.owner := by
  have read := sound.saved c eflags lk' pc
  have opens : ((s.running c).push lk').opens = (s.running c).opens + 1 := by
    cases lk' with
    | none => simp [Task.push, Task.opens, pc, Pc.opens]; omega
    | some lk => simp [Task.push, Task.opens, pc, Pc.opens]
  have nested := sound.nested c
  refine { sound.still c with
    nested := ?_, off := fun _ => rfl, saved := ?_, frames := ?_, owned := ?_, kept := ?_,
    opened := ?_, closed := ?_ }
  · rw [opens, pushcli, nested]
    rfl
  · cases lk' with
    | none => nofun
    | some lk => nofun
  · cases lk' with
    | none => exact (sound.still c).frames
    | some lk => exact (sound.still c).frames
  · cases lk' with
    | none => exact (sound.still c).owned
    | some lk => exact (sound.still c).owned
  · intro more
    exact if_neg (sound.inside more).2.ne'
  · intro none _
    rw [← read]
    exact if_pos (by rw [nested, none]; rfl)
  · rw [opens]
    nofun

theorem popcli (sound : Sound ptable s) (popped : (s.running c).pop = some t)
    (ran : Interrupts.popcli (s.cpu c) = some cpu) : Moves s c cpu t s.owner := by
  obtain ⟨opens, pc, held, frames⟩ := Task.pop_eq_some popped
  obtain ⟨off, rfl⟩ := popcli_eq_some ran
  have nested := sound.nested c
  have ncli : (s.cpu c).ncli - 1 = t.opens := by omega
  refine { sound.still c with
    nested := ncli, off := ?_, saved := ?_, frames := ?_, owned := ?_, opened := ?_, closed := ?_ }
  · intro more
    have nonzero : (s.cpu c).ncli - 1 ≠ 0 := by omega
    simp [nonzero]
  · rw [pc]
    nofun
  · rw [frames]
    exact (sound.still c).frames
  · rw [held]
    exact (sound.still c).owned
  · intro none
    omega
  · intro _ none
    have zero : (s.cpu c).ncli - 1 = 0 := by omega
    simp [zero]

/-- Interrupts come and go where nothing is open. -/
theorem idle (sound : Sound ptable s) (flag : Bool) (none : (s.running c).opens = 0)
    (still : t.opens = 0) (held : t.held = (s.running c).held)
    (saved : ∀ eflags lk, t.pc = .read eflags lk → eflags = flag)
    (frames : ∀ pc ∈ t.frames, pc.Interrupted) :
    Moves s c { s.cpu c with flag } t s.owner where
  proc := rfl
  nested := by
    rw [still, ← none]
    exact sound.nested c
  off more := absurd still more.ne'
  saved
  frames
  owned := held ▸ (sound.still c).owned
  others _ _ _ := Iff.rfl
  kept more := absurd none more.ne'
  opened _ more := absurd still more.ne'
  closed more := absurd none more.ne'

theorem trap (sound : Sound ptable s) (on : (s.cpu c).flag = true) :
    Moves s c { s.cpu c with flag := false }
      { s.running c with pc := .run, frames := (s.running c).pc :: (s.running c).frames }
      s.owner := by
  have none : (s.running c).opens = 0 := by
    by_contra more
    exact absurd (sound.off c (Nat.pos_of_ne_zero more)) (by rw [on]; nofun)
  have parts := none
  simp only [Task.opens] at parts
  refine sound.idle false none ?_ rfl nofun ?_
  · simp only [Task.opens, Pc.opens]
    omega
  · intro pc member
    obtain rfl | old := List.mem_cons.mp member
    · cases pc : (s.running c).pc with
      | run => trivial
      | read eflags lk => exact (sound.saved c eflags lk pc).trans on
      | pushed | spin | unlocked =>
          rw [pc] at parts
          simp only [Pc.opens] at parts
          omega
    · exact (sound.still c).frames pc old

theorem iret (sound : Sound ptable s) {pc : Pc L} {frames : List (Pc L)}
    (in_frames : (s.running c).frames = pc :: frames) (back : (s.running c).pc = .run)
    (none : (s.running c).opens = 0) :
    Moves s c { s.cpu c with flag := true } { s.running c with pc, frames } s.owner := by
  have all := (sound.still c).frames
  rw [in_frames] at all
  have found := all pc List.mem_cons_self
  have parts := none
  simp only [Task.opens, back] at parts
  refine sound.idle true none ?_ rfl ?_ fun other member => all other (List.mem_cons_of_mem _ member)
  · cases pc with
    | run | read => exact parts
    | pushed | spin | unlocked => exact found.elim
  · rintro eflags lk rfl
    exact found

theorem check [DecidableEq C] (sound : Sound ptable s) (pc : (s.running c).pc = .pushed lk)
    (free : holding (s.owner lk) c (s.cpu c) = some (false, cpu)) :
    Moves s c cpu { s.running c with pc := .spin lk } s.owner := by
  have more : 0 < (s.running c).opens := by simp [Task.opens, pc, Pc.opens]
  rw [holding_eq (sound.inside more).1 (sound.inside more).2] at free
  obtain ⟨-, rfl⟩ := Prod.mk.inj (Option.some.inj free)
  exact (sound.still c).at_pc _ (by rw [pc]; rfl) nofun

/-- The checks of `sched` leave only `ptable.lock`. -/
theorem sched [DecidableEq C] (sound : Sound ptable s) (pc : (s.running c).pc = .run)
    (held : holding (s.owner ptable) c (s.cpu c) = some (true, cpu)) (one : cpu.ncli = 1) :
    cpu = s.cpu c ∧ (s.running c).Switching ptable := by
  have inside : ptable ∈ (s.running c).held :=
    (sound.owner ptable c).mp (of_decide_eq_true (holding_owner held))
  have some : 0 < (s.running c).held.card := Finset.card_pos.mpr ⟨ptable, inside⟩
  have more : 0 < (s.running c).opens := by
    simp only [Task.opens]
    omega
  rw [holding_eq (sound.inside more).1 (sound.inside more).2] at held
  obtain ⟨-, rfl⟩ := Prod.mk.inj (Option.some.inj held)
  have opens := sound.nested c
  rw [one] at opens
  simp only [Task.opens, pc, Pc.opens] at opens
  obtain ⟨only, single⟩ := Finset.card_eq_one.mp (by omega : (s.running c).held.card = 1)
  rw [single] at inside
  cases Finset.mem_singleton.mp inside
  exact ⟨rfl, pc, by omega, single⟩

variable [DecidableEq L]

theorem xchg (sound : Sound ptable s) (pc : (s.running c).pc = .spin lk)
    (free : s.owner lk = none) :
    Moves s c (s.cpu c) { s.running c with pc := .run, held := insert lk (s.running c).held }
      (Function.update s.owner lk (some c)) := by
  have fresh : lk ∉ (s.running c).held := by
    rw [← sound.owner, free]
    nofun
  have same : ({ s.running c with pc := .run, held := insert lk (s.running c).held } :
      Task L).opens = (s.running c).opens := by
    simp [Task.opens, pc, Pc.opens, Finset.card_insert_of_notMem fresh]
    omega
  refine { sound.still c with
    nested := same ▸ sound.nested c, off := same ▸ sound.off c, saved := nofun, owned := ?_,
    others := ?_, opened := same ▸ (sound.still c).opened, closed := same ▸ (sound.still c).closed }
  · intro l
    rw [Finset.mem_insert, Function.update_apply]
    split
    · next this => exact iff_of_true rfl (.inl this)
    · next other => rw [sound.owner, or_iff_right other]
  · intro l d other
    rw [Function.update_apply]
    split
    · next this =>
        rw [this, free]
        exact iff_of_false (fun same => other (Option.some.inj same).symm) nofun
    · exact Iff.rfl

theorem unlock [DecidableEq C] (sound : Sound ptable s) (pc : (s.running c).pc = .run)
    (held : holding (s.owner lk) c (s.cpu c) = some (true, cpu)) :
    Moves s c cpu { s.running c with pc := .unlocked, held := (s.running c).held.erase lk }
      (Function.update s.owner lk none) := by
  have own : s.owner lk = some c := of_decide_eq_true (holding_owner held)
  have inside : lk ∈ (s.running c).held := (sound.owner lk c).mp own
  have card := Finset.card_erase_add_one inside
  have more : 0 < (s.running c).opens := by
    simp only [Task.opens]
    omega
  rw [holding_eq (sound.inside more).1 (sound.inside more).2] at held
  obtain ⟨-, rfl⟩ := Prod.mk.inj (Option.some.inj held)
  have same : ({ s.running c with pc := .unlocked, held := (s.running c).held.erase lk } :
      Task L).opens = (s.running c).opens := by
    simp only [Task.opens, pc, Pc.opens]
    omega
  refine { sound.still c with
    nested := same ▸ sound.nested c, off := same ▸ sound.off c, saved := nofun, owned := ?_,
    others := ?_, opened := same ▸ (sound.still c).opened, closed := same ▸ (sound.still c).closed }
  · intro l
    rw [Finset.mem_erase, Function.update_apply]
    split
    · next this => exact iff_of_false nofun fun both => both.1 this
    · next other => rw [sound.owner, and_iff_right other]
  · intro l d other
    rw [Function.update_apply]
    split
    · next this =>
        rw [this, own]
        exact iff_of_false nofun fun same => other (Option.some.inj same).symm
    · exact Iff.rfl

end Sound

/-! ## One step -/

variable [DecidableEq C] [DecidableEq P]

/-- What a step can do. -/
inductive Change (ptable : L) (s : State C P L) (c : C) : State C P L → Prop where
  | moves {cpu : Cpu P} {t : Task L} {owner : L → Option C} :
      Moves s c cpu t owner → Change ptable s c { s.put c cpu t with owner }
  | park {p : P} {state : ProcState} : (s.cpu c).proc = some p →
      (s.running c).Switching ptable → state ≠ .running →
      Change ptable s c (s.park c (s.cpu c) p state)
  | resume {p : P} : (s.cpu c).proc = none → (s.running c).Switching ptable →
      s.state p = .runnable → Change ptable s c (s.resume c p)
  | mark {p : P} {state : ProcState} : Marks (s.state p) state → Change ptable s c (s.mark p state)

/-- After a step, the thread on a CPU is the one that was there. -/
theorem State.proc_put (t : Task L) (same : cpu.proc = (s.cpu c).proc) :
    ((s.put c cpu t).cpu d).proc = (s.cpu d).proc := by
  by_cases this : d = c
  · rw [this, cpu_put, same]
  · rw [cpu_put_of_ne this]

theorem State.thread_put (t : Task L) (same : cpu.proc = (s.cpu c).proc) :
    (s.put c cpu t).thread d = s.thread d := by
  simp only [thread, proc_put t same]

namespace Sound

/-- What is on the CPUs after a step of one. -/
theorem put_cases (sound : Sound ptable s) (same : cpu.proc = (s.cpu c).proc) (t : Task L) (d : C) :
    (d = c ∧ (s.put c cpu t).cpu d = cpu ∧ (s.put c cpu t).running d = t) ∨
      (d ≠ c ∧ (s.put c cpu t).cpu d = s.cpu d ∧ (s.put c cpu t).running d = s.running d) := by
  have running : (s.put c cpu t).running d = Function.update s.task (s.thread c) t (s.thread d) :=
    congrArg (s.put c cpu t).task (State.thread_put t same)
  by_cases this : d = c
  · left
    rw [running, this]
    exact ⟨rfl, State.cpu_put, Function.update_self ..⟩
  · right
    rw [running]
    exact ⟨this, State.cpu_put_of_ne this, Function.update_of_ne (this ∘ sound.once d c) ..⟩

theorem moves (sound : Sound ptable s) (moves : Moves s c cpu t owner) :
    Sound ptable { s.put c cpu t with owner } where
  nested d := by
    change ((s.put c cpu t).cpu d).ncli = ((s.put c cpu t).running d).opens
    obtain ⟨-, on, runs⟩ | ⟨-, on, runs⟩ := sound.put_cases moves.proc t d
    · rw [on, runs]
      exact moves.nested
    · rw [on, runs]
      exact sound.nested d
  off d := by
    change 0 < ((s.put c cpu t).running d).opens → ((s.put c cpu t).cpu d).flag = false
    obtain ⟨-, on, runs⟩ | ⟨-, on, runs⟩ := sound.put_cases moves.proc t d
    · rw [on, runs]
      exact moves.off
    · rw [on, runs]
      exact sound.off d
  saved d eflags lk := by
    change ((s.put c cpu t).running d).pc = _ → _ = ((s.put c cpu t).cpu d).flag
    obtain ⟨-, on, runs⟩ | ⟨-, on, runs⟩ := sound.put_cases moves.proc t d
    · rw [on, runs]
      exact moves.saved eflags lk
    · rw [on, runs]
      exact sound.saved d eflags lk
  frames u := by
    change ∀ pc ∈ (Function.update s.task (s.thread c) t u).frames, _
    rw [Function.update_apply]
    split
    · exact moves.frames
    · exact sound.frames u
  owner lk d := by
    change owner lk = some d ↔ lk ∈ ((s.put c cpu t).running d).held
    obtain ⟨rfl, -, runs⟩ | ⟨other, -, runs⟩ := sound.put_cases moves.proc t d
    · rw [runs]
      exact moves.owned lk
    · rw [runs, moves.others lk d other]
      exact sound.owner lk d
  switching u away := by
    have away : ∀ d, s.thread d ≠ u := fun d => State.thread_put t moves.proc ▸ away d
    change (Function.update s.task (s.thread c) t u).Switching ptable
    rw [Function.update_of_ne (away c).symm]
    exact sound.switching u away
  once d d' same := by
    change (s.put c cpu t).thread d = (s.put c cpu t).thread d' at same
    rw [State.thread_put t moves.proc, State.thread_put t moves.proc] at same
    exact sound.once d d' same
  state d p on := by
    have on : ((s.put c cpu t).cpu d).proc = some p := on
    obtain ⟨rfl, new, -⟩ | ⟨-, old, -⟩ := sound.put_cases moves.proc t d
    · rw [new, moves.proc] at on
      exact sound.state d p on
    · rw [old] at on
      exact sound.state d p on

omit [DecidableEq P] in
/-- A thread that holds `ptable.lock` hands its CPU, and the lock, to one that waits with it. -/
theorem switch (sound : Sound ptable s) {u : Thread C P} {state : P → ProcState}
    {context : P → Context} (switching : (s.running c).Switching ptable)
    (ncli : cpu.ncli = (s.cpu c).ncli) (flag : cpu.flag = (s.cpu c).flag)
    (away : ∀ d, s.thread d ≠ u)
    (onto : ({ s with cpu := Function.update s.cpu c cpu } : State C P L).thread c = u)
    (states : ∀ d p, (Function.update s.cpu c cpu d).proc = some p → state p = .running) :
    Sound ptable { s with cpu := Function.update s.cpu c cpu, state, context } := by
  generalize next : ({ s with cpu := Function.update s.cpu c cpu, state, context } : State C P L) =
    s'
  have owner : s'.owner = s.owner := by rw [← next]
  have taken := sound.switching u away
  have old := sound.nested c
  rw [switching.opens] at old
  have there (d : C) : (d = c ∧ s'.cpu d = cpu ∧ s'.thread d = u ∧ s'.running d = s.task u) ∨
      (d ≠ c ∧ s'.cpu d = s.cpu d ∧ s'.thread d = s.thread d ∧ s'.running d = s.running d) := by
    rw [← next]
    by_cases this : d = c
    · cases this
      exact .inl ⟨rfl, Function.update_self .., onto, congrArg s.task onto⟩
    · right
      simp only [State.running, State.thread, Function.update_of_ne this]
      exact ⟨this, trivial, trivial, trivial⟩
  constructor
  case nested =>
    intro d
    obtain ⟨-, on, -, runs⟩ | ⟨-, on, -, runs⟩ := there d
    · rw [on, runs, ncli, old, taken.opens]
    · rw [on, runs]
      exact sound.nested d
  case off =>
    intro d more
    obtain ⟨-, on, -, -⟩ | ⟨-, on, -, runs⟩ := there d
    · rw [on, flag]
      exact sound.off c (switching.opens ▸ Nat.one_pos)
    · rw [on]
      exact sound.off d (runs ▸ more)
  case saved =>
    intro d eflags lk read
    obtain ⟨-, -, -, runs⟩ | ⟨-, on, -, runs⟩ := there d
    · rw [runs, taken.1] at read
      cases read
    · rw [on]
      exact sound.saved d eflags lk (runs ▸ read)
  case frames =>
    rw [← next]
    exact sound.frames
  case owner =>
    intro lk d
    rw [owner]
    obtain ⟨rfl, -, -, runs⟩ | ⟨-, -, -, runs⟩ := there d
    · rw [runs, taken.2.2, ← switching.2.2]
      exact sound.owner lk d
    · rw [runs]
      exact sound.owner lk d
  case switching =>
    intro v off
    rw [← next]
    by_cases this : s.thread c = v
    · cases this
      exact switching
    · apply sound.switching v
      intro d same
      obtain ⟨rfl, -⟩ | ⟨-, -, thread, -⟩ := there d
      · exact this same
      · exact off d (thread.trans same)
  case once =>
    intro d d' same
    obtain ⟨rfl, -, thread, -⟩ | ⟨-, -, thread, -⟩ := there d
    · obtain ⟨rfl, -⟩ | ⟨-, -, thread', -⟩ := there d'
      · rfl
      · rw [thread, thread'] at same
        exact absurd same.symm (away d')
    · obtain ⟨rfl, -, thread', -⟩ | ⟨-, -, thread', -⟩ := there d'
      · rw [thread, thread'] at same
        exact absurd same (away d)
      · rw [thread, thread'] at same
        exact sound.once d d' same
  case state =>
    rw [← next]
    exact states

theorem park (sound : Sound ptable s) {state : ProcState} (on : (s.cpu c).proc = some p)
    (switching : (s.running c).Switching ptable) :
    Sound ptable (s.park c (s.cpu c) p state) := by
  refine sound.switch (u := .scheduler c) switching rfl rfl ?_ ?_ ?_
  · intro d same
    rw [State.thread] at same
    split at same
    · next off =>
        cases same
        rw [on] at off
        cases off
    · cases same
  · exact State.thread_scheduler (by simp only [Function.update_self])
  · intro d q runs
    by_cases this : d = c
    · rw [this, Function.update_self] at runs
      cases runs
    · rw [Function.update_of_ne this] at runs
      have other : q ≠ p := by
        rintro rfl
        exact this (sound.proc_injective on runs)
      rw [Function.update_of_ne other]
      exact sound.state d q runs

theorem resume (sound : Sound ptable s)
    (switching : (s.running c).Switching ptable) (runnable : s.state p = .runnable) :
    Sound ptable (s.resume c p) := by
  refine sound.switch (u := .proc p) switching rfl rfl ?_ ?_ ?_
  · intro d same
    have running := sound.state d p (State.proc_of_thread same)
    rw [runnable] at running
    cases running
  · exact State.thread_proc (by simp only [Function.update_self])
  · intro d q runs
    by_cases this : d = c
    · rw [this, Function.update_self] at runs
      cases runs
      exact Function.update_self ..
    · rw [Function.update_of_ne this] at runs
      rw [Function.update_apply]
      split
      · rfl
      · exact sound.state d q runs

omit [DecidableEq C] in
theorem mark (sound : Sound ptable s) {state : ProcState} (marks : Marks (s.state p) state) :
    Sound ptable (s.mark p state) := by
  refine { sound with state := fun c q on => ?_ }
  have running := sound.state c q on
  have other : q ≠ p := by
    rintro rfl
    rw [running] at marks
    exact marks
  exact (Function.update_of_ne other ..).trans running

theorem preserved (sound : Sound ptable s) (change : Change ptable s c s') : Sound ptable s' := by
  cases change with
  | moves moves => exact sound.moves moves
  | park on switching => exact sound.park on switching
  | resume _ switching runnable => exact sound.resume switching runnable
  | mark marks => exact sound.mark marks

end Sound

/-! ## One nesting -/

theorem nesting_put (s : State C P L) (cpu : Cpu P) (on : (s.cpu c).proc = some p) :
    (s.put c cpu t).nesting p = t.opens := by
  rw [State.nesting, ← State.thread_proc on]
  exact congrArg Task.opens (Function.update_self ..)

theorem nesting_put_of_ne (s : State C P L) (cpu : Cpu P) (off : (s.cpu c).proc ≠ some p) :
    (s.put c cpu t).nesting p = s.nesting p :=
  congrArg Task.opens (Function.update_of_ne (fun same => off (State.proc_of_thread same.symm)) ..)

/-- A step that changes whether something is open is one of the process, on its CPU. -/
theorem Change.of_nesting (change : Change ptable s c s')
    (differs : s'.nesting p ≠ s.nesting p) :
    (s.cpu c).proc = some p ∧ ∃ cpu t owner, Moves s c cpu t owner ∧
      s' = { s.put c cpu t with owner } ∧ s'.nesting p = t.opens := by
  cases change with
  | @moves cpu t owner moves =>
      have on : (s.cpu c).proc = some p := by
        by_contra off
        exact differs (nesting_put_of_ne s cpu off)
      exact ⟨on, cpu, t, owner, moves, rfl, nesting_put s cpu on⟩
  | park | resume | mark => exact absurd rfl differs

namespace Sound

/-- The outermost `pushcli` saves the flag. -/
theorem opened (sound : Sound ptable s) (change : Change ptable s c s') (none : s.nesting p = 0)
    (more : 0 < s'.nesting p) : (s.cpu c).proc = some p ∧ Kept s' p (s.cpu c).flag := by
  obtain ⟨on, cpu, t, owner, moves, rfl, opens⟩ := change.of_nesting (none ▸ more.ne')
  rw [opens] at more
  refine ⟨on, ?_, ?_⟩
  · intro d runs
    obtain ⟨-, new, -⟩ | ⟨other, -, -⟩ := sound.put_cases moves.proc t d
    · exact (congrArg Cpu.intena new).trans (moves.opened (nesting_running on ▸ none) more)
    · exact absurd (sound.proc_injective on ((State.proc_put t moves.proc).symm.trans runs)) other
  · intro off
    exact absurd ((State.proc_put t moves.proc).trans on) (off c)

/-- Until the outermost `popcli` it is kept. -/
theorem kept (sound : Sound ptable s) (change : Change ptable s c s') {b : Bool}
    (inside : 0 < s.nesting p) (kept : Kept s p b) : Kept s' p b := by
  cases change with
  | @moves cpu t owner moves =>
      constructor
      · intro d runs
        have old : (s.cpu d).proc = some p := (State.proc_put t moves.proc).symm.trans runs
        obtain ⟨rfl, new, -⟩ | ⟨-, same, -⟩ := sound.put_cases moves.proc t d
        · refine (congrArg Cpu.intena new).trans ?_
          rw [moves.kept (nesting_running old ▸ inside)]
          exact kept.1 d old
        · exact (congrArg Cpu.intena same).trans (kept.1 d old)
      · intro off
        exact kept.2 fun d old => off d ((State.proc_put t moves.proc).trans old)
  | @park q state on =>
      constructor
      · intro d runs
        by_cases this : d = c
        · rw [this, State.cpu_park] at runs
          cases runs
        · rw [State.cpu_park_of_ne this] at runs ⊢
          exact kept.1 d runs
      · intro off
        by_cases this : p = q
        · cases this
          exact (Function.update_self ..).trans (congrArg Context.sched (kept.1 c on))
        · refine (Function.update_of_ne this ..).trans (kept.2 fun d runs => ?_)
          by_cases there : d = c
          · rw [there, on] at runs
            exact this (Option.some.inj runs).symm
          · exact off d ((congrArg Cpu.proc (State.cpu_park_of_ne there)).trans runs)
  | @resume q on switching runnable =>
      constructor
      · intro d runs
        by_cases this : d = c
        · rw [this, State.cpu_resume] at runs ⊢
          cases runs
          have saved := kept.2 fun e runs => by
            have running := sound.state e p runs
            rw [runnable] at running
            cases running
          exact congrArg (Context.restore · (s.cpu c).intena) saved
        · rw [State.cpu_resume_of_ne this] at runs ⊢
          exact kept.1 d runs
      · intro off
        refine kept.2 fun d runs => ?_
        by_cases there : d = c
        · rw [there, on] at runs
          cases runs
        · exact off d ((congrArg Cpu.proc (State.cpu_resume_of_ne there)).trans runs)
  | mark => exact kept

end Sound

/-- The outermost `popcli` restores it. -/
theorem Change.closed (change : Change ptable s c s') {b : Bool} (inside : 0 < s.nesting p)
    (kept : Kept s p b) (none : s'.nesting p = 0) :
    (s'.cpu c).proc = some p ∧ (s'.cpu c).flag = b := by
  obtain ⟨on, cpu, t, owner, moves, rfl, opens⟩ := change.of_nesting (none ▸ inside.ne)
  have new : (s.put c cpu t).cpu c = cpu := State.cpu_put
  refine ⟨(State.proc_put t moves.proc).trans on, (congrArg Cpu.flag new).trans ?_⟩
  rw [moves.closed (nesting_running on ▸ inside) (opens ▸ none)]
  exact kept.1 c on

variable [DecidableEq L]

theorem Sound.change (sound : Sound ptable s) (taken : step ptable s c a = some s') :
    Change ptable s c s' := by
  cases a with
  | readeflags lk =>
      obtain ⟨pc, same⟩ := Option.ite_none_right_eq_some.mp taken
      cases same
      exact .moves ((sound.still c).at_pc _ (by rw [pc]; rfl) (by rintro _ _ ⟨⟩; rfl))
  | cli =>
      simp only [step] at taken
      split at taken
      · next pc =>
          cases taken
          exact .moves (sound.cli pc)
      · cases taken
  | check =>
      simp only [step] at taken
      split at taken
      · next pc =>
          split at taken
          · next free =>
              cases taken
              exact .moves (sound.check pc free)
          · cases taken
      · cases taken
  | xchg =>
      simp only [step] at taken
      split at taken
      · next pc =>
          obtain ⟨free, same⟩ := Option.ite_none_right_eq_some.mp taken
          cases same
          exact .moves (sound.xchg pc free)
      · cases taken
  | unlock lk =>
      obtain ⟨pc, rest⟩ := Option.ite_none_right_eq_some.mp taken
      split at rest
      · next held =>
          cases rest
          exact .moves (sound.unlock pc held)
      · cases rest
  | popcli =>
      obtain ⟨t, popped, rest⟩ := Option.bind_eq_some_iff.mp taken
      obtain ⟨cpu, ran, same⟩ := Option.bind_eq_some_iff.mp rest
      cases same
      exact .moves (sound.popcli popped ran)
  | sti =>
      obtain ⟨⟨-, pc, none⟩, same⟩ := Option.ite_none_right_eq_some.mp taken
      cases same
      exact .moves (sound.idle true none none rfl (by rw [pc]; nofun) (sound.still c).frames)
  | trap =>
      obtain ⟨on, same⟩ := Option.ite_none_right_eq_some.mp taken
      cases same
      exact .moves (sound.trap on)
  | iret =>
      simp only [step] at taken
      split at taken
      · cases taken
      · next in_frames =>
          obtain ⟨⟨back, none⟩, same⟩ := Option.ite_none_right_eq_some.mp taken
          cases same
          exact .moves (sound.iret in_frames back none)
  | sched state =>
      simp only [step] at taken
      split at taken
      · cases taken
      · next on =>
          obtain ⟨pc, rest⟩ := Option.ite_none_right_eq_some.mp taken
          split at rest
          · next held =>
              obtain ⟨one, rest⟩ := Option.ite_none_left_eq_some.mp rest
              obtain ⟨left, rest⟩ := Option.ite_none_left_eq_some.mp rest
              obtain ⟨-, same⟩ := Option.ite_none_left_eq_some.mp rest
              obtain ⟨rfl, switching⟩ := sound.sched pc held (not_not.mp one)
              cases same
              exact .park on switching left
          · cases rest
  | swtch p =>
      obtain ⟨⟨on, switching, runnable⟩, same⟩ := Option.ite_none_right_eq_some.mp taken
      cases same
      exact .resume on switching runnable
  | mark p state =>
      obtain ⟨marks, same⟩ := Option.ite_none_right_eq_some.mp taken
      cases same
      exact .mark marks

theorem sound_of_reachable (reached : (kernel ptable).Reachable s) : Sound ptable s := by
  refine reached.invariant ?_ fun sound taken => sound.preserved (sound.change taken)
  rintro _ ⟨intena, rfl⟩
  exact boot_sound ptable intena

/-- A thread that closes what it has open meets no panic of `popcli` and `release`. -/
theorem Sound.closes (sound : Sound ptable s) :
    ((s.running c).pop.isSome → (step ptable s c .popcli).isSome) ∧
      ((s.running c).pc = .run → lk ∈ (s.running c).held →
        (step ptable s c (.unlock lk)).isSome) := by
  constructor
  · intro some
    obtain ⟨t, popped⟩ := Option.isSome_iff_exists.mp some
    obtain ⟨opens, -⟩ := Task.pop_eq_some popped
    obtain ⟨off, nested⟩ := sound.inside (c := c) (by omega)
    have counted : ¬ (s.cpu c).ncli - 1 < 0 := by omega
    simp [step, popped, Interrupts.popcli, off, counted]
  · intro pc held
    have more : 0 < (s.running c).opens := by
      have := Finset.card_pos.mpr ⟨lk, held⟩
      simp only [Task.opens]
      omega
    obtain ⟨off, nested⟩ := sound.inside more
    simp [step, pc, holding_eq off nested, (sound.owner lk c).mpr held]

/-- From `s` a CPU takes the outermost `pushcli` of a process, and after more steps of all CPUs
another one, or the same, takes the `popcli` to it and is in `last`. -/
def Nests (ptable : L) (p : P) (s : State C P L) (c : C) (last : State C P L) (d : C) : Prop :=
  ∃ a first labels middle b, step ptable s c a = some first ∧ s.nesting p = 0 ∧
    0 < first.nesting p ∧
    ((kernel ptable).guarded fun s _ => 0 < s.nesting p).Run first labels middle ∧
    0 < middle.nesting p ∧ step ptable middle d b = some last ∧ last.nesting p = 0

/-- Until its outermost `popcli` a process runs with its own `intena`, wherever it is resumed. -/
theorem kept_of_run {first middle : State C P L} {labels : List (C × Action P L)} {b : Bool}
    (sound : Sound ptable first) (kept : Kept first p b)
    (run : ((kernel ptable).guarded fun s _ => 0 < s.nesting p).Run first labels middle) :
    Sound ptable middle ∧ Kept middle p b := by
  refine run.preserves (P := fun s => Sound ptable s ∧ Kept s p b) ?_ ⟨sound, kept⟩
  rintro s label s' ⟨sound, kept⟩ ⟨inside, taken⟩
  have change := sound.change taken
  exact ⟨sound.preserved change, sound.kept change inside kept⟩

/-- The interrupt state survives nesting and context switches. -/
theorem interrupt_state_survives (reached : (kernel ptable).Reachable s) :
    (∀ c, 0 < (s.cpu c).ncli → (s.cpu c).flag = false) ∧
      (∀ c, (s.cpu c).ncli = (s.running c).opens) ∧
      ∀ p c last d, Nests ptable p s c last d →
        (s.cpu c).proc = some p ∧ (last.cpu d).proc = some p ∧
          (last.cpu d).flag = (s.cpu c).flag := by
  have sound := sound_of_reachable reached
  refine ⟨fun c more => ?_, sound.nested, ?_⟩
  · apply sound.off
    rw [sound.nested] at more
    exact Int.natCast_pos.mp more
  · rintro p c last d ⟨a, first, labels, middle, b, push, none, more, run, inside, pop, back⟩
    have opens := sound.change push
    obtain ⟨on, kept⟩ := sound.opened opens none more
    obtain ⟨sound', kept⟩ := kept_of_run (sound.preserved opens) kept run
    exact ⟨on, (sound'.change pop).closed inside kept back⟩

/-- Two CPUs: a process is allocated, enters at `forkret` and returns to user space with interrupts
on; it is about to call `yield`. -/
def beforeYield : List (Bool × Action Unit Unit) :=
  [(false, .mark () .embryo), (false, .mark () .runnable),
    (false, .readeflags (some ())), (false, .cli), (false, .check), (false, .xchg),
    (false, .swtch ()), (false, .unlock ()), (false, .popcli), (false, .iret),
    (false, .readeflags (some ()))]

/-- In `yield` it moves to the other CPU. -/
def inYield : List (Bool × Action Unit Unit) :=
  [(false, .check), (false, .xchg), (false, .sched .runnable),
    (false, .unlock ()), (false, .popcli),
    (true, .readeflags (some ())), (true, .cli), (true, .check), (true, .xchg),
    (true, .swtch ()), (true, .unlock ())]

theorem interrupt_state_survives_move : ∃ s last : State Bool Unit Unit,
    (kernel ()).Reachable s ∧ (s.cpu false).flag = true ∧ Nests () () s false last true ∧
      (last.cpu true).flag = true := by
  have ran : (do
      let s ← beforeYield.foldlM (fun s label => step () s label.1 label.2) (boot () fun _ => false)
      let first ← step () s false .cli
      let middle ← inYield.foldlM (fun s label =>
        if 0 < s.nesting () then step () s label.1 label.2 else none) first
      let last ← step () middle true .popcli
      some ((s.cpu false).flag, s.nesting (), first.nesting (), middle.nesting (),
        last.nesting ())) = some (true, 0, 1, 1, 0) := by decide +kernel
  obtain ⟨s, before, ran⟩ := Option.bind_eq_some_iff.mp ran
  obtain ⟨first, push, ran⟩ := Option.bind_eq_some_iff.mp ran
  obtain ⟨middle, inside, ran⟩ := Option.bind_eq_some_iff.mp ran
  obtain ⟨last, pop, facts⟩ := Option.bind_eq_some_iff.mp ran
  simp only [Option.some.injEq, Prod.mk.injEq] at facts
  obtain ⟨on, none, more, still, back⟩ := facts
  have reached : (kernel ()).Reachable s :=
    ⟨_, _, ⟨fun _ => false, rfl⟩, .of_fold (fun _ _ _ taken => taken) before⟩
  have run : ((kernel ()).guarded fun s _ => 0 < s.nesting ()).Run first inYield middle :=
    .of_fold (fun _ _ _ taken => Option.ite_none_right_eq_some.mp taken) inside
  have nests : Nests () () s false last true :=
    ⟨_, first, _, middle, _, push, none, more ▸ Nat.one_pos, run, still ▸ Nat.one_pos, pop, back⟩
  obtain ⟨-, -, survives⟩ := interrupt_state_survives reached
  exact ⟨s, last, reached, on, nests, (survives () false last true nests).2.2.trans on⟩

end SlabStudy.Xv6.Interrupts
