import SlabStudy.Xv6.Directory
import SlabStudy.Xv6.ExecEffects

/-!
# exec and the file system

The whole of `exec`, with the inode of the program.  The inode is referenced
and locked until the segments are loaded; from there on `ip` is null, and the
label `bad` has only the new directory to give back.
-/

namespace SlabStudy.Xv6

/-- What a call of `exec` works on. -/
structure ExecState where
  kernel : Kernel
  fs : Fs Slot
  /-- Calls of `begin_op` by the process that wait for their `end_op`. -/
  outstanding : Nat

/-- How the call ends other than by returning. -/
inductive ExecStop where
  | panic (reason : Panic)
  | fault (reason : Fault)
  /-- `end_op` without `begin_op`. -/
  | endOp

/-- A part that works on the memory. -/
def onKernel {α : Type} (result : Kern α) : Except ExecStop α := result.mapError .panic

/-- A part that works on the inodes. -/
def onFiles {α : Type} (result : Except Fault α) : Except ExecStop α := result.mapError .fault

namespace ExecState

def beginOp (s : ExecState) : ExecState := { s with outstanding := s.outstanding + 1 }

def endOp (s : ExecState) : Except ExecStop ExecState :=
  if s.outstanding = 0 then .error .endOp
  else .ok { s with outstanding := s.outstanding - 1 }

/-- `iunlockput(ip); end_op();` -/
def release (s : ExecState) (ip : Nat) : Except ExecStop ExecState := do
  let fs ← onFiles (s.fs.iunlockput ip)
  endOp { s with fs := fs }

/-- `if(pgdir) freevm(pgdir);` -/
def freeNew (ld : Linkage) (km : Kmem) : Option Pgdir → Except ExecStop Kmem
  | none => .ok km
  | some d => onKernel (freevm ld km (some d))

/-- `if(ip){ iunlockput(ip); end_op(); }` -/
def leave (s : ExecState) : Option Nat → Except ExecStop ExecState
  | none => .ok s
  | some ip => s.release ip

/-- The label `bad`, with the pages taken so far. -/
def bad (ld : Linkage) (s : ExecState) (km : Kmem) (pgdir : Option Pgdir) (ip : Option Nat) :
    Except ExecStop (Int × ExecState) := do
  let km ← freeNew ld km pgdir
  let s ← leave { s with kernel := s.kernel.setKmem km } ip
  .ok (-1, s)

end ExecState

/-- The program name, for debugging: what follows the last slash, cut to 15 characters. -/
def progName (path : List Char) : String :=
  String.ofList ((path.reverse.takeWhile fun c => c != '/').reverse.take 15)

/-- `exec(path, argv)` in process `p`; `content` is what `readi` delivers of each inode. -/
def execCall (ld : Linkage) (content : Nat → Readi) (path : List Char) (argv : List (List UInt8))
    (s : ExecState) (p : Slot) : Except ExecStop (Int × ExecState) := do
  let s := s.beginOp
  let (found, fs) ← onFiles (s.fs.namei p path)
  let s := { s with fs := fs }
  match found with
  | none =>
      let s ← s.endOp
      .ok (-1, s)
  | some ip =>
      let fs ← onFiles (s.fs.ilock ip)
      let s := { s with fs := fs }
      -- Check ELF header
      match content ip 0 52 with
      | none => s.bad ld s.kernel.kmem none (some ip)
      | some bytes =>
          let elf := Elfhdr.parse bytes
          if elf.magic ≠ elfMagic then s.bad ld s.kernel.kmem none (some ip)
          else
            let (made, km) ← onKernel (setupkvm ld s.kernel.kmem)
            match made with
            | none => s.bad ld km none (some ip)
            | some d =>
                -- Load program into memory.
                let (loaded, km, d) ← onKernel (execLoad ld (content ip) elf.phnum elf.phoff 0 km d)
                match loaded with
                | none => s.bad ld km (some d) (some ip)
                | some sz =>
                    let s ← s.release ip
                    let (stacked, km, d) ← onKernel (execStack (s.kernel.nullPte p) ld argv km d)
                    match stacked with
                    | none => s.bad ld km (some d) none
                    | some sp =>
                        let (value, kernel) ←
                          onKernel (execCommit ld s.kernel p (progName path) elf.entry sz sp km d)
                        .ok (value, { s with kernel := kernel })

/-! ## References and locks in flight -/

namespace Fs

variable {P : Type} {s t u : Fs P} {i : Nat} {held : List Nat} {lock : Option Nat}

/-- Between `s` and `t` the call has taken a reference for each entry of `held`, and a lock. -/
structure InFlight (s t : Fs P) (held : List Nat) (lock : Option Nat) : Prop where
  ref : ∀ j, t.ref j = s.ref j + held.count j
  locked : ∀ j, t.locked j = (s.locked j || decide (lock = some j))
  fresh : ∀ j, lock = some j → s.locked j = false

theorem InFlight.refl (s : Fs P) : InFlight s s [] none :=
  ⟨fun _ => rfl, fun j => by simp, fun _ none => by cases none⟩

theorem InFlight.idup (flight : InFlight s t held lock) (i : Nat) :
    InFlight s (t.idup i) (i :: held) lock where
  ref j := by
    change Function.update t.ref i (t.ref i + 1) j = _
    by_cases same : j = i
    · subst same
      rw [Function.update_self, flight.ref, List.count_cons_self, Nat.add_assoc]
    · rw [Function.update_of_ne same, flight.ref, List.count_cons_of_ne (Ne.symm same)]
  locked := flight.locked
  fresh := flight.fresh

/-- A recycled entry of the cache gets its first reference. -/
theorem InFlight.iget (flight : InFlight s t held lock) (ran : t.iget i = .ok u) :
    InFlight s u (i :: held) lock := by
  have counted := flight.idup i
  unfold Fs.iget at ran
  split at ran
  · cases ran
    exact ⟨counted.ref, counted.locked, counted.fresh⟩
  · next none =>
      split at ran
      · cases ran
        refine ⟨fun j => ?_, counted.locked, counted.fresh⟩
        rw [← counted.ref j]
        have zero : t.ref i = 0 := Nat.eq_zero_of_not_pos none
        change Function.update t.ref i 1 j = Function.update t.ref i (t.ref i + 1) j
        rw [zero]
      · cases ran

theorem InFlight.ilock (flight : InFlight s t held none) (ran : t.ilock i = .ok u) :
    InFlight s u held (some i) := by
  unfold Fs.ilock at ran
  split at ran
  · cases ran
  split at ran
  · cases ran
  next unlocked =>
  split at ran
  · cases ran
  · cases ran
    have before (j : Nat) : t.locked j = s.locked j := by
      rw [flight.locked j]
      simp
    refine ⟨flight.ref, fun j => ?_, fun j same => ?_⟩
    · change Function.update t.locked i true j = _
      by_cases same : j = i
      · subst same
        rw [Function.update_self]
        simp
      · rw [Function.update_of_ne same, before]
        simp [Ne.symm same]
    · cases same
      rw [← before]
      simpa using unlocked

/-- The lock and the reference are given back. -/
theorem InFlight.iunlockput (flight : InFlight s t held (some i)) (member : i ∈ held)
    (ran : t.iunlockput i = .ok u) : InFlight s u (held.erase i) none := by
  obtain ⟨v, unlocked, put⟩ : ∃ v, t.iunlock i = .ok v ∧ v.iput i = .ok u := by
    cases opened : t.iunlock i with
    | error reason =>
        rw [Fs.iunlockput, opened] at ran
        cases ran
    | ok v =>
        rw [Fs.iunlockput, opened] at ran
        exact ⟨v, rfl, ran⟩
  have opened : v.ref = t.ref ∧ v.locked = Function.update t.locked i false := by
    unfold Fs.iunlock at unlocked
    split at unlocked
    · cases unlocked
    · cases unlocked
      exact ⟨rfl, rfl⟩
  have closed : u.ref = Function.update v.ref i (v.ref i - 1) ∧ u.locked = v.locked := by
    unfold Fs.iput at put
    split at put
    · cases put
    · cases put
      split
      · exact ⟨rfl, rfl⟩
      · exact ⟨rfl, rfl⟩
  have counted : 0 < held.count i := List.count_pos_iff.mpr member
  refine ⟨fun j => ?_, fun j => ?_, fun _ none => by cases none⟩
  · rw [closed.1, opened.1]
    by_cases same : j = i
    · subst same
      rw [Function.update_self, flight.ref, List.count_erase_self]
      omega
    · rw [Function.update_of_ne same, flight.ref, List.count_erase_of_ne same]
  · rw [closed.2, opened.2]
    by_cases same : j = i
    · subst same
      rw [Function.update_self, flight.fresh j rfl]
      rfl
    · rw [Function.update_of_ne same, flight.locked]
      simp [Ne.symm same]

variable {p : P}

/-- A walk that returns holds a reference to what it has found, and no lock. -/
theorem InFlight.namexLoop {ip : Nat} {names : List Name} {found : Option (Nat × Name)}
    (flight : InFlight s t [ip] none) (ran : namexLoop false t ip names = .ok (found, u)) :
    InFlight s u (found.map Prod.fst).toList none := by
  induction names generalizing t ip with
  | nil =>
      cases ran
      exact flight
  | cons name rest ih =>
      obtain ⟨v, locked, ran⟩ := bind_eq_ok.mp ran
      have inside := flight.ilock locked
      have left {w x : Fs P} (now : InFlight s w [ip] (some ip)) (put : w.iunlockput ip = .ok x) :
          InFlight s x [] none := by
        have released := now.iunlockput (List.mem_singleton_self ip) put
        rw [List.erase_cons_head] at released
        exact released
      dsimp only at ran
      split at ran
      · obtain ⟨w, put, ran⟩ := bind_eq_ok.mp ran
        cases ran
        exact left inside put
      rw [if_neg (by simp)] at ran
      obtain ⟨⟨entry, w⟩, looked, ran⟩ := bind_eq_ok.mp ran
      unfold Fs.dirlookup at looked
      split at looked
      · cases looked
      split at looked
      · cases looked
        obtain ⟨x, put, ran⟩ := bind_eq_ok.mp ran
        cases ran
        exact left inside put
      · next off _ =>
        obtain ⟨x, got, looked⟩ := bind_eq_ok.mp looked
        cases looked
        obtain ⟨y, put, ran⟩ := bind_eq_ok.mp ran
        refine ih ?_ ran
        have both := inside.iget got
        have released := both.iunlockput (by simp) put
        refine ⟨fun j => ?_, released.locked, released.fresh⟩
        have swapped := List.Perm.swap ip ((v.node ip).entry off).inum []
        rw [released.ref j, (swapped.erase ip).count_eq j, List.erase_cons_head]

theorem InFlight.namei {path : List Char} {found : Option Nat}
    (ran : s.namei p path = .ok (found, t)) : InFlight s t found.toList none := by
  obtain ⟨⟨place, u⟩, walked, ran⟩ := bind_eq_ok.mp ran
  cases ran
  obtain ⟨⟨ip, v⟩, started, walked⟩ := bind_eq_ok.mp walked
  have begun : InFlight s v [ip] none := by
    unfold namexStart at started
    split at started
    · obtain ⟨w, got, started⟩ := bind_eq_ok.mp started
      cases started
      exact (InFlight.refl s).iget got
    · split at started
      · cases started
        exact (InFlight.refl s).idup ip
      · cases started
  exact begun.namexLoop walked

end Fs

/-! ## A call that returns -/

theorem onKernel_ok {α : Type} {result : Kern α} {a : α} : onKernel result = .ok a ↔ result = .ok a := by
  unfold onKernel
  cases result with
  | error reason => simp [Except.mapError]
  | ok b => simp [Except.mapError]

theorem onFiles_ok {α : Type} {result : Except Fault α} {a : α} :
    onFiles result = .ok a ↔ result = .ok a := by
  unfold onFiles
  cases result with
  | error reason => simp [Except.mapError]
  | ok b => simp [Except.mapError]

namespace ExecState

variable {ld : Linkage} {s s₀ t : ExecState} {ip : Option Nat} {value : Int}

/-- Since `s₀` the call has locked and referenced the inode `ip`, within a transaction. -/
structure Busy (s₀ s : ExecState) (ip : Option Nat) : Prop where
  kernel : s.kernel = s₀.kernel
  fs : s₀.fs.InFlight s.fs ip.toList ip
  outstanding : s.outstanding = s₀.outstanding + ip.toList.length

theorem Busy.endOp {u : ExecState} (kernel : s.kernel = s₀.kernel)
    (fs : s₀.fs.InFlight s.fs [] none) (outstanding : s.outstanding = s₀.outstanding + 1)
    (ran : s.endOp = .ok u) : Busy s₀ u none := by
  unfold ExecState.endOp at ran
  split at ran
  · cases ran
  · cases ran
    refine ⟨kernel, fs, ?_⟩
    change s.outstanding - 1 = s₀.outstanding + 0
    omega

theorem Busy.release {i : Nat} {u : ExecState} (busy : Busy s₀ s (some i))
    (ran : s.release i = .ok u) : Busy s₀ u none := by
  obtain ⟨fs, put, ended⟩ := bind_eq_ok.mp ran
  have back := busy.fs.iunlockput (List.mem_singleton_self i) (onFiles_ok.mp put)
  rw [Option.toList_some, List.erase_cons_head] at back
  exact Busy.endOp (s := { s with fs := fs }) busy.kernel back busy.outstanding ended

/-- The label `bad` gives back the directory, the inode and the transaction. -/
theorem Busy.bad {km : Kmem} {pgdir : Option Pgdir} (busy : Busy s₀ s ip)
    (ran : s.bad ld km pgdir ip = .ok (value, t)) :
    value = -1 ∧ (pgdir = none → t.kernel = s₀.kernel.setKmem km) ∧
    (∀ d, pgdir = some d → execBad ld s₀.kernel km d = .ok (-1, t.kernel)) ∧
    s₀.fs.InFlight t.fs [] none ∧ t.outstanding = s₀.outstanding := by
  obtain ⟨km', freed, ran⟩ := bind_eq_ok.mp ran
  obtain ⟨u, left, ran⟩ := bind_eq_ok.mp ran
  cases ran
  have kernel : s.kernel.setKmem km' = s₀.kernel.setKmem km' := by rw [busy.kernel]
  -- leaving does not touch the memory
  have now : Busy { s₀ with kernel := s₀.kernel.setKmem km' }
      { s with kernel := s.kernel.setKmem km' } ip := ⟨kernel, busy.fs, busy.outstanding⟩
  have done : Busy { s₀ with kernel := s₀.kernel.setKmem km' } t none := by
    cases ip with
    | none =>
        cases left
        exact now
    | some i => exact now.release left
  refine ⟨rfl, ?_, ?_, done.fs, done.outstanding⟩
  · rintro rfl
    cases freed
    exact done.kernel
  · rintro d rfl
    rw [done.kernel]
    exact Kern.bind_eq_ok.mpr ⟨km', onKernel_ok.mp freed, rfl⟩

end ExecState

variable {ld : Linkage} {content : Nat → Readi} {path : List Char} {argv : List (List UInt8)}
  {s t : ExecState} {p : Slot} {value : Int}

/--
A call that returns has worked on the memory as `exec` without a file system
does, and has given back its references, its lock and its transaction.
-/
theorem execCall_exec (ran : execCall ld content path argv s p = .ok (value, t)) :
    (∃ file, exec ld file (progName path) argv s.kernel p = .ok (value, t.kernel) ∧
        ∀ read, file = some read → ∃ ip fs, s.fs.namei p path = .ok (some ip, fs) ∧
          read = content ip) ∧
      s.fs.InFlight t.fs [] none ∧ t.outstanding = s.outstanding := by
  obtain ⟨⟨found, fs⟩, walked, ran⟩ := bind_eq_ok.mp ran
  have flight := Fs.InFlight.namei (onFiles_ok.mp walked)
  cases found with
  | none =>
      obtain ⟨u, ended, ran⟩ := bind_eq_ok.mp ran
      cases ran
      have done : s.Busy t none :=
        ExecState.Busy.endOp (s := { s.beginOp with fs := fs }) rfl flight rfl ended
      refine ⟨⟨none, ?_, nofun⟩, done.fs, done.outstanding⟩
      rw [done.kernel]
      rfl
  | some ip =>
      obtain ⟨fs₁, locked, ran⟩ := bind_eq_ok.mp ran
      have busy : s.Busy { s.beginOp with fs := fs₁ } (some ip) :=
        ⟨rfl, flight.ilock (onFiles_ok.mp locked), rfl⟩
      -- what is left has to be compared with `exec` on the content of the inode
      suffices goal : exec ld (some (content ip)) (progName path) argv s.kernel p =
          .ok (value, t.kernel) ∧ s.fs.InFlight t.fs [] none ∧ t.outstanding = s.outstanding from
        ⟨⟨_, goal.1, fun read same => ⟨ip, fs, onFiles_ok.mp walked, (Option.some.inj same).symm⟩⟩,
          goal.2⟩
      unfold exec execReading
      cases elf : content ip 0 52 with
      | none =>
          simp only [elf] at ran ⊢
          obtain ⟨rfl, none, _, rest⟩ := busy.bad ran
          rw [none rfl]
          exact ⟨rfl, rest⟩
      | some bytes =>
          simp only [elf] at ran ⊢
          split at ran
          · next notMagic =>
              obtain ⟨rfl, none, _, rest⟩ := busy.bad ran
              rw [none rfl, if_pos notMagic]
              exact ⟨rfl, rest⟩
          next magic =>
          rw [if_neg magic]
          obtain ⟨⟨dir, km₀⟩, made, ran⟩ := bind_eq_ok.mp ran
          have setup := onKernel_ok.mp made
          change setupkvm ld s.kernel.kmem = _ at setup
          cases dir with
          | none =>
              obtain ⟨rfl, none, _, rest⟩ := busy.bad ran
              rw [none rfl]
              exact ⟨Kern.bind_eq_ok.mpr ⟨_, setup, rfl⟩, rest⟩
          | some d₀ =>
              obtain ⟨⟨size, km₁, d₁⟩, loading, ran⟩ := bind_eq_ok.mp ran
              have load := onKernel_ok.mp loading
              cases size with
              | none =>
                  obtain ⟨rfl, _, gone, rest⟩ := busy.bad ran
                  exact ⟨Kern.bind_eq_ok.mpr ⟨_, setup, Kern.bind_eq_ok.mpr ⟨_, load, gone d₁ rfl⟩⟩,
                    rest⟩
              | some sz =>
                  obtain ⟨u, released, ran⟩ := bind_eq_ok.mp ran
                  have idle := busy.release released
                  obtain ⟨⟨stack, km₂, d₂⟩, stacking, ran⟩ := bind_eq_ok.mp ran
                  have pushed := onKernel_ok.mp stacking
                  rw [idle.kernel] at pushed
                  cases stack with
                  | none =>
                      obtain ⟨rfl, _, gone, rest⟩ := idle.bad ran
                      exact ⟨Kern.bind_eq_ok.mpr ⟨_, setup, Kern.bind_eq_ok.mpr ⟨_, load,
                        Kern.bind_eq_ok.mpr ⟨_, pushed, gone d₂ rfl⟩⟩⟩, rest⟩
                  | some sp =>
                      obtain ⟨⟨result, kernel⟩, committed, ran⟩ := bind_eq_ok.mp ran
                      have commit := onKernel_ok.mp committed
                      rw [idle.kernel] at commit
                      cases ran
                      exact ⟨Kern.bind_eq_ok.mpr ⟨_, setup, Kern.bind_eq_ok.mpr ⟨_, load,
                        Kern.bind_eq_ok.mpr ⟨_, pushed, commit⟩⟩⟩, idle.fs, idle.outstanding⟩

/--
For every path, every content of the files, every argument vector and every
free list: a call of `exec` that returns -1, and neither stores through the null
pointer nor faults at it, leaves every process as it was, the same pages free
and every other page with its content, and has given back its references and
its lock and ended its transaction.
-/
theorem exec_all_or_nothing (free : FreeOk ld s.kernel.kmem)
    (careful : ∀ ip fs, s.fs.namei p path = .ok (some ip, fs) →
      ¬ExecStrays ld (some (content ip)) (progName path) argv s.kernel p)
    (ran : execCall ld content path argv s p = .ok (-1, t)) :
    (∀ q, t.kernel.proc q = s.kernel.proc q) ∧
    (∀ frame, frame ∈ t.kernel.kmem.freelist ↔ frame ∈ s.kernel.kmem.freelist) ∧
    (∀ frame, frame ∉ s.kernel.kmem.freelist →
      t.kernel.kmem.mem frame = s.kernel.kmem.mem frame) ∧
    (∀ i, t.fs.ref i = s.fs.ref i) ∧ (∀ i, t.fs.locked i = s.fs.locked i) ∧
    t.outstanding = s.outstanding := by
  obtain ⟨⟨file, called, found⟩, flight, outstanding⟩ := execCall_exec ran
  have quiet : ¬ExecStrays ld file (progName path) argv s.kernel p := by
    rintro ⟨word, reads⟩
    cases file with
    | none => cases reads
    | some read =>
        obtain ⟨ip, fs, walked, rfl⟩ := found read rfl
        exact careful ip fs walked ⟨word, reads⟩
  rcases exec_cases free quiet called with ⟨_, ⟨km, kernel⟩, same, kept⟩ | ⟨zero, _⟩
  · refine ⟨fun q => ?_, fun frame => ?_, kept, flight.ref, fun i => ?_, outstanding⟩
    · rw [kernel]
      rfl
    · rw [← Multiset.mem_coe, same, Multiset.mem_coe]
    · rw [flight.locked i]
      simp
  · cases zero

/-- A root directory with one program, and a process in it. -/
def sampleFiles : Fs Slot where
  ninodes := 200
  node i :=
    if i = 1 then ⟨.dir, 0, 0, 1, [⟨2, ['a']⟩]⟩
    else if i = 2 then ⟨.file, 0, 0, 1, []⟩
    else ⟨.free, 0, 0, 0, []⟩
  ref i := if i = 1 then 1 else 0
  valid i := i == 1
  locked _ := false
  cwd _ := some 1
  ofile _ _ := none

/-- A program that is found and begins with the magic number, when no page is free. -/
theorem exec_all_or_nothing_full : ∃ t,
    execCall sampleLinkage (fun _ _ _ => some [0x7f, 0x45, 0x4c, 0x46]) ['a'] []
      ⟨Kernel.blank (sampleKmem 0), sampleFiles, 0⟩ 0 = .ok (-1, t) ∧
    t.fs.ref 2 = 0 ∧ t.fs.locked 2 = false ∧ t.outstanding = 0 := by
  obtain ⟨t, ran⟩ : ∃ t,
      execCall sampleLinkage (fun _ _ _ => some [0x7f, 0x45, 0x4c, 0x46]) ['a'] []
        ⟨Kernel.blank (sampleKmem 0), sampleFiles, 0⟩ 0 = .ok (-1, t) := ⟨_, rfl⟩
  obtain ⟨_, _, _, refs, locks, outstanding⟩ :=
    exec_all_or_nothing (sampleKmem_free (by decide)) (fun _ _ _ strays => by
      cases strays.2) ran
  exact ⟨t, ran, refs 2, locks 2, outstanding⟩

/-- The word at address 0 of the first process names the page table of its new stack; the call
returns -1 for an argument of four megabytes, and the page of the stack is lost. -/
theorem exec_loses_page : ∃ s t : ExecState, (system sampleLinkage).Reachable s.kernel ∧
    execCall sampleLinkage (fun _ => emptyProgram) ['a'] [longArgument] s 0 = .ok (-1, t) ∧
    ¬∀ frame, frame ∈ t.kernel.kmem.freelist ↔ frame ∈ s.kernel.kmem.freelist := by
  obtain ⟨s, own, started⟩ := sample_started (by decide : 67 ≤ 0x800)
  obtain ⟨pte, zero⟩ := Option.isSome_iff_exists.mp
    ((started.layout.exact 0 (by decide)).mpr (.inl (by decide)))
  obtain ⟨k, d, km, km₁, d', km', page, step, free, _, made, stacked, freed, taken, lost⟩ :=
    user_longArgument (Inv.reachable started.reached).memory.freeOk started.free started.own zero
      started.enough
  obtain ⟨fs, fs₁, fs₂, walked, locked, put⟩ : ∃ fs fs₁ fs₂,
      sampleFiles.namei 0 ['a'] = .ok (some 2, fs) ∧ fs.ilock 2 = .ok fs₁ ∧
        fs₁.iunlockput 2 = .ok fs₂ := ⟨_, _, _, rfl, rfl, rfl⟩
  refine ⟨⟨k, sampleFiles, 0⟩, ⟨k.setKmem km', fs₂, 0⟩, started.reached.step step, ?_, fun same =>
    lost ((same page).mpr taken)⟩
  refine bind_eq_ok.mpr ⟨_, onFiles_ok.mpr walked, bind_eq_ok.mpr ⟨_, onFiles_ok.mpr locked, ?_⟩⟩
  dsimp only
  rw [emptyProgram_header]
  dsimp only
  rw [elfHeader_parse, if_neg (not_not.mpr rfl)]
  refine bind_eq_ok.mpr ⟨_, onKernel_ok.mpr made, bind_eq_ok.mpr ⟨(some 0, km, d), rfl, ?_⟩⟩
  refine bind_eq_ok.mpr ⟨⟨k, fs₂, 0⟩, bind_eq_ok.mpr ⟨_, onFiles_ok.mpr put, rfl⟩, ?_⟩
  exact bind_eq_ok.mpr ⟨_, onKernel_ok.mpr stacked, bind_eq_ok.mpr ⟨_, onKernel_ok.mpr freed, rfl⟩⟩

end SlabStudy.Xv6
