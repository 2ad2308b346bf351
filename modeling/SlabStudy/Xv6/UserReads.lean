import SlabStudy.Library.Traced
import SlabStudy.Xv6.Exec
import SlabStudy.Xv6.Fetch

/-!
# The addresses that argument fetching reads

The functions of `syscall.c` once more, and the loop of `sys_exec` over the
argument vector, each with the addresses it loads from.  Nothing is assumed
about the saved stack pointer, the words it points to or the strings: every
address is checked against `STACKBASE` before it is loaded from, in 32-bit
arithmetic that does not wrap once the check has passed.
-/

namespace SlabStudy.Xv6

open SlabStudy.Library

/-! ## syscall.c, with its loads -/

/-- A computation of the kernel, with the user addresses it loads from. -/
abbrev Loading (α : Type) : Type := Traced Panic Nat α

def loadLoading (ld : Linkage) (s : Kernel) (p : Slot) (va : Nat) : Loading (UInt8 × Kernel) := do
  Traced.report va
  Traced.quiet (load ld s p va)

def loadIntLoading (ld : Linkage) (s : Kernel) (p : Slot) (addr : Nat) :
    Loading (Nat × Kernel) := do
  let (b0, s) ← loadLoading ld s p addr
  let (b1, s) ← loadLoading ld s p (addr + 1)
  let (b2, s) ← loadLoading ld s p (addr + 2)
  let (b3, s) ← loadLoading ld s p (addr + 3)
  pure (b0.toNat + 256 * b1.toNat + 65536 * b2.toNat + 16777216 * b3.toNat, s)

def fetchintLoading (ld : Linkage) (s : Kernel) (p : Slot) (addr : Nat) :
    Loading (Option Nat × Kernel) :=
  if stackbase ≤ addr ∨ stackbase < (addr + 4) % 2 ^ 32 then pure (none, s)
  else do
    let (word, s) ← loadIntLoading ld s p addr
    pure (some word, s)

def fetchstrLoopLoading (ld : Linkage) (p : Slot) (start : Nat) :
    Nat → Nat → Kernel → Loading (Option Nat × Kernel)
  | 0, _, s => pure (none, s)
  | left + 1, cursor, s => do
      let (byte, s) ← loadLoading ld s p cursor
      if byte = 0 then pure (some (cursor - start), s)
      else fetchstrLoopLoading ld p start left (cursor + 1) s

def fetchstrLoading (ld : Linkage) (s : Kernel) (p : Slot) (addr : Nat) :
    Loading (Option Nat × Kernel) :=
  if stackbase ≤ addr then pure (none, s)
  else fetchstrLoopLoading ld p addr (stackbase - addr) addr s

def argintLoading (ld : Linkage) (s : Kernel) (p : Slot) (n : Int) : Loading (Option Nat × Kernel) :=
  fetchintLoading ld s p (argAddr s p n)

def argptrLoading (ld : Linkage) (s : Kernel) (p : Slot) (n size : Int) :
    Loading (Option Nat × Kernel) := do
  let (word, s) ← argintLoading ld s p n
  match word with
  | none => pure (none, s)
  | some i =>
      if size < 0 ∨ stackbase ≤ i ∨ stackbase < uint (i + size) then pure (none, s)
      else pure (some i, s)

def argstrLoading (ld : Linkage) (s : Kernel) (p : Slot) (n : Int) :
    Loading (Option (Nat × Nat) × Kernel) := do
  let (word, s) ← argintLoading ld s p n
  match word with
  | none => pure (none, s)
  | some addr =>
      let (length, s) ← fetchstrLoading ld s p addr
      pure (length.map fun length => (addr, length), s)

/-! ## sysfile.c -/

/-- The loop of `sys_exec` from index `i` on; strings are kept as pointer and length. -/
def sysExecLoop (ld : Linkage) (p : Slot) (uargv : Nat) :
    Nat → Nat → List (Nat × Nat) → Kernel → Loading (Option (List (Nat × Nat)) × Kernel)
  | 0, _, _, s => pure (none, s)
  | left + 1, i, argv, s => do
      let (uarg, s) ← fetchintLoading ld s p ((uargv + 4 * i) % 2 ^ 32)
      match uarg with
      | none => pure (none, s)
      | some uarg =>
          if uarg = 0 then pure (some argv, s)
          else do
            let (length, s) ← fetchstrLoading ld s p uarg
            match length with
            | none => pure (none, s)
            | some length => sysExecLoop ld p uargv left (i + 1) (argv ++ [(uarg, length)]) s

/-- `sys_exec` up to its call of `exec`: the path and the argument vector. -/
def sysExecLoading (ld : Linkage) (s : Kernel) (p : Slot) :
    Loading (Option ((Nat × Nat) × List (Nat × Nat)) × Kernel) := do
  let (path, s) ← argstrLoading ld s p 0
  match path with
  | none => pure (none, s)
  | some path =>
      let (uargv, s) ← argintLoading ld s p 1
      match uargv with
      | none => pure (none, s)
      | some uargv =>
          let (argv, s) ← sysExecLoop ld p uargv maxarg 0 [] s
          pure (argv.map fun argv => (path, argv), s)

/-! ## The loop of fetchstr as it is written -/

/--
`for(s = *pp; s < ep; s++)` with at most `fuel` tests of its condition; the
outer `none` says that they were not enough.
-/
def fetchstrScan (ld : Linkage) (p : Slot) (start : Nat) :
    Nat → Nat → Kernel → Loading (Option (Option Nat × Kernel))
  | 0, _, _ => pure none
  | fuel + 1, cursor, s =>
      if cursor < stackbase then do
        let (byte, s) ← loadLoading ld s p cursor
        if byte = 0 then pure (some (some (cursor - start), s))
        else fetchstrScan ld p start fuel ((cursor + 1) % 2 ^ 32) s
      else pure (some (none, s))

variable {ld : Linkage} {s s' : Kernel} {p : Slot}

/-! ## The results are those of the functions -/

theorem loadLoading_result (va : Nat) : (loadLoading ld s p va).result = load ld s p va := by
  unfold loadLoading
  rw [Traced.bind_result]
  rfl

theorem loadIntLoading_result (addr : Nat) :
    (loadIntLoading ld s p addr).result = loadInt ld s p addr := by
  unfold loadIntLoading loadInt
  simp only [Traced.bind_result, loadLoading_result]
  rfl

theorem fetchintLoading_result (addr : Nat) :
    (fetchintLoading ld s p addr).result = fetchint ld s p addr := by
  unfold fetchintLoading fetchint
  split
  · rfl
  · rw [Traced.bind_result, loadIntLoading_result]
    rfl

theorem fetchstrLoopLoading_result (start left cursor : Nat) :
    (fetchstrLoopLoading ld p start left cursor s).result =
      fetchstrLoop ld p start left cursor s := by
  induction left generalizing cursor s with
  | zero => rfl
  | succ left ih =>
      unfold fetchstrLoopLoading fetchstrLoop
      rw [Traced.bind_result, loadLoading_result]
      refine congrArg _ (funext fun r => ?_)
      dsimp only
      split
      · rfl
      · exact ih _

theorem fetchstrLoading_result (addr : Nat) :
    (fetchstrLoading ld s p addr).result = fetchstr ld s p addr := by
  unfold fetchstrLoading fetchstr
  split
  · rfl
  · exact fetchstrLoopLoading_result _ _ _

theorem argptrLoading_result (n size : Int) :
    (argptrLoading ld s p n size).result = argptr ld s p n size := by
  unfold argptrLoading argptr argintLoading argint
  rw [Traced.bind_result, fetchintLoading_result]
  refine congrArg _ (funext fun r => ?_)
  obtain ⟨word, t⟩ := r
  cases word with
  | none => rfl
  | some word =>
      dsimp only
      split
      · rfl
      · rfl

theorem argstrLoading_result (n : Int) :
    (argstrLoading ld s p n).result = argstr ld s p n := by
  unfold argstrLoading argstr argintLoading argint
  rw [Traced.bind_result, fetchintLoading_result]
  refine congrArg _ (funext fun r => ?_)
  obtain ⟨word, t⟩ := r
  cases word with
  | none => rfl
  | some addr =>
      dsimp only
      rw [Traced.bind_result, fetchstrLoading_result]
      rfl

/-! ## The loads stay below KERNBASE -/

/-- Every address loaded from is below `KERNBASE`. -/
abbrev BelowKernel {α : Type} (m : Loading α) : Prop := m.Within fun va => va < kernbase

theorem loadLoading_below {va : Nat} (low : va < kernbase) :
    BelowKernel (loadLoading ld s p va) := by
  have first : BelowKernel (Traced.report va : Loading Unit) := Traced.within_report low
  exact first.bind fun _ _ => Traced.within_quiet _

theorem loadIntLoading_below {addr : Nat} (low : addr + 3 < kernbase) :
    BelowKernel (loadIntLoading ld s p addr) := by
  unfold loadIntLoading
  refine (loadLoading_below (by omega)).bind fun r _ => ?_
  refine (loadLoading_below (by omega)).bind fun r _ => ?_
  refine (loadLoading_below (by omega)).bind fun r _ => ?_
  refine (loadLoading_below (by omega)).bind fun r _ => ?_
  exact Traced.within_pure _

theorem fetchintLoading_below (addr : Nat) : BelowKernel (fetchintLoading ld s p addr) := by
  unfold fetchintLoading
  split
  · exact Traced.within_pure _
  · next accepted =>
      refine (loadIntLoading_below ?_).bind fun r _ => Traced.within_pure _
      change ¬ (2147483647 ≤ addr ∨ 2147483647 < (addr + 4) % 4294967296) at accepted
      change addr + 3 < 2147483648
      omega

theorem fetchstrLoopLoading_below {start left cursor : Nat} (inside : cursor + left ≤ stackbase) :
    BelowKernel (fetchstrLoopLoading ld p start left cursor s) := by
  induction left generalizing cursor s with
  | zero => exact Traced.within_pure _
  | succ left ih =>
      have low : cursor < kernbase := Nat.lt_of_lt_of_le (by omega : cursor < stackbase) (by decide)
      unfold fetchstrLoopLoading
      refine (loadLoading_below low).bind fun r _ => ?_
      dsimp only
      split
      · exact Traced.within_pure _
      · exact ih (by omega)

theorem fetchstrLoading_below (addr : Nat) : BelowKernel (fetchstrLoading ld s p addr) := by
  unfold fetchstrLoading
  split
  · exact Traced.within_pure _
  · exact fetchstrLoopLoading_below (by omega)

theorem argptrLoading_below (n size : Int) : BelowKernel (argptrLoading ld s p n size) := by
  unfold argptrLoading
  refine (fetchintLoading_below _).bind fun r _ => ?_
  obtain ⟨word, t⟩ := r
  cases word with
  | none => exact Traced.within_pure _
  | some word =>
      dsimp only
      split
      · exact Traced.within_pure _
      · exact Traced.within_pure _

theorem argstrLoading_below (n : Int) : BelowKernel (argstrLoading ld s p n) := by
  unfold argstrLoading
  refine (fetchintLoading_below _).bind fun r _ => ?_
  obtain ⟨word, t⟩ := r
  cases word with
  | none => exact Traced.within_pure _
  | some addr => exact (fetchstrLoading_below addr).bind fun _ _ => Traced.within_pure _

theorem sysExecLoop_below (uargv left i : Nat) (argv : List (Nat × Nat)) :
    BelowKernel (sysExecLoop ld p uargv left i argv s) := by
  induction left generalizing i argv s with
  | zero => exact Traced.within_pure _
  | succ left ih =>
      unfold sysExecLoop
      refine (fetchintLoading_below _).bind fun r _ => ?_
      obtain ⟨uarg, t⟩ := r
      cases uarg with
      | none => exact Traced.within_pure _
      | some uarg =>
          dsimp only
          split
          · exact Traced.within_pure _
          · refine (fetchstrLoading_below uarg).bind fun r _ => ?_
            obtain ⟨length, u⟩ := r
            cases length with
            | none => exact Traced.within_pure _
            | some length => exact ih _ _

theorem sysExecLoading_below : BelowKernel (sysExecLoading ld s p) := by
  unfold sysExecLoading
  refine (argstrLoading_below 0).bind fun r _ => ?_
  obtain ⟨path, t⟩ := r
  cases path with
  | none => exact Traced.within_pure _
  | some path =>
      refine (fetchintLoading_below _).bind fun r _ => ?_
      obtain ⟨uargv, u⟩ := r
      cases uargv with
      | none => exact Traced.within_pure _
      | some uargv => exact (sysExecLoop_below _ _ _ _).bind fun _ _ => Traced.within_pure _

/-! ## The ranges that are handed over -/

theorem fetchint_range {addr word : Nat} (ran : fetchint ld s p addr = .ok (some word, s')) :
    addr + 4 ≤ stackbase := by
  unfold fetchint at ran
  split at ran
  · cases ran
  · next accepted =>
      change ¬ (2147483647 ≤ addr ∨ 2147483647 < (addr + 4) % 4294967296) at accepted
      change addr + 4 ≤ 2147483647
      omega

theorem fetchstrLoop_length {start left cursor length : Nat} (behind : start ≤ cursor)
    (ran : fetchstrLoop ld p start left cursor s = .ok (some length, s')) :
    start + length < cursor + left := by
  induction left generalizing cursor s with
  | zero => cases ran
  | succ left ih =>
      obtain ⟨⟨byte, t⟩, _, rest⟩ := Kern.bind_eq_ok.mp ran
      dsimp only at rest
      split at rest
      · cases rest
        omega
      · have later := ih (by omega) rest
        omega

/-- A string that is accepted ends below `STACKBASE`, with its NUL. -/
theorem fetchstr_length {addr length : Nat}
    (ran : fetchstr ld s p addr = .ok (some length, s')) : addr + length < stackbase := by
  unfold fetchstr at ran
  split at ran
  · cases ran
  · next low =>
      have bound := fetchstrLoop_length (Nat.le_refl _) ran
      omega

/-- A block that is accepted ends below `STACKBASE`; the sum does not wrap. -/
theorem argptr_range {n size : Int} {pointer : Nat} (bounded : size < 2 ^ 31)
    (ran : argptr ld s p n size = .ok (some pointer, s')) :
    0 ≤ size ∧ pointer < stackbase ∧ pointer + size.toNat ≤ stackbase := by
  obtain ⟨⟨word, t⟩, fetched, rest⟩ := Kern.bind_eq_ok.mp ran
  cases word with
  | none => cases rest
  | some word =>
      dsimp only at rest
      split at rest
      · cases rest
      · next accepted =>
          cases rest
          unfold uint at accepted
          change ¬ (size < 0 ∨ 2147483647 ≤ pointer ∨
            2147483647 < (((pointer : Int) + size) % 4294967296).toNat) at accepted
          change 0 ≤ size ∧ pointer < 2147483647 ∧ pointer + size.toNat ≤ 2147483647
          omega

theorem argstr_length {n : Int} {addr length : Nat}
    (ran : argstr ld s p n = .ok (some (addr, length), s')) : addr + length < stackbase := by
  obtain ⟨⟨word, t⟩, fetched, rest⟩ := Kern.bind_eq_ok.mp ran
  cases word with
  | none => cases rest
  | some word =>
      obtain ⟨⟨found, u⟩, scanned, last⟩ := Kern.bind_eq_ok.mp rest
      cases found with
      | none => cases last
      | some found =>
          cases last
          exact fetchstr_length scanned

/-- The strings of the argument vector end below `STACKBASE`. -/
theorem sysExecLoop_lengths {uargv left i : Nat} {argv result : List (Nat × Nat)}
    (before : ∀ r ∈ argv, r.1 + r.2 < stackbase)
    (ran : (sysExecLoop ld p uargv left i argv s).result = .ok (some result, s')) :
    ∀ r ∈ result, r.1 + r.2 < stackbase := by
  induction left generalizing i argv s with
  | zero => cases ran
  | succ left ih =>
      unfold sysExecLoop at ran
      rw [Traced.bind_result] at ran
      obtain ⟨⟨uarg, t⟩, _, ran⟩ := Kern.bind_eq_ok.mp ran
      cases uarg with
      | none => cases ran
      | some uarg =>
          dsimp only at ran
          split at ran
          · cases ran
            exact before
          · rw [Traced.bind_result, fetchstrLoading_result] at ran
            obtain ⟨⟨length, u⟩, scanned, ran⟩ := Kern.bind_eq_ok.mp ran
            cases length with
            | none => cases ran
            | some length =>
                refine ih (fun r member => ?_) ran
                rw [List.mem_append, List.mem_singleton] at member
                rcases member with old | rfl
                · exact before r old
                · exact fetchstr_length scanned

theorem sysExec_lengths {path : Nat × Nat} {argv : List (Nat × Nat)}
    (ran : (sysExecLoading ld s p).result = .ok (some (path, argv), s')) :
    ∀ r ∈ path :: argv, r.1 + r.2 < stackbase := by
  unfold sysExecLoading at ran
  rw [Traced.bind_result, argstrLoading_result] at ran
  obtain ⟨⟨first, t⟩, named, ran⟩ := Kern.bind_eq_ok.mp ran
  cases first with
  | none => cases ran
  | some first =>
      rw [Traced.bind_result] at ran
      obtain ⟨⟨uargv, u⟩, _, ran⟩ := Kern.bind_eq_ok.mp ran
      cases uargv with
      | none => cases ran
      | some uargv =>
          rw [Traced.bind_result] at ran
          obtain ⟨⟨strings, v⟩, looped, ran⟩ := Kern.bind_eq_ok.mp ran
          cases strings with
          | none => cases ran
          | some strings =>
              cases ran
              intro r member
              rcases List.mem_cons.mp member with rfl | later
              · exact argstr_length named
              · exact sysExecLoop_lengths (fun _ none => by cases none) looped r later

/-! ## The scan ends -/

/-- With enough tests of its condition the loop comes to the result of `fetchstr`. -/
theorem fetchstrScan_eq {start left cursor fuel : Nat} (inside : cursor + left = stackbase)
    (enough : left < fuel) :
    fetchstrScan ld p start fuel cursor s = (do
      let result ← fetchstrLoopLoading ld p start left cursor s
      pure (some result)) := by
  induction left generalizing cursor fuel s with
  | zero =>
      obtain ⟨fuel, rfl⟩ := Nat.exists_eq_add_of_lt enough
      unfold fetchstrScan
      rw [if_neg (by omega)]
      rfl
  | succ left ih =>
      obtain ⟨fuel, rfl⟩ : ∃ k, fuel = k + 1 := ⟨fuel - 1, by omega⟩
      have next : (cursor + 1) % 2 ^ 32 = cursor + 1 := by
        change cursor + (left + 1) = 2147483647 at inside
        omega
      unfold fetchstrScan fetchstrLoopLoading
      rw [if_pos (by omega), next, Traced.bind_assoc]
      refine congrArg _ (funext fun r => ?_)
      dsimp only
      split
      · rfl
      · exact ih (by omega) (by omega)

/-! ## All of argument fetching -/

/-- The ways in which a system call gets at its arguments. -/
inductive UserRead where
  | fetchint (addr : Nat)
  | fetchstr (addr : Nat)
  | argint (n : Int)
  | argptr (n size : Int)
  | argstr (n : Int)
  | sysExec

/-- Run it; where it succeeds, the result are start and length of the ranges it hands over. -/
def UserRead.run (ld : Linkage) (s : Kernel) (p : Slot) :
    UserRead → Loading (Option (List (Nat × Nat)) × Kernel)
  | .fetchint addr => do
      let (word, s) ← fetchintLoading ld s p addr
      pure (word.map fun _ => [(addr, 4)], s)
  | .fetchstr addr => do
      let (length, s) ← fetchstrLoading ld s p addr
      pure (length.map fun length => [(addr, length + 1)], s)
  | .argint n => do
      let (word, t) ← argintLoading ld s p n
      pure (word.map fun _ => [(argAddr s p n, 4)], t)
  | .argptr n size => do
      let (pointer, s) ← argptrLoading ld s p n size
      pure (pointer.map fun pointer => [(pointer, size.toNat)], s)
  | .argstr n => do
      let (string, s) ← argstrLoading ld s p n
      pure (string.map fun (addr, length) => [(addr, length + 1)], s)
  | .sysExec => do
      let (strings, s) ← sysExecLoading ld s p
      pure (strings.map fun (path, argv) =>
        (path :: argv).map fun (addr, length) => (addr, length + 1), s)

/-- The size of a block has type `int`. -/
def UserRead.Typed : UserRead → Prop
  | .argptr _ size => -2 ^ 31 ≤ size ∧ size < 2 ^ 31
  | _ => True

theorem UserRead.below (call : UserRead) : BelowKernel (call.run ld s p) := by
  cases call with
  | fetchint addr => exact (fetchintLoading_below addr).bind fun _ _ => Traced.within_pure _
  | fetchstr addr => exact (fetchstrLoading_below addr).bind fun _ _ => Traced.within_pure _
  | argint n => exact (fetchintLoading_below _).bind fun _ _ => Traced.within_pure _
  | argptr n size => exact (argptrLoading_below n size).bind fun _ _ => Traced.within_pure _
  | argstr n => exact (argstrLoading_below n).bind fun _ _ => Traced.within_pure _
  | sysExec => exact sysExecLoading_below.bind fun _ _ => Traced.within_pure _

/-- The ranges of a successful call end below `STACKBASE`, where `Nat` addition does not wrap. -/
theorem UserRead.ranges {call : UserRead} (typed : call.Typed) {ranges : List (Nat × Nat)}
    (ran : (call.run ld s p).result = .ok (some ranges, s')) :
    ∀ r ∈ ranges, r.1 + r.2 ≤ stackbase := by
  have single {start length : Nat} (fits : start + length ≤ stackbase) :
      ∀ r ∈ [(start, length)], r.1 + r.2 ≤ stackbase := by
    intro r member
    rw [List.mem_singleton] at member
    subst member
    exact fits
  unfold UserRead.run at ran
  cases call with
  | fetchint addr =>
      rw [Traced.bind_result, fetchintLoading_result] at ran
      obtain ⟨⟨word, t⟩, fetched, last⟩ := Kern.bind_eq_ok.mp ran
      cases word with
      | none => cases last
      | some word =>
          cases last
          exact single (fetchint_range fetched)
  | fetchstr addr =>
      rw [Traced.bind_result, fetchstrLoading_result] at ran
      obtain ⟨⟨length, t⟩, fetched, last⟩ := Kern.bind_eq_ok.mp ran
      cases length with
      | none => cases last
      | some length =>
          cases last
          exact single (fetchstr_length fetched)
  | argint n =>
      unfold argintLoading at ran
      rw [Traced.bind_result, fetchintLoading_result] at ran
      obtain ⟨⟨word, t⟩, fetched, last⟩ := Kern.bind_eq_ok.mp ran
      cases word with
      | none => cases last
      | some word =>
          cases last
          exact single (fetchint_range fetched)
  | argptr n size =>
      rw [Traced.bind_result, argptrLoading_result] at ran
      obtain ⟨⟨pointer, t⟩, fetched, last⟩ := Kern.bind_eq_ok.mp ran
      cases pointer with
      | none => cases last
      | some pointer =>
          cases last
          exact single (argptr_range typed.2 fetched).2.2
  | argstr n =>
      rw [Traced.bind_result, argstrLoading_result] at ran
      obtain ⟨⟨string, t⟩, fetched, last⟩ := Kern.bind_eq_ok.mp ran
      cases string with
      | none => cases last
      | some string =>
          cases last
          exact single (argstr_length fetched)
  | sysExec =>
      rw [Traced.bind_result] at ran
      obtain ⟨⟨strings, t⟩, fetched, last⟩ := Kern.bind_eq_ok.mp ran
      cases strings with
      | none => cases last
      | some strings =>
          cases last
          intro r member
          obtain ⟨string, listed, rfl⟩ := List.mem_map.mp member
          exact sysExec_lengths fetched string listed

/--
For every state of the process and its memory: whatever argument fetching
loads from is below `KERNBASE`, whether it succeeds, fails or stops; the
ranges it hands over end below `KERNBASE` without wrapping; and the scan of
`fetchstr` ends.
-/
theorem fetching_below_kernbase (ld : Linkage) (s : Kernel) (p : Slot) {call : UserRead}
    (typed : call.Typed) :
    (∀ va ∈ (call.run ld s p).trace, va < kernbase) ∧
    (∀ ranges s', (call.run ld s p).result = .ok (some ranges, s') →
      ∀ r ∈ ranges, r.1 + r.2 < kernbase) ∧
    ∀ addr fuel, addr < stackbase → stackbase - addr < fuel →
      fetchstrScan ld p addr fuel addr s = (do
        let result ← fetchstrLoading ld s p addr
        pure (some result)) := by
  refine ⟨call.below, fun ranges s' ran r member => ?_, fun addr fuel low enough => ?_⟩
  · exact Nat.lt_of_le_of_lt (UserRead.ranges typed ran r member) (by decide)
  · unfold fetchstrLoading
    rw [if_neg (Nat.not_le.mpr low)]
    exact fetchstrScan_eq (Nat.add_sub_cancel' (Nat.le_of_lt low)) enough

/-- A process whose second argument, on its only page, is 100. -/
def sampleArguments : Kernel :=
  (Kernel.blank { sampleKmem 8 with mem := fun _ offset => if offset.val = 8 then 100 else 0 }).modify
    0 fun pr => { pr with
      pgdir := some ((Pgdir.addTable ⟨0x2000, fun _ => none⟩ 0 0x2001).setPte 0
        ⟨0x2002, pteW ||| pteU ||| pteP⟩) }

/-- `read(fd, 100, 4)` gets its pointer from the page, and `read(fd, 100, -1)` is refused. -/
theorem fetching_below_kernbase_argument :
    ((UserRead.argptr 1 4).run sampleLinkage sampleArguments 0).trace = [8, 9, 10, 11] ∧
    (∀ va ∈ ((UserRead.argptr 1 4).run sampleLinkage sampleArguments 0).trace, va < kernbase) ∧
    (∃ s', ((UserRead.argptr 1 4).run sampleLinkage sampleArguments 0).result =
      .ok (some [(100, 4)], s')) ∧ 100 + 4 < kernbase ∧
    ((UserRead.argptr 1 (-1)).run sampleLinkage sampleArguments 0).result.map Prod.fst =
      .ok none := by
  have typed : (UserRead.argptr 1 4).Typed := ⟨by decide, by decide⟩
  obtain ⟨below, ranges, _⟩ := fetching_below_kernbase sampleLinkage sampleArguments 0 typed
  obtain ⟨s', ran⟩ : ∃ s', ((UserRead.argptr 1 4).run sampleLinkage sampleArguments 0).result =
      .ok (some [(100, 4)], s') := ⟨_, rfl⟩
  exact ⟨by decide +kernel, below, ⟨s', ran⟩,
    ranges _ _ ran (100, 4) (List.mem_singleton_self _), rfl⟩

end SlabStudy.Xv6
