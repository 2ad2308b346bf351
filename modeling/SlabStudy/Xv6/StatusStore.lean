import SlabStudy.Xv6.CopyOut
import SlabStudy.Xv6.Delivery
import SlabStudy.Xv6.Fetch

/-!
# The status word of wait and waitpid

Both calls end with `*status = p->exit_status`, whatever the pointer is.  The
null pointer passes `argptr` like any other, and address zero is mapped in a
process with a heap, so a caller that does not want the status gets it stored
over the first word of its image.
-/

namespace SlabStudy.Xv6

open Library

/-! ## Stores by the kernel -/

/-- The byte of memory at an address of a process, if its page is present. -/
def Kernel.cell? (s : Kernel) (p : Slot) (va : Nat) : Option Cell :=
  (s.proc p).pgdir.bind fun d =>
    (d.lookup va).map fun pte => (pte.addr, Fin.ofNat pgsize va)

/-- A store that is restarted after every handled fault, as the loads are. -/
def storeRetry (ld : Linkage) (p : Slot) (va : Nat) (byte : UInt8) : Nat → Kernel → Kern Kernel
  | 0, _ => .error .stackOverflow
  | n + 1, s =>
      match s.cell? p va with
      | some (frame, offset) => .ok (s.setKmem (s.kmem.store frame offset [byte]))
      | none => do
          let s ← pgflt ld s p va false
          storeRetry ld p va byte n s

/-- A store by the kernel on behalf of process `p`. -/
def store (ld : Linkage) (s : Kernel) (p : Slot) (va : Nat) (byte : UInt8) : Kern Kernel :=
  storeRetry ld p va byte (s.kmem.freelist.length + 1) s

def storeBytes (ld : Linkage) (p : Slot) : Nat → List UInt8 → Kernel → Kern Kernel
  | _, [], s => .ok s
  | va, byte :: rest, s => do
      let s ← store ld s p va byte
      storeBytes ld p (va + 1) rest s

/-- `*(int*)addr = value`. -/
def storeInt (ld : Linkage) (s : Kernel) (p : Slot) (addr : Nat) (value : Int) : Kern Kernel :=
  storeBytes ld p addr (wordBytes (uint value)) s

/-! ## The calls with their pointer -/

/-- A call of `wait` or `waitpid` with its arguments; the options are never looked at. -/
inductive Reaper where
  | wait (status : Nat)
  | waitpid (pid : Int) (status : Nat) (options : Int)

namespace Reaper

def status : Reaper → Nat
  | .wait status => status
  | .waitpid _ status _ => status

/-- How the thread of the caller continues after a sleep. -/
def resume : Reaper → Resume
  | .wait _ => .wait
  | .waitpid pid _ _ => .waitpid pid

/-- The zombie that a pass finds. -/
def zombie (s : Kernel) (p : Slot) : Reaper → Option Slot
  | .wait _ => s.first fun pr => pr.parent = some p ∧ pr.state = .zombie
  | .waitpid pid _ _ =>
      (s.first fun pr => pr.pid = pid).filter fun q => (s.proc q).state = .zombie

/-- The loop up to the store. -/
def search (ld : Linkage) (s : Kernel) (c : Fin ncpu) (p : Slot) :
    Reaper → Kern (Outcome × Kernel)
  | .wait _ => Xv6.wait ld s c p
  | .waitpid pid _ _ => Xv6.waitpid ld s c p pid

/-- `*status = p->exit_status`, if the pass has reaped. -/
def deliver (ld : Linkage) (p : Slot) (status : Nat) : Outcome × Kernel → Kern (Outcome × Kernel)
  | (.reaped corpse, s) => do
      let s ← storeInt ld s p status corpse.status
      return (.reaped corpse, s)
  | ended => .ok ended

/-- One pass through the loop. -/
def pass (ld : Linkage) (s : Kernel) (c : Fin ncpu) (p : Slot) (call : Reaper) :
    Kern (Outcome × Kernel) := do
  let ended ← call.search ld s c p
  deliver ld p call.status ended

end Reaper

/-- `sys_wait`, as far as its call of `wait`; `none` is the result `-1`. -/
def sysWait (ld : Linkage) (s : Kernel) (p : Slot) : Kern (Option Reaper × Kernel) := do
  let (status, s) ← argptr ld s p 0 4
  return (status.map .wait, s)

/-- `sys_waitpid`, as far as its call of `waitpid`. -/
def sysWaitpid (ld : Linkage) (s : Kernel) (p : Slot) : Kern (Option Reaper × Kernel) := do
  let (pid, s) ← argint ld s p 0
  match pid with
  | none => return (none, s)
  | some pid =>
      let (status, s) ← argptr ld s p 1 4
      match status with
      | none => return (none, s)
      | some status =>
          let (options, s) ← argint ld s p 2
          return (options.map fun options => .waitpid (int pid) status (int options), s)

variable {ld : Linkage} {s s' t : Kernel} {c : Fin ncpu} {p : Slot} {va : Nat} {byte : UInt8}

/-! ## The memory of a process -/

/-- The process has a page directory, whose pages nobody else uses. -/
def OwnsImage (ld : Linkage) (s : Kernel) (p : Slot) : Prop :=
  ∃ d, (s.proc p).pgdir = some d ∧ Owned ld s.kmem d

theorem Inv.ownsImage (inv : Inv ld s) (busy : (s.cpu c).proc = some p) : OwnsImage ld s p := by
  obtain ⟨kstack, d, stack, own⟩ := inv.equipped busy
  exact ⟨d, own, inv.memory.owned stack own⟩

theorem Kernel.cell?_eq {d : Pgdir} (own : (s.proc p).pgdir = some d) (va : Nat) :
    s.cell? p va = (d.lookup va).map fun pte => (pte.addr, Fin.ofNat pgsize va) := by
  unfold Kernel.cell?
  rw [own]
  rfl

theorem Kernel.byte?_eq_cell (s : Kernel) (p : Slot) (va : Nat) :
    s.byte? p va = (s.cell? p va).map s.kmem.cell := by
  unfold Kernel.byte? Kernel.cell?
  cases (s.proc p).pgdir with
  | none => rfl
  | some d =>
      change Option.map _ _ = Option.map _ (Option.map _ _)
      rw [Option.map_map]
      rfl

/-- Different user addresses of a process are different bytes of memory. -/
theorem OwnsImage.cell_inj (owns : OwnsImage ld s p) {vb : Nat} {cell : Cell}
    (left : va < kernbase) (right : vb < kernbase) (here : s.cell? p va = some cell)
    (there : s.cell? p vb = some cell) : va = vb := by
  obtain ⟨d, own, owned⟩ := owns
  rw [Kernel.cell?_eq own] at here there
  obtain ⟨pte, found, rfl⟩ := Option.map_eq_some_iff.mp here
  obtain ⟨other, also, same⟩ := Option.map_eq_some_iff.mp there
  have offset := congrArg Fin.val (Prod.mk.inj same).2
  simp only [Fin.ofNat, pgsize] at offset
  by_contra different
  refine owned.frames_apart left right found also ?_ (Prod.mk.inj same).1.symm
  simp only [pgsize]
  omega

/-! ## What an operation does to the memory of a process -/

/-- No mapped byte of the process has gone, and only the touched ones may have changed. -/
structure Touches (ld : Linkage) (p : Slot) (touched : Nat → Prop) (s s' : Kernel) : Prop where
  owns : OwnsImage ld s' p
  present : ∀ va cell, va < kernbase → s.cell? p va = some cell → s'.cell? p va = some cell
  kept : ∀ va byte, va < kernbase → ¬ touched va → s.byte? p va = some byte →
    s'.byte? p va = some byte

namespace Touches

variable {touched more : Nat → Prop}

theorem refl (owns : OwnsImage ld s p) : Touches ld p touched s s :=
  ⟨owns, fun _ _ _ here => here, fun _ _ _ _ here => here⟩

theorem trans (first : Touches ld p touched s t) (second : Touches ld p touched t s') :
    Touches ld p touched s s' where
  owns := second.owns
  present va cell low here := second.present va cell low (first.present va cell low here)
  kept va byte low apart here := second.kept va byte low apart (first.kept va byte low apart here)

theorem mono (first : Touches ld p touched s s') (more' : ∀ va, touched va → more va) :
    Touches ld p more s s' where
  owns := first.owns
  present := first.present
  kept va byte low apart := first.kept va byte low fun inside => apart (more' va inside)

/-- The directory is kept, and so are the bytes of its pages. -/
theorem ofFrames {d : Pgdir} (own : (s.proc p).pgdir = some d)
    (own' : ∃ d', (s'.proc p).pgdir = some d' ∧ Owned ld s'.kmem d' ∧
      ∀ va pte, va < kernbase → d.lookup va = some pte → d'.lookup va = some pte)
    (mem : ∀ frame ∈ d.frames, s'.kmem.mem frame = s.kmem.mem frame) :
    Touches ld p touched s s' := by
  obtain ⟨d', now, owned', lookup⟩ := own'
  have present : ∀ va cell, va < kernbase → s.cell? p va = some cell →
      s'.cell? p va = some cell := by
    intro va cell low here
    rw [Kernel.cell?_eq own] at here
    obtain ⟨pte, found, rfl⟩ := Option.map_eq_some_iff.mp here
    rw [Kernel.cell?_eq now, lookup va pte low found]
    rfl
  refine ⟨⟨d', now, owned'⟩, present, fun va byte low _ here => ?_⟩
  rw [Kernel.byte?_eq_cell] at here
  obtain ⟨cell, place, rfl⟩ := Option.map_eq_some_iff.mp here
  rw [Kernel.byte?_eq_cell, present va cell low place]
  rw [Kernel.cell?_eq own] at place
  obtain ⟨pte, found, rfl⟩ := Option.map_eq_some_iff.mp place
  exact congrArg some (congrFun (mem _ (Pgdir.addr_mem_frames low found)) _)

end Touches

/-! ## Faults -/

/-- The kernel has handled page faults of process `p`. -/
inductive Faulted (ld : Linkage) (p : Slot) (s : Kernel) : Kernel → Prop where
  | none : Faulted ld p s s
  | fault {t s' : Kernel} {va : Nat} (before : Faulted ld p s t)
      (ran : pgflt ld t p va false = .ok s') : Faulted ld p s s'

theorem Faulted.trans (first : Faulted ld p s t) (second : Faulted ld p t s') :
    Faulted ld p s s' := by
  induction second with
  | none => exact first
  | fault _ ran ih => exact ih.fault ran

theorem loadRetry_faulted {fuel : Nat} (ran : loadRetry ld p va fuel s = .ok (byte, s')) :
    Faulted ld p s s' := by
  induction fuel generalizing s with
  | zero => cases ran
  | succ fuel ih =>
      unfold loadRetry at ran
      split at ran
      · cases ran
        exact .none
      · obtain ⟨t, faulted, again⟩ := Kern.bind_eq_ok.mp ran
        exact (Faulted.fault .none faulted).trans (ih again)

theorem loadInt_faulted {word : Nat} (ran : loadInt ld s p va = .ok (word, s')) :
    Faulted ld p s s' := by
  obtain ⟨⟨b0, s₀⟩, first, ran⟩ := Kern.bind_eq_ok.mp ran
  obtain ⟨⟨b1, s₁⟩, second, ran⟩ := Kern.bind_eq_ok.mp ran
  obtain ⟨⟨b2, s₂⟩, third, ran⟩ := Kern.bind_eq_ok.mp ran
  obtain ⟨⟨b3, s₃⟩, fourth, ran⟩ := Kern.bind_eq_ok.mp ran
  cases ran
  exact (loadRetry_faulted first).trans ((loadRetry_faulted second).trans
    ((loadRetry_faulted third).trans (loadRetry_faulted fourth)))

theorem argint_faulted {n : Int} {word : Option Nat} (ran : argint ld s p n = .ok (word, s')) :
    Faulted ld p s s' := by
  unfold argint fetchint at ran
  split at ran
  · cases ran
    exact .none
  · obtain ⟨⟨loaded, t⟩, read, ran⟩ := Kern.bind_eq_ok.mp ran
    cases ran
    exact loadInt_faulted read

theorem argptr_faulted {n size : Int} {pointer : Option Nat}
    (ran : argptr ld s p n size = .ok (pointer, s')) : Faulted ld p s s' := by
  obtain ⟨⟨word, t⟩, fetched, rest⟩ := Kern.bind_eq_ok.mp ran
  have first := argint_faulted fetched
  cases word with
  | none =>
      cases rest
      exact first
  | some word =>
      dsimp only at rest
      split at rest
      · cases rest
        exact first
      · cases rest
        exact first

theorem pgflt_touches {touched : Nat → Prop} (owns : OwnsImage ld s p)
    (ran : pgflt ld s p va false = .ok s') : Touches ld p touched s s' := by
  obtain ⟨d, own, owned⟩ := owns
  rcases pgflt_eq_ok own ran with ⟨_, old, result, km, d', _, grown, positive, rfl⟩ |
    ⟨_, impossible, _⟩
  · have now : (((s.setKmem km).modify p fun pr => { pr with
        stackPsize := (s.proc p).stackPsize + 1, pgdir := some d' }).proc p).pgdir = some d' := by
      rw [Kernel.modify_self]
    refine .ofFrames own ⟨d', now, owned.of_conserved (allocuvm_conserved owned grown).1, ?_⟩
      ?_
    · intro va pte low found
      have bound : va < 2 ^ 32 := Nat.lt_trans low (by decide)
      rcases allocuvm_cases owned grown with ⟨_, zero, _⟩ | ⟨_, _, _, _, rfl⟩ |
        ⟨_, _, _, extended⟩ | ⟨_, _, zero, _⟩
      · exact absurd zero positive
      · exact found
      · exact extended.grows.kept va pte bound found
      · exact absurd zero positive
    · intro frame member
      rcases allocuvm_cases owned grown with ⟨_, zero, _⟩ | ⟨_, _, _, rfl, _⟩ |
        ⟨_, _, _, extended⟩ | ⟨_, _, zero, _⟩
      · exact absurd zero positive
      · rfl
      · exact extended.grows.untouched frame (owned.notFree member)
      · exact absurd zero positive
  · cases impossible

/-- Handled faults only map pages. -/
theorem Faulted.touches {touched : Nat → Prop} (owns : OwnsImage ld s p)
    (faulted : Faulted ld p s s') : Touches ld p touched s s' := by
  induction faulted with
  | none => exact .refl owns
  | fault _ ran ih => exact ih.trans (pgflt_touches ih.owns ran)

/-- The fault handler works for a running process, which goes on running. -/
theorem Faulted.running (inv : Inv ld s) (busy : (s.cpu c).proc = some p)
    (faulted : Faulted ld p s s') : Inv ld s' ∧ (s'.cpu c).proc = some p := by
  induction faulted with
  | none => exact ⟨inv, busy⟩
  | fault _ ran ih =>
      refine ⟨ih.1.pgflt ih.2 ran, ?_⟩
      obtain ⟨d, own, _⟩ := ih.1.ownsImage ih.2
      rcases pgflt_eq_ok own ran with ⟨_, _, _, _, _, _, _, _, rfl⟩ | ⟨_, impossible, _⟩
      · exact ih.2
      · cases impossible

/-! ## What the stores do -/

/-- A store of one byte. -/
theorem Kmem.store_cell (km : Kmem) (cell other : Cell) (byte : UInt8) :
    (km.store cell.1 cell.2 [byte]).cell other = if other = cell then byte else km.cell other := by
  obtain ⟨frame, offset⟩ := cell
  obtain ⟨frame', offset'⟩ := other
  change Function.update km.mem frame _ frame' offset' = _
  by_cases same : frame' = frame
  · subst same
    rw [Function.update_self]
    by_cases equal : offset' = offset
    · subst equal
      rw [if_pos rfl, if_pos ⟨Nat.le_refl _, Nat.lt_succ_self _⟩, Nat.sub_self]
      rfl
    · rw [if_neg fun both => equal (Prod.mk.inj both).2, if_neg]
      · rfl
      · rw [List.length_singleton]
        exact fun both =>
          equal (Fin.ext (Nat.le_antisymm (Nat.lt_succ_iff.mp both.2) both.1))
  · rw [Function.update_of_ne same, if_neg fun both => same (Prod.mk.inj both).1]
    rfl

/-- A store to a present byte. -/
theorem store_put (byte : UInt8) {cell : Cell} (owns : OwnsImage ld s p) (low : va < kernbase)
    (here : s.cell? p va = some cell) :
    Touches ld p (fun vb => vb = va) s (s.setKmem (s.kmem.store cell.1 cell.2 [byte])) ∧
      (s.setKmem (s.kmem.store cell.1 cell.2 [byte])).byte? p va = some byte := by
  have same (vb : Nat) : (s.setKmem (s.kmem.store cell.1 cell.2 [byte])).cell? p vb =
      s.cell? p vb := rfl
  obtain ⟨d, own, owned⟩ := owns
  refine ⟨⟨⟨d, own, owned.nodup, owned.valid⟩, fun vb other _ found => found,
    fun vb old right apart found => ?_⟩, ?_⟩
  · rw [Kernel.byte?_eq_cell] at found
    obtain ⟨other, place, rfl⟩ := Option.map_eq_some_iff.mp found
    rw [Kernel.byte?_eq_cell, same, place]
    refine congrArg some ((s.kmem.store_cell cell other byte).trans (if_neg ?_))
    rintro rfl
    exact apart (OwnsImage.cell_inj ⟨d, own, owned⟩ right low place here)
  · rw [Kernel.byte?_eq_cell, same, here]
    exact congrArg some ((s.kmem.store_cell cell cell byte).trans (if_pos rfl))

/-- A store that ends has written its byte, and nothing else that was mapped. -/
theorem storeRetry_ok {fuel : Nat} (owns : OwnsImage ld s p) (low : va < kernbase)
    (ran : storeRetry ld p va byte fuel s = .ok s') :
    Touches ld p (fun vb => vb = va) s s' ∧ s'.byte? p va = some byte := by
  induction fuel generalizing s with
  | zero => cases ran
  | succ fuel ih =>
      unfold storeRetry at ran
      cases here : s.cell? p va with
      | some cell =>
          rw [here] at ran
          cases ran
          exact store_put byte owns low here
      | none =>
          rw [here] at ran
          obtain ⟨t, faulted, again⟩ := Kern.bind_eq_ok.mp ran
          have grown : Touches ld p (fun vb => vb = va) s t := pgflt_touches owns faulted
          obtain ⟨later, written⟩ := ih grown.owns again
          exact ⟨grown.trans later, written⟩

theorem storeBytes_ok {bytes : List UInt8} (owns : OwnsImage ld s p)
    (low : va + bytes.length ≤ kernbase) (ran : storeBytes ld p va bytes s = .ok s') :
    Touches ld p (fun vb => va ≤ vb ∧ vb < va + bytes.length) s s' ∧
      ∀ i byte, bytes[i]? = some byte → s'.byte? p (va + i) = some byte := by
  induction bytes generalizing va s with
  | nil =>
      cases ran
      exact ⟨.refl owns, fun i byte found => by cases found⟩
  | cons first rest ih =>
      rw [List.length_cons] at low ⊢
      obtain ⟨t, stored, ran⟩ := Kern.bind_eq_ok.mp ran
      obtain ⟨here, written⟩ := storeRetry_ok owns (by omega) stored
      obtain ⟨later, others⟩ := ih here.owns (by omega) ran
      refine ⟨(here.mono ?_).trans (later.mono ?_), fun i byte found => ?_⟩
      · rintro vb rfl
        omega
      · rintro vb ⟨above, below⟩
        omega
      · cases i with
        | zero =>
            cases found
            exact later.kept va _ (by omega) (by omega) written
        | succ i =>
            rw [List.getElem?_cons_succ] at found
            rw [Nat.add_comm i 1, ← Nat.add_assoc]
            exact others i byte found

/-- A store into present pages ends. -/
theorem storeBytes_succeeds {bytes : List UInt8} (owns : OwnsImage ld s p)
    (low : va + bytes.length ≤ kernbase)
    (present : ∀ i < bytes.length, (s.cell? p (va + i)).isSome = true) :
    ∃ s', storeBytes ld p va bytes s = .ok s' := by
  induction bytes generalizing va s with
  | nil => exact ⟨s, rfl⟩
  | cons first rest ih =>
      rw [List.length_cons] at low present
      obtain ⟨cell, here⟩ := Option.isSome_iff_exists.mp (present 0 (Nat.zero_lt_succ _))
      have stored : store ld s p va first =
          .ok (s.setKmem (s.kmem.store cell.1 cell.2 [first])) := by
        unfold store storeRetry
        rw [Nat.add_zero] at here
        rw [here]
      obtain ⟨touches, _⟩ := store_put first owns (by omega) here
      obtain ⟨s', ran⟩ := @ih _ (va + 1) touches.owns (by omega) fun i inside => by
        have next := present (i + 1) (by omega)
        rw [Nat.add_comm i 1, ← Nat.add_assoc] at next
        exact next
      exact ⟨s', Kern.bind_eq_ok.mpr ⟨_, stored, ran⟩⟩

/-! ## A pass of wait or waitpid -/

/-- What a search comes to, by the zombie that there is. -/
theorem Reaper.search_cases {call : Reaper} {outcome : Outcome}
    (ran : call.search ld s c p = .ok (outcome, s')) :
    (∃ q, call.zombie s p = some q) ∨
      (∀ status, deliver ld p status (outcome, s') = .ok (outcome, s')) ∧
        s'.kmem = s.kmem ∧ (s'.proc p).pgdir = (s.proc p).pgdir := by
  have asleep (chan : Option Chan) (resume : Resume) :
      ((sleep s c p chan resume).proc p).pgdir = (s.proc p).pgdir := by
    change (Function.update s.proc p _ p).pgdir = _
    rw [Function.update_self]
  cases call with
  | wait status =>
      rcases wait_cases ran with ⟨q, child, zombie, _⟩ | ⟨rfl, rfl⟩ | ⟨rfl, rfl, _⟩
      · refine .inl (Option.ne_none_iff_exists'.mp fun nobody => ?_)
        have missed : (s.first fun pr => pr.parent = some p ∧ pr.state = .zombie) = none := nobody
        have neither := Kernel.first_eq_none.mp missed q
        rw [decide_eq_false_iff_not] at neither
        exact neither ⟨child, zombie⟩
      · exact .inr ⟨fun _ => rfl, rfl, rfl⟩
      · exact .inr ⟨fun _ => rfl, rfl, asleep _ _⟩
  | waitpid pid status options =>
      rcases waitpid_cases ran with ⟨q, first, zombie, _⟩ | ⟨rfl, rfl⟩ | ⟨rfl, q, _, _, _, rfl⟩
      · refine .inl ⟨q, ?_⟩
        rw [Reaper.zombie, first, Option.filter_some, if_pos (decide_eq_true zombie)]
      · exact .inr ⟨fun _ => rfl, rfl, rfl⟩
      · exact .inr ⟨fun _ => rfl, rfl, asleep _ _⟩

theorem Reaper.zombie_state {call : Reaper} {q : Slot} (found : call.zombie s p = some q) :
    (s.proc q).state = .zombie := by
  cases call with
  | wait status =>
      have first : (s.first fun pr => pr.parent = some p ∧ pr.state = .zombie) = some q := found
      have both := (Kernel.first_eq_some first).1
      rw [decide_eq_true_eq] at both
      exact both.2
  | waitpid pid status options =>
      have shown : (s.first fun pr => pr.pid = pid).filter
          (fun q => (s.proc q).state = .zombie) = some q := found
      exact of_decide_eq_true (Option.filter_eq_some_iff.mp shown).2

/-- A search that finds a zombie reaps it. -/
theorem Reaper.search_zombie {call : Reaper} {q : Slot} (found : call.zombie s p = some q) :
    call.search ld s c p = reap ld s q := by
  cases call with
  | wait status =>
      have first : (s.first fun pr => pr.parent = some p ∧ pr.state = .zombie) = some q := found
      unfold Reaper.search Xv6.wait
      simp only [first]
  | waitpid pid status options =>
      have shown : (s.first fun pr => pr.pid = pid).filter
          (fun q => (s.proc q).state = .zombie) = some q := found
      obtain ⟨first, zombie⟩ := Option.filter_eq_some_iff.mp shown
      unfold Reaper.search Xv6.waitpid
      simp only [first]
      exact if_pos (of_decide_eq_true zombie)

/-- A pass that finds no zombie stores nothing, and all memory is as it was. -/
theorem Reaper.pass_alone {call : Reaper} {outcome : Outcome} (found : call.zombie s p = none)
    (ran : call.pass ld s c p = .ok (outcome, s')) :
    s'.kmem = s.kmem ∧ (s'.proc p).pgdir = (s.proc p).pgdir := by
  obtain ⟨ended, searched, delivered⟩ := Kern.bind_eq_ok.mp ran
  rcases Reaper.search_cases searched with ⟨q, zombie⟩ | ⟨nothing, same⟩
  · rw [found] at zombie
    cases zombie
  · have ends := (nothing call.status).symm.trans delivered
    cases ends
    exact same

/-- A pass that finds a zombie reaps it and stores its status. -/
theorem Reaper.pass_zombie {call : Reaper} {q : Slot} {outcome : Outcome}
    (found : call.zombie s p = some q)
    (reaped : reap ld s q = .ok (.reaped (s.proc q).corpse, t)) :
    call.pass ld s c p = .ok (outcome, s') ↔ outcome = .reaped (s.proc q).corpse ∧
      storeInt ld t p call.status (s.proc q).exitStatus = .ok s' := by
  unfold Reaper.pass
  rw [Reaper.search_zombie found, reaped]
  constructor
  · intro ran
    obtain ⟨ended, same, delivered⟩ := Kern.bind_eq_ok.mp ran
    cases same
    obtain ⟨s₁, stored, last⟩ := Kern.bind_eq_ok.mp delivered
    cases last
    exact ⟨rfl, stored⟩
  · rintro ⟨rfl, stored⟩
    exact Kern.bind_eq_ok.mpr ⟨_, rfl, Kern.bind_eq_ok.mpr ⟨s', stored, rfl⟩⟩

/-- Reaping leaves the memory of a running process alone. -/
theorem reap_touches {q : Slot} (touched : Nat → Prop) (inv : Inv ld s)
    (busy : (s.cpu c).proc = some p) (zombie : (s.proc q).state = .zombie) :
    ∃ t, reap ld s q = .ok (.reaped (s.proc q).corpse, t) ∧ Touches ld p touched s t := by
  obtain ⟨km, ran, total, kept⟩ := reap_succeeds inv.memory ((inv.states q).zombie zombie)
  have after := inv.reap zombie ran
  have running := (inv.cpus.current busy).1
  have other : p ≠ q := by
    rintro rfl
    rw [running] at zombie
    cases zombie
  obtain ⟨d, own, owned⟩ := after.ownsImage (c := c) busy
  have before : (s.proc p).pgdir = some d := by
    rw [← own, Kernel.modify_of_ne _ _ _ other]
    rfl
  refine ⟨_, ran, .ofFrames before ⟨d, own, owned, fun _ _ _ found => found⟩ fun frame member => ?_⟩
  exact kept frame (owned.notFree member)

/-- The bytes of the status as they are stored. -/
theorem wordBytes_length (word : Nat) : (wordBytes word).length = 4 := rfl

/-- A pass that reaps touches the four bytes behind the pointer, and writes the status there. -/
theorem Reaper.pass_reaps {call : Reaper} {q : Slot} {outcome : Outcome} (inv : Inv ld s)
    (busy : (s.cpu c).proc = some p) (found : call.zombie s p = some q)
    (low : call.status + 4 ≤ kernbase) (ran : call.pass ld s c p = .ok (outcome, s')) :
    Touches ld p (fun va => call.status ≤ va ∧ va < call.status + 4) s s' ∧
      ∀ i byte, (wordBytes (uint (s.proc q).exitStatus))[i]? = some byte →
        s'.byte? p (call.status + i) = some byte := by
  obtain ⟨t, reaped, touches⟩ := reap_touches (fun va => call.status ≤ va ∧
    va < call.status + 4) inv busy (Reaper.zombie_state found)
  obtain ⟨_, stored⟩ := (Reaper.pass_zombie found reaped).mp ran
  obtain ⟨later, written⟩ := storeBytes_ok touches.owns low stored
  exact ⟨touches.trans later, written⟩

/-- The null pointer into a mapped page does not stop a pass that reaps. -/
theorem Reaper.pass_null {call : Reaper} {q : Slot} {i : Nat} (inv : Inv ld s)
    (busy : (s.cpu c).proc = some p) (found : call.zombie s p = some q) (null : call.status = 0)
    (here : s.byte? p i = some byte) (inside : i < 4) :
    ∃ s', call.pass ld s c p = .ok (.reaped (s.proc q).corpse, s') := by
  obtain ⟨t, reaped, touches⟩ := reap_touches (fun _ => False) inv busy
    (Reaper.zombie_state found)
  have mapped := touches.kept i byte (Nat.lt_trans inside (by decide)) not_false here
  have present : ∀ j < (wordBytes (uint (s.proc q).exitStatus)).length,
      (t.cell? p (call.status + j)).isSome = true := by
    intro j bound
    rw [wordBytes_length] at bound
    rw [null, Nat.zero_add]
    obtain ⟨d, own, owned⟩ := touches.owns
    rw [Kernel.byte?_eq_cell, Kernel.cell?_eq own] at mapped
    rw [Kernel.cell?_eq own, d.lookup_congr (Nat.lt_trans bound (by decide))
      (Nat.lt_trans inside (by decide)) (by simp only [pgsize]; omega)]
    cases found : d.lookup i with
    | none =>
        rw [found] at mapped
        cases mapped
    | some pte => rfl
  obtain ⟨s', stored⟩ := storeBytes_succeeds touches.owns
    (by rw [wordBytes_length, null]; decide) present
  exact ⟨s', (Reaper.pass_zombie found reaped).mpr ⟨rfl, stored⟩⟩

/-! ## The frame of the calls -/

/--
Every byte of the process that was mapped is as it was, except for the four
behind the pointer; behind the null pointer there are none.
-/
def StatusOnly (s s' : Kernel) (p : Slot) (status : Nat) : Prop :=
  ∀ va byte, va < kernbase → s.byte? p va = some byte →
    (status ≠ 0 → va < status ∨ status + 4 ≤ va) → s'.byte? p va = some byte

/-- A system call has handed over these arguments. -/
def Fetched (ld : Linkage) (s : Kernel) (p : Slot) (call : Reaper) (s' : Kernel) : Prop :=
  sysWait ld s p = .ok (some call, s') ∨ sysWaitpid ld s p = .ok (some call, s')

/--
A pass begins in `s`: the first one of a system call made in `s₀`, or the one
after a sleep of a process that the scheduler takes up in `s₀`.
-/
inductive Begins (ld : Linkage) (c : Fin ncpu) (p : Slot) (call : Reaper) (s₀ : Kernel) :
    Kernel → Prop where
  | called {s : Kernel} (busy : (s₀.cpu c).proc = some p) (fetched : Fetched ld s₀ p call s) :
      Begins ld c p call s₀ s
  | woken {before after : Kernel} (fetched : Fetched ld before p call after)
      (idle : (s₀.cpu c).proc = none) (chosen : choose s₀.proc (s₀.cpu c).cur = some p)
      (resume : (s₀.thread p).resume = call.resume) :
      Begins ld c p call s₀ (sleepTidy (dispatch s₀ c p) p)

theorem argptr_fits {n : Int} {pointer : Nat}
    (ran : argptr ld s p n 4 = .ok (some pointer, s')) : pointer + 4 ≤ stackbase := by
  obtain ⟨⟨word, t⟩, fetched, rest⟩ := Kern.bind_eq_ok.mp ran
  cases word with
  | none => cases rest
  | some word =>
      dsimp only at rest
      split at rest
      · cases rest
      · next accepted =>
          cases rest
          unfold uint at accepted
          change ¬ (_ ∨ 2147483647 ≤ pointer ∨
            2147483647 < (((pointer : Int) + 4) % 4294967296).toNat) at accepted
          change pointer + 4 ≤ 2147483647
          omega

/-- What a system call has fetched: a pointer with room for the status, at the cost of faults. -/
theorem Fetched.spec {call : Reaper} (fetched : Fetched ld s p call s') :
    call.status + 4 ≤ stackbase ∧ Faulted ld p s s' := by
  rcases fetched with ran | ran
  · obtain ⟨⟨status, t⟩, pointer, ran⟩ := Kern.bind_eq_ok.mp ran
    cases status with
    | none => cases ran
    | some status =>
        cases ran
        exact ⟨argptr_fits pointer, argptr_faulted pointer⟩
  · obtain ⟨⟨pid, t⟩, first, ran⟩ := Kern.bind_eq_ok.mp ran
    cases pid with
    | none => cases ran
    | some pid =>
        obtain ⟨⟨status, u⟩, pointer, ran⟩ := Kern.bind_eq_ok.mp ran
        cases status with
        | none => cases ran
        | some status =>
            obtain ⟨⟨options, v⟩, last, ran⟩ := Kern.bind_eq_ok.mp ran
            cases options with
            | none => cases ran
            | some options =>
                cases ran
                exact ⟨argptr_fits pointer, (argint_faulted first).trans
                  ((argptr_faulted pointer).trans (argint_faulted last))⟩

/-- At the beginning of a pass the process runs, and its memory is as it was before. -/
theorem Begins.spec {call : Reaper} {s₀ : Kernel} (inv : Inv ld s₀)
    (begins : Begins ld c p call s₀ s) :
    Inv ld s ∧ (s.cpu c).proc = some p ∧ call.status + 4 ≤ stackbase ∧
      Touches ld p (fun _ => False) s₀ s := by
  cases begins with
  | called busy fetched =>
      obtain ⟨fits, faulted⟩ := fetched.spec
      obtain ⟨after, running⟩ := faulted.running inv busy
      exact ⟨after, running, fits, faulted.touches (inv.ownsImage busy)⟩
  | woken fetched idle chosen resume =>
      have runnable := choose_runnable chosen
      have after := inv.enter idle runnable
      have running : ((sleepTidy (dispatch s₀ c p) p).cpu c).proc = some p := by
        change (Function.update s₀.cpu c ⟨some p, p⟩ c).proc = some p
        rw [Function.update_self]
      obtain ⟨d, own, owned⟩ := after.ownsImage running
      have before : (s₀.proc p).pgdir = some d := by
        rw [← own, sleepTidy, Kernel.modify_self, dispatch_self]
      exact ⟨after, running, fetched.spec.1,
        .ofFrames before ⟨d, own, owned, fun _ _ _ found => found⟩ fun _ _ => rfl⟩

/--
For every pass of a call of `wait` or `waitpid` with an accepted pointer: only
the status word behind the pointer is touched, and nothing behind a null
pointer, exactly when the pointer is not null or the status that would be
stored is already there.
-/
theorem status_only_iff {call : Reaper} {s₀ : Kernel} (inv : Inv ld s₀)
    (begins : Begins ld c p call s₀ s) :
    (∀ outcome s', call.pass ld s c p = .ok (outcome, s') → StatusOnly s₀ s' p call.status) ↔
      (call.status = 0 → ∀ q, call.zombie s p = some q → ∀ i byte, s₀.byte? p i = some byte →
        i < 4 → (wordBytes (uint (s.proc q).exitStatus))[i]? = some byte) := by
  obtain ⟨after, running, fits, entered⟩ := begins.spec inv
  have low : call.status + 4 ≤ kernbase := Nat.le_trans fits (by decide)
  constructor
  · intro keeps null q found i byte here inside
    have user : i < kernbase := Nat.lt_of_lt_of_le inside (by rw [null] at low; omega)
    have now := entered.kept i byte user not_false here
    obtain ⟨s', ran⟩ := Reaper.pass_null after running found null now inside
    have kept := keeps _ _ ran i byte user here fun some => absurd null some
    have written := (Reaper.pass_reaps after running found low ran).2 i _
      (List.getElem?_eq_getElem (by rw [wordBytes_length]; exact inside))
    rw [null, Nat.zero_add, kept] at written
    rw [List.getElem?_eq_getElem (by rw [wordBytes_length]; exact inside), written]
  · intro same outcome s' ran va byte user here outside
    have now := entered.kept va byte user not_false here
    cases found : call.zombie s p with
    | none =>
        obtain ⟨kmem, own⟩ := Reaper.pass_alone found ran
        unfold Kernel.byte? at now ⊢
        rw [kmem, own]
        exact now
    | some q =>
        obtain ⟨touches, written⟩ := Reaper.pass_reaps after running found low ran
        by_cases inside : call.status ≤ va ∧ va < call.status + 4
        · have null : call.status = 0 := by
            by_contra some
            have apart := outside some
            omega
          rw [null, Nat.zero_add] at inside
          have value := written va byte (same null q found va byte here inside.2)
          rw [null, Nat.zero_add] at value
          exact value
        · exact touches.kept va byte user inside now

/-! ## A parent that does not want the status -/

/-- A load from a present page does not fault. -/
theorem load_present (here : s.byte? p va = some byte) : load ld s p va = .ok (byte, s) := by
  unfold load loadRetry
  rw [here]

theorem fetchint_present (low : va + 4 ≤ stackbase) (here : s.byte? p va = some byte)
    (zero : ∀ i, 1 ≤ i → i < 4 → s.byte? p (va + i) = some 0) :
    fetchint ld s p va = .ok (some byte.toNat, s) := by
  unfold fetchint
  rw [if_neg]
  · refine Kern.bind_eq_ok.mpr ⟨(byte.toNat, s), ?_, rfl⟩
    refine Kern.bind_eq_ok.mpr ⟨_, load_present here, ?_⟩
    refine Kern.bind_eq_ok.mpr ⟨_, load_present (zero 1 (by decide) (by decide)), ?_⟩
    refine Kern.bind_eq_ok.mpr ⟨_, load_present (zero 2 (by decide) (by decide)), ?_⟩
    exact Kern.bind_eq_ok.mpr ⟨_, load_present (zero 3 (by decide) (by decide)), rfl⟩
  · change va + 4 ≤ 2147483647 at low
    change ¬ (2147483647 ≤ va ∨ 2147483647 < (va + 4) % 4294967296)
    omega

/--
The first process calls `wait` while its child is a zombie with status 7.  Its
page holds zeros, except for the byte at address 4, the argument.
-/
theorem sample_parent (byte : UInt8) : ∃ s, (system sampleLinkage).Reachable s ∧
    Begins sampleLinkage 0 0 (.wait byte.toNat) s s ∧
    (Reaper.wait byte.toNat).zombie s 0 = some 1 ∧ (s.proc 1).exitStatus = 7 ∧
    s.byte? 0 0 = some 0 := by
  obtain ⟨first, kstack, d, _, boot, layout, enough⟩ := sample_boots (by decide : 100 ≤ 0x800)
  have started := boot.started (sampleKmem_free (by decide)) ‹_› layout enough
  obtain ⟨u, child, frame, ran, forked⟩ := started.forks (by decide) (by decide)
  obtain ⟨v, _, reached, free, _, status, zombie, parent, running, own⟩ :=
    started.childExits ran forked (by
      rw [dispatch_cpu, Function.update_of_ne (by decide), boot.cpu])
  have mapped : (d.lookup 0).isSome = true :=
    (started.layout.exact 0 (by decide)).mpr (.inl (by decide))
  obtain ⟨pte, found⟩ := Option.isSome_iff_exists.mp mapped
  -- in user mode the parent writes its page and moves its stack pointer
  let page : Page := fun offset => if offset.val = 4 then byte else 0
  let s := (v.setKmem { v.kmem with mem := Function.update v.kmem.mem pte.addr page }).modify 0
    fun pr => { pr with tf := { (v.proc 0).tf with esp := 0 }, ofile := (v.proc 0).ofile,
                        cwd := (v.proc 0).cwd }
  have step : Step sampleLinkage v (.user 0) s := by
    refine .user free own fun frame changed => ⟨0, pte, by decide, found, ?_⟩
    by_contra other
    exact changed (Function.update_of_ne (Ne.symm other) _ _)
  have self : s.proc 0 = { v.proc 0 with tf := { (v.proc 0).tf with esp := 0 } } :=
    Kernel.modify_self _ _ _
  have other : s.proc 1 = v.proc 1 := Kernel.modify_of_ne _ _ _ (by decide)
  have bytes : ∀ k < 8, s.byte? 0 k = some (if k = 4 then byte else 0) := by
    intro k small
    have present : d.lookup k = some pte := by
      rw [d.lookup_congr (by omega) (by decide : 0 < 2 ^ 32) (by simp only [pgsize]; omega), found]
    have offset : (Fin.ofNat pgsize k).val = k := Nat.mod_eq_of_lt (by simp only [pgsize]; omega)
    unfold Kernel.byte?
    rw [self, own]
    change (d.lookup k).map (fun pte' => Function.update v.kmem.mem pte.addr page pte'.addr _) = _
    rw [present, Option.map_some, Function.update_self]
    change some (if _ = 4 then byte else 0) = _
    rw [offset]
  have fetched : argint sampleLinkage s 0 0 = .ok (some byte.toNat, s) := by
    have addr : argAddr s 0 0 = 4 := by
      unfold argAddr
      rw [self]
      rfl
    unfold argint
    rw [addr]
    refine fetchint_present (by decide) (bytes 4 (by decide)) fun i low high => ?_
    rw [bytes (4 + i) (by omega), if_neg (by omega)]
  have accepted : argptr sampleLinkage s 0 0 4 = .ok (some byte.toNat, s) := by
    refine Kern.bind_eq_ok.mpr ⟨_, fetched, ?_⟩
    have small := byte.toNat_lt
    dsimp only
    rw [if_neg]
    · rfl
    · unfold uint
      change ¬ (_ ∨ 2147483647 ≤ _ ∨ 2147483647 < (((byte.toNat : Int) + 4) % 4294967296).toNat)
      omega
  refine ⟨s, reached.run (.snoc (.nil v) step), .called ?_ (.inl (Kern.bind_eq_ok.mpr ⟨_, accepted, rfl⟩)), ?_, ?_,
    bytes 0 (by decide)⟩
  · exact free.running
  · refine first_zombie ?_ ?_ ?_
    · rw [other]
      exact zombie
    · rw [other]
      exact parent
    · rw [self]
      exact running
  · rw [other]
    exact status

/-- A status that is wanted is stored at its address only. -/
theorem status_only_iff_wanted : ∃ s, (system sampleLinkage).Reachable s ∧
    (Reaper.wait 4).zombie s 0 = some 1 ∧
    ∀ outcome s', (Reaper.wait 4).pass sampleLinkage s 0 0 = .ok (outcome, s') →
      StatusOnly s s' 0 4 := by
  obtain ⟨s, reached, begins, zombie, _⟩ := sample_parent 4
  refine ⟨s, reached, zombie, (status_only_iff (Inv.reachable reached) begins).mpr ?_⟩
  intro null
  cases null

/-- `wait(0)` stores the status over the first word of the image. -/
theorem wait_null_stores : ¬ ∀ s₀ s (c : Fin ncpu) p (call : Reaper),
    (system sampleLinkage).Reachable s₀ → Begins sampleLinkage c p call s₀ s →
    ∀ outcome s', call.pass sampleLinkage s c p = .ok (outcome, s') →
      StatusOnly s₀ s' p call.status := by
  intro claim
  obtain ⟨s, reached, begins, zombie, status, here⟩ := sample_parent 0
  have inv := Inv.reachable reached
  obtain ⟨_, running, _⟩ := begins.spec inv
  obtain ⟨s', ran⟩ := Reaper.pass_null inv running zombie rfl here (by decide)
  have written := (Reaper.pass_reaps inv running zombie (by decide) ran).2 0 7 (by
    rw [status]
    decide)
  have kept := claim s s 0 0 _ reached begins _ s' ran 0 0 (by decide) here fun some =>
    absurd rfl some
  have same := kept.symm.trans written
  exact absurd same (by decide)

end SlabStudy.Xv6
