import SlabStudy.Xv6.CopyOut

/-!
# The null pointer that uva2ka follows

Where the new directory has no page table, `uva2ka` takes the word at user
address 0 for the entry.  A call that does not come to such an address is the
same whatever that word is, and if the word is no entry of a user page, then
`copyout` gives up there.  Otherwise it stores into the page that the word
names, or the kernel faults because the word is absent.
-/

namespace SlabStudy.Xv6

/-- The word at user address 0 is there, and is no entry of a user page. -/
def Quiet (null : Option Pte) : Prop := ∃ pte, null = some pte ∧ (pte.present && pte.user) = false

theorem quiet_zero : Quiet (some (.ofWord 0)) := ⟨_, rfl, by decide⟩

/-- Two computations that agree step by step unless the first one follows the null pointer. -/
theorem Kern.bind_agree {α β : Type} {x y : Kern α} {f g : α → Kern β}
    (stays : x >>= f ≠ .error .nullPointer) (first : x ≠ .error .nullPointer → y = x)
    (rest : ∀ a, x = .ok a → f a ≠ .error .nullPointer → g a = f a) :
    y >>= g = x >>= f := by
  cases result : x with
  | error reason =>
      rw [first fun same => stays (by rw [same]; rfl), result]
      rfl
  | ok a =>
      rw [first fun same => stays (by rw [same]; rfl), result]
      rw [result] at stays
      exact rest a result stays

variable {null : Option Pte} {ld : Linkage} {d d' : Pgdir} {va : Nat} {km km' : Kmem}
  {bytes : List UInt8}

/-! ## One page -/

theorem copyInto_entry {pte : Pte} (entry : d.pte? va = some pte) (frame : Frame) (start : Nat)
    (bytes : List UInt8) (km : Kmem) :
    copyInto d va frame start bytes km = .ok (km.store frame start bytes, d) := by
  unfold copyInto
  rw [entry]

/-- A page that is found is one of the directory, if the word is no entry of a user page. -/
theorem uva2ka_entry (quiet : Quiet null) {frame : Frame}
    (found : uva2ka null d va = .ok (some frame)) :
    ∃ pte, d.pte? va = some pte ∧ (pte.present && pte.user) = true ∧ frame = pte.addr := by
  unfold uva2ka at found
  cases entry : d.pte? va with
  | some pte =>
      rw [entry, Option.some_or] at found
      dsimp only at found
      split at found
      · next allowed =>
          cases found
          exact ⟨pte, rfl, allowed, rfl⟩
      · cases found
  | none =>
      obtain ⟨pte, rfl, forbids⟩ := quiet
      rw [entry, Option.none_or] at found
      dsimp only at found
      rw [forbids] at found
      cases found

theorem uva2ka_agrees (null : Option Pte)
    (stays : uva2ka none d va ≠ .error .nullPointer) : uva2ka null d va = uva2ka none d va := by
  unfold uva2ka at stays ⊢
  cases entry : d.pte? va with
  | none =>
      rw [entry] at stays
      exact absurd rfl stays
  | some pte => rfl

/-- A store that is followed takes entries out of one page table. -/
theorem Pgdir.strike_eq_some {frame : Frame} {start : Nat}
    (struck : d.strike frame start bytes = some d') :
    ∃ i tab, d.pde i = some tab ∧ tab.Thinned (tab.struck start bytes) ∧
      d' = { d with pde := Function.update d.pde i (some (tab.struck start bytes)) } := by
  unfold Pgdir.strike at struck
  generalize (List.finRange npdentries).find? _ = found at struck
  cases found with
  | none => cases struck
  | some i =>
      rw [Option.bind_eq_bind, Option.bind_some] at struck
      cases here : d.pde i with
      | none =>
          rw [here] at struck
          cases struck
      | some tab =>
          rw [here, Option.bind_eq_bind, Option.bind_some] at struck
          split at struck
          · next thinned => exact ⟨i, tab, here, thinned, (Option.some.inj struck).symm⟩
          · cases struck

/-! ## copyout -/

/-- `copyout` leaves the directory alone, if the word is no entry of a user page. -/
theorem copyout_keeps (quiet : Quiet null) {copied : Bool}
    (ran : copyout null d va bytes km = .ok (copied, km', d')) : d' = d := by
  fun_induction copyout null d va bytes km with
  | case1 =>
      cases ran
      rfl
  | case2 d va km first rest ih =>
      obtain ⟨place, found, tail⟩ := Kern.bind_eq_ok.mp ran
      cases place with
      | none =>
          cases tail
          rfl
      | some frame =>
          obtain ⟨pte, entry, _⟩ := uva2ka_entry quiet found
          obtain ⟨⟨km₁, d₁⟩, stored, tail⟩ := Kern.bind_eq_ok.mp tail
          rw [copyInto_entry entry] at stored
          cases stored
          exact ih _ _ tail

/-- A call that does not come to a missing page table is the same whatever the word is. -/
theorem copyout_agrees (null : Option Pte)
    (stays : copyout none d va bytes km ≠ .error .nullPointer) :
    copyout null d va bytes km = copyout none d va bytes km := by
  fun_induction copyout none d va bytes km with
  | case1 => exact copyout_nil ..
  | case2 d va km first rest ih =>
      rw [copyout]
      refine Kern.bind_agree stays (uva2ka_agrees null) fun place found stays => ?_
      cases place with
      | none => rfl
      | some frame =>
          refine Kern.bind_agree stays (fun _ => rfl) fun result stored stays => ?_
          exact ih _ _ stays

/-! ## exec -/

variable {argv : List (List UInt8)} {s : Kernel} {p : Slot} {file : Option Readi} {name : String}

theorem pushArgs_keeps (quiet : Quiet null) {sp : Nat} {ustack : List Nat}
    {pushed : Option (Nat × List Nat)}
    (ran : pushArgs null d argv sp ustack km = .ok (pushed, km', d')) : d' = d := by
  induction argv generalizing sp ustack km with
  | nil =>
      cases ran
      rfl
  | cons arg rest ih =>
      unfold pushArgs at ran
      split at ran
      · cases ran
        rfl
      · obtain ⟨⟨copied, km₁, d₁⟩, stored, tail⟩ := Kern.bind_eq_ok.mp ran
        obtain rfl := copyout_keeps quiet stored
        cases copied with
        | false =>
            cases tail
            rfl
        | true => exact ih tail

theorem pushArgs_agrees (null : Option Pte) {sp : Nat} {ustack : List Nat}
    (stays : pushArgs none d argv sp ustack km ≠ .error .nullPointer) :
    pushArgs null d argv sp ustack km = pushArgs none d argv sp ustack km := by
  induction argv generalizing sp ustack km d with
  | nil => rfl
  | cons arg rest ih =>
      unfold pushArgs at stays ⊢
      split
      · rfl
      · next room =>
          rw [if_neg room] at stays
          refine Kern.bind_agree stays (copyout_agrees null) fun result _ stays => ?_
          obtain ⟨copied, km₁, d₁⟩ := result
          cases copied with
          | false => rfl
          | true => exact ih stays

theorem execStack_agrees (null : Option Pte)
    (stays : execStack none ld argv km d ≠ .error .nullPointer) :
    execStack null ld argv km d = execStack none ld argv km d := by
  refine Kern.bind_agree stays (fun _ => rfl) fun grown _ stays => ?_
  obtain ⟨result, km₁, d₁⟩ := grown
  dsimp only at stays ⊢
  split
  · rfl
  next positive =>
  rw [if_neg positive] at stays
  refine Kern.bind_agree stays (pushArgs_agrees null) fun pushed _ stays => ?_
  obtain ⟨pushed, km₂, d₂⟩ := pushed
  cases pushed with
  | none => rfl
  | some pair => exact Kern.bind_agree stays (copyout_agrees null) fun _ _ _ => rfl

/-- A call of `exec` that does not come to a missing page table. -/
theorem execReading_agrees (null : Option Pte)
    (stays : execReading none ld file name argv s p ≠ .error .nullPointer) :
    execReading null ld file name argv s p = execReading none ld file name argv s p := by
  unfold execReading at stays ⊢
  cases file with
  | none => rfl
  | some read =>
      dsimp only at stays ⊢
      cases header : read 0 52 with
      | none => rfl
      | some bytes =>
          rw [header] at stays
          dsimp only at stays ⊢
          split
          · rfl
          next magic =>
          rw [if_neg magic] at stays
          refine Kern.bind_agree stays (fun _ => rfl) fun made _ stays => ?_
          obtain ⟨made, km₀⟩ := made
          cases made with
          | none => rfl
          | some d₀ =>
              refine Kern.bind_agree stays (fun _ => rfl) fun loaded _ stays => ?_
              obtain ⟨loaded, km₁, d₁⟩ := loaded
              cases loaded with
              | none => rfl
              | some sz => exact Kern.bind_agree stays (execStack_agrees null) fun _ _ _ => rfl

/--
Some copy of the call of `exec` comes to an address without a page table, so
that the call faults there if the word at user address 0 is absent; and it is
absent, or it is an entry of a user page, and the call stores into this page.
-/
def ExecStrays (ld : Linkage) (file : Option Readi) (name : String) (argv : List (List UInt8))
    (s : Kernel) (p : Slot) : Prop :=
  ¬Quiet (s.nullPte p) ∧ execReading none ld file name argv s p = .error .nullPointer

/-- A call that does not is one with a word that is no entry of a user page. -/
theorem exec_quiet (careful : ¬ExecStrays ld file name argv s p) : ∃ null, Quiet null ∧
    exec ld file name argv s p = execReading null ld file name argv s p := by
  by_cases quiet : Quiet (s.nullPte p)
  · exact ⟨_, quiet, rfl⟩
  · have stays : execReading none ld file name argv s p ≠ .error .nullPointer :=
      fun stops => careful ⟨quiet, stops⟩
    exact ⟨_, quiet_zero,
      (execReading_agrees _ stays).trans (execReading_agrees _ stays).symm⟩

end SlabStudy.Xv6
