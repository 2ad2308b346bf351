import SlabStudy.Xv6.AssemblyProgress

/-!
# Switches as their callers see them

To the thread that calls it, `swtch` is a function that returns.
-/

namespace SlabStudy.Xv6.Assembly

open Library

variable {T C : Type} {text : Text} {areas : Areas T} {t u : T} {s s' : Machine T C} {c : C}
  {a : Action T} {r v : X86.Regs} {m : ByteMemory}

/-- A thread between its call of `swtch` and its return. -/
inductive Gone (s : Machine T C) (t : T) : Prop
  | leaving {c : C} {u : T} (on : s.phase c = .switching t u)
  | parked (waits : s.status t = .parked)
  | coming {c : C} {x : T} (on : s.phase c = .switching x t)

/-- Thread `t` has called `swtch` and will go on with `v`, with its stack as in `m`. -/
structure Away (areas : Areas T) (t : T) (v : X86.Regs) (m : ByteMemory) (s : Machine T C) :
    Prop where
  gone : Gone s t
  view : s.view t = v
  stack : Set.EqOn s.mem m (span v.sp.toNat (areas.high t))

/-- Thread `t` is back, with the registers of `v` that a callee keeps. -/
def Back (areas : Areas T) (t : T) (v : X86.Regs) (m : ByteMemory) (s : Machine T C) : Prop :=
  ∃ d, s.phase d = .on t ∧ Resumes v (s.regs d) ∧
    Set.EqOn s.mem m (span v.sp.toNat (areas.high t))

/-- The upper part of a stack. -/
theorem span_subset_area (low : areas.low t ≤ v.sp.toNat) :
    span v.sp.toNat (areas.high t) ⊆ areas.area t :=
  (span_subset_span low le_rfl).trans Set.subset_union_left

/-- What `swtch` writes lies below the stack of its caller. -/
theorem saved_below (low : areas.low t + 20 ≤ v.sp.toNat) :
    Disjoint (saved areas t v) (span v.sp.toNat (areas.high t)) := by
  rw [Set.disjoint_left]
  rintro b (inner | pointer) above
  · rw [mem_bytesAt] at inner
    rw [mem_span] at above
    bv_omega
  · exact Set.disjoint_left.mp (areas.own t) pointer (span_subset_span (by omega) le_rfl above)

theorem Gone.status (gone : Gone s t) (sound : Sound text areas s) :
    s.status t = .parked ∨ s.status t = .engaged := by
  cases gone with
  | leaving on => exact .inr (sound.switching on).1
  | parked waits => exact .inl waits
  | coming on => exact .inr (sound.switching on).2.1

/-- A thread that runs is not away. -/
theorem Gone.not_on (gone : Gone s t) (sound : Sound text areas s) {d : C}
    (on : s.phase d = .on t) : False := by
  have has : (s.phase d).Has t := by
    rw [on]
    rfl
  cases gone with
  | parked waits =>
      rw [sound.engaged has] at waits
      cases waits
  | @leaving c u on' =>
      obtain rfl : d = c := sound.alone has (by rw [on']; exact .inl rfl)
      cases on.symm.trans on'
  | @coming c x on' =>
      obtain rfl : d = c := sound.alone has (by rw [on']; exact .inr rfl)
      cases on.symm.trans on'

/-- A thread that is away has its whole stack pointer above its context. -/
theorem Away.low (away : Away areas t v m s) (sound : Sound text areas s) :
    areas.low t + 20 ≤ v.sp.toNat := by
  rw [← away.view]
  cases away.gone with
  | leaving on => exact (sound.switching on).2.2.2.leaves.low
  | parked waits => exact (sound.parked waits).low
  | coming on => exact (sound.switching on).2.2.2.takes.low

variable [DecidableEq T] [DecidableEq C]

/-- What the processor in `swtch` can do. -/
theorem Step.switching (step : Step text areas s (c, a) s') (on : s.phase c = .switching t u) :
    ∃ i rest, text.fetch (s.regs c).eip = i :: rest ∧
      s'.mem = (X86.exec (text.next (s.regs c).eip) i (s.regs c, s.mem)).2 ∧
      s'.regs c = (X86.exec (text.next (s.regs c).eip) i (s.regs c, s.mem)).1 ∧
      s'.view = s.view ∧
      (s'.phase = s.phase ∨ rest = [] ∧ s'.phase c = .on u ∧ s'.status t = .parked) := by
  cases step with
  | user on' before after minds => cases on.symm.trans on'
  | work now minds kernel code free => cases on.symm.trans now.on
  | call now minds parked calls => cases on.symm.trans now.on
  | exec on' kernel code => cases on.symm.trans on'
  | swtch on' code more =>
      exact ⟨_, _, code, rfl, Function.update_self _ _ _, rfl, .inl rfl⟩
  | swtched on' code =>
      obtain ⟨rfl, rfl⟩ := Phase.switching.inj (on.symm.trans on')
      exact ⟨_, _, code, rfl, Function.update_self _ _ _, rfl,
        .inr ⟨rfl, Function.update_self _ _ _, Function.update_self _ _ _⟩⟩
  | interrupt on' room => cases on.symm.trans on'
  | setFrame now frames syscall user others saves => cases on.symm.trans now.on
  | leave now frames kernel exit sp => cases on.symm.trans now.on
  | spawn now vacant newborn => cases on.symm.trans now.on
  | reap now parked => cases on.symm.trans now.on

/-- What a step can do to a waiting thread that it names. -/
theorem Step.names (step : Step text areas s (c, a) s') (named : a.Names u)
    (parked : s.status u = .parked) (sound : Sound text areas s) :
    s'.status u = .unborn ∨ (∃ t, s'.phase c = .switching t u) ∧ s'.view u = s.view u ∧
      Set.EqOn s.mem s'.mem (areas.area u) := by
  cases step with
  | user on' before after minds => exact absurd named id
  | work now minds kernel code free => exact absurd named id
  | @call _ t u' r m now minds parked' calls =>
      obtain rfl : u = u' := named
      have other : u ≠ t := by
        rintro rfl
        rw [(sound.on now.on).1] at parked
        cases parked
      exact .inr ⟨⟨t, Function.update_self _ _ _⟩, Function.update_of_ne other _ _,
        minds.others u other (by rw [parked]; decide)⟩
  | exec on' kernel code => exact absurd named id
  | swtch on' code more => exact absurd named id
  | swtched on' code => exact absurd named id
  | interrupt on' room => exact absurd named id
  | setFrame now frames syscall user others saves => exact absurd named id
  | leave now frames kernel exit sp => exact absurd named id
  | @spawn _ t u' base r now vacant newborn =>
      obtain rfl : u = u' := named
      have unborn := vacant.unborn
      rw [parked] at unborn
      cases unborn
  | @reap _ t u' now parked' =>
      obtain rfl : u = u' := named
      exact .inl (Function.update_self _ _ _)

/-- A thread that runs, or is in `swtch`, is named by no step. -/
theorem Step.not_names (step : Step text areas s (c, a) s') (engaged : s.status u = .engaged) :
    ¬ a.Names u := by
  intro named
  cases step with
  | user on' before after minds => exact named
  | work now minds kernel code free => exact named
  | call now minds parked calls =>
      obtain rfl := named
      rw [engaged] at parked
      cases parked
  | exec on' kernel code => exact named
  | swtch on' code more => exact named
  | swtched on' code => exact named
  | interrupt on' room => exact named
  | setFrame now frames syscall user others saves => exact named
  | leave now frames kernel exit sp => exact named
  | spawn now vacant newborn =>
      obtain rfl := named
      have unborn := vacant.unborn
      rw [engaged] at unborn
      cases unborn
  | reap now parked =>
      obtain rfl := named
      rw [engaged] at parked
      cases parked

/-- What the processor does to the threads it switches between. -/
theorem Away.own_step (away : Away areas t v m s) (sound : Sound text areas s)
    (step : Step text areas s (c, a) s') (has : (s.phase c).Has t) :
    Away areas t v m s' ∨ s'.status t = .unborn ∨ Back areas t v m s' := by
  have low := away.low sound
  have above : span v.sp.toNat (areas.high t) ⊆ areas.area t := span_subset_area (by omega)
  cases away.gone with
  | parked waits =>
      rw [sound.engaged has] at waits
      cases waits
  | @leaving c' u on =>
      obtain rfl : c = c' := sound.alone has (by rw [on]; exact .inl rfl)
      obtain ⟨_, _, _, switching⟩ := sound.switching on
      obtain ⟨i, rest, code, memory, _, view, phase⟩ := step.switching on
      have inside := switching.inside
      rw [code, away.view] at inside
      have stack : Set.EqOn s'.mem m (span v.sp.toNat (areas.high t)) := by
        intro b at0
        rw [memory, ← away.stack at0]
        refine X86.exec_outside i _ _ fun written => ?_
        exact Set.disjoint_left.mp (saved_below low) (inside.2.1 written) at0
      rw [← away.view, ← view] at stack ⊢
      rcases phase with same | ⟨_, _, parked⟩
      · exact .inl ⟨.leaving ((congrFun same c).trans on), rfl, stack⟩
      · exact .inl ⟨.parked parked, rfl, stack⟩
  | @coming c' x on =>
      obtain rfl : c = c' := sound.alone has (by rw [on]; exact .inr rfl)
      obtain ⟨engaged', engaged, other, switching⟩ := sound.switching on
      obtain ⟨i, rest, code, memory, regs, view, phase⟩ := step.switching on
      have apart : Disjoint (areas.area t) (areas.area x) :=
        sound.apart (Ne.symm other) (by rw [engaged]; decide) (by rw [engaged']; decide)
      have kept := switching.others (areas.fits x) code apart (text.next (s.regs c).eip)
      have stack : Set.EqOn s'.mem m (span v.sp.toNat (areas.high t)) := by
        intro b at0
        rw [memory, ← kept (above at0)]
        exact away.stack at0
      rcases phase with same | ⟨last, back, _⟩
      · exact .inl ⟨.coming ((congrFun same c).trans on), (congrFun view t).trans away.view, stack⟩
      · refine .inr (.inr ⟨c, back, ?_, stack⟩)
        have resumes := switching.resumes
        rw [code, last, away.view] at resumes
        rw [regs]
        exact resumes

/-- What a step does to a thread that is away. -/
theorem Away.step (away : Away areas t v m s) (sound : Sound text areas s)
    (step : Step text areas s (c, a) s') :
    Away areas t v m s' ∨ s'.status t = .unborn ∨ Back areas t v m s' := by
  have low := away.low sound
  have above : span v.sp.toNat (areas.high t) ⊆ areas.area t := span_subset_area (by omega)
  obtain ⟨involved, here, cover, names⟩ := sound.locally step
  by_cases inner : involved t
  · rcases names t inner with has | named
    · exact away.own_step sound step has
    · rcases away.gone.status sound with waits | engaged
      · rcases step.names named waits sound with unborn | ⟨⟨x, on⟩, view, memory⟩
        · exact .inr (.inl unborn)
        · exact .inl ⟨.coming on, view.trans away.view,
            fun b at0 => (memory (above at0)).symm.trans (away.stack at0)⟩
      · exact absurd named (step.not_names engaged)
  · obtain ⟨view, _, memory⟩ := here.kept t inner (by
      rcases away.gone.status sound with status | status <;> rw [status] <;> decide)
    have elsewhere {d : C} (has : (s.phase d).Has t) : s'.phase d = s.phase d := by
      refine (here.elsewhere d ?_).1
      rintro rfl
      exact inner (cover t has)
    refine .inl ⟨?_, view.trans away.view, fun b at0 => ?_⟩
    · cases away.gone with
      | leaving on => exact .leaving ((elsewhere (by rw [on]; exact .inl rfl)).trans on)
      | parked waits => exact .parked ((here.status t inner).trans waits)
      | coming on => exact .coming ((elsewhere (by rw [on]; exact .inr rfl)).trans on)
    · exact (memory (above at0)).symm.trans (away.stack at0)

/-- To its caller `swtch` is a function that returns: when a thread that has
called it runs again for the first time, on whatever processor and whatever all
the other threads have done, the registers a callee keeps, the stack pointer,
the place in the code and the stack are those of a return from the call. -/
theorem swtch_returns {labels : List (C × Action T)} {s₁ s₂ : Machine T C} {u : T}
    (reached : (machine text areas).Reachable s) (on : s.phase c = .on t)
    (call : (machine text areas).step s (c, .call u r m) s₁)
    (run : ((machine text areas).guarded fun s _ =>
      (∀ d, s.phase d ≠ .on t) ∧ s.status t ≠ .unborn).Run s₁ labels s₂)
    {d : C} (back : s₂.phase d = .on t) :
    Resumes (returned r m) (s₂.regs d) ∧
      Set.EqOn s₂.mem m (span (r.sp.toNat + 4) (areas.high t)) := by
  have sound := sound_of_reachable reached
  have start : Sound text areas s₁ ∧ Away areas t (returned r m) m s₁ := by
    refine ⟨Sound.step sound call, ?_⟩
    cases call with
    | call now minds parked calls =>
        obtain rfl := Phase.on.inj (on.symm.trans now.on)
        exact ⟨.leaving (Function.update_self _ _ _), Function.update_self _ _ _,
          Set.eqOn_refl _ _⟩
  have low := start.2.low start.1
  have sp : (returned r m).sp = r.sp + 4 := by simp [returned, X86.Regs.sp]
  have place : (returned r m).sp.toNat = r.sp.toNat + 4 := by
    rw [sp] at low ⊢
    bv_omega
  have kept : Sound text areas s₂ ∧ (Away areas t (returned r m) m s₂ ∨
      s₂.status t = .unborn ∨ Back areas t (returned r m) m s₂) := by
    refine run.preserves (P := fun s => Sound text areas s ∧ (Away areas t (returned r m) m s ∨
      s.status t = .unborn ∨ Back areas t (returned r m) m s)) ?_ ⟨start.1, .inl start.2⟩
    rintro s ⟨c, a⟩ s' ⟨sound, away | unborn | ⟨d, on, _⟩⟩ ⟨⟨idle, born⟩, step⟩
    · exact ⟨Sound.step sound step, away.step sound step⟩
    · exact absurd unborn born
    · exact absurd on (idle d)
  obtain ⟨sound', away | unborn | ⟨d', on', resumes, stack⟩⟩ := kept
  · exact (away.gone.not_on sound' back).elim
  · rw [(sound'.on back).1] at unborn
    cases unborn
  · obtain rfl : d = d' := sound'.alone (x := t) (by rw [back]; rfl) (by rw [on']; rfl)
    rw [place] at stack
    exact ⟨resumes, stack⟩

/-- The first code switches to the first process, which switches back. -/
theorem swtch_returns_boot : ∃ (s s₁ s₂ : Machine (Fin 8 × Fin 8) Unit) (r : X86.Regs) (m : ByteMemory)
    (labels : List (Unit × Action (Fin 8 × Fin 8))),
    (machine flatText pageAreas).Reachable s ∧
      (machine flatText pageAreas).step s ((), .call (1, 1) r m) s₁ ∧
      (machine flatText pageAreas).Run s₁ labels s₂ ∧ Resumes (returned r m) (s₂.regs ()) ∧
      Set.EqOn s₂.mem m (span (r.sp.toNat + 4) (pageAreas.high (0, 0))) := by
  obtain ⟨_, s, made, now, phase, status, frames⟩ :=
    (sound_of_reachable boot_reachable).userinit_run boot_compiled boot_vacant (by decide)
  have reached := boot_reachable.run made
  have room : pageAreas.low (0, 0) + 28 ≤ floor pageAreas (0, 0) (s.frames (0, 0)) := by
    rw [frames]
    decide
  have sound := sound_of_reachable reached
  obtain ⟨r, m, s₁, call, on₁, status₁, frames₁, away⟩ :=
    sound.switch_run (u := (1, 1)) now (by rw [status]; rfl) room
  have born : s₁.status (0, 0) ≠ .unborn := by
    rw [status₁, status]
    decide
  obtain ⟨n, s₂, run₂, phase₂, status₂, frames₂, now₂⟩ := @away
    (fun s _ => (∀ d, s.phase d ≠ .on (0, 0)) ∧ s.status (0, 0) ≠ .unborn)
    fun _ _ => ⟨fun d => by rw [Machine.run_phase, on₁]; simp, born⟩
  have reached₂ := (reached.step call).run run₂.ofGuarded
  have room₂ : pageAreas.low (1, 1) + 28 ≤ floor pageAreas (1, 1) (s₂.frames (1, 1)) := by
    rw [frames₂, frames]
    decide
  obtain ⟨r', m', s₃, call₃, on₃, status₃, _, back⟩ :=
    (sound_of_reachable reached₂).switch_run (u := (0, 0)) now₂ (by rw [status₂]; rfl) room₂
  have born₃ : s₃.status (0, 0) ≠ .unborn := by
    simp [status₃]
  obtain ⟨k, s₄, run₄, phase₄, _, _, now₄⟩ := @back
    (fun s _ => (∀ d, s.phase d ≠ .on (0, 0)) ∧ s.status (0, 0) ≠ .unborn)
    fun _ _ => ⟨fun d => by rw [Machine.run_phase, on₃]; simp, born₃⟩
  have idle : (∀ d, s₂.phase d ≠ .on (0, 0)) ∧ s₂.status (0, 0) ≠ .unborn := by
    refine ⟨fun d => ?_, ?_⟩
    · simp [now₂.on]
    · simp [status₂]
  have whole := (run₂.snoc ⟨idle, call₃⟩).append run₄
  have result := swtch_returns reached now.on call whole now₄.on
  exact ⟨s, s₁, s₄, r, m, _, reached, call, whole.ofGuarded, result⟩

end SlabStudy.Xv6.Assembly
