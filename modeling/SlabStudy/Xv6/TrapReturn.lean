import SlabStudy.Xv6.ContextSwitch

/-!
# Traps as the interrupted code sees them

To the code that is interrupted a trap is nothing at all, however many traps
and switches come before it goes on, and a system call changes what the kernel
stores in its frame.
-/

namespace SlabStudy.Xv6.Assembly

open Library

variable {T C : Type} {text : Text} {areas : Areas T} {t u : T} {s s' : Machine T C} {c : C}
  {a : Action T} {r v : X86.Regs} {m m' : ByteMemory} {fs : List Frame} {Q : Frame → Prop}
  {low : Option Nat}

/-- Thread `t` is in a trap that came when it had the frames `fs` and, if it was
in the kernel, the stack from `low` on was as in `m`.  `Q` is what is known of the frame. -/
structure Trapped (areas : Areas T) (t : T) (fs : List Frame) (Q : Frame → Prop)
    (low : Option Nat) (m : ByteMemory) (s : Machine T C) : Prop where
  born : s.status t ≠ .unborn
  frames : ∃ upper f, s.frames t = upper ++ f :: fs ∧ Q f
  stack : ∀ sp ∈ low, Set.EqOn s.mem m (span sp (areas.high t))

/-- The trap is over. -/
structure Over (areas : Areas T) (t : T) (fs : List Frame) (Q : Frame → Prop)
    (low : Option Nat) (m : ByteMemory) (s : Machine T C) : Prop where
  frames : s.frames t = fs
  regs : ∃ d f, s.phase d = .on t ∧ Q f ∧ s.regs d = f.regs
  stack : ∀ sp ∈ low, Set.EqOn s.mem m (span sp (areas.high t))

/-- The stack that is kept is that of kernel code, from its stack pointer on. -/
def Keeps (areas : Areas T) (t : T) (Q : Frame → Prop) (low : Option Nat) : Prop :=
  ∀ f, Q f → ∀ sp ∈ low, areas.low t ≤ sp ∧ ¬ f.regs.User ∧ f.regs.sp.toNat = sp

/-- What a system call of `t` stores in its frame is allowed. -/
def Stores (t : T) (Q : Frame → Prop) (s : Machine T C) (c : C) (a : Action T) : Prop :=
  ∀ r m f fs, a = .setFrame r m → s.phase c = .on t → s.frames t = f :: fs → f.syscall = true →
    r.User → Q f → Q { f with regs := r }

theorem Trapped.keep (trapped : Trapped areas t fs Q low m s) (born : s'.status t ≠ .unborn)
    (frames : s'.frames t = s.frames t)
    (stack : ∀ sp ∈ low, Set.EqOn s.mem s'.mem (span sp (areas.high t))) :
    Trapped areas t fs Q low m s' := by
  refine ⟨born, ?_, fun sp kernel b above => ?_⟩
  · rw [frames]
    exact trapped.frames
  · rw [← stack sp kernel above]
    exact trapped.stack sp kernel above

/-- All that runs in the trap lies below the stack that is kept. -/
theorem Trapped.above (trapped : Trapped areas t fs Q low m s) (keeps : Keeps areas t Q low)
    (good : Good text areas t m' r (s.frames t)) {sp : Nat} (kernel : sp ∈ low) :
    areas.low t ≤ r.sp.toNat ∧ r.sp.toNat ≤ sp ∧ floor areas t (s.frames t) ≤ sp := by
  obtain ⟨upper, f, shape, known⟩ := trapped.frames
  obtain ⟨_, inner, rfl⟩ := keeps f known sp kernel
  rw [shape] at good ⊢
  have room : areas.low t ≤ r.sp.toNat := by
    cases upper with
    | nil => exact good.2.1
    | cons g upper => exact good.2.1
  exact ⟨room, good.under (areas.fits t) inner⟩

/-- In the trap the thread is in the kernel. -/
theorem Trapped.kernel (trapped : Trapped areas t fs Q low m s)
    (good : Good text areas t m' r (s.frames t)) : InKernel r := by
  obtain ⟨upper, f, shape, _⟩ := trapped.frames
  rw [shape] at good
  cases upper with
  | nil => exact good.1
  | cons g upper => exact good.1

/-- Writes below the stack pointer leave the kept stack alone. -/
theorem Trapped.below (trapped : Trapped areas t fs Q low m s) (keeps : Keeps areas t Q low)
    (good : Good text areas t s.mem r (s.frames t))
    (kept : ∀ b, b ∉ span (areas.low t) r.sp.toNat → m' b = s.mem b) :
    ∀ sp ∈ low, Set.EqOn s.mem m' (span sp (areas.high t)) := by
  intro sp kernel b above
  obtain ⟨_, under, _⟩ := trapped.above keeps good kernel
  refine (kept b fun inner => ?_).symm
  rw [mem_span] at above inner
  omega

/-- `swtch` leaves the kept stack alone, whether it leaves or takes up the thread. -/
theorem Trapped.switching (trapped : Trapped areas t fs Q low m s) (keeps : Keeps areas t Q low)
    (sound : Sound text areas s) {x u : T} (on : s.phase c = .switching x u) (mine : t = x ∨ t = u)
    {i : X86.Instr} {rest : List X86.Instr} (code : text.fetch (s.regs c).eip = i :: rest) :
    ∀ sp ∈ low, Set.EqOn s.mem (X86.exec (text.next (s.regs c).eip) i (s.regs c, s.mem)).2
      (span sp (areas.high t)) := by
  intro sp kernel b above
  obtain ⟨first, second, other, switching⟩ := sound.switching on
  rcases mine with rfl | rfl
  · obtain ⟨_, under, _⟩ := trapped.above keeps switching.leaves.good kernel
    have inside := switching.inside
    rw [code] at inside
    refine (X86.exec_outside i _ _ fun written => ?_).symm
    exact Set.disjoint_left.mp (saved_below switching.leaves.low) (inside.2.1 written)
      (span_subset_span under le_rfl above)
  · obtain ⟨room, under, _⟩ := trapped.above keeps switching.takes.good kernel
    have apart : Disjoint (areas.area t) (areas.area x) :=
      sound.apart (Ne.symm other) (by rw [second]; decide) (by rw [first]; decide)
    refine switching.others (areas.fits x) code apart _ (.inl ?_)
    exact span_subset_span (room.trans under) le_rfl above

variable {f : Frame}

/-- In a system call the frame is whole and in the thread's own stack. -/
theorem Good.only_frame (good : Good text areas t m r [f]) (code : text.fetch r.eip = [])
    (call : f.syscall = true) :
    Saves m f.base f.regs ∧ f.regs.User ∧ areas.low t ≤ f.base.toNat ∧
      f.base.toNat + 76 ≤ areas.high t := by
  obtain ⟨_, _, ok, level, _⟩ := good
  have user := ok.syscall call
  have low := ok.low
  have high := ok.high
  rw [frameSize, if_pos user] at high
  exact ⟨(level.on_top code).1, user, by omega, high⟩

variable [DecidableEq T] [DecidableEq C]

theorem Trapped.exec_step {i : X86.Instr} {rest : List X86.Instr}
    (trapped : Trapped areas t fs Q low m s) (keeps : Keeps areas t Q low)
    (sound : Sound text areas s) (on : s.phase c = .on t)
    (code : text.fetch (s.regs c).eip = i :: rest) :
    let s' : Machine T C :=
      { s.run c (X86.exec (text.next (s.regs c).eip) i (s.regs c, s.mem)).1
          (X86.exec (text.next (s.regs c).eip) i (s.regs c, s.mem)).2 with
        frames := if i = .iret then Function.update s.frames t (s.frames t).tail else s.frames }
    Trapped areas t fs Q low m s' ∨ Over areas t fs Q low m s' := by
  intro s'
  have good := (sound.on on).2
  obtain ⟨_, kept, back⟩ := good.exec (areas.fits t) (trapped.kernel good).1 code
  have stack := trapped.below keeps good kept
  by_cases last : i = .iret
  · obtain ⟨g, gs, shape, regs⟩ := back last
    obtain ⟨upper, f, shape', known⟩ := trapped.frames
    have frames : s'.frames t = gs := by
      simp [s', last, shape]
    rw [shape] at shape'
    have whole (sp : Nat) (kernel : sp ∈ low) : Set.EqOn s'.mem m (span sp (areas.high t)) :=
      fun b above => (stack sp kernel above).symm.trans (trapped.stack sp kernel above)
    cases upper with
    | nil =>
        obtain ⟨rfl, rfl⟩ := List.cons.inj shape'
        refine .inr ⟨frames, ⟨c, g, on, known, ?_⟩, whole⟩
        exact (Function.update_self _ _ _).trans regs
    | cons h upper =>
        obtain ⟨rfl, rfl⟩ := List.cons.inj shape'
        exact .inl ⟨trapped.born, ⟨upper, f, frames, known⟩, whole⟩
  · refine .inl (trapped.keep trapped.born ?_ stack)
    simp [s', last]

/-- What the processor of a trapped thread does. -/
theorem Trapped.own_step (trapped : Trapped areas t fs Q low m s) (keeps : Keeps areas t Q low)
    (sound : Sound text areas s) (step : Step text areas s (c, a) s') (has : (s.phase c).Has t)
    (stores : Stores t Q s c a) :
    Trapped areas t fs Q low m s' ∨ Over areas t fs Q low m s' := by
  have fits := areas.fits
  have mine {x : T} (on : s.phase c = .on x) : t = x := by
    rw [on] at has
    exact has
  cases step with
  | user on before after minds =>
      obtain rfl := mine on
      exact absurd before (trapped.kernel (sound.on on).2).1
  | work now minds kernel code free =>
      obtain rfl := mine now.on
      refine .inl (trapped.keep trapped.born rfl fun sp inner => minds.own.mono ?_)
      exact span_subset_span (trapped.above keeps (sound.on now.on).2 inner).2.2 le_rfl
  | @call _ x u r m' now minds parked calls =>
      obtain rfl := mine now.on
      have other : t ≠ u := by
        rintro rfl
        rw [(sound.on now.on).1] at parked
        cases parked
      refine .inl (trapped.keep ?_ rfl fun sp inner => minds.own.mono ?_)
      · simpa only [Function.update_of_ne other, Machine.run_status] using trapped.born
      · exact span_subset_span (trapped.above keeps (sound.on now.on).2 inner).2.2 le_rfl
  | exec on kernel code =>
      obtain rfl := mine on
      exact trapped.exec_step keeps sound on code
  | @swtch _ x u i rest on code more =>
      rw [on] at has
      exact .inl (trapped.keep trapped.born rfl (trapped.switching keeps sound on has code))
  | @swtched _ x u i on code =>
      rw [on] at has
      refine .inl (trapped.keep ?_ rfl (trapped.switching keeps sound on has code))
      by_cases leaves : t = x
      · subst leaves
        simp only [Function.update_self]
        decide
      · simpa only [Function.update_of_ne leaves, Machine.run_status] using trapped.born
  | @interrupt _ x n err on room =>
      obtain rfl := mine on
      have good := (sound.on on).2
      have inner := (trapped.kernel good).1
      obtain ⟨_, kept⟩ := good.interrupt (fits t) n err room
      rw [entrySp, if_neg inner] at kept
      have stack := trapped.below keeps good kept
      obtain ⟨upper, f, shape, known⟩ := trapped.frames
      refine .inl ⟨trapped.born, ⟨trapFrame text areas t n (s.regs c) :: upper, f, ?_, known⟩,
        fun sp kernel b above => (stack sp kernel above).symm.trans (trapped.stack sp kernel above)⟩
      simp [shape]
  | @setFrame _ x g gs r m' now frames syscall user others saves =>
      obtain rfl := mine now.on
      have good := (sound.on now.on).2
      rw [frames] at good
      have whole := good
      obtain ⟨_, rfl⟩ := good.setFrame now.code syscall user saves
      obtain ⟨upper, f, shape, known⟩ := trapped.frames
      rw [frames] at shape
      obtain ⟨rfl, rfl, rfl⟩ : upper = [] ∧ f = g ∧ fs = [] := by
        cases upper with
        | nil =>
            obtain ⟨rfl, rfl⟩ := List.cons.inj shape
            exact ⟨rfl, rfl, rfl⟩
        | cons h upper => exact absurd (List.cons.inj shape).2.symm (by simp)
      refine .inl ⟨trapped.born, ⟨[], { f with regs := r }, Function.update_self _ _ _,
        stores r m' f [] rfl now.on frames syscall user known⟩, fun sp kernel => ?_⟩
      exact absurd (whole.2.2.1.syscall syscall) (keeps f known sp kernel).2.1
  | leave now frames kernel exit sp =>
      exact .inl (trapped.keep trapped.born rfl fun _ _ => Set.eqOn_refl _ _)
  | @spawn _ x u base r now vacant newborn =>
      obtain rfl := mine now.on
      have other : t ≠ u := by
        rintro rfl
        exact trapped.born vacant.unborn
      refine .inl (trapped.keep ?_ (Function.update_of_ne other _ _) fun _ _ => Set.eqOn_refl _ _)
      simpa only [Function.update_of_ne other] using trapped.born
  | @reap _ x u now parked =>
      obtain rfl := mine now.on
      have other : t ≠ u := by
        rintro rfl
        rw [(sound.on now.on).1] at parked
        cases parked
      refine .inl (trapped.keep ?_ rfl fun _ _ => Set.eqOn_refl _ _)
      simpa only [Function.update_of_ne other] using trapped.born

/-- What a step does to a trapped thread that it names. -/
theorem Trapped.named_step (trapped : Trapped areas t fs Q low m s) (keeps : Keeps areas t Q low)
    (sound : Sound text areas s) (step : Step text areas s (c, a) s') (named : a.Names t) :
    Trapped areas t fs Q low m s' ∨ s'.status t = .unborn ∧ s'.frames t = s.frames t := by
  cases step with
  | user on before after minds => exact absurd named id
  | work now minds kernel code free => exact absurd named id
  | @call _ x u r m' now minds parked calls =>
      obtain rfl : t = u := named
      have other : t ≠ x := by
        rintro rfl
        rw [(sound.on now.on).1] at parked
        cases parked
      refine .inl (trapped.keep ?_ rfl fun sp inner => ?_)
      · simp only [Function.update_self]
        decide
      · obtain ⟨room, under, _⟩ := trapped.above keeps (sound.parked parked).good inner
        refine (minds.others t other trapped.born).mono ?_
        exact (span_subset_span (room.trans under) le_rfl).trans Set.subset_union_left
  | exec on kernel code => exact absurd named id
  | swtch on code more => exact absurd named id
  | swtched on code => exact absurd named id
  | interrupt on room => exact absurd named id
  | setFrame now frames syscall user others saves => exact absurd named id
  | leave now frames kernel exit sp => exact absurd named id
  | @spawn _ x u base r now vacant newborn =>
      obtain rfl : t = u := named
      exact absurd vacant.unborn trapped.born
  | @reap _ x u now parked =>
      obtain rfl : t = u := named
      exact .inr ⟨Function.update_self _ _ _, rfl⟩

/-- What a step does to a trapped thread. -/
theorem Trapped.step (trapped : Trapped areas t fs Q low m s) (keeps : Keeps areas t Q low)
    (sound : Sound text areas s) (step : Step text areas s (c, a) s') (stores : Stores t Q s c a) :
    Trapped areas t fs Q low m s' ∨ Over areas t fs Q low m s' ∨
      s'.status t = .unborn ∧ s'.frames t = s.frames t := by
  obtain ⟨involved, here, _, names⟩ := sound.locally step
  by_cases inner : involved t
  · rcases names t inner with has | named
    · rcases trapped.own_step keeps sound step has stores with still | ended
      · exact .inl still
      · exact .inr (.inl ended)
    · rcases trapped.named_step keeps sound step named with still | unborn
      · exact .inl still
      · exact .inr (.inr unborn)
  · obtain ⟨_, frames, memory⟩ := here.kept t inner trapped.born
    refine .inl (trapped.keep ?_ frames fun sp kernel => ?_)
    · rw [here.status t inner]
      exact trapped.born
    · obtain ⟨_, f, _, known⟩ := trapped.frames
      refine memory.mono ((span_subset_span ?_ le_rfl).trans Set.subset_union_left)
      exact (keeps f known sp kernel).1

/-- A trap that is over by its frames is over. -/
theorem Trapped.run {good : Machine T C → C × Action T → Prop} {labels : List (C × Action T)}
    (trapped : Trapped areas t fs Q low m s) (keeps : Keeps areas t Q low)
    (sound : Sound text areas s)
    (within : ∀ {s label}, good s label → fs.length < (s.frames t).length ∧
      s.status t ≠ .unborn ∧ Stores t Q s label.1 label.2)
    (run : ((machine text areas).guarded good).Run s labels s')
    (back : (s'.frames t).length ≤ fs.length) : Over areas t fs Q low m s' := by
  have kept : Sound text areas s' ∧ (Trapped areas t fs Q low m s' ∨
      Over areas t fs Q low m s' ∨ s'.status t = .unborn ∧ fs.length < (s'.frames t).length) := by
    refine run.preserves (P := fun s => Sound text areas s ∧ (Trapped areas t fs Q low m s ∨
      Over areas t fs Q low m s ∨ s.status t = .unborn ∧ fs.length < (s.frames t).length)) ?_
      ⟨sound, .inl trapped⟩
    rintro s ⟨c, a⟩ s' ⟨sound, state⟩ ⟨inside, step⟩
    obtain ⟨longer, born, stores⟩ := within inside
    refine ⟨Sound.step sound step, ?_⟩
    rcases state with trapped | ended | ⟨unborn, _⟩
    · rcases trapped.step keeps sound step stores with still | ended | ⟨unborn, frames⟩
      · exact .inl still
      · exact .inr (.inl ended)
      · exact .inr (.inr ⟨unborn, by rw [frames]; exact longer⟩)
    · rw [ended.frames] at longer
      exact absurd longer (lt_irrefl _)
    · exact absurd unborn born
  obtain ⟨_, trapped | ended | ⟨_, longer⟩⟩ := kept
  · obtain ⟨upper, f, shape, _⟩ := trapped.frames
    rw [shape, List.length_append, List.length_cons] at back
    omega
  · exact ended
  · omega

/-- Where a trap starts. -/
theorem Trapped.start {n : Fin 256} {err : BitVec 32} (sound : Sound text areas s)
    (on : s.phase c = .on t) (trap : Step text areas s (c, .interrupt n err) s')
    (known : Q (trapFrame text areas t n (s.regs c))) :
    Trapped areas t (s.frames t) Q
      (if (s.regs c).User then none else some (s.regs c).sp.toNat) s.mem s' := by
  obtain ⟨status, good⟩ := sound.on on
  cases trap with
  | @interrupt _ x _ _ on' room =>
      obtain rfl := Phase.on.inj (on.symm.trans on')
      obtain ⟨_, kept⟩ := good.interrupt (areas.fits t) n err room
      refine ⟨?_, ⟨[], _, Function.update_self _ _ _, known⟩, fun sp kernel b above => ?_⟩
      · rw [Machine.run_status, status]
        decide
      · split at kernel <;> rename_i user
        · cases kernel
        · obtain rfl := Option.some.inj kernel
          refine kept b fun inner => ?_
          rw [entrySp, if_neg user, mem_span] at inner
          rw [mem_span] at above
          omega

/-- The code that a trap interrupts does not notice it.  When the trap's frame
is gone again, on whatever processor and after however many traps, switches and
steps of other threads, all registers are as they were, flags and segments
included, and for kernel code so is its stack. -/
theorem interrupt_invisible {n : Fin 256} {err : BitVec 32} {labels : List (C × Action T)}
    {s₁ s₂ : Machine T C} (reached : (machine text areas).Reachable s) (on : s.phase c = .on t)
    (trap : (machine text areas).step s (c, .interrupt n err) s₁)
    (other : n ≠ tSyscall ∨ ¬ (s.regs c).User)
    (run : ((machine text areas).guarded fun s' _ =>
      (s.frames t).length < (s'.frames t).length ∧ s'.status t ≠ .unborn).Run s₁ labels s₂)
    (back : (s₂.frames t).length ≤ (s.frames t).length) :
    s₂.frames t = s.frames t ∧ ∃ d, s₂.phase d = .on t ∧ s₂.regs d = s.regs c ∧
      (¬ (s.regs c).User →
        Set.EqOn s₂.mem s.mem (span (s.regs c).sp.toNat (areas.high t))) := by
  have sound := sound_of_reachable reached
  let Q (f : Frame) : Prop := f.regs = s.regs c ∧ f.syscall = false
  have known : Q (trapFrame text areas t n (s.regs c)) := by
    refine ⟨rfl, decide_eq_false ?_⟩
    rintro ⟨call, user⟩
    exact other.elim (fun no => no call) (fun no => no user)
  have start : Trapped areas t (s.frames t) Q _ s.mem s₁ := Trapped.start sound on trap known
  have keeps : Keeps areas t Q
      (if (s.regs c).User then none else some (s.regs c).sp.toNat) := by
    rintro f ⟨regs, _⟩ sp kernel
    split at kernel <;> rename_i user
    · cases kernel
    · obtain rfl := Option.some.inj kernel
      rw [regs]
      refine ⟨?_, user, rfl⟩
      have good := (sound.on on).2
      cases shape : s.frames t with
      | nil =>
          rw [shape] at good
          exact (good.resolve_left user).2.2.1
      | cons g gs =>
          rw [shape] at good
          exact good.2.1
  obtain ⟨frames, ⟨d, f, on', ⟨regs, _⟩, same⟩, stack⟩ :=
    start.run keeps (Sound.step sound trap)
      (fun within => ⟨within.1, within.2, fun r m f fs _ _ _ call _ known => by
        rw [known.2] at call
        cases call⟩) run back
  refine ⟨frames, d, on', same.trans regs, fun inner => stack _ ?_⟩
  rw [if_neg inner]
  rfl

/-- An interrupt of the kernel's first code. -/
theorem interrupt_invisible_boot : ∃ (s₁ s₂ : Machine (Fin 8 × Fin 8) Unit)
    (labels : List (Unit × Action (Fin 8 × Fin 8))),
    (machine flatText pageAreas).step boot ((), .interrupt 32 0) s₁ ∧
      (machine flatText pageAreas).Run s₁ labels s₂ ∧ s₂.frames (0, 0) = [] ∧
      s₂.regs () = boot.regs () := by
  have room : pageAreas.low (0, 0) + 84 ≤
      (entrySp (BitVec.ofNat 32 (pageAreas.high (0, 0))) (boot.regs ())).toNat := by
    decide
  obtain ⟨s₁, trap, phase, status, frames, inside⟩ := (sound_of_reachable boot_reachable).trap_run
    (t := (0, 0)) rfl room 32 0
  have within : (boot.frames (0, 0)).length < (s₁.frames (0, 0)).length ∧ s₁.status (0, 0) ≠ .unborn := by
    rw [frames, status]
    exact ⟨by simp, by decide⟩
  obtain ⟨k, r, m, run, now⟩ := @inside
    (fun s _ => (boot.frames (0, 0)).length < (s.frames (0, 0)).length ∧ s.status (0, 0) ≠ .unborn)
    fun _ _ => within
  have edge : (machine flatText pageAreas).step boot ((), .interrupt 32 0) s₁ := trap
  have reached := (boot_reachable.step edge).run run.ofGuarded
  have top : (s₁.run () r m).frames (0, 0) = trapFrame flatText pageAreas (0, 0) 32 (boot.regs ()) :: [] := by
    rw [Machine.run_frames, frames]
    rfl
  obtain ⟨labels, m', out⟩ := (sound_of_reachable reached).exit_run now top
    (fun s _ => (boot.frames (0, 0)).length < (s.frames (0, 0)).length ∧ s.status (0, 0) ≠ .unborn)
    (fun _ => within) fun _ _ => within
  have whole := run.append out
  obtain ⟨gone, _, _, same, _⟩ := interrupt_invisible boot_reachable rfl edge
    (.inl (by decide)) whole (by simp)
  exact ⟨s₁, _, _, trap, whole.ofGuarded, gone, same⟩

/-- A system call returns `v`. -/
theorem Sound.return_step (sound : Sound text areas s) (now : Compiled text s c t)
    (frames : s.frames t = [f]) (call : f.syscall = true) (v : BitVec 32) :
    Step text areas s (c, .setFrame (f.regs.set .eax v) (s.mem.setWord (f.base + 28) v))
      { s with
        mem := s.mem.setWord (f.base + 28) v
        frames := Function.update s.frames t [{ f with regs := f.regs.set .eax v }] } := by
  obtain ⟨status, good⟩ := sound.on now.on
  rw [frames] at good
  obtain ⟨saves, user, low, high⟩ := good.only_frame now.code call
  have inside : wordSpan (f.base + 28) ⊆ areas.area t :=
    (word_in_frame low (le_trans (by simp) high) (areas.fits t)).trans Set.subset_union_left
  exact .setFrame now frames call user
    (sound.others_of_stack (by rw [status]; decide) fun b outside => setWord_outside fun inner => outside (inside inner))
    (saves.setEax v)

/-- A system call gives the user code its registers back as the kernel has left
them in the frame: whatever relation all stores of `t`'s own system call into
the frame keep to, the registers after the call are in that relation, some
number of times, to those before. -/
theorem syscall_returns {err : BitVec 32} {R : X86.Regs → X86.Regs → Prop}
    {labels : List (C × Action T)} {s₁ s₂ : Machine T C}
    (reached : (machine text areas).Reachable s) (on : s.phase c = .on t)
    (trap : (machine text areas).step s (c, .interrupt tSyscall err) s₁)
    (user : (s.regs c).User)
    (run : ((machine text areas).guarded fun s' label =>
      (s'.frames t ≠ [] ∧ s'.status t ≠ .unborn) ∧ ∀ r m f fs, label.2 = .setFrame r m →
        s'.phase label.1 = .on t → s'.frames t = f :: fs → R f.regs r).Run s₁ labels s₂)
    (back : s₂.frames t = []) :
    ∃ d, s₂.phase d = .on t ∧ (s₂.regs d).User ∧
      Relation.ReflTransGen R (s.regs c) (s₂.regs d) := by
  have sound := sound_of_reachable reached
  let Q (f : Frame) : Prop := f.regs.User ∧ Relation.ReflTransGen R (s.regs c) f.regs
  have none : s.frames t = [] := by
    have good := (sound.on on).2
    cases shape : s.frames t with
    | nil => rfl
    | cons g gs =>
        rw [shape] at good
        exact absurd user good.1.1
  have start : Trapped areas t (s.frames t) Q _ s.mem s₁ :=
    Trapped.start sound on trap ⟨user, .refl⟩
  rw [none, if_pos user] at start
  have ended := start.run (fun f _ sp inner => absurd inner (Option.not_mem_none sp))
    (Sound.step sound trap)
    (fun within => ⟨List.length_pos_iff.mpr within.1.1, within.1.2,
      fun r m f fs stored here frames _ user known =>
        ⟨user, known.2.tail (within.2 r m f fs stored here frames)⟩⟩) run
    (by rw [back])
  obtain ⟨_, ⟨d, f, on', known, same⟩, _⟩ := ended
  refine ⟨d, on', ?_⟩
  rw [same]
  exact known

/-- What most system calls do with the frame. -/
def SetsEax (r r' : X86.Regs) : Prop := ∃ v, r' = r.set .eax v

theorem SetsEax.of_many {r r' : X86.Regs} (many : Relation.ReflTransGen SetsEax r r') :
    r' = r.set .eax (r'.gpr .eax) := by
  induction many with
  | refl =>
      ext1
      · funext reg
        by_cases first : reg = .eax <;> simp [first]
      · rfl
      · rfl
      · rfl
  | tail _ last ih =>
      obtain ⟨v, rfl⟩ := last
      rw [ih]
      ext1
      · funext reg
        by_cases first : reg = .eax <;> simp [first]
      · rfl
      · rfl
      · rfl

/-- A system call of the first process that returns five. -/
theorem syscall_returns_boot : ∃ (s s₁ s₂ : Machine (Fin 8 × Fin 8) Unit)
    (labels : List (Unit × Action (Fin 8 × Fin 8))), (machine flatText pageAreas).Reachable s ∧
      (machine flatText pageAreas).step s ((), .interrupt tSyscall 0) s₁ ∧
      (machine flatText pageAreas).Run s₁ labels s₂ ∧ ∃ d, s₂.phase d = .on (1, 1) ∧
        (s₂.regs d).User ∧ s₂.regs d = (s.regs ()).set .eax ((s₂.regs d).gpr .eax) := by
  obtain ⟨s, s₁, f, reached, on, user, trap, frames, call, _, engaged, _, inside⟩ := boot_syscall
  let good (x : Machine (Fin 8 × Fin 8) Unit) (label : Unit × Action (Fin 8 × Fin 8)) : Prop :=
    (x.frames (1, 1) ≠ [] ∧ x.status (1, 1) ≠ .unborn) ∧ ∀ r m f fs, label.2 = .setFrame r m →
      x.phase label.1 = .on (1, 1) → x.frames (1, 1) = f :: fs → SetsEax f.regs r
  have busy : s₁.frames (1, 1) ≠ [] ∧ s₁.status (1, 1) ≠ .unborn := by
    rw [frames, engaged]
    exact ⟨by simp, by decide⟩
  obtain ⟨k, r, m, run, now⟩ := @inside good
    fun _ _ => ⟨busy, fun _ _ _ _ no => by cases no⟩
  have top : (s₁.run () r m).frames (1, 1) = [f] := frames
  have reached₂ := (reached.step trap).run run.ofGuarded
  have store : (machine flatText pageAreas).step _ _ _ :=
    (sound_of_reachable reached₂).return_step now top call 5
  have stored := run.snoc ⟨⟨busy, fun r' m' g gs same _ top' => by
    cases same
    obtain ⟨rfl, _⟩ := List.cons.inj (top.symm.trans top')
    exact ⟨5, rfl⟩⟩, store⟩
  obtain ⟨labels, m', out⟩ := (sound_of_reachable (reached₂.step store)).exit_run
    (f := { f with regs := f.regs.set .eax 5 }) (t := (1, 1)) (c := ())
    ⟨now.on, now.kernel, now.code⟩ (by dsimp only; rw [Function.update_self]) good
    (fun _ => ⟨⟨by simp, busy.2⟩, fun _ _ _ _ no => by cases no⟩)
    fun _ _ => ⟨⟨by simp, busy.2⟩, fun _ _ _ _ no => by cases no⟩
  have whole := stored.append out
  obtain ⟨d, back, user', many⟩ :=
    syscall_returns (R := SetsEax) reached on trap user whole (by simp)
  exact ⟨s, s₁, _, _, reached, trap, whole.ofGuarded, d, back, user', SetsEax.of_many many⟩

end SlabStudy.Xv6.Assembly
