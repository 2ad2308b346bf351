import SlabStudy.Xv6.ThreadInvariant

/-!
# The invariant of the threads

Every thread that runs can go on to its end, every thread that does not has its
context where its pointer says, and a processor in the middle of `swtch` will
leave both threads in order.
-/

namespace SlabStudy.Xv6.Assembly

open Library

variable {T C : Type} {text : Text} {areas : Areas T} {t u : T} {r v w : X86.Regs}
  {m m' : ByteMemory} {fs gs : List Frame}

/-! ## Threads that wait -/

section Waiting

variable (text : Text) (areas : Areas T)

/-- A thread that does not run: it goes on with `v`. -/
structure Parked (t : T) (m : ByteMemory) (v : X86.Regs) (fs : List Frame) : Prop where
  kernel : InKernel v
  code : text.fetch v.eip = []
  slot : m.word (areas.slot t) = v.sp - 20
  context : Context m (v.sp - 20) v
  low : areas.low t + 20 ≤ v.sp.toNat
  good : Good text areas t m v fs

/-- What `swtch` writes when `t` calls it. -/
def saved (t : T) (v : X86.Regs) : Set (BitVec 32) :=
  bytesAt (v.sp - 20) 16 ∪ wordSpan (areas.slot t)

/-- A processor in `swtch` with the registers `r`, from `t` to `u`. -/
structure Switching (t u : T) (m : ByteMemory) (r v w : X86.Regs) (fs gs : List Frame) :
    Prop where
  kernel : InKernel r
  rest : ∃ body, body.all plain ∧ text.fetch r.eip = body ++ [.ret]
  inside : X86.Inside text.next (areas.area t ∪ areas.area u) (saved areas t v)
    (text.fetch r.eip) (r, m)
  resumes : Resumes w (X86.runs text.next (text.fetch r.eip) (r, m)).1
  leaves : Parked text areas t (X86.runs text.next (text.fetch r.eip) (r, m)).2 v fs
  takes : Parked text areas u (X86.runs text.next (text.fetch r.eip) (r, m)).2 w gs

end Waiting

theorem Parked.sp_le (parked : Parked text areas t m v fs) : v.sp.toNat ≤ areas.high t :=
  parked.good.sp_le parked.kernel.1

theorem Parked.congr (parked : Parked text areas t m v fs) (fits : areas.high t < 2 ^ 32)
    (same : Set.EqOn m m' (areas.area t)) : Parked text areas t m' v fs := by
  have low := parked.low
  have top := parked.sp_le
  have stack : Set.EqOn m m' (span (areas.low t) (areas.high t)) :=
    same.mono Set.subset_union_left
  have word (k : BitVec 32) (last : k.toNat + 4 ≤ 20) :
      m'.word (v.sp - 20 + k) = m.word (v.sp - 20 + k) :=
    (word_congr (stack.mono (bytesAt_subset_span (by bv_omega) (by bv_omega) (by omega)))).symm
  have first : m'.word (v.sp - 20) = m.word (v.sp - 20) := by simpa using word 0 (by decide)
  refine ⟨parked.kernel, parked.code, ?_, ⟨?_, ?_, ?_, ?_, ?_, parked.context.sp⟩, low,
    parked.good.congr fits fun _ => stack.mono (span_subset_span (by omega) le_rfl)⟩
  · rw [← parked.slot]
    exact (word_congr (same.mono Set.subset_union_right)).symm
  · exact first.trans parked.context.edi
  · exact (word 4 (by decide)).trans parked.context.esi
  · exact (word 8 (by decide)).trans parked.context.ebx
  · exact (word 12 (by decide)).trans parked.context.ebp
  · exact (word 16 (by decide)).trans parked.context.eip

/-- A thread goes on where it was. -/
theorem Parked.resume (parked : Parked text areas t m v fs) (fits : areas.high t < 2 ^ 32)
    (resumes : Resumes v r) (kernel : InKernel r) : Good text areas t m r fs := by
  obtain ⟨low, free⟩ := parked.good.free parked.kernel.1 parked.code
  have code := parked.code
  rw [← resumes.eip] at code
  rw [← resumes.sp] at low free
  exact parked.good.work fits parked.code (Set.eqOn_refl _ _) kernel code low free

theorem Switching.congr (switching : Switching text areas t u m r v w fs gs)
    (fitsT : areas.high t < 2 ^ 32) (fitsU : areas.high u < 2 ^ 32)
    (same : Set.EqOn m m' (areas.area t ∪ areas.area u)) :
    Switching text areas t u m' r v w fs gs := by
  obtain ⟨kernel, rest, inside, resumes, leaves, takes⟩ := switching
  obtain ⟨regs, memory, inside'⟩ := X86.runs_inside (r, m') inside same subset_rfl rfl
  rw [regs] at resumes
  exact ⟨kernel, rest, inside', resumes,
    leaves.congr fitsT (memory.mono Set.subset_union_left),
    takes.congr fitsU (memory.mono Set.subset_union_right)⟩

/-- One instruction of `swtch` that is not its last. -/
theorem Switching.exec (switching : Switching text areas t u m r v w fs gs) {i : X86.Instr}
    {rest : List X86.Instr} (code : text.fetch r.eip = i :: rest) (more : rest ≠ []) :
    Switching text areas t u (X86.exec (text.next r.eip) i (r, m)).2
      (X86.exec (text.next r.eip) i (r, m)).1 v w fs gs := by
  obtain ⟨kernel, ⟨body, easy, shape⟩, inside, resumes, leaves, takes⟩ := switching
  have after := Text.fetch_after code more
  rw [code] at inside resumes leaves takes
  cases body with
  | nil =>
      rw [code] at shape
      exact absurd (List.cons.inj shape).2 more
  | cons j body =>
      rw [code] at shape
      obtain ⟨rfl, rfl⟩ := List.cons.inj shape
      rw [List.all_cons, Bool.and_eq_true] at easy
      obtain ⟨eip, cs, ss⟩ := exec_plain easy.1 (text.next r.eip) (r, m)
      rw [← eip] at after
      refine ⟨⟨?_, ?_⟩, ⟨body, easy.2, after⟩, ?_, ?_, ?_, ?_⟩
      · unfold X86.Regs.User
        rw [cs]
        exact kernel.1
      · rw [ss]
        exact kernel.2
      · rw [after]
        exact inside.2.2
      · rw [after]
        exact resumes
      · rw [after]
        exact leaves
      · rw [after]
        exact takes

theorem Parked.saved_subset (parked : Parked text areas t m v fs) (fits : areas.high t < 2 ^ 32) :
    saved areas t v ⊆ areas.area t := by
  have low := parked.low
  have high := parked.sp_le
  refine Set.union_subset_union_left _ ?_
  exact bytesAt_subset_span (by bv_omega) (by bv_omega) (by omega)

/-- A call of `swtch` by `t` in favour of the waiting `u`. -/
theorem Switching.call (fits : ∀ t, areas.high t < 2 ^ 32)
    (apart : Disjoint (areas.area t) (areas.area u)) (kernel : InKernel r)
    (low : areas.low t + 16 ≤ r.sp.toNat) (high : r.sp.toNat + 12 ≤ areas.high t)
    (entry : text.fetch r.eip = swtch) (back : text.fetch (m.word r.sp) = [])
    (old : m.word (r.sp + 4) = areas.slot t) (new : m.word (r.sp + 8) = m.word (areas.slot u))
    (waiting : Parked text areas u m w gs) (after : Good text areas t m (returned r m) fs) :
    Switching text areas t u m r (returned r m) w fs gs := by
  have bound := fits t
  have lowU := waiting.low
  have highU := waiting.sp_le
  have boundU := fits u
  rw [waiting.slot] at new
  have sp : (returned r m).sp = r.sp + 4 := by simp [returned, X86.Regs.sp]
  have below : r.sp + 4 - 20 = r.sp - 16 := by bv_omega
  have place : (returned r m).sp - 20 = r.sp - 16 := by rw [sp, below]
  -- The caller's own bytes, the other's context and the two pointers are all apart.
  have ours : bytesAt (r.sp - 16) 28 ⊆ span (areas.low t) (areas.high t) :=
    bytesAt_subset_span (by bv_omega) (by bv_omega) (by omega)
  have pushes : bytesAt (r.sp - 16) 16 ⊆ span (areas.low t) (areas.high t) :=
    bytesAt_subset_span (by bv_omega) (by bv_omega) (by omega)
  have frame : bytesAt (r.sp - 16) 20 ⊆ span (areas.low t) (areas.high t) :=
    bytesAt_subset_span (by bv_omega) (by bv_omega) (by omega)
  have theirs : bytesAt (w.sp - 20) 20 ⊆ span (areas.low u) (areas.high u) :=
    bytesAt_subset_span (by bv_omega) (by bv_omega) (by omega)
  have context : Context m (m.word (r.sp + 8)) w := by
    rw [new]
    exact waiting.context
  have within : saved areas t (returned r m) ⊆ areas.area t := by
    refine Set.union_subset_union_left _ ?_
    rw [place]
    exact pushes
  obtain ⟨resumes, segs, slot, own⟩ := swtch_switches text.next (r := r) (m := m)
    (by rw [old]; exact (areas.own t).mono_right frame)
    (by rw [new]; exact apart.mono (pushes.trans Set.subset_union_left)
          (theirs.trans Set.subset_union_left))
    (by rw [old, new]; exact apart.mono Set.subset_union_right
          (theirs.trans Set.subset_union_left)) context
  have inside : X86.Inside text.next (areas.area t ∪ areas.area u)
      (saved areas t (returned r m)) swtch (r, m) := by
    refine swtch_inside text.next ?_ ?_ ?_ ?_
    · exact (ours.trans Set.subset_union_left).trans Set.subset_union_left
    · rw [new]
      exact (theirs.trans Set.subset_union_left).trans Set.subset_union_right
    · unfold saved
      rw [place]
      exact Set.subset_union_left
    · rw [old]
      exact Set.subset_union_right
  refine ⟨kernel, ⟨swtch.dropLast, by rfl, entry⟩, ?_, ?_, ?_, ?_⟩
  · rw [entry]
    exact inside
  · rw [entry]
    exact resumes
  · rw [entry]
    refine ⟨kernel, back, ?_, ?_, ?_, after.congr bound fun _ b above => (inside.outside ?_).symm⟩
    · rw [← old, slot, place]
    · rw [place]
      exact own
    · rw [sp]
      bv_omega
    · rw [sp, mem_span] at above
      rintro (inner | pointer)
      · rw [place, mem_bytesAt] at inner
        bv_omega
      · refine Set.disjoint_left.mp (areas.own t) pointer ?_
        rw [mem_span]
        bv_omega
  · rw [entry]
    refine waiting.congr boundU fun b theirs' => (inside.outside fun inner => ?_).symm
    exact Set.disjoint_left.mp apart (within inner) theirs'

/-! ## All threads -/

section Invariant

variable (text : Text) (areas : Areas T)

structure Sound (s : Machine T C) : Prop where
  on : ∀ {c t}, s.phase c = .on t →
    s.status t = .engaged ∧ Good text areas t s.mem (s.regs c) (s.frames t)
  switching : ∀ {c t u}, s.phase c = .switching t u →
    s.status t = .engaged ∧ s.status u = .engaged ∧ t ≠ u ∧
      Switching text areas t u s.mem (s.regs c) (s.view t) (s.view u) (s.frames t) (s.frames u)
  parked : ∀ {t}, s.status t = .parked → Parked text areas t s.mem (s.view t) (s.frames t)
  alone : ∀ {c d x}, (s.phase c).Has x → (s.phase d).Has x → c = d
  apart : ∀ {t u}, t ≠ u → s.status t ≠ .unborn → s.status u ≠ .unborn →
    Disjoint (areas.area t) (areas.area u)

/-- What a step of `c` has to do with: nothing changes for the threads that are
not `involved`, and `c` leaves the others in order. -/
structure Local (s : Machine T C) (c : C) (involved : T → Prop) (s' : Machine T C) : Prop where
  elsewhere : ∀ d, d ≠ c → s'.phase d = s.phase d ∧ s'.regs d = s.regs d
  free : ∀ d x, d ≠ c → (s.phase d).Has x → ¬ involved x
  status : ∀ x, ¬ involved x → s'.status x = s.status x
  kept : ∀ x, ¬ involved x → s.status x ≠ .unborn →
    s'.view x = s.view x ∧ s'.frames x = s.frames x ∧ Set.EqOn s.mem s'.mem (areas.area x)
  here : ∀ x, (s'.phase c).Has x → involved x
  on : ∀ {t}, s'.phase c = .on t →
    s'.status t = .engaged ∧ Good text areas t s'.mem (s'.regs c) (s'.frames t)
  switching : ∀ {t u}, s'.phase c = .switching t u →
    s'.status t = .engaged ∧ s'.status u = .engaged ∧ t ≠ u ∧
      Switching text areas t u s'.mem (s'.regs c) (s'.view t) (s'.view u) (s'.frames t)
        (s'.frames u)
  parked : ∀ {t}, involved t → s'.status t = .parked →
    Parked text areas t s'.mem (s'.view t) (s'.frames t)
  apart : ∀ {t u}, t ≠ u → s'.status t ≠ .unborn → s'.status u ≠ .unborn →
    Disjoint (areas.area t) (areas.area u)

end Invariant

theorem Sound.update {s s' : Machine T C} {c : C} {involved : T → Prop}
    (sound : Sound text areas s) (step : Local text areas s c involved s') :
    Sound text areas s' := by
  have fits := areas.fits
  refine ⟨fun {d t} on => ?_, fun {d t u} on => ?_, fun {t} waits => ?_,
    fun {d d' x} first second => ?_, step.apart⟩
  · by_cases own : d = c
    · subst own
      exact step.on on
    · obtain ⟨phase, regs⟩ := step.elsewhere d own
      rw [phase] at on
      obtain ⟨status, good⟩ := sound.on on
      have outer := step.free d t own (by rw [on]; rfl)
      obtain ⟨_, frames, memory⟩ := step.kept t outer (by rw [status]; decide)
      rw [step.status t outer, regs, frames]
      refine ⟨status, good.congr (fits t) fun inner b above => memory ?_⟩
      refine Or.inl ⟨?_, above.2⟩
      cases shape : s.frames t with
      | nil =>
          rw [shape] at good
          exact (good.resolve_left inner).2.2.1.trans above.1
      | cons f fs =>
          rw [shape] at good
          exact good.2.1.trans above.1
  · by_cases own : d = c
    · subst own
      exact step.switching on
    · obtain ⟨phase, regs⟩ := step.elsewhere d own
      rw [phase] at on
      obtain ⟨statusT, statusU, other, switching⟩ := sound.switching on
      have outerT := step.free d t own (by rw [on]; exact .inl rfl)
      have outerU := step.free d u own (by rw [on]; exact .inr rfl)
      obtain ⟨viewT, framesT, memoryT⟩ := step.kept t outerT (by rw [statusT]; decide)
      obtain ⟨viewU, framesU, memoryU⟩ := step.kept u outerU (by rw [statusU]; decide)
      rw [step.status t outerT, step.status u outerU, regs, viewT, viewU, framesT, framesU]
      exact ⟨statusT, statusU, other,
        switching.congr (fits t) (fits u) (memoryT.union memoryU)⟩
  · by_cases inner : involved t
    · exact step.parked inner waits
    · rw [step.status t inner] at waits
      obtain ⟨view, frames, memory⟩ := step.kept t inner (by rw [waits]; decide)
      rw [view, frames]
      exact (sound.parked waits).congr (fits t) memory
  · by_cases own : d = c
    · by_cases own' : d' = c
      · exact own.trans own'.symm
      · subst own
        rw [(step.elsewhere d' own').1] at second
        exact absurd (step.here x first) (step.free d' x own' second)
    · rw [(step.elsewhere d own).1] at first
      by_cases own' : d' = c
      · subst own'
        exact absurd (step.here x second) (step.free d x own first)
      · rw [(step.elsewhere d' own').1] at second
        exact sound.alone first second

theorem Boots.sound {s : Machine T C} (boots : Boots text areas s) : Sound text areas s := by
  have start {c : C} {t : T} (on : s.phase c = .on t) :
      Compiled text s c t ∧ s.frames t = [] ∧ s.status t = .engaged ∧
        Free areas s t (s.regs c) := by
    obtain ⟨t', now, rest⟩ := boots.start c
    obtain rfl : t' = t := Phase.on.inj (now.on.symm.trans on)
    exact ⟨now, rest⟩
  refine ⟨fun {c t} on => ?_, fun {c t u} on => ?_, fun {t} waits => absurd waits (boots.others t),
    fun {c d x} first second => ?_, boots.apart⟩
  · obtain ⟨now, frames, status, low, free⟩ := start on
    rw [frames] at free ⊢
    exact ⟨status, .inr ⟨now.kernel, now.code, low, free⟩⟩
  · obtain ⟨t', now, _⟩ := boots.start c
    rw [now.on] at on
    cases on
  · obtain ⟨t, now, _⟩ := boots.start c
    obtain ⟨t', now', _⟩ := boots.start d
    rw [now.on] at first
    rw [now'.on] at second
    obtain rfl : x = t := first
    obtain rfl : x = t' := second
    exact boots.alone now.on now'.on

/-! ## Steps -/

section

variable [DecidableEq C] (s : Machine T C) (c : C) (r : X86.Regs) (m : ByteMemory)

@[simp] theorem Machine.run_mem : (s.run c r m).mem = m := rfl
@[simp] theorem Machine.run_regs : (s.run c r m).regs c = r := Function.update_self _ _ _
@[simp] theorem Machine.run_phase : (s.run c r m).phase = s.phase := rfl
@[simp] theorem Machine.run_status : (s.run c r m).status = s.status := rfl
@[simp] theorem Machine.run_view : (s.run c r m).view = s.view := rfl
@[simp] theorem Machine.run_frames : (s.run c r m).frames = s.frames := rfl

end

variable {s s' : Machine T C} {c : C}

/-- Memory that changes on the stack of `t` only is the same for the others. -/
theorem Sound.others_of_stack (sound : Sound text areas s) (born : s.status t ≠ .unborn)
    (kept : ∀ b, b ∉ areas.area t → m' b = m b) :
    ∀ u, u ≠ t → s.status u ≠ .unborn → Set.EqOn m m' (areas.area u) := by
  intro u other there b inside
  refine (kept b fun own => ?_).symm
  exact Set.disjoint_left.mp (sound.apart other there born) inside own

/-- A step that makes no thread. -/
theorem Sound.still_apart (sound : Sound text areas s)
    (born : ∀ x, s'.status x ≠ .unborn → s.status x ≠ .unborn) {t u : T} (other : t ≠ u)
    (first : s'.status t ≠ .unborn) (second : s'.status u ≠ .unborn) :
    Disjoint (areas.area t) (areas.area u) :=
  sound.apart other (born t first) (born u second)

/-- What an instruction of `swtch` leaves of the memory of the others. -/
theorem Switching.others {w : X86.Regs} (switching : Switching text areas t u m r v w fs gs)
    (fits : areas.high t < 2 ^ 32) {i : X86.Instr} {rest : List X86.Instr}
    (code : text.fetch r.eip = i :: rest) {x : T} (apart : Disjoint (areas.area x) (areas.area t))
    (e : BitVec 32) : Set.EqOn m (X86.exec e i (r, m)).2 (areas.area x) := by
  have inside := switching.inside
  rw [code] at inside
  intro b theirs
  refine (X86.exec_outside i r m fun written => ?_).symm
  exact Set.disjoint_left.mp apart theirs
    (switching.leaves.saved_subset fits (inside.2.1 written))

theorem Sound.engaged (sound : Sound text areas s) {x : T} (has : (s.phase c).Has x) :
    s.status x = .engaged := by
  cases shape : s.phase c with
  | on t =>
      rw [shape] at has
      obtain rfl : x = t := has
      exact (sound.on shape).1
  | switching t u =>
      rw [shape] at has
      rcases has with rfl | rfl
      · exact (sound.switching shape).1
      · exact (sound.switching shape).2.1

/-- No other processor has to do with two threads of which each is on `c` or
does not run. -/
theorem Sound.free (sound : Sound text areas s)
    (own : ∀ x, x = t ∨ x = u → (s.phase c).Has x ∨ s.status x ≠ .engaged) :
    ∀ d x, d ≠ c → (s.phase d).Has x → ¬ (x = t ∨ x = u) := by
  intro d x other has pair
  rcases own x pair with here | idle
  · exact other (sound.alone has here)
  · exact idle (sound.engaged has)

section Stay

variable [DecidableEq C]

/-- A step that has to do with the thread on `c` only, which stays there. -/
theorem Sound.stay (sound : Sound text areas s) (on : s.phase c = .on t) {r : X86.Regs}
    {m : ByteMemory} {frames : T → List Frame}
    (others : ∀ u, u ≠ t → s.status u ≠ .unborn → Set.EqOn s.mem m (areas.area u))
    (same : ∀ u, u ≠ t → frames u = s.frames u) (good : Good text areas t m r (frames t)) :
    Local text areas s c (· = t) { s.run c r m with frames := frames } := by
  have phase : ({ s.run c r m with frames := frames } : Machine T C).phase c = .on t := on
  refine ⟨fun d other => ?_, fun d x other has => ?_,
    fun x _ => rfl, fun x outer born => ⟨rfl, same x outer, others x outer born⟩, fun x has => ?_,
    fun {t'} on' => ?_, fun {t' u} on' => ?_, fun {x} inner waits => ?_, sound.apart⟩
  · exact ⟨rfl, Function.update_of_ne other _ _⟩
  · rintro rfl
    refine other (sound.alone has ?_)
    rw [on]
    rfl
  · rw [phase] at has
    exact has
  · obtain rfl : t' = t := Phase.on.inj (on'.symm.trans on)
    refine ⟨(sound.on on).1, ?_⟩
    simpa using good
  · rw [phase] at on'
    cases on'
  · obtain rfl : x = t := inner
    have engaged : s.status x = .parked := waits
    rw [(sound.on on).1] at engaged
    cases engaged

theorem Sound.swtch {i : X86.Instr} {rest : List X86.Instr} (sound : Sound text areas s)
    (on : s.phase c = .switching t u) (code : text.fetch (s.regs c).eip = i :: rest)
    (more : rest ≠ []) : Local text areas s c (fun x => x = t ∨ x = u)
      (s.run c (X86.exec (text.next (s.regs c).eip) i (s.regs c, s.mem)).1
        (X86.exec (text.next (s.regs c).eip) i (s.regs c, s.mem)).2) := by
  have fits := areas.fits
  obtain ⟨statusT, statusU, other, switching⟩ := sound.switching on
  have has {x : T} (pair : x = t ∨ x = u) : (s.phase c).Has x := by
    rw [on]
    exact pair
  have away (x : T) (other : x ≠ t) (born : s.status x ≠ .unborn) :
      Disjoint (areas.area x) (areas.area t) := by
    refine sound.apart other born ?_
    rw [statusT]
    decide
  refine ⟨fun d away => ⟨rfl, Function.update_of_ne away _ _⟩,
      sound.free fun x pair => .inl (has pair), fun x _ => rfl,
      fun x outer born => ⟨rfl, rfl, switching.others (fits t) code
        (away x (fun same => outer (.inl same)) born) (text.next (s.regs c).eip)⟩,
      fun x here => ?_, fun {t'} on' => ?_, fun {t' u'} on' => ?_, fun {x} inner waits => ?_,
      sound.apart⟩
  · rw [Machine.run_phase, on] at here
    exact here
  · rw [Machine.run_phase, on] at on'
    cases on'
  · rw [Machine.run_phase, on] at on'
    obtain ⟨rfl, rfl⟩ := Phase.switching.inj on'
    refine ⟨statusT, statusU, other, ?_⟩
    simpa using switching.exec code more
  · rw [Machine.run_status, sound.engaged (has inner)] at waits
    cases waits

end Stay

variable [DecidableEq T]

theorem Sound.reap (sound : Sound text areas s) (now : Compiled text s c t)
    (parked : s.status u = .parked) :
    Local text areas s c (fun x => x = t ∨ x = u)
      { s with status := Function.update s.status u .unborn } := by
  obtain ⟨status, good⟩ := sound.on now.on
  have other : t ≠ u := by
    rintro rfl
    rw [status] at parked
    cases parked
  refine ⟨fun d away => ⟨rfl, rfl⟩, sound.free fun x pair => ?_,
      fun x outer => Function.update_of_ne (fun same => outer (.inr same)) _ _,
      fun x outer _ => ⟨rfl, rfl, Set.eqOn_refl _ _⟩,
      fun x here => ?_, fun {t'} on' => ?_, fun {t' u'} on' => ?_, fun {x} inner waits => ?_,
      sound.still_apart fun x => ?_⟩
  · rcases pair with rfl | rfl
    · rw [now.on]
      exact .inl rfl
    · rw [parked]
      exact .inr (by decide)
  · dsimp only at here
    rw [now.on] at here
    exact .inl here
  · obtain rfl := Phase.on.inj (now.on.symm.trans on')
    simp only [Function.update_of_ne other]
    exact ⟨status, good⟩
  · cases now.on.symm.trans on'
  · rcases inner with rfl | rfl
    · simp only [Function.update_of_ne other, status] at waits
      cases waits
    · simp only [Function.update_self] at waits
      cases waits
  · dsimp only
    by_cases same : x = u
    · rw [same, Function.update_self]
      exact fun born => absurd rfl born
    · rw [Function.update_of_ne same]
      exact id

theorem Sound.spawn {base : BitVec 32} {r : X86.Regs} (sound : Sound text areas s)
    (now : Compiled text s c t) (vacant : Vacant areas s u)
    (newborn : Newborn text areas s.mem u base r) : Local text areas s c (fun x => x = t ∨ x = u)
      { s with
        status := Function.update s.status u .parked
        view := Function.update s.view u (firstView text base (s.regs c))
        frames := Function.update s.frames u [⟨base, r, s.mem.word (base - 4), base, false⟩] } := by
  have fits := areas.fits
  have unborn := vacant.unborn
  obtain ⟨status, good⟩ := sound.on now.on
  have other : t ≠ u := by
    rintro rfl
    rw [status] at unborn
    cases unborn
  have low := newborn.low
  have high := newborn.high
  have size : frameSize r = 76 := if_pos newborn.user
  have place : base - 4 - 20 = base - 24 := by bv_omega
  have first : Parked text areas u s.mem (firstView text base (s.regs c))
      [⟨base, r, s.mem.word (base - 4), base, false⟩] := by
    have sp : (firstView text base (s.regs c)).sp = base - 4 := by simp [firstView, X86.Regs.sp]
    refine ⟨now.kernel, text.fetch_forkret, ?_, ?_, ?_, now.kernel, ?_,
      ⟨.inr ⟨?_, rfl⟩, ?_, ?_, ?_⟩, .compiled text.fetch_forkret newborn.saves ?_, .inl newborn.user⟩
    · rw [sp, place]
      exact newborn.slot
    · rw [sp, place]
      exact newborn.context _
    · rw [sp]
      bv_omega
    · rw [sp]
      bv_omega
    · rw [newborn.ret]
      exact text.fetch_trapret
    · dsimp only
      omega
    · dsimp only
      omega
    · exact fun no => Bool.noConfusion no
    · rw [sp]
      bv_omega
  refine ⟨fun d away => ⟨rfl, rfl⟩, sound.free fun x pair => ?_,
      fun x outer => Function.update_of_ne (fun same => outer (.inr same)) _ _,
      fun x outer _ => ⟨Function.update_of_ne (fun same => outer (.inr same)) _ _,
        Function.update_of_ne (fun same => outer (.inr same)) _ _, Set.eqOn_refl _ _⟩,
      fun x here => ?_, fun {t'} on' => ?_, fun {t' u'} on' => ?_, fun {x} inner waits => ?_,
      fun {x y} away first' second' => ?_⟩
  · rcases pair with rfl | rfl
    · rw [now.on]
      exact .inl rfl
    · rw [unborn]
      exact .inr (by decide)
  · dsimp only at here
    rw [now.on] at here
    exact .inl here
  · obtain rfl := Phase.on.inj (now.on.symm.trans on')
    simp only [Function.update_of_ne other]
    exact ⟨status, good⟩
  · cases now.on.symm.trans on'
  · rcases inner with rfl | rfl
    · simp only [Function.update_of_ne other, status] at waits
      cases waits
    · simp only [Function.update_self]
      exact first
  · dsimp only at first' second'
    by_cases new : x = u
    · rw [Function.update_of_ne (new ▸ Ne.symm away)] at second'
      rw [new]
      exact (vacant.apart y second').symm
    · rw [Function.update_of_ne new] at first'
      by_cases new' : y = u
      · rw [new']
        exact vacant.apart x first'
      · rw [Function.update_of_ne new'] at second'
        exact sound.apart away first' second'

variable [DecidableEq C]

theorem Sound.call {r : X86.Regs} {m : ByteMemory} (sound : Sound text areas s)
    (now : Compiled text s c t) (minds : Minds areas s t m) (parked : s.status u = .parked)
    (calls : Calls text areas s t u r m) : Local text areas s c (fun x => x = t ∨ x = u)
      { s.run c r m with
        phase := Function.update s.phase c (.switching t u)
        status := Function.update s.status u .engaged
        view := Function.update s.view t (returned r m) } := by
  have fits := areas.fits
  obtain ⟨status, good⟩ := sound.on now.on
  have other : t ≠ u := by
    rintro rfl
    rw [status] at parked
    cases parked
  have low := calls.low
  have high := calls.high
  have top := good.floor_le
  have bound := fits t
  have sp : (returned r m).sp.toNat = r.sp.toNat + 4 := by
    simp only [returned, X86.Regs.sp, X86.Regs.goto_gpr, X86.Regs.set_gpr, if_true] at *
    bv_omega
  have after : Good text areas t m (returned r m) (s.frames t) :=
    good.work bound now.code minds.own calls.kernel calls.back (by omega) (by omega)
  have waiting := (sound.parked parked).congr (fits u)
    (minds.others u (Ne.symm other) (by rw [parked]; decide))
  have switching : Switching text areas t u m r (returned r m) (s.view u) (s.frames t)
      (s.frames u) :=
    .call fits (sound.apart other (by rw [status]; decide) (by rw [parked]; decide)) calls.kernel low (high.trans top)
      (by rw [calls.entry]; exact text.fetch_swtch) calls.back calls.old calls.new waiting after
  refine ⟨fun d away => ⟨Function.update_of_ne away _ _, Function.update_of_ne away _ _⟩,
      sound.free fun x pair => ?_, fun x outer => ?_, fun x outer born => ?_, fun x has => ?_,
      fun {t'} on' => ?_, fun {t' u'} on' => ?_, fun {x} inner waits => ?_,
      sound.still_apart fun x => ?_⟩
  · rcases pair with rfl | rfl
    · rw [now.on]
      exact .inl rfl
    · rw [parked]
      exact .inr (by decide)
  · exact Function.update_of_ne (fun same => outer (.inr same)) _ _
  · exact ⟨Function.update_of_ne (fun same => outer (.inl same)) _ _, rfl,
      minds.others x (fun same => outer (.inl same)) born⟩
  · simp only [Function.update_self] at has
    exact has
  · simp only [Function.update_self] at on'
    cases on'
  · simp only [Function.update_self] at on'
    obtain ⟨rfl, rfl⟩ := Phase.switching.inj on'
    simp only [Function.update_of_ne other, Function.update_self,
      Function.update_of_ne (Ne.symm other), Machine.run_mem, Machine.run_regs,
      Machine.run_frames]
    exact ⟨status, trivial, other, switching⟩
  · rcases inner with rfl | rfl
    · simp only [Function.update_of_ne other, status] at waits
      cases waits
    · simp only [Function.update_self] at waits
      cases waits
  · by_cases same : x = u
    · rw [same, parked]
      exact fun _ => by decide
    · simp only [Function.update_of_ne same]
      exact id

theorem Sound.swtched {i : X86.Instr} (sound : Sound text areas s)
    (on : s.phase c = .switching t u) (code : text.fetch (s.regs c).eip = [i]) :
    Local text areas s c (fun x => x = t ∨ x = u)
      { s.run c (X86.exec (text.next (s.regs c).eip) i (s.regs c, s.mem)).1
          (X86.exec (text.next (s.regs c).eip) i (s.regs c, s.mem)).2 with
        phase := Function.update s.phase c (.on u)
        status := Function.update s.status t .parked } := by
  have fits := areas.fits
  obtain ⟨statusT, statusU, other, switching⟩ := sound.switching on
  have has {x : T} (pair : x = t ∨ x = u) : (s.phase c).Has x := by
    rw [on]
    exact pair
  have away (x : T) (other : x ≠ t) (born : s.status x ≠ .unborn) :
      Disjoint (areas.area x) (areas.area t) := by
    refine sound.apart other born ?_
    rw [statusT]
    decide
  obtain ⟨kernel, ⟨body, _, shape⟩, _, resumes, leaves, takes⟩ := id switching
  rw [code] at resumes leaves takes shape
  obtain rfl : i = .ret := by
    cases body with
    | nil => exact (List.cons.inj shape).1
    | cons j body => exact absurd (List.cons.inj shape).2.symm (by simp)
  refine ⟨fun d away => ⟨Function.update_of_ne away _ _, Function.update_of_ne away _ _⟩,
      sound.free fun x pair => .inl (has pair),
      fun x outer => Function.update_of_ne (fun same => outer (.inl same)) _ _,
      fun x outer born => ⟨rfl, rfl, switching.others (fits t) code
        (away x (fun same => outer (.inl same)) born) (text.next (s.regs c).eip)⟩,
      fun x here => ?_, fun {t'} on' => ?_, fun {t' u'} on' => ?_, fun {x} inner waits => ?_,
      sound.still_apart fun x => ?_⟩
  · simp only [Function.update_self] at here
    exact .inr here
  · simp only [Function.update_self] at on'
    obtain rfl := Phase.on.inj on'
    simp only [Function.update_of_ne (Ne.symm other), Machine.run_mem, Machine.run_regs,
      Machine.run_frames]
    refine ⟨statusU, ?_⟩
    exact takes.resume (fits u) resumes kernel
  · simp only [Function.update_self] at on'
    cases on'
  · rcases inner with rfl | rfl
    · exact leaves
    · simp only [Function.update_of_ne (Ne.symm other), statusU] at waits
      cases waits
  · by_cases same : x = t
    · rw [same, statusT]
      exact fun _ => by decide
    · simp only [Function.update_of_ne same]
      exact id

/-- The thread that an action of compiled code is about. -/
def Action.Names : Action T → T → Prop
  | .call u _ _, x | .spawn u _ _, x | .reap u, x => x = u
  | .work _ _, _ | .exec, _ | .interrupt _ _, _ | .setFrame _ _, _ | .leave _, _ => False

/-- A step has to do with the threads on its processor and the one it names. -/
theorem Sound.locally {a : Action T} (sound : Sound text areas s)
    (step : Step text areas s (c, a) s') :
    ∃ involved, Local text areas s c involved s' ∧ (∀ x, (s.phase c).Has x → involved x) ∧
      ∀ x, involved x → (s.phase c).Has x ∨ a.Names x := by
  have fits := areas.fits
  have has {t : T} (on : s.phase c = .on t) (x : T) (same : x = t) : (s.phase c).Has x := by
    rw [on]
    exact same
  have own {t : T} (on : s.phase c = .on t) (x : T) (same : x = t) :
      (s.phase c).Has x ∨ a.Names x := .inl (has on x same)
  have only {t : T} (on : s.phase c = .on t) (x : T) (here : (s.phase c).Has x) : x = t := by
    rw [on] at here
    exact here
  cases step with
  | @user c t r m on before after minds =>
      have good := (sound.on on).2
      have none : s.frames t = [] := by
        cases shape : s.frames t with
        | nil => rfl
        | cons f fs =>
            rw [shape] at good
            exact absurd before good.1.1
      refine ⟨_, sound.stay on (fun u _ born => minds u born) (fun u _ => rfl) ?_, only on, own on⟩
      rw [none]
      exact .inl after
  | @work c t r m now minds kernel code free =>
      exact ⟨_, sound.stay now.on minds.others (fun u _ => rfl)
        ((sound.on now.on).2.work (fits t) now.code minds.own kernel code free.1 free.2),
        only now.on, own now.on⟩
  | @call c t u r m now minds parked calls =>
      exact ⟨_, sound.call now minds parked calls,
        fun x here => .inl (only now.on x here), fun x => Or.imp (has now.on x) id⟩
  | @exec c t i rest on kernel code =>
      obtain ⟨status, good⟩ := sound.on on
      obtain ⟨good', kept, _⟩ := good.exec (fits t) kernel code
      refine ⟨_, sound.stay on
        (sound.others_of_stack (by rw [status]; decide) fun b outer => kept b fun inner => outer ?_)
        (fun u other => ?_) ?_, only on, own on⟩
      · exact .inl ⟨inner.1, inner.2.trans_le (good.sp_le kernel)⟩
      · split
        · exact Function.update_of_ne other _ _
        · rfl
      · split at good' <;> rename_i last
        · rw [if_pos last, Function.update_self]
          exact good'
        · rw [if_neg last]
          exact good'
  | @swtch c t u i rest on code more =>
      rw [on]
      exact ⟨_, sound.swtch on code more, fun x => id, fun x => .inl⟩
  | @swtched c t u i on code =>
      rw [on]
      exact ⟨_, sound.swtched on code, fun x => id, fun x => .inl⟩
  | @interrupt c t n err on room =>
      obtain ⟨status, good⟩ := sound.on on
      obtain ⟨good', kept⟩ := good.interrupt (fits t) n err room
      refine ⟨_, sound.stay on
        (sound.others_of_stack (by rw [status]; decide) fun b outer => kept b fun inner => outer ?_)
        (fun u other => Function.update_of_ne other _ _) ?_, only on, own on⟩
      · exact .inl ⟨inner.1, inner.2.trans_le good.entry_le⟩
      · rw [Function.update_self]
        exact good'
  | @setFrame c t f fs r m now frames syscall user others saves =>
      have good := (sound.on now.on).2
      rw [frames] at good
      obtain ⟨good', _⟩ := good.setFrame now.code syscall user saves
      have same : s.run c (s.regs c) m = { s with mem := m } := by
        simp only [Machine.run, Function.update_eq_self]
      have stayed : Local text areas s c (· = t) { s.run c (s.regs c) m with
          frames := Function.update s.frames t ({ f with regs := r } :: fs) } :=
        sound.stay now.on others (fun u other => Function.update_of_ne other _ _)
          (by rw [Function.update_self]; exact good')
      rw [same] at stayed
      exact ⟨_, stayed, only now.on, own now.on⟩
  | @leave c t f fs r now frames kernel exit sp =>
      have good := (sound.on now.on).2
      rw [frames] at good
      refine ⟨_, sound.stay now.on (fun _ _ _ => Set.eqOn_refl _ _) (fun u _ => rfl) ?_,
        only now.on, own now.on⟩
      rw [frames]
      exact good.leave now.code kernel exit sp
  | @spawn c t u base r now vacant newborn =>
      exact ⟨_, sound.spawn now vacant newborn,
        fun x here => .inl (only now.on x here), fun x => Or.imp (has now.on x) id⟩
  | @reap c t u now parked =>
      exact ⟨_, sound.reap now parked,
        fun x here => .inl (only now.on x here), fun x => Or.imp (has now.on x) id⟩

/-- Every step keeps every thread in order. -/
theorem Sound.step {label : C × Action T} (sound : Sound text areas s)
    (step : Step text areas s label s') : Sound text areas s' := by
  obtain ⟨c, a⟩ := label
  obtain ⟨_, step', _, _⟩ := sound.locally step
  exact sound.update step'

/-- Every reachable state has every thread in order. -/
theorem sound_of_reachable (reached : (machine text areas).Reachable s) : Sound text areas s := by
  obtain ⟨start, labels, boots, run⟩ := reached
  exact run.preserves (P := Sound text areas) (fun sound step => sound.step step) boots.sound

end SlabStudy.Xv6.Assembly
