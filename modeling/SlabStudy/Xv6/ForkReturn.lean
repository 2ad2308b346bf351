import SlabStudy.Xv6.TrapReturn

/-!
# What `fork` returns in the child

The child of `fork` comes out of the kernel as a copy of its parent that has got zero.
-/

namespace SlabStudy.Xv6.Assembly

open Library

variable {T C : Type} {text : Text} {areas : Areas T} {t u : T} {m : ByteMemory}
  {r : X86.Regs} {s s₁ : Machine T C} {c : C} {f : Frame}

variable [DecidableEq T] [DecidableEq C]

/-- `fork` returns zero in the child.  What it has written makes a new thread
possible, and however the new thread gets a processor, it comes out of the
kernel for the first time with the registers its parent had in the system call,
but for zero in `eax`. -/
theorem fork_child {r' : X86.Regs} (reached : (machine text areas).Reachable s)
    (now : Compiled text s c t) (frames : s.frames t = [f]) (call : f.syscall = true)
    (vacant : Vacant areas s u) (room : areas.low u + 100 ≤ areas.high u)
    (writes : (machine text areas).step s (c, .work r' (fork text areas u f.base s.mem)) s₁) :
    (∃ s₂, (machine text areas).step s₁ (c, .spawn u (frameAt areas u) (f.regs.set .eax 0)) s₂) ∧
      ∀ {base r labels s₂ s₃}, (machine text areas).step s₁ (c, .spawn u base r) s₂ →
        ((machine text areas).guarded fun s _ =>
          s.frames u ≠ [] ∧ s.status u ≠ .unborn).Run s₂ labels s₃ → s₃.frames u = [] →
        ∃ d, s₃.phase d = .on u ∧ s₃.regs d = f.regs.set .eax 0 := by
  have sound := sound_of_reachable reached
  obtain ⟨status, good⟩ := sound.on now.on
  rw [frames] at good
  obtain ⟨saves, user, low, high⟩ := good.only_frame now.code call
  have apart : Disjoint (areas.area t) (areas.area u) := vacant.apart t (by rw [status]; decide)
  have newborn : Newborn text areas (fork text areas u f.base s.mem) u (frameAt areas u)
      (f.regs.set .eax 0) := fork_newborn apart saves user low high room
  have sound₁ := Sound.step sound writes
  obtain ⟨now₁, status₁, memory₁⟩ : Compiled text s₁ c t ∧ s₁.status = s.status ∧
      s₁.mem = fork text areas u f.base s.mem := by
    cases writes with
    | user on before after minds => exact absurd before now.kernel.1
    | work now' minds kernel code free =>
        refine ⟨⟨now.on, ?_, ?_⟩, rfl, rfl⟩
        · rw [Machine.run_regs]
          exact kernel
        · rw [Machine.run_regs]
          exact code
  have vacant₁ : Vacant areas s₁ u := by
    refine ⟨?_, ?_⟩
    · rw [status₁]
      exact vacant.unborn
    · rw [status₁]
      exact vacant.apart
  refine ⟨⟨_, .spawn now₁ vacant₁ (by rw [memory₁]; exact newborn)⟩, ?_⟩
  intro base r labels s₂ s₃ spawn run back
  let Q (g : Frame) : Prop := g.regs = f.regs.set .eax 0 ∧ g.syscall = false
  have start : Trapped areas u [] Q none s₁.mem s₂ := by
    cases spawn with
    | @spawn _ _ _ _ _ _ _ newborn' =>
        refine ⟨?_, ⟨[], _, Function.update_self _ _ _, ?_, rfl⟩, fun sp inner => ?_⟩
        · simp only [Function.update_self]
          decide
        · rw [memory₁] at newborn'
          have same : base = frameAt areas u := by
            have high := newborn'.high
            have high' := newborn.high
            bv_omega
          subst same
          exact newborn'.saves.unique newborn.saves newborn'.user newborn.user
        · exact absurd inner (Option.not_mem_none sp)
  have ended := start.run (fun _ _ sp inner => absurd inner (Option.not_mem_none sp))
    (Sound.step sound₁ spawn) (fun within => ⟨List.length_pos_iff.mpr within.1, within.2,
      fun _ _ _ _ _ _ _ call _ known => by
        rw [known.2] at call
        cases call⟩) run (by rw [back])
  obtain ⟨_, ⟨d, g, on, ⟨regs, _⟩, same⟩, _⟩ := ended
  exact ⟨d, on, same.trans regs⟩

/-- Process (1, 1) forks a child that is given up at once. -/
theorem fork_reap {s : Machine (Fin 8 × Fin 8) Unit} {f : Frame}
    (reached : (machine flatText pageAreas).Reachable s) (now : Compiled flatText s () (1, 1))
    (frames : s.frames (1, 1) = [f]) (call : f.syscall = true) {u : Fin 8 × Fin 8}
    (vacant : Vacant pageAreas s u) (room : pageAreas.low u + 100 ≤ pageAreas.high u) :
    ∃ s', (machine flatText pageAreas).Reachable s' ∧ Compiled flatText s' () (1, 1) ∧
      s'.frames (1, 1) = [f] ∧ ∀ t, s'.status t ≠ .unborn → s.status t ≠ .unborn := by
  have sound := sound_of_reachable reached
  have other : (1, 1) ≠ u := by
    rintro rfl
    have unborn := vacant.unborn
    rw [(sound.on now.on).1] at unborn
    cases unborn
  obtain ⟨writes, now₁⟩ := sound.work_new (m := fork flatText pageAreas u f.base s.mem) now vacant
    fun _ => fork_outside room
  obtain ⟨⟨s₂, spawn⟩, _⟩ := fork_child reached now frames call vacant room writes
  have reached₂ := (reached.step writes).step spawn
  obtain ⟨now₂, status, parent⟩ : Compiled flatText s₂ () (1, 1) ∧
      s₂.status = Function.update s.status u .parked ∧ s₂.frames (1, 1) = [f] := by
    cases spawn with
    | spawn now₂ _ _ =>
        exact ⟨⟨now₁.on, now₁.kernel, now₁.code⟩, rfl,
          (Function.update_of_ne other _ _).trans frames⟩
  have reap : (machine flatText pageAreas).step s₂ ((), .reap u) _ :=
    .reap now₂ (by rw [status, Function.update_self])
  refine ⟨_, reached₂.step reap, ⟨now₂.on, now₂.kernel, now₂.code⟩, parent, fun t born => ?_⟩
  rw [status] at born
  dsimp only at born
  by_cases same : t = u
  · rw [same, Function.update_self] at born
    exact absurd rfl born
  · rw [Function.update_of_ne same, Function.update_of_ne same] at born
    exact born

/-- The first process forks, gives the child up and forks again; the second child has the page of
the first one and another entry, and gets to user code. -/
theorem fork_child_boot : ∃ (s s₁ s₂ s₃ : Machine (Fin 8 × Fin 8) Unit) (f : Frame)
    (labels : List (Unit × Action (Fin 8 × Fin 8))), (machine flatText pageAreas).Reachable s ∧
      s.frames (1, 1) = [f] ∧ (machine flatText pageAreas).step s
        ((), .work (s.regs ()) (fork flatText pageAreas (3, 2) f.base s.mem)) s₁ ∧
      (machine flatText pageAreas).step s₁
        ((), .spawn (3, 2) (frameAt pageAreas (3, 2)) (f.regs.set .eax 0)) s₂ ∧
      (machine flatText pageAreas).Run s₂ labels s₃ ∧
      ∃ d, s₃.phase d = .on (3, 2) ∧ s₃.regs d = f.regs.set .eax 0 := by
  obtain ⟨s₀, s₁, f, reached₀, _, _, trap, frames₁, call, space, _, alone₁, inside⟩ := boot_syscall
  obtain ⟨k, r, m, run, now⟩ := @inside (fun _ _ => True) fun _ _ => trivial
  have reached := (reached₀.step trap).run run.ofGuarded
  have vacant {s : Machine (Fin 8 × Fin 8) Unit} {u : Fin 8 × Fin 8}
      (alone : ∀ t, s.status t ≠ .unborn → t = (0, 0) ∨ t = (1, 1))
      (entry : u.1 ≠ 0 ∧ u.1 ≠ 1) (page : u.2 ≠ 0 ∧ u.2 ≠ 1) : Vacant pageAreas s u := by
    refine ⟨by_contra fun born => ?_, fun t born => ?_⟩
    · rcases alone u born with rfl | rfl
      · exact entry.1 rfl
      · exact entry.2 rfl
    · rcases alone t born with rfl | rfl
      · exact pageAreas_apart entry.1.symm page.1.symm
      · exact pageAreas_apart entry.2.symm page.2.symm
  obtain ⟨s, reached, now, frames, kept⟩ := fork_reap reached now frames₁ call
    (vacant (u := (2, 2)) alone₁ (by decide) (by decide)) (by decide)
  have room : pageAreas.low (3, 2) + 100 ≤ pageAreas.high (3, 2) := by decide
  have free : Vacant pageAreas s (3, 2) :=
    vacant (fun t born => alone₁ t (kept t born)) (by decide) (by decide)
  obtain ⟨writes, now₁⟩ := (sound_of_reachable reached).work_new
    (m := fork flatText pageAreas (3, 2) f.base s.mem) now free fun _ => fork_outside room
  obtain ⟨⟨s₂, spawn⟩, child⟩ := fork_child reached now frames call free room writes
  have reached₂ := (reached.step writes).step spawn
  obtain ⟨now₂, parked, parent, g, first⟩ : Compiled flatText s₂ () (1, 1) ∧
      s₂.status (3, 2) = .parked ∧ s₂.frames (1, 1) = [f] ∧ ∃ g, s₂.frames (3, 2) = [g] := by
    cases spawn with
    | spawn now₂ _ _ =>
        refine ⟨⟨now₁.on, now₁.kernel, now₁.code⟩, ?status, frames, ?frame, ?shape⟩
        case shape =>
          dsimp only
          rw [Function.update_self]
        case status =>
          dsimp only
          rw [Function.update_self]
  let good (x : Machine (Fin 8 × Fin 8) Unit) (_ : Unit × Action (Fin 8 × Fin 8)) : Prop :=
    x.frames (3, 2) ≠ [] ∧ x.status (3, 2) ≠ .unborn
  obtain ⟨r₁, m₁, s₃, call₃, _, status₃, frames₃, away⟩ :=
    (sound_of_reachable reached₂).switch_run (u := (3, 2)) now₂ parked (by rw [parent]; exact space)
  have born₃ : s₃.frames (3, 2) ≠ [] ∧ s₃.status (3, 2) ≠ .unborn := by
    rw [frames₃, first, status₃]
    simp
  obtain ⟨n, s₄, run₄, _, status₄, frames₄, now₄⟩ := @away good fun _ _ => born₃
  have start : ((machine flatText pageAreas).guarded good).Run s₂ [((), .call (3, 2) r₁ m₁)] s₃ :=
    (Library.System.Run.nil s₂).snoc ⟨⟨by rw [first]; simp, by rw [parked]; decide⟩, call₃⟩
  have born₄ : s₄.frames (3, 2) ≠ [] ∧ s₄.status (3, 2) ≠ .unborn := by
    rw [frames₄, first, status₄, status₃]
    simp
  have switched := start.append run₄
  obtain ⟨labels, m₂, out⟩ := (sound_of_reachable (reached₂.run switched.ofGuarded)).exit_run
    now₄ (by rw [frames₄, first]) good (fun _ => born₄) fun _ _ => born₄
  have whole := switched.append out
  have back := child spawn whole (by simp)
  exact ⟨s, _, s₂, _, f, _, reached, frames, writes, spawn, whole.ofGuarded, back⟩

end SlabStudy.Xv6.Assembly
