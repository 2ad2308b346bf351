import SlabStudy.Xv6.NewThread
import SlabStudy.Xv6.ThreadRuns

/-!
# The assembly gets to its end

A processor in the middle of the assembly needs nothing but its own steps to get
through it: a switch to the other thread, a trap to `trap`, and the way out of
the kernel to the interrupted code.
-/

namespace SlabStudy.Xv6.Assembly

open Library

variable {T C : Type} [DecidableEq C] {text : Text} {areas : Areas T} {t u : T}
  {s s' : Machine T C} {c : C} {good : Machine T C → C × Action T → Prop}

theorem Machine.run_run (s : Machine T C) (c : C) (r r' : X86.Regs) (m m' : ByteMemory) :
    (s.run c r m).run c r' m' = s.run c r' m' := by
  simp only [Machine.run, Function.update_idem]

theorem Machine.run_self (s : Machine T C) (c : C) : s.run c (s.regs c) s.mem = s := by
  simp only [Machine.run, Function.update_eq_self]

/-- Processor `c` is in the assembly. -/
def AtWork (s : Machine T C) (c : C) : Prop :=
  (∃ t, s.phase c = .on t) ∧ ¬ (s.regs c).User ∨ ∃ t u, s.phase c = .switching t u

variable [DecidableEq T]

/-- A step that changes nothing but the registers of `c` and the memory. -/
theorem plain_step {i : X86.Instr} {rest : List X86.Instr} (busy : AtWork s c)
    (easy : plain i) (code : text.fetch (s.regs c).eip = i :: rest) (more : rest ≠ []) :
    Step text areas s (c, .exec)
      (s.run c (X86.exec (text.next (s.regs c).eip) i (s.regs c, s.mem)).1
        (X86.exec (text.next (s.regs c).eip) i (s.regs c, s.mem)).2) := by
  rcases busy with ⟨⟨t, on⟩, kernel⟩ | ⟨t, u, on⟩
  · have other : i ≠ .iret := by
      rintro rfl
      exact absurd easy (by decide)
    have step : Step text areas s (c, .exec) _ := .exec on kernel code
    rw [if_neg other] at step
    exact step
  · exact .swtch on code more

/-- Plain instructions are run one after the other. -/
theorem plain_run (areas : Areas T) {body tail : List X86.Instr} (busy : AtWork s c)
    (easy : body.all plain) (code : text.fetch (s.regs c).eip = body ++ tail) (more : tail ≠ [])
    (allow : ∀ r m, good (s.run c r m) (c, .exec)) :
    ((machine text areas).guarded good).Run s (List.replicate body.length (c, .exec))
        (s.run c (X86.runs text.next body (s.regs c, s.mem)).1
          (X86.runs text.next body (s.regs c, s.mem)).2) ∧
      text.fetch (X86.runs text.next body (s.regs c, s.mem)).1.eip = tail := by
  induction body generalizing s with
  | nil =>
      refine ⟨?_, code⟩
      rw [X86.runs, Machine.run_self]
      exact .nil s
  | cons i body ih =>
      rw [List.all_cons, Bool.and_eq_true] at easy
      have rest : body ++ tail ≠ [] := List.append_ne_nil_of_right_ne_nil _ more
      have step : Step text areas s (c, .exec) _ := plain_step busy easy.1 code rest
      obtain ⟨eip, cs, _⟩ := exec_plain easy.1 (text.next (s.regs c).eip) (s.regs c, s.mem)
      have after := Text.fetch_after code rest
      generalize next : X86.exec (text.next (s.regs c).eip) i (s.regs c, s.mem) = x at *
      rw [← eip] at after
      have busy' : AtWork (s.run c x.1 x.2) c := by
        rcases busy with ⟨on, kernel⟩ | ⟨t, u, on⟩
        · refine .inl ⟨on, ?_⟩
          rw [Machine.run_regs, X86.Regs.User, cs]
          exact kernel
        · exact .inr ⟨t, u, on⟩
      obtain ⟨run, last⟩ := ih busy' easy.2 (by rw [Machine.run_regs]; exact after)
        (fun r m => by rw [Machine.run_run]; exact allow r m)
      rw [Machine.run_regs, Machine.run_mem, Machine.run_run] at run
      rw [Machine.run_regs, Machine.run_mem] at last
      have first : ((machine text areas).guarded good).Run s [(c, .exec)] (s.run c x.1 x.2) := by
        refine (Library.System.Run.nil s).snoc ⟨?_, step⟩
        have allowed := allow (s.regs c) s.mem
        rw [Machine.run_self] at allowed
        exact allowed
      rw [X86.runs, next]
      exact ⟨first.append run, last⟩

/-- A run with one more step. -/
theorem run_snoc {n : Nat} (run : ((machine text areas).guarded good).Run s
      (List.replicate n (c, .exec)) s') (allow : good s' (c, .exec)) {s₁ : Machine T C}
    (step : Step text areas s' (c, .exec) s₁) :
    ((machine text areas).guarded good).Run s (List.replicate (n + 1) (c, .exec)) s₁ := by
  rw [List.replicate_succ']
  exact .snoc run ⟨allow, step⟩

theorem all_keepsSeg {q : X86.Seg} (which : q = .cs ∨ q = .ss) {body : List X86.Instr}
    (easy : body.all plain) : body.all (X86.keepsSeg q) := by
  rw [List.all_eq_true] at easy ⊢
  intro i member
  have plain := easy i member
  unfold Assembly.plain at plain
  rw [Bool.and_eq_true, Bool.and_eq_true] at plain
  rcases which with rfl | rfl
  · exact plain.1.2
  · exact plain.2

/-- Plain instructions and one more that leaves the segments of the code and the
stack alone. -/
theorem block_seg {q : X86.Seg} (which : q = .cs ∨ q = .ss) {body : List X86.Instr}
    {i : X86.Instr} (easy : body.all plain) (keeps : X86.keepsSeg q i) (x : X86.State) :
    (X86.runs text.next (body ++ [i]) x).1.seg q = x.1.seg q := by
  refine X86.runs_seg ?_ x
  rw [List.all_append, Bool.and_eq_true]
  exact ⟨all_keepsSeg which easy, by rw [List.all_cons, keeps]; rfl⟩

/-- `swtch` gets to its end. -/
theorem Sound.swtch_run (sound : Sound text areas s) (on : s.phase c = .switching t u)
    (good : Machine T C → C × Action T → Prop) (allow : ∀ r m, good (s.run c r m) (c, .exec)) :
    ∃ n r m, ((machine text areas).guarded good).Run s (List.replicate n (c, .exec))
        { s.run c r m with
          phase := Function.update s.phase c (.on u)
          status := Function.update s.status t .parked } ∧
      Resumes (s.view u) r ∧ InKernel r ∧ text.fetch r.eip = [] := by
  obtain ⟨_, _, _, switching⟩ := sound.switching on
  obtain ⟨kernel, ⟨body, easy, code⟩, _, resumes, _, takes⟩ := switching
  obtain ⟨run, last⟩ := plain_run areas (.inr ⟨t, u, on⟩) easy code (by simp) allow
  rw [code] at resumes
  have cs : (X86.runs text.next (body ++ [.ret]) (s.regs c, s.mem)).1.seg .cs = _ :=
    block_seg (.inl rfl) easy rfl _
  have ss : (X86.runs text.next (body ++ [.ret]) (s.regs c, s.mem)).1.seg .ss = _ :=
    block_seg (.inr rfl) easy rfl _
  rw [X86.runs_append] at resumes cs ss
  generalize X86.runs text.next body (s.regs c, s.mem) = x at *
  have whole : X86.runs text.next [.ret] x = X86.exec (text.next x.1.eip) .ret (x.1, x.2) := rfl
  rw [whole] at resumes cs ss
  have step : Step text areas (s.run c x.1 x.2) (c, .exec) _ := .swtched on (i := .ret)
    (by rw [Machine.run_regs]; exact last)
  rw [Machine.run_regs, Machine.run_mem, Machine.run_run] at step
  refine ⟨_, _, _, run_snoc run (allow _ _) step, resumes, ⟨?_, ss.trans kernel.2⟩, ?_⟩
  · unfold X86.Regs.User
    rw [cs]
    exact kernel.1
  · rw [resumes.eip]
    exact takes.code

/-- Plain instructions and one more that is no return from a trap. -/
theorem block_run (areas : Areas T) {body rest : List X86.Instr} {i : X86.Instr}
    (on : s.phase c = .on t) (kernel : ¬ (s.regs c).User) (easy : body.all plain)
    (code : text.fetch (s.regs c).eip = body ++ i :: rest) (other : i ≠ .iret)
    (allow : ∀ r m, good (s.run c r m) (c, .exec)) :
    ((machine text areas).guarded good).Run s (List.replicate (body.length + 1) (c, .exec))
      (s.run c (X86.runs text.next (body ++ [i]) (s.regs c, s.mem)).1
        (X86.runs text.next (body ++ [i]) (s.regs c, s.mem)).2) := by
  obtain ⟨run, last⟩ := plain_run areas (.inl ⟨⟨t, on⟩, kernel⟩) easy code
    (List.cons_ne_nil _ _) allow
  have cs : (X86.runs text.next body (s.regs c, s.mem)).1.seg .cs = _ :=
    X86.runs_seg (all_keepsSeg (.inl rfl) easy) _
  rw [X86.runs_append]
  generalize X86.runs text.next body (s.regs c, s.mem) = x at *
  have step : Step text areas (s.run c x.1 x.2) (c, .exec) _ := .exec on
    (by rw [Machine.run_regs, X86.Regs.User, cs]; exact kernel)
    (by rw [Machine.run_regs]; exact last)
  rw [if_neg other, Machine.run_regs, Machine.run_mem, Machine.run_run] at step
  exact run_snoc run (allow _ _) step

/-- A trap gets to `trap`. -/
theorem enter_run (areas : Areas T) {body todo : List X86.Instr} (on : s.phase c = .on t)
    (kernel : ¬ (s.regs c).User) (easy : body.all plain)
    (code : (text.fetch (s.regs c).eip = body ++ .call text.trapAt :: .add 4 .esp :: trapret ∧
        todo = body ++ [.call text.trapAt]) ∨
      (text.fetch (s.regs c).eip = body ++ [.jmp text.alltrapsAt] ∧
        todo = body ++ .jmp text.alltrapsAt :: buildFrame text.trapAt))
    (good : Machine T C → C × Action T → Prop) (allow : ∀ r m, good (s.run c r m) (c, .exec)) :
    ∃ n, ((machine text areas).guarded good).Run s (List.replicate n (c, .exec))
      (s.run c (X86.runs text.next todo (s.regs c, s.mem)).1
        (X86.runs text.next todo (s.regs c, s.mem)).2) := by
  rcases code with ⟨code, rfl⟩ | ⟨code, rfl⟩
  · exact ⟨_, block_run areas on kernel easy code (by simp) allow⟩
  · have first := block_run areas on kernel easy code (by simp) allow
    have cs : (X86.runs text.next (body ++ [.jmp text.alltrapsAt]) (s.regs c, s.mem)).1.seg .cs =
        _ := block_seg (.inl rfl) easy rfl _
    have place : (X86.runs text.next (body ++ [.jmp text.alltrapsAt]) (s.regs c, s.mem)).1.eip =
        text.alltrapsAt := by
      rw [X86.runs_append]
      rfl
    have whole : body ++ .jmp text.alltrapsAt :: buildFrame text.trapAt =
        body ++ [.jmp text.alltrapsAt] ++ buildFrame text.trapAt := by simp
    rw [whole, X86.runs_append]
    generalize X86.runs text.next (body ++ [.jmp text.alltrapsAt]) (s.regs c, s.mem) = x at *
    have inner : ¬ ((s.run c x.1 x.2).regs c).User := by
      rw [Machine.run_regs, X86.Regs.User, cs]
      exact kernel
    have entry : text.fetch ((s.run c x.1 x.2).regs c).eip =
        [.pushSeg .ds, .pushSeg .es, .pushSeg .fs, .pushSeg .gs, .pushAll, .setLow segKdata .eax,
          .setSeg .eax .ds, .setSeg .eax .es, .push .esp] ++
          .call text.trapAt :: .add 4 .esp :: trapret := by
      rw [Machine.run_regs, place]
      exact text.fetch_alltraps
    have allow' (r : X86.Regs) (m : ByteMemory) :
        good ((s.run c x.1 x.2).run c r m) (c, .exec) := by
      rw [Machine.run_run]
      exact allow r m
    have second := block_run areas (s := s.run c x.1 x.2) on inner (by rfl) entry (by simp) allow'
    rw [Machine.run_regs, Machine.run_mem, Machine.run_run] at second
    have both := first.append second
    rw [List.replicate_append_replicate] at both
    exact ⟨_, both⟩

theorem Sound.run {labels : List (C × Action T)} (sound : Sound text areas s)
    (run : ((machine text areas).guarded good).Run s labels s') : Sound text areas s' :=
  run.ofGuarded.preserves (P := Sound text areas) (fun sound step => Sound.step sound step) sound

/-- The way out of the kernel gets to the interrupted code. -/
theorem Sound.leave_run {rest : List X86.Instr} {f : Frame} {fs : List Frame}
    (sound : Sound text areas s) (on : s.phase c = .on t) (frames : s.frames t = f :: fs)
    (kernel : ¬ (s.regs c).User) (easy : rest.all plain)
    (code : text.fetch (s.regs c).eip = rest ++ [.iret])
    (good : Machine T C → C × Action T → Prop) (allow : ∀ r m, good (s.run c r m) (c, .exec)) :
    ∃ n m, ((machine text areas).guarded good).Run s (List.replicate n (c, .exec))
      { s.run c f.regs m with frames := Function.update s.frames t fs } := by
  obtain ⟨run, last⟩ := plain_run areas (.inl ⟨⟨t, on⟩, kernel⟩) easy code
    (List.cons_ne_nil _ _) allow
  have cs : (X86.runs text.next rest (s.regs c, s.mem)).1.seg .cs = _ :=
    X86.runs_seg (all_keepsSeg (.inl rfl) easy) _
  have sound' := sound.run run
  generalize X86.runs text.next rest (s.regs c, s.mem) = x at *
  have inner : ¬ ((s.run c x.1 x.2).regs c).User := by
    rw [Machine.run_regs, X86.Regs.User, cs]
    exact kernel
  have next : text.fetch ((s.run c x.1 x.2).regs c).eip = [.iret] := by
    rw [Machine.run_regs]
    exact last
  have step : Step text areas (s.run c x.1 x.2) (c, .exec) _ := .exec on inner next
  obtain ⟨_, _, back⟩ := (sound'.on on).2.exec (areas.fits t) inner next
  obtain ⟨g, gs, shape, regs⟩ := back rfl
  rw [Machine.run_frames, frames] at shape
  obtain ⟨rfl, rfl⟩ := List.cons.inj shape
  rw [if_pos rfl, regs, Machine.run_run, Machine.run_frames, frames, List.tail_cons] at step
  exact ⟨_, _, run_snoc run (allow _ _) step⟩

/-- Where a processor is when it is through with the assembly. -/
def Through (text : Text) (r : X86.Regs) : Prop := r.User ∨ InKernel r ∧ text.fetch r.eip = []

/-- Traps and returns get to their end, however many lie under each other. -/
theorem Sound.on_run {fs : List Frame} (sound : Sound text areas s) (on : s.phase c = .on t)
    (frames : s.frames t = fs) :
    ∃ n s', (machine text areas).Run s (List.replicate n (c, .exec)) s' ∧ s'.phase c = .on t ∧
      Through text (s'.regs c) := by
  induction fs generalizing s with
  | nil =>
      have good := (sound.on on).2
      rw [frames] at good
      exact ⟨0, s, .nil s, on, good.imp_right fun inner => ⟨inner.1, inner.2.1⟩⟩
  | cons f fs ih =>
      have good := (sound.on on).2
      rw [frames] at good
      obtain ⟨kernel, _, _, level, _⟩ := good
      rcases level with ⟨code, _, _⟩ | ⟨body, todo, _, easy, code, _, _, _, _, last⟩ |
        ⟨rest, _, easy, code, _, _, _, _⟩
      · exact ⟨0, s, .nil s, on, .inr ⟨kernel, code⟩⟩
      · obtain ⟨n, run⟩ := enter_run areas on kernel.1 easy code (fun _ _ => True)
          (fun _ _ => trivial)
        have good' := ((sound.run run).on on).2
        rw [Machine.run_frames, frames] at good'
        refine ⟨n, _, run.ofGuarded, on, .inr ⟨good'.1, ?_⟩⟩
        rw [Machine.run_regs, last]
        exact text.fetch_trap
      · obtain ⟨n, m, run⟩ := sound.leave_run on frames kernel.1 easy code
          (fun _ _ => True) (fun _ _ => trivial)
        obtain ⟨k, s', more, rest⟩ := ih (sound.run run) on (Function.update_self _ _ _)
        have both := run.ofGuarded.append more
        rw [List.replicate_append_replicate] at both
        exact ⟨n + k, s', both, rest⟩

/-- Instructions of `c` change nothing for the threads that are not on it. -/
theorem Sound.exec_frame {n : Nat} (sound : Sound text areas s)
    (run : (machine text areas).Run s (List.replicate n (c, .exec)) s') :
    (∀ x, (s'.phase c).Has x → (s.phase c).Has x) ∧
      (∀ d, d ≠ c → s'.phase d = s.phase d ∧ s'.regs d = s.regs d) ∧
      ∀ x, ¬ (s.phase c).Has x → s'.status x = s.status x ∧ (s.status x ≠ .unborn →
        s'.view x = s.view x ∧ s'.frames x = s.frames x ∧ Set.EqOn s.mem s'.mem (areas.area x)) := by
  have only : ((machine text areas).guarded fun _ label => label = (c, .exec)).Run s
      (List.replicate n (c, .exec)) s' :=
    run.toGuarded fun _ member => List.eq_of_mem_replicate member
  refine (only.preserves (P := fun s' => Sound text areas s' ∧
    (∀ x, (s'.phase c).Has x → (s.phase c).Has x) ∧
      (∀ d, d ≠ c → s'.phase d = s.phase d ∧ s'.regs d = s.regs d) ∧
      ∀ x, ¬ (s.phase c).Has x → s'.status x = s.status x ∧ (s.status x ≠ .unborn →
        s'.view x = s.view x ∧ s'.frames x = s.frames x ∧
          Set.EqOn s.mem s'.mem (areas.area x))) ?_ ?_).2
  · rintro s₁ _ s₂ ⟨sound, inside, others, threads⟩ ⟨rfl, step⟩
    obtain ⟨involved, here, _, names⟩ := sound.locally step
    have own (x : T) (inner : involved x) : (s.phase c).Has x :=
      (names x inner).elim (inside x) False.elim
    refine ⟨Sound.step sound step, fun x has => own x (here.here x has), fun d other => ?_,
      fun x outer => ?_⟩
    · obtain ⟨phase, regs⟩ := here.elsewhere d other
      rw [phase, regs]
      exact others d other
    · obtain ⟨status, rest⟩ := threads x outer
      have away := fun inner => outer (own x inner)
      refine ⟨(here.status x away).trans status, fun born => ?_⟩
      obtain ⟨view, frames, memory⟩ := rest born
      obtain ⟨view', frames', memory'⟩ := here.kept x away (by rw [status]; exact born)
      exact ⟨view'.trans view, frames'.trans frames, memory.trans memory'⟩
  · exact ⟨sound, fun _ => id, fun _ _ => ⟨rfl, rfl⟩, fun _ _ => ⟨rfl, fun _ => ⟨rfl, rfl,
      Set.eqOn_refl _ _⟩⟩⟩

/-! ## Whole detours -/

/-- From the entry point of a trap to `trap`. -/
theorem Sound.entry_run {body : List X86.Instr} {f : Frame} {fs : List Frame}
    (sound : Sound text areas s) (on : s.phase c = .on t) (frames : s.frames t = f :: fs)
    (easy : body.all plain) (code : text.fetch (s.regs c).eip = body ++ [.jmp text.alltrapsAt])
    (good : Machine T C → C × Action T → Prop) (allow : ∀ r m, good (s.run c r m) (c, .exec)) :
    ∃ k r m, ((machine text areas).guarded good).Run s (List.replicate k (c, .exec)) (s.run c r m) ∧
      Compiled text (s.run c r m) c t := by
  have good' := (sound.on on).2
  rw [frames] at good'
  obtain ⟨k, run⟩ := enter_run areas on good'.1.1 easy (.inr ⟨code, rfl⟩) good allow
  have after := ((sound.run run).on on).2
  rw [Machine.run_frames, frames] at after
  refine ⟨k, _, _, run, on, after.1, ?_⟩
  rw [Machine.run_regs, X86.runs_append]
  exact text.fetch_trap

/-- A trap and the way to `trap`. -/
theorem Sound.trap_run (sound : Sound text areas s) (on : s.phase c = .on t)
    (room : areas.low t + 84 ≤ (entrySp (BitVec.ofNat 32 (areas.high t)) (s.regs c)).toNat)
    (n : Fin 256) (err : BitVec 32) :
    ∃ s₁, Step text areas s (c, .interrupt n err) s₁ ∧ s₁.phase = s.phase ∧
      s₁.status = s.status ∧
      s₁.frames = Function.update s.frames t
        (trapFrame text areas t n (s.regs c) :: s.frames t) ∧
      ∀ {good : Machine T C → C × Action T → Prop}, (∀ r m, good (s₁.run c r m) (c, .exec)) →
        ∃ k r m, ((machine text areas).guarded good).Run s₁ (List.replicate k (c, .exec))
          (s₁.run c r m) ∧ Compiled text (s₁.run c r m) c t := by
  obtain ⟨body, easy, entry, _⟩ := vector_body text.alltrapsAt text.trapAt n
  have step : Step text areas s (c, .interrupt n err) _ := .interrupt on room
  refine ⟨_, step, rfl, rfl, rfl, fun {good} allow => ?_⟩
  refine (Sound.step sound step).entry_run on (Function.update_self _ _ _) easy ?_ good
    allow
  dsimp only
  rw [Machine.run_regs, ← entry, ← text.fetch_vector]
  rfl

/-- The return of `trap` or `forkret` and the way out of the kernel. -/
theorem Sound.exit_run {f : Frame} {fs : List Frame} (sound : Sound text areas s)
    (now : Compiled text s c t) (frames : s.frames t = f :: fs)
    (good : Machine T C → C × Action T → Prop) (first : ∀ r, good s (c, .leave r))
    (allow : ∀ r m, good (s.run c r m) (c, .exec)) :
    ∃ labels m, ((machine text areas).guarded good).Run s labels
      { s.run c f.regs m with frames := Function.update s.frames t fs } := by
  have good' := (sound.on now.on).2
  rw [frames] at good'
  obtain ⟨_, _, ok, _, _⟩ := good'
  let r : X86.Regs := ((s.regs c).set .esp f.exitSp).goto f.exit
  have step : Step text areas s (c, .leave r) _ := .leave now frames now.kernel rfl
    (by simp [r, X86.Regs.sp])
  have start : ((machine text areas).guarded good).Run s [(c, .leave r)] (s.run c r s.mem) :=
    (Library.System.Run.nil s).snoc ⟨first r, step⟩
  have regs : (s.run c r s.mem).regs c = r := Machine.run_regs _ _ _ _
  obtain ⟨rest, easy, code⟩ : ∃ rest, rest.all plain ∧
      text.fetch ((s.run c r s.mem).regs c).eip = rest ++ [.iret] := by
    rw [regs]
    rcases ok.exits with ⟨out, _⟩ | ⟨out, _⟩
    · exact ⟨.add 4 .esp :: restoreRegs, by rfl, out⟩
    · exact ⟨restoreRegs, by rfl, out⟩
  obtain ⟨n, m, run⟩ := (Sound.step sound step).leave_run now.on frames
    (by rw [regs]; exact now.kernel.1) easy code good
    (fun r m => by rw [Machine.run_run]; exact allow r m)
  rw [Machine.run_run] at run
  exact ⟨_, m, start.append run⟩

/-- The words that the caller of `swtch` has on top of its stack. -/
def pushCall (sp ret old new : BitVec 32) (m : ByteMemory) : ByteMemory :=
  ((m.setWord sp ret).setWord (sp + 4) old).setWord (sp + 8) new

/-- A call of `swtch` in favour of a thread that waits, and the switch to it. -/
theorem Sound.switch_run (sound : Sound text areas s) (now : Compiled text s c t)
    (parked : s.status u = .parked)
    (room : areas.low t + 28 ≤ floor areas t (s.frames t)) :
    ∃ r m s₁, Step text areas s (c, .call u r m) s₁ ∧ s₁.phase c = .switching t u ∧
      s₁.status = Function.update s.status u .engaged ∧ s₁.frames = s.frames ∧
      ∀ {good : Machine T C → C × Action T → Prop}, (∀ r m, good (s₁.run c r m) (c, .exec)) →
        ∃ n s₂, ((machine text areas).guarded good).Run s₁ (List.replicate n (c, .exec)) s₂ ∧
          s₂.phase = Function.update s₁.phase c (.on u) ∧
          s₂.status = Function.update s₁.status t .parked ∧ s₂.frames = s.frames ∧
          Compiled text s₂ c u := by
  have fits := areas.fits t
  have top := (sound.on now.on).2.floor_le
  have other : u ≠ t := by
    rintro rfl
    rw [(sound.on now.on).1] at parked
    cases parked
  let sp : BitVec 32 := BitVec.ofNat 32 (floor areas t (s.frames t) - 12)
  let r : X86.Regs := ((s.regs c).set .esp sp).goto text.swtchAt
  let m := pushCall sp (s.regs c).eip (areas.slot t) (s.mem.word (areas.slot u)) s.mem
  have place : sp.toNat + 12 = floor areas t (s.frames t) := by
    simp only [sp]
    bv_omega
  have rsp : r.sp = sp := by simp [r, X86.Regs.sp]
  have first : sp + 0 = sp := BitVec.add_zero sp
  have word (k : BitVec 32) (last : k.toNat + 4 ≤ 12) :
      wordSpan (sp + k) ⊆ span (areas.low t) (floor areas t (s.frames t)) :=
    word_in_frame (by omega) (by omega) (by omega)
  have kept {b : BitVec 32} (outer : b ∉ span (areas.low t) (floor areas t (s.frames t))) :
      m b = s.mem b := by
    have bottom := word 0 (by decide)
    rw [first] at bottom
    simp only [m, pushCall]
    rw [setWord_outside fun inner => outer (word 8 (by decide) inner),
      setWord_outside fun inner => outer (word 4 (by decide) inner),
      setWord_outside fun inner => outer (bottom inner)]
  have others : ∀ x, x ≠ t → s.status x ≠ .unborn → Set.EqOn s.mem m (areas.area x) := by
    refine sound.others_of_stack ?_ fun b outer => kept fun own => outer (.inl ?_)
    · rw [(sound.on now.on).1]
      decide
    · exact span_subset_span le_rfl top own
  have minds : Minds areas s t m := by
    refine ⟨others, fun b above => (kept fun own => ?_).symm⟩
    rw [mem_span] at above own
    omega
  have calls : Calls text areas s t u r m := by
    refine ⟨now.kernel, rfl, ?_, ?_, ?_, ?_, ?_⟩
    · rw [rsp]
      simp only [m, pushCall]
      rw [word_setWord_of_disjoint (wordSpan_disjoint (by bv_omega) (by bv_omega)),
        word_setWord_of_disjoint (wordSpan_disjoint (by bv_omega) (by bv_omega)), word_setWord]
      exact now.code
    · rw [rsp]
      simp only [m, pushCall]
      rw [word_setWord_of_disjoint (wordSpan_disjoint (by bv_omega) (by bv_omega)), word_setWord]
    · rw [rsp]
      simp only [m, pushCall]
      rw [word_setWord]
      exact word_congr ((others u other (by rw [parked]; decide)).mono Set.subset_union_right)
    · rw [rsp]
      omega
    · rw [rsp]
      omega
  have step := Step.call now minds parked calls
  have on : (Function.update s.phase c (.switching t u)) c = .switching t u :=
    Function.update_self _ _ _
  refine ⟨r, m, _, step, on, rfl, rfl, fun {good} allow => ?_⟩
  obtain ⟨n, r', m', run, _, kernel, code⟩ := (Sound.step sound step).swtch_run on good allow
  refine ⟨n, _, run, rfl, rfl, rfl, Function.update_self _ _ _, ?_, ?_⟩
  · rw [Machine.run_regs]
    exact kernel
  · rw [Machine.run_regs]
    exact code

/-- Compiled code may write where no thread is yet. -/
theorem Sound.work_new {m : ByteMemory} (sound : Sound text areas s) (now : Compiled text s c t)
    (vacant : Vacant areas s u) (kept : ∀ b, b ∉ areas.area u → m b = s.mem b) :
    Step text areas s (c, .work (s.regs c) m) (s.run c (s.regs c) m) ∧
      Compiled text (s.run c (s.regs c) m) c t := by
  obtain ⟨status, good⟩ := sound.on now.on
  have same (x : T) (born : s.status x ≠ .unborn) : Set.EqOn s.mem m (areas.area x) :=
    fun b inside => (kept b fun own => Set.disjoint_left.mp (vacant.apart x born) inside own).symm
  obtain ⟨low, high⟩ := good.free now.kernel.1 now.code
  have minds : Minds areas s t m := by
    refine ⟨fun x _ born => same x born, (same t ?_).mono ?_⟩
    · rw [status]
      decide
    · exact (span_subset_span (low.trans high) le_rfl).trans Set.subset_union_left
  refine ⟨.work now minds now.kernel now.code ⟨low, high⟩, now.on, ?_, ?_⟩ <;> rw [Machine.run_regs]
  · exact now.kernel
  · exact now.code

/-- The first process is made. -/
theorem Sound.userinit_run (sound : Sound text areas s) (now : Compiled text s c t)
    (vacant : Vacant areas s u) (room : areas.low u + 100 ≤ areas.high u) :
    ∃ labels s', (machine text areas).Run s labels s' ∧ Compiled text s' c t ∧
      s'.phase = s.phase ∧ s'.status = Function.update s.status u .parked ∧
      s'.frames = Function.update s.frames u
        [⟨frameAt areas u, initRegs, text.trapretAt, frameAt areas u, false⟩] := by
  obtain ⟨work, now'⟩ := sound.work_new (m := userinit text areas u s.mem) now vacant
    fun _ => userinit_outside room
  have newborn : Newborn text areas (userinit text areas u s.mem) u (frameAt areas u) initRegs :=
    userinit_newborn room
  have spawn : Step text areas _ (c, .spawn u (frameAt areas u) initRegs) _ :=
    .spawn now' ⟨vacant.unborn, vacant.apart⟩ newborn
  have first : (machine text areas).Run s [(c, .work (s.regs c) (userinit text areas u s.mem))]
      (s.run c (s.regs c) (userinit text areas u s.mem)) :=
    (Library.System.Run.nil s).snoc work
  refine ⟨_, _, first.snoc spawn, ⟨now'.on, now'.kernel, now'.code⟩, rfl, rfl, ?_⟩
  dsimp only
  rw [Machine.run_frames, Machine.run_mem, newborn.ret]

/-! ## Every detour ends -/

/-- A processor in the assembly needs only its own steps to get through it, in
any reachable state: through `swtch` to the other thread, through a trap to `trap`, and
through all returns to the interrupted code.  They change nothing for any
other thread and any other processor. -/
theorem assembly_completes (reached : (machine text areas).Reachable s) (c : C) :
    ∃ n s', (machine text areas).Run s (List.replicate n (c, .exec)) s' ∧
      (∃ t, s'.phase c = .on t ∧ (s.phase c).Has t) ∧ Through text (s'.regs c) ∧
      (∀ d, d ≠ c → s'.phase d = s.phase d ∧ s'.regs d = s.regs d) ∧
      ∀ x, ¬ (s.phase c).Has x → s'.status x = s.status x ∧ (s.status x ≠ .unborn →
        s'.view x = s.view x ∧ s'.frames x = s.frames x ∧ Set.EqOn s.mem s'.mem (areas.area x)) := by
  have sound := sound_of_reachable reached
  obtain ⟨n, s', run, t, on, through⟩ : ∃ n s',
      (machine text areas).Run s (List.replicate n (c, .exec)) s' ∧
        ∃ t, s'.phase c = .on t ∧ Through text (s'.regs c) := by
    cases phase : s.phase c with
    | on t =>
        obtain ⟨n, s', run, on, through⟩ := sound.on_run phase rfl
        exact ⟨n, s', run, t, on, through⟩
    | switching t u =>
        obtain ⟨n, r, m, run, _, kernel, code⟩ := sound.swtch_run phase
          (fun _ _ => True) (fun _ _ => trivial)
        refine ⟨n, _, run.ofGuarded, u, Function.update_self _ _ _, .inr ?_⟩
        rw [Machine.run_regs]
        exact ⟨kernel, code⟩
  obtain ⟨inside, others, threads⟩ := sound.exec_frame run
  exact ⟨n, s', run, ⟨t, on, inside t (by rw [on]; rfl)⟩, through, others, threads⟩

theorem boot_reachable : (machine flatText pageAreas).Reachable boot := .start boot_boots

/-- The first process has an entry and a page that are free. -/
theorem boot_vacant : Vacant pageAreas boot (1, 1) := by
  refine ⟨rfl, fun t born => ?_⟩
  rw [boot_alone born]
  exact pageAreas_apart (by decide) (by decide)

/-- The first process gets to its first instruction. -/
theorem boot_user : ∃ s : Machine (Fin 8 × Fin 8) Unit, (machine flatText pageAreas).Reachable s ∧
    s.phase () = .on (1, 1) ∧ s.regs () = initRegs ∧ s.frames (1, 1) = [] ∧
      s.status (1, 1) = .engaged ∧ ∀ t, s.status t ≠ .unborn → t = (0, 0) ∨ t = (1, 1) := by
  obtain ⟨_, s, made, now, phase, status, frames⟩ :=
    (sound_of_reachable boot_reachable).userinit_run boot_compiled boot_vacant (by decide)
  have reached := boot_reachable.run made
  have room : pageAreas.low (0, 0) + 28 ≤ floor pageAreas (0, 0) (s.frames (0, 0)) := by
    rw [frames]
    decide
  obtain ⟨r, m, s₁, call, _, status₁, _, away⟩ :=
    (sound_of_reachable reached).switch_run (u := (1, 1)) now (by rw [status]; rfl) room
  obtain ⟨n, s₂, run₂, phase₂, status₂, frames₂, now₂⟩ :=
    @away (fun _ _ => True) fun _ _ => trivial
  have reached₂ := (reached.step call).run run₂.ofGuarded
  obtain ⟨labels, m', run₃⟩ := (sound_of_reachable reached₂).exit_run
    now₂ (by rw [frames₂, frames]; rfl) (fun _ _ => True) (fun _ => trivial) fun _ _ => trivial
  refine ⟨_, reached₂.run run₃.ofGuarded, now₂.on, ?_, ?_, ?_, fun t born => ?_⟩
  · dsimp only
    rw [Machine.run_regs]
  · dsimp only
    rw [Function.update_self]
  · dsimp only
    rw [Machine.run_status, status₂, status₁]
    rfl
  · by_cases first : t = (0, 0)
    · exact .inl first
    · refine .inr (by_contra fun second => born ?_)
      dsimp only
      rw [Machine.run_status, status₂, Function.update_of_ne first, status₁,
        Function.update_of_ne second, status, Function.update_of_ne second]
      exact if_neg first

/-- An interrupt of the kernel's first code. -/
theorem assembly_completes_interrupt : ∃ s₁ n s',
    Step flatText pageAreas boot ((), .interrupt 32 0) s₁ ∧
      (machine flatText pageAreas).Run s₁ (List.replicate n ((), .exec)) s' ∧
      (∃ t, s'.phase () = .on t ∧ (s₁.phase ()).Has t) ∧ Through flatText (s'.regs ()) := by
  have room : pageAreas.low (0, 0) + 84 ≤
      (entrySp (BitVec.ofNat 32 (pageAreas.high (0, 0))) (boot.regs ())).toNat := by
    decide
  obtain ⟨s₁, step, _⟩ := (sound_of_reachable boot_reachable).trap_run (t := (0, 0)) rfl room 32 0
  have edge : (machine flatText pageAreas).step boot ((), .interrupt 32 0) s₁ := step
  obtain ⟨n, s', run, on, through, _⟩ := assembly_completes (boot_reachable.step edge) ()
  exact ⟨s₁, n, s', step, run, on, through⟩

/-- The first process makes a system call. -/
theorem boot_syscall : ∃ (s s₁ : Machine (Fin 8 × Fin 8) Unit) (f : Frame),
    (machine flatText pageAreas).Reachable s ∧ s.phase () = .on (1, 1) ∧ (s.regs ()).User ∧
      (machine flatText pageAreas).step s ((), .interrupt tSyscall 0) s₁ ∧
      s₁.frames (1, 1) = [f] ∧ f.syscall = true ∧ pageAreas.low (1, 1) + 28 ≤ f.base.toNat ∧
      s₁.status (1, 1) = .engaged ∧ (∀ t, s₁.status t ≠ .unborn → t = (0, 0) ∨ t = (1, 1)) ∧
      ∀ {good : Machine (Fin 8 × Fin 8) Unit → Unit × Action (Fin 8 × Fin 8) → Prop},
        (∀ r m, good (s₁.run () r m) ((), .exec)) →
        ∃ k r m, ((machine flatText pageAreas).guarded good).Run s₁
          (List.replicate k ((), .exec)) (s₁.run () r m) ∧
            Compiled flatText (s₁.run () r m) () (1, 1) := by
  obtain ⟨s, reached, on, regs, none, engaged, alone⟩ := boot_user
  have user : (s.regs ()).User := by
    rw [regs]
    exact initRegs_user
  have room : pageAreas.low (1, 1) + 84 ≤
      (entrySp (BitVec.ofNat 32 (pageAreas.high (1, 1))) (s.regs ())).toNat := by
    rw [entrySp, if_pos user]
    decide
  obtain ⟨s₁, trap, _, status, frames, inside⟩ :=
    (sound_of_reachable reached).trap_run on room tSyscall 0
  refine ⟨s, s₁, trapFrame flatText pageAreas (1, 1) tSyscall (s.regs ()), reached, on, user, trap,
    ?_, decide_eq_true ⟨rfl, user⟩, ?_, ?_, ?_, inside⟩
  · rw [frames, none, Function.update_self]
  · dsimp only [trapFrame]
    rw [entrySp, if_pos user, frameSize, if_pos user]
    decide
  · rw [status]
    exact engaged
  · rw [status]
    exact alone

end SlabStudy.Xv6.Assembly
