import SlabStudy.Xv6.IdeQueue

/-!
# The queued driver refines the synchronous one

While the disk of `ide.c` works on its queue, the disk in memory has done the
same requests already.  What is left to do of the queue accounts for the difference.
-/

namespace SlabStudy.Xv6

open Library

section Refinement

variable {P : Type} [DecidableEq P] {s t : IdeState P} {a : BufState P} {q : List (Fin nbuf)}

/-! ## Carrying out the queue -/

/-- What a request makes of the disk and of the buffers. -/
def carryOut (now : Disk × (Fin nbuf → Buf P)) (b : Fin nbuf) : Disk × (Fin nbuf → Buf P) :=
  if (now.2 b).dirty then
    (Function.update now.1 (now.2 b).blockno (now.2 b).data,
      Function.update now.2 b { now.2 b with dirty := false, valid := true })
  else (now.1, Function.update now.2 b { now.2 b with data := now.1 (now.2 b).blockno, valid := true })

omit [DecidableEq P] in
theorem carryOut_other {now : Disk × (Fin nbuf → Buf P)} {b c : Fin nbuf} (apart : c ≠ b) :
    (carryOut now b).2 c = now.2 c := by
  unfold carryOut
  split
  · exact Function.update_of_ne apart ..
  · exact Function.update_of_ne apart ..

omit [DecidableEq P] in
theorem foldl_carryOut_other (now : Disk × (Fin nbuf → Buf P)) {b : Fin nbuf} (absent : b ∉ q) :
    (q.foldl carryOut now).2 b = now.2 b := by
  induction q generalizing now with
  | nil => rfl
  | cons c q ih =>
    obtain ⟨apart, absent⟩ := not_or.mp (mt List.mem_cons.mpr absent)
    exact (ih _ absent).trans (carryOut_other apart)

omit [DecidableEq P] in
/-- A change to a buffer that is not in the queue may be made first. -/
theorem foldl_carryOut_update (now : Disk × (Fin nbuf → Buf P)) {b : Fin nbuf} (new : Buf P)
    (absent : b ∉ q) : q.foldl carryOut (now.1, Function.update now.2 b new) =
      ((q.foldl carryOut now).1, Function.update (q.foldl carryOut now).2 b new) := by
  induction q generalizing now with
  | nil => rfl
  | cons c q ih =>
    obtain ⟨apart, absent⟩ := not_or.mp (mt List.mem_cons.mpr absent)
    have same : Function.update now.2 b new c = now.2 c := Function.update_of_ne (Ne.symm apart) ..
    have first : carryOut (now.1, Function.update now.2 b new) c =
        ((carryOut now c).1, Function.update (carryOut now c).2 b new) := by
      unfold carryOut
      simp only [same]
      split
      · rw [Function.update_comm apart]
      · rw [Function.update_comm apart]
    rw [List.foldl_cons, List.foldl_cons, first]
    exact ih _ absent

/-! ## The simulation -/

/-- The disk in memory is where carrying out the queue leads to. -/
structure IdeSim (a : BufState P) (s : IdeState P) (q : List (Fin nbuf)) : Prop where
  now : q.foldl carryOut (s.disk 1, s.buf) = (a.disk, a.buf)
  drive : ∀ b ∈ q, (s.buf b).dev = 1

omit [DecidableEq P] in
theorem IdeSim.buf (sim : IdeSim a s q) {b : Fin nbuf} (absent : b ∉ q) : a.buf b = s.buf b := by
  have same := foldl_carryOut_other (s.disk 1, s.buf) absent
  rw [sim.now] at same
  exact same

theorem IdeSim.iderw (sim : IdeSim a s q) {p : P} {b : Fin nbuf}
    (requested : Requested s q p b t) {a' : BufState P} (ran : a.iderw p b = .ok a') :
    IdeSim a' t (q ++ [b]) := by
  have same := sim.buf requested.new
  unfold BufState.iderw at ran
  dsimp only at ran
  rw [same] at ran
  split at ran
  · cases ran
  · split at ran
    · cases ran
    · split at ran
      · cases ran
      · next drive =>
        have drive : (s.buf b).dev = 1 := of_not_not drive
        split at ran
        · cases ran
        · refine ⟨?_, fun c member => ?_⟩
          · rw [List.foldl_append, requested.disk, requested.buf, sim.now]
            change carryOut (a.disk, a.buf) b = _
            unfold carryOut
            simp only [same]
            split at ran
            · next dirty =>
              cases ran
              rw [if_pos dirty]
              rfl
            · next clean =>
              cases ran
              rw [if_neg clean]
              rfl
          · rw [requested.buf]
            rcases List.mem_append.mp member with inside | last
            · exact sim.drive c inside
            · rw [List.mem_singleton.mp last]
              exact drive

omit [DecidableEq P] in
theorem IdeSim.transfer {b : Fin nbuf} (sim : IdeSim a s (b :: q)) :
    IdeSim a (s.transfer (s.request b)) (b :: q) := by
  have drive := sim.drive b List.mem_cons_self
  have same : (s.transfer (s.request b)).buf = s.buf := by
    unfold IdeState.transfer
    split <;> rfl
  refine ⟨?_, by rw [same]; exact sim.drive⟩
  rw [← sim.now, same, List.foldl_cons, List.foldl_cons]
  congr 1
  unfold carryOut IdeState.transfer IdeState.request
  dsimp only
  rw [drive]
  by_cases dirty : (s.buf b).dirty = true
  · simp [dirty]
  · simp [dirty]

omit [DecidableEq P] in
theorem IdeSim.ideintr {b : Fin nbuf} {data : Option Block} (sim : IdeSim a s (b :: q))
    (done : s.device = .done data) (there : s.Transferred b data) (disk : t.disk = s.disk)
    (buf : t.buf = (s.complete b).buf) (absent : b ∉ q) : IdeSim a t q := by
  have drive := sim.drive b List.mem_cons_self
  refine ⟨?_, fun c member => ?_⟩
  · rw [← sim.now, List.foldl_cons, disk, buf]
    congr 1
    unfold IdeState.Transferred IdeState.request at there
    unfold carryOut IdeState.complete
    dsimp only at there ⊢
    rw [drive] at there
    by_cases dirty : (s.buf b).dirty = true
    · rw [if_pos dirty] at there ⊢
      obtain ⟨rfl, stored⟩ := there
      rw [done]
      have written : Function.update (s.disk 1) (s.buf b).blockno (s.buf b).data = s.disk 1 := by
        rw [← stored]
        exact Function.update_eq_self ..
      rw [written]
    · rw [if_neg dirty] at there ⊢
      cases there
      have clean : (s.buf b).dirty = false := Bool.eq_false_iff.mpr dirty
      simp only [done, if_neg dirty]
      congr 3
      exact clean.symm
  · have apart : c ≠ b := fun same => absent (same ▸ member)
    rw [buf]
    unfold IdeState.complete
    dsimp only
    rw [Function.update_of_ne apart]
    exact sim.drive c (List.mem_cons_of_mem _ member)

/-! ## Runs -/

namespace IdeLabel

/-- The buffers that a step appends to the queue. -/
def inserted : IdeLabel P → List (Fin nbuf)
  | .iderw _ b _ => [b]
  | _ => []

/-- The buffers whose requests a step starts. -/
def started : IdeLabel P → List (Fin nbuf)
  | .iderw _ b true => [b]
  | .ideintr _ next => next.toList
  | _ => []

/-- The buffers whose requests a step completes. -/
def completed : IdeLabel P → List (Fin nbuf)
  | .ideintr b _ => b.toList
  | _ => []

end IdeLabel

/-- What has been inserted and not completed is in the queue, and its first buffer is started. -/
structure IdeHistory (labels : List (IdeLabel P)) (q : List (Fin nbuf)) : Prop where
  order : labels.flatMap IdeLabel.inserted = labels.flatMap IdeLabel.completed ++ q
  started : labels.flatMap IdeLabel.started = labels.flatMap IdeLabel.completed ++ q.take 1

omit [DecidableEq P] in
theorem IdeHistory.same {labels : List (IdeLabel P)} {label : IdeLabel P}
    (history : IdeHistory labels q) (inserted : label.inserted = []) (started : label.started = [])
    (completed : label.completed = []) : IdeHistory (labels ++ [label]) q := by
  obtain ⟨order, first⟩ := history
  constructor
  · rw [List.flatMap_append, List.flatMap_append, List.flatMap_singleton, List.flatMap_singleton,
      inserted, completed, List.append_nil, List.append_nil, order]
  · rw [List.flatMap_append, List.flatMap_append, List.flatMap_singleton, List.flatMap_singleton,
      started, completed, List.append_nil, List.append_nil, first]

/-- The state of the driver at the end of a run, and what the same requests do to the disk in memory. -/
structure IdeRun (first : IdeState P) (labels : List (IdeLabel P)) (s : IdeState P)
    (q : List (Fin nbuf)) : Prop where
  inv : IdeInv s q
  history : IdeHistory labels q
  sim : ∀ a a' : BufState P, a.disk = first.disk 1 → a.buf = first.buf → memRun a labels = .ok a' →
    IdeSim a' s q

theorem memRun_snoc {labels : List (IdeLabel P)} {label : IdeLabel P} {a' : BufState P}
    (ran : memRun a (labels ++ [label]) = .ok a') :
    ∃ b, memRun a labels = .ok b ∧ memStep b label = .ok a' := by
  unfold memRun at ran ⊢
  rw [List.foldlM_append] at ran
  cases before : labels.foldlM memStep a with
  | error reason =>
    rw [before] at ran
    cases ran
  | ok b =>
    rw [before] at ran
    refine ⟨b, rfl, ?_⟩
    change memStep b label >>= pure = _ at ran
    rw [bind_pure] at ran
    exact ran

theorem IdeRun.step {first : IdeState P} {labels : List (IdeLabel P)} {label : IdeLabel P}
    (before : IdeRun first labels s q) (step : IdeStep s label t) :
    ∃ q', IdeRun first (labels ++ [label]) t q' := by
  obtain ⟨inv, history, sim⟩ := before
  have quiet {q' : List (Fin nbuf)} (inv' : IdeInv t q') (history' : IdeHistory (labels ++ [label]) q')
      (next : ∀ a a', IdeSim a s q → memStep a label = .ok a' → IdeSim a' t q') :
      IdeRun first (labels ++ [label]) t q' := by
    refine ⟨inv', history', fun a a' disk buf ran => ?_⟩
    obtain ⟨b, earlier, last⟩ := memRun_snoc ran
    exact next b a' (sim a b disk buf earlier) last
  cases step with
  | @iderw p b t idle ran =>
    have requested := (inv.iderw idle).2 t ran
    refine ⟨q ++ [b], quiet (inv.requested idle requested) ?_ fun a a' now last =>
      now.iderw requested last⟩
    obtain ⟨order, started⟩ := history
    constructor
    · rw [List.flatMap_append, List.flatMap_append, List.flatMap_singleton, List.flatMap_singleton,
        order]
      simp [IdeLabel.inserted, IdeLabel.completed]
    · rw [List.flatMap_append, List.flatMap_append, List.flatMap_singleton, List.flatMap_singleton,
        started]
      cases q with
      | nil => simp [IdeLabel.started, IdeLabel.completed, requested.first.mpr rfl]
      | cons c q =>
        have other : t.idequeue ≠ some b := fun same => nomatch requested.first.mp same
        simp [IdeLabel.started, IdeLabel.completed, other]
  | @transfer request busy =>
    obtain ⟨b, rest, rfl, rfl, inv'⟩ := inv.transfer busy
    refine ⟨b :: rest, quiet inv' (history.same rfl rfl rfl) fun a a' now last => ?_⟩
    cases last
    exact now.transfer
  | @ideintr data t done ran =>
    obtain ⟨b, rest, rfl, head, next, there, disk, buf, inv'⟩ := (inv.ideintr done).2 t ran
    refine ⟨rest, quiet inv' ?_ fun a a' now last => ?_⟩
    · obtain ⟨order, started⟩ := history
      rw [head, next]
      constructor
      · rw [List.flatMap_append, List.flatMap_append, List.flatMap_singleton, List.flatMap_singleton,
          order]
        simp [IdeLabel.inserted, IdeLabel.completed]
      · rw [List.flatMap_append, List.flatMap_append, List.flatMap_singleton, List.flatMap_singleton,
          started]
        cases rest <;> simp [IdeLabel.started, IdeLabel.completed]
    · cases last
      exact now.ideintr done there disk buf (List.nodup_cons.mp inv.nodup).1
  | @wakes p b awake =>
    obtain ⟨_, _, inv'⟩ := inv.wakes awake
    refine ⟨q, quiet inv' (history.same rfl rfl rfl) fun a a' now last => ?_⟩
    cases last
    exact ⟨now.now, now.drive⟩
  | @modify b new free =>
    obtain ⟨absent, inv'⟩ := inv.modify free
    refine ⟨q, quiet inv' (history.same rfl rfl rfl) fun a a' now last => ?_⟩
    cases last
    refine ⟨?_, fun c member => ?_⟩
    · have later := foldl_carryOut_update (s.disk 1, s.buf) new absent
      rw [now.now] at later
      exact later
    · have apart : c ≠ b := fun same => absent (same ▸ member)
      change (Function.update s.buf b new c).dev = 1
      rw [Function.update_of_ne apart]
      exact now.drive c member

theorem IdeRun.run {labels : List (IdeLabel P)} (start : s.Initial)
    (run : (ideSystem P).Run s labels t) : ∃ q, IdeRun s labels t q := by
  refine run.preservesHistory (P := fun labels t => ∃ q, IdeRun s labels t q)
    (fun ⟨_, before⟩ step => before.step step) ⟨[], .initial start, ⟨rfl, rfl⟩, ?_⟩
  intro a a' disk buf ran
  cases ran
  refine ⟨?_, nofun⟩
  change (s.disk 1, s.buf) = (a.disk, a.buf)
  rw [disk, buf]

/--
The queued driver.  Requests are completed in the order in which they are
inserted, each started once, when it is the first; the disk never waits for a
request while there is one, and no request is started that it does not take.
Nobody sleeps on a completed buffer, and nobody returns before the buffer is
completed.  Buffers outside the queue are as the synchronous driver leaves
them, and so is the disk when the queue is empty.
-/
theorem ide_refines_memide {labels : List (IdeLabel P)} (start : s.Initial)
    (run : (ideSystem P).Run s labels t) :
    ∃ q, labels.flatMap IdeLabel.inserted = labels.flatMap IdeLabel.completed ++ q ∧
      labels.flatMap IdeLabel.started = labels.flatMap IdeLabel.completed ++ q.take 1 ∧
      (q ≠ [] → t.device ≠ .ready) ∧
      (∀ p b reason, t.call p = none → t.iderw p b = .error reason →
        reason ≠ .endless ∧ reason ≠ .notReady) ∧
      (∀ data reason, t.device = .done data → t.ideintr = .error reason →
        reason = .incorrectBlockno) ∧
      (∀ p b, t.call p = some (b, true) → b ∈ q) ∧
      (∀ before p b after, labels = before ++ .wakes p b true :: after →
        (before.flatMap IdeLabel.inserted).count b = (before.flatMap IdeLabel.completed).count b) ∧
      ∀ a a' : BufState P, a.disk = s.disk 1 → a.buf = s.buf → memRun a labels = .ok a' →
        (∀ b ∉ q, a'.buf b = t.buf b) ∧ (q = [] → a'.disk = t.disk 1) := by
  obtain ⟨q, inv, history, sim⟩ := IdeRun.run start run
  refine ⟨q, history.order, history.started, fun some ready => ?_,
    fun p b reason idle failed => (inv.iderw idle).1 reason failed,
    fun data reason done failed => (inv.ideintr done).1 reason failed, inv.asleep,
    fun before p b after cut => ?_, fun a a' disk buf ran => ?_⟩
  · obtain ⟨b, rest, rfl⟩ := List.exists_cons_of_ne_nil some
    rcases inv.active b rest rfl with busy | ⟨data, done, _⟩
    · cases ready.symm.trans busy
    · cases ready.symm.trans done
  · rw [cut] at run
    obtain ⟨middle, earlier, rest⟩ := run.split
    obtain ⟨_, step, _⟩ := rest.uncons
    obtain ⟨waiting, inv', history', _⟩ := IdeRun.run start earlier
    have absent : b ∉ waiting := by
      generalize whole : IdeLabel.wakes p b true = label at step
      cases step with
      | iderw => cases whole
      | transfer => cases whole
      | ideintr => cases whole
      | modify => cases whole
      | @wakes p' b' awake =>
        simp only [IdeLabel.wakes.injEq] at whole
        obtain ⟨_, rfl, _⟩ := whole
        exact (inv'.wakes awake).1
    rw [history'.order, List.count_append, List.count_eq_zero.mpr absent, Nat.add_zero]
  · have now := sim a a' disk buf ran
    refine ⟨fun b absent => now.buf absent, fun none => ?_⟩
    have same := now.now
    rw [none] at same
    exact (congrArg Prod.fst same).symm

end Refinement

/-- One process wants to read block 5, another to write block 6. -/
def twoRequests : IdeState Bool where
  disk _ _ := .zero
  device := .ready
  havedisk1 := true
  buf b := if b = 0 then ⟨false, false, 1, 5, 1, some false, .zero, false⟩
    else ⟨true, true, 1, 6, 1, some true, fun _ => 7, false⟩
  qnext _ := none
  idequeue := none
  call _ := none

/-- The same buffers over the disk in memory. -/
def twoRequestsMem : BufState Bool :=
  ⟨⟨twoRequests.buf, ⟨fun _ => none, fun _ => none⟩⟩, fun _ => .zero, 1000, 2, logsize, 0, false, [],
    fun _ => ⟨.running, [], none⟩⟩

/-- The second request waits in the queue until the first is done. -/
def twoRequestsRun : List (IdeLabel Bool) :=
  [.iderw false 0 true, .iderw true 1 false, .transfer, .ideintr (some 0) (some 1),
    .wakes false 0 true, .transfer, .ideintr (some 1) none, .wakes true 1 true]

/-- Steps with the outcome that their label names. -/
theorem IdeStep.requests {P : Type} [DecidableEq P] {s t : IdeState P} {p : P} {b : Fin nbuf}
    {started : Bool} (idle : s.call p = none) (ran : s.iderw p b = .ok t)
    (first : decide (t.idequeue = some b) = started) : IdeStep s (.iderw p b started) t :=
  first ▸ .iderw idle ran

theorem IdeStep.interrupts {P : Type} [DecidableEq P] {s t : IdeState P}
    {b next : Option (Fin nbuf)} {data : Option Block} (done : s.device = .done data)
    (ran : s.ideintr = .ok t) (here : s.idequeue = b) (then' : t.idequeue = next) :
    IdeStep s (.ideintr b next) t := by
  subst here then'
  exact .ideintr done ran

theorem IdeStep.returns {P : Type} [DecidableEq P] {s : IdeState P} {p : P} {b : Fin nbuf}
    (awake : s.call p = some (b, false)) (done : s.finished b = true) :
    IdeStep s (.wakes p b true) (s.await p b) :=
  done ▸ .wakes awake

theorem ide_refines_memide_two : ∃ t a', twoRequests.Initial ∧
    (ideSystem Bool).Run twoRequests twoRequestsRun t ∧
    memRun twoRequestsMem twoRequestsRun = .ok a' ∧ a'.disk = t.disk 1 ∧
    t.disk 1 6 = fun _ => 7 := by
  have start : twoRequests.Initial := ⟨rfl, rfl, fun _ => rfl⟩
  have run : (ideSystem Bool).Run twoRequests ([] ++ [.iderw false 0 true] ++
      [.iderw true 1 false] ++ [.transfer] ++ [.ideintr (some 0) (some 1)] ++ [.wakes false 0 true] ++
      [.transfer] ++ [.ideintr (some 1) none] ++ [.wakes true 1 true]) _ :=
    .snoc (.snoc (.snoc (.snoc (.snoc (.snoc (.snoc (.snoc (.nil _)
      (IdeStep.requests rfl rfl rfl)) (IdeStep.requests rfl rfl rfl)) (IdeStep.transfer rfl))
      (IdeStep.interrupts rfl rfl rfl rfl)) (IdeStep.returns rfl rfl)) (IdeStep.transfer rfl))
      (IdeStep.interrupts rfl rfl rfl rfl)) (IdeStep.returns rfl rfl)
  obtain ⟨q, order, _, _, _, _, _, _, sim⟩ := ide_refines_memide start run
  have nothing : q = [] := by
    have here : [(0 : Fin nbuf), 1] = [0, 1] ++ q := order
    simpa using here
  have ran : memRun twoRequestsMem twoRequestsRun = .ok _ := rfl
  exact ⟨_, _, start, run, ran, (sim twoRequestsMem _ rfl rfl ran).2 nothing, rfl⟩

end SlabStudy.Xv6
