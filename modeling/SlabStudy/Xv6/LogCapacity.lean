import SlabStudy.Xv6.LogOps

/-!
# The capacity of the log

`begin_op` reserves room for `MAXOPBLOCKS` blocks in a log of `LOGSIZE`
blocks.  `mkfs` lays out `LOGSIZE` blocks with the header among them, and
`log_write` stops the machine when all blocks but one are used, before it
looks whether the block is in the log already.
-/

namespace SlabStudy.Xv6

open Library

section Capacity

variable {P : Type} [DecidableEq P] {s : LogState P} {next : Except LogPanic (LogState P)}
  {label : LogLabel P}

/-- The distinct blocks logged since the last commit. -/
def LogTrace.blocks (a : LogTrace P) : Finset Nat := (a.pending.map Prod.fst).toFinset

/-- Inside an operation the header has one entry for each of them. -/
theorem LogInv.length {a : LogTrace P} {p : P} (inv : LogInv a s)
    (inside : (s.op p).inOp = true) : s.lh.length = a.blocks.card := by
  have same : s.lh.toFinset = a.blocks := by
    ext b
    rw [List.mem_toFinset, LogTrace.blocks, List.mem_toFinset]
    exact inv.entries.mem_lh inv.control inside b
  rw [← same, List.toFinset_card_of_nodup inv.entries.nodup]

/-- When the tests of `log_write` stop the machine. -/
theorem LogInv.check_tooBig {a : LogTrace P} {p : P} (inv : LogInv a s)
    (ran : logStep s (.check p) = some next) :
    next = .error .tooBig ↔ logsize ≤ a.blocks.card ∨ s.size ≤ a.blocks.card + 1 := by
  generalize called : (LogLabel.check p : LogLabel P) = label at ran
  have move := logStep_move ran
  cases move with
  | tooBig logging full =>
      rw [← inv.length (by rw [logging]; rfl)]
      exact iff_of_true rfl (by omega)
  | outsideTrans logging none =>
      have some := inv.control.positive (by rw [logging]; rfl)
      omega
  | check logging entry room =>
      rw [← inv.length (by rw [logging]; rfl)]
      refine iff_of_false (fun impossible => ?_) (by omega)
      cases impossible
  | noBuffers breads =>
      subst called
      cases breads
  | _ => cases called

/-- A run that has stopped goes no further. -/
theorem logSystem_stopped {reason : LogPanic} {labels : List (LogLabel P)}
    (run : (logSystem P).Run (.error reason) labels next) : labels = [] ∧ next = .error reason := by
  induction run with
  | nil => exact ⟨rfl, rfl⟩
  | snoc _ step ih =>
      obtain ⟨u, ok, _⟩ := step
      rw [ih.2] at ok
      cases ok

/--
With the log region of `mkfs`, a run does not stop at "too big a transaction"
exactly when every `log_write` of it is called while the operations since the
last commit have logged fewer than `LOGSIZE - 1` distinct blocks.
-/
theorem log_write_fits_iff {start : LogState P} {labels : List (LogLabel P)}
    (first : start.Initial) (mkfs : start.size = logsize)
    (run : (logSystem P).Run (.ok start) labels next) :
    next ≠ .error .tooBig ↔ ∀ before p after, labels = before ++ .check p :: after →
      (logTrace before).blocks.card + 1 < logsize := by
  constructor
  · rintro survived before p after rfl
    obtain ⟨middle, earlier, later⟩ := run.split
    obtain ⟨there, ⟨t, rfl, ran⟩, rest⟩ := later.uncons
    obtain ⟨inv, _, length⟩ := LogInv.run first earlier t rfl
    have passed : there ≠ .error .tooBig := by
      rintro rfl
      exact survived (logSystem_stopped rest).2
    rw [Ne, inv.check_tooBig ran, length, mkfs] at passed
    omega
  · rintro called rfl
    generalize stop : (Except.error .tooBig : Except LogPanic (LogState P)) = next at run
    cases run with
    | nil => cases stop
    | @snoc _ _ before label earlier step =>
        obtain ⟨t, rfl, ran⟩ := step
        obtain ⟨inv, _, length⟩ := LogInv.run first earlier t rfl
        subst stop
        generalize result : (Except.error .tooBig : Except LogPanic (LogState P)) = next at ran
        have move := logStep_move ran
        cases move with
        | @tooBig p b logged logging full =>
            have fits := called before p [] rfl
            have full := (inv.check_tooBig ran).mp rfl
            rw [length, mkfs] at full
            omega
        | _ => cases result

end Capacity

/-! ## Three operations that use what they have reserved -/

section Sample

variable {P : Type} [DecidableEq P] {s t : LogState P} {p : P} {b : Nat} {bs : List Nat}
  {logged : Finset Nat}

/-- An operation logs at most `MAXOPBLOCKS` distinct blocks. -/
def WithinBudget (state : Except LogPanic (LogState P)) : LogLabel P → Prop
  | .fill p b _ => ∀ s logged, state = .ok s → s.op p = .active logged →
      (insert b logged).card ≤ maxopblocks
  | _ => True

/-- Process `p` has logged the blocks `bs`. -/
structure Logged (s t : LogState P) (p : P) (logged : Finset Nat) (bs : List Nat) : Prop where
  lh : t.lh = s.lh ++ bs
  op : t.op = Function.update s.op p (.active (logged ∪ bs.toFinset))
  holder : t.holder = s.holder
  pinned : t.pinned = s.pinned ∪ bs.toFinset
  start : t.start = s.start
  size : t.size = s.size
  outstanding : t.outstanding = s.outstanding
  committing : t.committing = s.committing

theorem begin_runs (idle : s.op p = .idle) (free : s.committing = false)
    (room : s.lh.length + (s.outstanding + 1) * maxopblocks ≤ logsize) :
    logStep s (.begin p) =
      some (.ok ({ s with outstanding := s.outstanding + 1 }.setOp p (.active ∅))) := by
  unfold logStep
  dsimp only
  rw [idle]
  dsimp only
  rw [free, if_neg Bool.false_ne_true, if_neg (by omega)]

theorem fill_runs (data : Block) (active : s.op p = .active logged) (unlocked : s.holder b = none)
    (home : ¬ InLog s.start s.size b) (word : b < 2 ^ 32) (buffer : s.pinned.card < nbuf) :
    logStep s (.fill p b data) = some (.ok ({ s with
      mem := ⟨s.mem.disk, Function.update s.mem.buf b data⟩,
      holder := Function.update s.holder b (some p),
      pinned := insert b s.pinned }.setOp p (.logging (insert b logged) b))) := by
  have found : s.hasBuffer b = true := by
    rw [LogState.hasBuffer, decide_eq_true buffer, Bool.or_true]
  unfold logStep
  dsimp only
  rw [active]
  dsimp only
  rw [if_neg (fun either => either.elim home (Nat.not_le_of_lt word)),
    if_neg (not_not_intro found), if_neg (by rw [unlocked]; exact Bool.false_ne_true)]

theorem check_runs (logging : s.op p = .logging logged b) (entry : s.lh.length < logsize)
    (room : s.lh.length + 1 < s.size) (some : 1 ≤ s.outstanding) :
    logStep s (.check p) = .some (.ok (s.setOp p (.checked logged b))) := by
  unfold logStep
  dsimp only
  rw [logging]
  dsimp only
  rw [if_neg (by omega), if_neg (by omega)]

theorem check_stops (logging : s.op p = .logging logged b) (full : s.size ≤ s.lh.length + 1) :
    logStep s (.check p) = some (.error .tooBig) := by
  unfold logStep
  dsimp only
  rw [logging]
  exact if_pos (.inr (by omega))

theorem append_runs (checked : s.op p = .checked logged b) (absent : b ∉ s.lh)
    (entry : s.lh.length < logsize) :
    logStep s (.record p) = some (.ok ({ s with
      lh := s.lh ++ [b],
      holder := Function.update s.holder b none }.setOp p (.active logged))) := by
  unfold logStep
  dsimp only
  rw [checked]
  dsimp only
  rw [if_neg absent, if_pos entry]

/-- Process `p` has filled block `b` and passed the tests of `log_write`. -/
structure Tested (s t : LogState P) (p : P) (logged : Finset Nat) (b : Nat) : Prop where
  op : t.op = Function.update s.op p (.checked (insert b logged) b)
  holder : t.holder = Function.update s.holder b (some p)
  pinned : t.pinned = insert b s.pinned
  lh : t.lh = s.lh
  start : t.start = s.start
  size : t.size = s.size
  outstanding : t.outstanding = s.outstanding
  committing : t.committing = s.committing

theorem tested_one (data : Block) (active : s.op p = .active logged)
    (unlocked : s.holder b = none) (home : ¬ InLog s.start s.size b) (word : b < 2 ^ 32)
    (buffer : s.pinned.card < nbuf) (entry : s.lh.length < logsize) (room : s.lh.length + 1 < s.size) (some : 1 ≤ s.outstanding)
    (budget : (insert b logged).card ≤ maxopblocks) :
    ∃ t, ((logSystem P).guarded WithinBudget).Run (.ok s) [.fill p b data, .check p] (.ok t) ∧
      Tested s t p logged b := by
  have filled := fill_runs data active unlocked home word buffer
  generalize first : ({ s with
    mem := ⟨s.mem.disk, Function.update s.mem.buf b data⟩,
    holder := Function.update s.holder b (.some p),
    pinned := insert b s.pinned } : LogState P).setOp p (.logging (insert b logged) b) = u
      at filled
  have logging : u.op p = .logging (insert b logged) b := by
    rw [← first]
    exact LogState.setOp_self _ _ _
  have checked := check_runs logging (by rw [← first]; exact entry) (by rw [← first]; exact room)
    (by rw [← first]; exact some)
  have within : WithinBudget (.ok s) (.fill p b data) := by
    rintro t own same here
    cases same
    rw [active] at here
    cases here
    exact budget
  have free : WithinBudget (.ok u) (.check p) := trivial
  have run : ((logSystem P).guarded WithinBudget).Run (.ok s) ([] ++ [.fill p b data]) (.ok u) :=
    .snoc (.nil _) ⟨within, s, rfl, filled⟩
  refine ⟨_, run.snoc ⟨free, u, rfl, checked⟩, ?_⟩
  rw [← first]
  refine ⟨?_, rfl, rfl, rfl, rfl, rfl, rfl, rfl⟩
  exact Function.update_idem _ _ _

/-- One `log_write` of a block that is not in the log. -/
theorem logged_one (data : Block) (active : s.op p = .active logged)
    (unlocked : s.holder b = none) (home : ¬ InLog s.start s.size b) (word : b < 2 ^ 32)
    (buffer : s.pinned.card < nbuf) (absent : b ∉ s.lh) (entry : s.lh.length < logsize) (room : s.lh.length + 1 < s.size) (some : 1 ≤ s.outstanding)
    (budget : (insert b logged).card ≤ maxopblocks) :
    ∃ labels t, ((logSystem P).guarded WithinBudget).Run (.ok s) labels (.ok t) ∧
      Logged s t p logged [b] := by
  obtain ⟨u, run, tested⟩ :=
    tested_one data active unlocked home word buffer entry room some budget
  have recorded := append_runs (s := u) (p := p) (by rw [tested.op, Function.update_self])
    (by rw [tested.lh]; exact absent) (by rw [tested.lh]; exact entry)
  have free : WithinBudget (.ok u) (.record p) := trivial
  refine ⟨_, _, .snoc run ⟨free, u, rfl, recorded⟩, ?_⟩
  refine ⟨?_, ?_, ?_, ?_, tested.start, tested.size, tested.outstanding, tested.committing⟩
  · change u.lh ++ [b] = _
    rw [tested.lh]
  · change Function.update u.op p _ = _
    rw [tested.op, Function.update_idem, List.toFinset_cons, List.toFinset_nil, insert_empty_eq,
      Finset.union_comm, ← Finset.insert_eq]
  · change Function.update u.holder b none = _
    rw [tested.holder, Function.update_idem, ← unlocked, Function.update_eq_self]
  · change u.pinned = _
    rw [tested.pinned, List.toFinset_cons, List.toFinset_nil, insert_empty_eq, Finset.union_comm,
      ← Finset.insert_eq]

theorem Logged.trans {u : LogState P} {more : List Nat} (first : Logged s t p logged bs)
    (second : Logged t u p (logged ∪ bs.toFinset) more) :
    Logged s u p logged (bs ++ more) := by
  refine ⟨?_, ?_, ?_, ?_, ?_, ?_, ?_, ?_⟩
  · rw [second.lh, first.lh, List.append_assoc]
  · rw [second.op, first.op, Function.update_idem, List.toFinset_append, Finset.union_assoc]
  · rw [second.holder, first.holder]
  · rw [second.pinned, first.pinned, List.toFinset_append, Finset.union_assoc]
  · rw [second.start, first.start]
  · rw [second.size, first.size]
  · rw [second.outstanding, first.outstanding]
  · rw [second.committing, first.committing]

/-- An operation that logs some blocks one after the other. -/
theorem logged_all (bs : List Nat) (data : Block) (active : s.op p = .active logged)
    (unlocked : ∀ b ∈ bs, s.holder b = none) (home : ∀ b ∈ bs, ¬ InLog s.start s.size b)
    (word : ∀ b ∈ bs, b < 2 ^ 32) (buffers : s.pinned.card + bs.length ≤ nbuf)
    (absent : ∀ b ∈ bs, b ∉ s.lh) (nodup : bs.Nodup) (entry : s.lh.length + bs.length ≤ logsize)
    (room : s.lh.length + bs.length < s.size) (some : 1 ≤ s.outstanding)
    (budget : (logged ∪ bs.toFinset).card ≤ maxopblocks) :
    ∃ labels t, ((logSystem P).guarded WithinBudget).Run (.ok s) labels (.ok t) ∧
      Logged s t p logged bs := by
  induction bs generalizing s logged with
  | nil =>
      refine ⟨[], s, .nil _, (List.append_nil _).symm, ?_, rfl, ?_, rfl, rfl, rfl, rfl⟩
      · rw [List.toFinset_nil, Finset.union_empty, ← active, Function.update_eq_self]
      · rw [List.toFinset_nil, Finset.union_empty]
  | cons b bs ih =>
      rw [List.length_cons] at entry room buffers
      rw [List.nodup_cons] at nodup
      rw [List.toFinset_cons] at budget
      have own : List.toFinset [b] = {b} := by
        rw [List.toFinset_cons, List.toFinset_nil, insert_empty_eq]
      obtain ⟨labels, t, run, one⟩ := logged_one data active (unlocked b List.mem_cons_self)
        (home b List.mem_cons_self) (word b List.mem_cons_self) (by omega)
        (absent b List.mem_cons_self) (by omega) (by omega) some (by
          refine Nat.le_trans (Finset.card_le_card ?_) budget
          exact Finset.insert_subset (Finset.mem_union_right _ (Finset.mem_insert_self _ _))
            Finset.subset_union_left)
      have longer : t.lh.length = s.lh.length + 1 := by
        rw [one.lh, List.length_append]
        rfl
      have now : t.op p = .active (logged ∪ List.toFinset [b]) := by
        rw [one.op, Function.update_self]
      obtain ⟨later, u, rest, all⟩ := ih now
        (fun c member => by rw [one.holder]; exact unlocked c (List.mem_cons_of_mem _ member))
        (fun c member => by
          rw [one.start, one.size]
          exact home c (List.mem_cons_of_mem _ member))
        (fun c member => word c (List.mem_cons_of_mem _ member)) (by
          have added := Finset.card_union_le s.pinned (List.toFinset [b])
          rw [one.pinned, own] at *
          rw [Finset.card_singleton] at added
          omega)
        (fun c member listed => by
          rw [one.lh, List.mem_append, List.mem_singleton] at listed
          rcases listed with old | rfl
          · exact absent c (List.mem_cons_of_mem _ member) old
          · exact nodup.1 member)
        nodup.2 (by omega) (by rw [one.size]; omega) (by rw [one.outstanding]; exact some) (by
          rw [own, Finset.union_assoc, ← Finset.insert_eq]
          exact budget)
      exact ⟨labels ++ later, u, run.append rest, one.trans all⟩

/-- The log of `mkfs`, and three processes of which the first `n` have begun an operation. -/
def sampleLog (n : Nat) : LogState (Fin 3) where
  start := 2
  size := logsize
  outstanding := n
  committing := false
  lh := []
  mem := ⟨fun _ => .zero, fun _ => .zero⟩
  holder := fun _ => none
  pinned := ∅
  op := fun q => if q.val < n then .active ∅ else .idle

theorem sampleLog_initial : (sampleLog 0).Initial :=
  ⟨rfl, rfl, rfl, rfl, fun _ => rfl, rfl, fun _ => rfl⟩

/-- `begin_op` admits all three. -/
theorem sampleLog_begins (k : Fin 3) :
    logStep (sampleLog k) (.begin k) = some (.ok (sampleLog (k + 1))) := by
  have room : ((sampleLog k).lh.length : Int) + ((sampleLog k).outstanding + 1) * maxopblocks ≤
      logsize := by
    change (0 : Int) + ((k.val : Int) + 1) * (10 : Nat) ≤ (30 : Nat)
    omega
  rw [begin_runs (if_neg (Nat.lt_irrefl _)) rfl room]
  refine congrArg (fun s => some (Except.ok s)) ?_
  unfold LogState.setOp sampleLog
  congr 1
  funext q
  by_cases here : q = k
  · rw [here, Function.update_self, if_pos (Nat.lt_succ_self _)]
  · rw [Function.update_of_ne here]
    change (if q.val < k.val then _ else _) = if q.val < k.val + 1 then _ else _
    have other : q.val ≠ k.val := fun same => here (Fin.ext same)
    by_cases small : q.val < k.val
    · rw [if_pos small, if_pos (Nat.lt_succ_of_lt small)]
    · rw [if_neg small, if_neg (by omega)]

theorem sampleLog_reached : ((logSystem (Fin 3)).guarded WithinBudget).Run (.ok (sampleLog 0))
    [.begin 0, .begin 1, .begin 2] (.ok (sampleLog 3)) := by
  have run₁ : ((logSystem (Fin 3)).guarded WithinBudget).Run (.ok (sampleLog 0)) ([] ++ [.begin 0])
      (.ok (sampleLog 1)) := .snoc (.nil _) ⟨trivial, _, rfl, sampleLog_begins 0⟩
  have run₂ : ((logSystem (Fin 3)).guarded WithinBudget).Run (.ok (sampleLog 0))
      ([] ++ [.begin 0] ++ [.begin 1]) (.ok (sampleLog 2)) :=
    .snoc run₁ ⟨trivial, _, rfl, sampleLog_begins 1⟩
  have run₃ : ((logSystem (Fin 3)).guarded WithinBudget).Run (.ok (sampleLog 0))
      ([] ++ [.begin 0] ++ [.begin 1] ++ [.begin 2]) (.ok (sampleLog 3)) :=
    .snoc run₂ ⟨trivial, _, rfl, sampleLog_begins 2⟩
  exact run₃

/-- One operation that logs one block does not fill the log. -/
theorem first_log_write_fits : ∃ labels next, (sampleLog 0).Initial ∧
    (sampleLog 0).size = logsize ∧ (logSystem (Fin 3)).Run (.ok (sampleLog 0)) labels next ∧
    (next ≠ .error .tooBig ↔ ∀ before p after, labels = before ++ .check p :: after →
      (logTrace before).blocks.card + 1 < logsize) := by
  have filled := fill_runs (s := sampleLog 1) (p := 0) (b := 32) .zero rfl rfl
    (fun inside => absurd inside.2 (by decide)) (by decide) (by decide)
  have checked := check_runs (LogState.setOp_self { sampleLog 1 with
    mem := ⟨fun _ => .zero, Function.update (fun _ => .zero) 32 .zero⟩,
    holder := Function.update (fun _ => none) 32 (some 0),
    pinned := insert 32 ∅ } 0 (.logging (insert 32 ∅) 32))
    (by decide) (by decide) (by decide)
  have run₁ : (logSystem (Fin 3)).Run (.ok (sampleLog 0)) ([] ++ [.begin 0]) (.ok (sampleLog 1)) :=
    .snoc (.nil _) ⟨_, rfl, sampleLog_begins 0⟩
  have run := (run₁.snoc ⟨_, rfl, filled⟩).snoc ⟨_, rfl, checked⟩
  exact ⟨_, _, sampleLog_initial, rfl, run, log_write_fits_iff sampleLog_initial rfl run⟩

/-- The blocks from `first` on lie behind the log. -/
theorem range_home {first length b : Nat} (above : 32 ≤ first)
    (member : b ∈ List.range' first length) : ¬ InLog 2 logsize b := by
  rw [List.mem_range'_1] at member
  unfold InLog
  change ¬ (2 ≤ b ∧ b < 32)
  omega

theorem range_budget {first length : Nat} (few : length ≤ maxopblocks) :
    (∅ ∪ (List.range' first length).toFinset).card ≤ maxopblocks := by
  rw [Finset.empty_union, List.toFinset_card_of_nodup List.nodup_range', List.length_range']
  exact few

/-- The blocks behind the log are logged in order; process `p` logs the next `count` of them. -/
theorem sample_logs {s : LogState (Fin 3)} {p : Fin 3} {length count : Nat}
    (idle : s.op p = .active ∅) (free : s.holder = fun _ => none)
    (place : s.start = 2) (size : s.size = logsize) (lh : s.lh = List.range' 32 length)
    (pinned : s.pinned.card ≤ length) (some : 1 ≤ s.outstanding) (few : count ≤ maxopblocks)
    (fits : length + count < logsize) :
    ∃ labels t, ((logSystem (Fin 3)).guarded WithinBudget).Run (.ok s) labels (.ok t) ∧
      Logged s t p ∅ (List.range' (32 + length) count) ∧
      t.lh = List.range' 32 (length + count) ∧ t.pinned.card ≤ length + count := by
  have long : s.lh.length = length := by rw [lh, List.length_range']
  have small : length + count < 30 := fits
  obtain ⟨labels, t, run, all⟩ := logged_all (List.range' (32 + length) count) .zero idle
    (fun b _ => by rw [free]) (fun b member => by
      rw [place, size]
      exact range_home (by omega) member)
    (fun b member => by
      rw [List.mem_range'_1] at member
      omega)
    (by rw [List.length_range']; change _ ≤ 30; omega)
    (fun b member listed => by
      rw [List.mem_range'_1] at member
      rw [lh, List.mem_range'_1] at listed
      omega)
    List.nodup_range' (by rw [long, List.length_range']; omega)
    (by rw [long, List.length_range', size]; omega) some (range_budget few)
  refine ⟨labels, t, run, all, ?_, ?_⟩
  · rw [all.lh, lh, List.range'_append_1]
  · have added := Finset.card_union_le s.pinned (List.range' (32 + length) count).toFinset
    rw [List.toFinset_card_of_nodup List.nodup_range', List.length_range'] at added
    rw [all.pinned]
    omega

/-- After the three operations have logged 28 blocks between them. -/
theorem sample_nearly_full : ∃ labels t,
    ((logSystem (Fin 3)).guarded WithinBudget).Run (.ok (sampleLog 0)) labels (.ok t) ∧
      t.lh = List.range' 32 28 ∧ t.op 1 = .active (List.range' 42 9).toFinset ∧
      t.op 2 = .active (List.range' 51 9).toFinset ∧
      t.start = 2 ∧ t.size = logsize ∧ (t.holder = fun _ => none) ∧ t.pinned.card ≤ 28 ∧
      t.outstanding = 3 := by
  obtain ⟨labels₀, t₀, run₀, all₀, lh₀, pinned₀⟩ := sample_logs (s := sampleLog 3) (p := 0) rfl rfl
    rfl rfl (rfl : _ = List.range' 32 0) (Nat.le_refl _) (by decide) (by decide : 10 ≤ maxopblocks)
    (by decide)
  have op₀ : ∀ q, q ≠ 0 → t₀.op q = (sampleLog 3).op q := fun q apart => by
    rw [all₀.op, Function.update_of_ne apart]
  obtain ⟨labels₁, t₁, run₁, all₁, lh₁, pinned₁⟩ := sample_logs (p := 1) (op₀ 1 (by decide))
    (all₀.holder.trans rfl) all₀.start all₀.size lh₀ pinned₀ (by rw [all₀.outstanding]; decide)
    (by decide : 9 ≤ maxopblocks) (by decide)
  have op₁ : ∀ q, q ≠ 1 → t₁.op q = t₀.op q := fun q apart => by
    rw [all₁.op, Function.update_of_ne apart]
  obtain ⟨labels₂, t₂, run₂, all₂, lh₂, pinned₂⟩ := sample_logs (p := 2)
    ((op₁ 2 (by decide)).trans (op₀ 2 (by decide)))
    (all₁.holder.trans (all₀.holder.trans rfl)) (all₁.start.trans all₀.start)
    (all₁.size.trans all₀.size) lh₁ pinned₁ (by rw [all₁.outstanding, all₀.outstanding]; decide)
    (by decide : 9 ≤ maxopblocks) (by decide)
  have op₂ : ∀ q, q ≠ 2 → t₂.op q = t₁.op q := fun q apart => by
    rw [all₂.op, Function.update_of_ne apart]
  refine ⟨_, t₂, sampleLog_reached.append (run₀.append (run₁.append run₂)), lh₂, ?_, ?_, ?_, ?_, ?_,
    pinned₂, ?_⟩
  · rw [op₂ 1 (by decide), all₁.op, Function.update_self, Finset.empty_union]
  · rw [all₂.op, Function.update_self, Finset.empty_union]
  · exact all₂.start.trans (all₁.start.trans all₀.start)
  · exact all₂.size.trans (all₁.size.trans all₀.size)
  · exact all₂.holder.trans (all₁.holder.trans all₀.holder)
  · exact all₂.outstanding.trans (all₁.outstanding.trans all₀.outstanding)

/-- Three operations with ten blocks each: the thirtieth `log_write` stops the machine. -/
theorem three_operations_too_big : ∃ labels, (sampleLog 0).Initial ∧
    (sampleLog 0).size = logsize ∧
    ((logSystem (Fin 3)).guarded WithinBudget).Run (.ok (sampleLog 0)) labels
      (.error .tooBig) := by
  obtain ⟨labels, t, run, lh, op₁, op₂, place, size, holder, pinned, outstanding⟩ :=
    sample_nearly_full
  have long : t.lh.length = 28 := by rw [lh, List.length_range']
  have home : ∀ b, 32 ≤ b → ¬ InLog t.start t.size b := by
    intro b above inside
    rw [place, size] at inside
    have below := inside.2
    change b < 32 at below
    omega
  obtain ⟨more, u, ran, one⟩ := logged_one (b := 60) .zero op₁ (by rw [holder])
    (home 60 (by decide)) (by decide) (Nat.lt_of_le_of_lt pinned (by decide)) (by rw [lh]; decide)
    (by rw [long]; decide) (by rw [long, size]; decide) (by rw [outstanding]; decide) (by decide)
  have active : u.op 2 = .active (List.range' 51 9).toFinset := by
    rw [one.op, Function.update_of_ne (by decide), op₂]
  have room : u.pinned.card < nbuf := by
    have added := Finset.card_union_le t.pinned (List.toFinset [60])
    have single : (List.toFinset [60]).card = 1 := rfl
    rw [← one.pinned] at added
    change _ < 30
    omega
  have filled := fill_runs (b := 61) .zero active (by rw [one.holder, holder])
    (by rw [one.start, one.size]; exact home 61 (by decide)) (by decide) room
  have stopped := check_stops (LogState.setOp_self { u with
    mem := ⟨u.mem.disk, Function.update u.mem.buf 61 .zero⟩,
    holder := Function.update u.holder 61 (some 2),
    pinned := insert 61 u.pinned } 2 (.logging (insert 61 (List.range' 51 9).toFinset) 61)) (by
    change u.size ≤ u.lh.length + 1
    rw [one.size, size, one.lh, List.length_append, long]
    decide)
  have within : WithinBudget (.ok u) (.fill 2 61 .zero) := by
    rintro v logged same here
    cases same
    rw [active] at here
    cases here
    decide
  have last : WithinBudget (.ok ({ u with
    mem := ⟨u.mem.disk, Function.update u.mem.buf 61 .zero⟩,
    holder := Function.update u.holder 61 (some 2),
    pinned := insert 61 u.pinned }.setOp 2
      (.logging (insert 61 (List.range' 51 9).toFinset) 61))) (.check 2) := trivial
  exact ⟨_, sampleLog_initial, rfl, .snoc (.snoc (run.append ran) ⟨within, u, rfl, filled⟩)
    ⟨last, _, rfl, stopped⟩⟩

end Sample

end SlabStudy.Xv6
