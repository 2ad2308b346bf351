import SlabStudy.Xv6.Ide

/-!
# The queue of the disk driver

The buffers in the queue are those whose callers sleep, the first of them is
with the disk, and carrying out the queue leads to where the disk in memory
is already.
-/

namespace SlabStudy.Xv6

open Library

section Driver

variable {P : Type} [DecidableEq P] {s t : IdeState P} {q : List (Fin nbuf)}

/-! ## The invariant -/

/-- What the disk holds behind the transfer for a buffer. -/
def IdeState.Transferred (s : IdeState P) (b : Fin nbuf) (data : Option Block) : Prop :=
  match (s.request b).write with
  | some stored => data = none ∧ s.disk (s.request b).drive (s.request b).sector = stored
  | none => data = some (s.disk (s.request b).drive (s.request b).sector)

namespace IdeState.Transferred

variable {b : Fin nbuf} {data : Option Block}

omit [DecidableEq P] in
theorem write {stored : Block} (command : (s.request b).write = some stored)
    (there : s.disk (s.request b).drive (s.request b).sector = stored) : s.Transferred b none := by
  unfold IdeState.Transferred
  rw [command]
  exact ⟨rfl, there⟩

omit [DecidableEq P] in
theorem read (command : (s.request b).write = none) :
    s.Transferred b (some (s.disk (s.request b).drive (s.request b).sector)) := by
  unfold IdeState.Transferred
  rw [command]

end IdeState.Transferred

structure IdeInv (s : IdeState P) (q : List (Fin nbuf)) : Prop where
  chain : Chain s.qnext s.idequeue q none
  nodup : q.Nodup
  holder : ∀ p b asleep, s.call p = some (b, asleep) → (s.buf b).holder = some p
  asleep : ∀ p b, s.call p = some (b, true) → b ∈ q
  awake : ∀ p b, s.call p = some (b, false) → b ∉ q ∧ s.finished b = true
  queued : ∀ b ∈ q, s.finished b = false ∧ ∃ p, s.call p = some (b, true)
  ready : q = [] → s.device = .ready
  active : ∀ b rest, q = b :: rest →
    s.device = .busy (s.request b) ∨ ∃ data, s.device = .done data ∧ s.Transferred b data

omit [DecidableEq P] in
theorem IdeInv.initial (start : s.Initial) : IdeInv s [] where
  chain := start.idequeue
  nodup := List.nodup_nil
  holder p _ _ call := nomatch (start.call p).symm.trans call
  asleep p _ call := nomatch (start.call p).symm.trans call
  awake p _ call := nomatch (start.call p).symm.trans call
  queued _ member := nomatch member
  ready _ := start.device
  active _ _ whole := nomatch whole

omit [DecidableEq P] in
theorem IdeInv.short (inv : IdeInv s q) : q.length ≤ nbuf := by
  have few := inv.nodup.length_le_card
  rw [Fintype.card_fin] at few
  exact few

omit [DecidableEq P] in
/-- A buffer of the queue is in a call. -/
theorem IdeInv.not_queued (inv : IdeInv s q) {b : Fin nbuf}
    (free : ∀ p, s.call p ≠ some (b, true)) : b ∉ q := fun member => by
  obtain ⟨_, p, call⟩ := inv.queued b member
  exact free p call

/-! ## Requests -/

omit [DecidableEq P] in
/-- The loop over the queue finds its end, and the buffer is linked in there. -/
theorem IdeInv.append (inv : IdeInv s q) {b : Fin nbuf} (new : b ∉ q) :
    ∃ qnext idequeue, s.append b = .ok { s with qnext := qnext, idequeue := idequeue } ∧
      Chain qnext idequeue (q ++ [b]) none ∧ (idequeue = some b ↔ q = []) := by
  have chain : Chain (Function.update s.qnext b none) s.idequeue q none :=
    inv.chain.congr fun x member =>
      Function.update_of_ne (fun same : x = b => new (same ▸ member)) ..
  have free : Function.update s.qnext b none b = none := Function.update_self ..
  unfold IdeState.append
  cases q with
  | nil =>
    rw [show s.idequeue = none from inv.chain]
    exact ⟨_, _, rfl, ⟨rfl, free⟩, fun _ => rfl, fun _ => rfl⟩
  | cons first rest =>
    have head : s.idequeue = some first := inv.chain.1
    obtain ⟨front, last, whole⟩ := (first :: rest).eq_nil_or_concat.resolve_left nofun
    rw [List.concat_eq_append] at whole
    have short := inv.short
    have nodup := inv.nodup
    rw [whole] at chain new short nodup
    rw [List.length_append, List.length_singleton] at short
    have found := Chain.end?_eq (head ▸ chain) short
    rw [head]
    dsimp only
    rw [found, whole]
    refine ⟨_, _, rfl, ?_, fun same => ?_, fun none => ?_⟩
    · rw [head] at chain
      exact chain.snoc nodup new free
    · cases same
      exact absurd (whole ▸ List.mem_cons_self) new
    · exact absurd none (List.append_ne_nil_of_right_ne_nil _ (List.cons_ne_nil _ _))

/-- A call of `iderw` up to `sleep`. -/
structure Requested (s : IdeState P) (q : List (Fin nbuf)) (p : P) (b : Fin nbuf) (t : IdeState P) :
    Prop where
  new : b ∉ q
  holder : (s.buf b).holder = some p
  unfinished : s.finished b = false
  chain : Chain t.qnext t.idequeue (q ++ [b]) none
  first : t.idequeue = some b ↔ q = []
  device : t.device = if q = [] then .busy (s.request b) else s.device
  disk : t.disk = s.disk
  buf : t.buf = s.buf
  call : t.call = Function.update s.call p (some (b, true))

theorem IdeInv.iderw (inv : IdeInv s q) {p : P} {b : Fin nbuf} (idle : s.call p = none) :
    (∀ reason, s.iderw p b = .error reason → reason ≠ .endless ∧ reason ≠ .notReady) ∧
      ∀ t, s.iderw p b = .ok t → Requested s q p b t := by
  unfold IdeState.iderw
  split
  · exact ⟨fun _ failed => by cases failed; exact ⟨nofun, nofun⟩, nofun⟩
  · next locked =>
    have held : (s.buf b).holder = some p := of_not_not locked
    split
    · exact ⟨fun _ failed => by cases failed; exact ⟨nofun, nofun⟩, nofun⟩
    · next unfinished =>
      have unfinished : s.finished b = false := Bool.eq_false_iff.mpr unfinished
      split
      · exact ⟨fun _ failed => by cases failed; exact ⟨nofun, nofun⟩, nofun⟩
      · have new : b ∉ q := inv.not_queued fun other call => by
          have same := held.symm.trans (inv.holder other b true call)
          cases same
          cases idle.symm.trans call
        obtain ⟨qnext, idequeue, appended, chain, first⟩ := inv.append new
        rw [appended]
        dsimp only [bind, Except.bind]
        by_cases alone : q = []
        · rw [if_pos (first.mpr alone)]
          unfold IdeState.idestart
          dsimp only
          rw [inv.ready alone]
          by_cases beyond : (s.buf b).blockno ≥ fssize
          · rw [if_pos beyond]
            exact ⟨fun _ failed => by cases failed; exact ⟨nofun, nofun⟩, nofun⟩
          · rw [if_neg beyond]
            refine ⟨nofun, fun t ran => ?_⟩
            cases ran
            exact ⟨new, held, unfinished, chain, first, (if_pos alone).symm, rfl, rfl,
              congrArg (Function.update s.call p) (if_neg (Bool.eq_false_iff.mp unfinished))⟩
        · rw [if_neg (mt first.mp alone)]
          refine ⟨nofun, fun t ran => ?_⟩
          cases ran
          exact ⟨new, held, unfinished, chain, first, (if_neg alone).symm, rfl, rfl,
            congrArg (Function.update s.call p) (if_neg (Bool.eq_false_iff.mp unfinished))⟩

omit [DecidableEq P] in
theorem IdeState.request_congr {b : Fin nbuf} (same : t.buf b = s.buf b) :
    t.request b = s.request b := by
  unfold IdeState.request
  rw [same]

omit [DecidableEq P] in
theorem IdeState.finished_congr {b : Fin nbuf} (same : t.buf b = s.buf b) :
    t.finished b = s.finished b := by
  unfold IdeState.finished
  rw [same]

omit [DecidableEq P] in
theorem IdeState.Transferred.congr {b : Fin nbuf} {data : Option Block}
    (before : s.Transferred b data) (same : t.buf b = s.buf b) (disk : t.disk = s.disk) :
    t.Transferred b data := by
  unfold IdeState.Transferred at before ⊢
  rw [IdeState.request_congr same, disk]
  exact before

theorem IdeInv.requested (inv : IdeInv s q) {p : P} {b : Fin nbuf} (idle : s.call p = none)
    (requested : Requested s q p b t) : IdeInv t (q ++ [b]) := by
  obtain ⟨new, held, unfinished, chain, _, device, disk, buf, call⟩ := requested
  have same (c : Fin nbuf) : t.buf c = s.buf c := congrFun buf c
  have calls (r : P) (c : Fin nbuf) (asleep : Bool) (there : t.call r = some (c, asleep)) :
      r = p ∧ c = b ∧ asleep = true ∨ s.call r = some (c, asleep) := by
    rw [call] at there
    by_cases self : r = p
    · rw [self, Function.update_self] at there
      cases there
      exact .inl ⟨self, rfl, rfl⟩
    · rw [Function.update_of_ne self] at there
      exact .inr there
  refine ⟨chain, ?_, fun r c asleep there => ?_, fun r c there => ?_, fun r c there => ?_,
    fun c member => ?_, fun none => ?_, fun c rest whole => ?_⟩
  · refine List.nodup_append.mpr ⟨inv.nodup, List.nodup_singleton b, fun x left y right same => ?_⟩
    rw [List.mem_singleton.mp right] at same
    exact new (same ▸ left)
  · rw [same]
    rcases calls r c asleep there with ⟨rfl, rfl, _⟩ | before
    · exact held
    · exact inv.holder r c asleep before
  · rcases calls r c true there with ⟨_, rfl, _⟩ | before
    · exact List.mem_append_right _ (List.mem_singleton_self c)
    · exact List.mem_append_left _ (inv.asleep r c before)
  · rcases calls r c false there with ⟨_, _, wrong⟩ | before
    · cases wrong
    · obtain ⟨outside, finished⟩ := inv.awake r c before
      rw [IdeState.finished_congr (same c)]
      refine ⟨fun member => ?_, finished⟩
      rcases List.mem_append.mp member with inside | last
      · exact outside inside
      · rw [List.mem_singleton.mp last, unfinished] at finished
        cases finished
  · rw [IdeState.finished_congr (same c), call]
    rcases List.mem_append.mp member with inside | last
    · obtain ⟨unfinished, r, before⟩ := inv.queued c inside
      have other : r ≠ p := fun self => by
        rw [self, idle] at before
        cases before
      exact ⟨unfinished, r, by rw [Function.update_of_ne other]; exact before⟩
    · rw [List.mem_singleton.mp last]
      exact ⟨unfinished, p, Function.update_self ..⟩
  · exact absurd none (List.append_ne_nil_of_right_ne_nil _ (List.cons_ne_nil _ _))
  · rw [device]
    cases q with
    | nil =>
      cases whole
      exact .inl (by rw [if_pos rfl, IdeState.request_congr (same b)])
    | cons head others =>
      cases whole
      rw [if_neg nofun, IdeState.request_congr (same c)]
      refine (inv.active c others rfl).imp_right fun ⟨data, done, there⟩ => ?_
      exact ⟨data, done, there.congr (same c) disk⟩

/-! ## Transfers and interrupts -/

omit [DecidableEq P] in
theorem IdeInv.transfer (inv : IdeInv s q) {request : DiskRequest}
    (busy : s.device = .busy request) :
    ∃ b rest, q = b :: rest ∧ request = s.request b ∧ IdeInv (s.transfer request) q := by
  cases q with
  | nil => cases (inv.ready rfl).symm.trans busy
  | cons b rest =>
    rcases inv.active b rest rfl with here | ⟨data, done, _⟩
    · cases here.symm.trans busy
      refine ⟨b, rest, rfl, rfl, ?_⟩
      obtain ⟨chain, nodup, holder, asleep, awake, queued, _, _⟩ := inv
      unfold IdeState.transfer
      split
      · next data write =>
        refine ⟨chain, nodup, holder, asleep, awake, queued, nofun, fun c others whole => .inr ?_⟩
        cases whole
        refine ⟨none, rfl, .write write ?_⟩
        change Function.update s.disk (s.request b).drive _ (s.request b).drive (s.request b).sector = _
        rw [Function.update_self, Function.update_self]
      · next read =>
        refine ⟨chain, nodup, holder, asleep, awake, queued, nofun, fun c others whole => .inr ?_⟩
        cases whole
        exact ⟨_, rfl, .read read⟩
    · cases done.symm.trans busy

omit [DecidableEq P] in
/-- `ideintr` up to `wakeup`, for a transfer that is done. -/
theorem IdeInv.complete (inv : IdeInv s q) {data : Option Block} (done : s.device = .done data) :
    ∃ b rest, q = b :: rest ∧ s.idequeue = some b ∧ s.Transferred b data ∧
      (rest = [] → IdeInv (s.complete b) rest) ∧
      ∀ c others, rest = c :: others →
        IdeInv { s.complete b with device := .busy ((s.complete b).request c) } rest := by
  cases q with
  | nil => cases (inv.ready rfl).symm.trans done
  | cons b rest =>
    have there : s.Transferred b data := by
      rcases inv.active b rest rfl with busy | ⟨data', done', there⟩
      · cases busy.symm.trans done
      · cases done'.symm.trans done
        exact there
    obtain ⟨head, chain⟩ := inv.chain
    obtain ⟨outside, nodup⟩ := List.nodup_cons.mp inv.nodup
    have other (c : Fin nbuf) (apart : c ≠ b) : (s.complete b).buf c = s.buf c :=
      Function.update_of_ne apart ..
    have here : (s.complete b).finished b = true := by
      simp [IdeState.finished, IdeState.complete]
    have holder (p : P) (c : Fin nbuf) (asleep : Bool)
        (call : (s.complete b).call p = some (c, asleep)) :
        ((s.complete b).buf c).holder = some p ∧
          (c = b ∧ asleep = false ∨ c ≠ b ∧ s.call p = some (c, asleep)) := by
      obtain ⟨⟨d, before⟩, was, is⟩ := Option.map_eq_some_iff.mp call
      by_cases same : d = b
      · rw [if_pos same] at is
        cases is
        have held := inv.holder p d before was
        rw [same] at held
        refine ⟨?_, .inl ⟨rfl, rfl⟩⟩
        unfold IdeState.complete
        dsimp only
        rw [Function.update_self]
        exact held
      · rw [if_neg same] at is
        cases is
        rw [other c same]
        exact ⟨inv.holder p c asleep was, .inr ⟨same, was⟩⟩
    have rest_of (c : Fin nbuf) (apart : c ≠ b) (member : c ∈ b :: rest) : c ∈ rest :=
      (List.mem_cons.mp member).resolve_left apart
    have asleep (p : P) (c : Fin nbuf) (call : (s.complete b).call p = some (c, true)) :
        c ∈ rest := by
      rcases (holder p c true call).2 with ⟨_, wrong⟩ | ⟨apart, before⟩
      · cases wrong
      · exact rest_of c apart (inv.asleep p c before)
    have awake (p : P) (c : Fin nbuf) (call : (s.complete b).call p = some (c, false)) :
        c ∉ rest ∧ (s.complete b).finished c = true := by
      rcases (holder p c false call).2 with ⟨same, _⟩ | ⟨apart, before⟩
      · rw [same]
        exact ⟨outside, here⟩
      · obtain ⟨absent, finished⟩ := inv.awake p c before
        rw [IdeState.finished_congr (other c apart)]
        exact ⟨fun member => absent (List.mem_cons_of_mem _ member), finished⟩
    have queued (c : Fin nbuf) (member : c ∈ rest) :
        (s.complete b).finished c = false ∧ ∃ p, (s.complete b).call p = some (c, true) := by
      have apart : c ≠ b := fun same => outside (same ▸ member)
      obtain ⟨unfinished, p, call⟩ := inv.queued c (List.mem_cons_of_mem _ member)
      rw [IdeState.finished_congr (other c apart)]
      refine ⟨unfinished, p, ?_⟩
      unfold IdeState.complete
      dsimp only
      rw [call, Option.map_some, if_neg apart]
    refine ⟨b, rest, rfl, head, there, fun none => ?_, fun c others whole => ?_⟩
    · refine ⟨chain, nodup, fun p c asleep call => (holder p c asleep call).1, asleep, awake, queued,
        fun _ => rfl, fun c others whole => ?_⟩
      rw [none] at whole
      cases whole
    · refine ⟨chain, nodup, fun p c asleep call => (holder p c asleep call).1, asleep, awake, queued,
        fun none => ?_, fun d others' whole' => ?_⟩
      · rw [none] at whole
        cases whole
      · rw [whole] at whole'
        cases whole'
        exact .inl rfl

omit [DecidableEq P] in
/-- An interrupt takes the first buffer from the queue and starts the second. -/
theorem IdeInv.ideintr (inv : IdeInv s q) {data : Option Block} (done : s.device = .done data) :
    (∀ reason, s.ideintr = .error reason → reason = .incorrectBlockno) ∧
      ∀ t, s.ideintr = .ok t → ∃ b rest, q = b :: rest ∧ s.idequeue = some b ∧
        t.idequeue = rest.head? ∧ s.Transferred b data ∧ t.disk = s.disk ∧
        t.buf = (s.complete b).buf ∧ IdeInv t rest := by
  obtain ⟨b, rest, whole, head, there, last, more⟩ := inv.complete done
  unfold IdeState.ideintr
  rw [head]
  dsimp only
  have next : (s.complete b).idequeue = rest.head? := by
    have chain := inv.chain
    rw [whole] at chain
    cases rest with
    | nil => exact chain.2
    | cons c others => exact chain.2.1
  rw [next]
  cases rest with
  | nil =>
    refine ⟨nofun, fun t ran => ?_⟩
    cases ran
    exact ⟨b, [], whole, rfl, next, there, rfl, rfl, last rfl⟩
  | cons c others =>
    change (∀ reason, (s.complete b).idestart c = _ → _) ∧ ∀ t, (s.complete b).idestart c = _ → _
    unfold IdeState.idestart
    split
    · refine ⟨fun reason failed => ?_, nofun⟩
      cases failed
      rfl
    · change (∀ reason, Except.ok _ = _ → _) ∧ ∀ t, Except.ok _ = _ → _
      refine ⟨nofun, fun t ran => ?_⟩
      cases ran
      exact ⟨b, c :: others, whole, rfl, next, there, rfl, rfl, more c others rfl⟩

/-! ## Waking up, and the rest of the kernel -/

/-- A process that is woken finds its buffer completed. -/
theorem IdeInv.wakes (inv : IdeInv s q) {p : P} {b : Fin nbuf} (awake : s.call p = some (b, false)) :
    b ∉ q ∧ s.finished b = true ∧ IdeInv (s.await p b) q := by
  obtain ⟨absent, finished⟩ := inv.awake p b awake
  have calls (r : P) (c : Fin nbuf) (asleep : Bool)
      (there : (s.await p b).call r = some (c, asleep)) : s.call r = some (c, asleep) := by
    unfold IdeState.await at there
    dsimp only at there
    rw [if_pos finished] at there
    by_cases self : r = p
    · rw [self, Function.update_self] at there
      cases there
    · rw [Function.update_of_ne self] at there
      exact there
  refine ⟨absent, finished, inv.chain, inv.nodup,
    fun r c asleep there => inv.holder r c asleep (calls r c asleep there),
    fun r c there => inv.asleep r c (calls r c true there),
    fun r c there => inv.awake r c (calls r c false there), fun c member => ?_, inv.ready,
    inv.active⟩
  obtain ⟨unfinished, r, there⟩ := inv.queued c member
  have other : r ≠ p := fun self => by
    rw [self, awake] at there
    cases there
  refine ⟨unfinished, r, ?_⟩
  unfold IdeState.await
  dsimp only
  rw [Function.update_of_ne other]
  exact there

omit [DecidableEq P] in
theorem IdeInv.modify (inv : IdeInv s q) {b : Fin nbuf} {new : Buf P}
    (free : ∀ p asleep, s.call p ≠ some (b, asleep)) :
    b ∉ q ∧ IdeInv { s with buf := Function.update s.buf b new } q := by
  have absent : b ∉ q := inv.not_queued fun p => free p true
  have other {c : Fin nbuf} (apart : c ≠ b) : Function.update s.buf b new c = s.buf c :=
    Function.update_of_ne apart ..
  have apart {p : P} {c : Fin nbuf} {asleep : Bool} (call : s.call p = some (c, asleep)) : c ≠ b :=
    fun same => free p asleep (same ▸ call)
  have queued {c : Fin nbuf} (member : c ∈ q) : c ≠ b := fun same => absent (same ▸ member)
  refine ⟨absent, inv.chain, inv.nodup, fun p c asleep call => ?_, inv.asleep,
    fun p c call => ?_, fun c member => ?_, inv.ready, fun c rest whole => ?_⟩
  · change (Function.update s.buf b new c).holder = _
    rw [other (apart call)]
    exact inv.holder p c asleep call
  · rw [IdeState.finished_congr (other (apart call))]
    exact inv.awake p c call
  · rw [IdeState.finished_congr (other (queued member))]
    exact inv.queued c member
  · have same := other (queued (whole ▸ List.mem_cons_self))
    rw [IdeState.request_congr same]
    refine (inv.active c rest whole).imp_right fun ⟨data, done, there⟩ => ?_
    exact ⟨data, done, there.congr same rfl⟩

end Driver

end SlabStudy.Xv6
