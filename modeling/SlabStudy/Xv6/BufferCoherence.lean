import SlabStudy.Xv6.BufferCache

/-!
# bread returns what was stored last

The rounds of `commit` write every buffer that they have changed, so the rule
that changed data is stored before the buffer is released holds for all
processes.  With it the invariant of the cache holds along every run.
-/

namespace SlabStudy.Xv6

open Library

section Coherence

variable {P : Type} [DecidableEq P] {s t : BufState P} {label : BufLabel P}

/-! ## The rounds of commit -/

/-- A process in `commit` that has changed a buffer is about to write it. -/
structure TaskInv (s : BufState P) : Prop where
  saves : ∀ p, Saves (s.proc p).task
  pending : ∀ p i, (s.buf i).holder = some p → (s.buf i).changed = true → (s.proc p).pc ≠ none →
    ∃ rest, (s.proc p).task = .bwrite (s.buf i).blockno :: rest

omit [DecidableEq P] in
/-- Before any other call, a process in `commit` has no changed buffer. -/
theorem TaskInv.clean (inv : TaskInv s) {p : P} {i : Fin nbuf} {c : BufCall} {rest : List BufCall}
    (task : (s.proc p).task = c :: rest) (busy : (s.proc p).pc ≠ none)
    (other : ∀ b, c ≠ .bwrite b) (held : (s.buf i).holder = some p) :
    (s.buf i).changed = false := by
  by_contra changed
  obtain ⟨more, here⟩ := inv.pending p i held (Bool.eq_true_of_not_eq_false changed) busy
  rw [task] at here
  exact other _ (List.cons.inj here).1

/-- A step of `p`: the buffers of the others stay with them as they are. -/
theorem TaskInv.step_of (inv : TaskInv s) {p : P}
    (others : ∀ q, q ≠ p → t.proc q = s.proc q)
    (foreign : ∀ q i, q ≠ p → (t.buf i).holder = some q → (s.buf i).holder = some q ∧
      (t.buf i).changed = (s.buf i).changed ∧ (t.buf i).blockno = (s.buf i).blockno)
    (saves : Saves (t.proc p).task)
    (pending : ∀ i, (t.buf i).holder = some p → (t.buf i).changed = true → (t.proc p).pc ≠ none →
      ∃ rest, (t.proc p).task = .bwrite (t.buf i).blockno :: rest) : TaskInv t := by
  refine ⟨fun q => ?_, fun q i held changed busy => ?_⟩
  · by_cases self : q = p
    · rw [self]
      exact saves
    · rw [others q self]
      exact inv.saves q
  · by_cases self : q = p
    · rw [self] at held busy ⊢
      exact pending i held changed busy
    · obtain ⟨before, same, block⟩ := foreign q i self held
      rw [same] at changed
      rw [others q self] at busy ⊢
      rw [block]
      exact inv.pending q i before changed busy

/-- The process that takes a step. -/
def BufLabel.proc : BufLabel P → P
  | .returns p _ _ _ => p
  | .stores p _ _ => p
  | .internal p => p

/-- The buffers of the other processes stay with them as they are. -/
theorem BufMove.foreign [Fintype P] (move : BufMove s t label) (refs : RefInv s) :
    ∀ q i, q ≠ label.proc → (t.buf i).holder = some q → (s.buf i).holder = some q ∧
      (t.buf i).changed = (s.buf i).changed ∧ (t.buf i).blockno = (s.buf i).blockno := by
  intro q j apart
  have keep (buf : t.buf = s.buf) : (t.buf j).holder = some q → (s.buf j).holder = some q ∧
      (t.buf j).changed = (s.buf j).changed ∧ (t.buf j).blockno = (s.buf j).blockno := by
    rw [buf]
    exact fun held => ⟨held, rfl, rfl⟩
  have store {i : Fin nbuf} {b : Buf P} (here : t.buf i = b)
      (others : ∀ j, j ≠ i → t.buf j = s.buf j)
      (same : b.holder = some q → (s.buf i).holder = some q ∧ b.changed = (s.buf i).changed ∧
        b.blockno = (s.buf i).blockno) : (t.buf j).holder = some q → (s.buf j).holder = some q ∧
      (t.buf j).changed = (s.buf j).changed ∧ (t.buf j).blockno = (s.buf j).blockno := by
    by_cases self : j = i
    · rw [self, here]
      exact same
    · rw [others j self]
      exact fun held => ⟨held, rfl, rfl⟩
  cases move with
  | quiet cache disk phase => exact keep (congrArg Bcache.buf cache)
  | cached fills valid cache disk phase => exact keep (congrArg Bcache.buf cache)
  | check running held cache disk phase => exact keep (congrArg Bcache.buf cache)
  | found running hit cache disk phase =>
      obtain ⟨here, others⟩ := buf_of_set cache
      exact store here others fun held => ⟨held, rfl, rfl⟩
  | recycle running unused clean missing cache disk phase =>
      obtain ⟨here, others⟩ := buf_of_set cache
      refine store here others fun held => ?_
      rw [refs.unused unused] at held
      cases held
  | acquire waits free cache disk phase =>
      obtain ⟨here, others⟩ := buf_of_set cache
      refine store here others fun held => ?_
      cases held
      exact absurd rfl apart
  | read fills invalid device cache disk phase =>
      obtain ⟨here, others⟩ := buf_of_set cache
      exact store here others fun held => ⟨held, rfl, rfl⟩
  | change running own cache disk phase =>
      obtain ⟨here, others⟩ := buf_of_set cache
      refine store here others fun held => absurd ?_ apart
      exact Option.some.inj (held.symm.trans own.holder)
  | log logs cache disk phase =>
      obtain ⟨here, others⟩ := buf_of_set cache
      refine store here others fun held => absurd ?_ apart
      exact Option.some.inj (held.symm.trans (refs.logging _ _ logs))
  | write running own cache disk phase =>
      obtain ⟨here, others⟩ := buf_of_set cache
      refine store here others fun held => absurd ?_ apart
      exact Option.some.inj (held.symm.trans own.holder)
  | release running own saved cache disk phase =>
      obtain ⟨here, others⟩ := buf_of_set cache
      exact store here others nofun
  | drop leaves cache disk phase =>
      obtain ⟨here, others⟩ := buf_of_brelse cache
      exact store here others fun held => ⟨held, rfl, rfl⟩

section Own

variable {p : P} (others : ∀ q, q ≠ p → t.proc q = s.proc q)
  (foreign : ∀ q i, q ≠ p → (t.buf i).holder = some q → (s.buf i).holder = some q ∧
    (t.buf i).changed = (s.buf i).changed ∧ (t.buf i).blockno = (s.buf i).blockno)

/-- The buffers of `p` that are changed have been changed before. -/
def OwnBefore (s t : BufState P) (p : P) : Prop :=
  ∀ i, (t.buf i).holder = some p → (t.buf i).changed = true →
    (s.buf i).holder = some p ∧ (s.buf i).changed = true ∧ (t.buf i).blockno = (s.buf i).blockno

omit [DecidableEq P] in
theorem ownBefore_of {i : Fin nbuf} {b : Buf P} (here : t.buf i = b)
    (rest : ∀ j, j ≠ i → t.buf j = s.buf j)
    (same : b.holder = some p → b.changed = true → (s.buf i).holder = some p ∧
      (s.buf i).changed = true ∧ b.blockno = (s.buf i).blockno) : OwnBefore s t p := by
  intro j
  by_cases self : j = i
  · rw [self, here]
    exact same
  · rw [rest j self]
    exact fun held changed => ⟨held, changed, rfl⟩

omit [DecidableEq P] in
theorem ownBefore_same (buf : t.buf = s.buf) : OwnBefore s t p := by
  intro j
  rw [buf]
  exact fun held changed => ⟨held, changed, rfl⟩

include others foreign

/-- A step inside a call. -/
theorem TaskInv.kept (inv : TaskInv s) (task : s.Kept t p) (own : OwnBefore s t p) : TaskInv t := by
  refine inv.step_of others foreign (by rw [task.2]; exact inv.saves p)
    fun i held changed busy => ?_
  obtain ⟨before, dirt, block⟩ := own i held changed
  rw [task.1] at busy
  rw [task.2, block]
  exact inv.pending p i before dirt busy

/-- A call other than `bwrite`. -/
theorem TaskInv.called (inv : TaskInv s) {c : BufCall} (took : s.Took t p c)
    (other : ∀ b, c ≠ .bwrite b)
    (own : ∀ i, (t.buf i).holder = some p → (t.buf i).changed = true →
      (s.buf i).holder = some p ∧ (s.buf i).changed = true ∨
        c.changes = some (t.buf i).blockno) : TaskInv t := by
  have saves := inv.saves p
  refine inv.step_of others foreign ?_ fun i held changed busy => ?_
  · by_cases free : (s.proc p).pc = none
    · rw [took.2.1 free]
      exact saves
    · rw [took.2.2 free] at saves
      exact saves.2
  · rw [took.1] at busy
    rw [took.2.2 busy] at saves
    rcases own i held changed with ⟨before, dirt⟩ | writes
    · rw [inv.clean (took.2.2 busy) busy other before] at dirt
      cases dirt
    · exact saves.1 _ writes

/-- `bwrite`, after which no buffer is changed. -/
theorem TaskInv.wrote {stored : Disk} (inv : TaskInv s) (data : DataInv stored s) {b : Nat}
    {i : Fin nbuf} (took : s.Took t p (.bwrite b)) (held : s.Holds p b i)
    (own : OwnBefore s t p) (clean : (t.buf i).changed = false) : TaskInv t := by
  refine inv.step_of others foreign ?_ fun j there changed busy => ?_
  · have saves := inv.saves p
    by_cases free : (s.proc p).pc = none
    · rw [took.2.1 free]
      exact saves
    · rw [took.2.2 free] at saves
      exact saves.2
  · obtain ⟨before, dirt, _⟩ := own j there changed
    rw [took.1] at busy
    obtain ⟨more, next⟩ := inv.pending p j before dirt busy
    rw [took.2.2 busy] at next
    have block : b = (s.buf j).blockno := BufCall.bwrite.inj (List.cons.inj next).1
    have valid := (data.changed j dirt).2
    have same : j = i := data.unique j i (data.device j valid) held.dev
      (block.symm.trans held.blockno.symm)
    rw [same, clean] at changed
    cases changed

end Own

theorem TaskInv.move [Fintype P] {stored : Disk} (inv : TaskInv s) (refs : RefInv s)
    (data : DataInv stored s) (others : ∀ q, q ≠ label.proc → t.proc q = s.proc q)
    (move : BufMove s t label) : TaskInv t := by
  have foreign := move.foreign refs
  have before {p : P} {c : BufCall} (own : OwnBefore s t p) (i : Fin nbuf)
      (held : (t.buf i).holder = some p) (changed : (t.buf i).changed = true) :
      (s.buf i).holder = some p ∧ (s.buf i).changed = true ∨
        c.changes = some (t.buf i).blockno :=
    .inl ⟨(own i held changed).1, (own i held changed).2.1⟩
  cases move with
  | @quiet p cache disk phase task =>
      have own : OwnBefore s t p := ownBefore_same (congrArg Bcache.buf cache)
      rcases task with kept | ⟨idle, saves⟩
      · exact inv.kept others foreign kept own
      · refine inv.step_of others foreign saves fun i held changed busy => ?_
        obtain ⟨mine, dirt, _⟩ := own i held changed
        rcases idle with none | ⟨inside, done⟩
        · exact absurd mine (none i)
        · obtain ⟨_, next⟩ := inv.pending p i mine dirt inside
          rw [done] at next
          cases next
  | found running hit cache disk phase task =>
      obtain ⟨here, rest⟩ := buf_of_set cache
      exact inv.called others foreign task nofun
        (before (ownBefore_of here rest fun held changed => ⟨held, changed, rfl⟩))
  | recycle running unused clean missing cache disk phase task =>
      obtain ⟨here, rest⟩ := buf_of_set cache
      refine inv.called others foreign task nofun (before (ownBefore_of here rest fun held _ => ?_))
      rw [refs.unused unused] at held
      cases held
  | @acquire p dev b i waits free cache disk phase task =>
      obtain ⟨here, rest⟩ := buf_of_set cache
      refine inv.kept others foreign task (ownBefore_of here rest fun _ changed => ?_)
      exact absurd free (data.changed i changed).1
  | cached fills valid cache disk phase task =>
      exact inv.kept others foreign task (ownBefore_same (congrArg Bcache.buf cache))
  | read fills invalid device cache disk phase task =>
      obtain ⟨here, rest⟩ := buf_of_set cache
      exact inv.kept others foreign task
        (ownBefore_of here rest fun held changed => ⟨held, changed, rfl⟩)
  | @change p b i bytes c running held cache disk phase writes task =>
      obtain ⟨here, rest⟩ := buf_of_set cache
      refine inv.called others foreign task ?_ fun j there changed => ?_
      · rintro b rfl
        cases writes
      · by_cases self : j = i
        · right
          rw [writes, self, here]
          exact congrArg some held.blockno.symm
        · left
          rw [rest j self] at there changed
          exact ⟨there, changed⟩
  | check running held cache disk phase task =>
      exact inv.called others foreign task nofun
        (before (ownBefore_same (congrArg Bcache.buf cache)))
  | log logs cache disk phase task =>
      obtain ⟨here, rest⟩ := buf_of_set cache
      exact inv.kept others foreign task (ownBefore_of here rest nofun)
  | write running held cache disk phase task =>
      obtain ⟨here, rest⟩ := buf_of_set cache
      exact inv.wrote others foreign data task held (ownBefore_of here rest nofun) (by rw [here])
  | release running held saved cache disk phase task =>
      obtain ⟨here, rest⟩ := buf_of_set cache
      exact inv.called others foreign task nofun (before (ownBefore_of here rest nofun))
  | drop leaves cache disk phase task =>
      obtain ⟨here, rest⟩ := buf_of_brelse cache
      exact inv.kept others foreign task
        (ownBefore_of here rest fun held changed => ⟨held, changed, rfl⟩)

/-- Nobody has changed a buffer that is being filled. -/
theorem BufMove.filling [Fintype P] {stored : Disk} (move : BufMove s t label) (refs : RefInv s)
    (data : DataInv stored s)
    (fresh : ∀ p dev b i, s.phase p = .filling dev b i → (s.buf i).changed = false) :
    ∀ p dev b i, t.phase p = .filling dev b i → (t.buf i).changed = false := by
  intro q dev c j
  have same (phase : t.phase q = .filling dev c j → s.phase q = .filling dev c j)
      (changed : (t.buf j).changed = (s.buf j).changed) :
      t.phase q = .filling dev c j → (t.buf j).changed = false := by
    intro fills
    rw [changed]
    exact fresh q dev c j (phase fills)
  have moved {p : P} {ph : BufPhase} (phase : t.phase = Function.update s.phase p ph)
      (other : ph ≠ .filling dev c j) : t.phase q = .filling dev c j → s.phase q = .filling dev c j := by
    rw [phase]
    by_cases self : q = p
    · rw [self, Function.update_self]
      exact fun fills => absurd fills other
    · rw [Function.update_of_ne self]
      exact id
  have store {i : Fin nbuf} {b : Buf P} (here : t.buf i = b)
      (rest : ∀ j, j ≠ i → t.buf j = s.buf j) (keeps : b.changed = (s.buf i).changed) :
      (t.buf j).changed = (s.buf j).changed := by
    by_cases self : j = i
    · rw [self, here, keeps]
    · rw [rest j self]
  have clear {i : Fin nbuf} {b : Buf P} (here : t.buf i = b)
      (rest : ∀ j, j ≠ i → t.buf j = s.buf j) (clean : b.changed = false)
      (phase : t.phase q = .filling dev c j → s.phase q = .filling dev c j) :
      t.phase q = .filling dev c j → (t.buf j).changed = false := by
    intro fills
    by_cases self : j = i
    · rw [self, here, clean]
    · rw [rest j self]
      exact fresh q dev c j (phase fills)
  cases move with
  | quiet cache disk phase =>
      exact same (by rw [phase]; exact id) (by rw [BufState.buf, cache]; rfl)
  | found running hit cache disk phase =>
      obtain ⟨here, rest⟩ := buf_of_set cache
      exact same (moved phase (by simp)) (store here rest rfl)
  | recycle running unused clean missing cache disk phase =>
      obtain ⟨here, rest⟩ := buf_of_set cache
      exact same (moved phase (by simp)) (store here rest rfl)
  | @acquire p dev' c' i waits free cache disk phase =>
      obtain ⟨here, rest⟩ := buf_of_set cache
      intro fills
      rw [store here rest rfl]
      by_cases self : q = p
      · rw [phase, self, Function.update_self] at fills
        cases fills
        by_contra changed
        exact (data.changed j (Bool.eq_true_of_not_eq_false changed)).1 free
      · rw [phase, Function.update_of_ne self] at fills
        exact fresh q dev c j fills
  | cached fills valid cache disk phase =>
      exact same (moved phase (by simp)) (by rw [BufState.buf, cache]; rfl)
  | read fills invalid device cache disk phase =>
      obtain ⟨here, rest⟩ := buf_of_set cache
      exact same (moved phase (by simp)) (store here rest rfl)
  | @change p b i bytes call running held cache disk phase =>
      obtain ⟨here, rest⟩ := buf_of_set cache
      intro fills
      rw [phase] at fills
      by_cases self : j = i
      · have holder := refs.filling q dev c j fills
        rw [self, held.holder] at holder
        rw [← Option.some.inj holder, running] at fills
        cases fills
      · rw [rest j self]
        exact fresh q dev c j fills
  | check running held cache disk phase =>
      exact same (moved phase (by simp)) (by rw [BufState.buf, cache]; rfl)
  | log logs cache disk phase =>
      obtain ⟨here, rest⟩ := buf_of_set cache
      exact clear here rest rfl (moved phase (by simp))
  | write running held cache disk phase =>
      obtain ⟨here, rest⟩ := buf_of_set cache
      exact clear here rest rfl (by rw [phase]; exact id)
  | release running held saved cache disk phase =>
      obtain ⟨here, rest⟩ := buf_of_set cache
      exact same (moved phase (by simp)) (store here rest rfl)
  | drop leaves cache disk phase =>
      obtain ⟨here, rest⟩ := buf_of_brelse cache
      exact same (moved phase (by simp)) (store here rest rfl)

/-! ## Runs -/

theorem BufState.iderw_proc {p : P} {i : Fin nbuf} (ran : s.iderw p i = .ok t) :
    t.proc = s.proc := by
  cases dirty : (s.buf i).dirty with
  | false => rw [(iderw_read dirty ran).2]; rfl
  | true => rw [iderw_write dirty ran]; rfl

/-- The other processes stay where they are. -/
theorem BufStep.others (step : BufStep s label t) : ∀ q, q ≠ label.proc → t.proc q = s.proc q := by
  intro q apart
  have calls {p : P} {c : BufCall} {u : BufState P} (call : s.Calls p c u) (apart : q ≠ p) :
      u.proc q = s.proc q := by
    cases call with
    | user running free user => rfl
    | commit running busy task => exact Function.update_of_ne apart _ _
  cases step with
  | bget call got =>
      have same := calls call apart
      exact (Function.update_of_ne apart _ _).trans same
  | acquiresleep waits free => exact Function.update_of_ne apart _ _
  | @bread t' p dev b i fills filled =>
      have same : t'.proc = s.proc := by
        unfold BufState.fill at filled
        split at filled
        · cases filled
          rfl
        · exact BufState.iderw_proc filled
      exact (Function.update_of_ne apart _ _).trans (congrFun same q)
  | modify call held =>
      have same := calls call apart
      exact same
  | copy call held source =>
      have same := calls call apart
      exact same
  | head call held =>
      have same := calls call apart
      exact same
  | logCheck call held room => exact (Function.update_of_ne apart _ _).trans (calls call apart)
  | @logWrite t' p i logs wrote =>
      have same : t'.proc = s.proc := by
        unfold BufState.logWrite at wrote
        dsimp only at wrote
        split at wrote
        · cases wrote
          rfl
        · split at wrote
          · cases wrote
            rfl
          · cases wrote
      exact (Function.update_of_ne apart _ _).trans (congrFun same q)
  | @bwrite t' u p b i call held wrote =>
      have same : u.proc = t'.proc := by
        unfold BufState.bwrite at wrote
        split at wrote
        · cases wrote
        · have same := BufState.iderw_proc wrote
          exact same
      exact (congrFun same q).trans (calls call apart)
  | @release t' u p b i call held saved released =>
      have same : u.proc = t'.proc := by
        unfold BufState.release at released
        split at released
        · cases released
        · cases released
          rfl
      exact (Function.update_of_ne apart _ _).trans ((congrFun same q).trans (calls call apart))
  | brelse leaves => exact Function.update_of_ne apart _ _
  | beginOp running idle free room => rfl
  | endOp running idle free more => rfl
  | endLast running idle free last left => exact Function.update_of_ne apart _ _
  | @commit p pc running busy done =>
      unfold BufState.commitRound
      cases pc with
      | enter => exact Function.update_of_ne apart _ _
      | writeLog tail =>
          dsimp only
          split
          · exact Function.update_of_ne apart _ _
          · exact Function.update_of_ne apart _ _
      | writeHead => exact Function.update_of_ne apart _ _
      | install tail =>
          dsimp only
          split
          · exact Function.update_of_ne apart _ _
          · exact Function.update_of_ne apart _ _
      | clear => exact Function.update_of_ne apart _ _
      | eraseHead => exact Function.update_of_ne apart _ _
      | leave => exact Function.update_of_ne apart _ _

/-- Everything that holds between two steps. -/
structure CacheCoherent [Fintype P] (stored : Disk) (s : BufState P) : Prop where
  listed : s.Listed
  refs : RefInv s
  data : DataInv stored s
  tasks : TaskInv s
  filling : ∀ p dev b i, s.phase p = .filling dev b i → (s.buf i).changed = false
  asked : Asked s

namespace CacheCoherent

variable [Fintype P] {stored : Disk}

omit [DecidableEq P] in
theorem initial (start : s.Initial) : CacheCoherent s.disk s := by
  have phase (p : P) : s.phase p = .running := by rw [BufState.phase, start.proc]
  have buf (i : Fin nbuf) : s.buf i = ⟨false, false, 0, 0, 0, none, .zero, false⟩ := by
    rw [BufState.buf, start.cache]
    rfl
  refine ⟨?_, ⟨fun i => ?_, fun p dev b i fills => ?_, fun p i logs => ?_, fun i p held => ?_⟩,
    ⟨fun i j first => ?_, fun i marked => ?_, fun i valid => ?_, fun i changed => ?_,
      fun i valid => ?_, fun b behind => absurd rfl behind⟩, ⟨fun p => ?_, fun p i held => ?_⟩,
    fun p dev b i fills => ?_, fun p dev b i asks => ?_⟩
  · have empty : (⟨fun _ => none, fun _ => none⟩ : Links (Fin nbuf)).Circular [] :=
      ⟨⟨rfl, rfl⟩, List.nodup_nil⟩
    have circular := empty.foldl_insert (List.nodup_finRange nbuf) fun _ _ => List.not_mem_nil
    rw [List.append_nil] at circular
    refine ⟨(List.finRange nbuf).reverse, List.reverse_perm _, ?_⟩
    rw [start.cache]
    exact circular
  · simp only [buf, phase, refers_running, Finset.sum_const_zero, Nat.zero_add]
    rfl
  · rw [phase] at fills
    cases fills
  · rw [phase] at logs
    cases logs
  · rw [buf] at held
    cases held
  · rw [buf] at first
    cases first
  · rw [buf] at marked
    cases marked
  · rw [buf] at valid
    cases valid
  · rw [buf] at changed
    cases changed
  · rw [buf] at valid
    cases valid
  · rw [start.proc]
    trivial
  · rw [buf] at held
    cases held
  · rw [phase] at fills
    cases fills
  · rw [phase] at asks
    rcases asks with waits | fills
    · cases waits
    · cases fills

theorem step (inv : CacheCoherent stored s) (next : BufStep s label t) :
    CacheCoherent (label.update stored) t := by
  obtain ⟨listed, refs, data, tasks, filling, asked⟩ := inv
  have move := next.move listed data.dirty
  refine ⟨move.listed listed, refs.move move, data.move refs move ?_,
    tasks.move refs data next.others move, move.filling refs data filling, asked.move refs move⟩
  intro p b i held ⟨rest, task⟩ busy
  exact tasks.clean task busy nofun held.holder

/-- `bread` returns what was stored last for the block that it was called for. -/
theorem returns (inv : CacheCoherent stored s) {p : P} {dev b : Nat} {data : Block}
    (next : BufStep s (.returns p dev b data) t) : dev = rootdev ∧ data = stored b := by
  have move := next.move inv.listed inv.data.dirty
  cases move with
  | @cached _ _ _ i fills valid cache disk phase =>
      obtain ⟨rfl, rfl⟩ := inv.asked p dev b i (.inr fills)
      exact ⟨inv.data.device i valid, inv.data.data i valid (inv.filling p _ _ i fills)⟩
  | @read _ _ _ i fills invalid device cache disk phase =>
      obtain ⟨rfl, rfl⟩ := inv.asked p dev b i (.inr fills)
      refine ⟨device, ?_⟩
      by_contra absent
      obtain ⟨j, block, marked⟩ := inv.data.behind _ absent
      have valid := inv.data.dirty j marked
      rw [inv.data.unique j i (inv.data.device j valid) device block, invalid] at valid
      cases valid

end CacheCoherent

omit [DecidableEq P] in
theorem lastStored_snoc (disk : Disk) (labels : List (BufLabel P)) (label : BufLabel P) :
    lastStored disk (labels ++ [label]) = label.update (lastStored disk labels) := by
  have stores : storesOf (labels ++ [label]) = storesOf labels ++ storesOf [label] := by
    induction labels with
    | nil => rfl
    | cons first labels ih =>
        cases first with
        | stores p b data => exact congrArg ((b, data) :: ·) ih
        | returns p dev b data => exact ih
        | internal p => exact ih
  unfold lastStored
  rw [stores, applyWrites_append]
  cases label with
  | stores p b data => rfl
  | returns p dev b data => rfl
  | internal p => rfl

/-- The invariant, and what the calls of `bread` have returned. -/
theorem CacheCoherent.run [Fintype P] {labels : List (BufLabel P)} (start : s.Initial)
    (run : (bufSystem P).Run s labels t) : CacheCoherent (lastStored s.disk labels) t ∧
      ∀ before p dev b data after, labels = before ++ .returns p dev b data :: after →
        dev = rootdev ∧ data = lastStored s.disk before b := by
  refine run.preservesHistory (P := fun labels t => CacheCoherent (lastStored s.disk labels) t ∧
    ∀ before p dev b data after, labels = before ++ .returns p dev b data :: after →
      dev = rootdev ∧ data = lastStored s.disk before b) ?_
    ⟨.initial start, fun before p dev b data after none => ?_⟩
  · rintro labels u label v ⟨inv, returned⟩ next
    refine ⟨?_, fun before p dev b data after split => ?_⟩
    · rw [lastStored_snoc]
      exact inv.step next
    · rcases List.eq_nil_or_concat after with rfl | ⟨rest, last, rfl⟩
      · obtain ⟨rfl, same⟩ := List.append_inj' split rfl
        rw [List.singleton_inj.mp same] at next
        exact inv.returns next
      · rw [List.concat_eq_append, ← List.cons_append, ← List.append_assoc] at split
        exact returned before p dev b data rest (List.append_inj' split rfl).1
  · have long := congrArg List.length none
    rw [List.length_append, List.length_cons] at long
    simp at long

/--
The buffer cache is coherent: in every state a block has at most one buffer,
the list is a circle through all buffers, and data that the disk does not have
is kept in a dirty buffer; and every `bread(dev, b)` that has returned has been
for the one disk and has returned what was stored last for `b`.
-/
theorem buffer_cache_coherent [Fintype P] {labels : List (BufLabel P)} (start : s.Initial)
    (run : (bufSystem P).Run s labels t) :
    (∀ i j, (t.buf i).dev = rootdev → (t.buf j).dev = rootdev →
      (t.buf i).blockno = (t.buf j).blockno → i = j) ∧
    (∃ order : List (Fin nbuf), order.Perm (List.finRange nbuf) ∧ t.cache.links.Circular order) ∧
    (∀ before p dev b data after, labels = before ++ .returns p dev b data :: after →
      dev = rootdev ∧ data = lastStored s.disk before b) ∧
    ∀ b, t.disk b ≠ lastStored s.disk labels b → ∃ i, (t.buf i).dev = rootdev ∧
      (t.buf i).blockno = b ∧ (t.buf i).dirty = true ∧
      ((t.buf i).changed = false → (t.buf i).data = lastStored s.disk labels b) := by
  obtain ⟨inv, returned⟩ := CacheCoherent.run start run
  refine ⟨inv.data.unique, inv.listed, returned, fun b absent => ?_⟩
  obtain ⟨i, block, marked⟩ := inv.data.behind b absent
  have valid := inv.data.dirty i marked
  refine ⟨i, inv.data.device i valid, block, marked, fun unchanged => ?_⟩
  rw [inv.data.data i valid unchanged, block]

end Coherence

/-- Two processes, an empty disk and an empty cache. -/
def emptyCache : BufState Bool :=
  ⟨.binit, fun _ => .zero, 1000, 2, logsize, 0, false, [], fun _ => ⟨.running, [], none⟩⟩

/-- A block that is not empty. -/
def nines : Block := fun _ => 9

/-- The first process reads block 5, fills it and writes it. -/
def fillingLabels : List (BufLabel Bool) :=
  [.internal false, .internal false, .returns false 1 5 .zero, .internal false,
    .stores false 5 nines, .internal false, .internal false]

/-- Two processes read a block, and the second one reads what the first one has written. -/
theorem coherent_after_bread : ∃ t, emptyCache.Initial ∧
    (bufSystem Bool).Run emptyCache
      (fillingLabels ++ [.internal true, .internal true, .returns true 1 5 nines]) t ∧
    (∀ i j, (t.buf i).dev = rootdev → (t.buf j).dev = rootdev →
      (t.buf i).blockno = (t.buf j).blockno → i = j) ∧
    (∃ order : List (Fin nbuf), order.Perm (List.finRange nbuf) ∧ t.cache.links.Circular order) ∧
    nines = lastStored emptyCache.disk (fillingLabels ++ [.internal true, .internal true]) 5 := by
  have start : emptyCache.Initial := ⟨rfl, rfl, rfl, rfl, fun _ => rfl⟩
  have empty : (bufSystem Bool).Run emptyCache [] emptyCache := .nil _
  have got := empty.snoc (@BufStep.bget _ _ _ _ false rootdev 5 _ _ (.user rfl rfl trivial) rfl)
  have locked := got.snoc (BufStep.acquiresleep (p := false) rfl rfl)
  have read := locked.snoc (BufStep.bread (p := false) rfl rfl)
  have filled := read.snoc
    (@BufStep.modify _ _ _ _ false 5 nines 0 (.user rfl rfl trivial) ⟨rfl, rfl, rfl⟩)
  have wrote := filled.snoc (BufStep.bwrite (p := false) (b := 5) (i := 0)
    (.user rfl rfl trivial) ⟨rfl, rfl, rfl⟩ rfl)
  have unlocked := wrote.snoc (BufStep.release (p := false) (b := 5) (i := 0)
    (.user rfl rfl trivial) ⟨rfl, rfl, rfl⟩ (fun _ => rfl) rfl)
  have left := unlocked.snoc (BufStep.brelse (p := false) (i := 0) rfl)
  have again := left.snoc (@BufStep.bget _ _ _ _ true rootdev 5 _ _ (.user rfl rfl trivial) rfl)
  have relocked := again.snoc (BufStep.acquiresleep (p := true) rfl rfl)
  have run := relocked.snoc (BufStep.bread (p := true) rfl rfl)
  obtain ⟨unique, listed, returned, _⟩ := buffer_cache_coherent start run
  exact ⟨_, start, run, unique, listed,
    (returned (fillingLabels ++ [.internal true, .internal true]) true 1 5 nines [] rfl).2⟩

end SlabStudy.Xv6
