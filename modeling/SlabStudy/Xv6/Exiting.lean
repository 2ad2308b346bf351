import SlabStudy.Xv6.Forking

/-!
# exit keeps the invariant

The critical section of `exit` wakes the parent, passes the children to init
and wakes init when one of them is a zombie.  A parent asleep in `wait` is
woken in both cases, since it sleeps on its own address.
-/

namespace SlabStudy.Xv6

open Library

variable {ld : Linkage} {s s' : Kernel} {c : Fin ncpu} {p : Slot}

/-! ## The loop over the children -/

/-- The listed children have a new parent, and sleepers may have been woken. -/
structure Reparented (p : Slot) (initproc : Option Slot) (slots : List Slot)
    (old new : Slot → Proc) : Prop where
  fields : ∀ q, ∃ state, new q =
    { old q with
      parent := if q ∈ slots ∧ (old q).parent = some p then initproc else (old q).parent
      state := state } ∧
    (state = (old q).state ∨ ((old q).state = .sleeping ∧ state = .runnable))
  woken : (∃ z ∈ slots, (old z).parent = some p ∧ (old z).state = .zombie) →
    ∀ q, (old q).state = .sleeping → (old q).chan = initproc.map .proc →
      (new q).state = .runnable

theorem wakeup1_fields (chan : Option Chan) (table : Slot → Proc) (q : Slot) :
    ∃ state, wakeup1 chan table q = { table q with state := state } ∧
      (state = (table q).state ∨ ((table q).state = .sleeping ∧ state = .runnable)) := by
  unfold wakeup1
  split
  · next asleep => exact ⟨.runnable, rfl, .inr ⟨asleep.1, rfl⟩⟩
  · exact ⟨(table q).state, rfl, .inl rfl⟩

theorem wakeup1_woken {chan : Option Chan} {table : Slot → Proc} {q : Slot}
    (asleep : (table q).state = .sleeping) (waits : (table q).chan = chan) :
    (wakeup1 chan table q).state = .runnable := by
  simp [wakeup1, asleep, waits]

/-- One visited slot: the parent is replaced, and a zombie wakes init. -/
theorem Reparented.cons {initproc : Option Slot} {r : Slot} {rest : List Slot}
    {table new : Slot → Proc} (fresh : r ∉ rest) (child : (table r).parent = some p)
    (later : Reparented p initproc rest
      (if (table r).state = .zombie then
        wakeup1 (initproc.map .proc)
          (Function.update table r { table r with parent := initproc })
      else Function.update table r { table r with parent := initproc }) new) :
    Reparented p initproc (r :: rest) table new := by
  generalize middle : (if (table r).state = .zombie then
      wakeup1 (initproc.map .proc) (Function.update table r { table r with parent := initproc })
    else Function.update table r { table r with parent := initproc }) = between at later
  have visited : ∀ q, ∃ state, between q =
      { table q with
        parent := if q = r then initproc else (table q).parent
        state := state } ∧
      (state = (table q).state ∨ ((table q).state = .sleeping ∧ state = .runnable)) := by
    intro q
    have updated : Function.update table r { table r with parent := initproc } q =
        { table q with parent := if q = r then initproc else (table q).parent } := by
      by_cases here : q = r
      · subst here
        simp
      · simp [here]
    rw [← middle]
    split
    · obtain ⟨state, woken, kept⟩ := wakeup1_fields (initproc.map .proc)
        (Function.update table r { table r with parent := initproc }) q
      rw [updated] at woken kept
      exact ⟨state, woken, kept⟩
    · exact ⟨(table q).state, updated, .inl rfl⟩
  refine ⟨fun q => ?_, fun zombie q asleep waits => ?_⟩
  · obtain ⟨state, first, kept⟩ := visited q
    obtain ⟨final, second, settled⟩ := later.fields q
    refine ⟨final, ?_, ?_⟩
    · rw [second, first]
      by_cases here : q = r
      · subst here
        simp [fresh, child]
      · simp [here]
    · rw [first] at settled
      rcases kept with same | ⟨asleep, woken⟩
      · rw [same] at settled
        exact settled
      · rcases settled with same | ⟨stillAsleep, _⟩
        · exact .inr ⟨asleep, same.trans woken⟩
        · rw [woken] at stillAsleep
          cases stillAsleep
  · -- either this slot is the zombie that wakes init, or a later one is
    by_cases here : (table r).state = .zombie
    · obtain ⟨final, second, settled⟩ := later.fields q
      have woken : (between q).state = .runnable := by
        rw [← middle, if_pos here]
        by_cases self : q = r
        · subst self
          rw [here] at asleep
          cases asleep
        · apply wakeup1_woken
          · rw [Function.update_of_ne self]
            exact asleep
          · rw [Function.update_of_ne self]
            exact waits
      rw [second]
      rcases settled with same | ⟨stillAsleep, _⟩
      · exact same.trans woken
      · rw [woken] at stillAsleep
        cases stillAsleep
    · rw [if_neg here] at middle
      obtain ⟨z, member, isChild, isZombie⟩ := zombie
      have other : z ≠ r := by
        rintro rfl
        exact here isZombie
      have inRest : z ∈ rest := (List.mem_cons.mp member).resolve_left other
      refine later.woken ⟨z, inRest, ?_, ?_⟩ q ?_ ?_
      · rw [← middle, Function.update_of_ne other]
        exact isChild
      · rw [← middle, Function.update_of_ne other]
        exact isZombie
      · rw [← middle]
        by_cases self : q = r
        · subst self
          simpa using asleep
        · rw [Function.update_of_ne self]
          exact asleep
      · rw [← middle]
        by_cases self : q = r
        · subst self
          simpa using waits
        · rw [Function.update_of_ne self]
          exact waits

/-- The loop of `exit` visits every slot once. -/
theorem reparent_reparented (initproc : Option Slot) {slots : List Slot} (nodup : slots.Nodup)
    (table : Slot → Proc) :
    Reparented p initproc slots table (reparent p initproc slots table) := by
  induction slots generalizing table with
  | nil =>
      refine ⟨fun q => ⟨(table q).state, ?_, .inl rfl⟩, ?_⟩
      · simp [reparent]
      · rintro ⟨z, member, _⟩
        cases member
  | cons r rest ih =>
      rw [List.nodup_cons] at nodup
      unfold reparent
      split
      · next child =>
          have shown : (Function.update table r { table r with parent := initproc } r).state =
              (table r).state := by simp
          simp only [shown]
          exact Reparented.cons nodup.1 child (ih nodup.2 _)
      · next other =>
          have later := ih nodup.2 table
          refine ⟨fun q => ?_, fun zombie => later.woken ?_⟩
          · obtain ⟨state, result, kept⟩ := later.fields q
            refine ⟨state, ?_, kept⟩
            rw [result]
            by_cases here : q = r
            · subst here
              simp [other]
            · simp [here]
          · obtain ⟨z, member, isChild, isZombie⟩ := zombie
            refine ⟨z, (List.mem_cons.mp member).resolve_left ?_, isChild, isZombie⟩
            rintro rfl
            exact other isChild

/-! ## The whole critical section -/

/-- What `exit` of process `p` on CPU `c` has done. -/
structure Exited (s t : Kernel) (c : Fin ncpu) (p : Slot) (status : Int) : Prop where
  notInit : s.initproc ≠ some p
  self : t.proc p = { s.proc p with
    ofile := fun _ => none
    cwd := none
    state := .zombie
    exitStatus := status
    parent := if (s.proc p).parent = some p then s.initproc else (s.proc p).parent }
  others : ∀ q, q ≠ p → ∃ state, t.proc q = { s.proc q with
      parent := if (s.proc q).parent = some p then s.initproc else (s.proc q).parent
      state := state } ∧
    (state = (s.proc q).state ∨ ((s.proc q).state = .sleeping ∧ state = .runnable))
  wakesParent : ∀ q, q ≠ p → (s.proc q).state = .sleeping →
    (s.proc q).chan = (s.proc p).parent.map .proc → (t.proc q).state = .runnable
  wakesInit : (∃ z, z ≠ p ∧ (s.proc z).parent = some p ∧ (s.proc z).state = .zombie) →
    ∀ q, q ≠ p → (s.proc q).state = .sleeping → (s.proc q).chan = s.initproc.map .proc →
      (t.proc q).state = .runnable
  cpu : t.cpu = Function.update s.cpu c ⟨none, nextSlot (s.cpu c).cur⟩
  thread : t.thread = s.thread
  kmem : t.kmem = s.kmem
  initproc : t.initproc = s.initproc
  nextpid : t.nextpid = s.nextpid

theorem exit_exited {status : Int} (ran : exit s c p status = .ok s') :
    Exited s s' c p status := by
  unfold exit at ran
  split at ran
  · cases ran
  · next notInit =>
      cases ran
      -- the three tables: files closed, parent woken, children passed on
      generalize closed : (s.modify p fun pr =>
        { pr with ofile := fun _ => none, cwd := none }).proc = first
      have firstSelf : first p = { s.proc p with ofile := fun _ => none, cwd := none } := by
        rw [← closed, Kernel.modify_self]
      have firstOther : ∀ q, q ≠ p → first q = s.proc q := by
        intro q apart
        rw [← closed, Kernel.modify_of_ne _ _ _ apart]
      have parentSame : (first p).parent = (s.proc p).parent := by rw [firstSelf]
      generalize woken : wakeup1 ((first p).parent.map .proc) first = second
      have loop := reparent_reparented (p := p) s.initproc (List.nodup_finRange nproc) second
      have every : ∀ q : Slot, q ∈ List.finRange nproc := List.mem_finRange
      generalize passed : reparent p s.initproc (List.finRange nproc) second = third at loop
      have result : exitTable p s.initproc status first =
          Function.update third p { third p with state := .zombie, exitStatus := status } := by
        rw [← passed, ← woken]
        rfl
      have secondFields := wakeup1_fields ((first p).parent.map .proc) first
      rw [woken] at secondFields
      refine ⟨notInit, ?_, fun q apart => ?_, fun q apart asleep waits => ?_,
        fun zombie q apart asleep waits => ?_, rfl, rfl, rfl, rfl, rfl⟩
      · change exitTable p s.initproc status first p = _
        obtain ⟨state, atSecond, _⟩ := secondFields p
        obtain ⟨final, atThird, _⟩ := loop.fields p
        rw [result, Function.update_self, atThird, atSecond, firstSelf]
        simp [every]
      · change ∃ state, exitTable p s.initproc status first q = _ ∧ _
        obtain ⟨state, atSecond, kept⟩ := secondFields q
        obtain ⟨final, atThird, settled⟩ := loop.fields q
        rw [atSecond] at settled
        rw [firstOther q apart] at kept
        refine ⟨final, ?_, ?_⟩
        · rw [result, Function.update_of_ne apart, atThird, atSecond, firstOther q apart]
          simp [every]
        · rcases kept with same | ⟨asleep, runs⟩
          · rw [same] at settled
            exact settled
          · rcases settled with same | ⟨stillAsleep, _⟩
            · exact .inr ⟨asleep, same.trans runs⟩
            · rw [runs] at stillAsleep
              cases stillAsleep
      · change (exitTable p s.initproc status first q).state = _
        have runs : (second q).state = .runnable := by
          rw [← woken]
          apply wakeup1_woken
          · rw [firstOther q apart]
            exact asleep
          · rw [firstOther q apart, parentSame]
            exact waits
        obtain ⟨final, atThird, settled⟩ := loop.fields q
        rw [result, Function.update_of_ne apart, atThird]
        rcases settled with same | ⟨stillAsleep, _⟩
        · exact same.trans runs
        · rw [runs] at stillAsleep
          cases stillAsleep
      · change (exitTable p s.initproc status first q).state = _
        rw [result, Function.update_of_ne apart]
        obtain ⟨state, atSecond, kept⟩ := secondFields q
        obtain ⟨final, atThird, settled⟩ := loop.fields q
        rw [firstOther q apart] at atSecond kept
        rcases kept with same | ⟨_, runs⟩
        · obtain ⟨z, other, isChild, isZombie⟩ := zombie
          obtain ⟨zState, zSecond, zKept⟩ := secondFields z
          rw [firstOther z other] at zSecond zKept
          refine loop.woken ⟨z, every z, ?_, ?_⟩ q ?_ ?_
          · rw [zSecond]
            exact isChild
          · rw [zSecond]
            rcases zKept with zSame | ⟨zAsleep, _⟩
            · exact zSame.trans isZombie
            · rw [isZombie] at zAsleep
              cases zAsleep
          · rw [atSecond]
            exact same.trans asleep
          · rw [atSecond]
            exact waits
        · rw [atThird]
          rw [atSecond] at settled
          rcases settled with same | ⟨stillAsleep, _⟩
          · exact same.trans runs
          · rw [runs] at stillAsleep
            cases stillAsleep

/-- A process that is passed on has a parent, so no vacant slot is touched. -/
theorem StateOk.reparented {self : Slot} {pr : Proc} {thread : Thread} {initproc : Option Slot}
    (ok : StateOk self pr thread) :
    StateOk self { pr with parent := if pr.parent = some p then initproc else pr.parent }
      thread := by
  have vacant : Vacant pr →
      Vacant { pr with parent := if pr.parent = some p then initproc else pr.parent } := by
    intro vacant
    have none : pr.parent ≠ some p := by
      rw [vacant.parent]
      exact (Option.some_ne_none p).symm
    exact ⟨vacant.kstack, by rw [if_neg none]; exact vacant.parent, vacant.chan, vacant.ofile⟩
  exact ok.congr rfl rfl rfl (fun _ => rfl) vacant
    fun equipped => ⟨equipped.kstack, equipped.pgdir⟩

/-- Entry `q` with init as its parent, if its parent is `p`. -/
def adopted (s : Kernel) (p q : Slot) : Proc :=
  { s.proc q with
    parent := if (s.proc q).parent = some p then s.initproc else (s.proc q).parent }

/-- The other processes may be passed to init and may be woken up. -/
theorem Exited.nudged {t : Kernel} {status : Int} {q : Slot} (exits : Exited s t c p status)
    (bounded : Bounded (s.proc q)) (apart : q ≠ p) : Nudged (adopted s p q) (t.proc q) := by
  obtain ⟨state, result, kept⟩ := exits.others q apart
  rw [result]
  refine ⟨rfl, rfl, rfl, rfl, rfl, rfl, rfl,
    ⟨bounded.low, bounded.high, bounded.size, bounded.stack⟩, ?_⟩
  rcases kept with same | woken
  · exact .inl ⟨same, fun _ => rfl⟩
  · exact .inr woken

/-- A process that exits keeps its pages until it is reaped. -/
theorem Exited.pages {t : Kernel} {status : Int} (exits : Exited s t c p status) :
    t.pages = s.pages := by
  refine Kernel.pages_congr (by rw [exits.kmem]) fun q => ?_
  by_cases here : q = p
  · subst here
    rw [exits.self]
    exact Proc.pages_congr rfl rfl
  · obtain ⟨_, result, _⟩ := exits.others q here
    rw [result]
    exact Proc.pages_congr rfl rfl

theorem Inv.exited {t : Kernel} {status : Int} (inv : Inv ld s) (free : Free s c p)
    (exits : Exited s t c p status) : Inv ld t := by
  have running := inv.running free.running
  obtain ⟨equipped, chan⟩ := (inv.states p).running running
  have proper := inv.init.proper p
  have zombie : (t.proc p).state = .zombie := by rw [exits.self]
  have parentSame : (t.proc p).parent = (s.proc p).parent := by
    rw [exits.self]
    exact if_neg proper
  have nudged : ∀ q, q ≠ p → Nudged (adopted s p q) (t.proc q) :=
    fun q apart => exits.nudged (inv.bounded q) apart
  have sleeper : ∀ {q}, SleepsIn t q .wait → q ≠ p ∧ SleepsIn s q .wait ∧
      (t.proc q).state ≠ .runnable := by
    intro q asleep
    have apart : q ≠ p := by
      rintro rfl
      rw [SleepsIn, zombie] at asleep
      cases asleep.1
    rw [SleepsIn, exits.thread] at asleep
    refine ⟨apart, ⟨?_, asleep.2⟩, ?_⟩
    · rcases (nudged q apart).state with ⟨same, _⟩ | ⟨_, runs⟩
      · exact same.symm.trans asleep.1
      · rw [runs] at asleep
        cases asleep.1
    · rw [asleep.1]
      exact ProcState.noConfusion
  have ownChannel : ∀ {q}, SleepsIn s q .wait → (s.proc q).chan = some (.proc q) := by
    intro q asleep
    obtain ⟨_, _, _, _, waiting⟩ := (inv.states q).sleeping asleep.1
    exact (waiting asleep.2).1
  have parentOf : ∀ {q}, q ≠ p → (t.proc q).parent =
      if (s.proc q).parent = some p then s.initproc else (s.proc q).parent := by
    intro q apart
    exact (nudged q apart).parent
  refine ⟨fun q => ?_, fun q => ?_, ?_, ?_, ⟨fun {q} asleep => ?_, fun {q r} asleep child => ?_⟩,
    ⟨fun {i} first => ?_, fun {i} first => ?_, fun q self => ?_⟩, ?_⟩
  · by_cases here : q = p
    · subst here
      have bounded := inv.bounded q
      rw [exits.self]
      exact ⟨bounded.low, bounded.high, bounded.size, bounded.stack⟩
    · exact (nudged q here).bounded
  · rw [exits.thread]
    by_cases here : q = p
    · subst here
      unfold StateOk
      rw [zombie, exits.self]
      exact ⟨⟨equipped.kstack, equipped.pgdir⟩, chan, rfl, free.idle⟩
    · exact (nudged q here).stateOk (inv.states q).reparented
  · refine inv.cpus.leave free.running exits.cpu ?_ fun q apart => ?_
    · rw [zombie]
      exact ProcState.noConfusion
    · exact (nudged q apart).state_iff (by decide) (by decide)
  · refine inv.forks.keep (fun q => by rw [exits.thread]) fun np embryo => ?_
    have apart : np ≠ p := by
      rintro rfl
      rw [running] at embryo
      cases embryo
    refine ⟨((nudged np apart).state_iff (by decide) (by decide)).mpr embryo, fun vacant => ?_,
      fun complete => (nudged np apart).equipped ⟨complete.kstack, complete.pgdir⟩,
      fun q busy parent => ?_⟩
    · have other : (s.proc np).parent ≠ some p := by
        rw [vacant.parent]
        exact (Option.some_ne_none p).symm
      exact (nudged np apart).vacant
        ⟨vacant.kstack, by rw [adopted, if_neg other]; exact vacant.parent, vacant.chan, vacant.ofile⟩
    · -- the parent of an embryo is in the middle of `fork` and does not exit
      have other : (s.proc np).parent ≠ some p := by
        intro same
        rw [parent] at same
        cases same
        exact busy free.idle
      rw [parentOf apart, if_neg other]
      exact parent
  · obtain ⟨apart, before, notRunnable⟩ := sleeper asleep
    obtain ⟨r, child⟩ := inv.waits.child before
    have alive : r ≠ p := by
      rintro rfl
      refine notRunnable (exits.wakesParent q apart before.1 ?_)
      rw [child]
      exact ownChannel before
    have other : (s.proc r).parent ≠ some p := by
      rw [child]
      exact fun same => apart (Option.some.inj same)
    exact ⟨r, by rw [parentOf alive, if_neg other]; exact child⟩
  · obtain ⟨apart, before, notRunnable⟩ := sleeper asleep
    intro exited
    by_cases here : r = p
    · subst here
      rw [parentSame] at child
      refine notRunnable (exits.wakesParent q apart before.1 ?_)
      rw [child]
      exact ownChannel before
    · have wasZombie := ((nudged r here).state_iff (by decide) (by decide)).mp exited
      rw [parentOf here] at child
      split at child
      · next orphan =>
          refine notRunnable (exits.wakesInit ⟨r, here, orphan, wasZombie⟩ q apart before.1 ?_)
          rw [child]
          exact ownChannel before
      · exact inv.waits.alive before child wasZombie
  · rw [exits.initproc] at first
    have apart : i ≠ p := by
      rintro rfl
      exact exits.notInit first
    exact (nudged i apart).alive (inv.init.alive first)
  · rw [exits.initproc] at first
    have apart : i ≠ p := by
      rintro rfl
      exact exits.notInit first
    have root := inv.init.root first
    have other : (s.proc i).parent ≠ some p := by
      rw [root]
      exact (Option.some_ne_none p).symm
    rw [parentOf apart, if_neg other, root]
  · by_cases here : q = p
    · subst here
      rw [parentSame] at self
      exact proper self
    · rw [parentOf here] at self
      split at self
      · next orphan =>
          have root := inv.init.root self
          rw [orphan] at root
          cases root
      · exact inv.init.proper q self
  · exact inv.memory.of_pages exits.pages

end SlabStudy.Xv6
