import SlabStudy.Xv6.ShellSession

/-!
# What is left when the shell reads the next line

The shell waits for what it does not start in the background: whatever still
runs when it goes on has been put there, or is below such a process.
-/

namespace SlabStudy.Xv6.Shell

open Library

variable {session : List Cmd} {io : Io} {s s' : Procs} {pr : Proc} {x sh : Nat} {fds : Fds}

/-- A process in the background, or with one above it. -/
inductive Behind (s : Procs) : Nat → Prop where
  | background {x : Nat} {pr : Proc} (here : s x = some pr) (tag : pr.tag = .background) :
      Behind s x
  | under {x y : Nat} {pr : Proc} (here : s x = some pr) (parent : pr.parent = some y)
      (above : Behind s y) : Behind s x

/-- A process has got this far in `main`, or has left it. -/
def Idle (pr : Proc) : Prop :=
  (∃ k lines, pr.doing = .shell (mainLoop k lines)) ∧ pr.here.kids = [] ∨
    (∃ k lines, pr.doing = .shell (.act (.wait []) (mainLoop k lines))) ∧
      (∃ kid, pr.here.kids = [kid]) ∨ pr.doing = .zombie

/-- A step that ends the process. -/
def Event.Ends : Event → Prop
  | .abort | .panic | .exit | .leave | .kill => True
  | _ => False

/-- No fork of the shell fails, and nobody is killed. -/
def Event.Orderly : Event → Prop
  | .noFork | .panic | .kill => False
  | _ => True

theorem exited_other {y : Nat} {q : Proc} (away : y ≠ x) (found : exited s x pr y = some q) :
    ∃ q₀, s y = some q₀ ∧ q = if q₀.parent = some x then { q₀ with parent := none } else q₀ := by
  rw [exited, if_neg away] at found
  obtain ⟨q₀, there, same⟩ := Option.map_eq_some_iff.mp found
  exact ⟨q₀, there, same.symm⟩

/-- What a step does to the other processes: they stay, lose their parent, or are new. -/
theorem Step.others {e : Event} {y : Nat} {q : Proc} (step : Step s (x, e) s') (away : y ≠ x)
    (found : s' y = some q) : s y = some q ∨
      (∃ q₀, e.Ends ∧ s y = some q₀ ∧ q₀.parent = some x ∧ q = { q₀ with parent := none }) ∨
      q.parent = some x ∧ 0 < q.depth := by
  have left {pr : Proc} (found : exited s x pr y = some q) : s y = some q ∨
      ∃ q₀, s y = some q₀ ∧ q₀.parent = some x ∧ q = { q₀ with parent := none } := by
    obtain ⟨q₀, there, same⟩ := exited_other away found
    by_cases child : q₀.parent = some x
    · exact .inr ⟨q₀, there, child, same.trans (if_pos child)⟩
    · exact .inl (there.trans (congrArg some (same.trans (if_neg child)).symm))
  cases step with
  | call here doing other does =>
      rw [Function.update_of_ne away] at found
      exact .inl found
  | alone here doing none =>
      rw [Function.update_of_ne away] at found
      exact .inl found
  | exec here doing =>
      rw [Function.update_of_ne away] at found
      exact .inl found
  | work here doing own =>
      rw [Function.update_of_ne away] at found
      exact .inl found
  | init here zombie orphan =>
      rw [Function.update_of_ne away] at found
      exact .inl found
  | @wait _ _ place next kid _ here doing there zombie child =>
      rw [Function.update_of_ne away] at found
      by_cases own : y = kid
      · subst own
        rw [Function.update_self] at found
        cases found
      · rw [Function.update_of_ne own] at found
        exact .inl found
  | @reap _ _ place kid _ here doing there zombie child =>
      by_cases own : y = kid
      · subst own
        rw [Function.update_self] at found
        cases found
      · rw [Function.update_of_ne own] at found
        exact .inl found
  | @fork _ _ tag child next kid here doing fresh =>
      by_cases own : y = kid
      · subst own
        rw [Function.update_self] at found
        cases found
        exact .inr (.inr ⟨rfl, Nat.succ_pos _⟩)
      · rw [Function.update_of_ne own, Function.update_of_ne away] at found
        exact .inl found
  | @spawn _ _ place kid here doing fresh =>
      by_cases own : y = kid
      · subst own
        rw [Function.update_self] at found
        cases found
        exact .inr (.inr ⟨rfl, Nat.succ_pos _⟩)
      · rw [Function.update_of_ne own] at found
        exact .inl found
  | fail here doing fatal =>
      rw [Function.update_of_ne away] at found
      exact .inl found
  | noFork here doing =>
      rw [Function.update_of_ne away] at found
      exact .inl found
  | abort here doing =>
      exact (left found).imp_right fun ⟨q₀, rest⟩ => .inl ⟨q₀, trivial, rest⟩
  | panic here doing =>
      exact (left found).imp_right fun ⟨q₀, rest⟩ => .inl ⟨q₀, trivial, rest⟩
  | exit here doing =>
      exact (left found).imp_right fun ⟨q₀, rest⟩ => .inl ⟨q₀, trivial, rest⟩
  | leave here doing =>
      exact (left found).imp_right fun ⟨q₀, rest⟩ => .inl ⟨q₀, trivial, rest⟩
  | kill here alive =>
      exact (left found).imp_right fun ⟨q₀, rest⟩ => .inl ⟨q₀, trivial, rest⟩

theorem exited_self (s : Procs) (x : Nat) (pr : Proc) : exited s x pr x =
    some { pr with doing := .zombie, here := { pr.here with fds := fun _ => none, kids := [] } } :=
  if_pos rfl

/-- What a step does to the process that takes it. -/
theorem Step.self {e : Event} {pr' : Proc} (step : Step s (x, e) s') (here : s x = some pr)
    (found : s' x = some pr') :
    pr'.parent = pr.parent ∧ pr'.tag = pr.tag ∧ pr'.depth = pr.depth := by
  have born {kid : Nat} (fresh : s kid = none) : x ≠ kid := by
    rintro rfl
    rw [here] at fresh
    cases fresh
  cases step with
  | call here' doing other does =>
      obtain rfl := Option.some.inj (here'.symm.trans here)
      rw [Function.update_self] at found
      cases found
      exact ⟨rfl, rfl, rfl⟩
  | alone here' doing none =>
      obtain rfl := Option.some.inj (here'.symm.trans here)
      rw [Function.update_self] at found
      cases found
      exact ⟨rfl, rfl, rfl⟩
  | exec here' doing =>
      obtain rfl := Option.some.inj (here'.symm.trans here)
      rw [Function.update_self] at found
      cases found
      exact ⟨rfl, rfl, rfl⟩
  | work here' doing own =>
      obtain rfl := Option.some.inj (here'.symm.trans here)
      rw [Function.update_self] at found
      cases found
      exact ⟨rfl, rfl, rfl⟩
  | wait here' doing there zombie child =>
      obtain rfl := Option.some.inj (here'.symm.trans here)
      rw [Function.update_self] at found
      cases found
      exact ⟨rfl, rfl, rfl⟩
  | init here' zombie orphan =>
      rw [Function.update_self] at found
      cases found
  | fork here' doing fresh =>
      obtain rfl := Option.some.inj (here'.symm.trans here)
      rw [Function.update_of_ne (born fresh), Function.update_self] at found
      cases found
      exact ⟨rfl, rfl, rfl⟩
  | spawn here' doing fresh =>
      rw [Function.update_of_ne (born fresh)] at found
      obtain rfl := Option.some.inj (found.symm.trans here)
      exact ⟨rfl, rfl, rfl⟩
  | @reap _ _ place kid q here' doing there zombie child =>
      have other : x ≠ kid := by
        rintro rfl
        obtain rfl := Option.some.inj (here'.symm.trans there)
        rw [doing] at zombie
        cases zombie
      rw [Function.update_of_ne other] at found
      obtain rfl := Option.some.inj (found.symm.trans here)
      exact ⟨rfl, rfl, rfl⟩
  | fail here' doing fatal =>
      obtain rfl := Option.some.inj (here'.symm.trans here)
      rw [Function.update_self] at found
      cases found
      exact ⟨rfl, rfl, rfl⟩
  | noFork here' doing =>
      obtain rfl := Option.some.inj (here'.symm.trans here)
      rw [Function.update_self] at found
      cases found
      exact ⟨rfl, rfl, rfl⟩
  | abort here' doing =>
      obtain rfl := Option.some.inj (here'.symm.trans here)
      rw [exited_self] at found
      cases found
      exact ⟨rfl, rfl, rfl⟩
  | panic here' doing =>
      obtain rfl := Option.some.inj (here'.symm.trans here)
      rw [exited_self] at found
      cases found
      exact ⟨rfl, rfl, rfl⟩
  | exit here' doing =>
      obtain rfl := Option.some.inj (here'.symm.trans here)
      rw [exited_self] at found
      cases found
      exact ⟨rfl, rfl, rfl⟩
  | leave here' doing =>
      obtain rfl := Option.some.inj (here'.symm.trans here)
      rw [exited_self] at found
      cases found
      exact ⟨rfl, rfl, rfl⟩
  | kill here' alive =>
      obtain rfl := Option.some.inj (here'.symm.trans here)
      rw [exited_self] at found
      cases found
      exact ⟨rfl, rfl, rfl⟩

theorem Step.here {e : Event} (step : Step s (x, e) s') : ∃ pr, s x = some pr := by
  cases step <;> exact ⟨_, ‹s x = some _›⟩

theorem Idle.act {a : Act} {next : Code} (idle : Idle pr)
    (doing : pr.doing = .shell (.act a next)) : a = .exit [] 0 ∨
      a = .wait [] ∧ (∃ k lines, next = mainLoop k lines) ∧ ∃ kid, pr.here.kids = [kid] := by
  rcases idle with ⟨⟨k, lines, at'⟩, _⟩ | ⟨⟨k, lines, at'⟩, kids⟩ | at'
  · rw [doing] at at'
    cases lines <;> cases at'
    exact .inl rfl
  · rw [doing] at at'
    cases at'
    exact .inr ⟨rfl, ⟨k, lines, rfl⟩, kids⟩
  · rw [doing] at at'
    cases at'

theorem Idle.fork {tag : Tag} {child next : Code} (idle : Idle pr)
    (doing : pr.doing = .shell (.fork tag child next)) : tag = .foreground ∧ pr.here.kids = [] ∧
      ∃ k lines, next = .act (.wait []) (mainLoop k lines) := by
  rcases idle with ⟨⟨k, lines, at'⟩, none⟩ | ⟨⟨k, lines, at'⟩, _⟩ | at'
  · rw [doing] at at'
    cases lines <;> cases at'
    exact ⟨rfl, none, _, _, rfl⟩
  · rw [doing] at at'
    cases at'
  · rw [doing] at at'
    cases at'

theorem Idle.no_program {place : Place} (idle : Idle pr) : pr.doing ≠ .program place := by
  rintro doing
  rcases idle with ⟨⟨k, lines, at'⟩, _⟩ | ⟨⟨k, lines, at'⟩, _⟩ | at' <;> rw [doing] at at' <;>
    cases at'

/-- The shell in its loop stays there, or leaves it. -/
theorem Idle.step {e : Event} {pr' : Proc} (idle : Idle pr) (sound : Sound session io s)
    (step : Step s (x, e) s') (orderly : e.Orderly) (here : s x = some pr)
    (found : s' x = some pr') : Idle pr' := by
  have dead {pr₀ : Proc} (found : exited s x pr₀ x = some pr') : Idle pr' := by
    rw [exited_self] at found
    cases found
    exact .inr (.inr rfl)
  cases step with
  | fail here' doing fatal =>
      obtain rfl := Option.some.inj (here'.symm.trans here)
      rcases idle.act doing with rfl | ⟨rfl, _⟩ <;> cases fatal
  | noFork here' doing => exact absurd orderly id
  | abort here' doing => exact dead found
  | panic here' doing => exact dead found
  | exit here' doing => exact dead found
  | leave here' doing => exact dead found
  | kill here' alive => exact dead found
  | call here' doing other does =>
      obtain rfl := Option.some.inj (here'.symm.trans here)
      rcases idle.act doing with rfl | ⟨rfl, _⟩
      · exact absurd does id
      · exact absurd rfl (other [])
  | exec here' doing =>
      obtain rfl := Option.some.inj (here'.symm.trans here)
      rcases idle.act doing with no | ⟨no, _⟩ <;> cases no
  | alone here' doing none =>
      obtain ⟨kid, q, there, child⟩ := sound.child_of_wait here' doing
      exact absurd child (none kid q there)
  | @wait _ _ place next kid q here' doing there zombie child =>
      obtain rfl := Option.some.inj (here'.symm.trans here)
      rw [Function.update_self] at found
      cases found
      rcases idle.act doing with no | ⟨_, ⟨k, lines, rfl⟩, kid', kids⟩
      · cases no
      · have member := sound.child here' doing there child
        refine .inl ⟨⟨k, lines, rfl⟩, ?_⟩
        dsimp only
        rw [kids] at member ⊢
        obtain rfl := List.mem_singleton.mp member
        exact List.erase_cons_head _ _
  | @fork _ _ tag child next kid here' doing fresh =>
      obtain rfl := Option.some.inj (here'.symm.trans here)
      have other : x ≠ kid := by
        rintro rfl
        rw [here] at fresh
        cases fresh
      rw [Function.update_of_ne other, Function.update_self] at found
      cases found
      obtain ⟨rfl, none, k, lines, rfl⟩ := idle.fork doing
      refine .inr (.inl ⟨⟨k, lines, rfl⟩, kid, ?_⟩)
      dsimp only [Shell.forked]
      rw [none]
  | work here' doing own =>
      obtain rfl := Option.some.inj (here'.symm.trans here)
      exact absurd doing idle.no_program
  | spawn here' doing fresh =>
      obtain rfl := Option.some.inj (here'.symm.trans here)
      exact absurd doing idle.no_program
  | reap here' doing there zombie child =>
      obtain rfl := Option.some.inj (here'.symm.trans here)
      exact absurd doing idle.no_program
  | init here' zombie orphan =>
      rw [Function.update_self] at found
      cases found

/-- A process that ends of itself has waited for its children. -/
theorem Sound.childless {e : Event} (sound : Sound session io s) (step : Step s (x, e) s')
    (here : s x = some pr) (ends : e.Ends) (orderly : e.Orderly) : pr.here.kids = [] := by
  cases step with
  | abort here' doing =>
      obtain rfl := Option.some.inj (here'.symm.trans here)
      exact ((sound.fine here).failed doing).2
  | panic here' doing => exact absurd orderly id
  | kill here' alive => exact absurd orderly id
  | exit here' doing =>
      obtain rfl := Option.some.inj (here'.symm.trans here)
      exact ((sound.fine here).shell doing).here.2
  | leave here' doing =>
      obtain rfl := Option.some.inj (here'.symm.trans here)
      exact ((sound.fine here).program doing).2
  | _ => exact absurd ends id

/-- The processes to be waited for have a parent, and the shell is the only
process that nobody has forked. -/
structure Prompt (session : List Cmd) (io : Io) (sh : Nat) (s : Procs) : Prop where
  sound : Sound session io s
  parent : ∀ {x pr}, s x = some pr → pr.tag = .foreground → 0 < pr.depth → pr.parent ≠ none
  first : ∀ {x pr}, s x = some pr → pr.depth = 0 → x = sh ∧ Idle pr

theorem Prompt.step {e : Event} (prompt : Prompt session io sh s) (outer : io.Outer)
    (step : Step s (x, e) s') (orderly : e.Orderly) : Prompt session io sh s' := by
  obtain ⟨pr, here⟩ := step.here
  refine ⟨prompt.sound.step outer step, fun {y q} found fore deep => ?_, fun {y q} found top => ?_⟩
  · by_cases own : y = x
    · subst own
      obtain ⟨parent, tag, depth⟩ := step.self here found
      rw [parent]
      exact prompt.parent here (tag.symm.trans fore) (depth ▸ deep)
    · rcases step.others own found with old | ⟨q₀, ends, old, child, rfl⟩ | ⟨child, _⟩
      · exact prompt.parent old fore deep
      · obtain ⟨p, there, _, _, waits, _⟩ := prompt.sound.family.parent (kins_some old) child
        obtain rfl := Option.some.inj ((kins_some here).symm.trans there)
        have member : y ∈ pr.here.kids := waits fore
        rw [prompt.sound.childless step here ends orderly] at member
        cases member
      · rw [child]
        exact Option.some_ne_none _
  · by_cases own : y = x
    · subst own
      obtain ⟨_, _, depth⟩ := step.self here found
      obtain ⟨same, idle⟩ := prompt.first here (depth.symm.trans top)
      exact ⟨same, idle.step prompt.sound step orderly here found⟩
    · rcases step.others own found with old | ⟨q₀, _, old, _, rfl⟩ | ⟨_, deep⟩
      · exact prompt.first old top
      · have known := prompt.first old top
        exact known
      · omega

/-- Who is not in the background is waited for by the shell or by another such process. -/
theorem Prompt.behind {q : Proc} {y : Nat} (prompt : Prompt session io sh s)
    (here : s sh = some pr) (none : pr.here.kids = [])
    (there : s y = some q) (other : y ≠ sh) : Behind s y := by
  induction depth : q.depth generalizing y q with
  | zero => exact absurd (prompt.first there depth).1 other
  | succ depth ih =>
      cases tag : q.tag with
      | background => exact .background there tag
      | foreground =>
          obtain ⟨z, child⟩ := Option.ne_none_iff_exists'.mp
            (prompt.parent there tag (by omega))
          obtain ⟨p, found, _, below, waits, _⟩ :=
            prompt.sound.family.parent (kins_some there) child
          obtain ⟨p', above, rfl⟩ := of_kins found
          refine .under there child (ih above ?_ ?_)
          · rintro rfl
            obtain rfl := Option.some.inj (here.symm.trans above)
            have member : y ∈ pr.here.kids := waits tag
            rw [none] at member
            cases member
          · have level : q.depth = p'.depth + 1 := below
            omega

end SlabStudy.Xv6.Shell
