import SlabStudy.Xv6.ShellWiring

/-!
# A session of the shell

The shell, the processes it forks and the programs they become, in any order of
steps.  Programs may do what they like with the descriptors they have; the
shell's own processes follow their code.
-/

namespace SlabStudy.Xv6.Shell

open Library

/-- What a process is. -/
inductive Doing where
  | shell (code : Code)
  /-- A shell process that exits because `open` or `pipe` has failed. -/
  | failed (place : Place)
  /-- A shell process in the `panic` of `fork1`. -/
  | panics
  | program (place : Place)
  | zombie

/-- A process: `tag` tells whether its parent is to wait for it, `depth` how far
below the main shell it was forked. -/
structure Proc where
  doing : Doing
  here : Local
  parent : Option Nat
  tag : Tag
  depth : Nat

abbrev Procs := Nat → Option Proc

/-- The first loop of `main`: open the console until there are three descriptors. -/
def openConsole : Nat → Fds → Fds
  | 0, fds => fds
  | fuel + 1, fds =>
    match lowest fds with
    | none => fds
    | some fd =>
      let opened := Function.update fds fd (some (.other 0))
      if 3 ≤ fd then Function.update opened fd none else openConsole fuel opened

/-- What a process can do. -/
inductive Event where
  | call
  /-- A call fails that the shell does not survive. -/
  | fail
  | wait (kid : Nat)
  /-- `wait` has no child to wait for. -/
  | alone
  | fork (kid : Nat)
  | noFork
  /-- The `exit(1)` after a failure. -/
  | abort
  /-- The `exit(1)` of `panic`. -/
  | panic
  | exec
  | exit
  /-- A program closes, copies and opens files. -/
  | work (fds : Fds)
  /-- A program forks. -/
  | spawn (kid : Nat)
  /-- A program waits for a child. -/
  | reap (kid : Nat)
  | leave
  /-- Somebody has killed the process. -/
  | kill
  /-- The first process waits for an orphan. -/
  | init

/-- Process `x` exits: its files are closed and its children go to the first process. -/
def exited (s : Procs) (x : Nat) (pr : Proc) : Procs := fun y =>
  if y = x then
    some { pr with doing := .zombie, here := { pr.here with fds := fun _ => none, kids := [] } }
  else (s y).map fun q => if q.parent = some x then { q with parent := none } else q

/-- The parent after a fork. -/
def forked (l : Local) (kid : Nat) : Tag → Local
  | .foreground => { l with kids := kid :: l.kids }
  | .background => { l with away := true }

inductive Step (s : Procs) : Nat × Event → Procs → Prop where
  | call {x pr a next l'} (here : s x = some pr) (doing : pr.doing = .shell (.act a next))
      (other : ∀ place, a ≠ .wait place) (does : Does a pr.here l') :
      Step s (x, .call) (Function.update s x (some { pr with doing := .shell next, here := l' }))
  | fail {x pr a next} (here : s x = some pr) (doing : pr.doing = .shell (.act a next))
      {place} (fatal : a.fatal = some place) :
      Step s (x, .fail) (Function.update s x (some { pr with doing := .failed place }))
  | abort {x pr place} (here : s x = some pr) (doing : pr.doing = .failed place) :
      Step s (x, .abort) (exited s x pr)
  | wait {x pr place next kid q} (here : s x = some pr)
      (doing : pr.doing = .shell (.act (.wait place) next)) (there : s kid = some q)
      (zombie : q.doing = .zombie) (child : q.parent = some x) :
      Step s (x, .wait kid) (Function.update (Function.update s kid none) x
        (some { pr with
          doing := .shell next
          here := { pr.here with kids := pr.here.kids.erase kid } }))
  | alone {x pr place next} (here : s x = some pr)
      (doing : pr.doing = .shell (.act (.wait place) next))
      (none : ∀ kid q, s kid = some q → q.parent ≠ some x) :
      Step s (x, .alone) (Function.update s x (some { pr with doing := .shell next }))
  | fork {x pr tag child next kid} (here : s x = some pr)
      (doing : pr.doing = .shell (.fork tag child next)) (fresh : s kid = none) :
      Step s (x, .fork kid) (Function.update
        (Function.update s x
          (some { pr with doing := .shell next, here := forked pr.here kid tag }))
        kid (some ⟨.shell child, { pr.here with kids := [], away := false }, some x, tag,
          pr.depth + 1⟩))
  | noFork {x pr tag child next} (here : s x = some pr)
      (doing : pr.doing = .shell (.fork tag child next)) :
      Step s (x, .noFork) (Function.update s x (some { pr with doing := .panics }))
  | panic {x pr} (here : s x = some pr) (doing : pr.doing = .panics) :
      Step s (x, .panic) (exited s x pr)
  | exec {x pr place argv next} (here : s x = some pr)
      (doing : pr.doing = .shell (.act (.exec place argv) next)) :
      Step s (x, .exec) (Function.update s x (some { pr with doing := .program place }))
  | exit {x pr place status next} (here : s x = some pr)
      (doing : pr.doing = .shell (.act (.exit place status) next)) :
      Step s (x, .exit) (exited s x pr)
  | work {x pr place fds} (here : s x = some pr) (doing : pr.doing = .program place)
      (own : ∀ fd file, fds fd = some file →
        (∃ n, file = .other n) ∨ ∃ fd', pr.here.fds fd' = some file) :
      Step s (x, .work fds)
        (Function.update s x (some { pr with here := { pr.here with fds := fds } }))
  | spawn {x pr place kid} (here : s x = some pr) (doing : pr.doing = .program place)
      (fresh : s kid = none) :
      Step s (x, .spawn kid) (Function.update s kid
        (some ⟨.program place, { pr.here with kids := [], away := false }, some x, .background,
          pr.depth + 1⟩))
  | reap {x pr place kid q} (here : s x = some pr) (doing : pr.doing = .program place)
      (there : s kid = some q) (zombie : q.doing = .zombie) (child : q.parent = some x) :
      Step s (x, .reap kid) (Function.update s kid none)
  | leave {x pr place} (here : s x = some pr) (doing : pr.doing = .program place) :
      Step s (x, .leave) (exited s x pr)
  | kill {x pr} (here : s x = some pr) (alive : pr.doing ≠ .zombie) :
      Step s (x, .kill) (exited s x pr)
  | init {x pr} (here : s x = some pr) (zombie : pr.doing = .zombie) (orphan : pr.parent = none) :
      Step s (x, .init) (Function.update s x none)

/-- What the shell is started with: no more than standard files, none of its own making. -/
def Inherited (fds : Fds) : Prop :=
  ∀ fd file, fds fd = some file → fd < 3 ∧ ∃ n, file = .other n

/-- The files that the shell has when it reads its first line. -/
def console (fds : Fds) : Io where
  inp := (fds 0).getD (.other 0)
  out := (fds 1).getD (.other 0)
  err := (fds 2).getD (.other 0)

/-- The shell is about to read its first line. -/
def Boots (session : List Cmd) (fds : Fds) (sh : Nat) (s : Procs) : Prop :=
  s = Function.update (fun _ => none) sh
    (some ⟨.shell (mainLoop 0 session), ⟨openConsole 4 fds, 0, 0, [], false⟩, none, .foreground, 0⟩)

def machine (session : List Cmd) (fds : Fds) (sh : Nat) : System Procs (Nat × Event) where
  initial := Boots session fds sh
  step := Step

/-- Every line of the session is one that the parser has made. -/
def Typed (session : List Cmd) : Prop :=
  ∀ cmd ∈ session, ∃ line fuel buf, parsecmd line fuel = .ok (cmd, buf)

/-! ## The family -/

inductive Kind where
  | shell
  | program
  | zombie
  deriving DecidableEq

def Doing.kind : Doing → Kind
  | .shell _ | .failed _ | .panics => .shell
  | .program _ => .program
  | .zombie => .zombie

/-- What a process is to its parent and its children. -/
structure Kin where
  kind : Kind
  parent : Option Nat
  tag : Tag
  depth : Nat
  kids : List Nat
  away : Bool

def Proc.kin (pr : Proc) : Kin :=
  ⟨pr.doing.kind, pr.parent, pr.tag, pr.depth, pr.here.kids, pr.here.away⟩

abbrev Kins := Nat → Option Kin

def kins (s : Procs) : Kins := fun x => (s x).map Proc.kin

/-- Parents and children know each other. -/
structure Family (f : Kins) : Prop where
  parent : ∀ {kid q x}, f kid = some q → q.parent = some x → ∃ p, f x = some p ∧
    p.kind ≠ .zombie ∧ q.depth = p.depth + 1 ∧ (q.tag = .foreground → kid ∈ p.kids) ∧
    (q.tag = .background → p.kind = .shell → p.away = true)
  kid : ∀ {x p kid}, f x = some p → kid ∈ p.kids → ∃ q, f kid = some q ∧ q.parent = some x ∧
    q.tag = .foreground
  nodup : ∀ {x p}, f x = some p → p.kids.Nodup

/-- A process exits. -/
def Kins.exited (f : Kins) (x : Nat) (p : Kin) : Kins := fun y =>
  if y = x then some { p with kind := .zombie, kids := [] }
  else (f y).map fun q => if q.parent = some x then { q with parent := none } else q

variable {f : Kins} {x kid : Nat} {p q : Kin}

theorem Kins.exited_self : f.exited x p x = some { p with kind := .zombie, kids := [] } :=
  if_pos rfl

theorem Kins.exited_other {y : Nat} (other : y ≠ x) : f.exited x p y =
    (f y).map fun q => if q.parent = some x then { q with parent := none } else q := if_neg other

/-- What is left of the others is what they were, but for their parent. -/
theorem Kins.exited_some {y : Nat} (there : f y = some q) (other : y ≠ x) : ∃ q',
    f.exited x p y = some q' ∧ q'.kind = q.kind ∧ q'.depth = q.depth ∧ q'.tag = q.tag ∧
      q'.kids = q.kids ∧ q'.away = q.away ∧ (q.parent ≠ some x → q'.parent = q.parent) := by
  rw [exited_other other, there, Option.map_some]
  by_cases child : q.parent = some x
  · rw [if_pos child]
    exact ⟨_, rfl, rfl, rfl, rfl, rfl, rfl, fun no => absurd child no⟩
  · rw [if_neg child]
    exact ⟨_, rfl, rfl, rfl, rfl, rfl, rfl, fun _ => rfl⟩

/-- Where the others come from. -/
theorem Kins.of_exited {y : Nat} (there : f.exited x p y = some q) (other : y ≠ x) : ∃ q₀,
    f y = some q₀ ∧ q.kind = q₀.kind ∧ q.depth = q₀.depth ∧ q.tag = q₀.tag ∧ q.kids = q₀.kids ∧
      q.away = q₀.away ∧ q.parent ≠ some x ∧ ∀ z, q.parent = some z → q₀.parent = some z := by
  rw [exited_other other] at there
  obtain ⟨q₀, found, same⟩ := Option.map_eq_some_iff.mp there
  refine ⟨q₀, found, ?_⟩
  split at same <;> subst same
  · refine ⟨rfl, rfl, rfl, rfl, rfl, ?_, fun z no => ?_⟩
    · exact fun no => (Option.some_ne_none x) no.symm
    · cases no
  · exact ⟨rfl, rfl, rfl, rfl, rfl, ‹_›, fun _ => id⟩

theorem Family.exited (family : Family f) (here : f x = some p) : Family (f.exited x p) := by
  refine ⟨fun {kid q y} there child => ?_, fun {y q kid} there member => ?_, fun {y q} there => ?_⟩
  · obtain ⟨q₀, found, depth, tag, child', other⟩ : ∃ q₀, f kid = some q₀ ∧ q.depth = q₀.depth ∧
        q.tag = q₀.tag ∧ q₀.parent = some y ∧ y ≠ x := by
      by_cases own : kid = x
      · subst own
        rw [Kins.exited_self] at there
        cases there
        refine ⟨p, here, rfl, rfl, child, ?_⟩
        rintro rfl
        obtain ⟨p', here', _, depth, _⟩ := family.parent here child
        obtain rfl := Option.some.inj (here.symm.trans here')
        omega
      · obtain ⟨q₀, found, _, depth, tag, _, _, away, parent⟩ := Kins.of_exited there own
        refine ⟨q₀, found, depth, tag, parent y child, ?_⟩
        rintro rfl
        exact away child
    obtain ⟨p₀, found₀, alive, below, waits, leaves⟩ := family.parent found child'
    obtain ⟨p', there', kind, depth', _, kids, away, _⟩ := Kins.exited_some (p := p) found₀ other
    refine ⟨p', there', ?_, ?_, ?_, ?_⟩
    · rw [kind]
      exact alive
    · rw [depth, depth', below]
    · rw [tag, kids]
      exact waits
    · rw [tag, kind, away]
      exact leaves
  · by_cases own : y = x
    · subst own
      rw [Kins.exited_self] at there
      cases there
      cases member
    · obtain ⟨q₀, found, _, _, _, kids, _, _, _⟩ := Kins.of_exited there own
      rw [kids] at member
      obtain ⟨k, foundKid, child, tag⟩ := family.kid found member
      by_cases self : kid = x
      · subst self
        obtain rfl := Option.some.inj (here.symm.trans foundKid)
        exact ⟨_, Kins.exited_self, child, tag⟩
      · obtain ⟨k', there', _, _, tag', _, _, parent⟩ := Kins.exited_some (p := p) foundKid self
        refine ⟨k', there', ?_, tag'.trans tag⟩
        rw [parent, child]
        rw [child]
        exact fun no => own (Option.some.inj no)
  · by_cases own : y = x
    · subst own
      rw [Kins.exited_self] at there
      cases there
      exact List.nodup_nil
    · obtain ⟨q₀, found, _, _, _, kids, _⟩ := Kins.of_exited there own
      rw [kids]
      exact family.nodup found

/-- A process forks. -/
theorem Family.fork (family : Family f) (tag : Tag) (here : f x = some p) (p' : Kin)
    (alive : p.kind ≠ .zombie) (fresh : f kid = none) (kind : p'.kind = p.kind)
    (parent : p'.parent = p.parent) (depth : p'.depth = p.depth) (own : p'.tag = p.tag)
    (kids : p'.kids = if tag = .foreground then kid :: p.kids else p.kids)
    (away : p.away = true → p'.away = true)
    (left : tag = .background → p.kind = .shell → p'.away = true) (kind' : Kind) :
    Family (Function.update (Function.update f x (some p')) kid
      (some ⟨kind', some x, tag, p.depth + 1, [], false⟩)) := by
  have other : x ≠ kid := by
    rintro rfl
    rw [here] at fresh
    cases fresh
  have new : Function.update (Function.update f x (some p')) kid
      (some ⟨kind', some x, tag, p.depth + 1, [], false⟩) kid =
        some ⟨kind', some x, tag, p.depth + 1, [], false⟩ := Function.update_self _ _ _
  have self : Function.update (Function.update f x (some p')) kid
      (some ⟨kind', some x, tag, p.depth + 1, [], false⟩) x = some p' := by
    rw [Function.update_of_ne other, Function.update_self]
  have rest {y : Nat} (notKid : y ≠ kid) (notSelf : y ≠ x) :
      Function.update (Function.update f x (some p')) kid
        (some ⟨kind', some x, tag, p.depth + 1, [], false⟩) y = f y := by
    rw [Function.update_of_ne notKid, Function.update_of_ne notSelf]
  generalize Function.update (Function.update f x (some p')) kid
    (some ⟨kind', some x, tag, p.depth + 1, [], false⟩) = f' at *
  have forth {k : Nat} {q₀ : Kin} (there : f k = some q₀) : ∃ q, f' k = some q ∧
      q.kind = q₀.kind ∧ q.parent = q₀.parent ∧ q.depth = q₀.depth ∧ q.tag = q₀.tag ∧
      (∀ j ∈ q₀.kids, j ∈ q.kids) ∧ (q₀.away = true → q.away = true) := by
    by_cases mine : k = x
    · subst mine
      obtain rfl := Option.some.inj (here.symm.trans there)
      refine ⟨p', self, kind, parent, depth, own, fun j member => ?_, away⟩
      rw [kids]
      split
      · exact List.mem_cons_of_mem _ member
      · exact member
    · refine ⟨q₀, ?_, rfl, rfl, rfl, rfl, fun _ => id, id⟩
      rw [rest (fun same => ?_) mine]
      · exact there
      · rw [same, fresh] at there
        cases there
  refine ⟨fun {k q y} there child => ?_, fun {y q k} there member => ?_, fun {y q} there => ?_⟩
  · by_cases isNew : k = kid
    · subst isNew
      obtain rfl := Option.some.inj (new.symm.trans there)
      obtain rfl := Option.some.inj child
      refine ⟨p', self, by rw [kind]; exact alive, by rw [depth], fun fore => ?_,
        fun back shell => ?_⟩
      · rw [kids, if_pos fore]
        exact List.mem_cons_self
      · exact left back (kind.symm.trans shell)
    · obtain ⟨q₀, found, child', depth', tag'⟩ : ∃ q₀, f k = some q₀ ∧ q₀.parent = some y ∧
          q.depth = q₀.depth ∧ q.tag = q₀.tag := by
        by_cases mine : k = x
        · subst mine
          obtain rfl := Option.some.inj (self.symm.trans there)
          exact ⟨p, here, parent.symm.trans child, depth, own⟩
        · rw [rest isNew mine] at there
          exact ⟨q, there, child, rfl, rfl⟩
      obtain ⟨p₀, there₀, alive₀, below, waits, leaves⟩ := family.parent found child'
      obtain ⟨q', there', kind₁, _, depth₁, _, kids₁, away₁⟩ := forth there₀
      refine ⟨q', there', by rw [kind₁]; exact alive₀, by rw [depth', depth₁, below], ?_, ?_⟩
      · rw [tag']
        exact fun fore => kids₁ k (waits fore)
      · rw [tag', kind₁]
        exact fun back shell => away₁ (leaves back shell)
  · have known : (y = x ∧ k = kid ∧ tag = .foreground) ∨ ∃ q₀, f y = some q₀ ∧ k ∈ q₀.kids := by
      by_cases isNew : y = kid
      · subst isNew
        obtain rfl := Option.some.inj (new.symm.trans there)
        cases member
      · by_cases mine : y = x
        · subst mine
          obtain rfl := Option.some.inj (self.symm.trans there)
          rw [kids] at member
          split at member
          · rcases List.mem_cons.mp member with rfl | old
            · exact .inl ⟨rfl, rfl, ‹_›⟩
            · exact .inr ⟨p, here, old⟩
          · exact .inr ⟨p, here, member⟩
        · rw [rest isNew mine] at there
          exact .inr ⟨q, there, member⟩
    rcases known with ⟨rfl, rfl, fore⟩ | ⟨q₀, found, member'⟩
    · exact ⟨_, new, rfl, fore⟩
    · obtain ⟨c, foundKid, child, fore⟩ := family.kid found member'
      obtain ⟨c', thereKid, _, parent', _, tag', _⟩ := forth foundKid
      exact ⟨c', thereKid, parent'.trans child, tag'.trans fore⟩
  · by_cases isNew : y = kid
    · subst isNew
      obtain rfl := Option.some.inj (new.symm.trans there)
      exact List.nodup_nil
    · by_cases mine : y = x
      · subst mine
        obtain rfl := Option.some.inj (self.symm.trans there)
        rw [kids]
        split
        · refine List.nodup_cons.mpr ⟨fun member => ?_, family.nodup here⟩
          obtain ⟨c, found, _⟩ := family.kid here member
          rw [fresh] at found
          cases found
        · exact family.nodup here
      · rw [rest isNew mine] at there
        exact family.nodup there

/-- A process that forgets a child. -/
structure Less (kid : Nat) (q q' : Kin) : Prop where
  kind : q'.kind = q.kind
  parent : q'.parent = q.parent
  depth : q'.depth = q.depth
  tag : q'.tag = q.tag
  away : q'.away = q.away
  kids : ∀ j, j ∈ q'.kids ↔ j ∈ q.kids ∧ j ≠ kid
  nodup : q.kids.Nodup → q'.kids.Nodup

theorem Less.refl (unlisted : kid ∉ q.kids) : Less kid q q :=
  ⟨rfl, rfl, rfl, rfl, rfl, fun _ => ⟨fun member => ⟨member, fun same => unlisted (same ▸ member)⟩,
    And.left⟩, id⟩

/-- A process that has exited is gone. -/
theorem Family.remove {f' : Kins} {c : Kin} (family : Family f) (there : f kid = some c)
    (zombie : c.kind = .zombie) (gone : f' kid = none)
    (rest : ∀ {y q}, y ≠ kid → f y = some q → ∃ q', f' y = some q' ∧ Less kid q q')
    (none : ∀ {y}, f y = none → f' y = none) : Family f' := by
  have back {y : Nat} {q' : Kin} (there' : f' y = some q') : y ≠ kid ∧ ∃ q, f y = some q ∧
      Less kid q q' := by
    have old : y ≠ kid := by
      rintro rfl
      rw [gone] at there'
      cases there'
    refine ⟨old, ?_⟩
    cases found : f y with
    | none =>
        rw [none found] at there'
        cases there'
    | some q =>
        obtain ⟨q'', there'', less⟩ := rest old found
        obtain rfl := Option.some.inj (there'.symm.trans there'')
        exact ⟨q, rfl, less⟩
  refine ⟨fun {k q' y} there' child => ?_, fun {y q' k} there' member => ?_,
    fun {y q'} there' => ?_⟩
  · obtain ⟨old, q, found, less⟩ := back there'
    obtain ⟨p, foundP, alive, below, waits, leaves⟩ :=
      family.parent found (less.parent.symm.trans child)
    have notKid : y ≠ kid := by
      rintro rfl
      obtain rfl := Option.some.inj (there.symm.trans foundP)
      exact alive zombie
    obtain ⟨p', thereP, lessP⟩ := rest notKid foundP
    refine ⟨p', thereP, ?_, ?_, ?_, ?_⟩
    · rw [lessP.kind]
      exact alive
    · rw [less.depth, lessP.depth, below]
    · rw [less.tag]
      exact fun fore => (lessP.kids k).mpr ⟨waits fore, old⟩
    · rw [less.tag, lessP.kind, lessP.away]
      exact leaves
  · obtain ⟨_, q, found, less⟩ := back there'
    obtain ⟨listed, old⟩ := (less.kids k).mp member
    obtain ⟨c', foundKid, child, fore⟩ := family.kid found listed
    obtain ⟨c'', thereKid, lessKid⟩ := rest old foundKid
    exact ⟨c'', thereKid, lessKid.parent.trans child, lessKid.tag.trans fore⟩
  · obtain ⟨_, q, found, less⟩ := back there'
    exact less.nodup (family.nodup found)

/-- A shell process becomes a program. -/
theorem Family.program (family : Family f) (here : f x = some p) :
    Family (Function.update f x (some { p with kind := .program })) := by
  have forth {y : Nat} {q : Kin} (found : f y = some q) : ∃ q',
      Function.update f x (some { p with kind := .program }) y = some q' ∧
        (q.kind ≠ .zombie → q'.kind ≠ .zombie) ∧ (q'.kind = .shell → q.kind = .shell) ∧
        q'.parent = q.parent ∧ q'.depth = q.depth ∧ q'.tag = q.tag ∧ q'.kids = q.kids ∧
        q'.away = q.away := by
    by_cases own : y = x
    · subst own
      obtain rfl := Option.some.inj (here.symm.trans found)
      refine ⟨_, Function.update_self _ _ _, fun _ no => ?_, fun no => ?_, rfl, rfl, rfl, rfl, rfl⟩
      · cases no
      · cases no
    · rw [Function.update_of_ne own]
      exact ⟨q, found, id, id, rfl, rfl, rfl, rfl, rfl⟩
  have back {y : Nat} {q' : Kin}
      (found : Function.update f x (some { p with kind := .program }) y = some q') : ∃ q,
        f y = some q ∧ q'.parent = q.parent ∧ q'.depth = q.depth ∧ q'.tag = q.tag ∧
          q'.kids = q.kids := by
    by_cases own : y = x
    · subst own
      rw [Function.update_self] at found
      cases found
      exact ⟨p, here, rfl, rfl, rfl, rfl⟩
    · rw [Function.update_of_ne own] at found
      exact ⟨q', found, rfl, rfl, rfl, rfl⟩
  refine ⟨fun {k q' y} there child => ?_, fun {y q' k} there member => ?_, fun {y q'} there => ?_⟩
  · obtain ⟨q, found, parent, depth, tag, _⟩ := back there
    obtain ⟨p₀, found₀, alive, below, waits, leaves⟩ :=
      family.parent found (parent.symm.trans child)
    obtain ⟨p', there', alive', shell, _, depth', _, kids, away⟩ := forth found₀
    refine ⟨p', there', alive' alive, by rw [depth, depth', below], ?_, ?_⟩
    · rw [tag, kids]
      exact waits
    · rw [tag, away]
      exact fun backg is => leaves backg (shell is)
  · obtain ⟨q, found, _, _, _, kids⟩ := back there
    rw [kids] at member
    obtain ⟨c, foundKid, child, fore⟩ := family.kid found member
    obtain ⟨c', thereKid, _, _, parent, _, tag, _⟩ := forth foundKid
    exact ⟨c', thereKid, parent.trans child, tag.trans fore⟩
  · obtain ⟨q, found, _, _, _, kids⟩ := back there
    rw [kids]
    exact family.nodup found

/-! ## The kin of the processes -/

variable {session : List Cmd} {io : Io} {s s' : Procs} {pr : Proc}

theorem kins_some (here : s x = some pr) : kins s x = some pr.kin := by
  rw [kins, here]
  rfl

theorem kins_none (fresh : s x = none) : kins s x = none := by
  rw [kins, fresh]
  rfl

theorem of_kins (there : kins s x = some p) : ∃ pr, s x = some pr ∧ pr.kin = p :=
  Option.map_eq_some_iff.mp there

theorem kins_update (s : Procs) (x : Nat) (new : Option Proc) :
    kins (Function.update s x new) = Function.update (kins s) x (new.map Proc.kin) := by
  funext y
  by_cases own : y = x
  · subst own
    rw [kins, Function.update_self, Function.update_self]
  · rw [kins, Function.update_of_ne own, Function.update_of_ne own, kins]

/-- A change that the others do not see. -/
theorem kins_same {pr' : Proc} (here : s x = some pr) (same : pr'.kin = pr.kin) :
    kins (Function.update s x (some pr')) = kins s := by
  rw [kins_update, Option.map_some, same, ← kins_some here, Function.update_eq_self]

theorem kins_exited (s : Procs) (x : Nat) (pr : Proc) :
    kins (exited s x pr) = (kins s).exited x pr.kin := by
  funext y
  unfold kins exited Kins.exited
  split
  · rfl
  · rw [Option.map_map, Option.map_map]
    congr 1
    funext q
    by_cases child : q.parent = some x
    · exact (congrArg Proc.kin (if_pos child)).trans (if_pos child).symm
    · exact (congrArg Proc.kin (if_neg child)).trans (if_neg child).symm

/-! ## The invariant -/

/-- A process keeps its promises: shell code with every call, programs by what they have open. -/
def Fine (session : List Cmd) (io : Io) (pr : Proc) : Prop :=
  match pr.doing with
  | .shell code => code.Meets effects (Guard session io) pr.here
  | .failed place => Within session io place pr.here.fds ∧ pr.here.kids = []
  | .panics => True
  | .program place => (∀ fd file, pr.here.fds fd = some file → Near place file) ∧ pr.here.kids = []
  | .zombie => ∀ fd, pr.here.fds fd = none

theorem Fine.shell {code : Code} (fine : Fine session io pr) (doing : pr.doing = .shell code) :
    code.Meets effects (Guard session io) pr.here := by
  unfold Fine at fine
  rw [doing] at fine
  exact fine

theorem Fine.failed {place : Place} (fine : Fine session io pr)
    (doing : pr.doing = .failed place) :
    Within session io place pr.here.fds ∧ pr.here.kids = [] := by
  unfold Fine at fine
  rw [doing] at fine
  exact fine

theorem Fine.program {place : Place} (fine : Fine session io pr)
    (doing : pr.doing = .program place) :
    (∀ fd file, pr.here.fds fd = some file → Near place file) ∧ pr.here.kids = [] := by
  unfold Fine at fine
  rw [doing] at fine
  exact fine

structure Sound (session : List Cmd) (io : Io) (s : Procs) : Prop where
  fine : ∀ {x pr}, s x = some pr → Fine session io pr
  family : Family (kins s)

/-- One process changes. -/
theorem Sound.update {pr' : Proc} (sound : Sound session io s) (fine : Fine session io pr')
    (family : Family (kins (Function.update s x (some pr')))) :
    Sound session io (Function.update s x (some pr')) := by
  refine ⟨fun {y q} there => ?_, family⟩
  by_cases own : y = x
  · subst own
    rw [Function.update_self] at there
    cases there
    exact fine
  · rw [Function.update_of_ne own] at there
    exact sound.fine there

theorem Sound.exited (sound : Sound session io s) (here : s x = some pr) :
    Sound session io (exited s x pr) := by
  refine ⟨fun {y q} there => ?_, ?_⟩
  · unfold Shell.exited at there
    split at there
    · cases there
      exact fun _ => rfl
    · obtain ⟨q₀, found, same⟩ := Option.map_eq_some_iff.mp there
      have fine := sound.fine found
      split at same <;> subst same
      · exact fine
      · exact fine
  · rw [kins_exited]
    exact sound.family.exited (kins_some here)

/-- A process that waits has a child, and its children are those it waits for. -/
theorem Sound.child (sound : Sound session io s) {place : Place} {next : Code} {q : Proc}
    (here : s x = some pr) (doing : pr.doing = .shell (.act (.wait place) next))
    (there : s kid = some q) (child : q.parent = some x) : kid ∈ pr.here.kids := by
  obtain ⟨_, _, home⟩ := ((sound.fine here).shell doing).here
  obtain ⟨p, found, _, _, waits, leaves⟩ := sound.family.parent (kins_some there) child
  obtain rfl := Option.some.inj ((kins_some here).symm.trans found)
  cases tag : q.tag with
  | foreground => exact waits tag
  | background =>
      have away : pr.here.away = true := leaves tag (by simp [Proc.kin, doing, Doing.kind])
      rw [home] at away
      cases away

/-- A process that waits has a child. -/
theorem Sound.child_of_wait {place : Place} {next : Code} (sound : Sound session io s)
    (here : s x = some pr) (doing : pr.doing = .shell (.act (.wait place) next)) :
    ∃ kid q, s kid = some q ∧ q.parent = some x := by
  obtain ⟨_, waits, _⟩ := ((sound.fine here).shell doing).here
  obtain ⟨kid, member⟩ := List.exists_mem_of_ne_nil _ waits
  obtain ⟨q, found, child, _⟩ := sound.family.kid (kins_some here) member
  obtain ⟨q', there, rfl⟩ := of_kins found
  exact ⟨kid, q', there, child⟩

theorem Sound.fine_of_removed {y : Nat} (sound : Sound session io s)
    (found : Function.update s kid none y = some pr) : Fine session io pr := by
  by_cases own : y = kid
  · subst own
    rw [Function.update_self] at found
    cases found
  · rw [Function.update_of_ne own] at found
    exact sound.fine found

/-- A process that nobody waits for any more is gone. -/
theorem Sound.removed (sound : Sound session io s) (there : s kid = some pr)
    (zombie : pr.doing = .zombie)
    (unlisted : ∀ {y k}, kins s y = some k → kid ∉ k.kids) :
    Sound session io (Function.update s kid none) := by
  refine ⟨sound.fine_of_removed, ?_⟩
  rw [kins_update]
  refine sound.family.remove (kins_some there) (by rw [Proc.kin, zombie]; rfl)
    (Function.update_self _ _ _) ?_ ?_
  · intro y k old found
    refine ⟨k, ?_, .refl (unlisted found)⟩
    rw [Function.update_of_ne old]
    exact found
  · intro y none
    by_cases own : y = kid
    · subst own
      exact Function.update_self _ _ _
    · rw [Function.update_of_ne own]
      exact none

/-- Two processes after a fork. -/
theorem Sound.forked (sound : Sound session io s) (here : s x = some pr) (pr' new : Proc)
    (other : x ≠ kid) (child : Fine session io new) (parent : Fine session io pr')
    (family : Family (Function.update (Function.update (kins s) x (some pr'.kin)) kid
      (some new.kin))) :
    Sound session io (Function.update (Function.update s x (some pr')) kid (some new)) := by
  refine ⟨fun {y q} found => ?_, ?_⟩
  · by_cases own : y = kid
    · subst own
      rw [Function.update_self] at found
      cases found
      exact child
    · rw [Function.update_of_ne own] at found
      by_cases mine : y = x
      · subst mine
        rw [Function.update_self] at found
        cases found
        exact parent
      · rw [Function.update_of_ne mine] at found
        exact sound.fine found
  · rw [kins_update, kins_update]
    exact family

/-- Only `wait` has to do with the children. -/
theorem Does.kin {a : Act} {l l' : Local} (does : Does a l l') (other : ∀ place, a ≠ .wait place) :
    l'.kids = l.kids ∧ l'.away = l.away := by
  cases a with
  | close fd =>
      obtain rfl := does
      exact ⟨rfl, rfl⟩
  | closeEnd which =>
      obtain rfl := does
      exact ⟨rfl, rfl⟩
  | dup which =>
      simp only [Does] at does
      rw [does]
      split <;> exact ⟨rfl, rfl⟩
  | «open» place file efile mode =>
      obtain ⟨_, _, rfl⟩ := does
      exact ⟨rfl, rfl⟩
  | pipe place =>
      obtain ⟨_, _, _, _, rfl⟩ := does
      exact ⟨rfl, rfl⟩
  | wait place => exact absurd rfl (other place)
  | exec place argv =>
      obtain rfl := does
      exact ⟨rfl, rfl⟩
  | exit place status => exact absurd does id

/-- A process that changes in a way its relatives do not see. -/
theorem Sound.alike {pr' : Proc} (sound : Sound session io s) (here : s x = some pr)
    (fine : Fine session io pr') (kin : pr'.kin = pr.kin) :
    Sound session io (Function.update s x (some pr')) := by
  refine sound.update fine ?_
  rw [kins_same here kin]
  exact sound.family

/-- A process that makes another is not the new one. -/
theorem ne_of_fresh (here : s x = some pr) (fresh : s kid = none) : x ≠ kid := by
  rintro rfl
  rw [here] at fresh
  cases fresh

/-- A system call of the straight code. -/
theorem Sound.call {a : Act} {next : Code} {l' : Local} (sound : Sound session io s)
    (here : s x = some pr) (doing : pr.doing = .shell (.act a next))
    (other : ∀ place, a ≠ .wait place) (does : Does a pr.here l') :
    Sound session io (Function.update s x (some { pr with doing := .shell next, here := l' })) := by
  have meets := (sound.fine here).shell doing
  obtain ⟨kids, away⟩ := Does.kin does other
  refine sound.alike here (meets.of_act does) ?_
  simp only [Proc.kin, Doing.kind, doing, kids, away]

/-- An `open` or a `pipe` that fails. -/
theorem Sound.fail {a : Act} {next : Code} {place : Place} (sound : Sound session io s)
    (here : s x = some pr) (doing : pr.doing = .shell (.act a next)) (fatal : a.fatal = some place) :
    Sound session io (Function.update s x (some { pr with doing := .failed place })) := by
  have guard := ((sound.fine here).shell doing).here
  refine sound.alike here ?_ (by simp only [Proc.kin, Doing.kind, doing])
  cases a with
  | «open» place' file efile mode =>
      cases fatal
      exact guard
  | pipe place' =>
      cases fatal
      exact guard
  | _ => cases fatal

/-- The relatives of a process that has waited for `kid`, as they were, without `kid`. -/
theorem Sound.family_waited {place : Place} {next : Code} {q : Proc} (sound : Sound session io s)
    (here : s x = some pr) (doing : pr.doing = .shell (.act (.wait place) next))
    (there : s kid = some q) (zombie : q.doing = .zombie) (child : q.parent = some x)
    (other : x ≠ kid) :
    Family (kins (Function.update (Function.update s kid none) x (some { pr with
      doing := .shell next
      here := { pr.here with kids := pr.here.kids.erase kid } }))) := by
  rw [kins_update, kins_update]
  refine sound.family.remove (kins_some there) (by rw [Proc.kin, zombie]; rfl) ?_ ?_ ?_
  · rw [Function.update_of_ne other.symm, Function.update_self]
    rfl
  · intro y k old found
    by_cases own : y = x
    · subst own
      obtain rfl := Option.some.inj ((kins_some here).symm.trans found)
      have nodup : pr.here.kids.Nodup := sound.family.nodup (kins_some here)
      refine ⟨_, Function.update_self _ _ _, ?_, rfl, rfl, rfl, rfl, fun j => ?_,
        fun _ => nodup.erase kid⟩
      · simp only [Proc.kin, Doing.kind, doing]
      · exact nodup.mem_erase_iff.trans and_comm
    · refine ⟨k, ?_, .refl fun listed => ?_⟩
      · rw [Function.update_of_ne own, Function.update_of_ne old]
        exact found
      · obtain ⟨_, found', parent, _⟩ := sound.family.kid found listed
        obtain rfl := Option.some.inj ((kins_some there).symm.trans found')
        exact own (Option.some.inj (parent.symm.trans child))
  · intro y none
    have notSelf : y ≠ x := by
      rintro rfl
      rw [kins_some here] at none
      cases none
    rw [Function.update_of_ne notSelf]
    by_cases own : y = kid
    · subst own
      exact Function.update_self _ _ _
    · rw [Function.update_of_ne own]
      exact none

/-- A `wait` of the straight code that reaps `kid`. -/
theorem Sound.waited {place : Place} {next : Code} {q : Proc} (sound : Sound session io s)
    (here : s x = some pr) (doing : pr.doing = .shell (.act (.wait place) next))
    (there : s kid = some q) (zombie : q.doing = .zombie) (child : q.parent = some x) :
    Sound session io (Function.update (Function.update s kid none) x (some { pr with
      doing := .shell next
      here := { pr.here with kids := pr.here.kids.erase kid } })) := by
  have member := sound.child here doing there child
  have other : x ≠ kid := by
    rintro rfl
    obtain rfl := Option.some.inj (here.symm.trans there)
    rw [doing] at zombie
    cases zombie
  refine ⟨fun {y k} found => ?_, sound.family_waited here doing there zombie child other⟩
  by_cases own : y = x
  · subst own
    rw [Function.update_self] at found
    cases found
    exact ((sound.fine here).shell doing).of_act ⟨kid, member, rfl⟩
  · rw [Function.update_of_ne own] at found
    exact sound.fine_of_removed found

/-- A `fork1` of the straight code. -/
theorem Sound.fork {tag : Tag} {child next : Code} (sound : Sound session io s)
    (here : s x = some pr) (doing : pr.doing = .shell (.fork tag child next))
    (fresh : s kid = none) :
    Sound session io (Function.update
      (Function.update s x
        (some { pr with doing := .shell next, here := Shell.forked pr.here kid tag }))
      kid (some ⟨.shell child, { pr.here with kids := [], away := false }, some x, tag,
        pr.depth + 1⟩)) := by
  have meets := (sound.fine here).shell doing
  have unlisted : kid ∉ pr.here.kids := by
    intro member
    obtain ⟨q, found, _⟩ := sound.family.kid (kins_some here) member
    obtain ⟨q', there, _⟩ := of_kins found
    rw [fresh] at there
    cases there
  refine sound.forked here
    { pr with doing := .shell next, here := Shell.forked pr.here kid tag } _
    (ne_of_fresh here fresh) (meets.of_starts rfl) (meets.of_stays ?_) ?_
  · cases tag with
    | foreground => exact ⟨kid, unlisted, rfl⟩
    | background => rfl
  · refine sound.family.fork tag (kins_some here)
      (Proc.kin { pr with doing := .shell next, here := Shell.forked pr.here kid tag }) ?_
      (kins_none fresh) ?_ rfl rfl rfl ?_ ?_ ?_ .shell
    · simp [Proc.kin, doing, Doing.kind]
    · simp [Proc.kin, doing, Doing.kind]
    · cases tag with
      | foreground => rfl
      | background => rfl
    · cases tag with
      | foreground => exact id
      | background => exact fun _ => rfl
    · rintro rfl _
      rfl

/-- A program is started with its standard files in place. -/
theorem Sound.exec {place : Place} {argv : List (Nat × Nat)} {next : Code} (sound : Sound session io s)
    (outer : io.Outer) (here : s x = some pr)
    (doing : pr.doing = .shell (.act (.exec place argv) next)) :
    Sound session io (Function.update s x (some { pr with doing := .program place })) := by
  obtain ⟨⟨io', found, fds⟩, none, _⟩ := ((sound.fine here).shell doing).here
  refine sound.update ⟨fun fd file has => ?_, none⟩ ?_
  · rw [fds] at has
    exact (stdioAt_near found outer).fds has
  · rw [kins_update]
    exact sound.family.program (kins_some here)

/-- A program opens and closes files of its own. -/
theorem Sound.work {place : Place} {fds : Fds} (sound : Sound session io s) (here : s x = some pr)
    (doing : pr.doing = .program place)
    (own : ∀ fd file, fds fd = some file →
      (∃ n, file = .other n) ∨ ∃ fd', pr.here.fds fd' = some file) :
    Sound session io
      (Function.update s x (some { pr with here := { pr.here with fds := fds } })) := by
  obtain ⟨near, none⟩ := (sound.fine here).program doing
  refine sound.alike here ?_ rfl
  unfold Fine
  dsimp only
  rw [doing]
  refine ⟨fun fd file has => ?_, none⟩
  rcases own fd file has with ⟨n, rfl⟩ | ⟨fd', old⟩
  · trivial
  · exact near fd' file old

/-- A program forks. -/
theorem Sound.spawn {place : Place} (sound : Sound session io s) (here : s x = some pr)
    (doing : pr.doing = .program place) (fresh : s kid = none) :
    Sound session io (Function.update s kid (some ⟨.program place,
      { pr.here with kids := [], away := false }, some x, .background, pr.depth + 1⟩)) := by
  obtain ⟨near, none⟩ := (sound.fine here).program doing
  have kind : pr.kin.kind = .program := by simp [Proc.kin, doing, Doing.kind]
  have family := sound.family.fork .background (kins_some here) pr.kin (by simp [kind])
    (kins_none fresh) rfl rfl rfl rfl rfl id (fun _ no => by simp [kind] at no) .program
  have whole := sound.forked here pr
    ⟨.program place, { pr.here with kids := [], away := false }, some x, .background,
      pr.depth + 1⟩ (ne_of_fresh here fresh) ⟨near, rfl⟩ (sound.fine here) family
  rw [← here, Function.update_eq_self] at whole
  exact whole

/-- A program reaps a child. -/
theorem Sound.reap {place : Place} {q : Proc} (sound : Sound session io s) (here : s x = some pr)
    (doing : pr.doing = .program place) (there : s kid = some q) (zombie : q.doing = .zombie)
    (child : q.parent = some x) : Sound session io (Function.update s kid none) := by
  refine sound.removed there zombie fun {y k} found listed => ?_
  obtain ⟨_, found', parent, _⟩ := sound.family.kid found listed
  obtain rfl := Option.some.inj ((kins_some there).symm.trans found')
  obtain rfl := Option.some.inj (parent.symm.trans child)
  obtain rfl := Option.some.inj ((kins_some here).symm.trans found)
  have none : pr.kin.kids = [] := ((sound.fine here).program doing).2
  rw [none] at listed
  cases listed

/-- `init` reaps a process without a parent. -/
theorem Sound.init (sound : Sound session io s) (here : s x = some pr)
    (zombie : pr.doing = .zombie) (orphan : pr.parent = none) :
    Sound session io (Function.update s x none) := by
  refine sound.removed here zombie fun {y k} found listed => ?_
  obtain ⟨_, found', parent, _⟩ := sound.family.kid found listed
  obtain rfl := Option.some.inj ((kins_some here).symm.trans found')
  cases orphan.symm.trans parent

theorem Sound.step {label : Nat × Event} (sound : Sound session io s) (outer : io.Outer)
    (step : Step s label s') : Sound session io s' := by
  cases step with
  | call here doing other does => exact sound.call here doing other does
  | fail here doing fatal => exact sound.fail here doing fatal
  | abort here doing => exact sound.exited here
  | wait here doing there zombie child => exact sound.waited here doing there zombie child
  | alone here doing none =>
      -- the straight code only waits for a child that it has
      obtain ⟨kid, q, there, child⟩ := sound.child_of_wait here doing
      exact absurd child (none kid q there)
  | fork here doing fresh => exact sound.fork here doing fresh
  | noFork here doing =>
      exact sound.alike here trivial (by simp only [Proc.kin, Doing.kind, doing])
  | panic here doing => exact sound.exited here
  | exec here doing => exact sound.exec outer here doing
  | exit here doing => exact sound.exited here
  | work here doing own => exact sound.work here doing own
  | spawn here doing fresh => exact sound.spawn here doing fresh
  | reap here doing there zombie child => exact sound.reap here doing there zombie child
  | leave here doing => exact sound.exited here
  | kill here alive => exact sound.exited here
  | init here zombie orphan => exact sound.init here zombie orphan

/-! ## The start -/

variable {fds : Fds} {sh : Nat}

theorem Inherited.free (inherited : Inherited fds) {fd : Nat} (high : 3 ≤ fd) : fds fd = none := by
  cases taken : fds fd with
  | none => rfl
  | some file =>
      have low := (inherited fd file taken).1
      omega

theorem console_fds (free : ∀ fd, 3 ≤ fd → fds fd = none) (taken : ∀ fd, fd < 3 → fds fd ≠ none) :
    (console fds).fds = fds := by
  have some' {fd : Nat} (low : fd < 3) : some ((fds fd).getD (.other 0)) = fds fd := by
    cases shape : fds fd with
    | none => exact absurd shape (taken fd low)
    | some file => rfl
  funext fd
  match fd with
  | 0 => exact some' (by decide)
  | 1 => exact some' (by decide)
  | 2 => exact some' (by decide)
  | fd + 3 => exact (free (fd + 3) (by omega)).symm

theorem console_update {k : Nat} (free : fds k = none) :
    console (Function.update fds k (some (.other 0))) = console fds := by
  have same (j : Nat) : (Function.update fds k (some (File.other 0)) j).getD (.other 0) =
      (fds j).getD (.other 0) := by
    by_cases own : j = k
    · rw [own, Function.update_self, free]
      rfl
    · rw [Function.update_of_ne own]
  unfold console
  rw [same, same, same]

/-- The first loop opens the standard descriptors that are missing.  Below `k` there are none. -/
theorem openConsole_eq {fuel k : Nat} (free : ∀ fd, 3 ≤ fd → fds fd = none)
    (taken : ∀ fd, fd < k → fds fd ≠ none) (small : k ≤ 3) (enough : 4 ≤ fuel + k) :
    openConsole fuel fds = (console fds).fds := by
  induction fuel generalizing fds k with
  | zero => omega
  | succ fuel ih =>
      have some' : ∃ j, fds j = none := ⟨3, free 3 le_rfl⟩
      obtain ⟨j, none', least⟩ : ∃ j, fds j = none ∧ ∀ i, i < j → fds i ≠ none :=
        ⟨Nat.find some', Nat.find_spec some', fun i less => Nat.find_min some' less⟩
      have above : k ≤ j := by
        by_contra less
        exact taken j (by omega) none'
      have below : j ≤ 3 := by
        by_contra more
        exact least 3 (by omega) (free 3 le_rfl)
      have found : lowest fds = some j := lowest_eq none' (below.trans_lt (by decide)) least
      rw [openConsole, found]
      dsimp only
      split
      · have three : j = 3 := by omega
        subst three
        rw [Function.update_idem, ← none', Function.update_eq_self]
        exact (console_fds free least).symm
      · rw [← console_update none']
        refine ih (k := j + 1) (fun fd high => ?_) (fun fd less => ?_) (by omega) (by omega)
        · rw [Function.update_of_ne (by omega)]
          exact free fd high
        · by_cases own : fd = j
          · rw [own, Function.update_self]
            exact Option.some_ne_none _
          · rw [Function.update_of_ne own]
            exact least fd (by omega)

theorem Inherited.outer (inherited : Inherited fds) : (console fds).Outer := by
  have near (fd : Nat) (place : Place) : Near place ((fds fd).getD (.other 0)) := by
    cases shape : fds fd with
    | none => trivial
    | some file =>
        obtain ⟨_, n, rfl⟩ := inherited fd file shape
        trivial
  exact fun place => ⟨near 0 place, near 1 place, near 2 place⟩

theorem Boots.only {y : Nat} {q : Proc} (boots : Boots session fds sh s) (found : s y = some q) :
    y = sh ∧ q = ⟨.shell (mainLoop 0 session), ⟨openConsole 4 fds, 0, 0, [], false⟩, none,
      .foreground, 0⟩ := by
  obtain rfl : s = _ := boots
  by_cases own : y = sh
  · subst own
    rw [Function.update_self] at found
    exact ⟨rfl, (Option.some.inj found).symm⟩
  · rw [Function.update_of_ne own] at found
    cases found

theorem Boots.sound (boots : Boots session fds sh s) (typed : Typed session)
    (inherited : Inherited fds) : Sound session (console fds) s := by
  have standard : ∀ cmd ∈ session, cmd.Standard := by
    intro cmd member
    obtain ⟨line, fuel, buf, parsed⟩ := typed cmd member
    exact parsecmd_standard parsed
  have opened : openConsole 4 fds = (console fds).fds :=
    openConsole_eq (k := 0) (fun _ high => inherited.free high) (by omega) (by omega) (by omega)
  refine ⟨fun found => ?_, ⟨fun found child => ?_, fun found member => ?_, fun found => ?_⟩⟩
  · obtain ⟨_, rfl⟩ := boots.only found
    exact mainLoop_meets rfl standard opened rfl rfl
  · obtain ⟨q, there, rfl⟩ := of_kins found
    obtain ⟨_, rfl⟩ := boots.only there
    cases child
  · obtain ⟨q, there, rfl⟩ := of_kins found
    obtain ⟨_, rfl⟩ := boots.only there
    cases member
  · obtain ⟨q, there, rfl⟩ := of_kins found
    obtain ⟨_, rfl⟩ := boots.only there
    exact List.nodup_nil

theorem sound_of_reachable (typed : Typed session) (inherited : Inherited fds)
    (reached : (machine session fds sh).Reachable s) : Sound session (console fds) s := by
  obtain ⟨start, labels, boots, run⟩ := reached
  exact run.preserves (P := Sound session (console fds))
    (fun sound step => Sound.step sound inherited.outer step) (Boots.sound boots typed inherited)

end SlabStudy.Xv6.Shell
