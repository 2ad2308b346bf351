import Mathlib.Data.List.TakeWhile
import SlabStudy.Xv6.SelfLock

/-!
# Paths by their components

`skipelem` delivers the components of a path, and `namei` follows them: it is a
fold of lookups over the components.  `nameiparent` stops in front of the last
component.  Both take a reference to the inode they return, and leave all other
references as they are.
-/

namespace SlabStudy.Xv6

/-! ## Components -/

/-- The nonempty parts of a path between its slashes, cut to the length of a name on disk. -/
def components (path : List Char) : List Name :=
  ((path.splitOn '/').filter fun part => !part.isEmpty).map (List.take dirsiz)

/-- `skipelem`, called until it returns 0, delivers these names. -/
inductive Elements : List Char → List Name → Prop where
  | stop {path : List Char} (last : skipelem path = none) : Elements path []
  | next {path rest : List Char} {name : Name} {names : List Name}
      (element : skipelem path = some (name, rest)) (more : Elements rest names) :
      Elements path (name :: names)

theorem components_slash (path : List Char) : components ('/' :: path) = components path := by
  have split := List.splitOn_append_cons_self_of_not_mem (a := '/') (List.not_mem_nil) path
  rw [List.nil_append] at split
  rw [components, split]
  rfl

theorem components_dropWhile (path : List Char) :
    components (path.dropWhile (· == '/')) = components path := by
  induction path with
  | nil => rfl
  | cons c path ih =>
      by_cases slash : c = '/'
      · subst slash
        rw [components_slash]
        exact ih
      · rw [List.dropWhile_cons_of_neg (by simpa using slash)]

/-- The characters up to the next slash are one component. -/
theorem components_word {word rest : List Char} (plain : '/' ∉ word) (nonempty : word ≠ [])
    (ends : rest = [] ∨ ∃ later, rest = '/' :: later) :
    components (word ++ rest) = word.take dirsiz :: components rest := by
  have kept : (fun part : List Char => !part.isEmpty) word = true := by simpa using nonempty
  obtain rfl | ⟨later, rfl⟩ := ends
  · rw [List.append_nil, components, List.splitOn_eq_singleton plain, List.filter_cons_of_pos (p := fun part : List Char => !part.isEmpty) kept]
    rfl
  · rw [components_slash, components, List.splitOn_append_cons_self_of_not_mem plain,
      List.filter_cons_of_pos (p := fun part : List Char => !part.isEmpty) kept]
    rfl

/-- What `skipelem` leaves in front of the next element. -/
theorem skipelem_cases (path : List Char) :
    (skipelem path = none ∧ components path = []) ∨
      ∃ name rest, skipelem path = some (name, rest) ∧ components path = name :: components rest ∧
        rest.length < path.length := by
  have shorter := (List.dropWhile_sublist (· == '/') (l := path)).length_le
  have same := components_dropWhile path
  unfold skipelem
  revert shorter same
  generalize trimmed : path.dropWhile (· == '/') = text
  intro shorter same
  cases text with
  | nil => exact .inl ⟨rfl, same.symm⟩
  | cons c later =>
      have word : c ≠ '/' := by
        have first := List.head?_dropWhile_not (· == '/') path
        rw [trimmed] at first
        simpa using first
      have split := List.takeWhile_append_dropWhile (p := (· != '/')) (l := c :: later)
      have nonempty : (c :: later).takeWhile (· != '/') ≠ [] := by
        rw [List.takeWhile_cons_of_pos (by simpa using word)]
        exact List.cons_ne_nil _ _
      have plain : '/' ∉ (c :: later).takeWhile (· != '/') := by
        intro slash
        have passes := List.mem_takeWhile_imp slash
        simp at passes
      have ends : (c :: later).dropWhile (· != '/') = [] ∨
          ∃ rest, (c :: later).dropWhile (· != '/') = '/' :: rest := by
        cases left : (c :: later).dropWhile (· != '/') with
        | nil => exact .inl rfl
        | cons d rest =>
            have stops := List.head?_dropWhile_not (· != '/') (c :: later)
            rw [left] at stops
            refine .inr ⟨rest, ?_⟩
            have slash : d = '/' := by simpa using stops
            rw [slash]
      refine .inr ⟨_, _, if_neg (List.cons_ne_nil _ _), ?_, ?_⟩
      · rw [← same, components_dropWhile, ← components_word plain nonempty ends, split]
      · have left := (List.dropWhile_sublist (· == '/')
          (l := (c :: later).dropWhile (· != '/'))).length_le
        have total := congrArg List.length split
        have some := List.length_pos_iff.mpr nonempty
        rw [List.length_append] at total
        omega

/-- The iteration ends, and delivers the components of the path. -/
theorem elements_components {n : Nat} {path : List Char} (enough : path.length ≤ n) :
    elements n path = components path ∧ Elements path (components path) := by
  induction n generalizing path with
  | zero =>
      obtain rfl : path = [] := List.length_eq_zero_iff.mp (Nat.le_zero.mp enough)
      exact ⟨rfl, .stop rfl⟩
  | succ n ih =>
      rw [elements]
      rcases skipelem_cases path with ⟨last, none⟩ | ⟨name, rest, element, parts, shorter⟩
      · rw [last, none]
        exact ⟨rfl, .stop last⟩
      · obtain ⟨later, more⟩ := @ih rest (by omega)
        rw [element, parts]
        exact ⟨by rw [← later], .next element more⟩

theorem pathElements_eq (path : List Char) : pathElements path = components path :=
  (elements_components (Nat.le_refl _)).1

/-! ## Lookups along a path -/

namespace Image

variable {m : Image} {i : Nat} {names : List Name}

/-- The inode that a name leads to from inode `d`, if that is a directory with this name. -/
def child (m : Image) (d : Nat) (name : Name) : Option Nat :=
  if (m.node d).type = .dir then
    ((m.node d).lookup name).map fun off => ((m.node d).entry off).inum
  else none

/-- The inode that the names lead to, one after the other. -/
def resolve (m : Image) (i : Nat) (names : List Name) : Option Nat := names.foldlM m.child i

/-- The directory of the last name, and this name. -/
def resolveParent (m : Image) (i : Nat) (names : List Name) : Option (Nat × Name) :=
  match names.getLast? with
  | none => none
  | some last => (m.resolve i names.dropLast).bind fun d =>
      if (m.node d).type = .dir then some (d, last) else none

theorem resolve_cons (m : Image) (i : Nat) (name : Name) (names : List Name) :
    m.resolve i (name :: names) = (m.child i name).bind fun j => m.resolve j names :=
  List.foldlM_cons

theorem child_eq_none {d : Nat} {name : Name} : m.child d name = none ↔
    (m.node d).type ≠ .dir ∨ (m.node d).lookup name = none := by
  unfold child
  split
  · next directory =>
    rw [Option.map_eq_none_iff, directory]
    simp
  · next other =>
    exact iff_of_true rfl (.inl other)

/-- A resolution fails at the first name that leads nowhere. -/
theorem resolve_eq_none : m.resolve i names = none ↔
    ∃ front name back d, names = front ++ name :: back ∧ m.resolve i front = some d ∧
      ((m.node d).type ≠ .dir ∨ (m.node d).lookup name = none) := by
  induction names generalizing i with
  | nil =>
      refine iff_of_false nofun ?_
      rintro ⟨front, name, back, d, parts, _⟩
      cases front <;> cases parts
  | cons name names ih =>
      rw [resolve_cons]
      cases here : m.child i name with
      | none => exact iff_of_true rfl ⟨[], name, names, i, rfl, rfl, child_eq_none.mp here⟩
      | some j =>
          rw [Option.bind_some, ih]
          constructor
          · rintro ⟨front, other, back, d, rfl, reached, stuck⟩
            refine ⟨name :: front, other, back, d, rfl, ?_, stuck⟩
            rw [resolve_cons, here, Option.bind_some, reached]
          · rintro ⟨front, other, back, d, parts, reached, stuck⟩
            cases front with
            | nil =>
                cases parts
                cases reached
                rw [child_eq_none.mpr stuck] at here
                cases here
            | cons first front =>
                cases parts
                rw [resolve_cons, here, Option.bind_some] at reached
                exact ⟨front, other, back, d, rfl, reached, stuck⟩

theorem resolveParent_cons (m : Image) (i : Nat) (name : Name) {names : List Name}
    (more : names ≠ []) :
    m.resolveParent i (name :: names) = (m.child i name).bind fun j => m.resolveParent j names := by
  obtain ⟨front, last, rfl⟩ := List.eq_nil_or_concat names |>.resolve_left more
  simp only [resolveParent, List.concat_eq_append, ← List.cons_append, List.getLast?_concat,
    List.dropLast_concat]
  rw [resolve_cons, Option.bind_assoc]

end Image

namespace Fs

variable {P : Type} {s : Fs P} {i : Nat} {v : Bool} {names : List Name}

/-- The walk of `namei` is the resolution. -/
theorem walk_resolve {found : Option Target} (ends : s.walk false i v names = .ok found) :
    found.map Target.inum = s.resolve i names := by
  induction names generalizing i v with
  | nil =>
      cases ends
      rfl
  | cons name rest ih =>
      rw [Image.resolve_cons, Image.child]
      simp only [walk, Bool.false_eq_true, false_and, if_false] at ends
      split at ends
      · cases ends
      · by_cases directory : (s.node i).type = .dir
        · rw [if_neg (not_not.mpr directory)] at ends
          rw [if_pos directory]
          cases found' : (s.node i).lookup name with
          | none =>
              rw [found'] at ends
              cases ends
              rfl
          | some off =>
              rw [found'] at ends
              dsimp only at ends
              split at ends
              · exact ih ends
              · cases ends
        · rw [if_pos directory] at ends
          cases ends
          rw [if_neg directory]
          rfl

/-- The walk of `nameiparent` is the resolution up to the last name. -/
theorem walk_resolveParent {found : Option Target} (ends : s.walk true i v names = .ok found) :
    (found.map fun target => (target.inum, target.name)) = s.resolveParent i names := by
  induction names generalizing i v with
  | nil =>
      cases ends
      rfl
  | cons name rest ih =>
      simp only [walk, true_and] at ends
      split at ends
      · cases ends
      · by_cases directory : (s.node i).type = .dir
        · rw [if_neg (not_not.mpr directory)] at ends
          by_cases last : rest = []
          · rw [if_pos last] at ends
            cases ends
            subst last
            exact (if_pos directory).symm
          · rw [if_neg last] at ends
            rw [Image.resolveParent_cons _ _ _ last, Image.child, if_pos directory]
            cases found' : (s.node i).lookup name with
            | none =>
                rw [found'] at ends
                cases ends
                rfl
            | some off =>
                rw [found'] at ends
                dsimp only at ends
                split at ends
                · exact ih ends
                · cases ends
        · rw [if_pos directory] at ends
          cases ends
          by_cases last : rest = []
          · subst last
            exact (if_neg directory).symm
          · rw [Image.resolveParent_cons _ _ _ last, Image.child, if_neg directory]
            rfl

/-- A call occupies at most one more entry of the cache for the directory it has locked. -/
theorem active_take (s : Fs P) (i : Nat) : (s.take i).active ≤ s.active + 1 := by
  have subset : ((List.range s.ninodes).filter fun k => decide (0 < (s.take i).ref k)) ⊆
      i :: (List.range s.ninodes).filter fun k => decide (0 < s.ref k) := by
    intro k member
    obtain ⟨inside, held⟩ := List.mem_filter.mp member
    by_cases same : k = i
    · exact List.mem_cons.mpr (.inl same)
    · refine List.mem_cons_of_mem _ (List.mem_filter.mpr ⟨inside, ?_⟩)
      simpa [take, grab, Function.update_of_ne same] using held
  exact (List.subperm_of_subset (List.nodup_range.filter _) subset).length_le

/-- Why a walk does not end: `iget` finds the cache full, or `ilock` an inode without type. -/
inductive Blocked (s : Fs P) (start : Nat) (names : List Name) : Fault → Prop where
  | full (few : ninode ≤ s.active + 1) : Blocked s start names .noInodes
  | typeless {front back : List Name} {d : Nat} (parts : names = front ++ back) (more : back ≠ [])
      (reached : s.resolve start front = some d) (free : (s.node d).type = .free) :
      Blocked s start names .noType

theorem walk_blocked {parent : Bool} {fault : Fault}
    (stops : s.walk parent i v names = .error fault) : s.Blocked i names fault := by
  induction names generalizing i v with
  | nil =>
      unfold walk at stops
      split at stops <;> cases stops
  | cons name rest ih =>
      simp only [walk] at stops
      split at stops
      · next free =>
        cases stops
        exact @Blocked.typeless _ _ _ _ [] _ i rfl (List.cons_ne_nil _ _) rfl free.2
      · split at stops
        · cases stops
        · next directory =>
          have directory := not_not.mp directory
          split at stops
          · cases stops
          · cases found : (s.node i).lookup name with
            | none =>
                rw [found] at stops
                cases stops
            | some off =>
                rw [found] at stops
                dsimp only at stops
                have here : s.child i name = some ((s.node i).entry off).inum := by
                  rw [Image.child, if_pos directory, found]
                  rfl
                split at stops
                · cases ih stops with
                  | full few => exact .full few
                  | @typeless front back d parts more reached free =>
                      refine @Blocked.typeless _ _ _ _ (name :: front) back d
                        (congrArg (name :: ·) parts) more ?_ free
                      rw [Image.resolve_cons, here]
                      exact reached
                · next full =>
                  cases stops
                  have occupied := active_take s i
                  refine .full ?_
                  unfold Room at full
                  omega

/-- The inode at which the resolution of a path starts. -/
def startOf (cwd : Nat) (path : List Char) : Nat := if path.head? = some '/' then rootino else cwd

section Find

variable {p : P} {cwd : Nat} {path : List Char} {parent : Bool}

theorem find_walk (running : s.cwd p = some cwd) {found : Option Target}
    (ends : s.find p path parent = .ok found) :
    ∃ v, s.walk parent (startOf cwd path) v (components path) = .ok found := by
  rw [find, running, pathElements_eq] at ends
  rw [startOf]
  split at ends
  · next absolute =>
    rw [if_pos absolute]
    split at ends
    · exact ⟨_, ends⟩
    · cases ends
  · next relative =>
    rw [if_neg relative]
    exact ⟨_, ends⟩

theorem find_blocked (running : s.cwd p = some cwd) {fault : Fault}
    (stops : s.find p path parent = .error fault) :
    s.Blocked (startOf cwd path) (components path) fault := by
  rw [find, running, pathElements_eq] at stops
  rw [startOf]
  split at stops
  · next absolute =>
    rw [if_pos absolute]
    split at stops
    · exact walk_blocked stops
    · next full =>
      cases stops
      refine .full ?_
      unfold Room at full
      omega
  · next relative =>
    rw [if_neg relative]
    exact walk_blocked stops

end Find

/-- After a call `t` differs from `s` by one more reference to the inode found. -/
structure Holding (s : Fs P) (found : Option Nat) (t : Fs P) : Prop where
  image : t.toImage = s.toImage
  ref : ∀ k, t.ref k = s.ref k + if found = some k then 1 else 0
  locked : t.locked = s.locked
  cwd : t.cwd = s.cwd
  ofile : t.ofile = s.ofile

theorem Holding.none (s : Fs P) : s.Holding none s :=
  ⟨rfl, fun _ => rfl, rfl, rfl, rfl⟩

theorem Holding.grab (s : Fs P) (i : Nat) (v : Bool) : s.Holding (some i) (s.grab i v) := by
  refine ⟨rfl, fun k => ?_, rfl, rfl, rfl⟩
  by_cases same : k = i
  · subst same
    simp [Fs.grab]
  · have other : some i ≠ some k := fun eq => same (Option.some.inj eq).symm
    simp [Fs.grab, Function.update_of_ne same, other]

variable {p : P} {cwd : Nat} {path : List Char}

theorem namei_resolve (settled : s.Settled) (running : s.cwd p = some cwd) {found : Option Nat}
    {t : Fs P} (ran : s.namei p path = .ok (found, t)) :
    found = s.resolve (startOf cwd path) (components path) ∧ s.Holding found t := by
  rw [namei_eq settled] at ran
  cases ends : s.find p path false with
  | error fault =>
      rw [ends] at ran
      cases ran
  | ok target =>
      obtain ⟨v, walked⟩ := find_walk running ends
      have target_eq := walk_resolve walked
      rw [ends] at ran
      cases target with
      | none =>
          cases ran
          exact ⟨target_eq, .none s⟩
      | some target =>
          cases ran
          exact ⟨target_eq, .grab s _ _⟩

theorem nameiparent_resolve (settled : s.Settled) (running : s.cwd p = some cwd)
    {found : Option (Nat × Name)} {t : Fs P} (ran : s.nameiparent p path = .ok (found, t)) :
    found = s.resolveParent (startOf cwd path) (components path) ∧
      s.Holding (found.map Prod.fst) t := by
  rw [nameiparent, namex_eq settled] at ran
  cases ends : s.find p path true with
  | error fault =>
      rw [ends] at ran
      cases ran
  | ok target =>
      obtain ⟨v, walked⟩ := find_walk running ends
      have target_eq := walk_resolveParent walked
      rw [ends] at ran
      cases target with
      | none =>
          cases ran
          exact ⟨target_eq, .none s⟩
      | some target =>
          cases ran
          exact ⟨target_eq, .grab s _ _⟩

theorem namex_blocked (settled : s.Settled) (running : s.cwd p = some cwd) {parent : Bool}
    {fault : Fault} (stops : s.namex p path parent = .error fault) :
    s.Blocked (startOf cwd path) (components path) fault := by
  rw [namex_eq settled] at stops
  cases ends : s.find p path parent with
  | error reason =>
      rw [ends] at stops
      cases stops
      exact find_blocked running ends
  | ok target =>
      rw [ends] at stops
      cases target <;> cases stops

variable [Fintype P] [DecidableEq P]

/-- In every state that the calls can reach, and for every path: `skipelem` delivers its
components, `namei` returns the inode that they lead to and fails exactly if one of them leads
nowhere, `nameiparent` returns the directory of the last one, no reference count changes but
that of the inode returned, and a call does not return only if it finds the inode cache full or
meets an inode that was freed. -/
theorem path_resolution (reached : (fsSystem P).Reachable s) (running : s.cwd p = some cwd)
    (path : List Char) :
    Elements path (components path) ∧
    (∀ found t, s.namei p path = .ok (found, t) →
      found = s.resolve (startOf cwd path) (components path) ∧ s.Holding found t) ∧
    (s.resolve (startOf cwd path) (components path) = none ↔
      ∃ front name back d, components path = front ++ name :: back ∧
        s.resolve (startOf cwd path) front = some d ∧
        ((s.node d).type ≠ .dir ∨ (s.node d).lookup name = none)) ∧
    (∀ found t, s.nameiparent p path = .ok (found, t) → s.Holding (found.map Prod.fst) t ∧
      (components path = [] → found = none) ∧
      ∀ front last, components path = front ++ [last] →
        found = (s.resolve (startOf cwd path) front).bind fun d =>
          if (s.node d).type = .dir then some (d, last) else none) ∧
    ∀ fault, s.namei p path = .error fault ∨ s.nameiparent p path = .error fault →
      s.Blocked (startOf cwd path) (components path) fault := by
  have settled := (reachable_ready reached).settled
  refine ⟨(elements_components (Nat.le_refl _)).2,
    fun found t ran => namei_resolve settled running ran, Image.resolve_eq_none,
    fun found t ran => ?_, fun fault stops => ?_⟩
  · obtain ⟨result, holding⟩ := nameiparent_resolve settled running ran
    refine ⟨holding, fun none => ?_, fun front last parts => ?_⟩
    · rw [result, none]
      rfl
    · rw [result, parts, Image.resolveParent, List.getLast?_concat, List.dropLast_concat]
  · rcases stops with stops | stops
    · rw [namei] at stops
      cases walked : s.namex p path false with
      | error reason =>
          rw [walked] at stops
          cases stops
          exact namex_blocked settled running walked
      | ok result =>
          rw [walked] at stops
          cases stops
    · exact namex_blocked settled running stops

/-- The first process resolves a path with repeated slashes to the root directory. -/
theorem path_resolution_dots : Elements "//.///..".toList [['.'], ['.', '.']] ∧
    ∃ t, ((mkfs []).boot fun _ : Fin 1 => true).namei 0 "//.///..".toList = .ok (some rootino, t) ∧
      t.ref rootino = 2 := by
  have running : ((mkfs []).boot fun _ : Fin 1 => true).cwd 0 = some rootino := rfl
  obtain ⟨parts, resolved, _⟩ :=
    path_resolution (boot_reachable fun _ : Fin 1 => true) running "//.///..".toList
  have names : components "//.///..".toList = [['.'], ['.', '.']] := by decide +kernel
  have run : (match ((mkfs []).boot fun _ : Fin 1 => true).namei 0 "//.///..".toList with
      | .ok (found, _) => decide (found = some rootino)
      | .error _ => false) = true := by decide +kernel
  refine ⟨names ▸ parts, ?_⟩
  split at run
  · next found t walked =>
    obtain rfl := of_decide_eq_true run
    refine ⟨t, walked, ?_⟩
    rw [(resolved _ t walked).2.ref, if_pos rfl]
    decide
  · cases run

end Fs

end SlabStudy.Xv6
