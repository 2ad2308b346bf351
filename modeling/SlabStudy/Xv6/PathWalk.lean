import SlabStudy.Xv6.Directory

/-!
# What a path walk leaves behind

Between two calls no lock is held, and exactly the inodes with references have
been read.  On such a state the functions of the inode cache that a call makes
in pairs cancel: the state inside a call is the state before it with some
inodes grabbed, or taken, which also locks them.  `namex` is then the walk of
the names through the directories, which changes nothing but the reference to
the inode it finds.
-/

namespace SlabStudy.Xv6

namespace Fs

variable {P : Type} {s : Fs P} {i j : Nat} {v : Bool}

/-! ## References in flight -/

/-- One more reference to an inode; `v` says whether it has been read. -/
def grab (s : Fs P) (i : Nat) (v : Bool) : Fs P :=
  { s with
    ref := Function.update s.ref i (s.ref i + 1)
    valid := Function.update s.valid i v }

/-- An inode that the call has locked. -/
def take (s : Fs P) (i : Nat) : Fs P :=
  { s.grab i true with locked := Function.update s.locked i true }

def free (s : Fs P) (i : Nat) : Fs P :=
  s.setNode i { s.node i with type := .free, entries := [] }

/-- Free an inode that has neither links nor references. -/
def reap (s : Fs P) (i : Nat) : Fs P :=
  if (s.node i).nlink = 0 ∧ s.ref i = 0 then s.free i else s

/-- The entries of the cache that are in use have been read. -/
def Cached (s : Fs P) : Prop := ∀ i, s.valid i = decide (0 < s.ref i)

theorem Cached.valid_iff (cached : s.Cached) : s.valid i = true ↔ 0 < s.ref i := by
  simp [cached i]

theorem Cached.invalid_iff (cached : s.Cached) : s.valid i = false ↔ s.ref i = 0 := by
  simp [cached i]

theorem Cached.grab (cached : s.Cached) : (s.grab i true).Cached := by
  intro k
  by_cases same : k = i
  · subst same
    simp [Fs.grab]
  · simpa [Fs.grab, Function.update_of_ne same] using cached k

theorem Cached.take (cached : s.Cached) : (s.take i).Cached := cached.grab

theorem Cached.reap (cached : s.Cached) : (s.reap i).Cached := by
  unfold Fs.reap
  split
  · exact cached
  · exact cached

theorem take_grab (read : j = i → v = true) : (s.take i).grab j v = (s.grab j v).take i := by
  by_cases same : j = i
  · subst same
    simp [Fs.take, Fs.grab, read rfl]
  · have other : i ≠ j := fun h => same h.symm
    simp [Fs.take, Fs.grab, Function.update_of_ne same, Function.update_of_ne other,
      Function.update_comm other]

theorem take_comm (other : i ≠ j) : (s.take i).take j = (s.take j).take i := by
  simp [Fs.take, Fs.grab, Function.update_of_ne other, Function.update_of_ne other.symm,
    Function.update_comm other]

/-! ## The functions of the inode cache -/

/-- The cache can hold `j` beside what it holds. -/
def Room (s : Fs P) (j : Nat) : Prop := 0 < s.ref j ∨ s.active < ninode

instance (s : Fs P) (j : Nat) : Decidable (s.Room j) :=
  inferInstanceAs (Decidable (_ ∨ _))

theorem iget_eq (cached : s.Cached) :
    s.iget i = if s.Room i then .ok (s.grab i (s.valid i)) else .error .noInodes := by
  unfold iget Room
  by_cases held : 0 < s.ref i
  · simp [held, grab]
  · have none : s.ref i = 0 := by omega
    have unread : s.valid i = false := cached.invalid_iff.mpr none
    simp [none, grab, unread]

theorem idup_eq : s.idup i = s.grab i (s.valid i) := by
  simp [idup, grab]

theorem ilock_grab (unlocked : s.locked i = false) :
    (s.grab i v).ilock i =
      if v = false ∧ (s.node i).type = .free then .error .noType else .ok (s.take i) := by
  cases v <;> simp [ilock, grab, take, unlocked]

theorem iunlock_take (unlocked : s.locked i = false) :
    (s.take i).iunlock i = .ok (s.grab i true) := by
  have back : Function.update s.locked i false = s.locked := by
    rw [← unlocked, Function.update_eq_self]
  simp [iunlock, take, grab, back]

theorem iput_grab (read : s.valid i = decide (0 < s.ref i)) (unlocked : s.locked i = false) :
    (s.grab i true).iput i = .ok (s.reap i) := by
  have again : Function.update s.valid i (decide (0 < s.ref i)) = s.valid := by
    rw [← read, Function.update_eq_self]
  by_cases last : (s.node i).nlink = 0 ∧ s.ref i = 0
  · obtain ⟨links, refs⟩ := last
    rw [refs] at again
    have back : Function.update s.ref i 0 = s.ref := by rw [← refs, Function.update_eq_self]
    simp_all [iput, grab, reap, free, setNode]
  · simp [iput, grab, reap, unlocked, last, again]

theorem iput_grab_unread (unread : s.valid i = false) (none : s.ref i = 0)
    (unlocked : s.locked i = false) : (s.grab i false).iput i = .ok s := by
  have back : Function.update s.ref i 0 = s.ref := by rw [← none, Function.update_eq_self]
  have same : Function.update s.valid i false = s.valid := by
    rw [← unread, Function.update_eq_self]
  simp [iput, grab, unlocked, unread, none, back, same]

theorem iunlockput_take (read : s.valid i = decide (0 < s.ref i)) (unlocked : s.locked i = false) :
    (s.take i).iunlockput i = .ok (s.reap i) := by
  have put := iput_grab read unlocked
  simp only [iunlockput, iunlock_take unlocked]
  exact put

/-! ## The state between two calls -/

/-- No lock is held, an inode with references is allocated, and numbers fit their fields. -/
structure Calm (s : Fs P) : Prop where
  cached : s.Cached
  unlocked : ∀ i, s.locked i = false
  held : ∀ i, 0 < s.ref i → (s.node i).type ≠ .free
  fits : ∀ i, short (s.node i).nlink = (s.node i).nlink
  inside : ∀ i, (s.node i).type ≠ .free → 0 < i ∧ i < s.ninodes
  few : s.ninodes ≤ 65536

/-- The inode is in use: it has links, or references. -/
def Kept (s : Fs P) (i : Nat) : Prop :=
  (s.node i).type ≠ .free → (s.node i).nlink = 0 → 0 < s.ref i

/-- Every allocated inode is in use. -/
structure Settled (s : Fs P) : Prop extends Calm s where
  kept : ∀ i, s.Kept i

theorem Kept.grab (kept : s.Kept j) : (s.grab i v).Kept j := by
  intro allocated links
  have held := kept allocated links
  by_cases same : j = i
  · subst same
    simp [Fs.grab]
  · simpa [Fs.grab, Function.update_of_ne same] using held

theorem reap_of_kept (kept : s.Kept i) (allocated : (s.node i).type ≠ .free) : s.reap i = s := by
  refine if_neg ?_
  rintro ⟨links, refs⟩
  have held := kept allocated links
  omega

theorem Calm.grab (calm : s.Calm) (allocated : (s.node i).type ≠ .free) :
    (s.grab i true).Calm where
  cached := calm.cached.grab
  unlocked := calm.unlocked
  held j references := by
    by_cases same : j = i
    · subst same
      exact allocated
    · exact calm.held j (by simpa [Fs.grab, Function.update_of_ne same] using references)
  fits := calm.fits
  inside := calm.inside
  few := calm.few

theorem Settled.grab (settled : s.Settled) (allocated : (s.node i).type ≠ .free) :
    (s.grab i true).Settled where
  toCalm := settled.toCalm.grab allocated
  kept j := (settled.kept j).grab

theorem Settled.allocated_of_valid (settled : s.Settled) (read : s.valid i = true) :
    (s.node i).type ≠ .free :=
  settled.held i (settled.cached.valid_iff.mp read)

/-- Giving up a locked inode that is in use changes nothing. -/
theorem Settled.iunlockput_take (settled : s.Settled) (allocated : (s.node i).type ≠ .free) :
    (s.take i).iunlockput i = .ok s := by
  rw [Fs.iunlockput_take (settled.cached i) (settled.unlocked i),
    reap_of_kept (settled.kept i) allocated]

/-- So does giving up a reference. -/
theorem iput_grab_kept (cached : s.Cached) (unlocked : s.locked i = false) (kept : s.Kept i)
    (known : s.valid i = true → v = true) (allocated : v = true → (s.node i).type ≠ .free) :
    (s.grab i v).iput i = .ok s := by
  cases v with
  | false =>
      have unread : s.valid i = false := by simpa using known
      exact iput_grab_unread unread (cached.invalid_iff.mp unread) unlocked
  | true => rw [iput_grab (cached i) unlocked, reap_of_kept kept (allocated rfl)]

theorem Settled.iput_grab (settled : s.Settled) (known : s.valid i = true → v = true)
    (allocated : v = true → (s.node i).type ≠ .free) : (s.grab i v).iput i = .ok s :=
  iput_grab_kept settled.cached (settled.unlocked i) (settled.kept i) known allocated

/-! ## The walk -/

/-- The inode a walk ends at, whether it has been read, and the name that is left. -/
structure Target where
  inum : Nat
  valid : Bool
  name : Name

/-- Follow the names from inode `i`; `v` says whether `i` has been read. -/
def walk (s : Fs P) (parent : Bool) : Nat → Bool → List Name → Except Fault (Option Target)
  | i, v, [] => if parent then .ok none else .ok (some ⟨i, v, []⟩)
  | i, v, name :: rest =>
      if v = false ∧ (s.node i).type = .free then .error .noType
      else if (s.node i).type ≠ .dir then .ok none
      else if parent ∧ rest = [] then .ok (some ⟨i, true, name⟩)
      else
        match (s.node i).lookup name with
        | none => .ok none
        | some off =>
            let j := ((s.node i).entry off).inum
            if (s.take i).Room j then s.walk parent j ((s.take i).valid j) rest
            else .error .noInodes

/-- Follow a path from the root or from the current directory. -/
def find (s : Fs P) (p : P) (path : List Char) (parent : Bool) : Except Fault (Option Target) :=
  if path.head? = some '/' then
    if s.Room rootino then s.walk parent rootino (s.valid rootino) (pathElements path)
    else .error .noInodes
  else
    match s.cwd p with
    | some cwd => s.walk parent cwd (s.valid cwd) (pathElements path)
    | none => .error .noCwd

/-- What `namex` returns when the walk ends so: a reference to the inode found. -/
def arrive (s : Fs P) :
    Except Fault (Option Target) → Except Fault (Option (Nat × Name) × Fs P)
  | .error fault => .error fault
  | .ok none => .ok (none, s)
  | .ok (some target) => .ok (some (target.inum, target.name), s.grab target.inum target.valid)

theorem take_valid (j : Nat) (same : j = i) : (s.take i).valid j = true := by
  subst same
  simp [take, grab]

theorem take_known (read : s.valid j = true) : (s.take i).valid j = true := by
  by_cases same : j = i
  · exact take_valid j same
  · simpa [take, grab, Function.update_of_ne same] using read

theorem Settled.allocated_of_take (settled : s.Settled) (allocated : (s.node i).type ≠ .free)
    (read : (s.take i).valid j = true) : (s.node j).type ≠ .free := by
  by_cases same : j = i
  · rw [same]
    exact allocated
  · refine settled.allocated_of_valid ?_
    simpa [Fs.take, Fs.grab, Function.update_of_ne same] using read

/-- `dirlookup` in a directory that the caller has locked. -/
theorem dirlookup_take (cached : s.Cached) (name : Name) (directory : (s.node i).type = .dir) :
    (s.take i).dirlookup i name =
      match (s.node i).lookup name with
      | none => .ok (none, s.take i)
      | some off =>
          let j := ((s.node i).entry off).inum
          if (s.take i).Room j then
            .ok (some (off, j), (s.grab j ((s.take i).valid j)).take i)
          else .error .noInodes := by
  have node : (s.take i).node = s.node := rfl
  simp only [dirlookup, node, directory, ne_eq, not_true_eq_false, if_false]
  cases (s.node i).lookup name with
  | none => rfl
  | some off =>
      dsimp only
      generalize ((s.node i).entry off).inum = j
      rw [iget_eq cached.take, ← take_grab (take_valid j)]
      by_cases room : (s.take i).Room j
      · rw [if_pos room, if_pos room]
        rfl
      · rw [if_neg room, if_neg room]
        rfl

/-- Giving up the directory leaves the reference to the inode found in it. -/
theorem Settled.iunlockput_found (settled : s.Settled) (allocated : (s.node i).type ≠ .free)
    (found : j = i → v = true) : ((s.grab j v).take i).iunlockput i = .ok (s.grab j v) := by
  have read : (s.grab j v).valid i = decide (0 < (s.grab j v).ref i) := by
    by_cases same : i = j
    · subst same
      simp [Fs.grab, found rfl]
    · simpa [Fs.grab, Function.update_of_ne same] using settled.cached i
  rw [Fs.iunlockput_take read (settled.unlocked i), reap_of_kept (settled.kept i).grab allocated]

/-- The loop of `namex` is the walk. -/
theorem namexLoop_eq (settled : s.Settled) (parent : Bool) (names : List Name)
    (known : s.valid i = true → v = true)
    (allocated : v = true → (s.node i).type ≠ .free) :
    namexLoop parent (s.grab i v) i names = s.arrive (s.walk parent i v names) := by
  induction names generalizing i v with
  | nil =>
      cases parent with
      | false => rfl
      | true =>
          simp only [namexLoop, walk, if_true, settled.iput_grab known allocated]
          rfl
  | cons name rest ih =>
      simp only [namexLoop, ilock_grab (settled.unlocked i), walk]
      by_cases free : v = false ∧ (s.node i).type = .free
      · simp only [free, and_self, if_true]
        rfl
      have used : (s.node i).type ≠ .free := by
        intro none
        cases v with
        | false => exact free ⟨rfl, none⟩
        | true => exact allocated rfl none
      have node : (s.take i).node = s.node := rfl
      have put := settled.iunlockput_take used
      simp only [free, if_false, node, bind, Except.bind]
      by_cases directory : (s.node i).type = .dir
      · simp only [directory, ne_eq, not_true_eq_false, if_false]
        by_cases last : parent = true ∧ rest = []
        · simp only [last, and_self, if_true, iunlock_take (settled.unlocked i)]
          rfl
        · simp only [last, if_false, dirlookup_take settled.cached name directory]
          cases (s.node i).lookup name with
          | none =>
              simp only [put]
              rfl
          | some off =>
              dsimp only
              generalize ((s.node i).entry off).inum = j
              by_cases room : (s.take i).Room j
              · have next := settled.iunlockput_found used (take_valid (s := s) j)
                simp only [room, if_true, next]
                exact ih take_known (settled.allocated_of_take used)
              · simp only [room, if_false]
                rfl
      · simp only [directory, ne_eq, not_false_eq_true, if_true, put]
        rfl

theorem namex_eq (settled : s.Settled) (p : P) (path : List Char) (parent : Bool) :
    s.namex p path parent = s.arrive (s.find p path parent) := by
  have loop (i : Nat) := namexLoop_eq (i := i) (v := s.valid i) settled parent
    (pathElements path) id settled.allocated_of_valid
  simp only [namex, namexStart, find]
  by_cases absolute : path.head? = some '/'
  · simp only [absolute, if_true, iget_eq settled.cached]
    by_cases room : s.Room rootino
    · simp only [room, if_true]
      exact loop rootino
    · simp only [room, if_false]
      rfl
  · simp only [absolute, if_false]
    cases s.cwd p with
    | none => rfl
    | some cwd =>
        simp only [idup_eq]
        exact loop cwd

/-- What a walk that arrives says about the inode it ends at. -/
structure Arrived (s : Fs P) (parent : Bool) (target : Target) : Prop where
  known : s.valid target.inum = true → target.valid = true
  allocated : target.valid = true → (s.node target.inum).type ≠ .free
  directory : parent = true → target.valid = true ∧ (s.node target.inum).type = .dir

theorem walk_arrived (settled : s.Settled) {parent : Bool} {names : List Name} {target : Target}
    (known : s.valid i = true → v = true)
    (allocated : v = true → (s.node i).type ≠ .free)
    (ends : s.walk parent i v names = .ok (some target)) : s.Arrived parent target := by
  induction names generalizing i v with
  | nil =>
      cases parent with
      | true => simp [walk] at ends
      | false =>
          simp only [walk, Bool.false_eq_true, if_false, Except.ok.injEq, Option.some.injEq] at ends
          subst ends
          exact ⟨known, allocated, by simp⟩
  | cons name rest ih =>
      simp only [walk] at ends
      split at ends
      · simp at ends
      split at ends
      · simp at ends
      rename_i directory
      have directory : (s.node i).type = .dir := by simpa using directory
      split at ends
      · simp only [Except.ok.injEq, Option.some.injEq] at ends
        subst ends
        exact ⟨fun _ => rfl, by simp [directory], fun _ => ⟨rfl, directory⟩⟩
      split at ends
      · simp at ends
      split at ends
      · exact ih take_known (settled.allocated_of_take (by simp [directory])) ends
      · simp at ends

theorem find_arrived (settled : s.Settled) {p : P} {path : List Char} {parent : Bool}
    {target : Target} (ends : s.find p path parent = .ok (some target)) :
    s.Arrived parent target := by
  unfold find at ends
  split at ends
  · split at ends
    · exact walk_arrived settled id settled.allocated_of_valid ends
    · simp at ends
  · split at ends
    · exact walk_arrived settled id settled.allocated_of_valid ends
    · simp at ends

end Fs

end SlabStudy.Xv6
