import SlabStudy.Xv6.InodeRefs

/-!
# Paths on the inode cache

`namex` of `fs.c` over the entries of the inode cache and the bytes of the
directories.  A walk that returns leaves the disk as it is, and holds a
reference to the inode that the names lead to.
-/

namespace SlabStudy.Xv6

open Library

/-- The characters of a name in memory. -/
def nameBytes (name : Name) : CString := .ofList (name.map fun c => UInt8.ofNat c.toNat)

namespace FsDisk

/-- The entry for a name in the directory `i`: its index, and its i-number. -/
def entry (d : FsDisk) (i : Nat) (name : Name) : Option (Nat × Nat) :=
  (direntSlots (d.content (d.dinode i))).lookup ((nameBytes name).cut dirsiz)

/-- The inode that the names lead to, or the directory of the last name and this name. -/
def resolvePath (d : FsDisk) (parent : Bool) : Nat → List Name → Option (Nat × Name)
  | i, [] => if parent then none else some (i, [])
  | i, name :: rest =>
      if (d.dinode i).type ≠ .dir then none
      else if parent ∧ rest = [] then some (i, name)
      else
        match d.entry i name with
        | none => none
        | some (_, j) => d.resolvePath parent j rest

end FsDisk

namespace FsState

variable (devsw : Devsw)

/-- The loop of `namex` over the elements that are left; the caller holds a reference to `ip`.
A lock is held only within a round. -/
def namexLoop (parent : Bool) : FsState → Fin ninode → List Name →
    Except DirStop (Option (Fin ninode × Name) × FsState)
  | s, ip, [] =>
      if parent then do
        let s ← below (s.iput ip)
        .ok (none, s)
      else .ok (some (ip, []), s)
  | s, ip, name :: rest => do
      let s ← below (s.ilock ip)
      if (s.icache ip).copy.type ≠ .dir then
        let s ← below (s.iput ip)
        .ok (none, s)
      else if parent ∧ rest = [] then
        -- stop one level early
        .ok (some (ip, name), s)
      else
        let (next, s) ← s.dirlookup devsw ip (nameBytes name)
        match next with
        | none =>
            let s ← below (s.iput ip)
            .ok (none, s)
        | some (_, next) =>
            let s ← below (s.iput ip)
            namexLoop parent s next rest

/-- Look up the inode for a path name, or its parent and the final path element. -/
def namex (s : FsState) (cwd : Fin ninode) (path : List Char) (parent : Bool) :
    Except DirStop (Option (Fin ninode × Name) × FsState) :=
  if path.head? = some '/' then do
    let (ip, s) ← below (s.iget rootino)
    s.namexLoop devsw parent ip (pathElements path)
  else (s.idup cwd).namexLoop devsw parent cwd (pathElements path)

/-- The i-number at which a path starts. -/
def pathStart (s : FsState) (cwd : Fin ninode) (path : List Char) : Nat :=
  if path.head? = some '/' then rootino else (s.icache cwd).inum

variable {devsw} {s t u : FsState} {x : Fin ninode → Nat} {ip : Fin ninode} {i : Nat}

/-- A locked inode that is a directory. -/
theorem Ready.dirLocked (ready : t.Ready ip i) (consistent : s.Consistent) (grabs : Grabs s t x)
    (directory : (t.icache ip).copy.type = .dir) :
    t.DirLocked ip ∧ t.dirContent ip = s.disk.content (s.disk.dinode i) := by
  have copy : (t.icache ip).copy = s.disk.dinode i := by rw [ready.copy, grabs.disk]
  have allocated : s.disk.Allocated i := by
    rw [← grabs.disk]
    exact ready.allocated
  refine ⟨⟨grabs.inv.owned, ready.held, ?_, ?_, directory, ?_⟩, ?_⟩
  · rw [ready.named]
    exact ready.inside
  · rw [ready.named]
    exact ready.copy
  · rw [copy]
    exact consistent.whole i allocated (copy ▸ directory)
  · rw [dirContent, ready.named, grabs.disk]

/-- `dirlookup` in a directory that the call has locked. -/
theorem Ready.dirlookup (ready : t.Ready ip i) (consistent : s.Consistent) (grabs : Grabs s t x)
    (directory : (t.icache ip).copy.type = .dir) {name : Name} {r : Option (Nat × Fin ninode)}
    (ran : t.dirlookup devsw ip (nameBytes name) = .ok (r, u)) :
    (r = none ∧ u = t ∧ s.disk.entry i name = none) ∨
    ∃ off jp k j, r = some (off, jp) ∧ s.disk.entry i name = some (k, j) ∧
      Grabs s u (bump x jp) ∧ (u.icache jp).inum = j ∧ u.Ready ip i := by
  obtain ⟨dir, content⟩ := ready.dirLocked consistent grabs directory
  have entry : s.disk.entry i name =
      (direntSlots (t.dirContent ip)).lookup ((nameBytes name).cut dirsiz) := by
    rw [content]
    rfl
  cases r with
  | none =>
      have absent := dirlookup_none dir ran
      rw [dirlookup_eq dir, absent] at ran
      cases ran
      exact .inl ⟨rfl, rfl, entry.trans absent⟩
  | some found =>
      obtain ⟨off, jp⟩ := found
      obtain ⟨k, j, rfl, hit, took⟩ := dirlookup_some dir ran
      have allocated : s.disk.Allocated i := by
        rw [← grabs.disk]
        exact ready.allocated
      have type : (s.disk.dinode i).type = .dir := by
        rw [← grabs.disk, ← ready.copy]
        exact directory
      have present := entry.trans hit
      have leads : Named s.disk j := .inr ⟨i, k, _, allocated, type, present⟩
      obtain ⟨grabs', named⟩ := grabs.iget consistent leads took
      obtain ⟨disk, held, same, copy, _⟩ := dir.iget took
      refine .inr ⟨_, jp, k, j, rfl, present, grabs', named, ?_⟩
      refine .of_valid grabs'.inv held (same.trans ready.named) ?_
      rcases iget_cases took with ⟨_, _, rfl⟩ | ⟨none, _, rfl⟩
      · by_cases self : ip = jp
        · rw [self, setSlot_self]
          exact self ▸ ready.valid
        · rw [setSlot_other self]
          exact ready.valid
      · have self : ip ≠ jp := by
          rintro rfl
          exact absurd ready.held (by omega)
        rw [setSlot_other self]
        exact ready.valid

theorem below_ok {α : Type} {result : Except FsPanic α} {a : α} (ran : below result = .ok a) :
    result = .ok a := by
  cases result with
  | ok b =>
      cases ran
      rfl
  | error reason => cases ran

/-- What a walk that began with a reference to `ip` has found. -/
def Walked (s u : FsState) (x : Fin ninode → Nat) (r : Option (Fin ninode × Name))
    (target : Option (Nat × Name)) : Prop :=
  match r with
  | none => target = none ∧ Grabs s u x
  | some (jp, name) => target = some ((u.icache jp).inum, name) ∧ Grabs s u (bump x jp)

/-- The loop of `namex` follows the names on the disk. -/
theorem namexLoop_walked (consistent : s.Consistent) {parent : Bool} {names : List Name}
    {r : Option (Fin ninode × Name)} (grabs : Grabs s t (bump x ip))
    (named : (t.icache ip).inum = i) (ran : t.namexLoop devsw parent ip names = .ok (r, u)) :
    Walked s u x r (s.disk.resolvePath parent i names) := by
  induction names generalizing t ip i with
  | nil =>
      rw [namexLoop] at ran
      rw [FsDisk.resolvePath]
      cases parent with
      | false =>
          cases ran
          exact ⟨by rw [named]; rfl, grabs⟩
      | true =>
          obtain ⟨v, put, rest, _⟩ := grabs.iput consistent
          rw [if_pos rfl, put] at ran
          cases ran
          exact ⟨rfl, rest⟩
  | cons name rest ih =>
      rw [namexLoop] at ran
      cases lock : t.ilock ip with
      | error reason =>
          rw [lock] at ran
          cases ran
      | ok v =>
          obtain ⟨grabs, ready, _⟩ := grabs.ilock grabs.held named lock
          rw [lock] at ran
          dsimp only [below, Except.mapError, Bind.bind, Except.bind] at ran
          have type : (v.icache ip).copy.type = (s.disk.dinode i).type := by
            rw [ready.copy, grabs.disk]
          rw [type] at ran
          rw [FsDisk.resolvePath]
          by_cases directory : (s.disk.dinode i).type = .dir
          · rw [if_neg (not_not.mpr directory)] at ran ⊢
            by_cases last : parent = true ∧ rest = []
            · rw [if_pos last] at ran ⊢
              cases ran
              exact ⟨by rw [ready.named], grabs⟩
            · rw [if_neg last] at ran ⊢
              cases looked : v.dirlookup devsw ip (nameBytes name) with
              | error reason =>
                  rw [looked] at ran
                  cases ran
              | ok result =>
                  obtain ⟨found, w⟩ := result
                  rw [looked] at ran
                  dsimp only at ran
                  rcases ready.dirlookup consistent grabs (type.trans directory) looked with
                    ⟨rfl, rfl, absent⟩ | ⟨off, jp, k, j, rfl, present, grabs', named', _⟩
                  · obtain ⟨v', put, after, _⟩ := grabs.iput consistent
                    rw [put] at ran
                    cases ran
                    rw [absent]
                    exact ⟨rfl, after⟩
                  · rw [bump_comm] at grabs'
                    obtain ⟨v', put, after, inums⟩ := grabs'.iput consistent
                    rw [put] at ran
                    rw [present]
                    exact ih after ((inums jp).trans named') ran
          · obtain ⟨v', put, after, _⟩ := grabs.iput consistent
            rw [if_pos directory, put] at ran
            cases ran
            rw [if_pos directory]
            exact ⟨rfl, after⟩

theorem namex_walked (consistent : s.Consistent) {cwd : Fin ninode}
    (current : (s.icache cwd).ref > 0) {path : List Char} {parent : Bool}
    {r : Option (Fin ninode × Name)} (ran : s.namex devsw cwd path parent = .ok (r, u)) :
    Walked s u (fun _ => 0) r
      (s.disk.resolvePath parent (s.pathStart cwd path) (pathElements path)) := by
  have grabs := Grabs.refl consistent.inv
  unfold namex at ran
  unfold pathStart
  split at ran
  · next absolute =>
      rw [if_pos absolute]
      cases took : s.iget rootino with
      | error reason =>
          rw [took] at ran
          cases ran
      | ok result =>
          obtain ⟨ip, t⟩ := result
          rw [took] at ran
          obtain ⟨grabs, named⟩ := grabs.iget consistent (.inl rfl) took
          exact namexLoop_walked consistent grabs named ran
  · next relative =>
      rw [if_neg relative]
      obtain ⟨grabs, named⟩ := grabs.idup current
      exact namexLoop_walked consistent grabs named ran

end FsState

end SlabStudy.Xv6
