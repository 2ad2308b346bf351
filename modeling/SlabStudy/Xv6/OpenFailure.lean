import SlabStudy.Xv6.OpenCall

/-!
# An open that fails

`sys_open` with `O_CREATE` makes the file before it asks for an entry of the
file table and a descriptor.  When these are used up the call fails and the
file stays.  In every other case a call that fails leaves the files as they
were.
-/

namespace SlabStudy.Xv6

open Library

namespace FsState

variable {devsw : Devsw} {s t u : FsState} {x : Fin ninode → Nat} {dp ip cwd : Fin ninode} {d : Nat}

/-! ## Creating a file -/

/-- `ip` is locked and holds a file that `s` did not have. -/
structure Created (s u : FsState) (ip : Fin ninode) : Prop where
  unused : (s.disk.dinode (u.icache ip).inum).type = .free
  made : (u.disk.dinode (u.icache ip).inum).type = .file
  linked : (u.icache ip).copy.nlink = 1

/-- The slot of a directory that a call has locked. -/
theorem Ready.locked (ready : t.Ready dp d) (inv : CacheInv t)
    (directory : (t.icache dp).copy.type = .dir) (whole : (t.icache dp).copy.size % direntSize = 0) :
    t.DirLocked dp := by
  refine ⟨inv.owned, ready.held, ?_, ?_, directory, whole⟩
  · rw [ready.named]
    exact ready.inside
  · rw [ready.named]
    exact ready.copy

/-- What `ialloc` has done. -/
theorem ialloc_cases (inv : CacheInv t) {type : InodeType} (ran : t.ialloc type = .ok (ip, u)) :
    ∃ inum, (t.disk.dinode inum).type = .free ∧ CacheInv u ∧
      u.disk = iupdate t.disk inum { Dinode.zero with type := type } ∧
      (u.icache ip).ref > 0 ∧ (u.icache ip).inum = inum ∧
      ∀ jp, (t.icache jp).ref > 0 → (u.icache jp).ref > 0 ∧
        (u.icache jp).inum = (t.icache jp).inum ∧ (u.icache jp).valid = (t.icache jp).valid ∧
        (u.icache jp).copy = (t.icache jp).copy := by
  have safe := inv.ialloc_safe type
  rw [ran] at safe
  unfold ialloc at ran
  split at ran
  · next inum found =>
      have free := List.find?_some found
      simp only [decide_eq_true_eq] at free
      refine ⟨inum, free, safe.1 u rfl, ?_⟩
      rcases iget_cases ran with ⟨held, same, rfl⟩ | ⟨none, _, rfl⟩
      · refine ⟨rfl, ?_, ?_, fun jp used => ?_⟩
        · rw [setSlot_self]
          exact Nat.succ_pos _
        · rw [setSlot_self]
          exact same
        · by_cases self : jp = ip
          · rw [self, setSlot_self]
            exact ⟨Nat.succ_pos _, rfl, rfl, rfl⟩
          · rw [setSlot_other self]
            exact ⟨used, rfl, rfl, rfl⟩
      · refine ⟨rfl, ?_, ?_, fun jp used => ?_⟩
        · rw [setSlot_self]
          exact Nat.one_pos
        · rw [setSlot_self]
        · have self : jp ≠ ip := by
            rintro rfl
            exact used.ne' none
          rw [setSlot_other self]
          exact ⟨used, rfl, rfl, rfl⟩
  · cases ran

theorem iupdate_self (e : FsDisk) (i : Nat) (copy : Dinode) :
    (iupdate e i copy).dinode i = copy := Function.update_self ..

/-- `iupdate` with a locked inode that gets other numbers, but no other type, size or blocks. -/
theorem setInode_inv (inv : CacheInv t) (held : (t.icache ip).ref > 0)
    (valid : (t.icache ip).valid = true) {copy : Dinode}
    (type : copy.type = (t.icache ip).copy.type) (addrs : copy.addrs = (t.icache ip).copy.addrs)
    (size : copy.size = (t.icache ip).copy.size) : CacheInv (t.setInode ip copy) := by
  obtain ⟨same, some⟩ := inv.copies ip held valid
  have allocated : t.disk.Allocated (t.icache ip).inum := ⟨inv.inside ip held, same ▸ some⟩
  refine inv.unlock held ?_ rfl (fun i other => Function.update_of_ne other ..) ?_ ?_
  · refine inv.owned.update _ copy ?_ (addrs.trans (by rw [same])) ?_
    · rw [type, same]
    · rw [size, same]
      exact inv.owned.full _ allocated
  · exact (iupdate_self t.disk (t.icache ip).inum copy).symm
  · rw [type]
    exact some

/-- `create` behind `ialloc` makes a file that is linked once. -/
theorem createNew_made (inv : CacheInv t) (ready : t.Ready dp d)
    (directory : (t.icache dp).copy.type = .dir) (whole : (t.icache dp).copy.size % direntSize = 0)
    {major minor : Int} {name : Name} {v : FsState} {inum : Nat} (held : (t.icache ip).ref > 0)
    (named : (t.icache ip).inum = inum) (other : inum ≠ d)
    (type : (t.disk.dinode inum).type = .file)
    (ran : t.createNew devsw dp name ip .file major minor = .ok v) :
    (v.icache ip).inum = inum ∧ (v.disk.dinode inum).type = .file ∧
      (v.icache ip).copy.nlink = 1 := by
  have apart : dp ≠ ip := by
    rintro rfl
    exact other (named.symm.trans ready.named)
  unfold createNew at ran
  rw [ilockHeld, if_neg (by simpa using apart.symm)] at ran
  cases lock : t.ilock ip with
  | error reason =>
      rw [lock] at ran
      cases ran
  | ok w =>
      obtain ⟨grabs, own, others⟩ := (Grabs.refl inv).ilock held named lock
      rw [lock] at ran
      dsimp only [below, Except.mapError, Bind.bind, Except.bind] at ran
      rw [if_neg (by decide)] at ran
      generalize numbers : ({ (w.icache ip).copy with
        major := short major, minor := short minor, nlink := 1 } : Dinode) = copy at ran
      have links : copy.nlink = 1 := by rw [← numbers]
      have kind : copy.type = .file := by
        rw [← numbers]
        change (w.icache ip).copy.type = .file
        rw [own.copy, grabs.disk]
        exact type
      have inv' : CacheInv (w.setInode ip copy) := setInode_inv grabs.inv own.held own.valid
        (by rw [← numbers]) (by rw [← numbers]) (by rw [← numbers])
      have slot : (w.setInode ip copy).icache dp = t.icache dp :=
        (Function.update_of_ne apart ..).trans (others dp apart)
      have ready' : (w.setInode ip copy).Ready dp d := by
        refine .of_valid inv' ?_ ?_ ?_
        all_goals rw [slot]
        · exact ready.held
        · exact ready.named
        · exact ready.valid
      have dir := ready'.locked inv' (by rw [slot]; exact directory) (by rw [slot]; exact whole)
      cases linked : (w.setInode ip copy).dirlink devsw [dp, ip] dp (nameBytes name)
          ((w.setInode ip copy).icache ip).inum with
      | error reason =>
          rw [linked] at ran
          cases ran
      | ok result =>
          obtain ⟨r, z⟩ := result
          rw [linked] at ran
          dsimp only at ran
          split at ran
          · cases ran
          · next fine =>
              obtain ⟨l, c, rfl, replaced⟩ := dirlink_ok dir linked fine
              obtain ⟨dinodes, slots⟩ := iput_frame (below_ok ran)
              have mine : ((w.setInode ip copy).unlock dp l).icache ip =
                  { w.icache ip with copy := copy } :=
                (Function.update_of_ne apart.symm ..).trans (Function.update_self ..)
              have parent : (((w.setInode ip copy).unlock dp l).icache dp).inum = d := by
                refine (congrArg CachedInode.inum (Function.update_self ..)).trans ?_
                exact ready'.named
              have stored : (w.setInode ip copy).disk.dinode inum = copy := by
                rw [← own.named]
                exact Function.update_self ..
              rw [slots ip apart.symm, mine, dinodes inum (by rw [parent]; exact other)]
              refine ⟨own.named, ?_, links⟩
              refine Eq.trans (congrArg Dinode.type ((replaced.others inum ?_).1.trans stored)) kind
              rw [ready'.named]
              exact other

/-- The call has taken a reference to the inode that it returns, and nothing else. -/
def Took (s u : FsState) : Option (Fin ninode) → Prop
  | none => Grabs s u fun _ => 0
  | some ip => Grabs s u (bump (fun _ => 0) ip)

theorem resolvePath_directory {e : FsDisk} {i : Nat} {names : List Name} {name : Name}
    (found : e.resolvePath true i names = some (d, name)) : (e.dinode d).type = .dir := by
  induction names generalizing i with
  | nil => cases found
  | cons first rest ih =>
      rw [FsDisk.resolvePath] at found
      split at found
      · cases found
      · next directory =>
          split at found
          · cases found
            exact not_not.mp directory
          · split at found
            · cases found
            · exact ih found

/-- The branch of `create` for a name that is there. -/
theorem create_found (consistent : s.Consistent)
    (grabs : Grabs s t (bump (bump (fun _ => 0) dp) ip)) {r : Option (Fin ninode)}
    (ran : (do
      let s ← below (t.iput dp)
      let s ← below (s.ilock ip)
      if InodeType.file = .file ∧ (s.icache ip).copy.type = .file then .ok (some ip, s)
      else
        let s ← below (s.iput ip)
        .ok (none, s)) = Except.ok (r, u)) : Took s u r := by
  rw [bump_comm] at grabs
  obtain ⟨v, put, grabs, _⟩ := grabs.iput consistent
  rw [put] at ran
  dsimp only [below, Except.mapError, Bind.bind, Except.bind] at ran
  cases lock : v.ilock ip with
  | error reason =>
      rw [lock] at ran
      cases ran
  | ok w =>
      obtain ⟨grabs, _, _⟩ := grabs.ilock grabs.held rfl lock
      rw [lock] at ran
      dsimp only at ran
      split at ran
      · cases ran
        exact grabs
      · obtain ⟨z, put, grabs, _⟩ := grabs.iput consistent
        rw [put] at ran
        cases ran
        exact grabs

/-- The branch of `create` for a new name. -/
theorem create_new (consistent : s.Consistent) (grabs : Grabs s t x) (ready : t.Ready dp d)
    (directory : (t.icache dp).copy.type = .dir) {name : Name} {r : Option (Fin ninode)}
    (ran : (do
      let (ip, s) ← below (t.ialloc .file)
      let s ← s.createNew devsw dp name ip .file 0 0
      .ok (some ip, s)) = Except.ok (r, u)) : ∃ ip, r = some ip ∧ Created s u ip := by
  have whole := (ready.dirLocked consistent grabs directory).1.whole
  have allocated := ready.allocated
  cases made : t.ialloc .file with
  | error reason =>
      rw [made] at ran
      cases ran
  | ok result =>
      obtain ⟨ip, v⟩ := result
      obtain ⟨inum, free, inv, disk, held, named, slots⟩ := ialloc_cases grabs.inv made
      obtain ⟨used, inum', valid, copy⟩ := slots dp ready.held
      have other : inum ≠ d := by
        rintro rfl
        exact allocated.2 free
      have ready' : v.Ready dp d :=
        .of_valid inv used (inum'.trans ready.named) (valid.trans ready.valid)
      rw [made] at ran
      dsimp only [below, Except.mapError, Bind.bind, Except.bind] at ran
      cases filled : v.createNew devsw dp name ip .file 0 0 with
      | error reason =>
          rw [filled] at ran
          cases ran
      | ok w =>
          rw [filled] at ran
          cases ran
          obtain ⟨same, type, links⟩ := createNew_made inv ready' (by rw [copy]; exact directory)
            (by rw [copy]; exact whole) held named other (by
              rw [disk, iupdate_self]) filled
          refine ⟨ip, rfl, ?_, ?_, links⟩
          · rw [same, ← grabs.disk]
            exact free
          · rw [same]
            exact type

/-- `create` of a file makes a new one, or returns one that is there. -/
theorem create_cases (consistent : s.Consistent) (current : (s.icache cwd).ref > 0)
    {path : List Char} {r : Option (Fin ninode)}
    (ran : s.create devsw cwd path .file 0 0 = .ok (r, u)) :
    (s.Creates cwd path ∧ ∃ ip, r = some ip ∧ Created s u ip) ∨
      (¬ s.Creates cwd path ∧ Took s u r) := by
  unfold create at ran
  cases walk : s.namex devsw cwd path true with
  | error reason =>
      rw [walk] at ran
      cases ran
  | ok result =>
      obtain ⟨parent, t⟩ := result
      have walked := namex_walked consistent current walk
      rw [walk] at ran
      dsimp only [Bind.bind, Except.bind] at ran
      cases parent with
      | none =>
          cases ran
          refine .inr ⟨?_, walked.2⟩
          rintro ⟨d, name, found, _⟩
          rw [walked.1] at found
          cases found
      | some last =>
          obtain ⟨dp, name⟩ := last
          obtain ⟨found, grabs⟩ := walked
          dsimp only at ran
          cases lock : t.ilock dp with
          | error reason =>
              rw [lock] at ran
              cases ran
          | ok v =>
              obtain ⟨grabs, ready, _⟩ := grabs.ilock grabs.held rfl lock
              have type := resolvePath_directory found
              have directory : (v.icache dp).copy.type = .dir := by
                rw [ready.copy, grabs.disk]
                exact type
              rw [lock] at ran
              dsimp only [below, Except.mapError] at ran
              cases looked : v.dirlookup devsw dp (nameBytes name) with
              | error reason =>
                  rw [looked] at ran
                  cases ran
              | ok result =>
                  obtain ⟨hit, w⟩ := result
                  rw [looked] at ran
                  dsimp only at ran
                  rcases ready.dirlookup consistent grabs directory looked with
                    ⟨rfl, rfl, absent⟩ | ⟨off, ip, k, j, rfl, present, grabs', named, _⟩
                  · refine .inl ⟨⟨_, name, found, absent⟩, ?_⟩
                    exact create_new consistent grabs ready directory ran
                  · refine .inr ⟨?_, create_found consistent grabs' ran⟩
                    rintro ⟨d', name', found', absent⟩
                    cases found.symm.trans found'
                    rw [present] at absent
                    cases absent

/-- `sys_open` gets its inode from a new file, or leaves the files as they are. -/
theorem openInode_cases (consistent : s.Consistent) (current : (s.icache cwd).ref > 0)
    {path : List Char} {omode : Nat} {r : Option (Fin ninode)}
    (ran : s.openInode devsw cwd path omode = .ok (r, u)) :
    ((omode &&& ocreate ≠ 0 ∧ s.Creates cwd path) ∧ ∃ ip, r = some ip ∧ Created s u ip) ∨
      (¬ (omode &&& ocreate ≠ 0 ∧ s.Creates cwd path) ∧ Took s u r) := by
  unfold openInode at ran
  by_cases creating : omode &&& ocreate ≠ 0
  · rw [if_pos creating] at ran
    rcases create_cases consistent current ran with ⟨new, made⟩ | ⟨old, took⟩
    · exact .inl ⟨⟨creating, new⟩, made⟩
    · exact .inr ⟨fun both => old both.2, took⟩
  · rw [if_neg creating] at ran
    refine .inr ⟨fun both => creating both.1, ?_⟩
    cases walk : s.namex devsw cwd path false with
    | error reason =>
        rw [walk] at ran
        cases ran
    | ok result =>
        obtain ⟨found, t⟩ := result
        have walked := namex_walked consistent current walk
        rw [walk] at ran
        dsimp only [Bind.bind, Except.bind] at ran
        cases found with
        | none =>
            cases ran
            exact walked.2
        | some last =>
            obtain ⟨ip, name⟩ := last
            have grabs := walked.2
            dsimp only at ran
            cases lock : t.ilock ip with
            | error reason =>
                rw [lock] at ran
                cases ran
            | ok v =>
                obtain ⟨grabs, _, _⟩ := grabs.ilock grabs.held rfl lock
                rw [lock] at ran
                dsimp only [below, Except.mapError] at ran
                split at ran
                · obtain ⟨w, put, grabs, _⟩ := grabs.iput consistent
                  rw [put] at ran
                  cases ran
                  exact grabs
                · cases ran
                  exact grabs

/-- Putting back the inode of a new file leaves it on the disk. -/
theorem Created.iput (created : Created s u ip) (ran : u.iput ip = .ok t) : t.disk = u.disk := by
  rw [iput_keeps] at ran
  · cases ran
    rfl
  · rintro ⟨_, links, _⟩
    rw [created.linked] at links
    cases links

end FsState

namespace OpenState

variable {devsw : Devsw} {s t : OpenState} {ip : Fin ninode} {omode : Nat} {r : Int}

theorem SameFiles.refl (d : FsDisk) : SameFiles d d :=
  ⟨fun _ _ => rfl, fun _ => rfl, fun _ => rfl, fun _ => rfl, fun _ => rfl, rfl⟩

/-- Closing a file that has just been allocated drops no inode. -/
theorem fileclose_fresh {f : Fin nfile} (once : (s.file f).ref = 1) (type : (s.file f).type = .none) :
    s.fileclose f = .ok (s.setFile f { s.file f with ref := 0, type := .none }) := by
  unfold fileclose
  dsimp only
  rw [once, type, if_neg (by decide), if_neg (by decide), if_neg (by decide)]

/-- `sys_open` behind the inode fails if a table is full, and it has put the inode back. -/
theorem openFile_cases (idle : ∀ f, (s.file f).ref = 0 → (s.file f).type = .none)
    (ran : s.openFile ip omode = .ok (r, t)) :
    (s.TablesFull ∧ r = -1 ∧ s.fs.iput ip = .ok t.fs) ∨ (¬ s.TablesFull ∧ 0 ≤ r) := by
  unfold openFile at ran
  cases room : s.filealloc with
  | none =>
      rw [room] at ran
      dsimp only at ran
      obtain ⟨fs, put, last⟩ := bind_eq_ok.mp ran
      cases last
      refine .inl ⟨.inl fun f => ?_, rfl, FsState.below_ok put⟩
      have none := List.find?_eq_none.mp (Option.map_eq_none_iff.mp room) f (List.mem_finRange f)
      simpa using none
  | some result =>
      obtain ⟨f, v⟩ := result
      obtain ⟨g, found, same⟩ := Option.map_eq_some_iff.mp room
      cases same
      have free := List.find?_some found
      simp only [decide_eq_true_eq] at free
      rw [room] at ran
      dsimp only at ran
      cases slot : (s.setFile f { s.file f with ref := 1 }).fdalloc f with
      | none =>
          have full : ∀ fd, s.ofile fd ≠ none := by
            intro fd
            have none := List.find?_eq_none.mp (Option.map_eq_none_iff.mp slot) fd
              (List.mem_finRange fd)
            simpa [setFile] using none
          have entry : (s.setFile f { s.file f with ref := 1 }).file f = { s.file f with ref := 1 } :=
            Function.update_self ..
          have closed := fileclose_fresh (s := s.setFile f { s.file f with ref := 1 })
            (congrArg File.ref entry) ((congrArg File.type entry).trans (idle f free))
          rw [slot] at ran
          dsimp only at ran
          rw [closed] at ran
          obtain ⟨_, first, later⟩ := bind_eq_ok.mp ran
          cases first
          obtain ⟨fs, put, last⟩ := bind_eq_ok.mp later
          cases last
          exact .inl ⟨.inr full, rfl, FsState.below_ok put⟩
      | some result =>
          obtain ⟨fd, w⟩ := result
          obtain ⟨g, open', same⟩ := Option.map_eq_some_iff.mp slot
          have empty := List.find?_some open'
          rw [slot] at ran
          cases ran
          refine .inr ⟨?_, Int.natCast_nonneg _⟩
          rintro (full | full)
          · exact full f free
          · cases same
            refine full fd ?_
            simpa [setFile] using empty

/-- A failed open leaves the files as they were if and only if it did not create one that could
not be opened. -/
theorem open_failure (devsw : Devsw) (settled : s.Settled) (args : Option (List Char × Nat))
    (ran : s.sysOpen devsw args = .ok (-1, t)) :
    SameFiles s.fs.disk t.fs.disk ↔ ¬ s.CreatesInVain args := by
  cases args with
  | none =>
      cases ran
      refine ⟨fun _ => ?_, fun _ => .refl _⟩
      rintro ⟨path, omode, fetched, _⟩
      cases fetched
  | some fetched =>
      obtain ⟨path, omode⟩ := fetched
      obtain ⟨⟨found, fs⟩, inode, rest⟩ := bind_eq_ok.mp ran
      dsimp only at rest
      have vain : s.CreatesInVain (some (path, omode)) ↔
          (omode &&& ocreate ≠ 0 ∧ s.fs.Creates s.cwd path) ∧ s.TablesFull := by
        refine ⟨?_, fun ⟨⟨creating, new⟩, full⟩ => ⟨path, omode, rfl, creating, new, full⟩⟩
        rintro ⟨path', omode', same, creating, new, full⟩
        cases same
        exact ⟨⟨creating, new⟩, full⟩
      rw [vain]
      rcases FsState.openInode_cases settled.consistent settled.current inode with
        ⟨new, ip, rfl, created⟩ | ⟨old, took⟩
      · dsimp only at rest
        rcases openFile_cases (s := { s with fs := fs }) settled.idle rest with
          ⟨full, _, put⟩ | ⟨_, positive⟩
        · refine ⟨fun same => ?_, fun other => absurd ⟨new, full⟩ other⟩
          have type := same.type (fs.icache ip).inum
          rw [created.iput put, created.made, created.unused] at type
          cases type
        · exact absurd positive (by decide)
      · refine ⟨fun _ both => old both.1, fun _ => ?_⟩
        suffices disk : t.fs.disk = s.fs.disk by
          rw [disk]
          exact .refl _
        cases found with
        | none =>
            cases rest
            exact took.disk
        | some ip =>
            dsimp only at rest
            rcases openFile_cases (s := { s with fs := fs }) settled.idle rest with
              ⟨_, _, put⟩ | ⟨_, positive⟩
            · obtain ⟨u, put', grabs, _⟩ := took.iput settled.consistent
              cases put.symm.trans put'
              exact grabs.disk
            · exact absurd positive (by decide)

/-- A process in the empty root directory of the sample image.  It has opened the directory once,
and all its descriptors are for this file. -/
def sample : OpenState where
  fs := FsState.sampleDir.idup 0
  file f := if f = 0 then ⟨.inode, nofile, true, false, 0, 0⟩ else ⟨.none, 0, false, false, 0, 0⟩
  ofile _ := some 0
  cwd := 0

theorem sample_settled : sample.Settled := by
  have slots : ∀ ip : Fin ninode, ip ≠ 0 → (sample.fs.icache ip).ref = 0 := by
    intro ip other
    change ((FsState.sampleDir.idup 0).icache ip).ref = 0
    rw [FsState.idup, FsState.setSlot_other other]
    exact congrArg CachedInode.ref (if_neg other)
  have first : ∀ ip : Fin ninode, (sample.fs.icache ip).ref > 0 → ip = 0 := by
    intro ip held
    by_contra other
    exact absurd held (by rw [slots ip other]; exact lt_irrefl 0)
  have sizes : ∀ i, (sample.fs.disk.dinode i).size = 0 := by
    intro i
    by_cases root : i = 1
    · rw [root]
      rfl
    · refine (congrArg Dinode.size (Function.update_of_ne root ..)).trans ?_
      exact congrArg Dinode.size (if_neg root)
  have named : ∀ i, FsState.Named sample.fs.disk i → i = rootino := by
    rintro i (root | ⟨dir, k, name, _, _, entry⟩)
    · exact root
    · have inside : k < (sample.fs.disk.content (sample.fs.disk.dinode dir)).length / direntSize :=
        (SlotTable.lookup_some entry).1
      rw [FsDisk.content_length, sizes dir] at inside
      exact absurd inside (Nat.not_lt_zero k)
  refine ⟨⟨⟨FsState.sampleDir_ready.owned, ?_, ?_, ?_⟩, ?_, ?_, ?_⟩, by decide, ?_⟩
  · rintro ip held
    rw [first ip held]
    decide
  · rintro ip held _
    rw [first ip held]
    exact ⟨rfl, by decide⟩
  · intro ip jp left right _
    rw [first ip left, first jp right]
  · intro i leads _ _
    exact ⟨0, by decide, (named i leads).symm⟩
  · intro i _ _
    rw [sizes i]
    exact Nat.zero_mod direntSize
  · intro i leads
    rw [named i leads]
    decide
  · intro f free
    by_cases one : f = 0
    · rw [one] at free
      exact absurd free (by decide)
    · exact congrArg File.type (if_neg one)

/-- A result that is evaluated. -/
theorem exists_of_map {α β : Type} {result : Except DirStop α} {f : α → β} {b : β}
    (ran : (result.map f).toOption = some b) : ∃ a, result = .ok a ∧ f a = b := by
  cases result with
  | error reason => cases ran
  | ok a =>
      cases ran
      exact ⟨a, rfl, rfl⟩

/-- Opening a file that is not there fails without `O_CREATE`, and nothing changes. -/
theorem open_failure_absent : ∃ t,
    sample.sysOpen noDevices (some (['f'], ordonly)) = .ok (-1, t) ∧
      SameFiles sample.fs.disk t.fs.disk := by
  have ran : ((sample.sysOpen noDevices (some (['f'], ordonly))).map
      Prod.fst).toOption = some (-1) := by decide +kernel
  obtain ⟨⟨r, t⟩, ran, same⟩ := exists_of_map ran
  cases same
  refine ⟨t, ran, (open_failure _ sample_settled _ ran).mpr ?_⟩
  rintro ⟨path, omode, same, creating, _⟩
  cases same
  exact creating rfl

/-- With `O_CREATE` the call fails as well, since there is no descriptor, and the file is there. -/
theorem open_failure_creates : ∃ t, sample.Settled ∧
    sample.sysOpen noDevices (some (['f'], ocreate)) = .ok (-1, t) ∧
      ¬ SameFiles sample.fs.disk t.fs.disk := by
  have ran : ((sample.sysOpen noDevices (some (['f'], ocreate))).map
      fun r => (r.1, (r.2.fs.disk.dinode 2).type)).toOption = some (-1, .file) := by decide +kernel
  obtain ⟨⟨r, t⟩, ran, same⟩ := exists_of_map ran
  obtain ⟨rfl, type⟩ := Prod.mk.inj same
  refine ⟨t, sample_settled, ran, fun unchanged => ?_⟩
  have before := (unchanged.type 2).symm.trans type
  cases before

end OpenState

end SlabStudy.Xv6
