import SlabStudy.Xv6.FsImage

/-!
# Which calls lock an inode twice

In a state that is ready a call takes a lock that it holds already only when
`link` is asked to create a name that is present in its directory and names
this directory.  Every other call that does not return meets a limit of the
system, or a name of a free inode.
-/

namespace SlabStudy.Xv6

open Library

namespace Fs

variable {P : Type} {s : Fs P} {i dp : Nat} {v : Bool} {p : P}

/-! ## Walks that stop -/

/-- Some name leads to a free inode. -/
def Dangling (s : Fs P) : Prop :=
  (s.node rootino).type = .free ∨
    ∃ d, (s.node d).type = .dir ∧
      ∃ de ∈ (s.node d).entries, de.inum ≠ 0 ∧ (s.node de.inum).type = .free

/-- The faults other than locking twice. -/
inductive Stops (s : Fs P) : Fault → Prop where
  | noInodes : Stops s .noInodes
  | noDiskInodes : Stops s .noDiskInodes
  | dirlink : Stops s .dirlink
  | unlink : Stops s .unlink
  | noCwd : Stops s .noCwd
  | noType (dangling : s.Dangling) : Stops s .noType

/-- The entry that a lookup returns has the name asked for. -/
theorem lookup_entry {n : Node} {name : Name} {off : Nat} (present : n.lookup name = some off) :
    n.entry off ∈ n.entries ∧ (n.entry off).inum ≠ 0 ∧ namecmp name (n.entry off).name = true := by
  obtain ⟨inside, found, -⟩ := List.findIdx?_eq_some_iff_getElem.mp present
  have same : n.entry off = n.entries[off] := by
    simp [Node.entry, List.getD_eq_getElem?_getD, inside]
  rw [same]
  simp only [Bool.and_eq_true, bne_iff_ne] at found
  exact ⟨List.getElem_mem inside, found⟩

/-- A free inode that a lookup leads to is a dangling name. -/
theorem dangling_of_lookup {name : Name} {off : Nat} (directory : (s.node dp).type = .dir)
    (present : (s.node dp).lookup name = some off)
    (free : (s.node ((s.node dp).entry off).inum).type = .free) : s.Dangling := by
  obtain ⟨member, some, -⟩ := lookup_entry present
  exact .inr ⟨dp, directory, _, member, some, free⟩

theorem walk_stops {parent : Bool} {names : List Name} {fault : Fault}
    (start : v = false → (s.node i).type = .free → s.Dangling)
    (stops : s.walk parent i v names = .error fault) : s.Stops fault := by
  induction names generalizing i v with
  | nil =>
      simp only [walk] at stops
      split at stops <;> cases stops
  | cons name rest ih =>
      rw [walk] at stops
      split_ifs at stops with free plain last
      · cases stops
        exact .noType (start free.1 free.2)
      cases present : (s.node i).lookup name with
      | none =>
          rw [present] at stops
          cases stops
      | some off =>
          rw [present] at stops
          dsimp only at stops
          split_ifs at stops with room
          · exact ih (fun _ free => dangling_of_lookup (not_not.mp plain) present free) stops
          · cases stops
            exact .noInodes

/-- The inode a walk ends at is free only at the end of a dangling name. -/
theorem walk_target {parent : Bool} {names : List Name} {target : Target}
    (start : v = false → (s.node i).type = .free → s.Dangling)
    (ends : s.walk parent i v names = .ok (some target)) :
    target.valid = false → (s.node target.inum).type = .free → s.Dangling := by
  induction names generalizing i v with
  | nil =>
      simp only [walk] at ends
      split at ends
      · cases ends
      · cases ends
        exact start
  | cons name rest ih =>
      rw [walk] at ends
      split_ifs at ends with free plain last
      · cases ends
      · cases ends
        exact fun read => absurd read (by simp)
      cases present : (s.node i).lookup name with
      | none =>
          rw [present] at ends
          cases ends
      | some off =>
          rw [present] at ends
          dsimp only at ends
          split_ifs at ends with room
          exact ih (fun _ free => dangling_of_lookup (not_not.mp plain) present free) ends

theorem find_stops {path : List Char} {parent : Bool} {fault : Fault}
    (held : ∀ c, s.cwd p = some c → (s.node c).type ≠ .free)
    (stops : s.find p path parent = .error fault) : s.Stops fault := by
  unfold find at stops
  split_ifs at stops with absolute room
  · exact walk_stops (fun _ free => .inl free) stops
  · cases stops
    exact .noInodes
  · cases cwd : s.cwd p with
    | some c =>
        rw [cwd] at stops
        exact walk_stops (fun _ free => absurd free (held c cwd)) stops
    | none =>
        rw [cwd] at stops
        cases stops
        exact .noCwd

/-! ## Calls that stop -/

/-- A name that a directory gives itself. -/
theorem NoSelf.dots (noSelf : s.NoSelf) {name : Name} {off : Nat}
    (directory : (s.node dp).type = .dir) (present : (s.node dp).lookup name = some off)
    (self : ((s.node dp).entry off).inum = dp) :
    namecmp name ['.'] = true ∨ namecmp name ['.', '.'] = true := by
  obtain ⟨member, -, same⟩ := lookup_entry present
  obtain dot | dots := noSelf dp directory _ member self
  · exact .inl (dot ▸ same)
  · exact .inr (dots ▸ same)

variable [Fintype P]

theorem Ready.cwd_used (ready : s.Ready) (c : Nat) (cwd : s.cwd p = some c) :
    (s.node c).type ≠ .free :=
  ready.settled.held c (ready.counted.cwd cwd)

/-- The inode that a walk ends at cannot be locked only if it is free. -/
theorem Ready.target_stops (ready : s.Ready) {path : List Char} {target : Target}
    (ends : s.find p path false = .ok (some target))
    (free : target.valid = false ∧ (s.node target.inum).type = .free) : s.Dangling := by
  unfold find at ends
  split_ifs at ends with absolute room
  · exact walk_target (fun _ free => .inl free) ends free.1 free.2
  · cases cwd : s.cwd p with
    | some c =>
        rw [cwd] at ends
        exact walk_target (fun _ free => absurd free (ready.cwd_used c cwd)) ends free.1 free.2
    | none =>
        rw [cwd] at ends
        cases ends

omit [Fintype P] in
theorem createAt_stops {name : Name} {type : InodeType} {major minor : Int} {fault : Fault}
    (directory : (s.node dp).type = .dir)
    (stops : s.createAt dp name type major minor = .error fault) : s.Stops fault := by
  rw [createAt] at stops
  cases present : (s.node dp).lookup name with
  | some off =>
      rw [present] at stops
      dsimp only at stops
      split_ifs at stops with room free reused
      · cases stops
        exact .noType (dangling_of_lookup directory present free.2)
      · cases stops
        exact .noInodes
  | none =>
      rw [present] at stops
      dsimp only at stops
      cases allocated : (List.range' 1 (s.ninodes - 1)).find? fun i =>
          decide ((s.node i).type = .free) with
      | none =>
          rw [allocated] at stops
          cases stops
          exact .noDiskInodes
      | some ip =>
          rw [allocated] at stops
          dsimp only at stops
          split_ifs at stops with room crowded
          · cases stops
            exact .dirlink
          · cases stops
            exact .noInodes

theorem create_stops (ready : s.Ready) {type : InodeType} (typed : type ≠ .free)
    {path : List Char} {major minor : Int} {fault : Fault}
    (stops : s.create p path type major minor = .error fault) : s.Stops fault := by
  have settled := ready.settled
  rw [create_eq settled typed] at stops
  cases ends : s.find p path true with
  | error other =>
      rw [ends] at stops
      cases stops
      exact find_stops ready.cwd_used ends
  | ok found =>
      rw [ends] at stops
      cases found with
      | none => cases stops
      | some target => exact createAt_stops ((find_arrived settled ends).directory rfl).2 stops

theorem openInode_stops (ready : s.Ready) {path : List Char} {omode : Nat} {fault : Fault}
    (stops : s.openInode p path omode = .error fault) : s.Stops fault := by
  have settled := ready.settled
  unfold openInode at stops
  split at stops
  · exact create_stops ready (by decide) stops
  · rw [namei_eq settled] at stops
    cases ends : s.find p path false with
    | error other =>
        rw [ends] at stops
        cases stops
        exact find_stops ready.cwd_used ends
    | ok found =>
        rw [ends] at stops
        cases found with
        | none => cases stops
        | some target =>
            have arrived := find_arrived settled ends
            simp only [bind, Except.bind, namei_ilock settled] at stops
            by_cases free : target.valid = false ∧ (s.node target.inum).type = .free
            · simp only [free, and_self, if_true] at stops
              cases stops
              exact .noType (ready.target_stops ends free)
            · simp only [free, if_false, settled.iunlockput_take (arrived.locked free)] at stops
              split at stops <;> cases stops

theorem unlinkAt_stops (ready : s.Ready) {name : Name} {fault : Fault}
    (directory : (s.node dp).type = .dir) (stops : s.unlinkAt dp name = .error fault) :
    s.Stops fault := by
  rw [unlinkAt] at stops
  split_ifs at stops with dots
  cases present : (s.node dp).lookup name with
  | none =>
      rw [present] at stops
      cases stops
  | some off =>
      rw [present] at stops
      dsimp only at stops
      split_ifs at stops with room self free unlinked used
      · exact absurd (ready.noSelf.dots directory present self) dots
      · cases stops
        exact .noType (dangling_of_lookup directory present free.2)
      · cases stops
        exact .unlink
      · cases stops
        exact .noInodes

theorem sysUnlink_stops (ready : s.Ready) {path : List Char} {fault : Fault}
    (stops : s.sysUnlink p path = .error fault) : s.Stops fault := by
  rw [sysUnlink_eq ready.settled] at stops
  cases ends : s.find p path true with
  | error other =>
      rw [ends] at stops
      cases stops
      exact find_stops ready.cwd_used ends
  | ok found =>
      rw [ends] at stops
      cases found with
      | none => cases stops
      | some target =>
          exact unlinkAt_stops ready ((find_arrived ready.settled ends).directory rfl).2 stops

/-- `link` is asked to create, in the directory `dp`, a name that `dp` has for itself. -/
structure SelfLink (s : Fs P) (p : P) (old new : List Char) (i dp off : Nat) (name : Name) :
    Prop where
  source : ∃ read rest, s.find p old false = .ok (some ⟨i, read, rest⟩)
  parent : (s.raised i).find p new true = .ok (some ⟨dp, true, name⟩)
  allocated : (s.node i).type ≠ .free
  file : (s.node i).type ≠ .dir
  dots : namecmp name ['.'] ∨ namecmp name ['.', '.']
  present : (s.node dp).lookup name = some off
  self : ((s.node dp).entry off).inum = dp

omit [Fintype P] in
theorem dangling_raised : (s.raised i).Dangling ↔ s.Dangling := by
  have type (k : Nat) : ((s.raised i).node k).type = (s.node k).type := addLink_type 1 k
  have entries (k : Nat) : ((s.raised i).node k).entries = (s.node k).entries := by
    by_cases same : k = i
    · subst same
      simp [raised, grab, addLink, setNode]
    · simp [raised, grab, addLink, setNode, Function.update_of_ne same]
  simp only [Dangling, type, entries]

omit [Fintype P] in
theorem Stops.of_raised {fault : Fault} (stops : (s.raised i).Stops fault) : s.Stops fault := by
  cases stops with
  | noType dangling => exact .noType (dangling_raised.mp dangling)
  | _ => constructor

/-- The directory of the new name is found, and the name is looked up in it. -/
theorem linkAt_stops (ready : s.Ready) {name : Name} {fault : Fault}
    (directory : (s.node dp).type = .dir) (stops : s.linkAt i dp name = .error fault) :
    s.Stops fault ∨ ∃ off, (s.node dp).lookup name = some off ∧
      ((s.node dp).entry off).inum = dp ∧
        (namecmp name ['.'] ∨ namecmp name ['.', '.']) := by
  rw [linkAt] at stops
  cases present : (s.node dp).lookup name with
  | some off =>
      rw [present] at stops
      dsimp only at stops
      split_ifs at stops with room self
      · exact .inr ⟨off, rfl, self, ready.noSelf.dots directory present self⟩
      · cases stops
        exact .inl .noInodes
  | none =>
      rw [present] at stops
      dsimp only at stops
      split_ifs at stops with crowded
      cases stops
      exact .inl .dirlink

/-- `link` stops like the other calls, or locks the directory of the new name twice. -/
theorem sysLink_stops (ready : s.Ready) {old new : List Char} {fault : Fault}
    (stops : s.sysLink p old new = .error fault) :
    s.Stops fault ∨ ∃ i dp off name, s.SelfLink p old new i dp off name := by
  have settled := ready.settled
  rw [sysLink_eq settled] at stops
  cases ends : s.find p old false with
  | error other =>
      rw [ends] at stops
      cases stops
      exact .inl (find_stops ready.cwd_used ends)
  | ok found =>
      rw [ends] at stops
      cases found with
      | none => cases stops
      | some target =>
          obtain ⟨i, read, rest⟩ := target
          dsimp only at stops
          split_ifs at stops with free directory
          · cases stops
            exact .inl (.noType (ready.target_stops ends free))
          have used := (find_arrived settled ends).locked free
          have raised := settled.raised used
          cases there : (s.raised i).find p new true with
          | error other =>
              rw [there] at stops
              cases stops
              refine .inl (Stops.of_raised (find_stops (fun c cwd => ?_) there))
              rw [show ((s.raised i).node c).type = (s.node c).type from addLink_type 1 c]
              exact ready.cwd_used c cwd
          | ok found =>
              rw [there] at stops
              cases found with
              | none => cases stops
              | some parent =>
                  obtain ⟨dp, read, name⟩ := parent
                  obtain ⟨rfl, isDir⟩ := (find_arrived raised there).directory rfl
                  have isDir : (s.node dp).type = .dir := (addLink_type 1 dp).symm.trans isDir
                  refine (linkAt_stops ready isDir stops).imp_right ?_
                  rintro ⟨off, present, self, dots⟩
                  exact ⟨i, dp, off, name, ⟨_, _, ends⟩, there, used, directory, dots, present, self⟩

theorem SelfLink.deadlock (ready : s.Ready) {old new : List Char} {off : Nat} {name : Name}
    (links : s.SelfLink p old new i dp off name) :
    s.sysLink p old new = .error (.deadlock dp) := by
  obtain ⟨read, rest, ends⟩ := links.source
  have unlocked : ¬ (read = false ∧ (s.node i).type = .free) := fun free => links.allocated free.2
  have room : ((s.raised i).take dp).Room dp := .inl (by simp [take, grab])
  rw [sysLink_eq ready.settled, ends]
  simp only [unlocked, links.file, if_false, links.parent, linkAt, links.present, links.self, room,
    not_true_eq_false, if_true]

variable [DecidableEq P]

omit [Fintype P] [DecidableEq P] in
theorem snd_error {x : Except Fault (Int × Fs P)} {fault : Fault}
    (stops : x.map Prod.snd = .error fault) : x = .error fault := by
  cases x with
  | error other =>
      cases stops
      rfl
  | ok result => cases stops

omit [DecidableEq P] in
theorem createOnly_stops (ready : s.Ready) {type : InodeType} (typed : type ≠ .free)
    {path : List Char} {major minor : Int} {fault : Fault}
    (stops : s.createOnly p path type major minor = .error fault) : s.Stops fault := by
  have settled := ready.settled
  simp only [createOnly, bind, Except.bind] at stops
  cases created : s.create p path type major minor with
  | error other =>
      rw [created] at stops
      cases stops
      exact create_stops ready typed created
  | ok result =>
      obtain ⟨made, u⟩ := result
      simp only [created] at stops
      obtain ⟨rfl, rfl⟩ | ⟨i, rfl, allocated, rfl⟩ | ⟨dp, name, i, rfl, new, rfl⟩ :=
        create_cases settled typed created
      · cases stops
      · simp only [settled.iunlockput_take allocated] at stops
        cases stops
      · have put := iunlockput_take (i := i)
          (s := (s.made dp name i type (short major) (short minor)).reap dp)
          (by simpa using settled.cached i) (by simpa using settled.unlocked i)
        simp only [put] at stops
        cases stops

theorem sysOpen_stops (ready : s.Ready) {path : List Char} {omode : Nat} {room : Bool}
    {fault : Fault} (stops : s.sysOpen p path omode room = .error fault) : s.Stops fault := by
  have settled := ready.settled
  simp only [sysOpen] at stops
  cases got : s.openInode p path omode with
  | error other =>
      rw [got] at stops
      cases stops
      exact openInode_stops ready got
  | ok result =>
      obtain ⟨found, u⟩ := result
      rw [got] at stops
      obtain ⟨rfl, rfl⟩ | ⟨i, rfl, allocated, rfl⟩ | ⟨dp, name, i, rfl, new, rfl⟩ :=
        openInode_cases settled got
      · cases stops
      · have ends := (openLocked_eq (p := p) (settled.cached i) (settled.unlocked i) room).symm.trans
          stops
        split at ends <;> cases ends
      · have ends := (openLocked_eq (p := p) (i := i)
          (t := (s.made dp name i .file (short 0) (short 0)).reap dp)
          (by simpa using settled.cached i) (by simpa using settled.unlocked i) room).symm.trans stops
        split at ends <;> cases ends

theorem sysChdir_stops (ready : s.Ready) {c : Nat} (cwd : s.cwd p = some c) {path : List Char}
    {fault : Fault} (stops : s.sysChdir p path = .error fault) : s.Stops fault := by
  rw [sysChdir_eq ready.settled cwd (ready.counted.cwd cwd)] at stops
  cases ends : s.find p path false with
  | error other =>
      rw [ends] at stops
      cases stops
      exact find_stops ready.cwd_used ends
  | ok found =>
      rw [ends] at stops
      cases found with
      | none => cases stops
      | some target =>
          dsimp only at stops
          split_ifs at stops with free directory
          cases stops
          exact .noType (ready.target_stops ends free)

omit [DecidableEq P] in
theorem exec_stops (ready : s.Ready) {path : List Char} {fault : Fault}
    (stops : s.exec p path = .error fault) : s.Stops fault := by
  rw [exec_eq ready.settled] at stops
  cases ends : s.find p path false with
  | error other =>
      rw [ends] at stops
      cases stops
      exact find_stops ready.cwd_used ends
  | ok found =>
      rw [ends] at stops
      cases found with
      | none => cases stops
      | some target =>
          dsimp only at stops
          split_ifs at stops with free
          cases stops
          exact .noType (ready.target_stops ends free)

theorem exit_stops (ready : s.Ready) {fault : Fault} (stops : s.exit p = .error fault) :
    s.Stops fault := by
  have none : fault = .noCwd := by
    unfold exit at stops
    generalize List.finRange nofile = fds at stops
    induction fds generalizing s with
    | nil =>
        simp only [closeFiles, bind, Except.bind] at stops
        cases cwd : s.cwd p with
        | none =>
            simp only [cwd] at stops
            cases stops
            rfl
        | some c =>
            simp only [cwd, iput_held ready.settled.cached (ready.settled.unlocked c)
              (ready.counted.cwd cwd)] at stops
            cases stops
    | cons fd fds ih =>
        rw [closeFiles_cons ready.settled fun i file => ready.counted.ofile file] at stops
        cases file : s.ofile p fd with
        | none =>
            simp only [file] at stops
            exact ih ready stops
        | some i =>
            simp only [file] at stops
            exact ih (ready.closed file) stops
  rw [none]
  exact .noCwd

/-- The calls that do not return. -/
theorem call_stops (ready : s.Ready) {c : Nat} (cwd : s.cwd p = some c) {call : FsCall}
    {fault : Fault} (stops : s.call p call = .error fault) :
    s.Stops fault ∨ ∃ old new i dp off name, call = .link old new ∧
      s.SelfLink p old new i dp off name := by
  cases call with
  | «open» path omode room => exact .inl (sysOpen_stops ready (snd_error stops))
  | mkdir path => exact .inl (createOnly_stops ready (by decide) (snd_error stops))
  | mknod path major minor => exact .inl (createOnly_stops ready (by decide) (snd_error stops))
  | link old new =>
      refine (sysLink_stops ready (snd_error stops)).imp_right ?_
      rintro ⟨i, dp, off, name, links⟩
      exact ⟨old, new, i, dp, off, name, rfl, links⟩
  | unlink path => exact .inl (sysUnlink_stops ready (snd_error stops))
  | chdir path => exact .inl (sysChdir_stops ready cwd (snd_error stops))
  | close fd =>
      have stops := snd_error stops
      cases file : s.ofile p fd with
      | none =>
          simp only [sysClose, file] at stops
          cases stops
      | some i =>
          rw [sysClose_eq ready.settled file (ready.counted.ofile file)] at stops
          cases stops
  | exit => exact .inl (exit_stops ready stops)
  | exec path => exact .inl (exec_stops ready stops)

/-! ## In every run -/

theorem reachable_ready (reached : (fsSystem P).Reachable s) : s.Ready := by
  refine reached.invariant ?_ ?_
  · rintro _ ⟨m, live, wellFormed, rfl⟩
    exact boot_ready wellFormed live
  · rintro state ⟨p, call⟩ next ready ⟨running, done⟩
    obtain ⟨c, cwd⟩ := Option.isSome_iff_exists.mp running
    exact ready.call cwd done

/-- In every state that the calls can reach, the calls that lock an inode twice are those that
link a file into a directory under a name that the directory has for itself. -/
theorem locks_once_iff (reached : (fsSystem P).Reachable s) (running : (s.cwd p).isSome)
    (call : FsCall) :
    (∀ k, s.call p call ≠ .error (.deadlock k)) ↔
      ¬ ∃ old new i dp off name, call = .link old new ∧ s.SelfLink p old new i dp off name := by
  have ready := reachable_ready reached
  obtain ⟨c, cwd⟩ := Option.isSome_iff_exists.mp running
  constructor
  · rintro never ⟨old, new, i, dp, off, name, rfl, links⟩
    refine never dp ?_
    rw [Fs.call, links.deadlock ready]
    rfl
  · intro other k stops
    obtain stops | self := call_stops ready cwd stops
    · cases stops
    · exact other self

/-- `link("f", "g")`. -/
theorem link_locks_once :
    (fsSystem (Fin 1)).Reachable ((mkfs [['f']]).boot fun _ => true) ∧
      ∀ k, ((mkfs [['f']]).boot fun _ : Fin 1 => true).call 0 (.link ['f'] ['g']) ≠
        .error (.deadlock k) := by
  have reached : (fsSystem (Fin 1)).Reachable ((mkfs [['f']]).boot fun _ => true) :=
    .start ⟨mkfs [['f']], fun _ => true, Mkfs.wellFormed (by decide) (by decide), rfl⟩
  refine ⟨reached, (locks_once_iff reached (by decide) _).mpr ?_⟩
  rintro ⟨_, _, i, dp, off, name, ⟨⟩, ⟨read, rest, source⟩, parent, _, _, dots, _⟩
  have found : ((mkfs [['f']]).boot fun _ : Fin 1 => true).find 0 ['f'] false =
      .ok (some ⟨2, false, []⟩) := rfl
  rw [found] at source
  cases source
  have last : (((mkfs [['f']]).boot fun _ : Fin 1 => true).raised 2).find 0 ['g'] true =
      .ok (some ⟨rootino, true, ['g']⟩) := rfl
  rw [last] at parent
  cases parent
  revert dots
  decide

/-- `open("f", O_CREATE)` and then `link("f", ".")`. -/
theorem link_dot_locks_twice :
    ∃ s : Fs (Fin 1), (fsSystem (Fin 1)).Reachable s ∧ (s.cwd 0).isSome ∧
      s.call 0 (.link ['f'] ['.']) = .error (.deadlock rootino) := by
  have run : (match ((mkfs []).boot (fun _ : Fin 1 => true)).runCalls
        [(0, .open ['f'] ocreate true)] with
      | .ok s => (s.cwd 0).isSome && (match s.call 0 (.link ['f'] ['.']) with
          | .error fault => fault == .deadlock rootino
          | .ok _ => false)
      | .error _ => false) = true := by decide +kernel
  cases created : ((mkfs []).boot (fun _ : Fin 1 => true)).runCalls
      [(0, .open ['f'] ocreate true)] with
  | error fault =>
      rw [created] at run
      cases run
  | ok s =>
      rw [created] at run
      simp only [Bool.and_eq_true] at run
      obtain ⟨running, stops⟩ := run
      refine ⟨s, runCalls_reachable (boot_reachable _) created, running, ?_⟩
      cases linked : s.call 0 (.link ['f'] ['.']) with
      | error fault =>
          rw [linked] at stops
          rw [beq_iff_eq.mp stops]
      | ok result =>
          rw [linked] at stops
          cases stops

end Fs

end SlabStudy.Xv6
