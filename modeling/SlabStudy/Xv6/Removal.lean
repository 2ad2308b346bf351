import SlabStudy.Xv6.LinkCounts

/-!
# Removing directories

A directory is freed with its last link and reference, whether or not the ".."
entry of another directory still names it, and whatever entries it has got
since it was unlinked.  As long as no call frees a directory that is still
needed, names never dangle, and link counts say which inodes are in use.
-/

namespace SlabStudy.Xv6

open Library

namespace Fs

variable {P : Type} {s t : Fs P} {p : P} {i j dp off : Nat} {name : Name}

/-! ## The images behind the calls -/

theorem reap_image : (s.reap i).toImage =
    if (s.node i).nlink = 0 ∧ s.ref i = 0 then s.toImage.free i else s.toImage := by
  unfold reap
  split <;> rfl

theorem erase_image : ((s.erase dp off i).addLink i (-1)).toImage = s.toImage.unlink dp off i := by
  unfold erase Image.unlink
  dsimp only
  have same : (s.setNode dp ((s.node dp).write off ⟨0, []⟩)).node i =
    (s.toImage.clear dp off).node i := rfl
  rw [same]
  split <;> rfl

theorem made_image {type : InodeType} {major minor : Int} (other : i ≠ dp)
    (inside : 0 < i ∧ i < 65536) (small : dp < 65536) :
    (s.made dp name i type major minor).toImage = s.toImage.make dp name i type major minor := by
  have nonzero : i ≠ 0 := Nat.ne_of_gt inside.1
  have content : ((if type = .dir then (s.setNode i ⟨type, major, minor, 1, []⟩).dots dp i
      else s.setNode i ⟨type, major, minor, 1, []⟩).toImage) =
      if type = .dir then (s.toImage.setNode i (Image.born dp i type major minor)).addLink dp 1
      else s.toImage.setNode i (Image.born dp i type major minor) := by
    by_cases dir : type = .dir
    · rw [if_pos dir, if_pos dir]
      refine congrArg (Image.mk s.ninodes) (funext fun k => ?_)
      by_cases child : k = i
      · subst child
        simp [enter, addLink, setNode, Image.setNode, Image.born, dir, other, nonzero,
          Node.write, Node.vacant, Nat.mod_eq_of_lt inside.2, Nat.mod_eq_of_lt small]
      · by_cases parent : k = dp
        · subst parent
          simp [enter, addLink, setNode, Image.setNode, child]
        · simp [enter, addLink, setNode, Image.setNode, child, parent]
    · rw [if_neg dir, if_neg dir]
      simp [Image.born, dir, setNode, Image.setNode]
  exact congrArg (fun m : Image => m.enter dp name i) content

/-! ## Calls that free no directory too early -/

/-- Giving up the last reference to a directory without links frees it. -/
def Lets (ok : Image → Nat → Prop) (s : Fs P) (i : Nat) : Prop :=
  s.ref i = 1 → (s.node i).nlink = 0 → (s.node i).type = .dir → ok s.toImage i

/-- The same for descriptors that are closed one after the other, and the directory last. -/
def Leaves [DecidableEq P] (ok : Image → Nat → Prop) (p : P) : Fs P → List (Fin nofile) → Prop
  | s, [] => ∀ c, s.cwd p = some c → s.Lets ok c
  | s, fd :: fds =>
      match s.ofile p fd with
      | none => Leaves ok p s fds
      | some i => s.Lets ok i ∧ Leaves ok p (s.closed p fd i) fds

/-- A call that frees no directory for which `ok` fails, nor one whose ".." entries are in use,
and that raises no link count beyond its field. -/
def Careful [DecidableEq P] (ok : Image → Nat → Prop) (s : Fs P) : P × FsCall → Prop
  | (p, .link old new) => ∀ i dp name, s.Links p old new i dp name → (s.node i).nlink ≠ 32767
  | (p, .unlink path) => ∀ dp off i name, s.Unlinks p path dp off i name →
      (s.node i).type = .dir → ¬ ((s.node dp).nlink = 1 ∧ s.ref dp = 0) ∧
        ((s.node i).nlink = 1 → s.ref i = 0 → ¬ s.toImage.Orphans i)
  | (p, .chdir path) => ∀ i c, (∃ read rest, s.find p path false = .ok (some ⟨i, read, rest⟩)) →
      (s.node i).type = .dir → s.cwd p = some c → i ≠ c → s.Lets ok c
  | (p, .close fd) => ∀ i, s.ofile p fd = some i → s.Lets ok i
  | (p, .exit) => Leaves ok p s (List.finRange nofile)
  | _ => True

/-- A directory may go when no other directory is below it, and, if `tidy`, when it is empty. -/
def Spare (tidy : Prop) (m : Image) (i : Nat) : Prop :=
  ¬ m.Orphans i ∧ (tidy → (m.node i).isdirempty = true)

variable {tidy : Prop}

/-- A directory that is freed may go. -/
theorem reap_accounts (accounts : Image.Accounts tidy s.toImage fun _ => 0)
    (used : (s.node i).type ≠ .free)
    (spare : (s.node i).nlink = 0 → s.ref i = 0 → (s.node i).type = .dir →
      Spare tidy s.toImage i) : Image.Accounts tidy (s.reap i).toImage fun _ => 0 := by
  rw [reap_image]
  split
  · next last =>
    exact accounts.free used last.1 (fun directory => (spare last.1 last.2 directory).1)
      fun here directory => (spare last.1 last.2 directory).2 here
  · exact accounts

/-- An inode that is kept is not freed. -/
theorem reap_kept (kept : (s.node i).nlink = 0 → s.ref i ≠ 0) : s.reap i = s :=
  if_neg fun last => kept last.1 last.2

theorem release_accounts (ready : s.Settled) (accounts : Image.Accounts tidy s.toImage fun _ => 0)
    (held : 0 < s.ref i) (lets : s.Lets (Spare tidy) i) :
    Image.Accounts tidy ((s.drop i).reap i).toImage fun _ => 0 := by
  refine reap_accounts (s := s.drop i) accounts (ready.held i held) fun links none directory => ?_
  have last : s.ref i - 1 = 0 := by simpa [drop] using none
  exact lets (by omega) links directory

/-- The parent of a new directory has a link more. -/
theorem made_parent {type : InodeType} {major minor : Int} (other : dp ≠ i) :
    ((s.made dp name i type major minor).node dp).nlink =
      if type = .dir then short ((s.node dp).nlink + 1) else (s.node dp).nlink := by
  unfold made
  dsimp only
  split
  · simp [enter, setNode, Node.write, dots, addLink, other]
  · simp [enter, setNode, Node.write, other]

theorem made_accounts {type : InodeType} {major minor : Int} (settled : s.Settled)
    (accounts : Image.Accounts tidy s.toImage fun _ => 0) (new : s.New dp name i)
    (typed : type ≠ .free) :
    Image.Accounts tidy ((s.made dp name i type major minor).reap dp).toImage fun _ => 0 := by
  have few := settled.few
  have low := new.inside
  have small := settled.inside dp (by simp [new.directory])
  have links := accounts.books.dir_nlink new.directory
  have made : Image.Accounts tidy (s.toImage.make dp name i type major minor) fun _ => 0 :=
    accounts.make new.directory new.absent new.space new.free new.inside typed
  rw [← made_image new.other (by omega) (by omega)] at made
  have kept : ((s.made dp name i type major minor).node dp).nlink = 0 →
      (s.made dp name i type major minor).ref dp ≠ 0 := by
    intro none
    rw [made_parent new.other.symm] at none
    rw [made_ref]
    split at none
    · rw [Image.short_of_range (by omega) (by omega)] at none
      omega
    · exact Nat.ne_of_gt (settled.kept dp (by simp [new.directory]) none)
  rw [reap_kept kept]
  exact made

theorem linked_accounts {old new : List Char} (settled : s.Settled)
    (accounts : Image.Accounts tidy s.toImage fun _ => 0) (links : s.Links p old new i dp name)
    (few : (s.node i).nlink ≠ 32767) :
    Image.Accounts tidy (((s.addLink i 1).enter dp name i).reap i).toImage fun _ => 0 := by
  have fits : short ((s.node i).nlink + 1) = (s.node i).nlink + 1 := by
    have fits := settled.fits i
    simp only [short, Int.bmod_def] at fits ⊢
    omega
  have linked : Image.Accounts tidy ((s.addLink i 1).enter dp name i).toImage fun _ => 0 :=
    accounts.link links.directory links.absent links.space links.allocated links.file fits
  have other : i ≠ dp := by
    rintro rfl
    exact links.file links.directory
  have node : (((s.addLink i 1).enter dp name i).node i).type = (s.node i).type := by
    rw [enter_other other, addLink_type]
  refine reap_accounts linked (by rw [node]; exact links.allocated) fun _ _ directory => ?_
  exact absurd (node.symm.trans directory) links.file

/-- The links of the parent, and of the inode, behind `unlink`. -/
theorem erase_parent : ((s.erase dp off i).node dp).nlink =
    if ((s.setNode dp ((s.node dp).write off ⟨0, []⟩)).node i).type = .dir then
      short ((s.node dp).nlink + -1) else (s.node dp).nlink := by
  unfold erase
  dsimp only
  split <;> simp [addLink, setNode, Node.write]

theorem unlinked_accounts {path : List Char} (settled : s.Settled)
    (accounts : Image.Accounts tidy s.toImage fun _ => 0)
    (unlinks : s.Unlinks p path dp off i name)
    (careful : (s.node i).type = .dir → ¬ ((s.node dp).nlink = 1 ∧ s.ref dp = 0) ∧
        ((s.node i).nlink = 1 → s.ref i = 0 → ¬ s.toImage.Orphans i)) :
    Image.Accounts tidy ((((s.erase dp off i).reap dp).addLink i (-1)).reap i).toImage
      fun _ => 0 := by
  have other := unlinks.other
  have links := accounts.books.dir_nlink unlinks.directory
  have erased : Image.Accounts tidy ((s.erase dp off i).addLink i (-1)).toImage fun _ => 0 := by
    rw [erase_image]
    exact accounts.unlink unlinks.directory unlinks.present unlinks.plain unlinks.names other
      unlinks.links (settled.fits i)
  have child : (s.setNode dp ((s.node dp).write off ⟨0, []⟩)).node i = s.node i :=
    Function.update_of_ne other _ _
  have kept : ((s.erase dp off i).node dp).nlink = 0 → (s.erase dp off i).ref dp ≠ 0 := by
    intro none
    rw [erase_parent, child] at none
    rw [erase_ref]
    split at none
    · next directory =>
      rw [Image.short_of_range (by omega) (by omega)] at none
      have last := (careful directory).1
      omega
    · exact Nat.ne_of_gt (settled.kept dp (by simp [unlinks.directory]) none)
  rw [reap_kept kept]
  have node : ((s.erase dp off i).addLink i (-1)).node i =
      { s.node i with nlink := short ((s.node i).nlink + -1) } := by
    simp [addLink, setNode, erase_other other]
  refine reap_accounts erased (by rw [node]; exact unlinks.allocated) fun none last directory => ?_
  rw [node] at none directory
  have fits := settled.fits i
  have positive := unlinks.links
  have single : (s.node i).nlink = 1 := by
    simp only [short, Int.bmod_def] at fits none
    omega
  have alone : s.ref i = 0 := by simpa using last
  refine ⟨fun orphans => (careful directory).2 single alone ?_, fun _ => ?_⟩
  · rw [erase_image] at orphans
    obtain ⟨late, short, -⟩ := Image.present_late (accounts.books.form dp unlinks.directory)
      unlinks.present unlinks.plain
    exact (Image.unlink_orphans late short.le).mp orphans
  · rw [node]
    exact unlinks.empty directory

variable [DecidableEq P] [Fintype P]

/-- Every call that is careful keeps the accounts. -/
theorem result_accounts (ready : s.Ready) (accounts : Image.Accounts tidy s.toImage fun _ => 0)
    {call : FsCall} (careful : s.Careful (Spare tidy) (p, call)) (done : s.Result p call t) :
    Image.Accounts tidy t.toImage fun _ => 0 := by
  have settled := ready.settled
  cases done with
  | same => exact accounts
  | opened allocated free => exact accounts
  | made new typed => exact made_accounts settled accounts new typed
  | madeOpened new typed free => exact made_accounts settled accounts new typed
  | linked links => exact linked_accounts settled accounts links (careful _ _ _ links)
  | unlinked unlinks => exact unlinked_accounts settled accounts unlinks (careful _ _ _ _ unlinks)
  | @moved path i c source directory cwd =>
      have held := ready.counted.cwd cwd
      have allocated : (s.node i).type ≠ .free := by simp [directory]
      refine release_accounts (s := s.grab i true) (settled.grab allocated) accounts ?_ ?_
      · rw [grab_ref]
        omega
      · intro last links kind
        rw [grab_ref] at last
        have away : i ≠ c := by
          rintro rfl
          rw [if_pos rfl] at last
          omega
        rw [if_neg fun same => away (Option.some.inj same)] at last
        exact careful i c source directory cwd away last links kind
  | @closed fd i file =>
      exact release_accounts settled.setFile accounts (ready.counted.ofile file) (careful i file)

theorem exits_accounts {fds : List (Fin nofile)} (exits : Exits p s fds t) (ready : s.Ready)
    (accounts : Image.Accounts tidy s.toImage fun _ => 0) (careful : Leaves (Spare tidy) p s fds) :
    Image.Accounts tidy t.toImage fun _ => 0 := by
  induction exits with
  | left cwd =>
      exact release_accounts ready.settled accounts (ready.counted.cwd cwd) (careful _ cwd)
  | skip free rest ih =>
      simp only [Leaves, free] at careful
      exact ih ready accounts careful
  | close file rest ih =>
      simp only [Leaves, file] at careful
      exact ih (ready.closed file) (release_accounts ready.settled.setFile accounts
        (ready.counted.ofile file) careful.1) careful.2

theorem call_accounts (ready : s.Ready) (accounts : Image.Accounts tidy s.toImage fun _ => 0)
    {c : Nat} (cwd : s.cwd p = some c) {call : FsCall}
    (careful : s.Careful (Spare tidy) (p, call)) (done : s.call p call = .ok t) :
    Image.Accounts tidy t.toImage fun _ => 0 := by
  by_cases exits : call = .exit
  · subst exits
    exact exits_accounts (exit_loop ready done) ready accounts careful
  · exact result_accounts ready accounts careful
      (call_result ready.settled ready.counted cwd exits done)

/-- In every run of careful calls. -/
theorem careful_accounts
    (reached : ((fsSystem P).guarded (Careful (Spare tidy))).Reachable s) :
    s.Ready ∧ Image.Accounts tidy s.toImage fun _ => 0 := by
  refine System.Reachable.invariant
    (P := fun s => s.Ready ∧ Image.Accounts tidy s.toImage fun _ => 0) ?_ ?_ reached
  · rintro _ ⟨m, live, wellFormed, rfl⟩
    refine ⟨boot_ready wellFormed live, wellFormed.books, fun _ i used file => ?_⟩
    rw [Int.add_zero]
    exact wellFormed.exact i used file
  · rintro state ⟨p, call⟩ next ⟨ready, accounts⟩ ⟨careful, running, done⟩
    obtain ⟨c, cwd⟩ := Option.isSome_iff_exists.mp running
    exact ⟨ready.call cwd done, call_accounts ready accounts cwd careful done⟩

/-! ## Runs of careful calls -/

section Checks

variable (tidy : Prop) [Decidable tidy]

/-- `Spare`, looked up in an image whose inodes are all on the disk. -/
def spares (s : Fs P) (i : Nat) : Bool :=
  decide ((∀ d < s.ninodes, d ≠ i → (s.node d).type = .dir → s.toImage.up d ≠ i) ∧
    (tidy → (s.node i).isdirempty = true))

/-- `Lets`. -/
def lets (s : Fs P) (i : Nat) : Bool :=
  if s.ref i = 1 ∧ (s.node i).nlink = 0 ∧ (s.node i).type = .dir then s.spares tidy i else true

/-- `Leaves`. -/
def leaves (p : P) : Fs P → List (Fin nofile) → Bool
  | s, [] => (s.cwd p).all (s.lets tidy)
  | s, fd :: fds =>
      match s.ofile p fd with
      | none => leaves p s fds
      | some i => s.lets tidy i && leaves p (s.closed p fd i) fds

/-- `Careful`. -/
def careful (s : Fs P) : P × FsCall → Bool
  | (p, .link old _) =>
      match s.find p old false with
      | .ok (some target) => (s.node target.inum).nlink != 32767
      | _ => true
  | (p, .unlink path) =>
      match s.find p path true with
      | .ok (some target) =>
          match (s.node target.inum).lookup target.name with
          | some off =>
              let i := ((s.node target.inum).entry off).inum
              if (s.node i).type = .dir then
                !decide ((s.node target.inum).nlink = 1 ∧ s.ref target.inum = 0) &&
                  (if (s.node i).nlink = 1 ∧ s.ref i = 0 then s.spares False i else true)
              else true
          | none => true
      | _ => true
  | (p, .chdir path) =>
      match s.find p path false with
      | .ok (some target) =>
          if (s.node target.inum).type = .dir then
            (s.cwd p).all fun c => target.inum == c || s.lets tidy c
          else true
      | _ => true
  | (p, .close fd) => (s.ofile p fd).all (s.lets tidy)
  | (p, .exit) => s.leaves tidy p (List.finRange nofile)
  | _ => true

/-- A list of careful calls, each by a process that is there. -/
def runCareful : Fs P → List (P × FsCall) → Option (Fs P)
  | s, [] => some s
  | s, label :: rest =>
      if (s.cwd label.1).isSome ∧ s.careful tidy label = true then
        match s.call label.1 label.2 with
        | .ok t => t.runCareful rest
        | .error _ => none
      else none

variable {tidy}

omit [Fintype P] [DecidableEq P] in
theorem spares_spec (settled : s.Settled) (spares : s.spares tidy i = true) :
    Spare tidy s.toImage i := by
  obtain ⟨childless, empty⟩ := of_decide_eq_true spares
  refine ⟨?_, empty⟩
  rintro ⟨d, other, directory, up⟩
  exact childless d (settled.inside d (by simp [directory])).2 other directory up

omit [Fintype P] [DecidableEq P] in
theorem lets_spec (settled : s.Settled) (lets : s.lets tidy i = true) : s.Lets (Spare tidy) i := by
  intro last links directory
  rw [Fs.lets, if_pos ⟨last, links, directory⟩] at lets
  exact spares_spec settled lets

theorem leaves_spec {fds : List (Fin nofile)} (ready : s.Ready)
    (leaves : s.leaves tidy p fds = true) : Leaves (Spare tidy) p s fds := by
  induction fds generalizing s with
  | nil =>
      intro c cwd
      simp only [Fs.leaves, cwd, Option.all_some] at leaves
      exact lets_spec ready.settled leaves
  | cons fd fds ih =>
      cases file : s.ofile p fd with
      | none =>
          simp only [Fs.leaves, file] at leaves
          simp only [Leaves, file]
          exact ih ready leaves
      | some i =>
          simp only [Fs.leaves, file, Bool.and_eq_true] at leaves
          simp only [Leaves, file]
          exact ⟨lets_spec ready.settled leaves.1, ih (ready.closed file) leaves.2⟩

theorem careful_spec (ready : s.Ready) {label : P × FsCall} (check : s.careful tidy label = true) :
    s.Careful (Spare tidy) label := by
  obtain ⟨p, call⟩ := label
  cases call with
  | link old new =>
      rintro i dp name links
      obtain ⟨read, rest, source⟩ := links.source
      simpa only [careful, source, bne_iff_ne] using check
  | unlink path =>
      rintro dp off i name unlinks directory
      simp only [careful, unlinks.parent, unlinks.present, unlinks.names, if_pos directory,
        Bool.and_eq_true, Bool.not_eq_true', decide_eq_false_iff_not] at check
      refine ⟨check.1, fun last unused orphans => ?_⟩
      have spares := check.2
      rw [if_pos ⟨last, unused⟩] at spares
      exact (spares_spec ready.settled spares).1 orphans
  | chdir path =>
      rintro i c ⟨read, rest, source⟩ directory cwd away
      simp only [careful, source, if_pos directory, cwd, Option.all_some, Bool.or_eq_true,
        beq_iff_eq] at check
      exact lets_spec ready.settled (check.resolve_left away)
  | close fd =>
      rintro i file
      simp only [careful, file, Option.all_some] at check
      exact lets_spec ready.settled check
  | exit => exact leaves_spec ready check
  | «open» path omode room => trivial
  | mkdir path => trivial
  | mknod path major minor => trivial
  | exec path => trivial

theorem runCareful_reachable {labels : List (P × FsCall)}
    (reached : ((fsSystem P).guarded (Careful (Spare tidy))).Reachable s)
    (done : s.runCareful tidy labels = some t) :
    ((fsSystem P).guarded (Careful (Spare tidy))).Reachable t := by
  induction labels generalizing s with
  | nil =>
      cases done
      exact reached
  | cons label rest ih =>
      simp only [runCareful] at done
      split at done
      · next here =>
          cases next : s.call label.1 label.2 with
          | error fault =>
              rw [next] at done
              cases done
          | ok u =>
              rw [next] at done
              have edge : (fsSystem P).step s label u := ⟨here.1, next⟩
              have guard := careful_spec (careful_accounts reached).1 here.2
              exact ih (reached.step ⟨guard, edge⟩) done
      · cases done

end Checks

/-! ## Names that lead nowhere -/

/-- As long as no call frees a directory that another one has as its "..", every entry of every
directory names an allocated inode, and no path leads to a free one. -/
theorem careful_names_used (reached : ((fsSystem P).guarded (Careful (Spare False))).Reachable s) :
    (∀ d, (s.node d).type = .dir → ∀ de ∈ (s.node d).entries, de.inum ≠ 0 →
      (s.node de.inum).type ≠ .free) ∧
    ∀ p call, (s.cwd p).isSome → s.call p call ≠ .error .noType := by
  obtain ⟨ready, accounts⟩ := careful_accounts reached
  have books := accounts.books
  refine ⟨books.target, fun p call running stops => ?_⟩
  obtain ⟨c, cwd⟩ := Option.isSome_iff_exists.mp running
  obtain stops | ⟨old, new, i, dp, off, name, rfl, links⟩ := call_stops ready cwd stops
  · cases stops with
    | noType dangling =>
        obtain root | ⟨d, directory, de, member, some, free⟩ := dangling
        · rw [books.root.1] at root
          cases root
        · exact books.target d directory de member some free
  · rw [Fs.call, links.deadlock ready] at stops
    cases stops

/-- A directory that is removed while it is open goes with its descriptor, then its parent goes,
and a new directory gets the inode of the parent. -/
theorem removed_names_used :
    ∃ s : Fs (Fin 2), ((fsSystem (Fin 2)).guarded (Careful (Spare False))).Reachable s ∧
      ((s.node 4).type = .free ∧ (s.node 3).type = .dir ∧ s.cwd 0 = some 3) ∧
      (∀ d, (s.node d).type = .dir → ∀ de ∈ (s.node d).entries, de.inum ≠ 0 →
        (s.node de.inum).type ≠ .free) ∧
      ∀ p call, (s.cwd p).isSome → s.call p call ≠ .error .noType := by
  have run : (((mkfs [['f']]).boot fun _ : Fin 2 => true).runCareful False
      [(0, .mkdir ['a']), (1, .mkdir ['a', '/', 'b']), (0, .chdir ['a', '/', 'b']),
        (0, .open ['g'] ocreate true), (0, .close 0), (0, .unlink ['g']), (0, .open ['.'] 0 true),
        (0, .chdir ['/']), (1, .unlink ['a', '/', 'b']), (0, .close 0), (1, .unlink ['a']),
        (1, .mkdir ['c']), (0, .chdir ['c'])]).any (fun s =>
      decide ((s.node 4).type = .free ∧ (s.node 3).type = .dir ∧ s.cwd 0 = some 3)) = true := by
    decide +kernel
  obtain ⟨s, done, state⟩ := (Option.any_eq_true _ _).mp run
  have reached := runCareful_reachable (.start ⟨mkfs [['f']], fun _ => true,
    Mkfs.wellFormed (by decide) (by decide), rfl⟩) done
  exact ⟨s, reached, of_decide_eq_true state, careful_names_used reached⟩

/-- `mkdir a`, `mkdir a/b`, `cd a/b`, `rmdir /a/b`, `rmdir /a`: then ".." is gone. -/
theorem removed_parent_dangles :
    ∃ s : Fs (Fin 1), (fsSystem (Fin 1)).Reachable s ∧
      (∃ d, (s.node d).type = .dir ∧ ∃ de ∈ (s.node d).entries, de.inum ≠ 0 ∧
        (s.node de.inum).type = .free) ∧
      (s.cwd 0).isSome ∧ s.call 0 (.chdir ['.', '.']) = .error .noType := by
  have run : (match ((mkfs []).boot (fun _ : Fin 1 => true)).runCalls
        [(0, .mkdir ['a']), (0, .mkdir ['a', '/', 'b']), (0, .chdir ['a', '/', 'b']),
          (0, .unlink ['/', 'a', '/', 'b']), (0, .unlink ['/', 'a'])] with
      | .ok s => decide ((s.node 3).type = .dir) && ((s.node 3).entries.any fun de =>
            de.inum != 0 && decide ((s.node de.inum).type = .free)) &&
          (s.cwd 0).isSome && (match s.call 0 (.chdir ['.', '.']) with
          | .error fault => fault == .noType
          | .ok _ => false)
      | .error _ => false) = true := by decide +kernel
  split at run
  · next s removed =>
    simp only [Bool.and_eq_true, decide_eq_true_eq, List.any_eq_true, bne_iff_ne] at run
    obtain ⟨⟨⟨directory, de, member, some, free⟩, running⟩, stops⟩ := run
    refine ⟨s, runCalls_reachable (boot_reachable _) removed,
      ⟨3, directory, de, member, some, free⟩, running, ?_⟩
    split at stops
    · next fault walked =>
      rw [walked, beq_iff_eq.mp stops]
    · cases stops
  · cases run

/-! ## Links and use -/

end Fs

namespace Image

variable {m : Image} {i d : Nat}

/-- The entries, over all directories, that name an inode. -/
def references (m : Image) (i : Nat) : Nat :=
  ∑ d ∈ Finset.range m.ninodes,
    if (m.node d).type = .dir then ((m.node d).entries.map Dirent.inum).count i else 0

/-- The entries "." and ".." name directories. -/
theorem references_file (books : m.Books fun _ => 0) (file : (m.node i).type ≠ .dir) :
    m.references i = m.named i := by
  refine Finset.sum_congr rfl fun d _ => ?_
  split
  · next directory =>
    have form := books.form d directory
    have self : d ≠ i := fun same => file (same ▸ directory)
    have parent : ((m.node d).entry 1).inum ≠ i := fun same =>
      file (same ▸ books.above d directory)
    have first : ((m.node d).entry 0).inum ≠ i := by
      rw [form.dot]
      exact self
    rw [names, Node.inums, if_pos directory, entries_split form.dots, List.map_cons, List.map_cons,
      List.count_cons_of_ne first, List.count_cons_of_ne parent]
    rfl
  · next plain =>
    rw [names, Node.inums, if_neg plain, List.count_nil]

/-- An inode that is counted is named by an entry. -/
theorem references_pos (counted : m.references i ≠ 0) :
    ∃ d, (m.node d).type = .dir ∧ ∃ de ∈ (m.node d).entries, de.inum = i := by
  obtain ⟨d, -, here⟩ := Finset.exists_ne_zero_of_sum_ne_zero counted
  split at here
  · next directory =>
    have member := List.count_pos_iff.mp (Nat.pos_of_ne_zero here)
    obtain ⟨de, inside, names⟩ := List.mem_map.mp member
    exact ⟨d, directory, de, inside, names⟩
  · exact absurd rfl here

end Image

namespace Fs

variable {P : Type} [DecidableEq P] [Fintype P] {s : Fs P} {i : Nat}

omit [DecidableEq P] in
/-- An inode that is counted is held. -/
theorem holders_pos (counted : s.holders i ≠ 0) :
    (∃ p, s.cwd p = some i) ∨ ∃ p fd, s.ofile p fd = some i := by
  by_contra none
  simp only [not_or, not_exists] at none
  refine counted ?_
  unfold holders
  rw [Finset.sum_eq_zero fun p _ => if_neg (none.1 p),
    Finset.sum_eq_zero fun p _ => Finset.sum_eq_zero fun fd _ => if_neg (none.2 p fd),
    Nat.add_zero]

/-- As long as a directory that is freed is empty and no other one has it as its "..", the link
count of a file is the number of its names, and the inodes in use are those that are named, held
open, or the current directory of a process. -/
theorem careful_links_exact (reached : ((fsSystem P).guarded (Careful (Spare True))).Reachable s) :
    (∀ i, (s.node i).type ≠ .free → (s.node i).type ≠ .dir →
      (s.node i).nlink = s.toImage.references i) ∧
    ∀ i, (s.node i).type ≠ .free ↔ i ≠ 0 ∧
      ((∃ d, (s.node d).type = .dir ∧ ∃ de ∈ (s.node d).entries, de.inum = i) ∨
        (∃ p, s.cwd p = some i) ∨ ∃ p fd, s.ofile p fd = some i) := by
  obtain ⟨ready, accounts⟩ := careful_accounts reached
  have books := accounts.books
  have links (i : Nat) (used : (s.node i).type ≠ .free) (file : (s.node i).type ≠ .dir) :
      (s.node i).nlink = s.toImage.references i := by
    rw [Image.references_file books file]
    simpa using accounts.exact trivial i used file
  refine ⟨links, fun i => ⟨fun used => ⟨Nat.ne_of_gt (books.inside i used).1, ?_⟩, ?_⟩⟩
  · by_cases directory : (s.node i).type = .dir
    · -- a directory names itself
      have form := books.form i directory
      refine .inl ⟨i, directory, (s.node i).entry 0, ?_, by rw [form.dot]⟩
      rw [entries_split form.dots]
      exact List.mem_cons_self
    · by_cases none : (s.node i).nlink = 0
      · have held := ready.settled.kept i used none
        rw [ready.counted i] at held
        exact .inr (holders_pos (Nat.ne_of_gt held))
      · refine .inl (Image.references_pos fun zero => none ?_)
        rw [links i used directory, zero]
        rfl
  · rintro ⟨some, ⟨d, directory, de, member, rfl⟩ | ⟨p, cwd⟩ | ⟨p, fd, file⟩⟩
    · exact books.target d directory de member some
    · exact ready.settled.held i (ready.counted.cwd cwd)
    · exact ready.settled.held i (ready.counted.ofile file)

/-- A file gets a second and a third name, two of its names are removed while it is open, and the
directory of the third one is removed while it is the current directory. -/
theorem removed_links_exact :
    ∃ s : Fs (Fin 2), ((fsSystem (Fin 2)).guarded (Careful (Spare True))).Reachable s ∧
      ((s.node 3).type = .free ∧ (s.node 2).type = .file ∧ (s.node 2).nlink = 1) ∧
      ((s.node 2).nlink = s.toImage.references 2 ∧
        ∀ i, (s.node i).type ≠ .free ↔ i ≠ 0 ∧
          ((∃ d, (s.node d).type = .dir ∧ ∃ de ∈ (s.node d).entries, de.inum = i) ∨
            (∃ p, s.cwd p = some i) ∨ ∃ p fd, s.ofile p fd = some i)) := by
  have run : (((mkfs [['f']]).boot fun _ : Fin 2 => true).runCareful True
      [(0, .link ['f'] ['g']), (1, .mkdir ['d']), (0, .link ['f'] ['d', '/', 'h']),
        (1, .open ['d', '/', 'h'] 0 true), (0, .unlink ['f']), (1, .chdir ['d']),
        (1, .unlink ['h']), (1, .close 0), (0, .unlink ['d']), (1, .chdir ['/'])]).any (fun s =>
      decide ((s.node 3).type = .free ∧ (s.node 2).type = .file ∧ (s.node 2).nlink = 1)) = true := by
    decide +kernel
  obtain ⟨s, done, state⟩ := (Option.any_eq_true _ _).mp run
  have state := of_decide_eq_true state
  have reached := runCareful_reachable (.start ⟨mkfs [['f']], fun _ => true,
    Mkfs.wellFormed (by decide) (by decide), rfl⟩) done
  obtain ⟨links, used⟩ := careful_links_exact reached
  exact ⟨s, reached, state, links 2 (by simp [state.2.1]) (by simp [state.2.1]), used⟩

/-- `mkdir d`, `cd d`, `rmdir /d`, a file created in it and closed, `cd /`: the file is left with
a link and no name. -/
theorem file_in_removed_directory_leaks :
    ∃ s : Fs (Fin 1), (fsSystem (Fin 1)).Reachable s ∧ (s.node 3).type = .file ∧
      (s.node 3).nlink = 1 ∧ s.toImage.references 3 = 0 ∧
      s.cwd 0 ≠ some 3 ∧ ∀ fd, s.ofile 0 fd ≠ some 3 := by
  have run : (match ((mkfs []).boot (fun _ : Fin 1 => true)).runCalls
        [(0, .mkdir ['d']), (0, .chdir ['d']), (0, .unlink ['/', 'd']),
          (0, .open ['f'] ocreate true), (0, .close 0), (0, .chdir ['/'])] with
      | .ok s => decide ((s.node 3).type = .file ∧ (s.node 3).nlink = 1 ∧
          s.toImage.references 3 = 0 ∧ s.cwd 0 ≠ some 3 ∧ ∀ fd, s.ofile 0 fd ≠ some 3)
      | .error _ => false) = true := by decide +kernel
  split at run
  · next s left =>
    exact ⟨s, runCalls_reachable (boot_reachable _) left, of_decide_eq_true run⟩
  · cases run

end Fs

end SlabStudy.Xv6
