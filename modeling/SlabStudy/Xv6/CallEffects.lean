import Mathlib.Algebra.Order.BigOperators.Group.Finset
import SlabStudy.Library.Ledger
import SlabStudy.Xv6.CallResults

/-!
# The effects of the calls

What a call that returns has done to the file system, one case for each kind
of effect, and that every call leaves a state ready for the next one: it is
settled, the references to an inode are the current directories and open files
that hold it, and only "." and ".." name the directory they are in.
-/

namespace SlabStudy.Xv6

open Library

namespace Fs

variable {P : Type} {s : Fs P} {i j dp : Nat} {p : P}

/-! ## Updates keep the state calm -/

theorem Calm.setNode (calm : s.Calm) {n : Node} (held : 0 < s.ref i → n.type ≠ .free)
    (fits : short n.nlink = n.nlink) (inside : n.type ≠ .free → 0 < i ∧ i < s.ninodes) :
    (s.setNode i n).Calm where
  cached := calm.cached
  unlocked := calm.unlocked
  held k references := by
    by_cases same : k = i
    · subst same
      simpa [Fs.setNode] using held references
    · simpa [Fs.setNode, Function.update_of_ne same] using calm.held k references
  fits k := by
    by_cases same : k = i
    · subst same
      simpa [Fs.setNode] using fits
    · simpa [Fs.setNode, Function.update_of_ne same] using calm.fits k
  inside k used := by
    by_cases same : k = i
    · subst same
      exact inside (by simpa [Fs.setNode] using used)
    · exact calm.inside k (by simpa [Fs.setNode, Function.update_of_ne same] using used)
  few := calm.few

/-- An update that keeps the type. -/
theorem Calm.retype (calm : s.Calm) {n : Node} (type : n.type = (s.node i).type)
    (fits : short n.nlink = n.nlink) : (s.setNode i n).Calm :=
  calm.setNode (fun references => type ▸ calm.held i references) fits
    (fun used => calm.inside i (type ▸ used))

theorem Calm.addLink (calm : s.Calm) (n : Int) : (s.addLink i n).Calm :=
  calm.retype rfl (short_short _)

theorem Calm.enter (calm : s.Calm) (name : Name) : (s.enter dp name i).Calm :=
  calm.retype rfl (calm.fits dp)

theorem Calm.erase (calm : s.Calm) (off : Nat) : (s.erase dp off i).Calm := by
  have cleared : (s.setNode dp ((s.node dp).write off ⟨0, []⟩)).Calm :=
    calm.retype rfl (calm.fits dp)
  unfold Fs.erase
  dsimp only
  split
  · exact cleared.addLink (-1)
  · exact cleared

theorem Calm.reap (calm : s.Calm) : (s.reap i).Calm := by
  unfold Fs.reap
  split
  · next last =>
    exact calm.setNode (fun references => by omega) (calm.fits i) (fun used => absurd rfl used)
  · exact calm

theorem Calm.made (calm : s.Calm) {name : Name} {type : InodeType} {major minor : Int}
    (typed : type ≠ .free) (inside : 0 < i ∧ i < s.ninodes) :
    (s.made dp name i type major minor).Calm := by
  have filled : (s.setNode i ⟨type, major, minor, 1, []⟩).Calm :=
    calm.setNode (fun _ => typed) (show short 1 = 1 by decide) (fun _ => inside)
  unfold Fs.made
  dsimp only
  split
  · exact (((filled.addLink 1).enter ['.']).enter ['.', '.']).enter name
  · exact filled.enter name

theorem Calm.drop (calm : s.Calm) : (s.drop i).Calm where
  cached k := by
    by_cases same : k = i
    · subst same
      exact drop_read
    · simpa [Fs.drop, Function.update_of_ne same] using calm.cached k
  unlocked := calm.unlocked
  held k references := by
    refine calm.held k ?_
    by_cases same : k = i
    · subst same
      simp only [Fs.drop, Function.update_self] at references
      omega
    · simpa [Fs.drop, Function.update_of_ne same] using references
  fits := calm.fits
  inside := calm.inside
  few := calm.few

/-! ## Inodes that are not in use are freed -/

theorem Kept.reap_self : (s.reap i).Kept i := by
  intro used links
  by_cases last : (s.node i).nlink = 0 ∧ s.ref i = 0
  · simp [Fs.reap, last, free, setNode] at used
  · simp only [Fs.reap, last, if_false] at links ⊢
    omega

theorem Kept.reap (kept : s.Kept j) : (s.reap i).Kept j := by
  by_cases same : j = i
  · subst same
    exact Kept.reap_self
  · unfold Fs.reap
    split
    · simpa [Kept, free, Fs.setNode, Function.update_of_ne same] using kept
    · exact kept

theorem Kept.setNode {n : Node} (kept : s.Kept j) (other : j ≠ i) : (s.setNode i n).Kept j := by
  simpa [Kept, Fs.setNode, Function.update_of_ne other] using kept

/-- An entry that is written leaves type and links alone. -/
theorem Kept.enter (kept : s.Kept j) (name : Name) : (s.enter dp name i).Kept j := by
  by_cases same : j = dp
  · subst same
    simpa [Kept, Fs.enter, Fs.setNode, Node.write] using kept
  · exact kept.setNode same

theorem Kept.drop (kept : s.Kept j) (other : j ≠ i) : (s.drop i).Kept j := by
  simpa [Kept, Fs.drop, Function.update_of_ne other] using kept

/-- When the last change is to one inode, its release settles the state. -/
theorem Calm.settle (calm : s.Calm) (kept : ∀ k, k ≠ i → s.Kept k) : (s.reap i).Settled where
  toCalm := calm.reap
  kept k := by
    by_cases same : k = i
    · subst same
      exact Kept.reap_self
    · exact (kept k same).reap

/-! ## Names of the directory itself -/

/-- Only "." and ".." name inode `d` in this content of `d`. -/
def Plain (d : Nat) (n : Node) : Prop :=
  ∀ de ∈ n.entries, de.inum = d → de.name = ['.'] ∨ de.name = ['.', '.']

def NoSelf (s : Fs P) : Prop := ∀ d, (s.node d).type = .dir → Plain d (s.node d)

theorem Plain.write {d off : Nat} {n : Node} {de : Dirent} (plain : Plain d n)
    (new : de.inum = d → de.name = ['.'] ∨ de.name = ['.', '.']) : Plain d (n.write off de) := by
  intro found member names
  simp only [Node.write, List.mem_append, List.mem_cons] at member
  obtain before | rfl | behind := member
  · exact plain found (List.mem_of_mem_take before) names
  · exact new names
  · exact plain found (List.mem_of_mem_drop behind) names

theorem NoSelf.setNode (noSelf : s.NoSelf) {n : Node} (plain : n.type = .dir → Plain i n) :
    (s.setNode i n).NoSelf := by
  intro d directory
  by_cases same : d = i
  · subst same
    simp only [Fs.setNode, Function.update_self] at directory ⊢
    exact plain directory
  · simp only [Fs.setNode, Function.update_of_ne same] at directory ⊢
    exact noSelf d directory

theorem NoSelf.addLink (noSelf : s.NoSelf) (n : Int) : (s.addLink i n).NoSelf :=
  noSelf.setNode fun directory => noSelf i directory

theorem NoSelf.enter (noSelf : s.NoSelf) {name : Name}
    (new : i % 65536 = dp → name.take dirsiz = ['.'] ∨ name.take dirsiz = ['.', '.']) :
    (s.enter dp name i).NoSelf :=
  noSelf.setNode fun directory => (noSelf dp directory).write new

theorem NoSelf.reap (noSelf : s.NoSelf) : (s.reap i).NoSelf := by
  unfold Fs.reap
  split
  · refine noSelf.setNode ?_
    simp
  · exact noSelf

theorem NoSelf.erase (noSelf : s.NoSelf) {off : Nat} (positive : dp ≠ 0) :
    (s.erase dp off i).NoSelf := by
  have cleared : (s.setNode dp ((s.node dp).write off ⟨0, []⟩)).NoSelf :=
    noSelf.setNode fun directory => (noSelf dp directory).write fun zero => absurd zero.symm positive
  unfold Fs.erase
  dsimp only
  split
  · exact cleared.addLink (-1)
  · exact cleared

theorem NoSelf.made (noSelf : s.NoSelf) {name : Name} {type : InodeType} {major minor : Int}
    (small : i < 65536) (other : i ≠ dp) : (s.made dp name i type major minor).NoSelf := by
  have filled : (s.setNode i ⟨type, major, minor, 1, []⟩).NoSelf :=
    noSelf.setNode fun _ _ member => absurd member List.not_mem_nil
  have away : i % 65536 ≠ dp := by rwa [Nat.mod_eq_of_lt small]
  unfold Fs.made
  dsimp only
  split
  · refine (((filled.addLink 1).enter fun _ => .inl rfl).enter fun _ => .inr rfl).enter ?_
    exact fun same => absurd same away
  · exact filled.enter fun same => absurd same away

/-! ## The holders of an inode -/

section Holders

variable [Fintype P]

/-- The current directories and the open files that hold an inode. -/
def holders (s : Fs P) (i : Nat) : Nat :=
  (∑ p, if s.cwd p = some i then 1 else 0) +
    ∑ p, ∑ fd, if s.ofile p fd = some i then 1 else 0

def Counted (s : Fs P) : Prop := ∀ i, s.ref i = s.holders i

theorem Counted.cwd (counted : s.Counted) (here : s.cwd p = some i) : 0 < s.ref i := by
  have one : (if s.cwd p = some i then 1 else 0) ≤ ∑ q, if s.cwd q = some i then 1 else 0 :=
    Finset.single_le_sum (f := fun q => if s.cwd q = some i then 1 else 0)
      (fun _ _ => Nat.zero_le _) (Finset.mem_univ p)
  rw [if_pos here] at one
  rw [counted i]
  unfold holders
  omega

theorem Counted.ofile (counted : s.Counted) {fd : Fin nofile} (here : s.ofile p fd = some i) :
    0 < s.ref i := by
  have inner : (if s.ofile p fd = some i then 1 else 0) ≤
      ∑ d, if s.ofile p d = some i then 1 else 0 :=
    Finset.single_le_sum (f := fun d => if s.ofile p d = some i then 1 else 0)
      (fun _ _ => Nat.zero_le _) (Finset.mem_univ fd)
  have outer : (∑ d, if s.ofile p d = some i then 1 else 0) ≤
      ∑ q, ∑ d, if s.ofile q d = some i then 1 else 0 :=
    Finset.single_le_sum (f := fun q => ∑ d, if s.ofile q d = some i then 1 else 0)
      (fun _ _ => Nat.zero_le _) (Finset.mem_univ p)
  rw [if_pos here] at inner
  rw [counted i]
  unfold holders
  omega

variable [DecidableEq P]

theorem holders_setCwd (c : Option Nat) :
    (s.setCwd p c).holders i + (if s.cwd p = some i then 1 else 0) =
      s.holders i + if c = some i then 1 else 0 := by
  have trade := sum_holding_update (M := Nat) (fun _ cwd => if cwd = some i then 1 else 0) s.cwd p c
  unfold holders setCwd
  dsimp only at trade ⊢
  omega

theorem holders_setFile (fd : Fin nofile) (file : Option Nat) :
    (s.setFile p fd file).holders i + (if s.ofile p fd = some i then 1 else 0) =
      s.holders i + if file = some i then 1 else 0 := by
  have inner := sum_holding_update (M := Nat) (fun _ file => if file = some i then 1 else 0)
    (s.ofile p) fd file
  have outer := sum_holding_update (M := Nat)
    (fun _ files => ∑ d, if files d = some i then 1 else 0) s.ofile p
    (Function.update (s.ofile p) fd file)
  unfold holders setFile
  dsimp only at inner outer ⊢
  omega

end Holders

/-! ## What a call that returns has done -/

/-- `create` enters the free inode `i` in `dp`. -/
structure New (s : Fs P) (dp : Nat) (name : Name) (i : Nat) : Prop where
  directory : (s.node dp).type = .dir
  absent : (s.node dp).lookup name = none
  free : (s.node i).type = .free
  inside : 0 < i ∧ i < s.ninodes
  space : (s.node dp).vacant < maxdirent

/-- `link` enters `i` in `dp`. -/
structure Links (s : Fs P) (p : P) (old new : List Char) (i dp : Nat) (name : Name) : Prop where
  source : ∃ read rest, s.find p old false = .ok (some ⟨i, read, rest⟩)
  parent : (s.raised i).find p new true = .ok (some ⟨dp, true, name⟩)
  allocated : (s.node i).type ≠ .free
  file : (s.node i).type ≠ .dir
  directory : (s.node dp).type = .dir
  absent : (s.node dp).lookup name = none
  space : (s.node dp).vacant < maxdirent

/-- `unlink` erases entry `off` of `dp`, which names `i`. -/
structure Unlinks (s : Fs P) (p : P) (path : List Char) (dp off i : Nat) (name : Name) : Prop where
  parent : s.find p path true = .ok (some ⟨dp, true, name⟩)
  directory : (s.node dp).type = .dir
  plain : ¬ (namecmp name ['.'] ∨ namecmp name ['.', '.'])
  present : (s.node dp).lookup name = some off
  names : ((s.node dp).entry off).inum = i
  other : i ≠ dp
  allocated : (s.node i).type ≠ .free
  links : 1 ≤ (s.node i).nlink
  empty : (s.node i).type = .dir → (s.node i).isdirempty = true

variable [DecidableEq P]

/-- The state after each call other than `exit`. -/
inductive Result (s : Fs P) (p : P) : FsCall → Fs P → Prop where
  | same {call : FsCall} : Result s p call s
  | opened {path : List Char} {omode i : Nat} {room : Bool} {fd : Fin nofile}
      (allocated : (s.node i).type ≠ .free) (free : s.ofile p fd = none) :
      Result s p (.open path omode room) ((s.grab i true).setFile p fd (some i))
  | made {call : FsCall} {dp i : Nat} {name : Name} {type : InodeType} {major minor : Int}
      (new : s.New dp name i) (typed : type ≠ .free) :
      Result s p call ((s.made dp name i type major minor).reap dp)
  | madeOpened {path : List Char} {omode dp i : Nat} {room : Bool} {name : Name} {type : InodeType}
      {major minor : Int} {fd : Fin nofile} (new : s.New dp name i) (typed : type ≠ .free)
      (free : s.ofile p fd = none) :
      Result s p (.open path omode room)
        ((((s.made dp name i type major minor).reap dp).grab i true).setFile p fd (some i))
  | linked {old new : List Char} {i dp : Nat} {name : Name} (links : s.Links p old new i dp name) :
      Result s p (.link old new) (((s.addLink i 1).enter dp name i).reap i)
  | unlinked {path : List Char} {dp off i : Nat} {name : Name}
      (unlinks : s.Unlinks p path dp off i name) :
      Result s p (.unlink path) ((((s.erase dp off i).reap dp).addLink i (-1)).reap i)
  | moved {path : List Char} {i c : Nat} (source : ∃ read rest,
        s.find p path false = .ok (some ⟨i, read, rest⟩))
      (directory : (s.node i).type = .dir) (cwd : s.cwd p = some c) :
      Result s p (.chdir path) ((((s.grab i true).drop c).reap c).setCwd p (some i))
  | closed {fd : Fin nofile} {i : Nat} (file : s.ofile p fd = some i) :
      Result s p (.close fd) (s.closed p fd i)

omit [DecidableEq P] in
theorem New.other {name : Name} (new : s.New dp name i) : i ≠ dp := by
  intro same
  have free := new.free
  rw [same, new.directory] at free
  cases free

omit [DecidableEq P] in
theorem reap_other (other : j ≠ i) : (s.reap i).node j = s.node j := by
  unfold reap
  split
  · exact Function.update_of_ne other _ _
  · rfl

omit [DecidableEq P] in
/-- The new inode is of the type it was made with, and has its one link. -/
theorem made_new {name : Name} {type : InodeType} {major minor : Int} (other : i ≠ dp) :
    ((s.made dp name i type major minor).node i).type = type ∧
      ((s.made dp name i type major minor).node i).nlink = 1 := by
  unfold made
  dsimp only
  rw [enter_other other]
  split
  · simp [dots, enter, setNode, Node.write, addLink, Function.update_of_ne other]
  · simp [setNode]

omit [DecidableEq P] in
/-- Other inodes are as before. -/
theorem made_other {name : Name} {type : InodeType} {major minor : Int} {k : Nat} (away : k ≠ i)
    (other : k ≠ dp) : (s.made dp name i type major minor).node k = s.node k := by
  unfold made
  dsimp only
  rw [enter_other other]
  split
  · rw [dots, enter_other away, enter_other away, addLink_other 1 other]
    exact Function.update_of_ne away _ _
  · exact Function.update_of_ne away _ _

omit [DecidableEq P] in
theorem erase_other {off k : Nat} (other : k ≠ dp) : (s.erase dp off i).node k = s.node k := by
  unfold erase
  dsimp only
  split
  · rw [addLink_other (-1) other]
    exact Function.update_of_ne other _ _
  · exact Function.update_of_ne other _ _

omit [DecidableEq P] in
theorem New.reap {name : Name} {type : InodeType} {major minor : Int} (new : s.New dp name i) :
    ((s.made dp name i type major minor).reap dp).reap i =
      (s.made dp name i type major minor).reap dp := by
  refine if_neg fun last => ?_
  rw [reap_other new.other, (made_new new.other).2] at last
  exact absurd last.1 (by decide)

omit [DecidableEq P] in
/-- `create` in its directory: it refuses, finds a file, or makes an inode. -/
theorem createAt_cases (directory : (s.node dp).type = .dir) {name : Name} {type : InodeType}
    {major minor : Int} {r : Option Nat} {t : Fs P}
    (done : s.createAt dp name type major minor = .ok (r, t)) :
    (r = none ∧ t = s) ∨
      (∃ i, r = some i ∧ (s.node i).type ≠ .free ∧ t = s.take i) ∨
      ∃ i, r = some i ∧ s.New dp name i ∧
        t = ((s.made dp name i type major minor).reap dp).take i := by
  rw [createAt] at done
  cases present : (s.node dp).lookup name with
  | some off =>
      rw [present] at done
      dsimp only at done
      split_ifs at done with room free reused
      · cases done
        exact .inr (.inl ⟨_, rfl, by simp [reused.2], rfl⟩)
      · cases done
        exact .inl ⟨rfl, rfl⟩
  | none =>
      rw [present] at done
      dsimp only at done
      cases search : (List.range' 1 (s.ninodes - 1)).find? fun i =>
          decide ((s.node i).type = .free) with
      | none =>
          rw [search] at done
          cases done
      | some i =>
          rw [search] at done
          dsimp only at done
          split_ifs at done with room crowded
          cases done
          have free : (s.node i).type = .free := by simpa using List.find?_some search
          have range := List.mem_range'_1.mp (List.mem_of_find?_eq_some search)
          exact .inr (.inr ⟨i, rfl, ⟨directory, present, free, by omega, by omega⟩, rfl⟩)

omit [DecidableEq P] in
/-- The inode that `create` returns. -/
theorem create_cases (settled : s.Settled) {type : InodeType} (typed : type ≠ .free)
    {path : List Char} {major minor : Int} {r : Option Nat} {t : Fs P}
    (done : s.create p path type major minor = .ok (r, t)) :
    (r = none ∧ t = s) ∨
      (∃ i, r = some i ∧ (s.node i).type ≠ .free ∧ t = s.take i) ∨
      ∃ dp name i, r = some i ∧ s.New dp name i ∧
        t = ((s.made dp name i type (short major) (short minor)).reap dp).take i := by
  rw [create_eq settled typed] at done
  cases ends : s.find p path true with
  | error fault =>
      rw [ends] at done
      cases done
  | ok found =>
      rw [ends] at done
      cases found with
      | none =>
          cases done
          exact .inl ⟨rfl, rfl⟩
      | some target =>
          obtain ⟨dp, read, name⟩ := target
          obtain ⟨rfl, directory⟩ := (find_arrived settled ends).directory rfl
          obtain same | found | ⟨i, result, new, same⟩ := createAt_cases directory done
          · exact .inl same
          · exact .inr (.inl found)
          · exact .inr (.inr ⟨dp, name, i, result, new, same⟩)

omit [DecidableEq P] in
theorem snd_ok {x : Except Fault (Int × Fs P)} {t : Fs P} (done : x.map Prod.snd = .ok t) :
    ∃ r, x = .ok (r, t) := by
  cases x with
  | error fault => cases done
  | ok result =>
      simp only [Except.map, Except.ok.injEq] at done
      exact ⟨result.1, by rw [← done]⟩

theorem createOnly_result (settled : s.Settled) {call : FsCall} {type : InodeType}
    (typed : type ≠ .free) {path : List Char} {major minor : Int} {t : Fs P}
    (returned : (s.createOnly p path type major minor).map Prod.snd = .ok t) :
    s.Result p call t := by
  obtain ⟨r, done⟩ := snd_ok returned
  clear returned
  simp only [createOnly, bind, Except.bind] at done
  cases created : s.create p path type major minor with
  | error fault =>
      rw [created] at done
      cases done
  | ok result =>
      obtain ⟨made, u⟩ := result
      simp only [created] at done
      obtain ⟨rfl, rfl⟩ | ⟨i, rfl, allocated, rfl⟩ | ⟨dp, name, i, rfl, new, rfl⟩ :=
        create_cases settled typed created
      · cases done
        exact .same
      · simp only [settled.iunlockput_take allocated] at done
        cases done
        exact .same
      · have put := iunlockput_take (i := i)
          (s := (s.made dp name i type (short major) (short minor)).reap dp)
          (by simpa using settled.cached i) (by simpa using settled.unlocked i)
        simp only [put, new.reap] at done
        cases done
        exact .made new typed

omit [DecidableEq P] in
/-- The inode that `open` has locked. -/
theorem openInode_cases (settled : s.Settled) {path : List Char} {omode : Nat} {r : Option Nat}
    {t : Fs P} (done : s.openInode p path omode = .ok (r, t)) :
    (r = none ∧ t = s) ∨
      (∃ i, r = some i ∧ (s.node i).type ≠ .free ∧ t = s.take i) ∨
      ∃ dp name i, r = some i ∧ s.New dp name i ∧
        t = ((s.made dp name i .file (short 0) (short 0)).reap dp).take i := by
  unfold openInode at done
  split at done
  · exact create_cases settled (by decide) done
  · rw [namei_eq settled] at done
    cases ends : s.find p path false with
    | error fault =>
        rw [ends] at done
        cases done
    | ok found =>
        rw [ends] at done
        cases found with
        | none =>
            cases done
            exact .inl ⟨rfl, rfl⟩
        | some target =>
            have arrived := find_arrived settled ends
            simp only [bind, Except.bind, namei_ilock settled] at done
            by_cases free : target.valid = false ∧ (s.node target.inum).type = .free
            · simp only [free, and_self, if_true] at done
              cases done
            have used := arrived.locked free
            simp only [free, if_false, settled.iunlockput_take used] at done
            split at done
            · cases done
              exact .inl ⟨rfl, rfl⟩
            · cases done
              exact .inr (.inl ⟨_, rfl, used, rfl⟩)

theorem sysOpen_result (settled : s.Settled) {path : List Char} {omode : Nat} {room : Bool}
    {t : Fs P} (returned : (s.sysOpen p path omode room).map Prod.snd = .ok t) :
    s.Result p (.open path omode room) t := by
  obtain ⟨r, done⟩ := snd_ok returned
  clear returned
  simp only [sysOpen] at done
  cases got : s.openInode p path omode with
  | error fault =>
      rw [got] at done
      cases done
  | ok result =>
      obtain ⟨found, u⟩ := result
      rw [got] at done
      obtain ⟨rfl, rfl⟩ | ⟨i, rfl, allocated, rfl⟩ | ⟨dp, name, i, rfl, new, rfl⟩ :=
        openInode_cases settled got
      · cases done
        exact .same
      · have ends := (openLocked_eq (p := p) (settled.cached i) (settled.unlocked i) room).symm.trans
          done
        split at ends
        · rw [reap_of_kept (settled.kept i) allocated] at ends
          cases ends
          exact .same
        · next fd free =>
          cases ends
          exact .opened allocated (fdalloc_free free)
      · have ends := (openLocked_eq (p := p) (i := i)
          (t := (s.made dp name i .file (short 0) (short 0)).reap dp)
          (by simpa using settled.cached i) (by simpa using settled.unlocked i) room).symm.trans done
        split at ends
        · rw [new.reap] at ends
          cases ends
          exact .made new (by decide)
        · next fd free =>
          cases ends
          exact .madeOpened new (by decide) (by simpa using fdalloc_free free)

/-- `sys_unlink` in its directory: nothing changes, or the entry goes. -/
theorem unlinkAt_result (settled : s.Settled) {path : List Char} {read : Bool} {name : Name}
    (ends : s.find p path true = .ok (some ⟨dp, read, name⟩)) {r : Int} {t : Fs P}
    (done : s.unlinkAt dp name = .ok (r, t)) : s.Result p (.unlink path) t := by
  obtain ⟨rfl, directory⟩ := (find_arrived settled ends).directory rfl
  rw [unlinkAt] at done
  split_ifs at done with plain
  · cases done
    exact .same
  cases present : (s.node dp).lookup name with
  | none =>
      rw [present] at done
      cases done
      exact .same
  | some off =>
      rw [present] at done
      dsimp only at done
      split_ifs at done with room other lock links empty
      · cases done
        exact .same
      · cases done
        refine .unlinked ⟨ends, directory, plain, present, rfl, other, ?_, by omega, ?_⟩
        · intro free
          refine lock ⟨?_, free⟩
          by_contra read
          exact settled.allocated_of_valid (by simpa using read) free
        · intro dir
          by_contra full
          exact empty ⟨dir, full⟩

theorem sysUnlink_result (settled : s.Settled) {path : List Char} {t : Fs P}
    (returned : (s.sysUnlink p path).map Prod.snd = .ok t) : s.Result p (.unlink path) t := by
  obtain ⟨r, done⟩ := snd_ok returned
  clear returned
  rw [sysUnlink_eq settled] at done
  cases ends : s.find p path true with
  | error fault =>
      rw [ends] at done
      cases done
  | ok found =>
      rw [ends] at done
      cases found with
      | none =>
          cases done
          exact .same
      | some target =>
          exact unlinkAt_result settled ends done

/-- `sys_link` in the directory of the new name, once the links are raised. -/
theorem linkAt_result (settled : s.Settled) {old new : List Char} {lock read : Bool}
    {rest name : Name} (ends : s.find p old false = .ok (some ⟨i, lock, rest⟩))
    (used : (s.node i).type ≠ .free) (file : (s.node i).type ≠ .dir)
    (there : (s.raised i).find p new true = .ok (some ⟨dp, read, name⟩)) {r : Int} {t : Fs P}
    (done : s.linkAt i dp name = .ok (r, t)) : s.Result p (.link old new) t := by
  obtain ⟨rfl, directory⟩ := (find_arrived (settled.raised used) there).directory rfl
  have directory : (s.node dp).type = .dir := (addLink_type 1 dp).symm.trans directory
  rw [linkAt] at done
  cases present : (s.node dp).lookup name with
  | some off =>
      rw [present] at done
      dsimp only at done
      split_ifs at done with room self
      cases done
      exact .same
  | none =>
      rw [present] at done
      dsimp only at done
      split_ifs at done with crowded
      cases done
      exact .linked ⟨⟨_, _, ends⟩, there, used, file, directory, present, by omega⟩

theorem sysLink_result (settled : s.Settled) {old new : List Char} {t : Fs P}
    (returned : (s.sysLink p old new).map Prod.snd = .ok t) : s.Result p (.link old new) t := by
  obtain ⟨r, done⟩ := snd_ok returned
  clear returned
  rw [sysLink_eq settled] at done
  cases ends : s.find p old false with
  | error fault =>
      rw [ends] at done
      cases done
  | ok found =>
      rw [ends] at done
      cases found with
      | none =>
          cases done
          exact .same
      | some target =>
          obtain ⟨i, read, rest⟩ := target
          dsimp only at done
          split_ifs at done with lock directory
          · cases done
            exact .same
          have used := (find_arrived settled ends).locked lock
          cases there : (s.raised i).find p new true with
          | error fault =>
              rw [there] at done
              cases done
          | ok found =>
              rw [there] at done
              cases found with
              | none =>
                  cases done
                  exact .same
              | some target => exact linkAt_result settled ends used directory there done

variable [Fintype P]

/-- The results of the calls other than `exit`. -/
theorem call_result (settled : s.Settled) (counted : s.Counted) {c : Nat}
    (cwd : s.cwd p = some c) {call : FsCall} (stays : call ≠ .exit) {t : Fs P}
    (done : s.call p call = .ok t) : s.Result p call t := by
  cases call with
  | «open» path omode room => exact sysOpen_result settled done
  | mkdir path => exact createOnly_result settled (by decide) done
  | mknod path major minor => exact createOnly_result settled (by decide) done
  | link old new => exact sysLink_result settled done
  | unlink path => exact sysUnlink_result settled done
  | chdir path =>
      obtain ⟨r, done⟩ := snd_ok done
      rw [sysChdir_eq settled cwd (counted.cwd cwd)] at done
      cases ends : s.find p path false with
      | error fault =>
          rw [ends] at done
          cases done
      | ok found =>
          rw [ends] at done
          cases found with
          | none =>
              cases done
              exact .same
          | some target =>
              simp only at done
              split at done
              · cases done
              split at done
              · cases done
                exact .same
              · next directory =>
                cases done
                exact .moved ⟨_, _, ends⟩ (by simpa using directory) cwd
  | close fd =>
      obtain ⟨r, done⟩ := snd_ok done
      cases file : s.ofile p fd with
      | none =>
          simp only [sysClose, file] at done
          cases done
          exact .same
      | some i =>
          rw [sysClose_eq settled file (counted.ofile file)] at done
          cases done
          exact .closed file
  | exit => exact absurd rfl stays
  | exec path =>
      simp only [call, exec_eq settled] at done
      split at done
      · cases done
      · cases done
        exact .same
      · split at done
        · cases done
        · cases done
          exact .same

/-! ## Every call keeps the state ready for the next -/

omit [DecidableEq P] [Fintype P] in
theorem grab_ref {v : Bool} (k : Nat) :
    (s.grab i v).ref k = s.ref k + if some i = some k then 1 else 0 := by
  by_cases same : k = i
  · subst same
    simp [grab]
  · simp [grab, Function.update_of_ne same, Ne.symm same]

omit [DecidableEq P] [Fintype P] in
theorem drop_ref (held : 0 < s.ref i) (k : Nat) :
    (s.drop i).ref k + (if some i = some k then 1 else 0) = s.ref k := by
  by_cases same : k = i
  · subst same
    simp only [drop, Function.update_self, if_true]
    omega
  · simp [drop, Function.update_of_ne same, Ne.symm same]

omit [DecidableEq P] in
/-- What one place holds is traded, and the references with it. -/
theorem Counted.trade (counted : s.Counted) {t : Fs P} (old new : Option Nat)
    (holders : ∀ k, t.holders k + (if old = some k then 1 else 0) =
      s.holders k + if new = some k then 1 else 0)
    (refs : ∀ k, t.ref k + (if old = some k then 1 else 0) =
      s.ref k + if new = some k then 1 else 0) : t.Counted := by
  intro k
  have before := counted k
  have traded := holders k
  have counts := refs k
  omega

omit [DecidableEq P] in
theorem holders_congr {t : Fs P} (holds : t.cwd = s.cwd ∧ t.ofile = s.ofile) :
    t.holders = s.holders := by
  funext k
  simp only [holders, holds.1, holds.2]

omit [DecidableEq P] in
/-- Nodes and locks do not count. -/
theorem Counted.congr (counted : s.Counted) {t : Fs P} (refs : t.ref = s.ref)
    (holds : t.cwd = s.cwd ∧ t.ofile = s.ofile) : t.Counted := by
  intro k
  rw [refs, holders_congr holds]
  exact counted k

omit [Fintype P] in
theorem Settled.setFile (settled : s.Settled) {fd : Fin nofile} {file : Option Nat} :
    (s.setFile p fd file).Settled where
  cached := settled.cached
  unlocked := settled.unlocked
  held := settled.held
  fits := settled.fits
  inside := settled.inside
  few := settled.few
  kept := settled.kept

omit [Fintype P] in
theorem Settled.setCwd (settled : s.Settled) {c : Option Nat} : (s.setCwd p c).Settled where
  cached := settled.cached
  unlocked := settled.unlocked
  held := settled.held
  fits := settled.fits
  inside := settled.inside
  few := settled.few
  kept := settled.kept

omit [DecidableEq P] [Fintype P] in
/-- A reference is given up. -/
theorem Settled.release (settled : s.Settled) : ((s.drop i).reap i).Settled :=
  settled.toCalm.drop.settle fun k away => (settled.kept k).drop away

/-- What the next call relies on. -/
structure Ready (s : Fs P) : Prop where
  settled : s.Settled
  counted : s.Counted
  noSelf : s.NoSelf

theorem Ready.opened (ready : s.Ready) {fd : Fin nofile} (allocated : (s.node i).type ≠ .free)
    (free : s.ofile p fd = none) : ((s.grab i true).setFile p fd (some i)).Ready := by
  constructor
  · exact (ready.settled.grab allocated).setFile
  · refine ready.counted.trade none (some i) (fun k => ?_) (fun k => ?_)
    · have trade := holders_setFile (s := s) (p := p) (i := k) fd (some i)
      rw [free] at trade
      exact trade
    · simp only [reduceCtorEq, if_false, Nat.add_zero]
      exact grab_ref (v := true) k
  · exact ready.noSelf

omit [DecidableEq P] in
theorem Ready.made (ready : s.Ready) {name : Name} {type : InodeType} {major minor : Int}
    (new : s.New dp name i) (typed : type ≠ .free) :
    ((s.made dp name i type major minor).reap dp).Ready := by
  have settled := ready.settled
  constructor
  · refine (settled.toCalm.made typed new.inside).settle fun k away => ?_
    by_cases same : k = i
    · subst same
      intro _ links
      rw [(made_new away).2] at links
      exact absurd links (by decide)
    · have node : (s.made dp name i type major minor).node k = s.node k := made_other same away
      simpa [Kept, node] using settled.kept k
  · exact ready.counted.congr (by simp) (by simp)
  · have small := settled.few
    have inside := new.inside
    exact (ready.noSelf.made (by omega) new.other).reap

omit [DecidableEq P] in
theorem Ready.linked (ready : s.Ready) {old new : List Char} {name : Name}
    (links : s.Links p old new i dp name) :
    (((s.addLink i 1).enter dp name i).reap i).Ready := by
  have settled := ready.settled
  constructor
  · refine ((settled.toCalm.addLink 1).enter name).settle fun k away => ?_
    exact ((settled.kept k).setNode away).enter name
  · exact ready.counted.congr (by simp) ⟨by simp [enter, setNode, addLink], by simp [enter, setNode, addLink]⟩
  · refine ((ready.noSelf.addLink 1).enter fun same => ?_).reap
    have small := settled.few
    have inside := settled.inside i links.allocated
    rw [Nat.mod_eq_of_lt (by omega)] at same
    exact absurd links.directory (same ▸ links.file)

omit [DecidableEq P] in
theorem Ready.unlinked (ready : s.Ready) {path : List Char} {off : Nat} {name : Name}
    (unlinks : s.Unlinks p path dp off i name) :
    ((((s.erase dp off i).reap dp).addLink i (-1)).reap i).Ready := by
  have settled := ready.settled
  constructor
  · refine (((settled.toCalm.erase off).reap).addLink (-1)).settle fun k away => ?_
    refine Kept.setNode ?_ away
    by_cases same : k = dp
    · subst same
      exact Kept.reap_self
    · refine Kept.reap ?_
      simpa [Kept, erase_other same] using settled.kept k
  · exact ready.counted.congr (by simp) ⟨by simp [setNode, addLink], by simp [setNode, addLink]⟩
  · have positive := settled.inside dp (by simp [unlinks.directory])
    exact (((ready.noSelf.erase (by omega)).reap).addLink (-1)).reap

theorem Ready.moved (ready : s.Ready) {c : Nat} (directory : (s.node i).type = .dir)
    (cwd : s.cwd p = some c) :
    ((((s.grab i true).drop c).reap c).setCwd p (some i)).Ready := by
  have grabbed := ready.settled.grab (i := i) (by simp [directory])
  have held : 0 < (s.grab i true).ref c := by
    rw [grab_ref]
    have held := ready.counted.cwd cwd
    omega
  constructor
  · exact grabbed.release.setCwd
  · refine ready.counted.trade (some c) (some i) (fun k => ?_) (fun k => ?_)
    · have trade := holders_setCwd (s := s) (p := p) (i := k) (some i)
      have same : ((((s.grab i true).drop c).reap c).setCwd p (some i)).holders =
          (s.setCwd p (some i)).holders :=
        holders_congr ⟨by simp [setCwd, drop, grab], by simp [setCwd, drop, grab]⟩
      rwa [cwd, ← same] at trade
    · have less := drop_ref held k
      rw [grab_ref k] at less
      simpa [setCwd] using less
  · exact NoSelf.reap (s := (s.grab i true).drop c) ready.noSelf

theorem Ready.closed (ready : s.Ready) {fd : Fin nofile} (file : s.ofile p fd = some i) :
    (s.closed p fd i).Ready := by
  have held := ready.counted.ofile file
  constructor
  · exact ready.settled.setFile.release
  · refine ready.counted.trade (some i) none (fun k => ?_) (fun k => ?_)
    · have trade := holders_setFile (s := s) (p := p) (i := k) fd none
      have same : (s.closed p fd i).holders = (s.setFile p fd none).holders :=
        holders_congr ⟨by simp [Fs.closed, drop], by simp [Fs.closed, drop]⟩
      rwa [file, ← same] at trade
    · have less := drop_ref (s := s.setFile p fd none) held k
      simpa [Fs.closed, setFile] using less
  · exact NoSelf.reap (s := (s.setFile p fd none).drop i) ready.noSelf

/-- The current directory is given up. -/
theorem Ready.left (ready : s.Ready) {c : Nat} (cwd : s.cwd p = some c) :
    (((s.drop c).reap c).setCwd p none).Ready := by
  have held := ready.counted.cwd cwd
  constructor
  · exact ready.settled.release.setCwd
  · refine ready.counted.trade (some c) none (fun k => ?_) (fun k => ?_)
    · have trade := holders_setCwd (s := s) (p := p) (i := k) none
      have same : (((s.drop c).reap c).setCwd p none).holders = (s.setCwd p none).holders :=
        holders_congr ⟨by simp [setCwd, drop], by simp [setCwd, drop]⟩
      rwa [cwd, ← same] at trade
    · simpa [setCwd] using drop_ref held k
  · exact NoSelf.reap (s := s.drop c) ready.noSelf

theorem Ready.result (ready : s.Ready) {call : FsCall} {t : Fs P} (done : s.Result p call t) :
    t.Ready := by
  cases done with
  | same => exact ready
  | opened allocated free => exact ready.opened allocated free
  | made new typed => exact ready.made new typed
  | @madeOpened _ _ dp i _ _ type _ _ _ new typed free =>
      refine (ready.made new typed).opened ?_ (by simpa using free)
      rwa [reap_other new.other, (made_new new.other).1]
  | linked links => exact ready.linked links
  | unlinked unlinks => exact ready.unlinked unlinks
  | moved source directory cwd => exact ready.moved directory cwd
  | closed file => exact ready.closed file

/-- What `exit` has done: the descriptors are closed one by one, the directory last. -/
inductive Exits (p : P) : Fs P → List (Fin nofile) → Fs P → Prop where
  | left {s : Fs P} {c : Nat} (cwd : s.cwd p = some c) :
      Exits p s [] (((s.drop c).reap c).setCwd p none)
  | skip {s t : Fs P} {fd : Fin nofile} {fds : List (Fin nofile)} (free : s.ofile p fd = none)
      (rest : Exits p s fds t) : Exits p s (fd :: fds) t
  | close {s t : Fs P} {fd : Fin nofile} {fds : List (Fin nofile)} {i : Nat}
      (file : s.ofile p fd = some i) (rest : Exits p (s.closed p fd i) fds t) :
      Exits p s (fd :: fds) t

theorem exit_loop (ready : s.Ready) {fds : List (Fin nofile)} {t : Fs P}
    (done : (do
      let s ← closeFiles p s fds
      match s.cwd p with
      | none => .error .noCwd
      | some cwd =>
          let s ← s.iput cwd
          .ok (s.setCwd p none)) = Except.ok t) : Exits p s fds t := by
  induction fds generalizing s with
  | nil =>
      simp only [closeFiles, bind, Except.bind] at done
      cases cwd : s.cwd p with
      | none =>
          simp only [cwd] at done
          cases done
      | some c =>
          simp only [cwd, iput_held ready.settled.cached (ready.settled.unlocked c)
            (ready.counted.cwd cwd)] at done
          cases done
          exact .left cwd
  | cons fd fds ih =>
      rw [closeFiles_cons ready.settled fun i file => ready.counted.ofile file] at done
      cases file : s.ofile p fd with
      | none =>
          simp only [file] at done
          exact .skip file (ih ready done)
      | some i =>
          simp only [file] at done
          exact .close file (ih (ready.closed file) done)

theorem Ready.exits {fds : List (Fin nofile)} {t : Fs P} (exits : Exits p s fds t)
    (ready : s.Ready) : t.Ready := by
  induction exits with
  | left cwd => exact ready.left cwd
  | skip _ _ ih => exact ih ready
  | close file _ ih => exact ih (ready.closed file)

/-- A call that returns leaves the file system ready for the next one. -/
theorem Ready.call (ready : s.Ready) {c : Nat} (cwd : s.cwd p = some c) {call : FsCall} {t : Fs P}
    (done : s.call p call = .ok t) : t.Ready := by
  by_cases exits : call = .exit
  · subst exits
    exact Ready.exits (exit_loop ready done) ready
  · exact ready.result (call_result ready.settled ready.counted cwd exits done)

end Fs

end SlabStudy.Xv6
