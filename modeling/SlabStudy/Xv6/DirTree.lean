import SlabStudy.Library.WriteAt
import SlabStudy.Xv6.FsImage

/-!
# Directories as a tree with link counts

The calls change an image by a few operations: an inode is filled or freed, a
directory entry is written or erased, a link count is raised or lowered.  Each
operation keeps the directories in form, and moves the balance between the
link count of an inode and the names it has.  Books that balance are a tree.
-/

namespace SlabStudy.Xv6

open Library

namespace Image

variable {m : Image} {i j k d dp off : Nat} {name : Name} {n : Node}

/-! ## Operations on an image -/

def setNode (m : Image) (i : Nat) (n : Node) : Image :=
  { m with node := Function.update m.node i n }

def addLink (m : Image) (i : Nat) (n : Int) : Image :=
  m.setNode i { m.node i with nlink := short ((m.node i).nlink + n) }

def enter (m : Image) (dp : Nat) (name : Name) (i : Nat) : Image :=
  m.setNode dp ((m.node dp).write (m.node dp).vacant ⟨i % 65536, name.take dirsiz⟩)

def clear (m : Image) (dp off : Nat) : Image :=
  m.setNode dp ((m.node dp).write off ⟨0, []⟩)

def free (m : Image) (i : Nat) : Image :=
  m.setNode i { m.node i with type := .free, entries := [] }

@[simp] theorem setNode_self : (m.setNode i n).node i = n := Function.update_self _ _ _

theorem setNode_other (other : k ≠ i) : (m.setNode i n).node k = m.node k :=
  Function.update_of_ne other _ _

@[simp] theorem setNode_ninodes : (m.setNode i n).ninodes = m.ninodes := rfl

/-! ## Counting names -/

theorem named_setNode (inside : i < m.ninodes) (k : Nat) :
    (m.setNode i n).named k + (m.names i).count k = m.named k + n.inums.count k :=
  sum_holding_update_of_mem (Finset.range m.ninodes) (fun _ node => node.inums.count k) m.node
    (Finset.mem_range.mpr inside) n

/-- An update that leaves type and entries alone leaves all names alone. -/
theorem names_retype (type : n.type = (m.node i).type) (entries : n.entries = (m.node i).entries) :
    (m.setNode i n).names = m.names := by
  funext d
  by_cases same : d = i
  · subst same
    simp [names, Node.inums, type, entries]
  · simp only [names, setNode_other same]

theorem type_setNode (type : n.type = (m.node i).type) (k : Nat) :
    ((m.setNode i n).node k).type = (m.node k).type := by
  by_cases same : k = i
  · subst same
    simpa using type
  · rw [setNode_other same]

/-- The first empty entry is behind "." and "..", and holds nothing. -/
theorem vacant_spec (form : DirForm d n) (positive : 0 < d) :
    2 ≤ n.vacant ∧ n.vacant ≤ n.entries.length ∧
      ∀ de, n.entries[n.vacant]? = some de → de.inum = 0 := by
  have split := entries_split form.dots
  refine ⟨?_, Fs.vacant_le n, fun de here => ?_⟩
  · have first : (n.entry 0).inum ≠ 0 := by
      rw [form.dot]
      exact Nat.ne_of_gt positive
    have second := form.dotdot.2
    unfold Node.vacant
    rw [split, List.findIdx?_cons, List.findIdx?_cons]
    simp only [beq_iff_eq, first, second, if_false]
    cases (n.entries.drop 2).findIdx? fun de => de.inum == 0 <;> simp
  · unfold Node.vacant at here
    cases found : n.entries.findIdx? fun de => de.inum == 0 with
    | none =>
        rw [found] at here
        simp at here
    | some k =>
        obtain ⟨inside, zero, -⟩ := List.findIdx?_eq_some_iff_getElem.mp found
        rw [found, Option.getD_some, List.getElem?_eq_getElem inside] at here
        cases here
        simpa using zero

/-- The names of a directory in which an entry behind "." and ".." is written. -/
theorem inums_write (directory : n.type = .dir) (late : 2 ≤ k) (inside : k ≤ n.entries.length)
    (de : Dirent) : (n.write k de).inums = writeAt n.inums (k - 2) de.inum := by
  have drop : (n.write k de).entries.drop 2 = writeAt (n.entries.drop 2) (k - 2) de :=
    drop_writeAt de late inside
  have type : (n.write k de).type = .dir := directory
  rw [Node.inums, if_pos type, drop, map_writeAt, Node.inums, if_pos directory]

/-- What the written place held before. -/
theorem inums_before (directory : n.type = .dir) (late : 2 ≤ k) :
    n.inums[k - 2]? = n.entries[k]?.map Dirent.inum := by
  rw [Node.inums, if_pos directory, List.getElem?_map, List.getElem?_drop]
  congr 2
  omega

/-- Directories in form, and the balance `x` of each link count against the names it stands for. -/
structure Books (m : Image) (x : Nat → Int) : Prop where
  few : m.ninodes ≤ 65536
  inside : ∀ i, (m.node i).type ≠ .free → 0 < i ∧ i < m.ninodes
  root : (m.node rootino).type = .dir ∧ m.up rootino = rootino
  form : ∀ d, (m.node d).type = .dir → DirForm d (m.node d)
  target : ∀ d, (m.node d).type = .dir → ∀ de ∈ (m.node d).entries, de.inum ≠ 0 →
    (m.node de.inum).type ≠ .free
  parent : ∀ d, ∀ j ∈ m.names d, (m.node j).type = .dir → m.up j = d
  above : ∀ d, (m.node d).type = .dir → (m.node (m.up d)).type = .dir
  once : ∀ i, (m.node i).type = .dir → m.named i ≤ 1
  dirs : ∀ i, (m.node i).type = .dir →
    (m.node i).nlink = m.named i + m.subdirs i + (if i = rootino then 1 else 0) + x i
  files : ∀ i, (m.node i).type ≠ .free → (m.node i).type ≠ .dir →
    m.named i + x i ≤ (m.node i).nlink

variable {x : Nat → Int}

theorem WellFormed.books (wellFormed : m.WellFormed) : m.Books fun _ => 0 where
  few := wellFormed.few
  inside := wellFormed.inside
  root := wellFormed.root
  form := wellFormed.form
  target := wellFormed.target
  parent := wellFormed.parent
  above := wellFormed.above
  once := wellFormed.once
  dirs i directory := by simpa using wellFormed.dirs i directory
  files i used file := by simpa using wellFormed.files i used file

namespace Books

theorem inside_dir (books : m.Books x) (directory : (m.node d).type = .dir) :
    0 < d ∧ d < m.ninodes := books.inside d (by simp [directory])

/-- The inode number 0 is never used. -/
theorem zero (books : m.Books x) : (m.node 0).type = .free := by
  by_contra used
  exact absurd (books.inside 0 used).1 (lt_irrefl 0)

/-- A name leads to an allocated inode. -/
theorem named_used (books : m.Books x) (member : i ∈ m.names d) (some : i ≠ 0) :
    (m.node i).type ≠ .free := by
  unfold names Node.inums at member
  split at member
  · next directory =>
    obtain ⟨de, inside, rfl⟩ := List.mem_map.mp member
    exact books.target d directory de (List.mem_of_mem_drop inside) some
  · exact absurd member List.not_mem_nil

/-- A free inode has no name. -/
theorem free_unnamed (books : m.Books x) (free : (m.node i).type = .free) (some : i ≠ 0) :
    ∀ d, i ∉ m.names d :=
  fun _ member => books.named_used member some free

end Books

theorem named_eq_zero : m.named i = 0 ↔ ∀ d < m.ninodes, i ∉ m.names d := by
  simp [named, Finset.sum_eq_zero_iff, List.count_eq_zero]

/-- Names are found in directories. -/
theorem Books.named_pos (books : m.Books x) (member : i ∈ m.names d) : 0 < m.named i := by
  refine Nat.pos_of_ne_zero fun none => ?_
  have directory : (m.node d).type = .dir := by
    by_contra other
    simp [names, Node.inums, other] at member
  exact named_eq_zero.mp none d (books.inside_dir directory).2 member

/-! ## Raising and lowering a link count -/

theorem short_of_range {n : Int} (low : -32768 ≤ n) (high : n ≤ 32767) : short n = n := by
  simp only [short, Int.bmod_def]
  omega

theorem addLink_names (n : Int) : (m.addLink i n).names = m.names := names_retype rfl rfl

theorem addLink_type (n : Int) (k : Nat) : ((m.addLink i n).node k).type = (m.node k).type := by
  unfold addLink
  apply type_setNode
  rfl

theorem addLink_entries (n : Int) (k : Nat) :
    ((m.addLink i n).node k).entries = (m.node k).entries := by
  by_cases same : k = i
  · subst same
    simp [addLink]
  · rw [addLink, setNode_other same]

theorem addLink_named (n : Int) : (m.addLink i n).named = m.named := by
  funext k
  simp only [named, addLink_names]
  rfl

theorem addLink_subdirs (n : Int) : (m.addLink i n).subdirs = m.subdirs := by
  funext d
  simp only [subdirs, addLink_names, addLink_type]

theorem addLink_up (n : Int) : (m.addLink i n).up = m.up := by
  funext d
  simp only [up, Node.entry, addLink_entries]

theorem addLink_nlink {n : Int} (fits : short ((m.node i).nlink + n) = (m.node i).nlink + n)
    (k : Nat) : ((m.addLink i n).node k).nlink = (m.node k).nlink + if k = i then n else 0 := by
  by_cases same : k = i
  · subst same
    simp [addLink, fits]
  · simp [addLink, setNode_other same, same]

theorem DirForm_congr {a b : Node} (form : DirForm d a) (entries : b.entries = a.entries) :
    DirForm d b := by
  have entry (k : Nat) : b.entry k = a.entry k := by rw [Node.entry, Node.entry, entries]
  exact ⟨entries ▸ form.dots, entries ▸ form.small, entry 0 ▸ form.dot, entry 1 ▸ form.dotdot,
    entry 1 ▸ form.above, entries ▸ form.plain⟩

theorem Books.addLink (books : m.Books x) {n : Int}
    (fits : short ((m.node i).nlink + n) = (m.node i).nlink + n) :
    (m.addLink i n).Books fun k => x k + if k = i then n else 0 where
  few := books.few
  inside k used := books.inside k (addLink_type n k ▸ used)
  root := by
    rw [addLink_type, addLink_up]
    exact books.root
  form d directory := DirForm_congr (books.form d (addLink_type n d ▸ directory))
    (addLink_entries n d)
  target d directory := by
    simp only [addLink_type, addLink_entries] at directory ⊢
    exact books.target d directory
  parent d := by
    simp only [addLink_names, addLink_type, addLink_up]
    exact books.parent d
  above d := by
    simp only [addLink_type, addLink_up]
    exact books.above d
  once k := by
    simp only [addLink_type, addLink_named]
    exact books.once k
  dirs k directory := by
    have links := books.dirs k (addLink_type n k ▸ directory)
    rw [addLink_nlink fits, addLink_named, addLink_subdirs]
    omega
  files k used file := by
    have links := books.files k (addLink_type n k ▸ used) (addLink_type n k ▸ file)
    rw [addLink_nlink fits, addLink_named]
    omega

/-! ## Writing an entry -/

/-- The inode that entry `k` names, 0 for none. -/
def Holds (n : Node) (k old : Nat) : Prop :=
  (∀ de, n.entries[k]? = some de → de.inum = old) ∧ (n.entries[k]? = none → old = 0)

/-- What may be written into `dp`: nothing, or the name of an inode that is not `dp`. -/
structure Fresh (m : Image) (dp : Nat) (de : Dirent) : Prop where
  used : (m.node de.inum).type ≠ .free
  other : de.inum ≠ dp
  plain : de.name ≠ ['.'] ∧ de.name ≠ ['.', '.']
  directory : (m.node de.inum).type = .dir → m.up de.inum = dp ∧ m.named de.inum = 0

section WriteEntry

variable {old : Nat} {de : Dirent}

theorem write_names (directory : (m.node dp).type = .dir) (late : 2 ≤ k)
    (inside : k ≤ (m.node dp).entries.length) (d : Nat) :
    (m.setNode dp ((m.node dp).write k de)).names d =
      if d = dp then writeAt (m.names dp) (k - 2) de.inum else m.names d := by
  by_cases same : d = dp
  · subst same
    rw [if_pos rfl, names, setNode_self, inums_write directory late inside]
    rfl
  · rw [if_neg same, names, setNode_other same]
    rfl

/-- Counting in the directory that is written. -/
theorem write_count (directory : (m.node dp).type = .dir) (late : 2 ≤ k)
    (holds : Holds (m.node dp) k old) (de : Dirent) (p : Nat → Bool) (zero : p 0 = false) :
    (writeAt (m.names dp) (k - 2) de.inum).countP p + (if p old then 1 else 0) =
      (m.names dp).countP p + if p de.inum then 1 else 0 := by
  have trade := countP_writeAt (l := m.names dp) (k := k - 2) p de.inum
  have before : (m.names dp)[k - 2]? = (m.node dp).entries[k]?.map Dirent.inum :=
    inums_before directory late
  rw [before] at trade
  cases here : (m.node dp).entries[k]? with
  | none =>
      rw [here] at trade
      rw [holds.2 here, zero]
      exact trade
  | some found =>
      rw [here] at trade
      rw [← holds.1 found here]
      exact trade

theorem write_named (inside : dp < m.ninodes) (directory : (m.node dp).type = .dir) (late : 2 ≤ k)
    (short : k ≤ (m.node dp).entries.length) (holds : Holds (m.node dp) k old) (de : Dirent)
    {c : Nat} (some : c ≠ 0) :
    ((m.setNode dp ((m.node dp).write k de)).named c : Int) =
      m.named c - ((if c = old then 1 else 0) - if c = de.inum then 1 else 0) := by
  have trade := named_setNode (n := (m.node dp).write k de) inside c
  rw [inums_write directory late short] at trade
  have counts := write_count directory late holds de (· == c) (by simpa using some.symm)
  have left (y : Nat) : (y == c) = decide (c = y) := by
    rw [Bool.eq_iff_iff, beq_iff_eq, decide_eq_true_iff, eq_comm]
  simp only [left, decide_eq_true_eq] at counts
  simp only [List.count, names, left] at trade counts
  have total : (m.setNode dp ((m.node dp).write k de)).named c + (if c = old then 1 else 0) =
      m.named c + if c = de.inum then 1 else 0 := by omega
  have total := congrArg (Nat.cast : Nat → Int) total
  push_cast at total
  omega

theorem write_type (c : Nat) :
    ((m.setNode dp ((m.node dp).write k de)).node c).type = (m.node c).type := by
  apply type_setNode
  rfl

theorem write_subdirs (zero : (m.node 0).type = .free) (directory : (m.node dp).type = .dir)
    (late : 2 ≤ k) (short : k ≤ (m.node dp).entries.length) (holds : Holds (m.node dp) k old)
    (de : Dirent) (d : Nat) :
    ((m.setNode dp ((m.node dp).write k de)).subdirs d : Int) =
      m.subdirs d - ((if d = dp ∧ (m.node old).type = .dir then 1 else 0) -
        if d = dp ∧ (m.node de.inum).type = .dir then 1 else 0) := by
  unfold subdirs
  simp only [write_type, write_names directory late short]
  by_cases same : d = dp
  · subst same
    have counts := write_count directory late holds de
      (fun i => decide ((m.node i).type = .dir)) (by simp [zero])
    simp only [decide_eq_true_eq] at counts
    have counts := congrArg (Nat.cast : Nat → Int) counts
    push_cast at counts
    simp only [if_true, true_and]
    omega
  · simp [same]

/-- The entries "." and ".." stay. -/
theorem write_entry (de : Dirent) {c : Nat} (early : c < k) (short : k ≤ n.entries.length) :
    (n.write k de).entry c = n.entry c := by
  rw [Node.entry, Node.entry, List.getD_eq_getElem?_getD, List.getD_eq_getElem?_getD]
  exact congrArg (Option.getD · _) (getElem?_writeAt_before de early short)

theorem write_up (late : 2 ≤ k) (short : k ≤ (m.node dp).entries.length) (d : Nat) :
    (m.setNode dp ((m.node dp).write k de)).up d = m.up d := by
  unfold up
  by_cases same : d = dp
  · subst same
    rw [setNode_self, write_entry de late short]
  · rw [setNode_other same]

/-- Entries behind "." and "..". -/
theorem mem_write {found : Dirent} (late : 2 ≤ k) (short : k ≤ n.entries.length)
    (member : found ∈ (n.write k de).entries.drop 2) : found = de ∨ found ∈ n.entries.drop 2 := by
  have drop : (n.write k de).entries.drop 2 = writeAt (n.entries.drop 2) (k - 2) de :=
    drop_writeAt de late short
  rw [drop] at member
  exact mem_writeAt member

theorem DirForm_write (form : DirForm d n) (late : 2 ≤ k) (short : k ≤ n.entries.length)
    (small : k < maxdirent)
    (plain : de.inum ≠ 0 → de.inum ≠ d ∧ de.name ≠ ['.'] ∧ de.name ≠ ['.', '.']) :
    DirForm d (n.write k de) := by
  have length : (n.write k de).entries.length = max n.entries.length (k + 1) :=
    length_writeAt de short
  have zero := write_entry de (by omega : 0 < k) short
  have one := write_entry de (c := 1) late short
  constructor
  · have dots := form.dots
    omega
  · have bound := form.small
    omega
  · rw [zero]
    exact form.dot
  · rw [one]
    exact form.dotdot
  · rw [one]
    exact form.above
  · intro found member some
    obtain rfl | earlier := mem_write late short member
    · exact plain some
    · exact form.plain found earlier some

/-- Writing an entry moves the balance of the inode that was named there, of the one that is
named now, and of the directory if one of them is a directory. -/
theorem Books.write (books : m.Books x) (directory : (m.node dp).type = .dir) (late : 2 ≤ k)
    (short : k ≤ (m.node dp).entries.length) (small : k < maxdirent)
    (holds : Holds (m.node dp) k old) (fresh : de.inum ≠ 0 → m.Fresh dp de) :
    (m.setNode dp ((m.node dp).write k de)).Books fun c => x c +
      ((if c = old then 1 else 0) - if c = de.inum then 1 else 0) +
      ((if c = dp ∧ (m.node old).type = .dir then 1 else 0) -
        if c = dp ∧ (m.node de.inum).type = .dir then 1 else 0) where
  few := books.few
  inside c used := books.inside c (by rwa [write_type] at used)
  root := by
    rw [write_type, write_up late short]
    exact books.root
  form d here := by
    rw [write_type] at here
    by_cases same : d = dp
    · subst same
      rw [setNode_self]
      exact DirForm_write (books.form d here) late short small fun some =>
        ⟨(fresh some).other, (fresh some).plain⟩
    · rw [setNode_other same]
      exact books.form d here
  target d here found member some := by
    rw [write_type] at here ⊢
    by_cases same : d = dp
    · subst same
      rw [setNode_self] at member
      obtain rfl | earlier := mem_writeAt member
      · exact (fresh some).used
      · exact books.target d here found earlier some
    · rw [setNode_other same] at member
      exact books.target d here found member some
  parent d j member below := by
    rw [write_type] at below
    rw [write_up late short]
    rw [write_names directory late short] at member
    split at member
    · next same =>
      subst same
      obtain rfl | earlier := mem_writeAt member
      · refine ((fresh fun zero => ?_).directory below).1
        rw [zero, books.zero] at below
        cases below
      · exact books.parent d j earlier below
    · exact books.parent d j member below
  above d here := by
    rw [write_type] at here
    rw [write_up late short, write_type]
    exact books.above d here
  once c here := by
    rw [write_type] at here
    have some : c ≠ 0 := Nat.ne_of_gt (books.inside_dir here).1
    have named := write_named (books.inside_dir directory).2 directory late short holds de some
    have once := books.once c here
    by_cases new : c = de.inum
    · subst new
      have none := ((fresh some).directory here).2
      rw [if_pos rfl, none] at named
      split at named <;> omega
    · rw [if_neg new] at named
      split at named <;> omega
  dirs c here := by
    rw [write_type] at here
    have some : c ≠ 0 := Nat.ne_of_gt (books.inside_dir here).1
    have named := write_named (books.inside_dir directory).2 directory late short holds de some
    have subdirs := write_subdirs books.zero directory late short holds de c
    have links := books.dirs c here
    have nlink : ((m.setNode dp ((m.node dp).write k de)).node c).nlink = (m.node c).nlink := by
      by_cases same : c = dp
      · subst same
        rw [setNode_self]
        rfl
      · rw [setNode_other same]
    rw [nlink, named, subdirs, links]
    omega
  files c used file := by
    rw [write_type] at used file
    have some : c ≠ 0 := Nat.ne_of_gt (books.inside c used).1
    have named := write_named (books.inside_dir directory).2 directory late short holds de some
    have links := books.files c used file
    have other : c ≠ dp := by
      rintro rfl
      exact file directory
    rw [setNode_other other, named]
    simp only [other, false_and, if_false]
    omega

end WriteEntry

/-! ## Filling and freeing an inode -/

theorem names_other (other : d ≠ i) : (m.setNode i n).names d = m.names d := by
  rw [names, setNode_other other]
  rfl

theorem up_other (other : d ≠ i) : (m.setNode i n).up d = m.up d := by
  rw [up, setNode_other other]
  rfl

/-- A directory that does not name the inode does not see what becomes of it. -/
theorem subdirs_other (other : d ≠ i) (absent : i ∉ m.names d) :
    (m.setNode i n).subdirs d = m.subdirs d := by
  unfold subdirs
  rw [names_other other]
  refine List.countP_congr fun j member => ?_
  have away : j ≠ i := fun same => absent (same ▸ member)
  rw [setNode_other away]

/-- A new inode, with one link that no entry accounts for yet. -/
structure Filled (m : Image) (i dp : Nat) (n : Node) : Prop where
  free : (m.node i).type = .free
  inside : 0 < i ∧ i < m.ninodes
  used : n.type ≠ .free
  nlink : n.nlink = 1
  parent : (m.node dp).type = .dir
  empty : n.inums = []
  form : n.type = .dir → DirForm i n ∧ (n.entry 1).inum = dp ∧
    ∀ de ∈ n.entries, de.inum = i ∨ de.inum = dp

theorem Books.fill (books : m.Books fun _ => 0) (filled : m.Filled i dp n) :
    (m.setNode i n).Books fun c => if c = i then 1 else 0 := by
  have unnamed := books.free_unnamed filled.free (Nat.ne_of_gt filled.inside.1)
  have away {c : Nat} (used : (m.node c).type ≠ .free) : c ≠ i := by
    rintro rfl
    exact used filled.free
  have used {c : Nat} (used : (m.node c).type ≠ .free) :
      ((m.setNode i n).node c).type ≠ .free := by rwa [setNode_other (away used)]
  have named (c : Nat) : (m.setNode i n).named c = m.named c := by
    have trade := named_setNode (n := n) filled.inside.2 c
    have none : m.names i = [] := by simp [names, Node.inums, filled.free]
    rw [none, filled.empty] at trade
    simpa using trade
  have above : (m.node dp).type ≠ .free := by simp [filled.parent]
  constructor
  · exact books.few
  · intro c here
    by_cases same : c = i
    · subst same
      exact filled.inside
    · rw [setNode_other same] at here
      exact books.inside c here
  · have root : (m.node rootino).type ≠ .free := by simp [books.root.1]
    rw [setNode_other (away root), up_other (away root)]
    exact books.root
  · intro d here
    by_cases same : d = i
    · subst same
      rw [setNode_self] at here ⊢
      exact (filled.form here).1
    · rw [setNode_other same] at here ⊢
      exact books.form d here
  · intro d here de member some
    by_cases same : d = i
    · subst same
      rw [setNode_self] at here member
      obtain self | parent := (filled.form here).2.2 de member
      · rw [self, setNode_self]
        exact filled.used
      · rw [parent]
        exact used above
    · rw [setNode_other same] at here member
      exact used (books.target d here de member some)
  · intro d j member below
    by_cases same : d = i
    · subst same
      rw [names, setNode_self, filled.empty] at member
      exact absurd member List.not_mem_nil
    · rw [names_other same] at member
      have other : j ≠ i := fun here => unnamed d (here ▸ member)
      rw [setNode_other other] at below
      rw [up_other other]
      exact books.parent d j member below
  · intro d here
    by_cases same : d = i
    · subst same
      rw [setNode_self] at here
      have up : (m.setNode d n).up d = dp := by
        rw [Image.up, setNode_self]
        exact (filled.form here).2.1
      rw [up, setNode_other (away above)]
      exact filled.parent
    · rw [setNode_other same] at here
      have parent := books.above d here
      rw [up_other same, setNode_other (away (by simp [parent]))]
      exact parent
  · intro c here
    rw [named]
    by_cases same : c = i
    · subst same
      rw [named_eq_zero.mpr fun d _ => unnamed d]
      exact Nat.zero_le 1
    · rw [setNode_other same] at here
      exact books.once c here
  · intro c here
    rw [named]
    by_cases same : c = i
    · subst same
      have none : (m.setNode c n).subdirs c = 0 := by
        simp [subdirs, names, filled.empty]
      have other : c ≠ rootino := fun root => by
        have free := filled.free
        rw [root, books.root.1] at free
        cases free
      rw [setNode_self, filled.nlink, none, named_eq_zero.mpr fun d _ => unnamed d, if_neg other,
        if_pos rfl]
      rfl
    · rw [setNode_other same] at here ⊢
      rw [subdirs_other same (unnamed c), if_neg same]
      exact books.dirs c here
  · intro c here file
    rw [named]
    by_cases same : c = i
    · subst same
      rw [setNode_self, filled.nlink, named_eq_zero.mpr fun d _ => unnamed d, if_pos rfl]
      decide
    · rw [setNode_other same] at here file ⊢
      rw [if_neg same]
      exact books.files c here file

/-- An inode without links that is the ".." of no other directory has no name at all. -/
theorem Books.unlinked (books : m.Books fun _ => 0) (used : (m.node i).type ≠ .free)
    (links : (m.node i).nlink = 0) : i ≠ rootino ∧ m.named i = 0 ∧
      ((m.node i).type = .dir → m.subdirs i = 0) := by
  by_cases directory : (m.node i).type = .dir
  · have balance := books.dirs i directory
    rw [links] at balance
    split at balance
    · omega
    · next other =>
      exact ⟨other, by omega, fun _ => by omega⟩
  · have balance := books.files i used directory
    refine ⟨?_, by omega, fun here => absurd here directory⟩
    rintro rfl
    exact directory books.root.1

/-- The ".." of another directory. -/
def Orphans (m : Image) (i : Nat) : Prop := ∃ d, d ≠ i ∧ (m.node d).type = .dir ∧ m.up d = i

theorem Books.free (books : m.Books fun _ => 0) (used : (m.node i).type ≠ .free)
    (links : (m.node i).nlink = 0) (childless : (m.node i).type = .dir → ¬ m.Orphans i) :
    (m.free i).Books fun _ => 0 := by
  obtain ⟨notRoot, unnamed, subdirs⟩ := books.unlinked used links
  have inside := books.inside i used
  have absent (d : Nat) : i ∉ m.names d := fun member => by
    have pos := books.named_pos member
    omega
  have lone {d : Nat} (here : (m.node d).type = .dir) (other : d ≠ i) : m.up d ≠ i := by
    intro up
    by_cases directory : (m.node i).type = .dir
    · exact childless directory ⟨d, other, here, up⟩
    · exact directory (up ▸ books.above d here)
  have named (c : Nat) : (m.free i).named c + (m.names i).count c = m.named c := by
    have trade := named_setNode (n := { m.node i with type := .free, entries := [] }) inside.2 c
    simpa [Image.free, Node.inums] using trade
  have dir {d : Nat} (here : ((m.free i).node d).type = .dir) : d ≠ i := by
    rintro rfl
    simp [Image.free] at here
  have node {c : Nat} (other : c ≠ i) : (m.free i).node c = m.node c := setNode_other other
  constructor
  · exact books.few
  · intro c here
    by_cases same : c = i
    · subst same
      exact inside
    · rw [node same] at here
      exact books.inside c here
  · rw [node notRoot.symm]
    exact ⟨books.root.1, (up_other notRoot.symm).trans books.root.2⟩
  · intro d here
    have other := dir here
    rw [node other] at here ⊢
    exact books.form d here
  · intro d here de member some
    have other := dir here
    rw [node other] at here member
    have target := books.target d here de member some
    have away : de.inum ≠ i := by
      rintro rfl
      rw [entries_split (books.form d here).dots, List.mem_cons, List.mem_cons] at member
      obtain rfl | rfl | behind := member
      · rw [(books.form d here).dot] at other
        exact other rfl
      · exact lone here other rfl
      · refine absent d ?_
        rw [names, Node.inums, if_pos here]
        exact List.mem_map_of_mem behind
    rwa [node away]
  · intro d j member below
    have other : d ≠ i := by
      rintro rfl
      simp [names, Image.free, Node.inums] at member
    have away : j ≠ i := dir below
    rw [node away] at below
    have member : j ∈ m.names d := by rwa [Image.free, names_other other] at member
    exact (up_other away).trans (books.parent d j member below)
  · intro d here
    have other := dir here
    rw [node other] at here
    have up : (m.free i).up d = m.up d := up_other other
    rw [up, node (lone here other)]
    exact books.above d here
  · intro c here
    have other := dir here
    rw [node other] at here
    have once := books.once c here
    have fewer := named c
    omega
  · intro c here
    have other := dir here
    rw [node other] at here ⊢
    have links := books.dirs c here
    have same : (m.free i).subdirs c = m.subdirs c := subdirs_other other (absent c)
    have count : (m.names i).count c = 0 := by
      refine List.count_eq_zero.mpr fun member => ?_
      have directory : (m.node i).type = .dir := by
        by_contra file
        simp [names, Node.inums, file] at member
      exact absurd (subdirs directory) (Nat.ne_of_gt (List.countP_pos_iff.mpr ⟨c, member, by simpa using here⟩))
    have fewer := named c
    rw [same, links]
    omega
  · intro c here file
    have other : c ≠ i := by
      rintro rfl
      simp [Image.free] at here
    rw [node other] at here file ⊢
    have links := books.files c here file
    have fewer := named c
    omega

end Image

end SlabStudy.Xv6
