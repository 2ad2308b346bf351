import SlabStudy.Xv6.DirTree
import SlabStudy.Xv6.SelfLock

/-!
# Link counts and dangling names

What the calls do to a tree of directories.  An inode is freed when it has
neither links nor references, but the ".." entry of a directory that is itself
removed is not counted as a link, and the entries of a removed directory are
dropped with it.  Under the condition that no such directory is freed too
early, names never dangle and link counts stay exact.
-/

namespace SlabStudy.Xv6

open Library

namespace Image

variable {m : Image} {i j k d dp off : Nat} {name : Name} {n : Node} {x y : Nat → Int}

/-- Only the balances of inodes in use matter. -/
theorem Books.congr (books : m.Books x) (same : ∀ c, (m.node c).type ≠ .free → y c = x c) :
    m.Books y :=
  { books with
    dirs := fun c here => by
      rw [same c (by simp [here])]
      exact books.dirs c here
    files := fun c used file => by
      rw [same c used]
      exact books.files c used file }

/-- The links of files are exact up to the balance. -/
def Exact (m : Image) (x : Nat → Int) : Prop :=
  ∀ i, (m.node i).type ≠ .free → (m.node i).type ≠ .dir → (m.node i).nlink = m.named i + x i

theorem Exact.congr (exact : m.Exact x) (same : ∀ c, (m.node c).type ≠ .free → y c = x c) :
    m.Exact y := by
  intro c used file
  rw [same c used]
  exact exact c used file

theorem Exact.addLink (exact : m.Exact x) {n : Int}
    (fits : short ((m.node i).nlink + n) = (m.node i).nlink + n) :
    (m.addLink i n).Exact fun k => x k + if k = i then n else 0 := by
  intro k used file
  have links := exact k (addLink_type n k ▸ used) (addLink_type n k ▸ file)
  rw [addLink_nlink fits, addLink_named]
  dsimp only
  omega

theorem Exact.write (exact : m.Exact x) (books : m.Books x) {old : Nat} {de : Dirent}
    (directory : (m.node dp).type = .dir) (late : 2 ≤ k)
    (short : k ≤ (m.node dp).entries.length) (holds : Holds (m.node dp) k old) :
    (m.setNode dp ((m.node dp).write k de)).Exact fun c => x c +
      ((if c = old then 1 else 0) - if c = de.inum then 1 else 0) +
      ((if c = dp ∧ (m.node old).type = .dir then 1 else 0) -
        if c = dp ∧ (m.node de.inum).type = .dir then 1 else 0) := by
  intro c used file
  rw [write_type] at used file
  have some : c ≠ 0 := Nat.ne_of_gt (books.inside c used).1
  have named := write_named (books.inside_dir directory).2 directory late short holds de some
  have links := exact c used file
  have other : c ≠ dp := by
    rintro rfl
    exact file directory
  rw [setNode_other other, named]
  simp only [other, false_and, if_false]
  omega

/-- Both: the books, and exactness when it is kept. -/
structure Accounts (tidy : Prop) (m : Image) (x : Nat → Int) : Prop where
  books : m.Books x
  exact : tidy → m.Exact x

variable {tidy : Prop}

theorem Accounts.congr (accounts : Accounts tidy m x)
    (same : ∀ c, (m.node c).type ≠ .free → y c = x c) : Accounts tidy m y :=
  ⟨accounts.books.congr same, fun here => (accounts.exact here).congr same⟩

theorem Accounts.addLink (accounts : Accounts tidy m x) {n : Int}
    (fits : short ((m.node i).nlink + n) = (m.node i).nlink + n) :
    Accounts tidy (m.addLink i n) fun k => x k + if k = i then n else 0 :=
  ⟨accounts.books.addLink fits, fun here => (accounts.exact here).addLink fits⟩

theorem Accounts.write (accounts : Accounts tidy m x) {old : Nat} {de : Dirent}
    (directory : (m.node dp).type = .dir) (late : 2 ≤ k)
    (short : k ≤ (m.node dp).entries.length) (small : k < maxdirent)
    (holds : Holds (m.node dp) k old) (fresh : de.inum ≠ 0 → m.Fresh dp de) :
    Accounts tidy (m.setNode dp ((m.node dp).write k de)) fun c => x c +
      ((if c = old then 1 else 0) - if c = de.inum then 1 else 0) +
      ((if c = dp ∧ (m.node old).type = .dir then 1 else 0) -
        if c = dp ∧ (m.node de.inum).type = .dir then 1 else 0) :=
  ⟨accounts.books.write directory late short small holds fresh,
    fun here => (accounts.exact here).write accounts.books directory late short holds⟩

theorem Accounts.fill (accounts : Accounts tidy m fun _ => 0) (filled : m.Filled i dp n) :
    Accounts tidy (m.setNode i n) fun c => if c = i then 1 else 0 := by
  have books := accounts.books.fill filled
  refine ⟨books, fun here c used file => ?_⟩
  have unnamed := accounts.books.free_unnamed filled.free (Nat.ne_of_gt filled.inside.1)
  have named : (m.setNode i n).named c = m.named c := by
    have trade := named_setNode (n := n) filled.inside.2 c
    have none : m.names i = [] := by simp [names, Node.inums, filled.free]
    rw [none, filled.empty] at trade
    simpa using trade
  rw [named]
  by_cases same : c = i
  · subst same
    rw [setNode_self, filled.nlink, named_eq_zero.mpr fun d _ => unnamed d]
    simp
  · rw [setNode_other same] at used file ⊢
    rw [if_neg same]
    exact accounts.exact here c used file

theorem Accounts.free (accounts : Accounts tidy m fun _ => 0) (used : (m.node i).type ≠ .free)
    (links : (m.node i).nlink = 0) (childless : (m.node i).type = .dir → ¬ m.Orphans i)
    (empty : tidy → (m.node i).type = .dir → (m.node i).isdirempty = true) :
    Accounts tidy (m.free i) fun _ => 0 := by
  refine ⟨accounts.books.free used links childless, fun here c used' file => ?_⟩
  have other : c ≠ i := by
    rintro rfl
    simp [Image.free] at used'
  have node : (m.free i).node c = m.node c := setNode_other other
  rw [node] at used' file ⊢
  have some : c ≠ 0 := Nat.ne_of_gt (accounts.books.inside c used').1
  have trade := named_setNode (n := { m.node i with type := .free, entries := [] })
    (accounts.books.inside i used).2 c
  have none : (m.names i).count c = 0 := by
    refine List.count_eq_zero.mpr fun member => ?_
    unfold names Node.inums at member
    split at member
    · next directory =>
      obtain ⟨de, inside, rfl⟩ := List.mem_map.mp member
      have zero := List.all_eq_true.mp (empty here directory) de inside
      exact some (by simpa using zero)
    · exact absurd member List.not_mem_nil
  have links := accounts.exact here c used' file
  have same : (m.free i).named c = m.named c := by
    rw [none] at trade
    simpa [Image.free, Node.inums] using trade
  rw [same]
  exact links

/-! ## Names of "." and ".." -/

/-- A name that is not present is not "." or "..". -/
theorem absent_plain (form : DirForm d n) (positive : 0 < d) (absent : n.lookup name = none) :
    name.take dirsiz ≠ ['.'] ∧ name.take dirsiz ≠ ['.', '.'] := by
  have none := List.findIdx?_eq_none_iff.mp absent
  have split := entries_split form.dots
  have first := none (n.entry 0) (by rw [split]; exact List.mem_cons_self)
  have second := none (n.entry 1) (by rw [split]; exact List.mem_cons_of_mem _ List.mem_cons_self)
  constructor
  · intro dot
    rw [form.dot] at first
    simp only [namecmp, dot] at first
    simp [Nat.ne_of_gt positive] at first
  · intro dots
    simp only [namecmp, dots, form.dotdot.1] at second
    simp [form.dotdot.2] at second

/-- An entry for another name is behind "." and "..". -/
theorem present_late (form : DirForm d n) (present : n.lookup name = some off)
    (plain : ¬ (namecmp name ['.'] = true ∨ namecmp name ['.', '.'] = true)) :
    2 ≤ off ∧ off < n.entries.length ∧ n.entries[off]? = some (n.entry off) := by
  obtain ⟨inside, found, -⟩ := List.findIdx?_eq_some_iff_getElem.mp present
  have here : n.entries[off]? = some (n.entry off) := by
    rw [List.getElem?_eq_getElem inside, Node.entry, List.getD_eq_getElem?_getD,
      List.getElem?_eq_getElem inside, Option.getD_some]
  have names : namecmp name (n.entry off).name = true := (Fs.lookup_entry present).2.2
  refine ⟨?_, inside, here⟩
  by_contra early
  have cases : off = 0 ∨ off = 1 := by omega
  obtain rfl | rfl := cases
  · rw [form.dot] at names
    exact plain (.inl names)
  · rw [form.dotdot.1] at names
    exact plain (.inr names)

/-! ## Entering and erasing names -/

theorem Accounts.enter (accounts : Accounts tidy m x) (directory : (m.node dp).type = .dir)
    (absent : (m.node dp).lookup name = none) (space : (m.node dp).vacant < maxdirent)
    (used : (m.node i).type ≠ .free) (other : i ≠ dp)
    (child : (m.node i).type = .dir → m.up i = dp ∧ m.named i = 0) :
    Accounts tidy (m.enter dp name i) fun c => x c - (if c = i then 1 else 0) -
      if c = dp ∧ (m.node i).type = .dir then 1 else 0 := by
  have books := accounts.books
  have inside := books.inside i used
  have few := books.few
  have number : i % 65536 = i := Nat.mod_eq_of_lt (by omega)
  have positive := (books.inside_dir directory).1
  obtain ⟨late, short, empty⟩ := vacant_spec (books.form dp directory) positive
  have holds : Holds (m.node dp) (m.node dp).vacant 0 := ⟨empty, fun _ => rfl⟩
  have plain := absent_plain (books.form dp directory) positive absent
  have fresh : m.Fresh dp ⟨i % 65536, name.take dirsiz⟩ := by
    constructor
    · simpa only [number] using used
    · simpa only [number] using other
    · exact plain
    · simpa only [number] using child
  refine (accounts.write directory late short space holds fun _ => fresh).congr fun c here => ?_
  have nonzero : c ≠ 0 := by
    rintro rfl
    rw [write_type, books.zero] at here
    exact here rfl
  simp only [number, books.zero, nonzero, if_false, reduceCtorEq, and_false]
  omega

/-- The entry `off` of `dp` names `i`. -/
theorem Accounts.clear (accounts : Accounts tidy m x) (directory : (m.node dp).type = .dir)
    (present : (m.node dp).lookup name = some off)
    (plain : ¬ (namecmp name ['.'] = true ∨ namecmp name ['.', '.'] = true))
    (names : ((m.node dp).entry off).inum = i) :
    Accounts tidy (m.clear dp off) fun c => x c + (if c = i then 1 else 0) +
      if c = dp ∧ (m.node i).type = .dir then 1 else 0 := by
  have books := accounts.books
  have form := books.form dp directory
  obtain ⟨late, inside, here⟩ := present_late form present plain
  have holds : Holds (m.node dp) off i := by
    constructor
    · intro de found
      rw [here] at found
      cases found
      exact names
    · intro none
      rw [here] at none
      cases none
  have small := form.small
  have erased : (⟨0, []⟩ : Dirent).inum ≠ 0 → m.Fresh dp ⟨0, []⟩ := fun some => absurd rfl some
  have written := accounts.write directory late inside.le (by omega) holds erased
  refine written.congr fun c used => ?_
  have nonzero : c ≠ 0 := by
    rintro rfl
    rw [write_type, books.zero] at used
    exact used rfl
  simp only [nonzero, books.zero, reduceCtorEq, and_false, if_false]
  omega

/-- A directory has few links. -/
theorem Books.dir_nlink (books : m.Books fun _ => 0) (directory : (m.node d).type = .dir) :
    0 ≤ (m.node d).nlink ∧ (m.node d).nlink ≤ 4480 := by
  have links := books.dirs d directory
  have once := books.once d directory
  have form := books.form d directory
  have limit : maxdirent = 4480 := by decide
  have bound : m.subdirs d ≤ (m.node d).entries.length - 2 := by
    unfold subdirs
    refine List.countP_le_length.trans ?_
    rw [names, Node.inums, if_pos directory, List.length_map, List.length_drop]
  have small := form.small
  have dots := form.dots
  split at links <;> omega

/-! ## What the calls do to an image -/

/-- The inode that `create` fills in. -/
def born (dp i : Nat) (type : InodeType) (major minor : Int) : Node :=
  ⟨type, major, minor, 1, if type = .dir then [⟨i, ['.']⟩, ⟨dp, ['.', '.']⟩] else []⟩

theorem born_filled {type : InodeType} {major minor : Int} (free : (m.node i).type = .free)
    (inside : 0 < i ∧ i < m.ninodes) (typed : type ≠ .free) (directory : (m.node dp).type = .dir)
    (positive : 0 < dp) : m.Filled i dp (born dp i type major minor) where
  free := free
  inside := inside
  used := typed
  nlink := rfl
  parent := directory
  empty := by
    by_cases dir : type = .dir <;> simp [Node.inums, born, dir]
  form dir := by
    have entries : (born dp i type major minor).entries = [⟨i, ['.']⟩, ⟨dp, ['.', '.']⟩] :=
      if_pos dir
    have other : dp ≠ i := by
      rintro rfl
      rw [free] at directory
      cases directory
    refine ⟨⟨?_, ?_, ?_, ?_, ?_, ?_⟩, ?_, ?_⟩
    · simp [entries]
    · rw [entries]
      exact (by decide : 2 ≤ maxdirent)
    · simp [Node.entry, entries]
    · simp [Node.entry, entries, Nat.ne_of_gt positive]
    · simp [Node.entry, entries, other]
    · simp [entries]
    · simp [Node.entry, entries]
    · simp [entries]

/-- The image in which a new inode `i` is entered in `dp`. -/
def make (m : Image) (dp : Nat) (name : Name) (i : Nat) (type : InodeType) (major minor : Int) :
    Image :=
  let m := m.setNode i (born dp i type major minor)
  let m := if type = .dir then m.addLink dp 1 else m
  m.enter dp name i

theorem Accounts.make {type : InodeType} {major minor : Int}
    (accounts : Accounts tidy m fun _ => 0) (directory : (m.node dp).type = .dir)
    (absent : (m.node dp).lookup name = none) (space : (m.node dp).vacant < maxdirent)
    (free : (m.node i).type = .free) (inside : 0 < i ∧ i < m.ninodes) (typed : type ≠ .free) :
    Accounts tidy (m.make dp name i type major minor) fun _ => 0 := by
  have other : dp ≠ i := by
    rintro rfl
    rw [free] at directory
    cases directory
  have positive := (accounts.books.inside_dir directory).1
  have filled : m.Filled i dp (born dp i type major minor) :=
    born_filled free inside typed directory positive
  have few := accounts.books.dir_nlink directory
  have first := accounts.fill filled
  have unnamed := accounts.books.free_unnamed free (Nat.ne_of_gt inside.1)
  have parent := setNode_other (m := m) (n := born dp i type major minor) other
  have child := setNode_self (m := m) (i := i) (n := born dp i type major minor)
  have named : (m.setNode i (born dp i type major minor)).named i = 0 := by
    have trade := named_setNode (n := born dp i type major minor) inside.2 i
    rw [filled.empty, named_eq_zero.mpr fun d _ => unnamed d, List.count_nil] at trade
    omega
  have up (dir : type = .dir) : (m.setNode i (born dp i type major minor)).up i = dp := by
    rw [Image.up, child]
    exact (filled.form dir).2.1
  unfold Image.make
  dsimp only
  generalize m.setNode i (born dp i type major minor) = u at *
  by_cases dir : type = .dir
  · rw [if_pos dir]
    have fits : short ((u.node dp).nlink + 1) = (u.node dp).nlink + 1 := by
      rw [parent]
      exact short_of_range (by omega) (by omega)
    have same := (addLink_entries (m := u) (i := dp) 1 dp).trans (congrArg Node.entries parent)
    have content := Fs.lookup_congr same name
    have kind : ((u.addLink dp 1).node i).type = .dir := by
      rw [addLink_type, child]
      exact dir
    refine ((first.addLink fits).enter ?_ ?_ ?_ ?_ other.symm ?_).congr fun c _ => ?_
    · rw [addLink_type, parent]
      exact directory
    · rw [content.1]
      exact absent
    · rw [content.2]
      exact space
    · rw [kind]
      decide
    · intro _
      rw [addLink_up, addLink_named]
      exact ⟨up dir, named⟩
    · simp only [kind, and_true]
      omega
  · rw [if_neg dir]
    have kind : (u.node i).type = type := by rw [child]; rfl
    refine (first.enter ?_ ?_ ?_ ?_ other.symm ?_).congr fun c _ => ?_
    · rw [parent]
      exact directory
    · rw [parent]
      exact absent
    · rw [parent]
      exact space
    · rw [kind]
      exact typed
    · intro here
      exact absurd (kind.symm.trans here) dir
    · simp only [kind, dir, and_false, if_false]
      omega

/-- A link to a file. -/
theorem Accounts.link (accounts : Accounts tidy m fun _ => 0) (directory : (m.node dp).type = .dir)
    (absent : (m.node dp).lookup name = none) (space : (m.node dp).vacant < maxdirent)
    (used : (m.node i).type ≠ .free) (file : (m.node i).type ≠ .dir)
    (fits : short ((m.node i).nlink + 1) = (m.node i).nlink + 1) :
    Accounts tidy ((m.addLink i 1).enter dp name i) fun _ => 0 := by
  have other : i ≠ dp := by
    rintro rfl
    exact file directory
  have content := Fs.lookup_congr (addLink_entries (m := m) (i := i) 1 dp) name
  have kind (k : Nat) := addLink_type (m := m) (i := i) 1 k
  refine ((accounts.addLink fits).enter ?_ ?_ ?_ ?_ other ?_).congr fun c _ => ?_
  · rw [kind]
    exact directory
  · rw [content.1]
    exact absent
  · rw [content.2]
    exact space
  · rw [kind]
    exact used
  · intro here
    exact absurd ((kind i).symm.trans here) file
  · simp only [kind, file, and_false, if_false]
    omega

/-- The image in which entry `off` of `dp` no longer names `i`. -/
def unlink (m : Image) (dp off i : Nat) : Image :=
  let m := m.clear dp off
  let m := if (m.node i).type = .dir then m.addLink dp (-1) else m
  m.addLink i (-1)

/-- Erasing a name moves no directory. -/
theorem unlink_orphans (late : 2 ≤ off) (inside : off ≤ (m.node dp).entries.length) :
    (m.unlink dp off i).Orphans k ↔ m.Orphans k := by
  have type (c : Nat) : ((m.unlink dp off i).node c).type = (m.node c).type := by
    unfold Image.unlink
    dsimp only
    rw [addLink_type]
    split
    · rw [addLink_type]
      exact write_type c
    · exact write_type c
  have up (c : Nat) : (m.unlink dp off i).up c = m.up c := by
    unfold Image.unlink
    dsimp only
    rw [addLink_up]
    split
    · rw [addLink_up]
      exact write_up late inside c
    · exact write_up late inside c
  simp only [Orphans, type, up]

theorem Accounts.unlink (accounts : Accounts tidy m fun _ => 0)
    (directory : (m.node dp).type = .dir) (present : (m.node dp).lookup name = some off)
    (plain : ¬ (namecmp name ['.'] = true ∨ namecmp name ['.', '.'] = true))
    (names : ((m.node dp).entry off).inum = i) (other : i ≠ dp)
    (links : 1 ≤ (m.node i).nlink) (fits : short (m.node i).nlink = (m.node i).nlink) :
    Accounts tidy (m.unlink dp off i) fun _ => 0 := by
  have few := accounts.books.dir_nlink directory
  have first := accounts.clear directory present plain names
  have type : ((m.clear dp off).node i).type = (m.node i).type := write_type i
  have child : (m.clear dp off).node i = m.node i := setNode_other other
  have parent : ((m.clear dp off).node dp).nlink = (m.node dp).nlink := by
    rw [Image.clear, setNode_self]
    rfl
  have less : short ((m.node i).nlink + -1) = (m.node i).nlink + -1 := by
    refine short_of_range (by omega) ?_
    simp only [short, Int.bmod_def] at fits
    omega
  unfold Image.unlink
  dsimp only
  generalize m.clear dp off = u at *
  by_cases dir : (m.node i).type = .dir
  · rw [if_pos (type.trans dir)]
    have second := first.addLink (i := dp) (n := -1)
      (short_of_range (by rw [parent]; omega) (by rw [parent]; omega))
    have same : (u.addLink dp (-1)).node i = m.node i := (setNode_other other).trans child
    refine (second.addLink (by rwa [same])).congr fun c _ => ?_
    simp only [dir, and_true]
    split <;> split <;> omega
  · rw [if_neg (type ▸ dir)]
    refine (first.addLink (by rwa [child])).congr fun c _ => ?_
    simp only [dir, and_false, if_false]
    split <;> omega

end Image

end SlabStudy.Xv6
