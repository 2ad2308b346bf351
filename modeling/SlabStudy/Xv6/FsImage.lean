import SlabStudy.Library.Runs
import SlabStudy.Xv6.CallEffects

/-!
# Well-formed images

What a file system image has to be for the kernel to start from it: every
directory has its "." and ".." entries, every entry names an allocated inode,
a directory has one name, and link counts are exact.  The image that `mkfs.c`
writes is one.  The runs of the file system start from such an image with any
number of processes in the root directory.
-/

namespace SlabStudy.Xv6

open Library

/-! ## Names and links -/

/-- The inodes that a directory names, apart from "." and "..". -/
def Node.inums (n : Node) : List Nat :=
  if n.type = .dir then (n.entries.drop 2).map Dirent.inum else []

namespace Image

/-- The inodes that inode `d` names. -/
def names (m : Image) (d : Nat) : List Nat := (m.node d).inums

/-- The entries that name `i`, apart from "." and "..". -/
def named (m : Image) (i : Nat) : Nat := ∑ d ∈ Finset.range m.ninodes, (m.names d).count i

/-- The subdirectories of `d`. -/
def subdirs (m : Image) (d : Nat) : Nat :=
  (m.names d).countP fun i => decide ((m.node i).type = .dir)

/-- The inode that ".." names in `d`. -/
def up (m : Image) (d : Nat) : Nat := ((m.node d).entry 1).inum

end Image

/-- The content of a directory `d`. -/
structure DirForm (d : Nat) (n : Node) : Prop where
  dots : 2 ≤ n.entries.length
  small : n.entries.length ≤ maxdirent
  dot : n.entry 0 = ⟨d, ['.']⟩
  dotdot : (n.entry 1).name = ['.', '.'] ∧ (n.entry 1).inum ≠ 0
  above : (n.entry 1).inum = d → d = rootino
  plain : ∀ de ∈ n.entries.drop 2, de.inum ≠ 0 →
    de.inum ≠ d ∧ de.name ≠ ['.'] ∧ de.name ≠ ['.', '.']

/-- Directories and link counts fit together; a file may have links that no entry accounts for. -/
structure Image.Tree (m : Image) : Prop where
  root : (m.node rootino).type = .dir ∧ m.up rootino = rootino
  form : ∀ d, (m.node d).type = .dir → DirForm d (m.node d)
  target : ∀ d, (m.node d).type = .dir → ∀ de ∈ (m.node d).entries, de.inum ≠ 0 →
    (m.node de.inum).type ≠ .free
  parent : ∀ d, ∀ j ∈ m.names d, (m.node j).type = .dir → m.up j = d
  above : ∀ d, (m.node d).type = .dir → (m.node (m.up d)).type = .dir
  once : ∀ i, (m.node i).type = .dir → m.named i ≤ 1
  dirs : ∀ i, (m.node i).type = .dir →
    (m.node i).nlink = m.named i + m.subdirs i + if i = rootino then 1 else 0
  files : ∀ i, (m.node i).type ≠ .free → (m.node i).type ≠ .dir → m.named i ≤ (m.node i).nlink

structure Image.WellFormed (m : Image) : Prop extends Tree m where
  few : m.ninodes ≤ 65536
  inside : ∀ i, (m.node i).type ≠ .free → 0 < i ∧ i < m.ninodes
  fits : ∀ i, short (m.node i).nlink = (m.node i).nlink
  exact : ∀ i, (m.node i).type ≠ .free → (m.node i).type ≠ .dir → (m.node i).nlink = m.named i
  reached : ∀ i, (m.node i).type ≠ .free → i = rootino ∨ 1 ≤ m.named i

/-! ## mkfs -/

/-- The image that `mkfs` writes for a list of files. -/
def mkfs (files : List Name) : Image where
  ninodes := 200
  node i :=
    if i = rootino then
      -- the size of the root directory is rounded up to a block
      ⟨.dir, 0, 0, 1, ⟨rootino, ['.']⟩ :: ⟨rootino, ['.', '.']⟩ ::
        (files.zipIdx 2).map (fun file => ⟨file.2, file.1.take dirsiz⟩) ++
        List.replicate (32 - (2 + files.length) % 32) ⟨0, []⟩⟩
    else if 2 ≤ i ∧ i < 2 + files.length then ⟨.file, 0, 0, 1, []⟩
    else ⟨.free, 0, 0, 0, []⟩

namespace Mkfs

variable {files : List Name} {i d : Nat}

theorem type_dir : ((mkfs files).node i).type = .dir ↔ i = rootino := by
  unfold mkfs
  dsimp only
  split
  · simp_all
  · split <;> simp_all

theorem type_free : ((mkfs files).node i).type ≠ .free ↔
    i = rootino ∨ 2 ≤ i ∧ i < 2 + files.length := by
  unfold mkfs
  dsimp only
  split
  · simp_all
  · split <;> simp_all

theorem root_entries : ((mkfs files).node rootino).entries =
    ⟨rootino, ['.']⟩ :: ⟨rootino, ['.', '.']⟩ ::
      ((files.zipIdx 2).map (fun file => ⟨file.2, file.1.take dirsiz⟩) ++
      List.replicate (32 - (2 + files.length) % 32) ⟨0, []⟩) := rfl

theorem nlink_eq (used : ((mkfs files).node i).type ≠ .free) : ((mkfs files).node i).nlink = 1 := by
  unfold mkfs at used ⊢
  dsimp only at used ⊢
  split
  · rfl
  · split
    · rfl
    · simp_all

theorem names_root : (mkfs files).names rootino =
    List.range' 2 files.length ++ List.replicate (32 - (2 + files.length) % 32) 0 := by
  have numbers : (files.zipIdx 2).map Prod.snd = List.range' 2 files.length :=
    List.zipIdx_map_snd 2 files
  rw [Image.names, Node.inums, if_pos (type_dir.mpr rfl), root_entries, ← numbers]
  simp [Function.comp_def]

theorem named_eq (positive : 0 < i) :
    (mkfs files).named i = if 2 ≤ i ∧ i < 2 + files.length then 1 else 0 := by
  have other (d : Nat) (far : d ≠ rootino) : ((mkfs files).names d).count i = 0 := by
    simp [Image.names, Node.inums, type_dir, far]
  have single : (mkfs files).named i = ((mkfs files).names rootino).count i :=
    Finset.sum_eq_single_of_mem rootino (Finset.mem_range.mpr (by decide : 1 < 200))
      fun d _ far => other d far
  have zeros : (List.replicate (32 - (2 + files.length) % 32) 0).count i = 0 :=
    List.count_eq_zero.mpr fun member => by
      have := List.eq_of_mem_replicate member
      omega
  rw [single, names_root, List.count_append, zeros, Nat.add_zero, List.count_range_1']

theorem subdirs_root : (mkfs files).subdirs rootino = 0 := by
  refine List.countP_eq_zero.mpr fun j member => ?_
  simp only [names_root, List.mem_append, List.mem_range'_1, List.mem_replicate] at member
  simp only [type_dir, decide_eq_true_eq, rootino]
  omega

/-- An entry of the root directory names the root or a file. -/
theorem entry_cases {de : Dirent} (member : de ∈ ((mkfs files).node rootino).entries.drop 2)
    (some : de.inum ≠ 0) :
    2 ≤ de.inum ∧ de.inum < 2 + files.length ∧ ∃ name ∈ files, de.name = name.take dirsiz := by
  rw [root_entries] at member
  simp only [List.drop_succ_cons, List.drop_zero, List.mem_append, List.mem_map,
    List.mem_replicate] at member
  obtain ⟨⟨name, k⟩, inside, rfl⟩ | ⟨-, rfl⟩ := member
  · obtain ⟨low, high, here⟩ := List.mem_zipIdx inside
    exact ⟨low, high, name, here ▸ List.getElem_mem _, rfl⟩
  · exact absurd rfl some

/-- The image has at most 200 inodes, and no file is called "." or "..". -/
theorem wellFormed (few : 2 + files.length ≤ 200)
    (plain : ∀ name ∈ files, name.take dirsiz ≠ ['.'] ∧ name.take dirsiz ≠ ['.', '.']) :
    (mkfs files).WellFormed where
  root := ⟨type_dir.mpr rfl, rfl⟩
  form d directory := by
    obtain rfl := type_dir.mp directory
    constructor
    · simp [root_entries]
    · have limit : maxdirent = 4480 := by decide
      rw [limit]
      simp only [root_entries, List.length_cons, List.length_append, List.length_map,
        List.length_zipIdx, List.length_replicate]
      omega
    · rfl
    · exact ⟨rfl, Nat.one_ne_zero⟩
    · exact fun _ => rfl
    · intro de member some
      obtain ⟨low, -, name, inside, same⟩ := entry_cases member some
      exact ⟨Nat.ne_of_gt low, same ▸ plain name inside⟩
  target d directory de member some := by
    obtain rfl := type_dir.mp directory
    refine type_free.mpr ?_
    rw [← List.take_append_drop 2 ((mkfs files).node rootino).entries, List.mem_append] at member
    obtain first | behind := member
    · have dots : de = ⟨rootino, ['.']⟩ ∨ de = ⟨rootino, ['.', '.']⟩ := by
        simpa [root_entries] using first
      obtain rfl | rfl := dots <;> exact .inl rfl
    · obtain ⟨low, high, -⟩ := entry_cases behind some
      exact .inr ⟨low, high⟩
  parent d j member directory := by
    obtain rfl := type_dir.mp directory
    have inside : (mkfs files).names d ≠ [] := List.ne_nil_of_mem member
    have here : d = rootino := by
      by_contra far
      simp [Image.names, Node.inums, type_dir, far] at inside
    subst here
    simp only [names_root, List.mem_append, List.mem_range'_1, List.mem_replicate] at member
    simp only [rootino] at member
    omega
  above d directory := by
    obtain rfl := type_dir.mp directory
    exact directory
  once i directory := by
    obtain rfl := type_dir.mp directory
    rw [named_eq (by decide)]
    split <;> decide
  dirs i directory := by
    obtain rfl := type_dir.mp directory
    rw [named_eq (by decide), subdirs_root, nlink_eq (by simp [directory])]
    simp
  files i used file := by
    have inside := (type_free.mp used).resolve_left fun root => file (type_dir.mpr root)
    rw [named_eq (by omega), if_pos inside, nlink_eq used]
    rfl
  few := show 200 ≤ 65536 by decide
  inside i used := by
    obtain rfl | file := type_free.mp used
    · exact ⟨Nat.one_pos, show 1 < 200 by decide⟩
    · have count : (mkfs files).ninodes = 200 := rfl
      omega
  fits i := by
    by_cases used : ((mkfs files).node i).type = .free
    · have none : ((mkfs files).node i).nlink = 0 := by
        unfold mkfs at used ⊢
        dsimp only at used ⊢
        split
        · simp_all
        · split <;> simp_all
      rw [none]
      rfl
    · rw [nlink_eq used]
      rfl
  exact i used file := by
    have inside := (type_free.mp used).resolve_left fun root => file (type_dir.mpr root)
    rw [named_eq (by omega), if_pos inside, nlink_eq used]
    rfl
  reached i used := by
    refine (type_free.mp used).imp_right fun inside => ?_
    rw [named_eq (by omega), if_pos inside]

end Mkfs

/-! ## Runs -/

variable {P : Type} [Fintype P]

/-- The file system when the processes `live` have started, all in the root directory; the first
program that was executed has read it. -/
def Image.boot (m : Image) (live : P → Bool) : Fs P where
  toImage := m
  ref i := if i = rootino then (Finset.univ.filter fun p => live p = true).card else 0
  valid i := decide (i = rootino ∧ 0 < (Finset.univ.filter fun p => live p = true).card)
  locked _ := false
  cwd p := if live p then some rootino else none
  ofile _ _ := none

/-- Calls of processes that are there, one after the other. -/
def fsSystem (P : Type) [Fintype P] [DecidableEq P] : System (Fs P) (P × FsCall) where
  initial s := ∃ (m : Image) (live : P → Bool), m.WellFormed ∧ s = m.boot live
  step s label t := (s.cwd label.1).isSome ∧ s.call label.1 label.2 = .ok t

/-- A list of calls, each by a process that is there. -/
def Fs.runCalls [DecidableEq P] : Fs P → List (P × FsCall) → Except Fault (Fs P)
  | s, [] => .ok s
  | s, (p, call) :: rest =>
      if (s.cwd p).isSome then do
        let s ← s.call p call
        s.runCalls rest
      else .error .noCwd

theorem Fs.runCalls_reachable [DecidableEq P] {s t : Fs P} {labels : List (P × FsCall)}
    (reached : (fsSystem P).Reachable s) (done : s.runCalls labels = .ok t) :
    (fsSystem P).Reachable t := by
  induction labels generalizing s with
  | nil =>
      cases done
      exact reached
  | cons label rest ih =>
      obtain ⟨p, call⟩ := label
      simp only [runCalls] at done
      split at done
      · next running =>
        cases next : s.call p call with
        | error fault =>
            rw [next] at done
            cases done
        | ok u =>
            rw [next] at done
            have edge : (fsSystem P).step s (p, call) u := ⟨running, next⟩
            exact ih (reached.step edge) done
      · cases done

theorem Image.WellFormed.linked {m : Image} (wellFormed : m.WellFormed) {i : Nat}
    (used : (m.node i).type ≠ .free) : (m.node i).nlink ≠ 0 := by
  by_cases directory : (m.node i).type = .dir
  · have links := wellFormed.dirs i directory
    obtain rfl | named := wellFormed.reached i used
    · rw [if_pos rfl] at links
      omega
    · split at links <;> omega
  · have links := wellFormed.exact i used directory
    obtain rfl | named := wellFormed.reached i used
    · exact absurd wellFormed.root.1 directory
    · omega

theorem entries_split {n : Node} (long : 2 ≤ n.entries.length) :
    n.entries = n.entry 0 :: n.entry 1 :: n.entries.drop 2 := by
  unfold Node.entry
  match entries : n.entries, long with
  | a :: b :: rest, _ => rfl

/-- Only "." and ".." name the directory they are in. -/
theorem DirForm.self {d : Nat} {n : Node} (form : DirForm d n) (positive : 0 < d) :
    Fs.Plain d n := by
  intro de member names
  rw [entries_split form.dots, List.mem_cons, List.mem_cons] at member
  obtain rfl | rfl | behind := member
  · exact .inl (by rw [form.dot])
  · exact .inr form.dotdot.1
  · exact absurd names (form.plain de behind (by omega)).1

/-- The image without files, and one process. -/
theorem boot_reachable [DecidableEq P] (live : P → Bool) :
    (fsSystem P).Reachable ((mkfs []).boot live) :=
  .start ⟨mkfs [], live, Mkfs.wellFormed (by decide) (by simp), rfl⟩

theorem boot_ready {m : Image} (wellFormed : m.WellFormed) (live : P → Bool) :
    (m.boot live).Ready where
  settled :=
    { cached := fun i => by
        by_cases root : i = rootino <;> simp [Image.boot, root]
      unlocked := fun _ => rfl
      held := fun i references => by
        have root : i = rootino := by
          by_contra far
          simp [Image.boot, far] at references
        rw [root]
        have directory := wellFormed.root.1
        simpa [Image.boot] using directory ▸ by simp
      fits := wellFormed.fits
      inside := wellFormed.inside
      few := wellFormed.few
      kept := fun i used none => absurd none (wellFormed.linked used) }
  counted i := by
    have files : (∑ p, ∑ fd, if (m.boot live).ofile p fd = some i then 1 else 0) = 0 :=
      Finset.sum_eq_zero fun _ _ => Finset.sum_eq_zero fun _ _ => if_neg (by simp [Image.boot])
    have cwds : (∑ p, if (m.boot live).cwd p = some i then 1 else 0) = (m.boot live).ref i := by
      by_cases root : i = rootino
      · subst root
        have count : (m.boot live).ref rootino =
            (Finset.univ.filter fun p => live p = true).card := by simp [Image.boot]
        rw [count, Finset.card_filter]
        refine Finset.sum_congr rfl fun p _ => ?_
        cases on : live p <;> simp [Image.boot, on]
      · have none : (m.boot live).ref i = 0 := if_neg root
        rw [none]
        refine Finset.sum_eq_zero fun p _ => if_neg ?_
        cases on : live p <;> simp [Image.boot, on, Ne.symm root]
    rw [Fs.holders, files, cwds, Nat.add_zero]
  noSelf d directory := by
    have directory : (m.node d).type = .dir := directory
    exact (wellFormed.form d directory).self (wellFormed.inside d (by simp [directory])).1

end SlabStudy.Xv6
