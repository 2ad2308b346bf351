import SlabStudy.Xv6.DirRecord

/-!
# Directories as bytes

`dirlookup` and `dirlink` of `fs.c` on a locked entry of the inode cache.  They
read and write the records of the directory with `readi` and `writei`.  On a
directory whose live names are different they look up and change a finite map
from names to i-numbers.
-/

namespace SlabStudy.Xv6

open Library

/-- How a call on directories can end other than by returning. -/
inductive DirStop where
  /-- A panic of the functions below. -/
  | fs (reason : FsPanic)
  /-- `panic("dirlookup not DIR")` -/
  | notDir
  /-- `panic("dirlookup read")` -/
  | lookupRead
  /-- `panic("dirlink read")` -/
  | linkRead
  /-- `panic("dirlink")` -/
  | dirlink
  /-- `panic("create dots")` -/
  | createDots
  /-- `panic("create: dirlink")` -/
  | createDirlink
  /-- `panic("fileclose")` -/
  | fileclose
  /-- `acquiresleep` on a lock that the caller holds. -/
  | deadlock
  deriving DecidableEq, Repr

/-- A call of a function below. -/
def below {α : Type} (result : Except FsPanic α) : Except DirStop α := result.mapError .fs

namespace FsState

variable (devsw : Devsw)

/-- `readi` on a locked entry of the cache. -/
def readi (s : FsState) (ip : Fin ninode) (off n : Nat) :
    Except FsPanic ((Int × List UInt8) × FsState) :=
  (Xv6.readi devsw (s.locked ip) off n).map fun r => ((r.1, r.2.1), s.unlock ip r.2.2)

/-- `writei` on a locked entry of the cache. -/
def writei (s : FsState) (ip : Fin ninode) (off : Nat) (data : List UInt8) :
    Except FsPanic (Int × FsState) :=
  (Xv6.writei devsw (s.locked ip) off data).map fun r => (r.1, s.unlock ip r.2)

/-- `iput` by a caller that holds the locks of `held`. -/
def iputHeld (s : FsState) (held : List (Fin ninode)) (ip : Fin ninode) : Except DirStop FsState :=
  if ip ∈ held then .error .deadlock else below (s.iput ip)

/-- The loops over the records of a directory from `off` on, of which `n` are left. -/
def dirScan (fault : DirStop) (dp : Fin ninode) (test : List UInt8 → Bool) :
    Nat → Nat → FsState → Except DirStop (Option (Nat × List UInt8) × FsState)
  | 0, _, s => .ok (none, s)
  | n + 1, off, s => do
      let ((got, de), s) ← below (s.readi devsw dp off direntSize)
      if got ≠ direntSize then .error fault
      else if test de then .ok (some (off, de), s)
      else dirScan fault dp test n (off + direntSize) s

/-- The rounds of such a loop. -/
def dirRounds (s : FsState) (dp : Fin ninode) : Nat :=
  ((s.icache dp).copy.size + direntSize - 1) / direntSize

/-- Look for a directory entry; the result is its offset and the inode it names, referenced. -/
def dirlookup (s : FsState) (dp : Fin ninode) (name : CString) :
    Except DirStop (Option (Nat × Fin ninode) × FsState) :=
  if (s.icache dp).copy.type ≠ .dir then .error .notDir
  else do
    let (found, s) ← dirScan devsw .lookupRead dp
      (fun de => direntInum de ≠ 0 ∧ strncmp name (direntName de) dirsiz = 0) (s.dirRounds dp) 0 s
    match found with
    | none => .ok (none, s)
    | some (off, de) => do
        let (ip, s) ← below (s.iget (direntInum de))
        .ok (some (off, ip), s)

/-- Write a new directory entry; the caller holds the locks of `held`. -/
def dirlink (s : FsState) (held : List (Fin ninode)) (dp : Fin ninode) (name : CString)
    (inum : Nat) : Except DirStop (Int × FsState) := do
  let (found, s) ← s.dirlookup devsw dp name
  match found with
  | some (_, ip) =>
      let s ← s.iputHeld held ip
      .ok (-1, s)
  | none => do
      -- look for an empty dirent
      let rounds := s.dirRounds dp
      let (empty, s) ← dirScan devsw .linkRead dp (fun de => direntInum de = 0) rounds 0 s
      let off := match empty with
        | some (off, _) => off
        | none => direntSize * rounds
      let (wrote, s) ← below (s.writei devsw dp off (direntOf name inum))
      if wrote ≠ direntSize then .error .dirlink else .ok (0, s)

/-! ## The state of a directory -/

/-- The bytes of the inode in slot `dp`. -/
def dirContent (s : FsState) (dp : Fin ninode) : List UInt8 :=
  s.disk.content (s.disk.dinode (s.icache dp).inum)

/-- The caller has locked a directory of whole records. -/
structure DirLocked (s : FsState) (dp : Fin ninode) : Prop where
  owned : s.disk.Owned
  held : (s.icache dp).ref > 0
  inside : (s.icache dp).inum < s.disk.sb.ninodes
  copy : (s.icache dp).copy = s.disk.dinode (s.icache dp).inum
  directory : (s.icache dp).copy.type = .dir
  whole : (s.icache dp).copy.size % direntSize = 0

/-- The live names of the directory are different. -/
structure DirReady (s : FsState) (dp : Fin ninode) : Prop extends DirLocked s dp where
  distinct : (direntSlots (s.dirContent dp)).Distinct

/-- What `dirlookup` does when a scan of the records has this result. -/
def answer (s : FsState) : Option (Nat × Nat) → Except DirStop (Option (Nat × Fin ninode) × FsState)
  | none => .ok (none, s)
  | some (i, inum) =>
      match s.iget inum with
      | .ok (ip, t) => .ok (some (direntSize * i, ip), t)
      | .error reason => .error (.fs reason)

variable {devsw} {s : FsState} {dp : Fin ninode}

namespace DirLocked

theorem locked (dir : s.DirLocked dp) : s.locked dp = s.disk.locked (s.icache dp).inum := by
  rw [FsState.locked, dir.copy]
  rfl

theorem allocated (dir : s.DirLocked dp) : s.disk.Allocated (s.icache dp).inum := by
  refine ⟨dir.inside, ?_⟩
  rw [← dir.copy, dir.directory]
  nofun

theorem regular (dir : s.DirLocked dp) : (s.disk.dinode (s.icache dp).inum).type ≠ .dev := by
  rw [← dir.copy, dir.directory]
  nofun

theorem length (dir : s.DirLocked dp) : (s.dirContent dp).length = (s.icache dp).copy.size := by
  rw [dirContent, FsDisk.content_length, dir.copy]

theorem small (dir : s.DirLocked dp) : (s.dirContent dp).length ≤ maxfile * bsize := by
  rw [dir.length, dir.copy]
  exact (dir.owned.locked dir.allocated).size_le

theorem rounds (dir : s.DirLocked dp) : s.dirRounds dp = (direntSlots (s.dirContent dp)).size := by
  have whole := dir.whole
  change _ = (s.dirContent dp).length / direntSize
  rw [dir.length, dirRounds]
  simp only [direntSize] at *
  omega

end DirLocked

theorem unlock_locked (s : FsState) (ip : Fin ninode) : s.unlock ip (s.locked ip) = s := by
  change FsState.mk s.disk (Function.update s.icache ip (s.icache ip)) = s
  rw [Function.update_eq_self]

/-! ## Reading -/

/-- A round of the loops reads a record. -/
theorem readi_record (dir : s.DirLocked dp) {i : Nat}
    (inside : i < (direntSlots (s.dirContent dp)).size) :
    s.readi devsw dp (direntSize * i) direntSize =
      .ok ((direntSize, record (s.dirContent dp) i), s) := by
  have small := dir.small
  have limit : maxfile * bsize < 2 ^ 31 := by decide
  change i < (s.dirContent dp).length / direntSize at inside
  have within : direntSize * i + direntSize ≤ (s.dirContent dp).length := by
    simp only [direntSize] at *
    omega
  have range : readBytes (s.dirContent dp) (direntSize * i) direntSize =
      some (record (s.dirContent dp) i) := by
    rw [readBytes, if_neg (by omega), record]
  have size : (record (s.dirContent dp) i).length = direntSize := by
    rw [record, List.length_take, List.length_drop]
    omega
  rw [dirContent] at range size
  have read : Xv6.readi devsw (s.disk.locked (s.icache dp).inum) (direntSize * i) direntSize = _ :=
    FsDisk.readi_eq devsw dir.owned dir.allocated dir.regular (by omega) (by decide)
  rw [range] at read
  dsimp only at read
  rw [size, ← dir.locked] at read
  rw [readi, read]
  exact congrArg (fun t => Except.ok (((direntSize : Int), record (s.dirContent dp) i), t))
    (unlock_locked s dp)

/-- The loops find the first record that passes. -/
theorem dirScan_eq (devsw : Devsw) (dir : s.DirLocked dp) (fault : DirStop)
    (test : List UInt8 → Bool) {n k : Nat}
    (inside : k + n ≤ (direntSlots (s.dirContent dp)).size) :
    dirScan devsw fault dp test n (direntSize * k) s =
      .ok ((List.range' k n).findSome? fun i => if test (record (s.dirContent dp) i) then
        some (direntSize * i, record (s.dirContent dp) i) else none, s) := by
  induction n generalizing k with
  | zero => rfl
  | succ n ih =>
      rw [dirScan, readi_record dir (by omega), List.range'_succ, List.findSome?_cons]
      have whole : ¬ ((direntSize : Int) ≠ direntSize) := not_not.mpr rfl
      simp only [below, Except.mapError, Bind.bind, Except.bind]
      rw [if_neg whole]
      by_cases passes : test (record (s.dirContent dp) k) = true
      · rw [if_pos passes, if_pos passes]
      · rw [if_neg passes, if_neg passes]
        exact ih (k := k + 1) (by omega)

/-- The scan of `dirlookup` is a lookup in the table of slots. -/
theorem scan_lookup (c : List UInt8) (name : CString) :
    ((List.range' 0 (direntSlots c).size).findSome? fun i =>
      if (decide (direntInum (record c i) ≠ 0 ∧
        strncmp name (direntName (record c i)) dirsiz = 0)) = true then
        some (direntSize * i, record c i) else none) =
      ((direntSlots c).lookup (name.cut dirsiz)).map fun r => (direntSize * r.1, record c r.1) := by
  rw [SlotTable.lookup, List.map_findSome?, List.range_eq_range']
  congr 1
  funext i
  rw [Function.comp_apply, SlotTable.hit]
  have slot : (direntSlots c).slot i = if direntInum (record c i) = 0 then none
      else some ((direntName (record c i)).cut dirsiz, direntInum (record c i)) := rfl
  rw [slot]
  simp only [decide_eq_true_eq, strncmp_eq_zero]
  by_cases free : direntInum (record c i) = 0
  · rw [if_pos free, if_neg fun both => both.1 free]
    rfl
  · rw [if_neg free]
    dsimp only
    by_cases same : (direntName (record c i)).cut dirsiz = name.cut dirsiz
    · rw [if_pos same, if_pos ⟨free, same.symm⟩]
      rfl
    · rw [if_neg same, if_neg fun both => same both.2.symm]
      rfl

/-- The i-number of a slot is that of its record. -/
theorem slot_inum {c : List UInt8} {i inum : Nat} {k : List UInt8}
    (entry : (direntSlots c).slot i = some (k, inum)) : direntInum (record c i) = inum := by
  change (if direntInum (record c i) = 0 then none else _) = _ at entry
  split at entry
  · cases entry
  · cases entry
    rfl

/-- `dirlookup` finds the slot of the name. -/
theorem dirlookup_eq (dir : s.DirLocked dp) (name : CString) : s.dirlookup devsw dp name =
    s.answer ((direntSlots (s.dirContent dp)).lookup (name.cut dirsiz)) := by
  have scan := dirScan_eq devsw dir .lookupRead
    (fun de => direntInum de ≠ 0 ∧ strncmp name (direntName de) dirsiz = 0)
    (n := (direntSlots (s.dirContent dp)).size) (k := 0) (by omega)
  rw [scan_lookup, Nat.mul_zero] at scan
  rw [dirlookup, if_neg (not_not.mpr dir.directory), dir.rounds, scan]
  cases found : (direntSlots (s.dirContent dp)).lookup (name.cut dirsiz) with
  | none => rfl
  | some r =>
      obtain ⟨i, inum⟩ := r
      have stored := slot_inum (SlotTable.lookup_some found).2
      change (below (s.iget (direntInum (record (s.dirContent dp) i))) >>= _) = _
      rw [stored, answer]
      cases s.iget inum <;> rfl

/-! ## Writing -/

/-- A write inside a file needs no block. -/
theorem need_inside {d : FsDisk} {i off n : Nat} (owned : d.Owned) (allocated : d.Allocated i)
    (inside : off + n ≤ (d.dinode i).size) : (d.locked i).need (touched off n) = 0 := by
  have listed : ∀ bn ∈ touched off n, d.addrOf (d.dinode i) bn ≠ 0 := by
    intro bn member
    refine owned.full i allocated bn ?_
    unfold touched at member
    split at member
    · cases member
    · obtain ⟨_, high⟩ := List.mem_range'_1.mp member
      simp only [bsize] at *
      omega
  have none : (touched off n).countP (fun bn => d.addrOf (d.dinode i) bn = 0) = 0 := by
    refine List.countP_eq_zero.mpr fun bn member => ?_
    rw [decide_eq_true_eq]
    exact listed bn member
  refine (congrArg₂ (· + ·) none (if_neg ?_)).trans (Nat.add_zero 0)
  rintro ⟨list, bn, member, late⟩
  have list : (d.dinode i).addrs indirect = 0 := list
  refine listed bn member ?_
  unfold FsDisk.addrOf FsDisk.index
  rw [if_neg (Nat.not_lt.mpr late)]
  split
  · change d.place (d.dinode i) (.entry _) = 0
    exact if_pos list
  · rfl

/-- What `iget` has done: one more reference to a cached inode, or an entry recycled. -/
theorem iget_cases {inum : Nat} {ip : Fin ninode} {t : FsState} (ran : s.iget inum = .ok (ip, t)) :
    ((s.icache ip).ref > 0 ∧ (s.icache ip).inum = inum ∧
      t = s.setSlot ip { s.icache ip with ref := (s.icache ip).ref + 1 }) ∨
    ((s.icache ip).ref = 0 ∧ (∀ jp, (s.icache jp).ref > 0 → (s.icache jp).inum ≠ inum) ∧
      t = s.setSlot ip { s.icache ip with inum := inum, ref := 1, valid := false }) := by
  unfold iget at ran
  split at ran
  · next jp found =>
      cases ran
      have here := List.find?_some found
      simp only [decide_eq_true_eq] at here
      exact .inl ⟨here.1, here.2, rfl⟩
  · next none =>
      split at ran
      · next jp found =>
          cases ran
          have here := List.find?_some found
          simp only [decide_eq_true_eq] at here
          refine .inr ⟨here, fun kp held same => ?_, rfl⟩
          have absent := List.find?_eq_none.mp none kp (List.mem_finRange kp)
          simp only [decide_eq_true_eq] at absent
          exact absent ⟨held, same⟩
      · cases ran

theorem setSlot_self (s : FsState) (ip : Fin ninode) (entry : CachedInode) :
    (s.setSlot ip entry).icache ip = entry := Function.update_self ..

theorem setSlot_other {ip jp : Fin ninode} (other : jp ≠ ip) (entry : CachedInode) :
    (s.setSlot ip entry).icache jp = s.icache jp := Function.update_of_ne other ..

/-- A call that leaves the disk, and the copy of the directory in its slot. -/
theorem DirLocked.congr (dir : s.DirLocked dp) {t : FsState} (disk : t.disk = s.disk)
    (held : (t.icache dp).ref > 0) (inum : (t.icache dp).inum = (s.icache dp).inum)
    (copy : (t.icache dp).copy = (s.icache dp).copy) :
    t.DirLocked dp ∧ t.dirContent dp = s.dirContent dp := by
  refine ⟨⟨?_, held, ?_, ?_, ?_, ?_⟩, ?_⟩
  · rw [disk]
    exact dir.owned
  · rw [inum, disk]
    exact dir.inside
  · rw [copy, inum, disk]
    exact dir.copy
  · rw [copy]
    exact dir.directory
  · rw [copy]
    exact dir.whole
  · rw [dirContent, inum, disk]
    rfl

/-- The directory when `iget` has taken a reference to an inode. -/
theorem DirLocked.iget (dir : s.DirLocked dp) {inum : Nat} {ip : Fin ninode} {t : FsState}
    (ran : s.iget inum = .ok (ip, t)) : t.disk = s.disk ∧ (t.icache dp).ref > 0 ∧
      (t.icache dp).inum = (s.icache dp).inum ∧ (t.icache dp).copy = (s.icache dp).copy ∧
      (t.icache ip).inum = inum := by
  rcases iget_cases ran with ⟨held, same, rfl⟩ | ⟨none, _, rfl⟩
  · rw [setSlot_self]
    by_cases self : dp = ip
    · subst self
      rw [setSlot_self]
      exact ⟨rfl, Nat.succ_pos _, rfl, rfl, same⟩
    · rw [setSlot_other self]
      exact ⟨rfl, dir.held, rfl, rfl, same⟩
  · have self : dp ≠ ip := by
      rintro rfl
      exact absurd dir.held (by omega)
    rw [setSlot_self, setSlot_other self]
    exact ⟨rfl, dir.held, rfl, rfl, rfl⟩

/-- Writing a record, inside the directory or behind its end. -/
theorem writei_record (devsw : Devsw) (dir : s.DirLocked dp) {i : Nat} {de : List UInt8}
    (size : de.length = direntSize) (inside : direntSize * i ≤ (s.dirContent dp).length)
    (fits : direntSize * i + direntSize ≤ maxfile * bsize) :
    if (s.disk.locked (s.icache dp).inum).need (touched (direntSize * i) direntSize) ≤
        s.disk.freeBlocks then
      ∃ l, s.writei devsw dp (direntSize * i) de = .ok (direntSize, s.unlock dp l) ∧
        s.disk.Replaced (s.icache dp).inum (setRecord (s.dirContent dp) i de) l
    else s.writei devsw dp (direntSize * i) de = .error .outOfBlocks := by
  have limit : maxfile * bsize < 2 ^ 31 := by decide
  have start : direntSize * i < 2 ^ 32 := by omega
  have few : de.length < 2 ^ 32 := by
    rw [size]
    decide
  have wrote := FsDisk.writei_eq devsw dir.owned dir.allocated dir.regular start few
  have bytes : writeBytes (s.dirContent dp) (direntSize * i) de =
      some (setRecord (s.dirContent dp) i de) := by
    rw [writeBytes, size, if_neg (by omega), setRecord, size]
  rw [show s.disk.content (s.disk.dinode (s.icache dp).inum) = s.dirContent dp from rfl] at wrote
  rw [bytes, size] at wrote
  dsimp only at wrote
  rw [writei, dir.locked]
  split
  · next enough =>
      rw [if_pos enough] at wrote
      obtain ⟨l, ran, replaced⟩ := wrote
      refine ⟨l, ?_, replaced⟩
      rw [ran]
      rfl
  · next short =>
      rw [if_neg short] at wrote
      rw [wrote]
      rfl

/-- The directory after a write of whole records. -/
theorem DirLocked.unlock (dir : s.DirLocked dp) {c : List UInt8} {l : Locked}
    (replaced : s.disk.Replaced (s.icache dp).inum c l) (whole : c.length % direntSize = 0) :
    (s.unlock dp l).DirLocked dp ∧ (s.unlock dp l).dirContent dp = c := by
  have slot : (s.unlock dp l).icache dp = { s.icache dp with copy := l.ip } :=
    Function.update_self ..
  have type : l.ip.type = .dir := by
    rw [replaced.ip]
    exact dir.copy ▸ dir.directory
  refine ⟨⟨replaced.owned, ?_, ?_, ?_, ?_, ?_⟩, ?_⟩
  · rw [slot]
    exact dir.held
  · rw [slot]
    change _ < l.disk.sb.ninodes
    rw [replaced.sb]
    exact dir.inside
  · rw [slot]
    exact replaced.stored.symm
  · rw [slot]
    exact type
  · rw [slot, replaced.ip]
    exact whole
  · rw [dirContent, slot]
    change l.disk.content (l.disk.dinode (s.icache dp).inum) = c
    rw [replaced.stored, replaced.content]

/-! ## dirlink -/

/-- The first empty record, else the end of the directory. -/
def vacantSlot (c : List UInt8) : Nat :=
  ((List.range (direntSlots c).size).find? fun i => decide (direntInum (record c i) = 0)).getD
    (direntSlots c).size

theorem vacantSlot_spec (c : List UInt8) : (direntSlots c).Vacant (vacantSlot c) ∧
    (vacantSlot c = (direntSlots c).size → ∀ i < (direntSlots c).size,
      (direntSlots c).slot i ≠ none) := by
  unfold vacantSlot
  cases found : (List.range (direntSlots c).size).find? fun i =>
      decide (direntInum (record c i) = 0) with
  | none =>
      refine ⟨.inl rfl, fun _ i inside => ?_⟩
      have full := List.find?_eq_none.mp found i (List.mem_range.mpr inside)
      change (if direntInum (record c i) = 0 then none else some _) ≠ none
      rw [if_neg (by simpa using full)]
      exact Option.some_ne_none _
  | some v =>
      have inside := List.mem_range.mp (List.mem_of_find?_eq_some found)
      have empty := List.find?_some found
      simp only [decide_eq_true_eq] at empty
      refine ⟨.inr ⟨inside, if_pos empty⟩, fun last => ?_⟩
      change v = _ at last
      omega

/-- The second loop of `dirlink` finds that record. -/
theorem scan_vacant (c : List UInt8) : ((List.range' 0 (direntSlots c).size).findSome? fun i =>
      if (decide (direntInum (record c i) = 0)) = true then some (direntSize * i, record c i)
      else none) = ((List.range (direntSlots c).size).find? fun i =>
        decide (direntInum (record c i) = 0)).map fun i => (direntSize * i, record c i) := by
  rw [List.find?_eq_findSome?_guard, List.map_findSome?, List.range_eq_range']
  congr 1
  funext i
  rw [Function.comp_apply, Option.guard]
  split <;> rfl

/-- `dirlink` with a name that is not there writes a record. -/
theorem dirlink_absent (dir : s.DirLocked dp) (held : List (Fin ninode)) {name : CString}
    (inum : Nat) (absent : (direntSlots (s.dirContent dp)).lookup (name.cut dirsiz) = none) :
    s.dirlink devsw held dp name inum =
      below (s.writei devsw dp (direntSize * vacantSlot (s.dirContent dp)) (direntOf name inum)) >>=
        fun r => if r.1 ≠ direntSize then .error .dirlink else .ok (0, r.2) := by
  have scan := dirScan_eq devsw dir .linkRead (fun de => direntInum de = 0)
    (n := (direntSlots (s.dirContent dp)).size) (k := 0) (by omega)
  rw [scan_vacant, Nat.mul_zero] at scan
  rw [dirlink, dirlookup_eq dir, absent]
  dsimp only [answer, Bind.bind, Except.bind]
  rw [dir.rounds, scan, vacantSlot]
  cases (List.range (direntSlots (s.dirContent dp)).size).find? fun i =>
    decide (direntInum (record (s.dirContent dp) i) = 0) <;> rfl

/-- The offset that `dirlookup` reports is that of the slot of the name. -/
theorem dirlookup_some (dir : s.DirLocked dp) {name : CString} {off : Nat} {ip : Fin ninode}
    {u : FsState} (found : s.dirlookup devsw dp name = .ok (some (off, ip), u)) :
    ∃ i inum, off = direntSize * i ∧
      (direntSlots (s.dirContent dp)).lookup (name.cut dirsiz) = some (i, inum) ∧
      s.iget inum = .ok (ip, u) := by
  rw [dirlookup_eq dir] at found
  cases hit : (direntSlots (s.dirContent dp)).lookup (name.cut dirsiz) with
  | none =>
      rw [hit] at found
      cases found
  | some r =>
      obtain ⟨i, inum⟩ := r
      rw [hit, answer] at found
      cases took : s.iget inum with
      | error reason =>
          rw [took] at found
          cases found
      | ok q =>
          obtain ⟨jp, t⟩ := q
          rw [took] at found
          cases found
          exact ⟨i, inum, rfl, rfl, took⟩

theorem dirlookup_none (dir : s.DirLocked dp) {name : CString} {u : FsState}
    (found : s.dirlookup devsw dp name = .ok (none, u)) :
    (direntSlots (s.dirContent dp)).lookup (name.cut dirsiz) = none := by
  rw [dirlookup_eq dir] at found
  cases hit : (direntSlots (s.dirContent dp)).lookup (name.cut dirsiz) with
  | none => rfl
  | some r =>
      obtain ⟨i, inum⟩ := r
      rw [hit, answer] at found
      cases took : s.iget inum <;> rw [took] at found <;> cases found

/-- Dropping the reference that `iget` has just taken frees no inode. -/
theorem iput_iget {inum : Nat} {ip : Fin ninode} {u : FsState} (took : s.iget inum = .ok (ip, u)) :
    u.iput ip = .ok (u.setSlot ip { u.icache ip with ref := (u.icache ip).ref - 1 }) := by
  have kept : ¬ ((u.icache ip).valid = true ∧ (u.icache ip).copy.nlink = 0 ∧
      (u.icache ip).ref = 1) := by
    rintro ⟨valid, _, last⟩
    rcases iget_cases took with ⟨held, _, rfl⟩ | ⟨_, _, rfl⟩
    · rw [setSlot_self] at last
      change (s.icache ip).ref + 1 = 1 at last
      omega
    · rw [setSlot_self] at valid
      cases valid
  unfold iput
  rw [if_neg kept]
  rfl

/-- `dirlink` with a name that names another inode drops its reference. -/
theorem dirlink_present (dir : s.DirLocked dp) {name : CString} (inum : Nat) {off : Nat}
    {ip : Fin ninode} {u : FsState} (found : s.dirlookup devsw dp name = .ok (some (off, ip), u))
    (other : (u.icache ip).inum ≠ (s.icache dp).inum) :
    ∃ t, s.dirlink devsw [dp] dp name inum = .ok (-1, t) ∧ t.disk = s.disk ∧
      t.DirLocked dp ∧ t.dirContent dp = s.dirContent dp := by
  obtain ⟨i, inum', _, _, took⟩ := dirlookup_some dir found
  obtain ⟨disk, held, same, copy, _⟩ := dir.iget took
  have apart : ip ≠ dp := by
    rintro rfl
    exact other same
  have kept := setSlot_other (s := u) apart.symm
    { u.icache ip with ref := (u.icache ip).ref - 1 }
  refine ⟨u.setSlot ip { u.icache ip with ref := (u.icache ip).ref - 1 }, ?_, disk,
    dir.congr disk ?_ ?_ ?_⟩
  · rw [dirlink, found]
    dsimp only [Bind.bind, Except.bind]
    rw [iputHeld, if_neg (by simpa using apart), iput_iget took]
    rfl
  · rw [kept]
    exact held
  · rw [kept]
    exact same
  · rw [kept]
    exact copy

/-- `dirlink` that does not fail has written the directory, and nothing else. -/
theorem dirlink_ok (dir : s.DirLocked dp) {held : List (Fin ninode)} {name : CString} {inum : Nat}
    {r : Int} {t : FsState} (ran : s.dirlink devsw held dp name inum = .ok (r, t)) (fine : ¬ r < 0) :
    ∃ l c, t = s.unlock dp l ∧ s.disk.Replaced (s.icache dp).inum c l := by
  cases hit : (direntSlots (s.dirContent dp)).lookup (name.cut dirsiz) with
  | some entry =>
      rw [dirlink, dirlookup_eq dir, hit, answer] at ran
      cases took : s.iget entry.2 with
      | error reason =>
          rw [took] at ran
          cases ran
      | ok result =>
          rw [took] at ran
          dsimp only [Bind.bind, Except.bind] at ran
          split at ran
          · cases ran
          · cases ran
            exact absurd (by decide) fine
  | none =>
      rw [dirlink_absent dir held inum hit] at ran
      have small := dir.small
      have order := (vacantSlot_spec (s.dirContent dp)).1.le
      change vacantSlot (s.dirContent dp) ≤ (s.dirContent dp).length / direntSize at order
      have limit : maxfile * bsize < 2 ^ 31 := by decide
      have start : direntSize * vacantSlot (s.dirContent dp) < 2 ^ 32 := by
        simp only [direntSize] at *
        omega
      have few : (direntOf name inum).length < 2 ^ 32 := by
        rw [length_direntOf]
        decide
      have wrote := FsDisk.writei_eq devsw dir.owned dir.allocated dir.regular start few
      rw [writei, dir.locked] at ran
      split at wrote
      · rw [wrote] at ran
        cases ran
      · split at wrote
        · obtain ⟨l, done, replaced⟩ := wrote
          rw [done, length_direntOf] at ran
          cases ran
          exact ⟨l, _, rfl, replaced⟩
        · rw [wrote] at ran
          cases ran

/-! ## A finite map -/

/-- `dirlookup` behaves as if the scan had this result, the index of a record and its i-number. -/
def Answers (devsw : Devsw) (s : FsState) (dp : Fin ninode) (name : CString)
    (r : Option (Nat × Nat)) : Prop := s.dirlookup devsw dp name = s.answer r

/-- Another name has the same answer in both states. -/
def SameAnswer (devsw : Devsw) (s t : FsState) (dp : Fin ninode) (name : CString) : Prop :=
  ∃ r, Answers devsw s dp name r ∧ Answers devsw t dp name r

theorem Answers.lookup (dir : s.DirLocked dp) (name : CString) {r : Option (Nat × Nat)}
    (hit : (direntSlots (s.dirContent dp)).lookup (name.cut dirsiz) = r) :
    Answers devsw s dp name r := hit ▸ dirlookup_eq dir name

theorem SameAnswer.lookup {t : FsState} (before : s.DirLocked dp) (after : t.DirLocked dp)
    (name : CString) (same : (direntSlots (t.dirContent dp)).lookup (name.cut dirsiz) =
      (direntSlots (s.dirContent dp)).lookup (name.cut dirsiz)) : SameAnswer devsw s t dp name :=
  ⟨_, .lookup before name rfl, .lookup after name same⟩

/-- A name that is missing in one state is missing in the other. -/
theorem SameAnswer.none {t : FsState} {name : CString} (same : SameAnswer devsw s t dp name)
    (missing : Answers devsw s dp name none) : Answers devsw t dp name none := by
  obtain ⟨r, before, after⟩ := same
  cases r with
  | none => exact after
  | some hit =>
      rw [Answers, missing, answer, answer] at before
      split at before
      · cases before
      · cases before

/-- An empty record, or room for one behind the last. -/
def HasRoom (s : FsState) (dp : Fin ninode) : Prop :=
  ∃ i, (direntSlots (s.dirContent dp)).Vacant i ∧ direntSize * i + direntSize ≤ maxfile * bsize

theorem DirLocked.vacant_fits (dir : s.DirLocked dp) (room : s.HasRoom dp) :
    direntSize * vacantSlot (s.dirContent dp) ≤ (s.dirContent dp).length ∧
      direntSize * vacantSlot (s.dirContent dp) + direntSize ≤ maxfile * bsize := by
  obtain ⟨i, vacant, fits⟩ := room
  obtain ⟨first, last⟩ := vacantSlot_spec (s.dirContent dp)
  have small := dir.small
  have size : (direntSlots (s.dirContent dp)).size = (s.dirContent dp).length / direntSize := rfl
  have order := first.le
  rcases first with ends | ⟨inside, _⟩
  · have same : i = vacantSlot (s.dirContent dp) := by
      rcases vacant with same | ⟨below, empty⟩
      · rw [same, ends]
      · exact absurd empty (last ends i below)
    rw [← same]
    refine ⟨?_, fits⟩
    rw [same, ends, size]
    exact Nat.mul_div_le _ _
  · simp only [direntSize] at *
    omega

/-- The disk has the blocks that a new record needs. -/
def BlocksForRecord (s : FsState) (dp : Fin ninode) : Prop :=
  (s.disk.locked (s.icache dp).inum).need
    (touched (direntSize * vacantSlot (s.dirContent dp)) direntSize) ≤ s.disk.freeBlocks

/-- An empty record inside the directory needs no block. -/
theorem DirLocked.blocks_inside (dir : s.DirLocked dp)
    (inside : vacantSlot (s.dirContent dp) < (direntSlots (s.dirContent dp)).size) :
    s.BlocksForRecord dp := by
  have length := dir.length
  rw [dir.copy] at length
  change _ < (s.dirContent dp).length / direntSize at inside
  unfold BlocksForRecord
  rw [need_inside dir.owned dir.allocated]
  · exact Nat.zero_le _
  · simp only [direntSize] at *
    omega

/-- A record is written for a new name. -/
theorem dirlink_new (devsw : Devsw) (dir : s.DirReady dp) (held : List (Fin ninode))
    {name : CString} (inum : Nat) (room : s.HasRoom dp)
    (absent : (direntSlots (s.dirContent dp)).lookup (name.cut dirsiz) = none) :
    (s.BlocksForRecord dp → ∃ l, s.dirlink devsw held dp name inum = .ok (0, s.unlock dp l) ∧
      s.disk.Replaced (s.icache dp).inum
        (setRecord (s.dirContent dp) (vacantSlot (s.dirContent dp)) (direntOf name inum)) l) ∧
    (¬ s.BlocksForRecord dp → s.dirlink devsw held dp name inum = .error (.fs .outOfBlocks)) := by
  obtain ⟨inside, fits⟩ := dir.vacant_fits room
  have wrote := writei_record devsw dir.toDirLocked (length_direntOf name inum) inside
    fits
  rw [dirlink_absent dir.toDirLocked held inum absent]
  unfold BlocksForRecord
  refine ⟨fun enough => ?_, fun short => ?_⟩
  · rw [if_pos enough] at wrote
    obtain ⟨l, ran, replaced⟩ := wrote
    refine ⟨l, ?_, replaced⟩
    rw [ran]
    rfl
  · rw [if_neg short] at wrote
    rw [wrote]
    rfl

theorem DirLocked.records (dir : s.DirLocked dp) : (s.dirContent dp).length % direntSize = 0 := by
  rw [dir.length]
  exact dir.whole

/-- The directory with the new entry. -/
theorem DirReady.put (dir : s.DirReady dp) {name : CString} {inum : Nat} (positive : 0 < inum)
    (small : inum < 65536) (room : s.HasRoom dp)
    (absent : (direntSlots (s.dirContent dp)).lookup (name.cut dirsiz) = none) {l : Locked}
    (replaced : s.disk.Replaced (s.icache dp).inum
      (setRecord (s.dirContent dp) (vacantSlot (s.dirContent dp)) (direntOf name inum)) l) :
    (s.unlock dp l).DirReady dp ∧
      record ((s.unlock dp l).dirContent dp) (vacantSlot (s.dirContent dp)) = direntOf name inum ∧
      (∀ other, strncmp other name dirsiz = 0 → Answers devsw (s.unlock dp l) dp other
        (some (vacantSlot (s.dirContent dp), inum))) ∧
      ∀ other, strncmp other name dirsiz ≠ 0 → SameAnswer devsw s (s.unlock dp l) dp other := by
  obtain ⟨inside, fits⟩ := dir.vacant_fits room
  obtain ⟨vacant, _⟩ := vacantSlot_spec (s.dirContent dp)
  have records := dir.records
  have size := length_direntOf name inum
  have grown := length_setRecord inside size
  obtain ⟨after, content⟩ := dir.unlock replaced (by
    rw [grown]
    simp only [direntSize] at *
    omega)
  have slots := direntSlots_put name positive.ne' small inside records
  rw [← content] at slots
  have distinct := dir.distinct.put (v := inum) vacant absent
  refine ⟨⟨after, slots ▸ distinct⟩, ?_, fun other same => ?_, fun other differ => ?_⟩
  · rw [content]
    exact record_setRecord_self inside size
  · refine .lookup after other ?_
    rw [slots, strncmp_eq_zero.mp same]
    exact SlotTable.lookup_put_self dir.distinct vacant absent
  · refine .lookup dir.toDirLocked after other ?_
    rw [slots]
    exact SlotTable.lookup_put_other dir.distinct vacant absent (mt strncmp_eq_zero.mpr differ)

/-- The directory without the entry that a lookup has found. -/
theorem DirReady.clear (dir : s.DirReady dp) {name : CString} {u : FsState}
    (after : u.DirLocked dp) (bytes : u.dirContent dp = s.dirContent dp) {i inum : Nat}
    (found : (direntSlots (s.dirContent dp)).lookup (name.cut dirsiz) = some (i, inum)) :
    ∃ t, u.writei devsw dp (direntSize * i) (List.replicate direntSize 0) = .ok (direntSize, t) ∧
      t.DirReady dp ∧ (∀ other, strncmp other name dirsiz = 0 → Answers devsw t dp other none) ∧
      ∀ other, strncmp other name dirsiz ≠ 0 → SameAnswer devsw s t dp other := by
  obtain ⟨inside, _⟩ := SlotTable.lookup_some found
  have length := after.length
  have small := after.small
  have records := after.records
  have size : (List.replicate direntSize (0 : UInt8)).length = direntSize := List.length_replicate
  have within : direntSize * i + direntSize ≤ (u.dirContent dp).length := by
    rw [bytes]
    change i < (s.dirContent dp).length / direntSize at inside
    simp only [direntSize] at *
    omega
  have wrote := writei_record devsw after size (by omega) (within.trans small)
  rw [need_inside after.owned after.allocated (by rw [← after.copy, ← length]; exact within),
    if_pos (Nat.zero_le _)] at wrote
  obtain ⟨l, ran, replaced⟩ := wrote
  obtain ⟨last, content⟩ := after.unlock replaced (by
    rw [length_setRecord (by omega) size]
    simp only [direntSize] at *
    omega)
  have slots : direntSlots ((u.unlock dp l).dirContent dp) =
      (direntSlots (s.dirContent dp)).clear i := by
    rw [content, bytes, direntSlots_clear inside]
  refine ⟨_, ran, ⟨last, slots ▸ dir.distinct.clear i⟩, fun other same => ?_,
    fun other differ => ?_⟩
  · refine .lookup last other ?_
    rw [slots, strncmp_eq_zero.mp same]
    exact SlotTable.lookup_clear_self dir.distinct found
  · refine .lookup dir.toDirLocked last other ?_
    rw [slots]
    exact SlotTable.lookup_clear_other dir.distinct found (mt strncmp_eq_zero.mpr differ)

/-- A directory is a finite map: a new name is entered and all others are as before, a name that
is there is refused, and clearing the entry that `dirlookup` reports removes that name only. -/
theorem directory_finite_map (devsw : Devsw) {s : FsState} {dp : Fin ninode} (dir : s.DirReady dp)
    (name : CString) {inum : Nat} (positive : 0 < inum) (small : inum < 65536) :
    (∀ u, s.dirlookup devsw dp name = .ok (none, u) → s.HasRoom dp →
      (vacantSlot (s.dirContent dp) < (direntSlots (s.dirContent dp)).size →
        s.BlocksForRecord dp) ∧
      (s.BlocksForRecord dp → ∃ t, s.dirlink devsw [dp] dp name inum = .ok (0, t) ∧
        t.DirReady dp ∧
        record (t.dirContent dp) (vacantSlot (s.dirContent dp)) = direntOf name inum ∧
        (∀ other, strncmp other name dirsiz = 0 →
          Answers devsw t dp other (some (vacantSlot (s.dirContent dp), inum))) ∧
        ∀ other, strncmp other name dirsiz ≠ 0 → SameAnswer devsw s t dp other) ∧
      (¬ s.BlocksForRecord dp →
        s.dirlink devsw [dp] dp name inum = .error (.fs .outOfBlocks))) ∧
    ∀ off ip u, s.dirlookup devsw dp name = .ok (some (off, ip), u) →
      ((u.icache ip).inum ≠ (s.icache dp).inum →
        ∃ t, s.dirlink devsw [dp] dp name inum = .ok (-1, t) ∧ t.disk = s.disk ∧
          t.dirContent dp = s.dirContent dp) ∧
      ∃ t, u.writei devsw dp off (List.replicate direntSize 0) = .ok (direntSize, t) ∧
        t.DirReady dp ∧ (∀ other, strncmp other name dirsiz = 0 → Answers devsw t dp other none) ∧
        ∀ other, strncmp other name dirsiz ≠ 0 → SameAnswer devsw s t dp other := by
  refine ⟨fun u found room => ⟨dir.blocks_inside, ?_⟩, fun off ip u found => ⟨fun other => ?_, ?_⟩⟩
  · have absent := dirlookup_none dir.toDirLocked found
    obtain ⟨enters, stops⟩ := dirlink_new devsw dir [dp] inum room absent
    refine ⟨fun enough => ?_, stops⟩
    obtain ⟨l, ran, replaced⟩ := enters enough
    exact ⟨_, ran, dir.put positive small room absent replaced⟩
  · obtain ⟨t, ran, disk, _, bytes⟩ := dirlink_present dir.toDirLocked inum found other
    exact ⟨t, ran, disk, bytes⟩
  · obtain ⟨i, named, rfl, hit, took⟩ := dirlookup_some dir.toDirLocked found
    obtain ⟨disk, held, same, copy, _⟩ := dir.iget took
    obtain ⟨after, bytes⟩ := dir.congr disk held same copy
    exact dir.clear after bytes hit

/-- The sample image with an empty directory, in slot 0 of the cache. -/
def sampleDir : FsState where
  disk := iupdate .sample 1 { Dinode.zero with type := .dir, nlink := 1 }
  icache ip := if ip = 0 then ⟨1, 1, true, { Dinode.zero with type := .dir, nlink := 1 }⟩
    else ⟨0, 0, false, .zero⟩

theorem sampleDir_ready : sampleDir.DirReady 0 where
  owned := FsDisk.sample_owned.update 1 _ (by decide) rfl fun _ below =>
    absurd below (Nat.not_lt_zero _)
  held := by decide
  inside := by decide
  copy := rfl
  directory := rfl
  whole := rfl
  distinct i _ _ _ _ inside := absurd inside (Nat.not_lt_zero i)

/-- An unused slot of the cache is enough for `iget`. -/
theorem iget_unused {jp : Fin ninode} (unused : (s.icache jp).ref = 0) (inum : Nat) :
    ∃ ip t, s.iget inum = .ok (ip, t) := by
  unfold iget
  split
  · exact ⟨_, _, rfl⟩
  · split
    · exact ⟨_, _, rfl⟩
    · next none => exact absurd (decide_eq_true unused) (List.find?_eq_none.mp none jp (by simp))

/-- A name is entered in an empty directory and found; then it is refused, and it can be cleared
while another one stays out. -/
theorem directory_finite_map_first : ∃ t ip u r v,
    sampleDir.dirlink noDevices [0] 0 (.ofList [97]) 2 = .ok (0, t) ∧
      t.dirlookup noDevices 0 (.ofList [97]) = .ok (some (0, ip), u) ∧ (u.icache ip).inum = 2 ∧
      t.dirlink noDevices [0] 0 (.ofList [97]) 3 = .ok (-1, r) ∧
      r.dirContent 0 = t.dirContent 0 ∧
      u.writei noDevices 0 0 (List.replicate direntSize 0) = .ok (direntSize, v) ∧
      Answers noDevices v 0 (.ofList [97]) none ∧ Answers noDevices v 0 (.ofList [98]) none := by
  have map := directory_finite_map noDevices sampleDir_ready (.ofList [97])
    (by decide : 0 < 2) (by decide : 2 < 65536)
  have room : sampleDir.HasRoom 0 := ⟨0, .inl rfl, by decide⟩
  have blocks : sampleDir.BlocksForRecord 0 := by
    unfold BlocksForRecord
    decide +kernel
  obtain ⟨t, ran, ready, -, found, others⟩ := (map.1 sampleDir rfl room).2.1 blocks
  -- the cache is as before but for the copy of the directory's inode
  obtain ⟨l, same, -⟩ := (dirlink_new noDevices sampleDir_ready [0] 2 room rfl).1 blocks
  rw [ran] at same
  cases same
  have unused : ((sampleDir.unlock 0 l).icache 1).ref = 0 := rfl
  obtain ⟨ip, u, took⟩ := iget_unused unused 2
  have answer : (sampleDir.unlock 0 l).dirlookup noDevices 0 (.ofList [97]) =
      .ok (some (0, ip), u) := by
    have looked := found (.ofList [97]) rfl
    have first : vacantSlot (sampleDir.dirContent 0) = 0 := rfl
    rw [Answers, first, FsState.answer, took] at looked
    exact looked
  have named : (u.icache ip).inum = 2 := (ready.iget took).2.2.2.2
  obtain ⟨refuses, v, cleared, -, gone, kept⟩ :=
    (directory_finite_map noDevices ready (.ofList [97]) (by decide : 0 < 3)
      (by decide : 3 < 65536)).2 0 ip u answer
  obtain ⟨r, refused, -, bytes⟩ := refuses (by
    rw [named]
    change 2 ≠ 1
    decide)
  have absent : Answers noDevices sampleDir 0 (.ofList [98]) none := rfl
  have still := (others (.ofList [98]) (by decide)).none absent
  have later := (kept (.ofList [98]) (by decide)).none still
  exact ⟨_, ip, u, r, v, ran, answer, named, refused, bytes, cleared, gone (.ofList [97]) rfl, later⟩

end FsState

end SlabStudy.Xv6
