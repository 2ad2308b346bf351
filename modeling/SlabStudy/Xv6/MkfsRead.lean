import SlabStudy.Xv6.MkfsMain
import SlabStudy.Xv6.DirOps

/-!
# Reading back what mkfs stored

The kernel finds the inodes and the blocks of an image through its superblock.
Whatever pieces the host files were read in, `readi` returns their bytes.
-/

namespace SlabStudy.Xv6

open Library

/-- The disk that the kernel sees in the sectors of an image. -/
def kernelDisk (sector : Nat → Block) : FsDisk where
  sb := ⟨(sector 1).word 0, (sector 1).word 2, (sector 1).word 6⟩
  bit b := (sector (b / (bsize * 8) + (sector 1).word 6)).marked (b % (bsize * 8))
  dinode i := ((sector (i / ipb + (sector 1).word 5)).din (i % ipb)).typed
  block := sector

namespace Mkfs

/-- The bytes of the file. -/
def InputReads.bytes (file : InputReads) : List UInt8 := file.pieces.flatten

variable {m m' : Mkfs} {n : Nat}

/-! ## The files on the way -/

/-- The superblock and the first files are stored. -/
structure Holds (m : Mkfs) (files : List InputReads) : Prop where
  super : m.sector 1 = superblock
  file : ∀ k (inside : k < files.length),
    (m.dinode (k + 2)).type = 2 ∧ m.content (k + 2) = (files[k]).bytes

theorem dirent_length_ne_zero (inum : Nat) (name : List UInt8) :
    (dirent inum name).length ≠ 0 := by
  rw [length_dirent]
  decide

/-- The entry and the content of the next file. -/
theorem Holds.addReads {files : List InputReads} (holds : m.Holds files)
    (built : m.Built (files.length + 2) (files.length + 2)) (more : files.length + 2 < slots)
    {file : InputReads} (ran : m.addReads file = .ok m') : m'.Holds (files ++ [file]) := by
  generalize number : files.length + 2 = n at built more
  have some : 1 < n := by omega
  unfold Mkfs.addReads at ran
  split at ran
  · cases ran
  · obtain ⟨⟨inum, t⟩, first, rest⟩ := bind_eq_ok.mp ran
    obtain ⟨_, first', built', _⟩ := built.ialloc some more
    cases first'.symm.trans first
    obtain ⟨u, appended, copied⟩ := bind_eq_ok.mp rest
    have next : max 1 n = n := by omega
    have few : n < 32 * ndirect := Nat.lt_trans more (by decide)
    have entered : u.Built (n + 1) (n + 1) := by
      rw [← next] at appended
      exact built'.entry few (Nat.lt_succ_of_lt some) appended
    obtain ⟨super, type, empty, others⟩ := built.ialloc_file more first
    have entry := built'.tidy.iappend built'.owned (by decide) built'.root.type
      (dirent_length_ne_zero n (plainName file.name)) appended
    have own : u.disk.Allocated n :=
      allocated_of more (entered.used n (by omega) (Nat.lt_succ_self n))
    have store := entered.tidy.copyPieces entered.owned more
      (entered.used n (by omega) (Nat.lt_succ_self n)) file.fits copied
    have apart : n ≠ rootino := by
      change n ≠ 1
      omega
    refine ⟨?_, fun k inside => ?_⟩
    · rw [store.boot 1 (by decide), entry.boot 1 (by decide), super]
      exact holds.super
    · by_cases old : k < files.length
      · have slot : k + 2 < slots := by omega
        have away : k + 2 ≠ n := by omega
        have other : k + 2 ≠ rootino := by
          change k + 2 ≠ 1
          omega
        have there : t.disk.Allocated (k + 2) :=
          allocated_of slot (built'.used _ (by omega) (by omega))
        obtain ⟨type, bytes⟩ := holds.file k old
        obtain ⟨inode, kept⟩ := others (k + 2) slot away
        rw [List.getElem_append_left old]
        constructor
        · rw [store.others _ slot away, entry.others _ slot other, inode]
          exact type
        · rw [store.kept _ away (entry.allocated other there), entry.kept _ other there, kept]
          exact bytes
      · have last : k = files.length := by
          rw [List.length_append, List.length_singleton] at inside
          omega
        subst last
        have there : t.disk.Allocated n :=
          allocated_of more (built'.used n (by omega) (Nat.lt_succ_self n))
        rw [List.getElem_append_right (Nat.le_refl _), number]
        simp only [Nat.sub_self, List.getElem_cons_zero]
        constructor
        · rw [store.type, entry.others n more apart]
          exact type
        · rw [store.content, entry.kept n apart there, empty]
          rfl

theorem Holds.foldlM {done : List InputReads} (holds : m.Holds done)
    (built : m.Built (done.length + 2) (done.length + 2)) {files : List InputReads}
    (few : done.length + files.length + 2 ≤ slots) (ran : files.foldlM Mkfs.addReads m = .ok m') :
    m'.Holds (done ++ files) := by
  induction files generalizing m done with
  | nil =>
      cases ran
      rw [List.append_nil]
      exact holds
  | cons file rest ih =>
      rw [List.foldlM_cons] at ran
      obtain ⟨t, first, later⟩ := bind_eq_ok.mp ran
      rw [List.length_cons] at few
      have length : (done ++ [file]).length = done.length + 1 := by
        rw [List.length_append, List.length_singleton]
      have next := ih (holds.addReads built (by omega) first)
        (by
          rw [length]
          exact built.addReads (by omega) (by omega) first)
        (by rw [length]; omega) later
      rw [List.append_assoc, List.singleton_append] at next
      exact next

/-- The root directory is made, and the superblock is there. -/
theorem makeRoot_holds (ran : start.makeRoot = .ok m) : m.Holds [] := by
  obtain ⟨t, first, built, _⟩ := start_ialloc
  unfold makeRoot at ran
  rw [first] at ran
  change (t.iappend rootino (dirent (max 1 0) [0x2e]) >>= fun m =>
    m.iappend rootino (dirent (max 1 1) [0x2e, 0x2e])) = _ at ran
  obtain ⟨u, dot, dotdot⟩ := bind_eq_ok.mp ran
  have built' := built.entry (by decide) (by decide) dot
  have one := built.tidy.iappend built.owned (by decide) built.root.type
    (dirent_length_ne_zero _ _) dot
  have two := built'.tidy.iappend built'.owned (by decide) built'.root.type
    (dirent_length_ne_zero _ _) dotdot
  obtain ⟨_, wrote, last⟩ := bind_eq_ok.mp first
  cases last
  refine ⟨?_, fun k inside => absurd inside (Nat.not_lt_zero k)⟩
  rw [two.boot 1 (by decide), one.boot 1 (by decide),
    winode_low (i := start.freeinode) (by decide) wrote (by decide)]
  rfl

/-- The last steps leave the superblock alone. -/
theorem finish_low (ran : m.finish = .ok m') {b : Nat} (low : b < inodestart) :
    m'.sector b = m.sector b := by
  obtain ⟨din, _, rest⟩ := bind_eq_ok.mp ran
  obtain ⟨t, wrote, last⟩ := bind_eq_ok.mp rest
  have same := winode_low (by decide) wrote low
  unfold Mkfs.balloc at last
  split at last
  · cases last
    rw [wsect_sector t (by decide)]
    refine (Function.update_of_ne ?_ _ _).trans same
    change b ≠ 58
    change b < 32 at low
    omega
  · cases last

/-! ## The view of the kernel -/

variable {sector : Nat → Block} {j : Nat}

theorem kernel_dinode (super : m.sector 1 = superblock) (i : Nat) :
    (kernelDisk m.sector).dinode i = (m.dinode i).typed := by
  have start : (m.sector 1).word 5 = inodestart := by
    rw [super]
    decide +kernel
  change ((m.sector (i / ipb + (m.sector 1).word 5)).din (i % ipb)).typed = _
  rw [start]
  rfl

/-- The kernel finds the blocks of an inode where the program has put them. -/
theorem kernel_addrOf (owned : m.disk.Owned) (allocated : m.disk.Allocated j)
    (same : ∀ b, nmeta ≤ b → sector b = m.sector b) (bn : Nat) :
    (kernelDisk sector).addrOf (m.disk.dinode j) bn = m.disk.addrOf (m.disk.dinode j) bn := by
  have place : (kernelDisk sector).place (m.disk.dinode j) = m.disk.place (m.disk.dinode j) := by
    refine FsDisk.place_congr fun listed => ?_
    have here : m.disk.ref (j, .addr indirect) = (m.disk.dinode j).addrs indirect :=
      FsDisk.ref_of allocated _
    have range := owned.owns.range (j, .addr indirect) (by rw [here]; exact listed)
    rw [here] at range
    have data : nmeta ≤ (m.disk.dinode j).addrs indirect := range.1
    rw [disk_block data]
    exact same _ data
  rw [FsDisk.addrOf, FsDisk.addrOf, place]

theorem kernel_content (owned : m.disk.Owned) (allocated : m.disk.Allocated j)
    (same : ∀ b, nmeta ≤ b → sector b = m.sector b) :
    (kernelDisk sector).content (m.disk.dinode j) = m.content j := by
  refine List.map_congr_left fun k member => ?_
  have inside := List.mem_range.mp member
  have listed := owned.full j allocated (k / bsize) (by simp only [bsize] at *; omega)
  have ok := owned.locked allocated
  rw [← locked_disk allocated.1] at ok
  rw [disk_dinode allocated.1] at listed
  have data := (data_addrOf ok listed).1
  rw [← disk_dinode allocated.1] at data
  rw [FsDisk.byteAt, kernel_addrOf owned allocated same, FsDisk.byteAt, disk_block data]
  exact congrFun (same _ data) _

/-- `readi` through a locked inode with all its blocks. -/
theorem readi_range (devsw : Devsw) {t : FsState} {ip : Fin ninode} {bytes : List UInt8}
    (content : t.disk.content (t.icache ip).copy = bytes) (regular : (t.icache ip).copy.type ≠ .dev)
    (full : ∀ bn, bn * bsize < (t.icache ip).copy.size → t.disk.addrOf (t.icache ip).copy bn ≠ 0)
    {off n : Nat} (inside : off + n ≤ bytes.length) :
    t.readi devsw ip off n = .ok (((n : Int), (bytes.drop off).take n), t) := by
  have size : bytes.length = (t.icache ip).copy.size := by rw [← content, FsDisk.content_length]
  have bound : (t.icache ip).copy.size ≤ maxfile * bsize := by
    by_contra large
    exact absurd (Locked.lt_maxfile (full maxfile (by omega))) (lt_irrefl _)
  have limit : maxfile * bsize < 2 ^ 32 := by decide
  have range : readBytes (t.disk.content (t.icache ip).copy) off n =
      some ((bytes.drop off).take n) := by
    rw [content, readBytes, if_neg (by omega)]
  have length : ((bytes.drop off).take n).length = n := by
    rw [List.length_take, List.length_drop]
    omega
  have read := @FsDisk.readi_full devsw (t.locked ip) full regular off n (by omega) (by omega)
  rw [show (t.locked ip).disk.content (t.locked ip).ip = t.disk.content (t.icache ip).copy from rfl,
    range] at read
  dsimp only at read
  rw [length] at read
  rw [FsState.readi, read]
  change Except.ok ((_, _), t.unlock ip (t.locked ip)) = _
  rw [FsState.unlock_locked]

/--
The kernel reads back what was stored: the entry of the root directory names
the inode of the file, `ilock` finds a file of its size, and `readi` returns
its bytes.
-/
theorem kernel_reads_back (devsw : Devsw) {files : List InputReads}
    (few : files.length < ninodes - 1) (ran : mainReads files = .ok m) {k : Nat}
    (inside : k < files.length) {s : FsState} (booted : s.disk = kernelDisk m.sector)
    {ip : Fin ninode} (named : (s.icache ip).inum = k + 2)
    (agrees : (s.icache ip).valid = true → (s.icache ip).copy = s.disk.dinode (k + 2)) :
    m.rootEntry (k + 2) = k + 2 ∧
    ∃ t, s.ilock ip = .ok t ∧ (t.icache ip).copy.size = (files[k]).bytes.length ∧
      ∀ off n, off + n ≤ (files[k]).bytes.length →
        t.readi devsw ip off n = .ok (((n : Int), ((files[k]).bytes.drop off).take n), t) := by
  have small : files.length + 2 ≤ ninodes := by
    simp only [ninodes] at *
    omega
  obtain ⟨first, last, made, looped, built, finished⟩ :=
    mainReads_finished (Nat.le_trans small (by decide)) ran
  have holds : last.Holds files := by
    have root := makeRoot_holds made
    refine root.foldlM (built_makeRoot made) ?_ looped
    rw [slots_eq]
    simp only [ninodes, List.length_nil] at *
    omega
  obtain ⟨type, bytes⟩ := holds.file k inside
  have slot : k + 2 < slots := by
    rw [slots_eq]
    simp only [ninodes] at *
    omega
  have allocated : last.disk.Allocated (k + 2) := allocated_of slot (by rw [type]; decide)
  have super : m.sector 1 = superblock := by
    unfold mainReads at ran
    rw [made] at ran
    change (files.foldlM Mkfs.addReads first >>= finish) = _ at ran
    rw [looped] at ran
    exact (finish_low ran (by decide)).trans holds.super
  have inode : (kernelDisk m.sector).dinode (k + 2) = last.disk.dinode (k + 2) := by
    rw [kernel_dinode super, finished.others (k + 2) (by omega) (by change k + 2 ≠ 1; omega),
      disk_dinode slot]
  have file : (last.disk.dinode (k + 2)).type = .file := by
    rw [disk_dinode slot]
    change InodeType.ofCode _ = _
    rw [type]
    rfl
  have same := finished.sector
  have content := (kernel_content built.owned allocated same).trans bytes
  refine ⟨?_, ?_⟩
  · rw [finished.rootEntry built (by omega) (by simp only [ninodes, ndirect] at *; omega),
      if_pos (by omega)]
    omega
  obtain ⟨t, ran, disk, copy⟩ : ∃ t, s.ilock ip = .ok t ∧ t.disk = kernelDisk m.sector ∧
      (t.icache ip).copy = last.disk.dinode (k + 2) := by
    unfold FsState.ilock
    split
    · next valid => exact ⟨s, rfl, booted, by rw [agrees valid, booted, inode]⟩
    · rw [named, booted, inode]
      dsimp only
      rw [file, if_neg (by decide)]
      exact ⟨_, rfl, booted, congrArg CachedInode.copy (FsState.setSlot_self ..)⟩
  refine ⟨t, ran, ?_, fun off n range => ?_⟩
  · rw [copy, ← content, FsDisk.content_length]
  · refine readi_range devsw ?_ ?_ ?_ range
    · rw [disk, copy]
      exact content
    · rw [copy, file]
      decide
    · rw [disk, copy]
      intro bn below
      rw [kernel_addrOf built.owned allocated same]
      exact built.owned.full _ allocated bn below

/-- The kernel after a boot, with a reference to the first file. -/
def booted (m : Mkfs) : FsState :=
  ⟨kernelDisk m.sector, fun ip => if ip = 0 then ⟨2, 1, false, .zero⟩ else ⟨0, 0, false, .zero⟩⟩

/-- A file of three bytes, read in two pieces. -/
def twoPieces : InputReads := ⟨[0x66], [[1, 2], [3]], by decide⟩

/-- Its bytes are read back after a boot. -/
theorem kernel_reads_back_pieces : ∃ m t, mainReads [twoPieces] = .ok m ∧
    m.booted.ilock 0 = .ok t ∧ t.readi noDevices 0 1 2 = .ok ((2, [2, 3]), t) := by
  have ends : (mainReads [twoPieces]).toOption.isSome = true := by decide +kernel
  cases ran : mainReads [twoPieces] with
  | error reason =>
      rw [ran] at ends
      cases ends
  | ok m =>
      have read := @kernel_reads_back m noDevices [twoPieces] (by decide) ran 0
        (by decide : 0 < [twoPieces].length) m.booted rfl 0 rfl nofun
      obtain ⟨_, t, locked, _, range⟩ := read
      exact ⟨m, t, rfl, locked, range 1 2 (by decide)⟩

end Mkfs

end SlabStudy.Xv6
