import SlabStudy.Xv6.Mkfs

/-!
# The image that mkfs builds

As long as the inodes stay in front of the data blocks, the image is a disk as
the kernel sees it, and `iappend` does to it what `writei` does at the end of
a file.  What is known about `writei` then holds of the image.
-/

namespace SlabStudy.Xv6

open Library

/-! ## The image as a disk -/

/-- `T_DIR`, `T_FILE` and `T_DEV`. -/
def InodeType.ofCode : Nat → InodeType
  | 0 => .free
  | 1 => .dir
  | 2 => .file
  | _ => .dev

/-- A record of numbers as an inode of the kernel. -/
def Din.typed (d : Din) : Dinode := ⟨.ofCode d.type, d.major, d.minor, d.nlink, d.size, d.addrs⟩

namespace Mkfs

/-- The inodes that lie in front of the data blocks, in inode blocks or in the free map. -/
def slots : Nat := (nmeta - inodestart) * ipb

/-- The inode `i` of the image. -/
def dinode (m : Mkfs) (i : Nat) : Din := (m.sector (iblock i)).din (i % ipb)

/-- The image as the kernel sees it, with the blocks below `freeblock` in use. -/
def disk (m : Mkfs) : FsDisk where
  sb := ⟨fssize, slots, bmapstart⟩
  bit b := decide (b < m.freeblock)
  dinode i := if i < slots then (m.dinode i).typed else .zero
  block b := if b < nmeta then .zero else m.sector b

theorem disk_ext {d e : FsDisk} (sb : d.sb = e.sb) (bit : ∀ b, d.bit b = e.bit b)
    (dinode : ∀ i, d.dinode i = e.dinode i) (block : ∀ b, d.block b = e.block b) : d = e := by
  obtain ⟨sb', bit', dinode', block'⟩ := d
  cases sb
  cases funext bit
  cases funext dinode
  cases funext block
  rfl

/-- The blocks that are not allotted are inside the image and zero. -/
structure Tidy (m : Mkfs) : Prop where
  length : m.length = fssize
  low : nmeta ≤ m.freeblock
  high : m.freeblock ≤ fssize
  zero : ∀ b, m.freeblock ≤ b → b < fssize → m.sector b = .zero

theorem nmeta_eq : nmeta = 59 := rfl

theorem slots_eq : slots = 216 := rfl

theorem iblock_eq (i : Nat) : iblock i = i / 8 + 32 := rfl

theorem iblock_lt {i : Nat} (inside : i < slots) : iblock i < nmeta := by
  rw [slots_eq] at inside
  rw [iblock_eq, nmeta_eq]
  omega

variable {m m' : Mkfs} {i x : Nat} {din : Din} {buf : Block}

theorem disk_dinode (inside : i < slots) : m.disk.dinode i = (m.dinode i).typed := if_pos inside

theorem disk_dinode_out (outside : ¬ i < slots) : m.disk.dinode i = .zero := if_neg outside

theorem disk_block (data : nmeta ≤ x) : m.disk.block x = m.sector x :=
  if_neg (Nat.not_lt.mpr data)

theorem disk_block_low (low : x < nmeta) : m.disk.block x = .zero := if_pos low

/-- A sector number below the size of the image is not reduced. -/
theorem sector_mod (inside : x < fssize) : x % 2 ^ 23 = x :=
  Nat.mod_eq_of_lt (Nat.lt_trans inside (by decide))

theorem Tidy.rsect (tidy : m.Tidy) (inside : x < fssize) : m.rsect x = .ok (m.sector x) := by
  rw [Mkfs.rsect, sector_mod inside, tidy.length, if_pos inside]

/-- What can be read is inside the image. -/
theorem rsect_inside (length : m.length = fssize) (small : x ≤ fssize)
    (ran : m.rsect x = .ok buf) : x < fssize ∧ buf = m.sector x := by
  unfold Mkfs.rsect at ran
  rw [Nat.mod_eq_of_lt (Nat.lt_of_le_of_lt small (by decide)), length] at ran
  split at ran
  · next inside =>
      cases ran
      exact ⟨inside, rfl⟩
  · cases ran

theorem wsect_sector (m : Mkfs) (inside : x < fssize) (buf : Block) :
    (m.wsect x buf).sector = Function.update m.sector x buf := by
  rw [wsect, sector_mod inside]

/-- Writing a block that is in use, or one of the metadata blocks. -/
theorem Tidy.wsect (tidy : m.Tidy) (used : x < m.freeblock) (buf : Block) : (m.wsect x buf).Tidy := by
  have inside : x < fssize := Nat.lt_of_lt_of_le used tidy.high
  refine ⟨?_, tidy.low, tidy.high, fun b free small => ?_⟩
  · rw [Mkfs.wsect, sector_mod inside]
    change max m.length (x + 1) = fssize
    rw [tidy.length]
    exact Nat.max_eq_left inside
  · have apart : b ≠ x := Nat.ne_of_gt (Nat.lt_of_lt_of_le used free)
    rw [wsect_sector m inside, Function.update_of_ne apart]
    exact tidy.zero b free small

/-- A data block is written. -/
theorem disk_wsect (data : nmeta ≤ x) (inside : x < fssize) (buf : Block) :
    (m.wsect x buf).disk = { m.disk with block := Function.update m.disk.block x buf } := by
  have sectors := wsect_sector m inside buf
  refine disk_ext rfl (fun _ => rfl) (fun j => ?_) fun b => ?_
  · by_cases slot : j < slots
    · have apart : iblock j ≠ x := Nat.ne_of_lt (Nat.lt_of_lt_of_le (iblock_lt slot) data)
      change _ = m.disk.dinode j
      rw [disk_dinode slot, disk_dinode slot, dinode, dinode, sectors, Function.update_of_ne apart]
    · exact (disk_dinode_out slot).trans (disk_dinode_out slot).symm
  · change _ = Function.update m.disk.block x buf b
    by_cases here : b = x
    · rw [here, disk_block data, sectors, Function.update_self, Function.update_self]
    · rw [Function.update_of_ne here]
      by_cases low : b < nmeta
      · exact (disk_block_low low).trans (disk_block_low low).symm
      · rw [disk_block (Nat.le_of_not_lt low), disk_block (Nat.le_of_not_lt low), sectors,
          Function.update_of_ne here]

/-- Inodes and data blocks after an inode has been written. -/
structure Winode (m : Mkfs) (i : Nat) (din : Din) (m' : Mkfs) : Prop where
  tidy : m'.Tidy
  self : m'.dinode i = din
  others : ∀ j, j ≠ i → m'.dinode j = m.dinode j
  sector : ∀ b, nmeta ≤ b → m'.sector b = m.sector b
  freeinode : m'.freeinode = m.freeinode
  freeblock : m'.freeblock = m.freeblock

theorem Tidy.winode (tidy : m.Tidy) (inside : i < slots) (fits : din.Fits) :
    ∃ m', m.winode i din = .ok m' ∧ Winode m i din m' := by
  have low := iblock_lt inside
  have small : iblock i < fssize := Nat.lt_trans low (by decide)
  have used : iblock i < m.freeblock := Nat.lt_of_lt_of_le low tidy.low
  have slot : i % ipb < ipb := Nat.mod_lt _ (by decide)
  refine ⟨_, by rw [Mkfs.winode, tidy.rsect small]; rfl, tidy.wsect used _, ?_, fun j apart => ?_,
    fun b data => ?_, rfl, rfl⟩
  · rw [dinode, wsect_sector m small, Function.update_self, Block.din_setDin_self _ slot fits]
  · rw [dinode, dinode, wsect_sector m small]
    by_cases same : iblock j = iblock i
    · rw [same, Function.update_self]
      refine Block.din_setDin_other _ (Nat.mod_lt _ (by decide)) fun clash => apart ?_
      rw [iblock_eq, iblock_eq] at same
      change j % 8 = i % 8 at clash
      omega
    · rw [Function.update_of_ne same]
  · rw [wsect_sector m small, Function.update_of_ne (Nat.ne_of_gt (Nat.lt_of_lt_of_le low data))]

/-- The blocks in front of the inodes are left alone. -/
theorem winode_low (inside : i < slots) (ran : m.winode i din = .ok m') {b : Nat}
    (low : b < inodestart) : m'.sector b = m.sector b := by
  have small : iblock i < fssize := Nat.lt_trans (iblock_lt inside) (by decide)
  obtain ⟨buf, _, wrote⟩ := bind_eq_ok.mp ran
  cases wrote
  rw [wsect_sector m small]
  refine Function.update_of_ne ?_ _ _
  rw [iblock_eq]
  change b < 32 at low
  omega

/-- To the kernel this is an `iupdate`. -/
theorem Winode.disk (wrote : Winode m i din m') (inside : i < slots) :
    m'.disk = iupdate m.disk i din.typed := by
  refine disk_ext rfl (fun b => ?_) (fun j => ?_) fun b => ?_
  · change decide (b < m'.freeblock) = decide (b < m.freeblock)
    rw [wrote.freeblock]
  · change _ = Function.update m.disk.dinode i din.typed j
    by_cases self : j = i
    · rw [self, Function.update_self, disk_dinode inside, wrote.self]
    · rw [Function.update_of_ne self]
      change (if j < slots then (m'.dinode j).typed else .zero) =
        if j < slots then (m.dinode j).typed else .zero
      rw [wrote.others j self]
  · change _ = m.disk.block b
    by_cases low : b < nmeta
    · exact (disk_block_low low).trans (disk_block_low low).symm
    · rw [disk_block (Nat.le_of_not_lt low), disk_block (Nat.le_of_not_lt low),
        wrote.sector b (Nat.le_of_not_lt low)]

/-! ## Allotting blocks -/

/-- To the kernel the next block is the first free one. -/
theorem Tidy.balloc (tidy : m.Tidy) (room : m.freeblock < fssize) :
    SlabStudy.Xv6.balloc m.disk = .ok (m.freeblock, m.takeBlock.disk) := by
  have found : (List.range m.disk.sb.size).find? (fun b => !m.disk.bit b) = some m.freeblock := by
    refine List.find?_range_eq_some.mpr ⟨?_, List.mem_range.mpr room, fun b lower => ?_⟩
    · simp [disk]
    · simp [disk, lower]
  unfold SlabStudy.Xv6.balloc
  rw [found]
  refine congrArg (fun d => Except.ok (m.freeblock, d)) (disk_ext rfl (fun b => ?_) (fun _ => rfl)
    fun b => ?_)
  · change Function.update m.disk.bit m.freeblock true b = decide (b < m.freeblock + 1)
    by_cases here : b = m.freeblock
    · rw [here, Function.update_self]
      simp
    · rw [Function.update_of_ne here]
      change decide (b < m.freeblock) = _
      exact decide_eq_decide.mpr (by omega)
  · change Function.update m.disk.block m.freeblock .zero b = m.disk.block b
    by_cases here : b = m.freeblock
    · rw [here, Function.update_self, disk_block tidy.low, tidy.zero _ (Nat.le_refl _) room]
    · rw [Function.update_of_ne here]

theorem Tidy.takeBlock (tidy : m.Tidy) (room : m.freeblock < fssize) : m.takeBlock.Tidy :=
  ⟨tidy.length, Nat.le_succ_of_le tidy.low, room, fun b free small =>
    tidy.zero b (Nat.le_of_succ_le free) small⟩

/-- The inode that `iappend` works on, as one that the kernel has locked. -/
def locked (m : Mkfs) (i : Nat) (din : Din) : Locked := ⟨i, din.typed, m.disk⟩

/-- A block that an inode lists is a data block in use. -/
theorem data_block (ok : (m.locked i din).Ok) {p : Place} (some : m.disk.place din.typed p ≠ 0) :
    nmeta ≤ m.disk.place din.typed p ∧ m.disk.place din.typed p < m.freeblock := by
  have same : (m.locked i din).flush.ref (i, p) = m.disk.place din.typed p := ok.ref p
  rw [← same] at some ⊢
  have used := ok.owned.owns.used_of_ref some
  exact ⟨(ok.owned.owns.range _ some).1, of_decide_eq_true used⟩

/-- A direct block, or the indirect block, is found or allotted as `ensure` does it. -/
theorem Tidy.ensure (tidy : m.Tidy) (k : Fin (ndirect + 1)) (none : din.addrs k = 0)
    (room : m.freeblock < fssize) :
    (m.locked i din).ensure k = .ok (m.freeblock,
      m.takeBlock.locked i { din with addrs := Function.update din.addrs k m.freeblock }) := by
  have empty : (m.locked i din).ip.addrs k = 0 := none
  rw [Locked.ensure, if_pos empty]
  change (SlabStudy.Xv6.balloc m.disk >>= _) = _
  rw [tidy.balloc room]
  rfl

/-- What finding or allotting a block does to the counters and to the inode. -/
structure Allots (m : Mkfs) (din : Din) (m' : Mkfs) (din' : Din) : Prop where
  tidy : m'.Tidy
  freeinode : m'.freeinode = m.freeinode
  freeblock : m.freeblock ≤ m'.freeblock
  low : ∀ b, b < nmeta → m'.sector b = m.sector b
  type : din'.type = din.type
  fits : din.Fits → din'.Fits

theorem Allots.refl (tidy : m.Tidy) : Allots m din m din :=
  ⟨tidy, rfl, Nat.le_refl _, fun _ _ => rfl, rfl, id⟩

theorem Allots.trans {m₁ m₂ : Mkfs} {d₁ d₂ : Din} (first : Allots m din m₁ d₁)
    (second : Allots m₁ d₁ m₂ d₂) : Allots m din m₂ d₂ :=
  ⟨second.tidy, second.freeinode.trans first.freeinode,
    Nat.le_trans first.freeblock second.freeblock,
    fun b metadata => (second.low b metadata).trans (first.low b metadata),
    second.type.trans first.type, fun fits => second.fits (first.fits fits)⟩

/-- A data block is written. -/
theorem Allots.wsect (tidy : m.Tidy) (data : nmeta ≤ x) (used : x < m.freeblock) (buf : Block) :
    Allots m din (m.wsect x buf) din := by
  have inside : x < fssize := Nat.lt_of_lt_of_le used tidy.high
  refine ⟨tidy.wsect used buf, rfl, Nat.le_refl _, fun b metadata => ?_, rfl, id⟩
  rw [wsect_sector m inside, Function.update_of_ne (Nat.ne_of_lt (Nat.lt_of_lt_of_le metadata data))]

theorem Tidy.allots (tidy : m.Tidy) (room : m.freeblock < fssize) (k : Fin (ndirect + 1)) :
    Allots m din m.takeBlock { din with addrs := Function.update din.addrs k m.freeblock } := by
  refine ⟨tidy.takeBlock room, rfl, Nat.le_succ _, fun _ _ => rfl, rfl, fun fits =>
    ⟨fits.type, fits.major, fits.minor, fits.nlink, fits.size, fun t => ?_⟩⟩
  by_cases here : t = k
  · subst here
    simp only [Function.update_self]
    exact Nat.lt_trans room (by decide)
  · simp only [Function.update_of_ne here]
    exact fits.addrs t

/-- An entry of the indirect block is found or allotted as `ensureEntry` does it. -/
theorem Tidy.mapEntry (tidy : m.Tidy) (ok : (m.locked i din).Ok) (listed : din.addrs indirect ≠ 0)
    {k : Fin nindirect} {din' : Din} (ran : m.mapEntry din k = .ok (x, din', m'))
    (read : m'.rsect x = .ok buf) :
    (m.locked i din).ensureEntry (din.addrs indirect) k = .ok (x, m'.locked i din') ∧
      Allots m din m' din' := by
  obtain ⟨data, used⟩ := data_block (p := .addr indirect) ok listed
  change nmeta ≤ din.addrs indirect at data
  change din.addrs indirect < m.freeblock at used
  have inside : din.addrs indirect < fssize := Nat.lt_of_lt_of_le used tidy.high
  have block : (m.locked i din).disk.block (din.addrs indirect) = m.sector (din.addrs indirect) :=
    disk_block data
  unfold Mkfs.mapEntry at ran
  rw [tidy.rsect inside] at ran
  change (if _ then _ else _) = _ at ran
  rw [Locked.ensureEntry, block]
  split at ran
  · next none =>
      cases ran
      have length : (m.takeBlock.wsect (din.addrs indirect)
          ((m.sector (din.addrs indirect)).setWord k m.freeblock)).length = fssize := by
        change max m.length (din.addrs indirect % 2 ^ 23 + 1) = fssize
        rw [tidy.length, sector_mod inside]
        exact Nat.max_eq_left inside
      have room := (rsect_inside length tidy.high read).1
      have taken := tidy.takeBlock room
      have more : din.addrs indirect < m.takeBlock.freeblock := Nat.lt_succ_of_lt used
      have allots : Allots m.takeBlock din _ din := .wsect taken data more
        ((m.sector (din.addrs indirect)).setWord k m.freeblock)
      refine ⟨?_, allots.tidy, rfl, Nat.le_succ _, allots.low, rfl, id⟩
      have after : m.takeBlock.disk.block (din.addrs indirect) = m.sector (din.addrs indirect) :=
        disk_block data
      rw [if_pos none]
      change (SlabStudy.Xv6.balloc m.disk >>= _) = _
      rw [tidy.balloc room]
      simp only [locked, disk_wsect data inside, ← after]
      rfl
  · next some =>
      cases ran
      rw [if_neg some]
      exact ⟨rfl, .refl tidy⟩

/-- There is a block to find or to allot, if there is room for one. -/
theorem Tidy.mapEntry_returns (tidy : m.Tidy) (ok : (m.locked i din).Ok)
    (listed : din.addrs indirect ≠ 0) (k : Fin nindirect) (room : m.freeblock < fssize) :
    ∃ x m' buf, m.mapEntry din k = .ok (x, din, m') ∧ m'.rsect x = .ok buf ∧
      m'.freeblock ≤ m.freeblock + 1 := by
  obtain ⟨data, used⟩ := data_block (p := .addr indirect) ok listed
  change nmeta ≤ din.addrs indirect at data
  change din.addrs indirect < m.freeblock at used
  have inside : din.addrs indirect < fssize := Nat.lt_trans used room
  have read : m.mapEntry din k = if (m.sector (din.addrs indirect)).word k = 0 then
      .ok (m.freeblock, din, m.takeBlock.wsect (din.addrs indirect)
        ((m.sector (din.addrs indirect)).setWord k m.freeblock))
      else .ok ((m.sector (din.addrs indirect)).word k, din, m) := by
    rw [Mkfs.mapEntry, tidy.rsect inside]
    rfl
  by_cases none : (m.sector (din.addrs indirect)).word k = 0
  · have written := (tidy.takeBlock room).wsect (Nat.lt_succ_of_lt used)
      ((m.sector (din.addrs indirect)).setWord k m.freeblock)
    exact ⟨_, _, _, read.trans (if_pos none), written.rsect room, Nat.le_refl _⟩
  · have place : m.disk.place din.typed (.entry k) =
        (m.sector (din.addrs indirect)).word k := by
      have block : m.disk.block (din.addrs indirect) = m.sector (din.addrs indirect) :=
        disk_block data
      rw [← block]
      exact if_neg listed
    have used' := (data_block (p := .entry k) ok (by rw [place]; exact none)).2
    rw [place] at used'
    exact ⟨_, _, _, read.trans (if_neg none), tidy.rsect (Nat.lt_trans used' room),
      Nat.le_succ _⟩

/-- `iappend` finds and allots blocks as `bmap` does. -/
theorem Tidy.mapBlock (tidy : m.Tidy) (ok : (m.locked i din).Ok) {fbn : Nat} {din' : Din}
    (inside : fbn < maxfile) (ran : m.mapBlock din fbn = .ok (x, din', m'))
    (read : m'.rsect x = .ok buf) :
    bmap (m.locked i din) fbn = .ok (x, m'.locked i din') ∧ Allots m din m' din' := by
  unfold Mkfs.mapBlock at ran
  by_cases small : fbn < ndirect
  · rw [if_pos small] at ran
    rw [bmap, if_pos small]
    dsimp only at ran
    split at ran
    · next none =>
        cases ran
        have room := (rsect_inside tidy.length tidy.high read).1
        exact ⟨tidy.ensure _ none room, tidy.allots room _⟩
    · next some =>
        cases ran
        have listed : ¬ (m.locked i din).ip.addrs (Fin.ofNat (ndirect + 1) fbn) = 0 := some
        rw [Locked.ensure, if_neg listed]
        exact ⟨rfl, .refl tidy⟩
  · have word : fbn - ndirect < nindirect := by
      simp only [maxfile, ndirect, nindirect] at *
      omega
    have index : ((Fin.ofNat nindirect (fbn - ndirect)).val : Nat) = fbn - ndirect :=
      Nat.mod_eq_of_lt word
    rw [if_neg small, ← index] at ran
    rw [bmap, if_neg small, if_pos word, ← index]
    by_cases none : din.addrs indirect = 0
    · rw [if_pos none] at ran
      -- the new indirect block is read, and so it is inside the image
      have room : m.freeblock < fssize := by
        unfold Mkfs.mapEntry at ran
        obtain ⟨list, readList, _⟩ := bind_eq_ok.mp ran
        simp only [Function.update_self] at readList
        exact (rsect_inside tidy.length tidy.high readList).1
      have first := tidy.ensure (i := i) indirect none room
      have taken : Allots m din m.takeBlock _ := tidy.allots room indirect
      have positive : m.freeblock ≠ 0 := by
        have low := tidy.low
        rw [nmeta_eq] at low
        omega
      rcases Locked.ensure_spec ok indirect with ⟨some, _⟩ | ⟨_, b, took, grows⟩ | ⟨_, _, stopped⟩
      · exact absurd none some
      · rw [first] at took ⊢
        have middle := grows.ok ok
        rw [← (Prod.mk.inj (Except.ok.inj took)).2] at middle
        have later := taken.tidy.mapEntry middle
          (by simpa only [Function.update_self] using positive) ran read
        simp only [Function.update_self] at later
        exact ⟨later.1, taken.trans later.2⟩
      · rw [first] at stopped
        cases stopped
    · rw [if_neg none] at ran
      have listed : ¬ (m.locked i din).ip.addrs indirect = 0 := none
      rw [Locked.ensure, if_neg listed]
      exact tidy.mapEntry ok none ran read

theorem Tidy.mapBlock_returns (tidy : m.Tidy) (ok : (m.locked i din).Ok) {fbn : Nat}
    (inside : fbn < maxfile) (room : m.freeblock + 2 ≤ fssize) :
    ∃ x din' m' buf, m.mapBlock din fbn = .ok (x, din', m') ∧ m'.rsect x = .ok buf ∧
      m'.freeblock ≤ m.freeblock + 2 := by
  have first : m.freeblock < fssize := Nat.lt_of_succ_lt room
  unfold Mkfs.mapBlock
  by_cases small : fbn < ndirect
  · rw [if_pos small]
    dsimp only
    by_cases none : din.addrs (Fin.ofNat (ndirect + 1) fbn) = 0
    · rw [if_pos none]
      exact ⟨_, _, _, _, rfl, (tidy.takeBlock first).rsect first, Nat.le_succ _⟩
    · rw [if_neg none]
      have used := (data_block (p := .addr (Fin.ofNat (ndirect + 1) fbn)) ok none).2
      change din.addrs _ < m.freeblock at used
      exact ⟨_, _, _, _, rfl, tidy.rsect (Nat.lt_trans used first), Nat.le_add_right _ _⟩
  · have word : fbn - ndirect < nindirect := by
      simp only [maxfile, ndirect, nindirect] at *
      omega
    have index : ((Fin.ofNat nindirect (fbn - ndirect)).val : Nat) = fbn - ndirect :=
      Nat.mod_eq_of_lt word
    rw [if_neg small, ← index]
    by_cases none : din.addrs indirect = 0
    · rw [if_pos none]
      have positive : m.freeblock ≠ 0 := by
        have low := tidy.low
        rw [nmeta_eq] at low
        omega
      rcases Locked.ensure_spec ok indirect with ⟨some, _⟩ | ⟨_, b, took, grows⟩ | ⟨_, _, stopped⟩
      · exact absurd none some
      · rw [tidy.ensure (i := i) indirect none first] at took
        have middle := grows.ok ok
        rw [← (Prod.mk.inj (Except.ok.inj took)).2] at middle
        obtain ⟨x, m', buf, ran, read, bound⟩ := (tidy.takeBlock first).mapEntry_returns middle
          (by simpa only [Function.update_self] using positive)
          (Fin.ofNat nindirect (fbn - ndirect)) room
        exact ⟨x, _, m', buf, ran, read, bound⟩
      · rw [tidy.ensure (i := i) indirect none first] at stopped
        cases stopped
    · rw [if_neg none]
      obtain ⟨x, m', buf, ran, read, bound⟩ :=
        tidy.mapEntry_returns ok none (Fin.ofNat nindirect (fbn - ndirect)) first
      exact ⟨x, _, m', buf, ran, read, Nat.le_succ_of_le bound⟩

/-- The blocks of the file are data blocks in use. -/
theorem data_addrOf (ok : (m.locked i din).Ok) {bn : Nat} (some : m.disk.addrOf din.typed bn ≠ 0) :
    nmeta ≤ m.disk.addrOf din.typed bn ∧ m.disk.addrOf din.typed bn < m.freeblock := by
  cases here : FsDisk.index bn with
  | none => simp [FsDisk.addrOf, here] at some
  | some p =>
      have same : m.disk.addrOf din.typed bn = m.disk.place din.typed p := by
        rw [FsDisk.addrOf, here]
        rfl
      rw [same] at some ⊢
      exact data_block ok some

theorem mapped_of_bmap {l l' : Locked} {bn addr : Nat} (ok : l.Ok) (inside : bn < maxfile)
    (ran : bmap l bn = .ok (addr, l')) : Locked.Mapped l bn addr l' := by
  rcases Locked.bmap_spec ok inside with ⟨_, _, found, mapped, _⟩ | ⟨stopped, _⟩
  · rw [ran] at found
    cases found
    exact mapped
  · rw [ran] at stopped
    cases stopped

/-- A block of the file is filled. -/
theorem locked_wsect (data : nmeta ≤ x) (inside : x < fssize) (buf : Block) :
    (m.wsect x buf).locked i din = (m.locked i din).put x buf := by
  unfold locked
  rw [disk_wsect data inside]
  rfl

/-- The loop of `iappend` is the loop of `writei`. -/
theorem Tidy.appendLoop (tidy : m.Tidy) (ok : (m.locked i din).Ok) {off off' : Nat} {din' : Din}
    {data : List UInt8} (ran : m.appendLoop din off data = .ok (off', din', m')) :
    off' = off + data.length ∧ (data.length ≠ 0 → off' ≤ maxfile * bsize) ∧
      writeLoop (m.locked i din) off data = .ok (m'.locked i din') ∧ Allots m din m' din' := by
  induction long : data.length using Nat.strongRecOn generalizing m din off data with
  | ind n ih =>
      subst long
      rw [Mkfs.appendLoop] at ran
      rw [SlabStudy.Xv6.writeLoop]
      by_cases none : data.length = 0
      · rw [dif_pos none] at ran
        cases ran
        rw [dif_pos none, none]
        exact ⟨rfl, fun some => absurd rfl some, rfl, .refl tidy⟩
      · rw [dif_neg none] at ran
        split at ran
        · next inside =>
            obtain ⟨⟨x, d, t⟩, mapped, rest⟩ := bind_eq_ok.mp ran
            obtain ⟨buf, read, later⟩ := bind_eq_ok.mp rest
            obtain ⟨found, allots⟩ := tidy.mapBlock ok inside mapped read
            have size : min data.length ((off / bsize + 1) * bsize - off) = chunk off data.length := by
              simp only [chunk, bsize]
              omega
            have place : off - off / bsize * bsize = off % bsize := by
              simp only [bsize]
              omega
            have moved := chunk_pos off none
            have most := chunk_le off data.length
            have short : (data.drop (chunk off data.length)).length =
                data.length - chunk off data.length := List.length_drop
            rw [size, place] at later
            have spec := mapped_of_bmap ok inside found
            have address : t.disk.addrOf d.typed (off / bsize) = x := spec.found
            have listed : t.disk.addrOf d.typed (off / bsize) ≠ 0 := by
              rw [address]
              exact spec.nonzero
            have data' := data_addrOf spec.ok listed
            rw [address] at data'
            obtain ⟨low, used⟩ := data'
            have tidy' := allots.tidy
            have below : x < fssize := Nat.lt_of_lt_of_le used tidy'.high
            obtain ⟨_, rfl⟩ := rsect_inside tidy'.length (Nat.le_of_lt below) read
            generalize filled : (t.sector x).store (off % bsize) (data.take (chunk off data.length)) =
              block at later
            have okay := spec.ok.put listed block
            rw [spec.found, ← locked_wsect low below] at okay
            obtain ⟨stop, bound, loop, more⟩ := ih _ (by omega) (tidy'.wsect used block) okay later
              short
            refine ⟨by omega, fun _ => ?_, ?_, allots.trans ((Allots.wsect tidy' low used _).trans more)⟩
            · by_cases last : data.length - chunk off data.length = 0
              · have size : chunk off data.length = min data.length (bsize - off % bsize) := rfl
                simp only [bsize, maxfile, ndirect, nindirect] at *
                omega
              · exact bound last
            · have block' : (t.locked i d).disk.block x = t.sector x := disk_block low
              rw [dif_neg none, found]
              change SlabStudy.Xv6.writeLoop ((t.locked i d).put x _) _ _ = _
              rw [block', filled, ← locked_wsect low below]
              exact loop
        · cases ran

/-- The loop returns if there is room for two blocks in each of its rounds. -/
theorem Tidy.appendLoop_returns {rounds : Nat} (tidy : m.Tidy) (ok : (m.locked i din).Ok)
    {off : Nat} {data : List UInt8} (limit : off + data.length ≤ maxfile * bsize)
    (enough : data.length ≤ rounds * bsize - off % bsize)
    (room : m.freeblock + 2 * rounds ≤ fssize) :
    ∃ off' din' m', m.appendLoop din off data = .ok (off', din', m') ∧
      m'.freeblock ≤ m.freeblock + 2 * rounds := by
  induction rounds generalizing m din off data with
  | zero =>
      have none : data.length = 0 := by omega
      rw [Mkfs.appendLoop, dif_pos none]
      exact ⟨_, _, _, rfl, Nat.le_refl _⟩
  | succ rounds ih =>
      rw [Mkfs.appendLoop]
      by_cases none : data.length = 0
      · rw [dif_pos none]
        exact ⟨_, _, _, rfl, Nat.le_add_right _ _⟩
      · have inside : off / bsize < maxfile := by
          simp only [bsize] at *
          omega
        obtain ⟨x, d, t, buf, mapped, read, bound⟩ := tidy.mapBlock_returns ok inside (by omega)
        obtain ⟨found, allots⟩ := tidy.mapBlock ok inside mapped read
        have spec := mapped_of_bmap ok inside found
        have address : t.disk.addrOf d.typed (off / bsize) = x := spec.found
        have listed : t.disk.addrOf d.typed (off / bsize) ≠ 0 := by
          rw [address]
          exact spec.nonzero
        have data' := data_addrOf spec.ok listed
        rw [address] at data'
        obtain ⟨low, used⟩ := data'
        have below : x < fssize := Nat.lt_of_lt_of_le used allots.tidy.high
        generalize filled : buf.store (off - off / bsize * bsize)
          (data.take (min data.length ((off / bsize + 1) * bsize - off))) = block
        have okay := spec.ok.put listed block
        rw [spec.found, ← locked_wsect low below] at okay
        have size : (data.drop (min data.length ((off / bsize + 1) * bsize - off))).length =
            data.length - min data.length ((off / bsize + 1) * bsize - off) := List.length_drop
        obtain ⟨off', d', m', loop, more⟩ := @ih _ _
          (allots.tidy.wsect used block) okay
          (off + min data.length ((off / bsize + 1) * bsize - off))
          (data.drop (min data.length ((off / bsize + 1) * bsize - off)))
          (by omega) (by simp only [bsize] at *; omega)
          (by change t.freeblock + _ ≤ _; omega)
        refine ⟨off', d', m', ?_, ?_⟩
        · rw [dif_neg none, if_pos inside, mapped]
          change (t.rsect x >>= _) = _
          rw [read]
          change (t.wsect x _).appendLoop d _ _ = _
          rw [filled]
          exact loop
        · change m'.freeblock ≤ t.freeblock + 2 * rounds at more
          omega

/-! ## iappend -/

/-- What writing file `i` does to the image. -/
structure Extends (m : Mkfs) (i : Nat) (m' : Mkfs) : Prop where
  tidy : m'.Tidy
  owned : m'.disk.Owned
  freeinode : m'.freeinode = m.freeinode
  freeblock : m.freeblock ≤ m'.freeblock
  type : (m'.dinode i).type = (m.dinode i).type
  others : ∀ j, j < slots → j ≠ i → m'.dinode j = m.dinode j
  blocks : ∀ x : Nat × Place, x.1 ≠ i → m.disk.ref x ≠ 0 →
    m'.sector (m.disk.ref x) = m.sector (m.disk.ref x)

theorem Tidy.rinode (tidy : m.Tidy) (inside : i < slots) : m.rinode i = .ok (m.dinode i) := by
  have small : iblock i < fssize := Nat.lt_trans (iblock_lt inside) (by decide)
  rw [Mkfs.rinode, tidy.rsect small]
  rfl

/-- Inodes in front of the data blocks only depend on these sectors. -/
theorem dinode_congr (low : ∀ b, b < nmeta → m'.sector b = m.sector b) (inside : i < slots) :
    m'.dinode i = m.dinode i := by
  rw [dinode, dinode, low _ (iblock_lt inside)]

theorem locked_disk (inside : i < slots) : m.locked i (m.dinode i) = m.disk.locked i := by
  rw [locked, FsDisk.locked, disk_dinode inside]

theorem ofCode_ne_free {type : Nat} (some : type ≠ 0) : InodeType.ofCode type ≠ .free := by
  unfold InodeType.ofCode
  split
  · exact absurd rfl some
  · exact InodeType.noConfusion
  · exact InodeType.noConfusion
  · exact InodeType.noConfusion

theorem allocated_of (inside : i < slots) (some : (m.dinode i).type ≠ 0) : m.disk.Allocated i := by
  refine ⟨inside, ?_⟩
  rw [disk_dinode inside]
  exact ofCode_ne_free some

/-- The bytes of file `i`. -/
def content (m : Mkfs) (i : Nat) : List UInt8 := m.disk.content (m.disk.dinode i)

theorem content_length (inside : i < slots) : (m.content i).length = (m.dinode i).size := by
  rw [content, FsDisk.content_length, disk_dinode inside]
  rfl

/-- Data is appended to file `i`. -/
structure Stores (m : Mkfs) (i : Nat) (data : List UInt8) (m' : Mkfs) : Prop
    extends Extends m i m' where
  content : m'.content i = m.content i ++ data
  kept : ∀ j, j ≠ i → m.disk.Allocated j → m'.content j = m.content j
  boot : ∀ b, b < inodestart → m'.sector b = m.sector b

/-- `iappend` is a `writei` at the end of the file. -/
theorem Tidy.iappend (tidy : m.Tidy) (owned : m.disk.Owned) (inside : i < slots)
    (type : (m.dinode i).type ≠ 0) {data : List UInt8} (some : data.length ≠ 0)
    (ran : m.iappend i data = .ok m') : Stores m i data m' := by
  have allocated := allocated_of inside type
  have ok := owned.locked allocated
  have here := locked_disk (m := m) inside
  rw [← here] at ok
  unfold Mkfs.iappend at ran
  obtain ⟨_, read, rest⟩ := bind_eq_ok.mp ran
  rw [tidy.rinode inside] at read
  cases read
  obtain ⟨⟨off, din, t⟩, looped, last⟩ := bind_eq_ok.mp rest
  obtain ⟨stop, bound, loop, allots⟩ := tidy.appendLoop ok looped
  have fits := allots.fits (Block.din_fits _ _)
  have limit : maxfile * bsize < 2 ^ 32 := by decide
  have small := bound some
  have fits' : ({ din with size := off } : Din).Fits :=
    ⟨fits.type, fits.major, fits.minor, fits.nlink, by change off < _; omega, fits.addrs⟩
  obtain ⟨_, ran', updated⟩ := allots.tidy.winode inside fits'
  have result := ran'.symm.trans last
  cases result
  have written : Locked.Wrote (m.disk.locked i) (m.dinode i).size data (t.locked i din) := by
    rcases Locked.writeLoop_spec ok (m.dinode i).size data (by omega) with
      ⟨_, loop', wrote, _⟩ | ⟨stopped, _⟩
    · rw [loop] at loop'
      cases loop'
      rw [← here]
      exact wrote
    · rw [loop] at stopped
      cases stopped
  have disk := updated.disk inside
  have length := content_length (m := m) inside
  have size : (m.disk.dinode i).size = (m.dinode i).size := by
    rw [← length, Mkfs.content, FsDisk.content_length]
  have finished := FsDisk.writei_finish owned allocated (by rw [size]) written
  have sizes : (t.locked i din).ip.size = (m.dinode i).size := by
    rw [written.ip]
    exact size
  rw [if_pos (by omega)] at finished
  have appended : (m.content i).take (m.dinode i).size ++ data ++
      (m.content i).drop ((m.dinode i).size + data.length) = m.content i ++ data := by
    rw [List.take_of_length_le (Nat.le_of_eq length), List.drop_eq_nil_of_le (by omega),
      List.append_nil]
  refine ⟨⟨updated.tidy, ?_, updated.freeinode.trans allots.freeinode,
    by rw [updated.freeblock]; exact allots.freeblock, ?_, fun j slot apart => ?_,
    fun x apart listed => ?_⟩, ?_, fun j apart allocated => ?_, fun b low => ?_⟩
  · rw [disk, stop]
    exact finished.owned
  · rw [updated.self]
    exact allots.type
  · rw [updated.others j apart]
    exact dinode_congr allots.low slot
  · have range := owned.owns.range x listed
    have low : nmeta ≤ m.disk.ref x := range.1
    have flushed := FsDisk.flush_locked m.disk i
    have kept := written.others x apart (by rw [flushed]; exact listed)
    rw [flushed] at kept
    change t.disk.block _ = m.disk.block _ at kept
    rw [disk_block low, disk_block low] at kept
    rw [updated.sector _ low, kept]
  · refine Eq.trans ?_ (finished.content.trans appended)
    rw [Mkfs.content, disk, stop]
    exact congrArg _ finished.stored
  · obtain ⟨inode, bytes⟩ := finished.others j apart
    refine Eq.trans ?_ (bytes allocated)
    rw [Mkfs.content, disk, stop]
    exact congrArg _ inode
  · rw [winode_low inside last low, allots.low b (Nat.lt_trans low (by decide))]

/-- A piece of at most a block can be appended where there is room for four blocks. -/
theorem Tidy.iappend_returns (tidy : m.Tidy) (owned : m.disk.Owned) (inside : i < slots)
    (type : (m.dinode i).type ≠ 0) {data : List UInt8} (short : data.length ≤ bsize)
    (limit : (m.content i).length + data.length ≤ maxfile * bsize)
    (room : m.freeblock + 4 ≤ fssize) :
    ∃ m', m.iappend i data = .ok m' ∧ m'.freeblock ≤ m.freeblock + 4 := by
  have ok := owned.locked (allocated_of inside type)
  rw [← locked_disk (m := m) inside] at ok
  rw [content_length inside] at limit
  have enough : data.length ≤ 2 * bsize - (m.dinode i).size % bsize := by
    simp only [bsize] at *
    omega
  obtain ⟨off, din, t, loop, bound⟩ := tidy.appendLoop_returns ok limit enough room
  obtain ⟨stop, most, _, allots⟩ := tidy.appendLoop ok loop
  have fits := allots.fits (Block.din_fits _ _)
  have small : off < 2 ^ 32 := by
    rw [stop]
    exact Nat.lt_of_le_of_lt limit (by decide)
  have fits' : ({ din with size := off } : Din).Fits :=
    ⟨fits.type, fits.major, fits.minor, fits.nlink, small, fits.addrs⟩
  obtain ⟨m', wrote, updated⟩ := allots.tidy.winode inside fits'
  refine ⟨m', ?_, by rw [updated.freeblock]; exact bound⟩
  rw [Mkfs.iappend, tidy.rinode inside]
  change (m.appendLoop (m.dinode i) (m.dinode i).size data >>= _) = _
  rw [loop]
  exact wrote

/-- The other files keep their blocks. -/
theorem Extends.ref (extended : Extends m i m') {x : Nat × Place} (apart : x.1 ≠ i) :
    m'.disk.ref x = m.disk.ref x := by
  obtain ⟨j, p⟩ := x
  by_cases slot : j < slots
  · have inode : m'.disk.dinode j = m.disk.dinode j := by
      rw [disk_dinode slot, disk_dinode slot, extended.others j slot apart]
    have same : m'.disk.Allocated j ↔ m.disk.Allocated j := by
      unfold FsDisk.Allocated
      rw [inode]
      exact Iff.rfl
    by_cases allocated : m.disk.Allocated j
    · rw [FsDisk.ref_of allocated, FsDisk.ref_of (same.mpr allocated), inode]
      refine congrFun (FsDisk.place_congr fun listed => ?_) p
      have here : m.disk.ref (j, .addr indirect) = (m.disk.dinode j).addrs indirect :=
        FsDisk.ref_of allocated _
      have some : m.disk.ref (j, .addr indirect) ≠ 0 := by rw [here]; exact listed
      have kept := extended.blocks (j, .addr indirect) apart some
      by_cases low : m.disk.ref (j, .addr indirect) < nmeta
      · rw [← here]
        exact (disk_block_low low).trans (disk_block_low low).symm
      · rw [← here, disk_block (Nat.le_of_not_lt low), disk_block (Nat.le_of_not_lt low), kept]
    · rw [FsDisk.ref, FsDisk.ref, if_neg allocated, if_neg (mt same.mp allocated)]
  · have out (d : Mkfs) : ¬ d.disk.Allocated j := fun allocated => slot allocated.1
    rw [FsDisk.ref, FsDisk.ref, if_neg (out m), if_neg (out m')]

theorem Extends.refl (tidy : m.Tidy) (owned : m.disk.Owned) : Extends m i m :=
  ⟨tidy, owned, rfl, Nat.le_refl _, rfl, fun _ _ _ => rfl, fun _ _ _ => rfl⟩

theorem Extends.trans {t : Mkfs} (first : Extends m i t) (second : Extends t i m') :
    Extends m i m' := by
  refine ⟨second.tidy, second.owned, second.freeinode.trans first.freeinode,
    Nat.le_trans first.freeblock second.freeblock, second.type.trans first.type,
    fun j slot apart => (second.others j slot apart).trans (first.others j slot apart),
    fun x apart listed => ?_⟩
  have same := first.ref apart
  have kept := second.blocks x apart (by rw [same]; exact listed)
  rw [same] at kept
  exact kept.trans (first.blocks x apart listed)

theorem Stores.refl (tidy : m.Tidy) (owned : m.disk.Owned) : Stores m i [] m :=
  ⟨.refl tidy owned, (List.append_nil _).symm, fun _ _ _ => rfl, fun _ _ => rfl⟩

theorem Extends.allocated (extended : Extends m i m') {j : Nat} (apart : j ≠ i)
    (allocated : m.disk.Allocated j) : m'.disk.Allocated j := by
  refine ⟨allocated.1, ?_⟩
  have type := allocated.2
  rw [disk_dinode allocated.1] at type ⊢
  rw [extended.others j allocated.1 apart]
  exact type

theorem Stores.trans {t : Mkfs} {first second : List UInt8} (one : Stores m i first t)
    (two : Stores t i second m') : Stores m i (first ++ second) m' := by
  refine ⟨one.toExtends.trans two.toExtends, ?_, fun j apart allocated => ?_,
    fun b low => (two.boot b low).trans (one.boot b low)⟩
  · rw [two.content, one.content, List.append_assoc]
  · rw [two.kept j apart (one.allocated apart allocated), one.kept j apart allocated]

/-- Copying a file is appending its pieces. -/
theorem Tidy.copyPieces (tidy : m.Tidy) (owned : m.disk.Owned) (inside : i < slots)
    (type : (m.dinode i).type ≠ 0) {pieces : List (List UInt8)}
    (fits : ∀ piece ∈ pieces, piece ≠ [] ∧ piece.length ≤ bsize)
    (ran : m.copyPieces i pieces = .ok m') : Stores m i pieces.flatten m' := by
  induction pieces generalizing m with
  | nil =>
      cases ran
      exact .refl tidy owned
  | cons piece rest ih =>
      rw [Mkfs.copyPieces, List.foldlM_cons] at ran
      obtain ⟨t, appended, later⟩ := bind_eq_ok.mp ran
      obtain ⟨⟨some, _⟩, others⟩ := List.forall_mem_cons.mp fits
      have first := tidy.iappend owned inside type (mt List.length_eq_zero_iff.mp some) appended
      have second := ih first.tidy first.owned (by rw [first.type]; exact type) others later
      rw [List.flatten_cons]
      exact first.trans second

/-- A file can be copied where there is room for four blocks with each piece. -/
theorem Tidy.copyPieces_returns (tidy : m.Tidy) (owned : m.disk.Owned) (inside : i < slots)
    (type : (m.dinode i).type ≠ 0) {pieces : List (List UInt8)}
    (fits : ∀ piece ∈ pieces, piece ≠ [] ∧ piece.length ≤ bsize)
    (limit : (m.content i).length + pieces.flatten.length ≤ maxfile * bsize)
    (room : m.freeblock + 4 * pieces.length ≤ fssize) :
    ∃ m', m.copyPieces i pieces = .ok m' ∧ m'.freeblock ≤ m.freeblock + 4 * pieces.length := by
  induction pieces generalizing m with
  | nil => exact ⟨m, rfl, Nat.le_refl _⟩
  | cons piece rest ih =>
      obtain ⟨⟨some, short⟩, others⟩ := List.forall_mem_cons.mp fits
      rw [List.flatten_cons, List.length_append] at limit
      rw [List.length_cons] at room ⊢
      obtain ⟨t, appended, bound⟩ := tidy.iappend_returns owned inside type short (by omega)
        (by omega)
      have first := tidy.iappend owned inside type (mt List.length_eq_zero_iff.mp some) appended
      obtain ⟨m', copied, more⟩ := ih first.tidy first.owned (by rw [first.type]; exact type) others
        (by rw [first.content, List.length_append]; omega) (by omega)
      refine ⟨m', ?_, by omega⟩
      rw [Mkfs.copyPieces, List.foldlM_cons, appended]
      exact copied

end Mkfs

end SlabStudy.Xv6
