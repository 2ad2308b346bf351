import SlabStudy.Xv6.MkfsImage

/-!
# The root directory that mkfs builds

Each input file gets the next inode and the next entry of the root directory.
In the end the size of the directory is rounded up to a multiple of the block
size, and a whole block more when it is one already: there is no such block.
Nothing stops the inodes at `NINODES` either.
-/

namespace SlabStudy.Xv6

open Library

/-! ## Directory entries in a block -/

/-- The inode number of entry `t` of a block of a directory. -/
def Block.inum (b : Block) (t : Nat) : Nat := b.byte (16 * t) + 256 * b.byte (16 * t + 1)

/-- A directory entry has sixteen bytes. -/
theorem Mkfs.length_dirent (inum : Nat) (name : List UInt8) : (dirent inum name).length = 16 := by
  simp only [dirent, List.length_append, List.length_cons, List.length_nil, List.length_take,
    List.length_replicate, dirsiz]
  omega

namespace Block

theorem byte_store_inside (b : Block) {start k : Nat} {data : List UInt8} (inside : k < data.length)
    (fits : start + data.length ≤ bsize) : (b.store start data).byte (start + k) = data[k].toNat := by
  have offset : (Fin.ofNat bsize (start + k)).val = start + k := Nat.mod_eq_of_lt (by omega)
  rw [byte, Locked.store_inside b offset inside]

theorem byte_store_outside (b : Block) {start k : Nat} {data : List UInt8} (small : k < bsize)
    (outside : k < start ∨ start + data.length ≤ k) : (b.store start data).byte k = b.byte k := by
  have offset : (Fin.ofNat bsize k).val = k := Nat.mod_eq_of_lt small
  rw [byte, Locked.store_outside b (by rw [offset]; exact outside), byte]

/-- The entry that has been stored. -/
theorem inum_store_self (b : Block) {t inum : Nat} (name : List UInt8) (slot : t < 32)
    (small : inum < 65536) : (b.store (16 * t) (Mkfs.dirent inum name)).inum t = inum := by
  have length := Mkfs.length_dirent inum name
  have fits : 16 * t + (Mkfs.dirent inum name).length ≤ bsize := by
    simp only [length, bsize]
    omega
  have low := b.byte_store_inside (by omega : 0 < (Mkfs.dirent inum name).length) fits
  have high := b.byte_store_inside (by omega : 1 < (Mkfs.dirent inum name).length) fits
  rw [Nat.add_zero] at low
  rw [Block.inum, low, high]
  change (UInt8.ofNat inum).toNat + 256 * (UInt8.ofNat (inum / 256)).toNat = inum
  rw [UInt8.toNat_ofNat', UInt8.toNat_ofNat']
  omega

/-- The other entries of the block. -/
theorem inum_store_other (b : Block) {t u inum : Nat} (name : List UInt8) (slot : t < 32)
    (apart : t ≠ u) : (b.store (16 * u) (Mkfs.dirent inum name)).inum t = b.inum t := by
  have length := Mkfs.length_dirent inum name
  rw [Block.inum, Block.inum, b.byte_store_outside (by simp only [bsize]; omega) (by omega),
    b.byte_store_outside (by simp only [bsize]; omega) (by omega)]

theorem inum_zero (t : Nat) : Block.zero.inum t = 0 := rfl

end Block

namespace Mkfs

variable {m m' : Mkfs} {e n : Nat}

/-! ## Appending an entry -/

/-- The block of the root directory that the entry `e` goes to. -/
def entryBlock (m : Mkfs) (e : Nat) : Nat :=
  if (m.dinode rootino).addrs (Fin.ofNat (ndirect + 1) (e / 32)) = 0 then m.freeblock
  else (m.dinode rootino).addrs (Fin.ofNat (ndirect + 1) (e / 32))

/-- The image after sixteen bytes have been appended to the root directory. -/
structure Appended (m : Mkfs) (e : Nat) (data : List UInt8) (m' : Mkfs) : Prop where
  room : m.entryBlock e < fssize
  size : (m'.dinode rootino).size = 16 * (e + 1)
  addrs : (m'.dinode rootino).addrs = Function.update (m.dinode rootino).addrs
    (Fin.ofNat (ndirect + 1) (e / 32)) (m.entryBlock e)
  sector : ∀ b, nmeta ≤ b → m'.sector b = Function.update m.sector (m.entryBlock e)
    ((m.sector (m.entryBlock e)).store (16 * (e % 32)) data) b
  freeblock : m'.freeblock ≤ m.freeblock + 1

/-- The loop of `iappend` for sixteen bytes that do not reach into the next block. -/
theorem appendLoop_entry {t : Mkfs} {din din' : Din} {data : List UInt8} {x : Nat}
    (length : data.length = 16) (few : e < 32 * maxfile)
    (mapped : m.mapBlock din (e / 32) = .ok (x, din', t)) :
    m.appendLoop din (16 * e) data = t.rsect x >>= fun buf =>
      .ok (16 * (e + 1), din', t.wsect x (buf.store (16 * (e % 32)) data)) := by
  have block : 16 * e / bsize = e / 32 := by
    simp only [bsize]
    omega
  have whole : min data.length ((e / 32 + 1) * bsize - 16 * e) = data.length := by
    simp only [length, bsize]
    omega
  have offset : 16 * e - e / 32 * bsize = 16 * (e % 32) := by
    simp only [bsize]
    omega
  have inside : e / 32 < maxfile := by omega
  rw [Mkfs.appendLoop, dif_neg (by omega), block, if_pos inside, mapped]
  change (t.rsect x >>= _) = _
  refine congrArg (t.rsect x >>= ·) (funext fun buf => ?_)
  rw [whole, offset, List.take_length, List.drop_length, Mkfs.appendLoop,
    dif_pos List.length_nil, length]
  rfl

/-- The blocks that the root directory lists are data blocks in use. -/
theorem root_block (owned : m.disk.Owned) (type : (m.dinode rootino).type ≠ 0)
    {k : Fin (ndirect + 1)} (some : (m.dinode rootino).addrs k ≠ 0) :
    nmeta ≤ (m.dinode rootino).addrs k ∧ (m.dinode rootino).addrs k < m.freeblock := by
  have inside : rootino < slots := by decide
  have ok := owned.locked (allocated_of inside type)
  rw [← locked_disk inside] at ok
  exact data_block (p := .addr k) ok some

/-- Finding or allotting the block of the entry `e`. -/
theorem mapBlock_entry (tidy : m.Tidy) (owned : m.disk.Owned) (type : (m.dinode rootino).type ≠ 0)
    (few : e < 32 * ndirect) :
    ∃ t, m.mapBlock (m.dinode rootino) (e / 32) = .ok (m.entryBlock e,
        { m.dinode rootino with
          addrs := Function.update (m.dinode rootino).addrs (Fin.ofNat (ndirect + 1) (e / 32))
            (m.entryBlock e) }, t) ∧
      t.sector = m.sector ∧ t.length = m.length ∧ t.freeblock ≤ m.freeblock + 1 ∧
      nmeta ≤ m.entryBlock e ∧ m.entryBlock e ≤ fssize ∧
      (m.entryBlock e < fssize → t.Tidy ∧ m.entryBlock e < t.freeblock) := by
  have direct : e / 32 < ndirect := by omega
  unfold mapBlock entryBlock
  rw [if_pos direct]
  dsimp only
  by_cases none : (m.dinode rootino).addrs (Fin.ofNat (ndirect + 1) (e / 32)) = 0
  · rw [if_pos none]
    simp only [if_pos none]
    exact ⟨_, rfl, rfl, rfl, Nat.le_refl _, tidy.low, tidy.high, fun room =>
      ⟨tidy.takeBlock room, Nat.lt_succ_self _⟩⟩
  · obtain ⟨low, used⟩ := root_block owned type none
    rw [if_neg none]
    simp only [if_neg none, Function.update_eq_self]
    exact ⟨_, rfl, rfl, rfl, Nat.le_succ _, low, Nat.le_trans (Nat.le_of_lt used) tidy.high,
      fun _ => ⟨tidy, used⟩⟩

/-- An entry can be appended if and only if its block lies inside the image. -/
theorem iappend_entry (tidy : m.Tidy) (owned : m.disk.Owned) (type : (m.dinode rootino).type ≠ 0)
    (size : (m.dinode rootino).size = 16 * e) (few : e < 32 * ndirect) {data : List UInt8}
    (length : data.length = 16) :
    (m.entryBlock e < fssize → ∃ m', m.iappend rootino data = .ok m') ∧
      ∀ m', m.iappend rootino data = .ok m' → Appended m e data m' := by
  have inside : rootino < slots := by decide
  have many : e < 32 * maxfile := by
    simp only [maxfile, ndirect, nindirect] at *
    omega
  obtain ⟨t, mapped, sectors, long, bound, low, high, good⟩ := mapBlock_entry tidy owned type few
  have fits := (m.sector (iblock rootino)).din_fits (rootino % ipb)
  change (m.dinode rootino).Fits at fits
  have small : (16 * (e + 1)) < 2 ^ 32 := by
    simp only [ndirect] at few
    omega
  generalize block : m.entryBlock e = x at *
  have looped := appendLoop_entry length many mapped
  have ran : m.iappend rootino data = t.rsect x >>= fun buf =>
      (t.wsect x (buf.store (16 * (e % 32)) data)).winode rootino { m.dinode rootino with
        size := 16 * (e + 1)
        addrs := Function.update (m.dinode rootino).addrs (Fin.ofNat (ndirect + 1) (e / 32)) x } := by
    rw [Mkfs.iappend, tidy.rinode inside]
    change (m.appendLoop (m.dinode rootino) (m.dinode rootino).size data >>= _) = _
    rw [size, looped]
    cases t.rsect x with
    | error reason => rfl
    | ok buf => rfl
  have wrote (room : x < fssize) : ∃ m', m.iappend rootino data = .ok m' ∧ Appended m e data m' := by
    obtain ⟨tidy', used⟩ := good room
    have fits' : ({ m.dinode rootino with
        size := 16 * (e + 1)
        addrs := Function.update (m.dinode rootino).addrs (Fin.ofNat (ndirect + 1) (e / 32)) x } :
        Din).Fits := by
      refine ⟨fits.type, fits.major, fits.minor, fits.nlink, small, fun k => ?_⟩
      by_cases here : k = Fin.ofNat (ndirect + 1) (e / 32)
      · subst here
        simp only [Function.update_self]
        exact Nat.lt_trans room (by decide)
      · simp only [Function.update_of_ne here]
        exact fits.addrs k
    obtain ⟨m', stored, written⟩ := (tidy'.wsect used
      ((m.sector x).store (16 * (e % 32)) data)).winode inside fits'
    refine ⟨m', ?_, by rw [block]; exact room, ?_, ?_, fun b data' => ?_, ?_⟩
    · rw [ran, tidy'.rsect room, sectors]
      exact stored
    · rw [written.self]
    · rw [written.self, block]
    · rw [written.sector b data', wsect_sector t room, sectors, block]
    · rw [written.freeblock]
      exact bound
  refine ⟨fun room => ?_, fun m' done => ?_⟩
  · obtain ⟨m', done, _⟩ := wrote room
    exact ⟨m', done⟩
  · obtain ⟨buf, read, _⟩ := bind_eq_ok.mp (ran.symm.trans done)
    obtain ⟨_, done', appended⟩ := wrote (rsect_inside (long.trans tidy.length) high read).1
    cases done'.symm.trans done
    exact appended

/-! ## The entries -/

/-- The slot of the inode that lists block `k` of the root directory. -/
def rootAddr (m : Mkfs) (k : Nat) : Nat := (m.dinode rootino).addrs (Fin.ofNat (ndirect + 1) k)

/--
The root directory has `e` entries, in as few blocks as possible: the first
two name the root, entry `j` names inode `j`, and the others are free.
-/
structure Root (m : Mkfs) (e : Nat) : Prop where
  type : (m.dinode rootino).type ≠ 0
  size : (m.dinode rootino).size = 16 * e
  blocks : ∀ k, k ≤ ndirect → (m.rootAddr k ≠ 0 ↔ k * 32 < e)
  entry : ∀ j, j / 32 * 32 < e → j < 32 * ndirect →
    (m.sector (m.rootAddr (j / 32))).inum (j % 32) = if j < e then max 1 j else 0

theorem rootAddr_eq {k : Nat} {addrs : Fin (ndirect + 1) → Nat} {a x : Nat} (small : k ≤ ndirect)
    (few : a ≤ ndirect) (same : (m'.dinode rootino).addrs = Function.update addrs
      (Fin.ofNat (ndirect + 1) a) x) :
    m'.rootAddr k = if k = a then x else addrs (Fin.ofNat (ndirect + 1) k) := by
  rw [rootAddr, same]
  split
  · next here =>
      rw [here, Function.update_self]
  · next apart =>
      refine Function.update_of_ne (fun clash => apart ?_) _ _
      have values := congrArg Fin.val clash
      rw [Fin.val_ofNat, Fin.val_ofNat, Nat.mod_eq_of_lt (Nat.lt_succ_of_le small),
        Nat.mod_eq_of_lt (Nat.lt_succ_of_le few)] at values
      exact values

/-- No block is listed twice in the root directory. -/
theorem root_once (owned : m.disk.Owned) (type : (m.dinode rootino).type ≠ 0) {j k : Nat}
    (first : j ≤ ndirect) (second : k ≤ ndirect) (some : m.rootAddr j ≠ 0)
    (same : m.rootAddr j = m.rootAddr k) : j = k := by
  have inside : rootino < slots := by decide
  have ref (k : Nat) : m.disk.ref (rootino, .addr (Fin.ofNat (ndirect + 1) k)) = m.rootAddr k := by
    rw [FsDisk.ref_of (allocated_of inside type), disk_dinode inside]
    rfl
  have once := owned.owns.once (rootino, .addr (Fin.ofNat (ndirect + 1) j))
    (rootino, .addr (Fin.ofNat (ndirect + 1) k)) (by rw [ref]; exact some) (by rw [ref, ref, same])
  have values := congrArg Fin.val (Place.addr.inj (Prod.mk.inj once).2)
  rw [Fin.val_ofNat, Fin.val_ofNat, Nat.mod_eq_of_lt (Nat.lt_succ_of_le first),
    Nat.mod_eq_of_lt (Nat.lt_succ_of_le second)] at values
  exact values

/-- The next entry names inode `e`, or the root directory. -/
theorem Root.append (root : m.Root e) (tidy : m.Tidy) (owned : m.disk.Owned)
    (few : e < 32 * ndirect) {name : List UInt8}
    (ran : m.iappend rootino (dirent (max 1 e) name) = .ok m') : m'.Root (e + 1) := by
  have inside : rootino < slots := by decide
  have length := length_dirent (max 1 e) name
  have appended := (iappend_entry tidy owned root.type root.size few length).2 m' ran
  have extended := tidy.iappend owned inside root.type (by omega) ran
  have above : e / 32 ≤ ndirect := by omega
  obtain ⟨_, _, _, _, _, low, high, _⟩ := mapBlock_entry tidy owned root.type few
  have block (k : Nat) (small : k ≤ ndirect) :
      m'.rootAddr k = if k = e / 32 then m.entryBlock e else m.rootAddr k :=
    rootAddr_eq small above appended.addrs
  refine ⟨by rw [extended.type]; exact root.type, appended.size, fun k small => ?_,
    fun j before inner => ?_⟩
  · have old := root.blocks k small
    rw [block k small]
    split
    · next here =>
        have positive : m.entryBlock e ≠ 0 := by
          rw [nmeta_eq] at low
          omega
        exact iff_of_true positive (by omega)
    · rw [old]
      omega
  · have small : j / 32 ≤ ndirect := by omega
    have slot : j % 32 < 32 := Nat.mod_lt _ (by decide)
    rw [block _ small]
    by_cases here : j / 32 = e / 32
    · rw [if_pos here, appended.sector _ low, Function.update_self]
      by_cases self : j = e
      · subst self
        rw [Block.inum_store_self _ _ slot (by simp only [ndirect] at few; omega),
          if_pos (Nat.lt_succ_self _)]
      · rw [Block.inum_store_other _ _ slot (by omega)]
        have address : m.entryBlock e = if m.rootAddr (e / 32) = 0 then m.freeblock
          else m.rootAddr (e / 32) := rfl
        have old := root.blocks (e / 32) above
        by_cases fresh : m.rootAddr (e / 32) = 0
        · -- the block is new, and the entry is its first one
          have first : ¬ e / 32 * 32 < e := fun more => old.mpr more fresh
          have room := appended.room
          rw [address, if_pos fresh] at room ⊢
          rw [tidy.zero _ (Nat.le_refl _) room, Block.inum_zero, if_neg (by omega)]
        · rw [address, if_neg fresh, ← here, root.entry j (by have := old.mp fresh; omega) inner]
          exact if_congr (by omega) rfl rfl
    · have older : j / 32 * 32 < e := by omega
      have listed := (root.blocks _ small).mpr older
      rw [if_neg here, appended.sector, Function.update_of_ne, root.entry j older inner]
      · exact if_congr (by omega) rfl rfl
      · unfold entryBlock
        split
        · exact Nat.ne_of_lt (root_block owned root.type listed).2
        · exact fun same => here (root_once owned root.type small above listed same)
      · exact (root_block owned root.type listed).1

/-- The root directory only depends on its inode and its blocks. -/
theorem Root.congr (root : m.Root e) (inode : m'.dinode rootino = m.dinode rootino)
    (blocks : ∀ k, m.rootAddr k ≠ 0 → m'.sector (m.rootAddr k) = m.sector (m.rootAddr k)) :
    m'.Root e := by
  have addr (k : Nat) : m'.rootAddr k = m.rootAddr k := by rw [rootAddr, inode, rootAddr]
  refine ⟨by rw [inode]; exact root.type, by rw [inode]; exact root.size, fun k small => ?_,
    fun j before inner => ?_⟩
  · rw [addr]
    exact root.blocks k small
  · have listed := (root.blocks (j / 32) (by omega)).mpr before
    rw [addr, blocks _ listed]
    exact root.entry j before inner

/-- Writing another file. -/
theorem Root.extends {i : Nat} (root : m.Root e) (extended : Extends m i m') (apart : rootino ≠ i) :
    m'.Root e := by
  have inside : rootino < slots := by decide
  refine root.congr (extended.others rootino inside apart) fun k listed => ?_
  have ref : m.disk.ref (rootino, .addr (Fin.ofNat (ndirect + 1) k)) = m.rootAddr k := by
    rw [FsDisk.ref_of (allocated_of inside root.type), disk_dinode inside]
    rfl
  have kept := extended.blocks (rootino, .addr (Fin.ofNat (ndirect + 1) k)) apart
    (by rw [ref]; exact listed)
  rw [ref] at kept
  exact kept

/-! ## ialloc -/

/-- An inode without blocks is written over one that is free. -/
theorem Winode.owned {i : Nat} {din : Din} (wrote : Winode m i din m') (owned : m.disk.Owned)
    (inside : i < slots) (free : (m.dinode i).type = 0) (size : din.size = 0)
    (addrs : ∀ k, din.addrs k = 0) : m'.disk.Owned := by
  have empty (p : Place) : m.disk.place din.typed p = 0 := by
    cases p with
    | addr k => exact addrs k
    | entry k => exact if_pos (addrs indirect)
  have unallocated : ¬ m.disk.Allocated i := by
    rintro ⟨_, used⟩
    rw [disk_dinode inside] at used
    refine used ?_
    change InodeType.ofCode (m.dinode i).type = .free
    rw [free]
    rfl
  have refs : (fun x : Nat × Place => if x.1 = i then
      if i < m.disk.sb.ninodes ∧ din.typed.type ≠ .free then m.disk.place din.typed x.2 else 0
      else m.disk.ref x) = m.disk.ref := by
    funext ⟨j, p⟩
    by_cases self : j = i
    · subst self
      rw [FsDisk.ref, if_neg unallocated, if_pos rfl, empty, ite_self]
    · rw [if_neg self]
  rw [wrote.disk inside]
  refine owned.replace i din.typed m.disk.bit ?_ fun _ bn below => ?_
  · rw [refs]
    exact owned.owns
  · change bn * bsize < din.size at below
    omega

end Mkfs

end SlabStudy.Xv6
