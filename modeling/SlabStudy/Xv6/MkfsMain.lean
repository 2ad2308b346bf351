import SlabStudy.Xv6.MkfsRoot

/-!
# When mkfs builds a well-formed image

The loop over the input files keeps the image in order as long as the inodes
stay in front of the data blocks.  The image is well formed unless an inode
number reaches `NINODES` or the root directory fills its last block, in which
case its size is rounded up over a block that it does not have.
-/

namespace SlabStudy.Xv6

open Library

namespace Mkfs

variable {m m' : Mkfs} {e n : Nat}

/-! ## The loop over the files -/

/-- The image after `n` inodes and `e` entries of the root directory. -/
structure Built (m : Mkfs) (n e : Nat) : Prop where
  tidy : m.Tidy
  owned : m.disk.Owned
  freeinode : m.freeinode = n
  small : n ≤ slots
  used : ∀ i, 0 < i → i < n → (m.dinode i).type ≠ 0
  fresh : ∀ i, i < slots → i = 0 ∨ n ≤ i → m.dinode i = .zero
  root : m.Root e

/-- An inode is allotted, and nothing else changes. -/
theorem ialloc_spec (tidy : m.Tidy) (owned : m.disk.Owned) (inside : m.freeinode < slots)
    (fresh : (m.dinode m.freeinode).type = 0) {type : Nat} (small : type < 65536) :
    ∃ m', m.ialloc type = .ok (m.freeinode, m') ∧ m'.disk.Owned ∧
      Winode { m with freeinode := m.freeinode + 1 } m.freeinode
        { Din.zero with type := type, nlink := 1 } m' := by
  have fits : ({ Din.zero with type := type, nlink := 1 } : Din).Fits :=
    ⟨small, Nat.zero_lt_succ _, Nat.zero_lt_succ _, by change 1 < 65536; decide,
      Nat.pow_pos (by decide), fun _ => Nat.pow_pos (by decide)⟩
  have tidy' : Tidy { m with freeinode := m.freeinode + 1 } :=
    ⟨tidy.length, tidy.low, tidy.high, tidy.zero⟩
  obtain ⟨m', ran, wrote⟩ := tidy'.winode inside fits
  refine ⟨m', ?_, wrote.owned owned inside fresh rfl fun _ => rfl, wrote⟩
  rw [ialloc, ran]
  rfl

/-- The next entry of the root directory. -/
theorem Built.entry (built : m.Built n e) (few : e < 32 * ndirect) (some : 1 < n) {name : List UInt8}
    (ran : m.iappend rootino (dirent (max 1 e) name) = .ok m') : m'.Built n (e + 1) := by
  have inside : rootino < slots := by decide
  have length := length_dirent (max 1 e) name
  have extended := built.tidy.iappend built.owned inside built.root.type (by omega) ran
  refine ⟨extended.tidy, extended.owned, extended.freeinode.trans built.freeinode,
    built.small, fun i positive below => ?_, fun i slot free => ?_,
    built.root.append built.tidy built.owned few ran⟩
  · by_cases self : i = rootino
    · rw [self, extended.type]
      exact built.root.type
    · rw [extended.others i (Nat.lt_of_lt_of_le below built.small) self]
      exact built.used i positive below
  · rw [extended.others i slot ?_]
    · exact built.fresh i slot free
    · change i ≠ 1
      omega

/-- The next inode. -/
theorem Built.ialloc (built : m.Built n e) (some : 1 < n) (more : n < slots) :
    ∃ m', m.ialloc 2 = .ok (n, m') ∧ m'.Built (n + 1) e ∧ m'.freeblock = m.freeblock := by
  have inside : m.freeinode < slots := by
    rw [built.freeinode]
    exact more
  have zero := built.fresh m.freeinode inside (.inr (Nat.le_of_eq built.freeinode.symm))
  obtain ⟨m', ran, owned, wrote⟩ := ialloc_spec built.tidy built.owned inside (by rw [zero]; rfl)
    (by decide : 2 < 65536)
  rw [built.freeinode] at ran wrote
  refine ⟨m', ran, ⟨wrote.tidy, owned, wrote.freeinode, more, fun i positive below => ?_,
    fun i slot free => ?_, built.root.congr (wrote.others rootino (by change 1 ≠ n; omega))
      fun k listed => ?_⟩, wrote.freeblock⟩
  · by_cases self : i = n
    · rw [self, wrote.self]
      exact Nat.succ_ne_zero _
    · rw [wrote.others i self]
      exact built.used i positive (by omega)
  · rw [wrote.others i (by omega)]
    exact built.fresh i slot (by omega)
  · exact wrote.sector _ (root_block built.owned built.root.type listed).1

/-- The new inode is an empty file, and the other files keep their content. -/
theorem Built.ialloc_file (built : m.Built n n) (more : n < slots)
    (ran : m.ialloc 2 = .ok (n, m')) : m'.sector 1 = m.sector 1 ∧ (m'.dinode n).type = 2 ∧
      m'.content n = [] ∧ ∀ j, j < slots → j ≠ n →
        m'.dinode j = m.dinode j ∧ m'.content j = m.content j := by
  have inside : m.freeinode < slots := by
    rw [built.freeinode]
    exact more
  have zero := built.fresh m.freeinode inside (.inr (Nat.le_of_eq built.freeinode.symm))
  obtain ⟨t, ran', _, wrote⟩ := ialloc_spec built.tidy built.owned inside (by rw [zero]; rfl)
    (by decide : 2 < 65536)
  rw [built.freeinode] at ran' wrote
  cases ran.symm.trans ran'
  obtain ⟨_, first, last⟩ := bind_eq_ok.mp ran
  obtain ⟨_, same⟩ := Prod.mk.inj (Except.ok.inj last)
  rw [built.freeinode, same] at first
  have disk := wrote.disk more
  have own : (m'.disk.dinode n).size = 0 := by
    rw [disk_dinode more, wrote.self]
    rfl
  refine ⟨winode_low more first (by decide), ?_, ?_, fun j slot apart => ⟨wrote.others j apart, ?_⟩⟩
  · rw [wrote.self]
  · refine List.length_eq_zero_iff.mp ?_
    rw [Mkfs.content, FsDisk.content_length, own]
  · have inode : m'.disk.dinode j = m.disk.dinode j := by
      rw [disk]
      exact Function.update_of_ne apart ..
    rw [Mkfs.content, inode, disk]
    rfl

/-- The content of the file that was added last. -/
theorem Built.copyPieces (built : m.Built (n + 1) e) (some : 1 < n) {pieces : List (List UInt8)}
    (fits : ∀ piece ∈ pieces, piece ≠ [] ∧ piece.length ≤ bsize)
    (ran : m.copyPieces n pieces = .ok m') : m'.Built (n + 1) e := by
  have inside : n < slots := built.small
  have type := built.used n (by omega) (Nat.lt_succ_self n)
  have extended := built.tidy.copyPieces built.owned inside type fits ran
  refine ⟨extended.tidy, extended.owned, extended.freeinode.trans built.freeinode, built.small,
    fun i positive below => ?_, fun i slot free => ?_,
    built.root.extends extended.toExtends (by change 1 ≠ n; omega)⟩
  · by_cases self : i = n
    · rw [self, extended.type]
      exact type
    · rw [extended.others i (Nat.lt_of_lt_of_le below built.small) self]
      exact built.used i positive below
  · rw [extended.others i slot (by omega)]
    exact built.fresh i slot free

/-- One round of the loop over the input files. -/
theorem Built.addReads (built : m.Built n n) (some : 1 < n) (more : n < slots) {file : InputReads}
    (ran : m.addReads file = .ok m') : m'.Built (n + 1) (n + 1) := by
  unfold Mkfs.addReads at ran
  split at ran
  · cases ran
  · obtain ⟨⟨inum, t⟩, first, rest⟩ := bind_eq_ok.mp ran
    obtain ⟨_, first', built', _⟩ := built.ialloc some more
    cases first'.symm.trans first
    obtain ⟨u, appended, copied⟩ := bind_eq_ok.mp rest
    have next : max 1 n = n := by omega
    have few : n < 32 * ndirect := Nat.lt_trans more (by decide)
    have entered : u.Built (n + 1) (n + 1) := by
      rw [← next] at appended
      exact built'.entry few (Nat.lt_succ_of_lt some) appended
    exact entered.copyPieces some file.fits copied

/-- The whole loop. -/
theorem Built.foldlM (built : m.Built n n) (some : 1 < n) {files : List InputReads}
    (few : n + files.length ≤ slots) (ran : files.foldlM Mkfs.addReads m = .ok m') :
    m'.Built (n + files.length) (n + files.length) := by
  induction files generalizing m n with
  | nil =>
      cases ran
      exact built
  | cons file rest ih =>
      rw [List.foldlM_cons] at ran
      obtain ⟨t, first, later⟩ := bind_eq_ok.mp ran
      rw [List.length_cons] at few ⊢
      have next := ih (built.addReads some (by omega) first) (by omega) (by omega) later
      rw [Nat.add_right_comm n 1, Nat.add_assoc] at next
      exact next

/-! ## The root directory -/

theorem zero_din (k : Nat) : Block.zero.din k = .zero := by
  have zero (i : Nat) : Block.zero.word i = 0 := rfl
  simp only [Block.din, zero]
  rfl

theorem start_sector {b : Nat} (apart : b ≠ 1) : start.sector b = .zero := by
  simp only [start, Function.update_of_ne apart]

theorem start_dinode (i : Nat) : start.dinode i = .zero := by
  have apart : iblock i ≠ 1 := by
    rw [iblock_eq]
    omega
  rw [dinode, start_sector apart, zero_din]

theorem start_tidy : start.Tidy :=
  ⟨rfl, Nat.le_refl _, by decide, fun b data _ => start_sector (by
    change 59 ≤ b at data
    omega)⟩

/-- The image of zeroes has no inodes and no blocks. -/
theorem start_owned : start.disk.Owned := by
  have none (i : Nat) : start.disk.dinode i = .zero := by
    by_cases slot : i < slots
    · rw [disk_dinode slot, start_dinode]
      rfl
    · exact disk_dinode_out slot
  refine FsDisk.owned_of_empty (fun i => ?_) (fun i => ?_) (fun _ => rfl) (by decide)
  · rw [none i]
    rfl
  · rw [none i]
    rfl

/-- The root directory before it has entries. -/
theorem start_ialloc : ∃ m, start.ialloc 1 = .ok (rootino, m) ∧ m.Built 2 0 ∧
    m.freeblock = nmeta := by
  have inside : start.freeinode < slots := by decide
  obtain ⟨m, ran, owned, wrote⟩ := ialloc_spec start_tidy start_owned inside
    (by rw [start_dinode]; rfl) (by decide : 1 < 65536)
  have self : m.dinode rootino = { Din.zero with type := 1, nlink := 1 } := wrote.self
  have address (k : Nat) : m.rootAddr k = 0 := by
    rw [rootAddr, self]
    rfl
  refine ⟨m, ran, ⟨wrote.tidy, owned, wrote.freeinode, by decide, fun i positive below => ?_,
    fun i slot free => ?_, ⟨by rw [self]; exact Nat.one_ne_zero, by rw [self]; rfl,
      fun k _ => ?_, fun j none => absurd none (Nat.not_lt_zero _)⟩⟩, wrote.freeblock⟩
  · have first : i = rootino := by
      change i = 1
      omega
    rw [first, self]
    exact Nat.one_ne_zero
  · rw [wrote.others i (by change i ≠ 1; omega)]
    exact start_dinode i
  · exact iff_of_false (fun some => some (address k)) (Nat.not_lt_zero _)

theorem built_makeRoot (ran : start.makeRoot = .ok m) : m.Built 2 2 := by
  obtain ⟨t, first, built, _⟩ := start_ialloc
  rw [makeRoot, first] at ran
  change (t.iappend rootino (dirent (max 1 0) [0x2e]) >>= fun m =>
    m.iappend rootino (dirent (max 1 1) [0x2e, 0x2e])) = _ at ran
  obtain ⟨u, dot, dotdot⟩ := bind_eq_ok.mp ran
  have one := built.entry (by decide) (by decide) dot
  exact one.entry (by decide) (by decide) dotdot

/-! ## The free map -/

end Mkfs

/-- The bit of block `n` in a block of the free map. -/
def Block.marked (b : Block) (n : Nat) : Bool := (b.byte (n / 8)).testBit (n % 8)

namespace Mkfs

variable {m m' : Mkfs} {e n : Nat}

theorem bitmap_succ (used : Nat) : bitmap (used + 1) =
    Function.update (bitmap used) (Fin.ofNat bsize (used / 8))
      (bitmap used (Fin.ofNat bsize (used / 8)) ||| 1 <<< UInt8.ofNat (used % 8)) := by
  rw [bitmap, List.range_succ, List.foldl_append]
  rfl

theorem bit_toNat : ∀ k : Fin 8, ((1 : UInt8) <<< UInt8.ofNat k.val).toNat = 2 ^ k.val := by
  decide

/-- The bits of the blocks in use. -/
theorem marked_bitmap {used b : Nat} (small : used ≤ bsize * 8) (inside : b < bsize * 8) :
    (bitmap used).marked b = decide (b < used) := by
  simp only [bsize] at small inside
  induction used with
  | zero =>
      change Nat.testBit 0 _ = _
      simp
  | succ used ih =>
      have before := ih (by omega)
      unfold Block.marked Block.byte at before ⊢
      rw [bitmap_succ]
      have index (n : Nat) (few : n < 4096) : (Fin.ofNat bsize (n / 8)).val = n / 8 :=
        Nat.mod_eq_of_lt (by simp only [bsize]; omega)
      by_cases same : b / 8 = used / 8
      · rw [same] at before ⊢
        rw [Function.update_self, UInt8.toNat_or, Nat.testBit_or, before,
          bit_toNat ⟨used % 8, Nat.mod_lt _ (by decide)⟩, Nat.testBit_two_pow, ← Bool.decide_or]
        refine decide_eq_decide.mpr ?_
        change b < used ∨ used % 8 = b % 8 ↔ b < used + 1
        omega
      · rw [Function.update_of_ne, before]
        · exact decide_eq_decide.mpr (by omega)
        · intro clash
          have values := congrArg Fin.val clash
          rw [index b inside, index used (by omega)] at values
          exact same values

/-! ## The finished image -/

/-- The address that a dinode or its indirect block holds. -/
def address (m : Mkfs) (i : Nat) : Place → Nat
  | .addr k => (m.dinode i).addrs k
  | .entry k =>
      if (m.dinode i).addrs indirect = 0 then 0
      else (m.sector ((m.dinode i).addrs indirect)).word k

/-- The address of the `bn`th block of a file, or 0. -/
def blockOf (m : Mkfs) (i bn : Nat) : Nat := (FsDisk.index bn).elim 0 (m.address i)

/-- The inode number in entry `j` of the root directory; a block that is missing has none. -/
def rootEntry (m : Mkfs) (j : Nat) : Nat :=
  if m.blockOf rootino (j / 32) = 0 then 0
  else (m.sector (m.blockOf rootino (j / 32))).inum (j % 32)

/-- What the kernel relies on. -/
structure WellFormed (m : Mkfs) : Prop where
  entries : ∀ j, j < (m.dinode rootino).size / 16 → m.rootEntry j ≠ 0 →
    m.rootEntry j < ninodes ∧ (m.dinode (m.rootEntry j)).type ≠ 0
  range : ∀ i p, i < ninodes → m.address i p ≠ 0 → nmeta ≤ m.address i p ∧ m.address i p < fssize
  once : ∀ i p j q, i < ninodes → j < ninodes → m.address i p ≠ 0 →
    m.address i p = m.address j q → (i, p) = (j, q)
  bitmap : ∀ b, b < bsize * 8 → ((m.sector bmapstart).marked b = true ↔ b < m.freeblock)
  full : ∀ i bn, i < ninodes → bn * bsize < (m.dinode i).size → m.blockOf i bn ≠ 0

/-- What the last steps of the program change. -/
structure Finished (m : Mkfs) (e : Nat) (m' : Mkfs) : Prop where
  root : m'.dinode rootino = { m.dinode rootino with size := (e / 32 + 1) * bsize }
  others : ∀ i, i < ninodes → i ≠ rootino → m'.dinode i = m.dinode i
  sector : ∀ b, nmeta ≤ b → m'.sector b = m.sector b
  bitmap : m'.sector bmapstart = Mkfs.bitmap m.freeblock
  freeblock : m'.freeblock = m.freeblock

theorem Built.finish (built : m.Built n e) (few : e ≤ 32 * ndirect) :
    ∃ m', m.finish = .ok m' ∧ Finished m e m' := by
  have inside : rootino < slots := by decide
  have size : (m.dinode rootino).size / bsize + 1 = e / 32 + 1 := by
    rw [built.root.size]
    simp only [bsize]
    omega
  have fits := (m.sector (iblock rootino)).din_fits (rootino % ipb)
  have fits' : ({ m.dinode rootino with size := (e / 32 + 1) * bsize } : Din).Fits := by
    refine ⟨fits.type, fits.major, fits.minor, fits.nlink, ?_, fits.addrs⟩
    simp only [bsize, ndirect] at *
    omega
  obtain ⟨t, ran, wrote⟩ := built.tidy.winode inside fits'
  have high := built.tidy.high
  have small : t.freeblock < bsize * 8 := by
    rw [wrote.freeblock]
    exact Nat.lt_of_le_of_lt high (by decide)
  have low : bmapstart < fssize := by decide
  have sectors := wsect_sector t low (Mkfs.bitmap t.freeblock)
  have inode (i : Nat) (few : i < ninodes) :
      (t.wsect bmapstart (Mkfs.bitmap t.freeblock)).dinode i = t.dinode i := by
    have apart : iblock i ≠ bmapstart := by
      rw [iblock_eq]
      change _ ≠ 58
      simp only [ninodes] at few
      omega
    rw [dinode, dinode, sectors, Function.update_of_ne apart]
  refine ⟨t.wsect bmapstart (Mkfs.bitmap t.freeblock), ?_, ?_, fun i few apart => ?_,
    fun b data => ?_, ?_, wrote.freeblock⟩
  · rw [Mkfs.finish, built.tidy.rinode inside]
    change (m.winode rootino { m.dinode rootino with
      size := ((m.dinode rootino).size / bsize + 1) * bsize } >>= _) = _
    rw [size, ran]
    change t.balloc t.freeblock = _
    rw [balloc, if_pos small]
  · rw [inode rootino (by decide), wrote.self]
  · rw [inode i few, wrote.others i apart]
  · have apart : b ≠ bmapstart := Nat.ne_of_gt (Nat.lt_of_lt_of_le (by decide) data)
    rw [sectors, Function.update_of_ne apart, wrote.sector b data]
  · rw [sectors, Function.update_self, wrote.freeblock]

/-- The addresses of the image are those of the disk that the kernel sees. -/
theorem Finished.address (finished : Finished m e m') (built : m.Built n e) {i : Nat}
    (inside : i < ninodes) (p : Place) : m'.address i p = m.disk.ref (i, p) := by
  have slot : i < slots := Nat.lt_trans inside (by decide)
  have addrs : (m'.dinode i).addrs = (m.dinode i).addrs := by
    by_cases self : i = rootino
    · rw [self, finished.root]
    · rw [finished.others i inside self]
  by_cases allocated : m.disk.Allocated i
  · rw [FsDisk.ref_of allocated, disk_dinode slot]
    cases p with
    | addr k => exact congrFun addrs k
    | entry k =>
        change (if _ then _ else _) = if (m.dinode i).addrs indirect = 0 then _ else
          (m.disk.block ((m.dinode i).addrs indirect)).word k
        rw [addrs]
        split
        · rfl
        · next listed =>
            have same : m.disk.ref (i, .addr indirect) = (m.dinode i).addrs indirect := by
              rw [FsDisk.ref_of allocated, disk_dinode slot]
              rfl
            have range := built.owned.owns.range (i, .addr indirect) (by rw [same]; exact listed)
            rw [same] at range
            have data : nmeta ≤ (m.dinode i).addrs indirect := range.1
            rw [disk_block data, finished.sector _ data]
  · have zero : m.dinode i = .zero := by
      refine built.fresh i slot ?_
      by_contra used
      exact allocated (allocated_of slot (built.used i (by omega) (by omega)))
    rw [FsDisk.ref, if_neg allocated]
    cases p with
    | addr k =>
        change (m'.dinode i).addrs k = 0
        rw [addrs, zero]
        rfl
    | entry k =>
        refine if_pos ?_
        rw [addrs, zero]
        rfl

/-- The direct blocks of the root directory. -/
theorem Finished.rootBlock (finished : Finished m e m') {k : Nat} (direct : k < ndirect) :
    m'.blockOf rootino k = m.rootAddr k := by
  rw [blockOf, FsDisk.index, if_pos direct]
  change (m'.dinode rootino).addrs _ = _
  rw [finished.root]
  rfl

theorem Finished.rootEntry (finished : Finished m e m') (built : m.Built n e) {j : Nat}
    (before : j / 32 * 32 < e) (inner : j < 32 * ndirect) :
    m'.rootEntry j = if j < e then max 1 j else 0 := by
  have direct : j / 32 < ndirect := by omega
  have listed := (built.root.blocks (j / 32) (Nat.le_of_lt direct)).mpr before
  have low : nmeta ≤ m.rootAddr (j / 32) := (root_block built.owned built.root.type listed).1
  rw [Mkfs.rootEntry, finished.rootBlock direct, if_neg listed, finished.sector _ low]
  exact built.root.entry j before inner

/-- The image is well formed as long as no limit is reached. -/
theorem Finished.wellFormed (finished : Finished m n m') (built : m.Built n n) (some : 1 < n)
    (few : n ≤ ninodes) (partly : n % 32 ≠ 0) : m'.WellFormed := by
  have address {i : Nat} (inside : i < ninodes) (p : Place) : m'.address i p = m.disk.ref (i, p) :=
    finished.address built inside p
  simp only [ninodes] at few
  refine ⟨fun j below named => ?_, fun i p inside listed => ?_,
    fun i p j q first second listed same => ?_, fun b small => ?_, fun i bn inside below => ?_⟩
  · rw [finished.root] at below
    change j < (n / 32 + 1) * bsize / 16 at below
    simp only [bsize] at below
    have entry := finished.rootEntry built (by omega : j / 32 * 32 < n)
      (by simp only [ndirect]; omega)
    rw [entry] at named ⊢
    split at named
    · next early =>
        rw [if_pos early]
        have small : max 1 j < ninodes := by
          simp only [ninodes]
          omega
        refine ⟨small, ?_⟩
        have used := built.used (max 1 j) (by omega) (by omega)
        by_cases self : max 1 j = rootino
        · rw [self] at used ⊢
          rw [finished.root]
          exact used
        · rw [finished.others _ small self]
          exact used
    · exact absurd rfl named
  · rw [address inside] at listed ⊢
    exact built.owned.owns.range _ listed
  · rw [address first] at listed same
    rw [address second] at same
    exact built.owned.owns.once _ _ listed same
  · have high : m.freeblock ≤ bsize * 8 := Nat.le_trans built.tidy.high (by decide)
    rw [finished.bitmap, finished.freeblock, marked_bitmap high small, decide_eq_true_eq]
  · by_cases self : i = rootino
    · subst self
      rw [finished.root] at below
      change bn * bsize < (n / 32 + 1) * bsize at below
      simp only [bsize] at below
      have direct : bn < ndirect := by
        simp only [ndirect]
        omega
      rw [finished.rootBlock direct]
      exact (built.root.blocks bn (Nat.le_of_lt direct)).mpr (by omega)
    · have slot : i < slots := Nat.lt_trans inside (by decide)
      rw [finished.others i inside self] at below
      by_cases allocated : m.disk.Allocated i
      · have full := built.owned.full i allocated bn (by rw [disk_dinode slot]; exact below)
        cases here : FsDisk.index bn with
        | none => simp [FsDisk.addrOf, here] at full
        | some p =>
            rw [FsDisk.addrOf_eq_ref allocated here] at full
            rw [blockOf, here]
            change m'.address i p ≠ 0
            rw [address inside]
            exact full
      · have zero : m.dinode i = .zero := by
          refine built.fresh i slot ?_
          by_contra used
          exact allocated (allocated_of slot (built.used i (by omega) (by omega)))
        rw [zero] at below
        exact absurd below (Nat.not_lt_zero _)

/-- With an inode behind the last one, or with a full last block, the image is not well formed. -/
theorem Finished.limits (finished : Finished m n m') (built : m.Built n n)
    (good : m'.WellFormed) : n ≤ ninodes ∧ n % 32 ≠ 0 := by
  have bound : n ≤ 216 := built.small
  constructor
  · by_contra many
    simp only [ninodes] at many
    have entry := finished.rootEntry built (by omega : 200 / 32 * 32 < n) (by decide)
    rw [if_pos (by omega)] at entry
    have named : m'.rootEntry 200 ≠ 0 := by
      rw [entry]
      decide
    have below : 200 < (m'.dinode rootino).size / 16 := by
      rw [finished.root]
      change 200 < (n / 32 + 1) * 512 / 16
      omega
    have small := (good.entries 200 below named).1
    rw [entry] at small
    exact absurd small (by decide)
  · intro whole
    have direct : n / 32 < ndirect := by
      simp only [ndirect]
      omega
    have below : n / 32 * bsize < (m'.dinode rootino).size := by
      rw [finished.root]
      change n / 32 * 512 < (n / 32 + 1) * 512
      omega
    have listed := good.full rootino (n / 32) (by decide) below
    rw [finished.rootBlock direct] at listed
    have more := (built.root.blocks (n / 32) (Nat.le_of_lt direct)).mp listed
    omega

/-! ## Images with room -/

/-- An entry can be appended while there are blocks. -/
theorem Built.entry_returns (built : m.Built n e) (few : e < 32 * ndirect)
    (room : m.freeblock < fssize) (inum : Nat) (name : List UInt8) :
    ∃ m', m.iappend rootino (dirent inum name) = .ok m' ∧ m'.freeblock ≤ m.freeblock + 1 := by
  obtain ⟨returns, appended⟩ := iappend_entry built.tidy built.owned built.root.type built.root.size
    few (length_dirent inum name)
  have inside : m.entryBlock e < fssize := by
    unfold entryBlock
    split
    · exact room
    · next listed =>
        exact Nat.lt_trans (root_block built.owned built.root.type listed).2 room
  obtain ⟨m', ran⟩ := returns inside
  exact ⟨m', ran, (appended m' ran).freeblock⟩

theorem makeRoot_returns : ∃ m, start.makeRoot = .ok m ∧ m.freeblock ≤ nmeta + 2 := by
  obtain ⟨t, first, built, low⟩ := start_ialloc
  obtain ⟨u, dot, one⟩ := built.entry_returns (by decide) (by rw [low]; decide) (max 1 0) [0x2e]
  have built' := built.entry (by decide) (by decide) dot
  have room : u.freeblock < fssize := by
    simp only [low, nmeta_eq, fssize] at *
    omega
  obtain ⟨v, dotdot, two⟩ := built'.entry_returns (by decide) room (max 1 1) [0x2e, 0x2e]
  refine ⟨v, ?_, by omega⟩
  rw [makeRoot, first]
  change (t.iappend rootino (dirent (max 1 0) [0x2e]) >>= fun m =>
    m.iappend rootino (dirent (max 1 1) [0x2e, 0x2e])) = _
  rw [dot]
  exact dotdot

/-- Blocks that are enough for a file: one for its entry, and four for each piece. -/
def InputReads.blocks (file : InputReads) : Nat := 4 * file.pieces.length + 1

/-- What can be added to an image with room: a name that is no path, and no more than a file can
hold. -/
structure InputReads.Addable (file : InputReads) : Prop where
  plain : (0x2f : UInt8) ∉ file.name
  limit : file.pieces.flatten.length ≤ maxfile * bsize

theorem Built.addReads_returns (built : m.Built n n) (some : 1 < n) (more : n < slots)
    {file : InputReads} (addable : file.Addable) (room : m.freeblock + file.blocks ≤ fssize) :
    ∃ m', m.addReads file = .ok m' ∧ m'.freeblock ≤ m.freeblock + file.blocks := by
  unfold InputReads.blocks at room ⊢
  obtain ⟨t, first, built', same⟩ := built.ialloc some more
  have few : n < 32 * ndirect := Nat.lt_trans more (by decide)
  obtain ⟨u, appended, bound⟩ := built'.entry_returns few (by rw [same]; omega) n
    (plainName file.name)
  have next : max 1 n = n := by omega
  have entered : u.Built (n + 1) (n + 1) := by
    rw [← next] at appended
    exact built'.entry few (Nat.lt_succ_of_lt some) appended
  -- the new inode is empty
  have stored := built'.tidy.iappend built'.owned (by decide) built'.root.type
    (by rw [length_dirent]; decide) appended
  have apart : n ≠ rootino := by
    change n ≠ 1
    omega
  have empty : (u.content n).length = 0 := by
    rw [stored.kept n apart (allocated_of more (built'.used n (by omega) (Nat.lt_succ_self n))),
      (built.ialloc_file more first).2.2.1]
    rfl
  obtain ⟨m', copied, more'⟩ := entered.tidy.copyPieces_returns entered.owned more
    (entered.used n (by omega) (Nat.lt_succ_self n)) file.fits
    (by rw [empty, Nat.zero_add]; exact addable.limit) (by omega)
  refine ⟨m', ?_, by omega⟩
  rw [Mkfs.addReads, if_neg addable.plain, first]
  change (t.iappend rootino (dirent n (plainName file.name)) >>= fun m =>
    m.copyPieces n file.pieces) = _
  rw [appended]
  exact copied

theorem Built.foldlM_returns (built : m.Built n n) (files : List InputReads) (some : 1 < n)
    (few : n + files.length ≤ slots)
    (room : m.freeblock + (files.map InputReads.blocks).sum ≤ fssize)
    (addable : ∀ file ∈ files, file.Addable) :
    ∃ m', files.foldlM Mkfs.addReads m = .ok m' := by
  induction files generalizing m n with
  | nil => exact ⟨m, rfl⟩
  | cons file rest ih =>
      rw [List.length_cons] at few
      rw [List.map_cons, List.sum_cons] at room
      obtain ⟨t, ran, bound⟩ := built.addReads_returns some (by omega)
        (addable file List.mem_cons_self) (by omega)
      obtain ⟨m', later⟩ := ih (built.addReads some (by omega) ran) (by omega) (by omega) (by omega)
        fun other member => addable other (List.mem_cons_of_mem _ member)
      refine ⟨m', ?_⟩
      rw [List.foldlM_cons, ran]
      exact later

/-- The program does not fail where there is room for its files, up to the last inode. -/
theorem mainReads_returns {files : List InputReads} (few : files.length + 2 ≤ slots)
    (room : nmeta + 2 + (files.map InputReads.blocks).sum ≤ fssize)
    (addable : ∀ file ∈ files, file.Addable) : ∃ m, mainReads files = .ok m := by
  obtain ⟨t, made, low⟩ := makeRoot_returns
  have root := built_makeRoot made
  obtain ⟨u, looped⟩ := root.foldlM_returns files (by decide) (by omega) (by omega) addable
  have built := root.foldlM (by decide) (by omega) looped
  obtain ⟨m, done, _⟩ := built.finish
    (Nat.le_trans (by omega : 2 + files.length ≤ slots) (by decide))
  refine ⟨m, ?_⟩
  rw [mainReads, made]
  change (files.foldlM addReads t >>= finish) = _
  rw [looped]
  exact done

theorem length_split (content : List UInt8) :
    (split content).length = (content.length + 511) / bsize := by
  induction content using split.induct with
  | case1 content none =>
      rw [split, dif_pos none, none]
      rfl
  | case2 content some ih =>
      rw [split, dif_neg some, List.length_cons, ih, List.length_drop]
      simp only [bsize]
      omega

theorem flatten_split (content : List UInt8) : (split content).flatten = content := by
  induction content using split.induct with
  | case1 content none =>
      rw [split, dif_pos none]
      exact (List.length_eq_zero_iff.mp none).symm
  | case2 content some ih =>
      rw [split, dif_neg some, List.flatten_cons, ih]
      exact List.take_append_drop _ _

/-- The same for the files as they are on the host. -/
theorem main_returns {files : List InputFile} (few : files.length + 2 ≤ slots)
    (room : nmeta + 2 + (files.map fun file => 4 * ((file.content.length + 511) / bsize) + 1).sum ≤
      fssize)
    (addable : ∀ file ∈ files,
      (0x2f : UInt8) ∉ file.name ∧ file.content.length ≤ maxfile * bsize) :
    ∃ m, main files = .ok m := by
  rw [main_eq]
  refine mainReads_returns (by rw [List.length_map]; exact few) ?_ fun file member => ?_
  · rw [List.map_map]
    refine Nat.le_trans (Nat.le_of_eq ?_) room
    refine congrArg (nmeta + 2 + List.sum ·) (List.map_congr_left fun file _ => ?_)
    change 4 * (split file.content).length + 1 = _
    rw [length_split]
  · obtain ⟨host, listed, rfl⟩ := List.mem_map.mp member
    obtain ⟨plain, limit⟩ := addable host listed
    refine ⟨plain, ?_⟩
    change (split host.content).flatten.length ≤ _
    rw [flatten_split]
    exact limit

/-! ## The result -/

/-- The image before and after the last steps. -/
theorem mainReads_finished {files : List InputReads} (few : files.length + 2 ≤ slots)
    (ran : mainReads files = .ok m) : ∃ first last, start.makeRoot = .ok first ∧
      files.foldlM addReads first = .ok last ∧
      last.Built (files.length + 2) (files.length + 2) ∧ Finished last (files.length + 2) m := by
  unfold mainReads at ran
  obtain ⟨first, made, rest⟩ := bind_eq_ok.mp ran
  obtain ⟨last, looped, done⟩ := bind_eq_ok.mp rest
  have built := (built_makeRoot made).foldlM (by decide) (by omega) looped
  rw [Nat.add_comm] at built
  obtain ⟨_, done', finished⟩ := built.finish (Nat.le_trans few (by decide))
  cases done'.symm.trans done
  exact ⟨first, last, made, looped, built, finished⟩

theorem main_finished {files : List InputFile} (few : files.length + 2 ≤ slots)
    (ran : main files = .ok m) : ∃ last, last.Built (files.length + 2) (files.length + 2) ∧
      Finished last (files.length + 2) m := by
  rw [main_eq] at ran
  have length : (files.map InputFile.reads).length = files.length := List.length_map _
  rw [← length] at few ⊢
  obtain ⟨_, last, _, _, built, finished⟩ := mainReads_finished few ran
  exact ⟨last, built, finished⟩

/--
The image is well formed if there are at most 198 input files and the entries
of the root directory do not fill its last block.  As long as the inodes do
not reach into the data blocks, it is not well formed otherwise.
-/
theorem wellFormed_main (files : List InputFile) (m : Mkfs) (ran : main files = .ok m) :
    (files.length + 2 ≤ ninodes ∧ (files.length + 2) % 32 ≠ 0 → m.WellFormed) ∧
    (files.length + 2 ≤ slots → m.WellFormed →
      files.length + 2 ≤ ninodes ∧ (files.length + 2) % 32 ≠ 0) := by
  refine ⟨fun ⟨few, partly⟩ => ?_, fun few good => ?_⟩
  · obtain ⟨_, built, finished⟩ := main_finished (Nat.le_trans few (by decide)) ran
    exact finished.wellFormed built (by omega) few partly
  · obtain ⟨_, built, finished⟩ := main_finished few ran
    exact finished.limits built good

/-- An empty file, one of three bytes, and one that needs an indirect block. -/
def threeFiles : List InputFile :=
  [⟨[0x61], []⟩, ⟨[0x62], [1, 2, 3]⟩, ⟨[0x63], List.replicate (13 * bsize) 7⟩]

theorem wellFormed_three_files : ∃ m, main threeFiles = .ok m ∧ m.WellFormed := by
  have long : (List.replicate (13 * bsize) (7 : UInt8)).length = 13 * bsize :=
    List.length_replicate
  obtain ⟨m, ran⟩ : ∃ m, main threeFiles = .ok m := by
    refine main_returns (by decide) ?_ fun file member => ?_
    · simp only [threeFiles, List.map_cons, List.map_nil, long]
      decide
    · simp only [threeFiles, List.mem_cons, List.not_mem_nil, or_false] at member
      obtain rfl | rfl | rfl := member
      · decide
      · decide
      · refine ⟨by decide, ?_⟩
        rw [long]
        decide
  exact ⟨m, ran, (wellFormed_main threeFiles m ran).1 (by decide)⟩

/-- Thirty empty files. -/
def thirtyFiles : List InputFile :=
  (List.range 30).map fun i => ⟨[UInt8.ofNat (97 + i)], []⟩

/-- With thirty files the root directory is full, and its size covers a block that is not there. -/
theorem thirty_files_leave_hole : ∃ m, main thirtyFiles = .ok m ∧ ¬ m.WellFormed := by
  have length : thirtyFiles.length = 30 := rfl
  have plain : ∀ file ∈ thirtyFiles, (0x2f : UInt8) ∉ file.name ∧ file.content = [] := by
    decide
  have room : nmeta + 2 +
      (thirtyFiles.map fun file => 4 * ((file.content.length + 511) / bsize) + 1).sum ≤ fssize := by
    decide
  obtain ⟨m, ran⟩ := main_returns (by rw [length]; decide) room fun file member => by
    obtain ⟨name, empty⟩ := plain file member
    rw [empty]
    exact ⟨name, by decide⟩
  obtain ⟨_, built, finished⟩ := main_finished (by rw [length]; decide) ran
  exact ⟨m, ran, fun good => (finished.limits built good).2 rfl⟩

end Mkfs

end SlabStudy.Xv6
