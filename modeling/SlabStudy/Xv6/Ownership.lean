import SlabStudy.Library.Ownership
import SlabStudy.Xv6.Inode

/-!
# Block ownership

Every block of the image that is in use is a metadata block or is listed in
exactly one place of exactly one allocated inode: in `addrs`, or in the
indirect block.  While a function works on a locked inode this holds of the
disk as it will be after the next `iupdate`.
-/

namespace SlabStudy.Xv6

open Library

/-- A computation that returns is made of two that return. -/
theorem bind_eq_ok {ε α β : Type} {first : Except ε α} {next : α → Except ε β} {result : β} :
    first >>= next = .ok result ↔ ∃ value, first = .ok value ∧ next value = .ok result := by
  cases first with
  | error reason => simp [bind, Except.bind]
  | ok value => simp [bind, Except.bind]

/-! ## Where blocks are listed -/

/-- The places of an inode that list blocks. -/
inductive Place where
  | addr (i : Fin (ndirect + 1))
  | entry (j : Fin nindirect)
  deriving DecidableEq

namespace FsDisk

/-- The block that a place of an inode lists, or 0. -/
def place (d : FsDisk) (ip : Dinode) : Place → Nat
  | .addr i => ip.addrs i
  | .entry j => if ip.addrs indirect = 0 then 0 else (d.block (ip.addrs indirect)).word j

/-- An inode of the image that is allocated. -/
def Allocated (d : FsDisk) (inum : Nat) : Prop :=
  inum < d.sb.ninodes ∧ (d.dinode inum).type ≠ .free

instance (d : FsDisk) (inum : Nat) : Decidable (d.Allocated inum) :=
  inferInstanceAs (Decidable (_ ∧ _))

/-- The places of all allocated inodes. -/
def ref (d : FsDisk) (x : Nat × Place) : Nat :=
  if d.Allocated x.1 then d.place (d.dinode x.1) x.2 else 0

/-- The place that lists the `bn`th block of a file. -/
def index (bn : Nat) : Option Place :=
  if bn < ndirect then some (.addr (Fin.ofNat (ndirect + 1) bn))
  else if bn - ndirect < nindirect then some (.entry (Fin.ofNat nindirect (bn - ndirect)))
  else none

/-- The address of the `bn`th block of a file, or 0. -/
def addrOf (d : FsDisk) (ip : Dinode) (bn : Nat) : Nat := (index bn).elim 0 (d.place ip)

/-- The blocks of the image that are free. -/
def freeBlocks (d : FsDisk) : Nat := (List.range d.sb.size).countP fun b => !d.bit b

/--
The free map is exact, no block is listed twice, and every allocated inode
has all blocks below its size.
-/
structure Owned (d : FsDisk) : Prop where
  owns : Owns d.sb.nmeta d.sb.size d.bit d.ref
  full : ∀ i, d.Allocated i → ∀ bn, bn * bsize < (d.dinode i).size → d.addrOf (d.dinode i) bn ≠ 0
  small : d.sb.size < 2 ^ 32

theorem index_inj {bn other : Nat} {p : Place} (left : index bn = some p)
    (right : index other = some p) : bn = other := by
  unfold index at left right
  split at left
  · next small =>
      split at right
      · next also =>
          have same := Option.some.inj (left.trans right.symm)
          simp only [Place.addr.injEq, Fin.ext_iff, Fin.val_ofNat] at same
          simp only [ndirect] at *
          omega
      · split at right
        · have clash := left.trans right.symm
          simp at clash
        · simp at right
  · split at left
    · split at right
      · have clash := left.trans right.symm
        simp at clash
      · split at right
        · have same := Option.some.inj (left.trans right.symm)
          simp only [Place.entry.injEq, Fin.ext_iff, Fin.val_ofNat] at same
          simp only [ndirect, nindirect] at *
          omega
        · simp at right
    · simp at left

theorem index_ne_indirect {bn : Nat} : index bn ≠ some (.addr indirect) := by
  unfold index
  split
  · next small =>
      simp only [indirect, ne_eq, Option.some.injEq, Place.addr.injEq, Fin.ext_iff, Fin.val_ofNat,
        Fin.val_last]
      simp only [ndirect] at *
      omega
  · split
    · simp
    · simp

/-- The places of an allocated inode. -/
theorem ref_of {d : FsDisk} {i : Nat} (allocated : d.Allocated i) (p : Place) :
    d.ref (i, p) = d.place (d.dinode i) p :=
  if_pos allocated

/-- A block of an allocated inode is listed at its place. -/
theorem addrOf_eq_ref {d : FsDisk} {i bn : Nat} {p : Place} (allocated : d.Allocated i)
    (here : index bn = some p) : d.addrOf (d.dinode i) bn = d.ref (i, p) := by
  simp [addrOf, here, ref_of allocated]

/-- What an inode lists does not change as long as its indirect block does not. -/
theorem place_congr {d e : FsDisk} {ip : Dinode}
    (same : ip.addrs indirect ≠ 0 → e.block (ip.addrs indirect) = d.block (ip.addrs indirect)) :
    e.place ip = d.place ip := by
  funext p
  cases p with
  | addr i => rfl
  | entry j =>
      by_cases none : ip.addrs indirect = 0
      · simp [place, none]
      · simp [place, none, same none]

end FsDisk

/-! ## A locked inode -/

namespace Locked

/-- The disk as the next `iupdate` will leave it. -/
def flush (l : Locked) : FsDisk := iupdate l.disk l.inum l.ip

/-- The locked inode is allocated, and with it the ownership of blocks is exact. -/
structure Ok (l : Locked) : Prop where
  inside : l.inum < l.disk.sb.ninodes
  type : l.ip.type ≠ .free
  owned : l.flush.Owned

@[simp] theorem flush_self (l : Locked) : l.flush.dinode l.inum = l.ip := Function.update_self _ _ _

theorem flush_other (l : Locked) {i : Nat} (apart : i ≠ l.inum) :
    l.flush.dinode i = l.disk.dinode i :=
  Function.update_of_ne apart _ _

/-- The places of the locked inode. -/
theorem ref_self {l : Locked} (inside : l.inum < l.disk.sb.ninodes) (type : l.ip.type ≠ .free)
    (p : Place) : l.flush.ref (l.inum, p) = l.disk.place l.ip p := by
  have allocated : l.flush.Allocated l.inum := ⟨inside, by simpa using type⟩
  rw [FsDisk.ref_of allocated, flush_self]
  rfl

theorem Ok.ref {l : Locked} (ok : l.Ok) (p : Place) :
    l.flush.ref (l.inum, p) = l.disk.place l.ip p :=
  ref_self ok.inside ok.type p

/-- Block `b` has been allocated and is now listed at the place `p` of the locked inode. -/
structure Grows (l l' : Locked) (p : Place) (b : Nat) : Prop where
  inum : l'.inum = l.inum
  ip : l'.ip = { l.ip with addrs := l'.ip.addrs }
  sb : l'.disk.sb = l.disk.sb
  dinode : l'.disk.dinode = l.disk.dinode
  inside : b < l.disk.sb.size
  free : l.disk.bit b = false
  bit : l'.disk.bit = Function.update l.disk.bit b true
  empty : l.flush.ref (l.inum, p) = 0
  ref : l'.flush.ref = Function.update l.flush.ref (l.inum, p) b
  block : ∀ c, c ≠ b → c ≠ l'.ip.addrs indirect → l'.disk.block c = l.disk.block c

theorem nmeta_pos (sb : Superblock) : 0 < sb.nmeta :=
  Nat.add_pos_right _ (Nat.succ_pos _)

/-- A free block is listed nowhere. -/
theorem Ok.fresh {l : Locked} {b : Nat} (ok : l.Ok) (inside : b < l.disk.sb.size)
    (free : l.disk.bit b = false) : b ≠ 0 ∧ ∀ x, l.flush.ref x ≠ b := by
  obtain ⟨above, other⟩ := ok.owned.owns.fresh inside free
  have positive := nmeta_pos l.disk.sb
  have nonzero : b ≠ 0 := Nat.ne_of_gt (Nat.lt_of_lt_of_le positive above)
  refine ⟨nonzero, fun x same => other x ?_ same⟩
  rwa [same]

/-- Growing keeps every block that was listed where it was. -/
theorem Grows.kept {l l' : Locked} {p : Place} {b : Nat} (grows : Grows l l' p b) {x : Nat × Place}
    (listed : l.flush.ref x ≠ 0) : l'.flush.ref x = l.flush.ref x := by
  rw [grows.ref, Function.update_of_ne]
  rintro rfl
  exact listed grows.empty

theorem Grows.allocated {l l' : Locked} {p : Place} {b : Nat} (grows : Grows l l' p b) (i : Nat) :
    l'.flush.Allocated i ↔ l.flush.Allocated i := by
  have types : (l'.flush.dinode i).type = (l.flush.dinode i).type := by
    by_cases self : i = l.inum
    · subst self
      rw [flush_self, ← grows.inum, flush_self, grows.ip]
    · rw [l.flush_other self, l'.flush_other (by rw [grows.inum]; exact self), grows.dinode]
  unfold FsDisk.Allocated
  rw [types]
  change _ < l'.disk.sb.ninodes ∧ _ ↔ _ < l.disk.sb.ninodes ∧ _
  rw [grows.sb]

theorem Grows.size {l l' : Locked} {p : Place} {b : Nat} (grows : Grows l l' p b) (i : Nat) :
    (l'.flush.dinode i).size = (l.flush.dinode i).size := by
  by_cases self : i = l.inum
  · subst self
    rw [flush_self, ← grows.inum, flush_self, grows.ip]
  · rw [l.flush_other self, l'.flush_other (by rw [grows.inum]; exact self), grows.dinode]

/-- Growing keeps the ownership exact. -/
theorem Grows.ok {l l' : Locked} {p : Place} {b : Nat} (grows : Grows l l' p b) (ok : l.Ok) :
    l'.Ok := by
  refine ⟨?_, ?_, ?_, fun i allocated bn below => ?_, ?_⟩
  · rw [grows.inum, grows.sb]
    exact ok.inside
  · rw [grows.ip]
    exact ok.type
  · have claimed := ok.owned.owns.claim grows.inside grows.free (nmeta_pos _) grows.empty
    rw [← grows.ref] at claimed
    change Owns l'.disk.sb.nmeta l'.disk.sb.size l'.disk.bit _
    rw [grows.sb, grows.bit]
    exact claimed
  · have before := (grows.allocated i).mp allocated
    rw [grows.size] at below
    have listed := ok.owned.full i before bn below
    cases here : FsDisk.index bn with
    | none => simp [FsDisk.addrOf, here] at listed
    | some q =>
        rw [FsDisk.addrOf_eq_ref before here] at listed
        rw [FsDisk.addrOf_eq_ref allocated here, grows.kept listed]
        exact listed
  · change l'.disk.sb.size < _
    rw [grows.sb]
    exact ok.owned.small

/-! ## balloc and bmap -/

/-- Taking a free unit leaves one free unit less. -/
theorem countFree_update {used : Nat → Bool} {size b : Nat} (inside : b < size)
    (free : used b = false) : (List.range size).countP (fun c => !used c) =
      (List.range size).countP (fun c => !Function.update used b true c) + 1 := by
  induction size with
  | zero => exact absurd inside (Nat.not_lt_zero b)
  | succ size ih =>
      rw [List.range_succ, List.countP_append, List.countP_append]
      by_cases last : b = size
      · subst last
        have same : (List.range b).countP (fun c => !used c) =
            (List.range b).countP fun c => !Function.update used b true c := by
          refine List.countP_congr fun c member => ?_
          rw [Function.update_of_ne (Nat.ne_of_lt (List.mem_range.mp member))]
        simp [same, free]
      · have here : ([size].countP fun c => !Function.update used b true c) =
            [size].countP fun c => !used c := by
          simp [Ne.symm last]
        rw [ih (by omega), here]
        omega

/-- `balloc` returns a block of the image that was free, or there is none. -/
theorem balloc_spec (d : FsDisk) :
    (∃ b, b < d.sb.size ∧ d.bit b = false ∧ balloc d = .ok (b, { d with
      bit := Function.update d.bit b true
      block := Function.update d.block b .zero })) ∨
    (∀ b, b < d.sb.size → d.bit b = true) ∧ balloc d = .error .outOfBlocks := by
  unfold balloc
  cases found : (List.range d.sb.size).find? fun b => !d.bit b with
  | some b =>
      have inside := List.mem_of_find?_eq_some found
      have free := List.find?_some found
      exact .inl ⟨b, List.mem_range.mp inside, by simpa using free, rfl⟩
  | none =>
      refine .inr ⟨fun b inside => ?_, rfl⟩
      have all := List.find?_eq_none.mp found b (List.mem_range.mpr inside)
      simpa using all

theorem zero_word (j : Nat) : Block.zero.word j = 0 := rfl

/-- The indirect block of another inode is not the one of the locked inode. -/
theorem Ok.other_indirect {l : Locked} (ok : l.Ok) {i : Nat} (apart : i ≠ l.inum)
    (allocated : l.flush.Allocated i) (some : (l.flush.dinode i).addrs indirect ≠ 0) :
    (l.flush.dinode i).addrs indirect ≠ l.ip.addrs indirect := by
  intro same
  have left : l.flush.ref (i, .addr indirect) = (l.flush.dinode i).addrs indirect :=
    FsDisk.ref_of allocated _
  have right : l.flush.ref (l.inum, .addr indirect) = l.ip.addrs indirect := ok.ref _
  have clash := ok.owned.owns.once (i, .addr indirect) (l.inum, .addr indirect)
    (by rw [left]; exact some) (by rw [left, right]; exact same)
  exact apart (congrArg Prod.fst clash)

/-- The places of the other inodes stay when only a free block and the own indirect block change. -/
theorem Ok.other_ref {l m : Locked} {b : Nat} (ok : l.Ok) (inum : m.inum = l.inum)
    (sb : m.disk.sb = l.disk.sb) (dinode : m.disk.dinode = l.disk.dinode)
    (fresh : ∀ x, l.flush.ref x ≠ b)
    (block : ∀ c, c ≠ b → c ≠ l.ip.addrs indirect → m.disk.block c = l.disk.block c) {i : Nat}
    (apart : i ≠ l.inum) (p : Place) : m.flush.ref (i, p) = l.flush.ref (i, p) := by
  have entry : m.flush.dinode i = l.flush.dinode i := by
    rw [l.flush_other apart, m.flush_other (by rw [inum]; exact apart), dinode]
  have same : m.flush.Allocated i ↔ l.flush.Allocated i := by
    unfold FsDisk.Allocated
    rw [entry]
    change _ < m.disk.sb.ninodes ∧ _ ↔ _ < l.disk.sb.ninodes ∧ _
    rw [sb]
  by_cases allocated : l.flush.Allocated i
  · rw [FsDisk.ref_of allocated, FsDisk.ref_of (same.mpr allocated), entry]
    refine congrFun (FsDisk.place_congr fun some => ?_) p
    refine block _ (fun new => fresh (i, .addr indirect) ?_) (ok.other_indirect apart allocated some)
    rw [FsDisk.ref_of allocated]
    exact new
  · simp [FsDisk.ref, allocated, same]

/-- Block `b` is taken and listed in `addrs[i]`. -/
def takeAddr (l : Locked) (i : Fin (ndirect + 1)) (b : Nat) : Locked :=
  { l with
    ip := { l.ip with addrs := Function.update l.ip.addrs i b }
    disk := { l.disk with
      bit := Function.update l.disk.bit b true
      block := Function.update l.disk.block b .zero } }

theorem takeAddr_grows {l : Locked} {i : Fin (ndirect + 1)} {b : Nat} (ok : l.Ok)
    (none : l.ip.addrs i = 0) (inside : b < l.disk.sb.size) (free : l.disk.bit b = false) :
    Grows l (l.takeAddr i b) (.addr i) b := by
  obtain ⟨nonzero, fresh⟩ := ok.fresh inside free
  have block : ∀ c, c ≠ b → (l.takeAddr i b).disk.block c = l.disk.block c :=
    fun c other => Function.update_of_ne other _ _
  refine ⟨rfl, rfl, rfl, rfl, inside, free, rfl, ?_, ?_, fun c other _ => block c other⟩
  · rw [ok.ref]
    exact none
  · funext ⟨j, p⟩
    by_cases self : j = l.inum
    · subst self
      have own : (l.takeAddr i b).flush.ref (l.inum, p) =
          (l.takeAddr i b).disk.place (l.takeAddr i b).ip p :=
        ref_self (l := l.takeAddr i b) ok.inside ok.type p
      rw [own]
      cases p with
      | addr k =>
          change Function.update l.ip.addrs i b k = _
          by_cases here : k = i
          · subst here
            rw [Function.update_self, Function.update_self]
          · rw [Function.update_of_ne here, Function.update_of_ne (by simpa using here), ok.ref]
            rfl
      | entry m =>
          rw [Function.update_of_ne (by simp), ok.ref]
          by_cases here : i = indirect
          · -- a new indirect block is empty
            subst here
            simp [FsDisk.place, none, takeAddr, zero_word]
          · have listed : (l.takeAddr i b).ip.addrs indirect = l.ip.addrs indirect :=
              Function.update_of_ne (Ne.symm here) _ _
            by_cases empty : l.ip.addrs indirect = 0
            · simp [FsDisk.place, listed, empty]
            · have other : l.ip.addrs indirect ≠ b := fun same =>
                fresh (l.inum, .addr indirect) ((ok.ref _).trans same)
              simp [FsDisk.place, listed, empty, block _ other]
    · rw [Function.update_of_ne fun same => self (congrArg Prod.fst same)]
      exact ok.other_ref (m := l.takeAddr i b) rfl rfl rfl fresh (fun c other _ => block c other)
        self p

/-- Block `b` is taken and listed in word `k` of the indirect block. -/
def takeEntry (l : Locked) (k b : Nat) : Locked :=
  { l with disk := { l.disk with
      bit := Function.update l.disk.bit b true
      block := Function.update (Function.update l.disk.block b .zero) (l.ip.addrs indirect)
        ((Function.update l.disk.block b .zero (l.ip.addrs indirect)).setWord k b) } }

theorem takeEntry_grows {l : Locked} {k : Fin nindirect} {b : Nat} (ok : l.Ok)
    (some : l.ip.addrs indirect ≠ 0) (none : (l.disk.block (l.ip.addrs indirect)).word k = 0)
    (inside : b < l.disk.sb.size) (free : l.disk.bit b = false) :
    Grows l (l.takeEntry k b) (.entry k) b := by
  obtain ⟨nonzero, fresh⟩ := ok.fresh inside free
  have other : l.ip.addrs indirect ≠ b := fun same =>
    fresh (l.inum, .addr indirect) ((ok.ref _).trans same)
  have block : ∀ c, c ≠ b → c ≠ l.ip.addrs indirect →
      (l.takeEntry k b).disk.block c = l.disk.block c := by
    intro c left right
    simp [takeEntry, left, right]
  refine ⟨rfl, rfl, rfl, rfl, inside, free, rfl, ?_, ?_, block⟩
  · rw [ok.ref]
    simp [FsDisk.place, some, none]
  · funext ⟨j, p⟩
    by_cases self : j = l.inum
    · subst self
      have own : (l.takeEntry k b).flush.ref (l.inum, p) =
          (l.takeEntry k b).disk.place l.ip p :=
        ref_self (l := l.takeEntry k b) ok.inside ok.type p
      rw [own]
      cases p with
      | addr i =>
          rw [Function.update_of_ne (by simp), ok.ref]
          rfl
      | entry m =>
          have stored : (l.takeEntry k b).disk.block (l.ip.addrs indirect) =
              (l.disk.block (l.ip.addrs indirect)).setWord k b := by
            simp [takeEntry, other]
          simp only [FsDisk.place, some, if_false, stored]
          by_cases here : m = k
          · subst here
            rw [Function.update_self]
            exact Block.word_setWord_self _ m.isLt (Nat.lt_trans inside ok.owned.small)
          · rw [Function.update_of_ne (by simpa using here), ok.ref]
            simp only [FsDisk.place, some, if_false]
            exact Block.word_setWord_other _ _ m.isLt fun same => here (Fin.ext same)
    · rw [Function.update_of_ne fun same => self (congrArg Prod.fst same)]
      exact ok.other_ref (m := l.takeEntry k b) rfl rfl rfl fresh block self p

/-- What `ensure` does: nothing, or one allocation. -/
theorem ensure_spec {l : Locked} (ok : l.Ok) (i : Fin (ndirect + 1)) :
    l.ip.addrs i ≠ 0 ∧ l.ensure i = .ok (l.ip.addrs i, l) ∨
    l.ip.addrs i = 0 ∧ (∃ b, l.ensure i = .ok (b, l.takeAddr i b) ∧
      Grows l (l.takeAddr i b) (.addr i) b) ∨
    l.ip.addrs i = 0 ∧ (∀ b, b < l.disk.sb.size → l.disk.bit b = true) ∧
      l.ensure i = .error .outOfBlocks := by
  by_cases none : l.ip.addrs i = 0
  · refine .inr ?_
    rcases balloc_spec l.disk with ⟨b, inside, free, took⟩ | ⟨all, stopped⟩
    · refine .inl ⟨none, b, ?_, takeAddr_grows ok none inside free⟩
      simp [ensure, none, took]
      rfl
    · refine .inr ⟨none, all, ?_⟩
      simp [ensure, none, stopped]
      rfl
  · exact .inl ⟨none, by simp [ensure, none]⟩

/-- The free blocks of the image. -/
theorem Grows.freeBlocks {l l' : Locked} {p : Place} {b : Nat} (grows : Grows l l' p b) :
    l.disk.freeBlocks = l'.disk.freeBlocks + 1 := by
  unfold FsDisk.freeBlocks
  rw [grows.sb, grows.bit]
  exact countFree_update grows.inside grows.free

/-- What `bmap` does for block `bn` of a file. -/
structure Mapped (l : Locked) (bn addr : Nat) (l' : Locked) : Prop where
  ok : l'.Ok
  inum : l'.inum = l.inum
  ip : l'.ip = { l.ip with addrs := l'.ip.addrs }
  sb : l'.disk.sb = l.disk.sb
  dinode : l'.disk.dinode = l.disk.dinode
  found : l'.disk.addrOf l'.ip bn = addr
  nonzero : addr ≠ 0
  others : ∀ other, other ≠ bn → l'.disk.addrOf l'.ip other = l.disk.addrOf l.ip other
  kept : ∀ x, l.flush.ref x ≠ 0 → l'.flush.ref x = l.flush.ref x
  block : ∀ c, l.disk.bit c = true → c ≠ l'.ip.addrs indirect → l'.disk.block c = l.disk.block c
  list : l'.ip.addrs indirect = 0 ↔ l.ip.addrs indirect = 0 ∧ bn < ndirect

/-- The address of a block of the locked inode. -/
theorem Ok.addrOf {l : Locked} (ok : l.Ok) {bn : Nat} {p : Place} (here : FsDisk.index bn = some p) :
    l.disk.addrOf l.ip bn = l.flush.ref (l.inum, p) := by
  rw [ok.ref]
  simp [FsDisk.addrOf, here]

/-- A block that was allocated before. -/
theorem Mapped.refl {l : Locked} {bn : Nat} (ok : l.Ok) (some : l.disk.addrOf l.ip bn ≠ 0)
    (list : ndirect ≤ bn → l.ip.addrs indirect ≠ 0) :
    Mapped l bn (l.disk.addrOf l.ip bn) l := by
  refine ⟨ok, rfl, rfl, rfl, rfl, rfl, some, fun _ _ => rfl, fun _ _ => rfl, fun _ _ _ => rfl,
    fun none => ⟨none, ?_⟩, And.left⟩
  by_contra large
  exact list (Nat.le_of_not_lt large) none

/-- An allocation that lists the block itself. -/
theorem Grows.mapped {l l' : Locked} {p : Place} {bn b : Nat} (grows : Grows l l' p b) (ok : l.Ok)
    (here : FsDisk.index bn = some p) (list : ndirect ≤ bn → l.ip.addrs indirect ≠ 0) :
    Mapped l bn b l' := by
  have after := grows.ok ok
  have nonzero := (ok.fresh grows.inside grows.free).1
  have same : l'.ip.addrs indirect = l.ip.addrs indirect := by
    have left : l'.flush.ref (l'.inum, .addr indirect) = _ := after.ref _
    have right : l.flush.ref (l.inum, .addr indirect) = _ := ok.ref _
    rw [grows.inum, grows.ref, Function.update_of_ne, right] at left
    · exact left.symm
    · intro clash
      have place : Place.addr indirect = p := congrArg Prod.snd clash
      exact FsDisk.index_ne_indirect (by rw [here, ← place])
  refine ⟨after, grows.inum, grows.ip, grows.sb, grows.dinode, ?_, nonzero, fun other apart => ?_,
    fun x => grows.kept, fun c used other => ?_, ?_⟩
  · rw [after.addrOf here, grows.inum, grows.ref, Function.update_self]
  · cases there : FsDisk.index other with
    | none => simp [FsDisk.addrOf, there]
    | some q =>
        rw [after.addrOf there, ok.addrOf there, grows.inum, grows.ref, Function.update_of_ne]
        intro clash
        have place : q = p := congrArg Prod.snd clash
        exact apart (FsDisk.index_inj there (by rw [here, place]))
  · refine grows.block c (fun new => ?_) other
    rw [new, grows.free] at used
    cases used
  · rw [same]
    refine ⟨fun none => ⟨none, ?_⟩, And.left⟩
    by_contra large
    exact list (Nat.le_of_not_lt large) none

/-- An allocation of the indirect block, before the block itself is mapped. -/
theorem Grows.then_mapped {l m l' : Locked} {bn b addr : Nat} (grows : Grows l m (.addr indirect) b)
    (ok : l.Ok) (large : ndirect ≤ bn) (mapped : Mapped m bn addr l') : Mapped l bn addr l' := by
  have middle := grows.ok ok
  refine ⟨mapped.ok, mapped.inum.trans grows.inum, ?_, mapped.sb.trans grows.sb,
    mapped.dinode.trans grows.dinode, mapped.found, mapped.nonzero, fun other apart => ?_,
    fun x listed => ?_, fun c used other => ?_, ?_⟩
  · rw [mapped.ip, grows.ip]
  · rw [mapped.others other apart]
    cases there : FsDisk.index other with
    | none => simp [FsDisk.addrOf, there]
    | some q =>
        rw [middle.addrOf there, ok.addrOf there, grows.inum, grows.ref, Function.update_of_ne]
        intro clash
        have place : q = .addr indirect := congrArg Prod.snd clash
        exact FsDisk.index_ne_indirect (by rw [there, place])
  · have first := grows.kept listed
    rw [mapped.kept x (by rw [first]; exact listed), first]
  · have new : c ≠ b := by
      rintro rfl
      rw [grows.free] at used
      cases used
    have list : m.ip.addrs indirect = b := by
      have own : m.flush.ref (m.inum, .addr indirect) = m.ip.addrs indirect := middle.ref _
      rw [grows.inum, grows.ref, Function.update_self] at own
      exact own.symm
    rw [mapped.block c (by rw [grows.bit, Function.update_of_ne new]; exact used) other]
    exact grows.block c new (by rw [list]; exact new)
  · rw [mapped.list]
    exact iff_of_false (fun both => Nat.not_lt.mpr large both.2)
      fun both => Nat.not_lt.mpr large both.2

/-- How many blocks `bmap` has to allocate for block `bn`. -/
def cost (l : Locked) (bn : Nat) : Nat :=
  (if l.disk.addrOf l.ip bn = 0 then 1 else 0) +
    if l.ip.addrs indirect = 0 ∧ ndirect ≤ bn then 1 else 0

/-- What `ensureEntry` does: nothing, or one allocation. -/
theorem ensureEntry_spec {l : Locked} (ok : l.Ok) (list : l.ip.addrs indirect ≠ 0)
    (k : Fin nindirect) :
    l.disk.place l.ip (.entry k) ≠ 0 ∧ l.ensureEntry (l.ip.addrs indirect) k =
      .ok (l.disk.place l.ip (.entry k), l) ∨
    l.disk.place l.ip (.entry k) = 0 ∧ (∃ b, l.ensureEntry (l.ip.addrs indirect) k =
      .ok (b, l.takeEntry k b) ∧ Grows l (l.takeEntry k b) (.entry k) b) ∨
    l.disk.place l.ip (.entry k) = 0 ∧ (∀ b, b < l.disk.sb.size → l.disk.bit b = true) ∧
      l.ensureEntry (l.ip.addrs indirect) k = .error .outOfBlocks := by
  have place : l.disk.place l.ip (.entry k) = (l.disk.block (l.ip.addrs indirect)).word k := by
    simp [FsDisk.place, list]
  rw [place]
  by_cases none : (l.disk.block (l.ip.addrs indirect)).word k = 0
  · refine .inr ?_
    rcases balloc_spec l.disk with ⟨b, inside, free, took⟩ | ⟨all, stopped⟩
    · refine .inl ⟨none, b, ?_, takeEntry_grows ok list none inside free⟩
      simp [ensureEntry, none, took]
      rfl
    · refine .inr ⟨none, all, ?_⟩
      simp [ensureEntry, none, stopped]
      rfl
  · exact .inl ⟨none, by simp [ensureEntry, none]⟩

theorem freeBlocks_of_all {d : FsDisk} (all : ∀ b, b < d.sb.size → d.bit b = true) :
    d.freeBlocks = 0 := by
  rw [FsDisk.freeBlocks, List.countP_eq_zero]
  intro b member
  simp [all b (List.mem_range.mp member)]

theorem index_direct {bn : Nat} (small : bn < ndirect) :
    FsDisk.index bn = some (.addr (Fin.ofNat (ndirect + 1) bn)) := by
  simp [FsDisk.index, small]

theorem index_entry {bn : Nat} (large : ¬ bn < ndirect) (inside : bn - ndirect < nindirect) :
    FsDisk.index bn = some (.entry (Fin.ofNat nindirect (bn - ndirect))) := by
  simp [FsDisk.index, large, inside]

/-- The second half of `bmap`, when there is an indirect block. -/
theorem entry_spec {l : Locked} {bn : Nat} (ok : l.Ok) (large : ¬ bn < ndirect)
    (inside : bn - ndirect < nindirect) (list : l.ip.addrs indirect ≠ 0) :
    (∃ addr l', l.ensureEntry (l.ip.addrs indirect) (bn - ndirect) = .ok (addr, l') ∧
      Mapped l bn addr l' ∧ l.disk.freeBlocks = l'.disk.freeBlocks + l.cost bn ∧
      (l.disk.addrOf l.ip bn ≠ 0 → l' = l)) ∨
    l.ensureEntry (l.ip.addrs indirect) (bn - ndirect) = .error .outOfBlocks ∧
      l.disk.freeBlocks < l.cost bn := by
  have here := index_entry large inside
  have index : ((Fin.ofNat nindirect (bn - ndirect)).val : Nat) = bn - ndirect :=
    Nat.mod_eq_of_lt inside
  have place : l.disk.addrOf l.ip bn =
      l.disk.place l.ip (.entry (Fin.ofNat nindirect (bn - ndirect))) := by
    simp [FsDisk.addrOf, here]
  have spec := ensureEntry_spec ok list (Fin.ofNat nindirect (bn - ndirect))
  rw [← place, index] at spec
  rcases spec with ⟨some, ran⟩ | ⟨none, b, ran, grows⟩ | ⟨none, all, ran⟩
  · refine .inl ⟨_, l, ran, .refl ok some fun _ => list, ?_, fun _ => rfl⟩
    simp [cost, some, list]
  · refine .inl ⟨b, _, ran, grows.mapped ok here fun _ => list, ?_, fun some => absurd none some⟩
    rw [grows.freeBlocks]
    simp [cost, none, list]
  · refine .inr ⟨ran, ?_⟩
    rw [freeBlocks_of_all all]
    simp [cost, none, list]

/-- `bmap` maps a block of a file, or there are not enough free blocks. -/
theorem bmap_spec {l : Locked} {bn : Nat} (ok : l.Ok) (inside : bn < maxfile) :
    (∃ addr l', bmap l bn = .ok (addr, l') ∧ Mapped l bn addr l' ∧
      l.disk.freeBlocks = l'.disk.freeBlocks + l.cost bn ∧
      (l.disk.addrOf l.ip bn ≠ 0 → l' = l)) ∨
    bmap l bn = .error .outOfBlocks ∧ l.disk.freeBlocks < l.cost bn := by
  by_cases small : bn < ndirect
  · have here := index_direct small
    have far : ¬ ndirect ≤ bn := Nat.not_le.mpr small
    have place : l.disk.addrOf l.ip bn = l.ip.addrs (Fin.ofNat (ndirect + 1) bn) := by
      simp [FsDisk.addrOf, here, FsDisk.place]
    have mapping : bmap l bn = l.ensure (Fin.ofNat (ndirect + 1) bn) := if_pos small
    have spec := ensure_spec ok (Fin.ofNat (ndirect + 1) bn)
    rw [← place, ← mapping] at spec
    rcases spec with ⟨some, ran⟩ | ⟨none, b, ran, grows⟩ | ⟨none, all, ran⟩
    · refine .inl ⟨_, l, ran, .refl ok some fun large => absurd large far, ?_, fun _ => rfl⟩
      simp [cost, some, small]
    · refine .inl ⟨b, _, ran, grows.mapped ok here fun large => absurd large far, ?_,
        fun some => absurd none some⟩
      rw [grows.freeBlocks]
      simp [cost, none, small]
    · refine .inr ⟨ran, ?_⟩
      rw [freeBlocks_of_all all]
      simp [cost, none, far]
  · have large : ndirect ≤ bn := Nat.le_of_not_lt small
    have word : bn - ndirect < nindirect := by
      simp only [maxfile, ndirect, nindirect] at *
      omega
    have mapping : bmap l bn = l.ensure indirect >>= fun r => r.2.ensureEntry r.1 (bn - ndirect) := by
      rw [bmap, if_neg small, if_pos word]
    rw [mapping]
    rcases ensure_spec ok indirect with ⟨some, ran⟩ | ⟨none, b, ran, grows⟩ | ⟨none, all, ran⟩
    · rw [ran]
      exact entry_spec ok small word some
    · rw [ran]
      have middle := grows.ok ok
      have nonzero := (ok.fresh grows.inside grows.free).1
      have list : (l.takeAddr indirect b).ip.addrs indirect = b := by simp [takeAddr]
      have unlisted : l.disk.addrOf l.ip bn = 0 := by
        simp [FsDisk.addrOf, index_entry small word, FsDisk.place, none]
      have unlisted' : (l.takeAddr indirect b).disk.addrOf (l.takeAddr indirect b).ip bn = 0 := by
        simp [FsDisk.addrOf, index_entry small word, FsDisk.place, takeAddr, zero_word]
      have costs : l.cost bn = (l.takeAddr indirect b).cost bn + 1 := by
        simp [cost, unlisted, unlisted', none, large, list, nonzero]
      have spec := entry_spec middle small word (by rw [list]; exact nonzero)
      rw [list] at spec
      rcases spec with ⟨addr, l', next, mapped, count, _⟩ | ⟨next, few⟩
      · refine .inl ⟨addr, l', next, grows.then_mapped ok large mapped, ?_,
          fun some => absurd unlisted some⟩
        rw [grows.freeBlocks, count, costs]
        omega
      · refine .inr ⟨next, ?_⟩
        rw [grows.freeBlocks, costs]
        omega
    · refine .inr ⟨by rw [ran]; rfl, ?_⟩
      rw [freeBlocks_of_all all]
      simp [cost, none, large]

/-- Only the blocks of the largest file have a place. -/
theorem lt_maxfile {d : FsDisk} {ip : Dinode} {bn : Nat} (some : d.addrOf ip bn ≠ 0) :
    bn < maxfile := by
  by_contra large
  have none : FsDisk.index bn = Option.none := by
    simp only [maxfile, ndirect, nindirect] at large
    rw [FsDisk.index, if_neg, if_neg]
    · simp only [ndirect, nindirect]
      omega
    · simp only [ndirect]
      omega
  exact some (by simp [FsDisk.addrOf, none])

/-- A block that is allocated is found. -/
theorem bmap_found {l : Locked} {bn : Nat} (some : l.disk.addrOf l.ip bn ≠ 0) :
    bmap l bn = .ok (l.disk.addrOf l.ip bn, l) := by
  have inside := lt_maxfile some
  by_cases small : bn < ndirect
  · have address : l.disk.addrOf l.ip bn = l.ip.addrs (Fin.ofNat (ndirect + 1) bn) := by
      rw [FsDisk.addrOf, FsDisk.index, if_pos small]
      rfl
    rw [address] at some ⊢
    rw [bmap, if_pos small, ensure, if_neg some]
  · have word : bn - ndirect < nindirect := by
      simp only [maxfile, ndirect, nindirect] at *
      omega
    have address : l.disk.addrOf l.ip bn =
        l.disk.place l.ip (.entry (Fin.ofNat nindirect (bn - ndirect))) := by
      rw [FsDisk.addrOf, index_entry small word]
      rfl
    have listed : l.ip.addrs indirect ≠ 0 := by
      intro none
      exact some (address.trans (if_pos none))
    have entry : l.disk.addrOf l.ip bn =
        (l.disk.block (l.ip.addrs indirect)).word (bn - ndirect) := by
      rw [address, FsDisk.place, if_neg listed]
      exact congrArg _ (Nat.mod_eq_of_lt word)
    rw [entry] at some ⊢
    rw [bmap, if_neg small, if_pos word, ensure, if_neg listed]
    exact if_neg some

/-- The locked inode has all blocks below its size, and is no larger than the largest file. -/
theorem Ok.full {l : Locked} (ok : l.Ok) {bn : Nat} (below : bn * bsize < l.ip.size) :
    l.disk.addrOf l.ip bn ≠ 0 := by
  have listed := ok.owned.full l.inum ⟨ok.inside, by simpa using ok.type⟩ bn
  rw [flush_self] at listed
  exact listed below

theorem Ok.size_le {l : Locked} (ok : l.Ok) : l.ip.size ≤ maxfile * bsize := by
  by_contra large
  exact Nat.lt_irrefl _ (lt_maxfile (ok.full (Nat.lt_of_not_le large)))

end Locked

end SlabStudy.Xv6
