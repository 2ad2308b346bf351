import SlabStudy.Library.Runs
import SlabStudy.Xv6.FileContent

/-!
# The inode cache

`ialloc`, `iget`, `idup`, `ilock` and `iput` of `fs.c`, and the system whose
steps are these calls, `readi` and `writei` on any cached inode.  Between two
steps every valid cached copy agrees with its on-disk inode, and the ownership
of blocks is exact.
-/

namespace SlabStudy.Xv6

open Library

/-- Maximum number of active inodes. -/
abbrev ninode : Nat := 50

instance : NeZero ninode := ⟨by decide⟩
instance : LawfulBEq (Fin ninode) := inferInstance

/-- `struct inode`; there is one device, and the sleep-lock is taken and released within a step. -/
structure CachedInode where
  inum : Nat
  ref : Nat
  valid : Bool
  copy : Dinode

structure FsState where
  disk : FsDisk
  icache : Fin ninode → CachedInode

namespace FsState

def setSlot (s : FsState) (ip : Fin ninode) (entry : CachedInode) : FsState :=
  { s with icache := Function.update s.icache ip entry }

/-- Find the inode with number `inum` and return its entry. -/
def iget (s : FsState) (inum : Nat) : Except FsPanic (Fin ninode × FsState) :=
  match (List.finRange ninode).find? fun ip =>
      decide ((s.icache ip).ref > 0 ∧ (s.icache ip).inum = inum) with
  | some ip => .ok (ip, s.setSlot ip { s.icache ip with ref := (s.icache ip).ref + 1 })
  | none =>
      -- recycle an inode cache entry
      match (List.finRange ninode).find? fun ip => decide ((s.icache ip).ref = 0) with
      | some ip => .ok (ip, s.setSlot ip { s.icache ip with inum := inum, ref := 1, valid := false })
      | none => .error .noInodes

/-- Allocate an inode, and return it referenced. -/
def ialloc (s : FsState) (type : InodeType) : Except FsPanic (Fin ninode × FsState) :=
  match (List.range' 1 (s.disk.sb.ninodes - 1)).find? fun inum =>
      decide ((s.disk.dinode inum).type = .free) with
  | some inum =>
      { s with disk := iupdate s.disk inum { Dinode.zero with type := type } }.iget inum
  | none => .error .noDiskInodes

def idup (s : FsState) (ip : Fin ninode) : FsState :=
  s.setSlot ip { s.icache ip with ref := (s.icache ip).ref + 1 }

/-- Lock an inode, and read it from disk if necessary. -/
def ilock (s : FsState) (ip : Fin ninode) : Except FsPanic FsState :=
  if (s.icache ip).valid then .ok s
  else
    let copy := s.disk.dinode (s.icache ip).inum
    if copy.type = .free then .error .noType
    else .ok (s.setSlot ip { s.icache ip with valid := true, copy := copy })

/-- The inode in slot `ip`, locked. -/
def locked (s : FsState) (ip : Fin ninode) : Locked :=
  ⟨(s.icache ip).inum, (s.icache ip).copy, s.disk⟩

/-- Put a locked inode back into its slot. -/
def unlock (s : FsState) (ip : Fin ninode) (l : Locked) : FsState :=
  { disk := l.disk, icache := Function.update s.icache ip { s.icache ip with copy := l.ip } }

theorem unlock_self (s : FsState) (ip : Fin ninode) (l : Locked) :
    (s.unlock ip l).icache ip = { s.icache ip with copy := l.ip } := Function.update_self ..

/-- Drop a reference; free the inode if it has no links and no other references. -/
def iput (s : FsState) (ip : Fin ninode) : Except FsPanic FsState := do
  let s ← if (s.icache ip).valid ∧ (s.icache ip).copy.nlink = 0 ∧ (s.icache ip).ref = 1 then do
      let l ← itrunc (s.locked ip)
      let copy := { l.ip with type := .free }
      let s := s.unlock ip ⟨l.inum, copy, iupdate l.disk l.inum copy⟩
      .ok (s.setSlot ip { s.icache ip with valid := false })
    else .ok s
  .ok (s.setSlot ip { s.icache ip with ref := (s.icache ip).ref - 1 })

end FsState

/-- The calls; every call on a slot is by a caller that holds a reference to it. -/
inductive InodeOp where
  | iget (inum : Nat)
  | ialloc (type : InodeType)
  | idup (ip : Fin ninode)
  | ilock (ip : Fin ninode)
  | readi (ip : Fin ninode) (off n : Nat)
  | writei (ip : Fin ninode) (off : Nat) (data : List UInt8)
  /-- `ip->nlink` is changed, and the inode updated. -/
  | link (ip : Fin ninode) (nlink : Int)
  | iput (ip : Fin ninode)

namespace FsState

/-- One call; `none` when the caller would not make it. -/
def step (devsw : Devsw) (s : FsState) : InodeOp → Option (Except FsPanic FsState)
  | .iget inum =>
      if inum < s.disk.sb.ninodes then some ((s.iget inum).map Prod.snd) else none
  | .ialloc type => if type = .free then none else some ((s.ialloc type).map Prod.snd)
  | .idup ip => if (s.icache ip).ref > 0 then some (.ok (s.idup ip)) else none
  | .ilock ip => if (s.icache ip).ref > 0 then some (s.ilock ip) else none
  | .readi ip off n =>
      -- the arguments are of type `uint`
      if ((s.icache ip).ref > 0 ∧ (s.icache ip).valid) ∧ off < 2 ^ 32 ∧ n < 2 ^ 32 then
        some ((readi devsw (s.locked ip) off n).map fun r => s.unlock ip r.2.2)
      else none
  | .writei ip off data =>
      if ((s.icache ip).ref > 0 ∧ (s.icache ip).valid) ∧ off < 2 ^ 32 ∧ data.length < 2 ^ 32 then
        some ((writei devsw (s.locked ip) off data).map fun r => s.unlock ip r.2)
      else none
  | .link ip nlink =>
      if (s.icache ip).ref > 0 ∧ (s.icache ip).valid then
        let copy := { (s.icache ip).copy with nlink := nlink }
        some (.ok (s.unlock ip ⟨(s.icache ip).inum, copy,
          iupdate s.disk (s.icache ip).inum copy⟩))
      else none
  | .iput ip => if (s.icache ip).ref > 0 then some (s.iput ip) else none

end FsState

/-- The file system from an image, with an empty cache. -/
def inodeSystem (devsw : Devsw) : System (Except FsPanic FsState) InodeOp where
  initial r := ∃ s, r = .ok s ∧ s.disk.Owned ∧ ∀ ip, (s.icache ip).ref = 0
  step r label next := ∃ s, r = .ok s ∧ s.step devsw label = some next

/-! ## itrunc -/

section Truncate

/-- Freeing what some places hold succeeds, and empties these places. -/
theorem bfreeAll_owns {ι : Type} [DecidableEq ι] {d : FsDisk} {reserved size : Nat}
    {ref after : ι → Nat} (owns : Owns reserved size d.bit ref) {places : List ι}
    (nodup : places.Nodup) (emptied : ∀ x ∈ places, after x = 0)
    (others : ∀ x, x ∉ places → after x = ref x) :
    ∃ bit, bfreeAll d (places.map ref) = .ok { d with bit := bit } ∧
      Owns reserved size bit after := by
  induction places generalizing d ref with
  | nil =>
      obtain rfl : after = ref := funext fun x => others x List.not_mem_nil
      exact ⟨d.bit, rfl, owns⟩
  | cons place places ih =>
      obtain ⟨new, rest⟩ := List.nodup_cons.mp nodup
      have gone : after place = 0 := emptied place List.mem_cons_self
      have later : ∀ x ∈ places, after x = 0 := fun x member =>
        emptied x (List.mem_cons_of_mem _ member)
      have still : ∀ x, x ∉ places → after x = Function.update ref place 0 x := by
        intro x away
        by_cases here : x = place
        · rw [here, gone, Function.update_self]
        · rw [Function.update_of_ne here]
          exact others x fun member => (List.mem_cons.mp member).elim here away
      have same : places.map (Function.update ref place 0) = places.map ref := by
        refine List.map_congr_left fun x member => Function.update_of_ne ?_ _ _
        rintro rfl
        exact new member
      by_cases none : ref place = 0
      · have unchanged : Function.update ref place 0 = ref := by
          rw [← none, Function.update_eq_self]
        rw [unchanged] at still
        obtain ⟨bit, ran, freed⟩ := ih owns rest later still
        refine ⟨bit, ?_, freed⟩
        rw [List.map_cons, bfreeAll, if_neg (not_not.mpr none)]
        exact ran
      · obtain ⟨bit, ran, freed⟩ := ih
          (d := { d with bit := Function.update d.bit (ref place) false }) (owns.release none) rest
          later still
        rw [same] at ran
        refine ⟨bit, ?_, freed⟩
        rw [List.map_cons, bfreeAll, if_pos none, bfree, if_pos (owns.used_of_ref none)]
        exact ran

/-- The places of an inode, in the order in which `itrunc` frees them. -/
def directPlaces (i : Nat) : List (Nat × Place) :=
  (List.range ndirect).map fun k => (i, .addr (Fin.ofNat (ndirect + 1) k))

def entryPlaces (i : Nat) : List (Nat × Place) :=
  (List.range nindirect).map fun k => (i, .entry (Fin.ofNat nindirect k))

theorem directPlaces_nodup (i : Nat) : (directPlaces i).Nodup := by
  refine List.Nodup.map_on (fun j left k right same => ?_) List.nodup_range
  have left := List.mem_range.mp left
  have right := List.mem_range.mp right
  simp only [Prod.mk.injEq, true_and, Place.addr.injEq, Fin.ext_iff, Fin.val_ofNat] at same
  simp only [ndirect] at *
  omega

theorem entryPlaces_nodup (i : Nat) : (entryPlaces i).Nodup := by
  refine List.Nodup.map_on (fun j left k right same => ?_) List.nodup_range
  have left := List.mem_range.mp left
  have right := List.mem_range.mp right
  simp only [Prod.mk.injEq, true_and, Place.entry.injEq, Fin.ext_iff, Fin.val_ofNat] at same
  simp only [nindirect] at *
  omega

/-- Every place of the inode is one of them, or lists the indirect block. -/
theorem mem_places (i : Nat) (p : Place) :
    (i, p) ∈ directPlaces i ∨ (i, p) ∈ entryPlaces i ∨ p = .addr indirect := by
  cases p with
  | addr k =>
      by_cases last : k = indirect
      · exact .inr (.inr (by rw [last]))
      · refine .inl (List.mem_map.mpr ⟨k.val, List.mem_range.mpr ?_, ?_⟩)
        · have other : k.val ≠ ndirect := fun same => last (Fin.ext same)
          omega
        · simp
  | entry k =>
      exact .inr (.inl (List.mem_map.mpr ⟨k.val, List.mem_range.mpr k.isLt, by simp⟩))

theorem indirect_not_direct (i : Nat) : (i, Place.addr indirect) ∉ directPlaces i := by
  intro member
  obtain ⟨k, small, same⟩ := List.mem_map.mp member
  have small := List.mem_range.mp small
  simp only [indirect, Prod.mk.injEq, true_and, Place.addr.injEq, Fin.ext_iff, Fin.val_ofNat,
    Fin.val_last] at same
  simp only [ndirect] at *
  omega

theorem entry_not_direct (i : Nat) (k : Fin nindirect) : (i, Place.entry k) ∉ directPlaces i := by
  simp [directPlaces]

theorem addr_not_entry (i : Nat) (k : Fin (ndirect + 1)) : (i, Place.addr k) ∉ entryPlaces i := by
  simp [entryPlaces]

theorem fst_of_mem {i : Nat} {x : Nat × Place} (member : x ∈ directPlaces i ∨ x ∈ entryPlaces i) :
    x.1 = i := by
  rcases member with member | member
  · obtain ⟨k, _, rfl⟩ := List.mem_map.mp member
    rfl
  · obtain ⟨k, _, rfl⟩ := List.mem_map.mp member
    rfl

theorem exists_emptied {ι : Type} [DecidableEq ι] (places : List ι) (ref : ι → Nat) :
    ∃ after : ι → Nat, (∀ x ∈ places, after x = 0) ∧ ∀ x, x ∉ places → after x = ref x :=
  ⟨fun x => if x ∈ places then 0 else ref x, fun _ member => if_pos member,
    fun _ away => if_neg away⟩

/-- `itrunc` frees every block of the inode, and no other. -/
theorem itrunc_spec {l : Locked} (after : Nat × Place → Nat) (ok : l.Ok)
    (emptied : ∀ p, after (l.inum, p) = 0)
    (others : ∀ i p, i ≠ l.inum → after (i, p) = l.flush.ref (i, p)) :
    ∃ bit, itrunc l = .ok ⟨l.inum, { l.ip with size := 0, addrs := fun _ => 0 },
        iupdate { l.disk with bit := bit } l.inum { l.ip with size := 0, addrs := fun _ => 0 }⟩ ∧
      Owns l.disk.sb.nmeta l.disk.sb.size bit after := by
  have direct : (List.range ndirect).map (fun k => l.ip.addrs (Fin.ofNat (ndirect + 1) k)) =
      (directPlaces l.inum).map l.flush.ref := by
    rw [directPlaces, List.map_map]
    refine List.map_congr_left fun k _ => ?_
    rw [Function.comp_apply, ok.ref]
    rfl
  -- a place that has been freed, or that was empty
  have empty : ∀ x, x.1 = l.inum → after x = 0 := by
    rintro ⟨i, p⟩ rfl
    exact emptied p
  by_cases none : l.ip.addrs indirect = 0
  · have rest : ∀ x, x ∉ directPlaces l.inum → after x = l.flush.ref x := by
      rintro ⟨i, p⟩ away
      by_cases self : i = l.inum
      · subst self
        rw [emptied, ok.ref]
        rcases mem_places l.inum p with there | there | rfl
        · exact absurd there away
        · obtain ⟨k, _, same⟩ := List.mem_map.mp there
          obtain rfl : Place.entry (Fin.ofNat nindirect k) = p := congrArg Prod.snd same
          simp [FsDisk.place, none]
        · exact none.symm
      · exact others i p self
    obtain ⟨bit, ran, owns⟩ := bfreeAll_owns (d := l.disk) ok.owned.owns
      (directPlaces_nodup l.inum) (fun x member => empty x (fst_of_mem (.inl member))) rest
    refine ⟨bit, ?_, owns⟩
    rw [itrunc, direct, ran]
    simp only [none, ne_eq, not_true_eq_false, if_false]
    rfl
  · -- after the direct blocks the entries of the indirect block, and at last the block itself
    obtain ⟨ref₁, emptied₁, others₁⟩ := exists_emptied (directPlaces l.inum) l.flush.ref
    obtain ⟨ref₂, emptied₂, others₂⟩ := exists_emptied (entryPlaces l.inum) ref₁
    obtain ⟨bit₁, ran₁, owns₁⟩ := bfreeAll_owns (d := l.disk) ok.owned.owns
      (directPlaces_nodup l.inum) emptied₁ others₁
    obtain ⟨bit₂, ran₂, owns₂⟩ := bfreeAll_owns (d := { l.disk with bit := bit₁ }) owns₁
      (entryPlaces_nodup l.inum) emptied₂ others₂
    have words : (l.disk.block (l.ip.addrs indirect)).words = (entryPlaces l.inum).map ref₁ := by
      rw [Block.words, entryPlaces, List.map_map]
      refine List.map_congr_left fun k member => ?_
      have index : (Fin.ofNat nindirect k).val = k := Nat.mod_eq_of_lt (List.mem_range.mp member)
      rw [Function.comp_apply, others₁ _ (entry_not_direct _ _), ok.ref, FsDisk.place, if_neg none,
        index]
    have list : ref₂ (l.inum, .addr indirect) = l.ip.addrs indirect := by
      rw [others₂ _ (addr_not_entry _ _), others₁ _ (indirect_not_direct _), ok.ref]
      rfl
    have held : ref₂ (l.inum, .addr indirect) ≠ 0 := by
      rw [list]
      exact none
    have used := owns₂.used_of_ref held
    have owns₃ := owns₂.release held
    have final : Function.update ref₂ (l.inum, .addr indirect) 0 = after := by
      funext x
      obtain ⟨i, p⟩ := x
      by_cases self : i = l.inum
      · subst self
        rw [emptied]
        by_cases last : p = .addr indirect
        · rw [last, Function.update_self]
        · rw [Function.update_of_ne fun same => last (congrArg Prod.snd same)]
          by_cases entry : (l.inum, p) ∈ entryPlaces l.inum
          · exact emptied₂ _ entry
          · rw [others₂ _ entry]
            rcases mem_places l.inum p with there | there | there
            · exact emptied₁ _ there
            · exact absurd there entry
            · exact absurd there last
      · rw [Function.update_of_ne fun same => self (congrArg Prod.fst same),
          others₂ _ fun member => self (fst_of_mem (.inr member)),
          others₁ _ fun member => self (fst_of_mem (.inl member)), others i p self]
    rw [final, list] at owns₃
    rw [list] at used
    refine ⟨_, ?_, owns₃⟩
    have freed : bfree { l.disk with bit := bit₂ } (l.ip.addrs indirect) =
        .ok { l.disk with bit := Function.update bit₂ (l.ip.addrs indirect) false } := if_pos used
    rw [itrunc, direct, ran₁]
    simp only [none, ne_eq, not_false_eq_true, if_true]
    rw [← words] at ran₂
    change (bfreeAll { l.disk with bit := bit₁ } (l.disk.block (l.ip.addrs indirect)).words >>=
      _) = _
    rw [ran₂]
    change (bfree { l.disk with bit := bit₂ } (l.ip.addrs indirect) >>= _) = _
    rw [freed]
    rfl

end Truncate

/-! ## Freeing and allocating inodes -/

namespace FsDisk

/-- Freeing an inode whose blocks have been freed. -/
theorem Owned.freed {d : FsDisk} {bit : Nat → Bool} (owned : d.Owned) (i : Nat) (ip : Dinode)
    (type : ip.type = .free) (owns : Owns d.sb.nmeta d.sb.size bit
      fun x => if x.1 = i then 0 else d.ref x) :
    (iupdate { d with bit := bit } i ip).Owned := by
  refine owned.replace i ip bit ?_ fun some => absurd type some
  simpa only [type, ne_eq, not_true_eq_false, and_false, if_false] using owns

/-- A free inode gets a type, and has no blocks. -/
theorem Owned.ialloc {d : FsDisk} {i : Nat} (owned : d.Owned) (free : (d.dinode i).type = .free)
    (type : InodeType) : (iupdate d i { Dinode.zero with type := type }).Owned := by
  refine owned.replace i _ d.bit ?_ fun _ bn below => absurd below (Nat.not_lt_zero _)
  have unused : ¬ d.Allocated i := fun allocated => allocated.2 free
  have empty : ∀ p, d.place { Dinode.zero with type := type } p = 0 := by
    intro p
    cases p with
    | addr k => rfl
    | entry k => rfl
  have same : (fun x : Nat × Place => if x.1 = i then
      if i < d.sb.ninodes ∧ type ≠ .free then d.place { Dinode.zero with type := type } x.2 else 0
      else d.ref x) = d.ref := by
    funext ⟨j, p⟩
    by_cases self : j = i
    · subst self
      simp [FsDisk.ref, unused, empty]
    · simp only [self, if_false]
  rw [same]
  exact owned.owns

end FsDisk

/-! ## The cache -/

/-- Valid copies agree with the disk, and an inode is cached once. -/
structure CacheInv (s : FsState) : Prop where
  owned : s.disk.Owned
  inside : ∀ ip, (s.icache ip).ref > 0 → (s.icache ip).inum < s.disk.sb.ninodes
  copies : ∀ ip, (s.icache ip).ref > 0 → (s.icache ip).valid = true →
    (s.icache ip).copy = s.disk.dinode (s.icache ip).inum ∧ (s.icache ip).copy.type ≠ .free
  unique : ∀ ip jp, (s.icache ip).ref > 0 → (s.icache jp).ref > 0 →
    (s.icache ip).inum = (s.icache jp).inum → ip = jp

namespace CacheInv

variable {s : FsState} {ip : Fin ninode}

/-- One slot gets another entry, and the disk may change at the inode of this slot. -/
theorem slot (inv : CacheInv s) {disk : FsDisk} {entry : CachedInode} (owned : disk.Owned)
    (sb : disk.sb = s.disk.sb)
    (others : ∀ i, i ≠ entry.inum → disk.dinode i = s.disk.dinode i)
    (inside : entry.ref > 0 → entry.inum < s.disk.sb.ninodes)
    (copy : entry.ref > 0 → entry.valid = true →
      entry.copy = disk.dinode entry.inum ∧ entry.copy.type ≠ .free)
    (apart : ∀ jp, jp ≠ ip → (s.icache jp).ref > 0 → (s.icache jp).inum ≠ entry.inum) :
    CacheInv ⟨disk, Function.update s.icache ip entry⟩ := by
  refine ⟨owned, fun jp => ?_, fun jp => ?_, fun jp kp => ?_⟩
  · dsimp only
    rw [sb]
    by_cases self : jp = ip
    · rw [self, Function.update_self]
      exact inside
    · rw [Function.update_of_ne self]
      exact inv.inside jp
  · dsimp only
    by_cases self : jp = ip
    · rw [self, Function.update_self]
      exact copy
    · rw [Function.update_of_ne self]
      intro held valid
      rw [others _ (apart jp self held)]
      exact inv.copies jp held valid
  · dsimp only
    by_cases left : jp = ip
    · by_cases right : kp = ip
      · exact fun _ _ _ => left.trans right.symm
      · rw [left, Function.update_self, Function.update_of_ne right]
        exact fun _ held same => absurd same.symm (apart kp right held)
    · by_cases right : kp = ip
      · rw [right, Function.update_self, Function.update_of_ne left]
        exact fun held _ same => absurd same (apart jp left held)
      · rw [Function.update_of_ne left, Function.update_of_ne right]
        exact inv.unique jp kp

/-- The other slots hold other inodes. -/
theorem apart (inv : CacheInv s) (held : (s.icache ip).ref > 0) (jp : Fin ninode) (other : jp ≠ ip)
    (also : (s.icache jp).ref > 0) : (s.icache jp).inum ≠ (s.icache ip).inum :=
  fun same => other (inv.unique jp ip also held same)

/-- A locked slot is the inode as it is on the disk. -/
theorem locked (inv : CacheInv s) (held : (s.icache ip).ref > 0)
    (valid : (s.icache ip).valid = true) :
    s.locked ip = s.disk.locked (s.icache ip).inum ∧ s.disk.Allocated (s.icache ip).inum := by
  obtain ⟨copy, type⟩ := inv.copies ip held valid
  refine ⟨?_, inv.inside ip held, ?_⟩
  · rw [FsState.locked, copy]
    rfl
  · rw [← copy]
    exact type

/-- A call that leaves the locked inode, as it is on the disk, and exact ownership. -/
theorem unlock (inv : CacheInv s) (held : (s.icache ip).ref > 0) {l : Locked} (owned : l.disk.Owned)
    (sb : l.disk.sb = s.disk.sb)
    (others : ∀ i, i ≠ (s.icache ip).inum → l.disk.dinode i = s.disk.dinode i)
    (stored : l.ip = l.disk.dinode (s.icache ip).inum) (type : l.ip.type ≠ .free) :
    CacheInv (s.unlock ip l) :=
  inv.slot owned sb others (fun _ => inv.inside ip held) (fun _ _ => ⟨stored, type⟩)
    (inv.apart held)

theorem iget (inv : CacheInv s) {inum : Nat} (inside : inum < s.disk.sb.ninodes)
    {t : FsState} (ran : s.iget inum = .ok (ip, t)) : CacheInv t := by
  unfold FsState.iget at ran
  split at ran
  · next jp found =>
      cases ran
      have here := List.find?_some found
      simp only [decide_eq_true_eq] at here
      exact inv.slot inv.owned rfl (fun _ _ => rfl) (fun _ => inv.inside ip here.1)
        (fun _ => inv.copies ip here.1) (inv.apart here.1)
  · next none =>
      split at ran
      · next jp found =>
          cases ran
          refine inv.slot inv.owned rfl (fun _ _ => rfl) (fun _ => inside) (fun _ valid => ?_) ?_
          · cases valid
          · intro jp _ held same
            have absent := List.find?_eq_none.mp none jp (List.mem_finRange jp)
            simp only [decide_eq_true_eq] at absent
            exact absent ⟨held, same⟩
      · cases ran

/-- A call ends well, or in a panic for lack of space or of a typeless inode. -/
def Safe (next : Except FsPanic FsState) : Prop :=
  (∀ t, next = .ok t → CacheInv t) ∧ next ≠ .error .freeingFreeBlock ∧ next ≠ .error .outOfRange

theorem Safe.ok (inv : CacheInv s) : Safe (.ok s) := by
  refine ⟨fun t same => ?_, nofun, nofun⟩
  cases same
  exact inv

theorem Safe.error {reason : FsPanic} (first : reason ≠ .freeingFreeBlock)
    (second : reason ≠ .outOfRange) : Safe (.error reason) :=
  ⟨nofun, fun same => first (Except.error.inj same), fun same => second (Except.error.inj same)⟩

theorem iget_safe (inv : CacheInv s) {inum : Nat} (inside : inum < s.disk.sb.ninodes) :
    Safe ((s.iget inum).map Prod.snd) := by
  cases ran : s.iget inum with
  | ok r => exact .ok (inv.iget inside ran)
  | error reason =>
      refine .error ?_ ?_
      all_goals
        rintro rfl
        unfold FsState.iget at ran
        split at ran
        · cases ran
        · split at ran
          · cases ran
          · cases ran

theorem ialloc_safe (inv : CacheInv s) (type : InodeType) :
    Safe ((s.ialloc type).map Prod.snd) := by
  unfold FsState.ialloc
  split
  · next inum found =>
      have free := List.find?_some found
      have member := List.mem_range'_1.mp (List.mem_of_find?_eq_some found)
      simp only [decide_eq_true_eq] at free
      refine iget_safe
        (s := { s with disk := iupdate s.disk inum { Dinode.zero with type := type } })
        ⟨inv.owned.ialloc free type, inv.inside, fun jp held valid => ?_, inv.unique⟩ ?_
      · -- a valid copy is of another inode, since this one was free
        obtain ⟨copy, some⟩ := inv.copies jp held valid
        have other : (s.icache jp).inum ≠ inum := by
          intro same
          rw [copy, same] at some
          exact some free
        refine ⟨copy.trans ?_, some⟩
        exact (Function.update_of_ne other _ _).symm
      · change inum < s.disk.sb.ninodes
        omega
  · exact .error nofun nofun

theorem readi_safe (inv : CacheInv s) (devsw : Devsw) (held : (s.icache ip).ref > 0)
    (valid : (s.icache ip).valid = true) {off n : Nat} (small : off < 2 ^ 32) (few : n < 2 ^ 32) :
    Safe ((readi devsw (s.locked ip) off n).map fun r => s.unlock ip r.2.2) := by
  obtain ⟨same, allocated⟩ := inv.locked held valid
  have still : CacheInv (s.unlock ip (s.locked ip)) := by
    obtain ⟨copy, type⟩ := inv.copies ip held valid
    exact inv.unlock held inv.owned rfl (fun _ _ => rfl) copy type
  by_cases device : (s.locked ip).ip.type = .dev
  · unfold readi
    rw [if_pos device]
    split
    · exact .ok still
    · exact .ok still
  · have regular : (s.disk.dinode (s.icache ip).inum).type ≠ .dev := by
      rw [same] at device
      exact device
    rw [same, FsDisk.readi_eq devsw inv.owned allocated regular small few]
    rw [same] at still
    split
    · exact .ok still
    · exact .ok still

theorem writei_safe (inv : CacheInv s) (devsw : Devsw) (held : (s.icache ip).ref > 0)
    (valid : (s.icache ip).valid = true) {off : Nat} {data : List UInt8} (small : off < 2 ^ 32)
    (few : data.length < 2 ^ 32) :
    Safe ((writei devsw (s.locked ip) off data).map fun r => s.unlock ip r.2) := by
  obtain ⟨same, allocated⟩ := inv.locked held valid
  have still : CacheInv (s.unlock ip (s.locked ip)) := by
    obtain ⟨copy, type⟩ := inv.copies ip held valid
    exact inv.unlock held inv.owned rfl (fun _ _ => rfl) copy type
  by_cases device : (s.locked ip).ip.type = .dev
  · unfold writei
    rw [if_pos device]
    split
    · exact .ok still
    · exact .ok still
  · have regular : (s.disk.dinode (s.icache ip).inum).type ≠ .dev := by
      rw [same] at device
      exact device
    have wrote := FsDisk.writei_eq devsw inv.owned allocated regular small few
    rw [same] at still ⊢
    split at wrote
    · rw [wrote]
      exact .ok still
    · split at wrote
      · obtain ⟨l, ran, replaced⟩ := wrote
        rw [ran]
        refine .ok (inv.unlock held replaced.owned replaced.sb (fun i apart =>
          (replaced.others i apart).1) replaced.stored.symm ?_)
        rw [replaced.ip]
        exact allocated.2
      · rw [wrote]
        exact .error nofun nofun

/-- With the last reference to an inode without links its blocks are freed, and the inode. -/
theorem iput_last (inv : CacheInv s) (held : (s.icache ip).ref > 0)
    (last : (s.icache ip).valid ∧ (s.icache ip).copy.nlink = 0 ∧ (s.icache ip).ref = 1) :
    ∃ t, s.iput ip = .ok t ∧ CacheInv t ∧ (t.disk.dinode (s.icache ip).inum).type = .free := by
  unfold FsState.iput
  obtain ⟨same, allocated⟩ := inv.locked held last.1
  have ok := inv.owned.locked allocated
  have flushed := FsDisk.flush_locked s.disk (s.icache ip).inum
  obtain ⟨bit, ran, owns⟩ := itrunc_spec
    (fun x => if x.1 = (s.icache ip).inum then 0 else s.disk.ref x) ok
    (fun p => if_pos rfl) (fun i p apart => (if_neg apart).trans (by rw [flushed]))
  rw [if_pos last, same, ran]
  let copy := { s.disk.dinode (s.icache ip).inum with
    type := InodeType.free, size := 0, addrs := fun _ => 0 }
  have freed := inv.owned.freed (s.icache ip).inum copy rfl owns
  have cached : CacheInv ⟨iupdate { s.disk with bit := bit } (s.icache ip).inum copy,
      Function.update s.icache ip ⟨(s.icache ip).inum, (s.icache ip).ref - 1, false, copy⟩⟩ :=
    inv.slot freed rfl (fun i apart => Function.update_of_ne apart _ _)
      (fun _ => inv.inside ip held) (fun _ valid => by cases valid) (inv.apart held)
  refine ⟨_, rfl, ?_, ?_⟩
  · simpa [FsState.unlock, FsState.setSlot, iupdate, FsDisk.locked] using cached
  · simp [FsState.unlock, FsState.setSlot, iupdate, FsDisk.locked]

theorem iput_safe (inv : CacheInv s) (held : (s.icache ip).ref > 0) : Safe (s.iput ip) := by
  by_cases last : (s.icache ip).valid ∧ (s.icache ip).copy.nlink = 0 ∧ (s.icache ip).ref = 1
  · obtain ⟨t, ran, kept, _⟩ := inv.iput_last held last
    rw [ran]
    exact .ok kept
  · unfold FsState.iput
    rw [if_neg last]
    refine .ok (inv.slot inv.owned rfl (fun _ _ => rfl) (fun _ => inv.inside ip held)
      (fun _ => inv.copies ip held) (inv.apart held))

theorem step_safe (inv : CacheInv s) (devsw : Devsw) {op : InodeOp} {next : Except FsPanic FsState}
    (ran : s.step devsw op = some next) : Safe next := by
  cases op with
  | iget inum =>
      simp only [FsState.step, Option.ite_none_right_eq_some, Option.some.injEq] at ran
      obtain ⟨inside, rfl⟩ := ran
      exact inv.iget_safe inside
  | ialloc type =>
      simp only [FsState.step, Option.ite_none_left_eq_some, Option.some.injEq] at ran
      obtain ⟨_, rfl⟩ := ran
      exact inv.ialloc_safe type
  | idup ip =>
      simp only [FsState.step, Option.ite_none_right_eq_some, Option.some.injEq] at ran
      obtain ⟨held, rfl⟩ := ran
      exact .ok (inv.slot inv.owned rfl (fun _ _ => rfl) (fun _ => inv.inside ip held)
        (fun _ => inv.copies ip held) (inv.apart held))
  | ilock ip =>
      simp only [FsState.step, Option.ite_none_right_eq_some, Option.some.injEq] at ran
      obtain ⟨held, rfl⟩ := ran
      unfold FsState.ilock
      split
      · exact .ok inv
      · dsimp only
        split
        · exact .error nofun nofun
        · next some =>
            exact .ok (inv.slot inv.owned rfl (fun _ _ => rfl) (fun _ => inv.inside ip held)
              (fun _ _ => ⟨rfl, some⟩) (inv.apart held))
  | readi ip off n =>
      simp only [FsState.step, Option.ite_none_right_eq_some, Option.some.injEq] at ran
      obtain ⟨⟨⟨held, valid⟩, small, few⟩, rfl⟩ := ran
      exact inv.readi_safe devsw held valid small few
  | writei ip off data =>
      simp only [FsState.step, Option.ite_none_right_eq_some, Option.some.injEq] at ran
      obtain ⟨⟨⟨held, valid⟩, small, few⟩, rfl⟩ := ran
      exact inv.writei_safe devsw held valid small few
  | link ip nlink =>
      simp only [FsState.step, Option.ite_none_right_eq_some, Option.some.injEq] at ran
      obtain ⟨⟨held, valid⟩, rfl⟩ := ran
      obtain ⟨copy, type⟩ := inv.copies ip held valid
      refine .ok (inv.unlock held ?_ rfl (fun i apart => Function.update_of_ne apart _ _) ?_ type)
      · refine inv.owned.update _ _ (by rw [copy]) (by rw [copy]) fun bn below => ?_
        rw [copy] at below
        exact inv.owned.full _ (inv.locked held valid).2 bn below
      · simp [iupdate]
  | iput ip =>
      simp only [FsState.step, Option.ite_none_right_eq_some, Option.some.injEq] at ran
      obtain ⟨held, rfl⟩ := ran
      exact inv.iput_safe held

theorem run_safe {devsw : Devsw} {start next : Except FsPanic FsState} {labels : List InodeOp}
    (first : (inodeSystem devsw).initial start)
    (run : (inodeSystem devsw).Run start labels next) : Safe next := by
  refine run.preserves (P := Safe) ?_ ?_
  · rintro state label next safe ⟨s, rfl, ran⟩
    exact (safe.1 s rfl).step_safe devsw ran
  · obtain ⟨s, rfl, owned, empty⟩ := first
    have none : ∀ ip, ¬ (s.icache ip).ref > 0 := fun ip => by rw [empty ip]; exact Nat.lt_irrefl 0
    exact .ok ⟨owned, fun ip held => absurd held (none ip), fun ip held => absurd held (none ip),
      fun ip jp held => absurd held (none ip)⟩

end CacheInv

/--
From a well-formed image, through any sequence of calls that does not stop for
lack of space: the free map is exact, every listed block is listed once,
`balloc` finds no block that is in use, no block is freed twice, and every
inode has all blocks below its size.
-/
theorem block_ownership (devsw : Devsw) {start next : Except FsPanic FsState}
    {labels : List InodeOp} (first : (inodeSystem devsw).initial start)
    (run : (inodeSystem devsw).Run start labels next) :
    next ≠ .error .freeingFreeBlock ∧ ∀ s, next = .ok s →
      (∀ b, b < s.disk.sb.size →
        (s.disk.bit b = true ↔ b < s.disk.sb.nmeta ∨ ∃! x, s.disk.ref x = b)) ∧
      (∀ x y, s.disk.ref x ≠ 0 → s.disk.ref x = s.disk.ref y → x = y) ∧
      (∀ b d, balloc s.disk = .ok (b, d) → s.disk.sb.nmeta ≤ b ∧ ∀ x, s.disk.ref x ≠ b) ∧
      ∀ i, s.disk.Allocated i → ∀ bn, bn * bsize < (s.disk.dinode i).size →
        s.disk.addrOf (s.disk.dinode i) bn ≠ 0 := by
  have safe := CacheInv.run_safe first run
  refine ⟨safe.2.1, ?_⟩
  rintro s rfl
  have inv := safe.1 s rfl
  have owns := inv.owned.owns
  refine ⟨fun b inside => ?_, owns.once, fun b d took => ?_, inv.owned.full⟩
  · rw [owns.marked b inside]
    constructor
    · rintro (reserved | ⟨some, x, rfl⟩)
      · exact .inl reserved
      · exact .inr ⟨x, rfl, fun y same => owns.once y x (by rw [same]; exact some) same⟩
    · rintro (reserved | ⟨x, rfl, _⟩)
      · exact .inl reserved
      · by_cases none : s.disk.ref x = 0
        · exact .inl (by rw [none]; exact Locked.nmeta_pos _)
        · exact .inr ⟨none, x, rfl⟩
  · rcases Locked.balloc_spec s.disk with ⟨c, inside, free, ran⟩ | ⟨_, stopped⟩
    · rw [ran] at took
      cases took
      obtain ⟨above, other⟩ := owns.fresh inside free
      refine ⟨above, fun x same => other x ?_ same⟩
      rw [same]
      exact Nat.ne_of_gt (Nat.lt_of_lt_of_le (Locked.nmeta_pos _) above)
    · rw [stopped] at took
      cases took

/-- More than the direct blocks of an inode hold. -/
def thirteenBlocks : List UInt8 := List.replicate (13 * bsize) 1

theorem length_thirteenBlocks : thirteenBlocks.length = 13 * bsize := List.length_replicate

attribute [irreducible] thirteenBlocks

/-- A file of the sample image gets an indirect block, loses its link, and is freed. -/
theorem sample_block_ownership : ∃ s t : FsState,
    (inodeSystem noDevices).Run (.ok ⟨.sample, fun _ => ⟨0, 0, false, .zero⟩⟩)
      [.iget 1, .ilock 0, .writei 0 0 thirteenBlocks] (.ok s) ∧
    (s.disk.dinode 1).addrs indirect ≠ 0 ∧
    (inodeSystem noDevices).Run (.ok s) [.link 0 0, .iput 0] (.ok t) ∧
    (t.disk.dinode 1).type = .free ∧ ∀ b, b < t.disk.sb.size →
      (t.disk.bit b = true ↔ b < t.disk.sb.nmeta ∨ ∃! x, t.disk.ref x = b) := by
  have first : (inodeSystem noDevices).initial
      (.ok ⟨.sample, fun _ => ⟨0, 0, false, .zero⟩⟩) := ⟨_, rfl, FsDisk.sample_owned, fun _ => rfl⟩
  obtain ⟨r, opened, disk, slot⟩ : ∃ r, (inodeSystem noDevices).Run
      (.ok ⟨.sample, fun _ => ⟨0, 0, false, .zero⟩⟩) [.iget 1, .ilock 0] (.ok r) ∧
      r.disk = .sample ∧ r.icache 0 = ⟨1, 1, true, FsDisk.sample.dinode 1⟩ := by
    have run : (inodeSystem noDevices).Run (.ok ⟨.sample, fun _ => ⟨0, 0, false, .zero⟩⟩)
        ([] ++ [.iget 1] ++ [.ilock 0]) _ := .snoc (.snoc (.nil _) ⟨_, rfl, rfl⟩) ⟨_, rfl, rfl⟩
    exact ⟨_, run, rfl, rfl⟩
  have long := length_thirteenBlocks
  -- there is room for the thirteen blocks and the indirect one
  obtain ⟨l, ran, replaced⟩ : ∃ l,
      writei noDevices (FsDisk.sample.locked 1) 0 thirteenBlocks =
        .ok (thirteenBlocks.length, l) ∧ FsDisk.sample.Replaced 1 thirteenBlocks l := by
    have spec := FsDisk.writei_eq noDevices FsDisk.sample_owned
      (by decide : FsDisk.sample.Allocated 1) (by decide) (by decide : 0 < 2 ^ 32)
      (by rw [long]; decide : thirteenBlocks.length < 2 ^ 32)
    have whole : writeBytes (FsDisk.sample.content (FsDisk.sample.dinode 1)) 0 thirteenBlocks =
        some thirteenBlocks := by
      have empty : FsDisk.sample.content (FsDisk.sample.dinode 1) = [] := rfl
      rw [empty, writeBytes, if_neg (by rw [long]; decide)]
      simp
    rw [whole] at spec
    dsimp only at spec
    rw [if_pos (by rw [long]; decide)] at spec
    exact spec
  have wrote : r.step noDevices (.writei 0 0 thirteenBlocks) = some (.ok (r.unlock 0 l)) := by
    have locked : r.locked 0 = FsDisk.sample.locked 1 := by
      rw [FsState.locked, disk, slot]
      rfl
    unfold FsState.step
    dsimp only
    rw [slot, if_pos ⟨⟨Nat.one_pos, rfl⟩, by decide, by rw [long]; decide⟩, locked, ran]
    rfl
  have run := opened.snoc ⟨r, rfl, wrote⟩
  have held : (r.unlock 0 l).icache 0 = ⟨1, 1, true, l.ip⟩ := by
    rw [FsState.unlock_self, slot]
  have regular : l.ip.type = .file := by
    rw [replaced.ip]
    rfl
  have size : l.ip.size = 13 * bsize := by
    rw [replaced.ip]
    exact long
  have linked : (r.unlock 0 l).step noDevices (.link 0 0) = some (.ok ((r.unlock 0 l).unlock 0
      ⟨1, { l.ip with nlink := 0 }, iupdate l.disk 1 { l.ip with nlink := 0 }⟩)) := by
    unfold FsState.step
    dsimp only
    rw [held, if_pos ⟨Nat.one_pos, rfl⟩]
    rfl
  have unlinked := run.snoc ⟨_, rfl, linked⟩
  have inv := (CacheInv.run_safe first unlinked).1 _ rfl
  have last : ((r.unlock 0 l).unlock 0 ⟨1, { l.ip with nlink := 0 },
      iupdate l.disk 1 { l.ip with nlink := 0 }⟩).icache 0 =
      ⟨1, 1, true, { l.ip with nlink := 0 }⟩ := by
    rw [FsState.unlock_self, held]
  generalize (r.unlock 0 l).unlock 0 ⟨1, { l.ip with nlink := 0 },
    iupdate l.disk 1 { l.ip with nlink := 0 }⟩ = u at linked inv last
  obtain ⟨t, put, _, freed⟩ := inv.iput_last (by rw [last]; exact Nat.one_pos)
    (by rw [last]; exact ⟨rfl, rfl, rfl⟩)
  have put' : u.step noDevices (.iput 0) = some (.ok t) := by
    unfold FsState.step
    dsimp only
    rw [last, if_pos Nat.one_pos, put]
  have closing : (inodeSystem noDevices).Run (.ok (r.unlock 0 l))
      ([] ++ [.link 0 0] ++ [.iput 0]) (.ok t) :=
    .snoc (.snoc (.nil _) ⟨_, rfl, linked⟩) ⟨u, rfl, put'⟩
  rw [last] at freed
  refine ⟨r.unlock 0 l, t, run, ?_, closing, freed,
    ((block_ownership noDevices first (run.append closing)).2 t rfl).1⟩
  -- the thirteenth block is listed in the indirect block
  have disk' : (r.unlock 0 l).disk.dinode 1 = l.ip := replaced.stored
  have allocated : (r.unlock 0 l).disk.Allocated 1 := by
    refine ⟨?_, ?_⟩
    · change 1 < l.disk.sb.ninodes
      rw [replaced.sb]
      decide
    · rw [disk', regular]
      decide
  have listed := ((block_ownership noDevices first run).2 _ rfl).2.2.2 1 allocated 12
    (by rw [disk', size]; decide)
  intro none
  refine listed ?_
  exact if_pos none

end SlabStudy.Xv6
