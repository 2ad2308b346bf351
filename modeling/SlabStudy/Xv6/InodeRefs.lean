import SlabStudy.Xv6.DirOps

/-!
# References that a call holds

Between two calls an inode that a path can lead to has links, or references.
While a call runs the state differs from the one it began with by the references that
the call holds.  Taking, locking and dropping such references frees no inode
and leaves the disk as it is.
-/

namespace SlabStudy.Xv6

open Library

namespace FsState

/-- A path can lead to the inode: it is the root, or a directory names it. -/
def Named (d : FsDisk) (i : Nat) : Prop :=
  i = rootino ∨ ∃ dir k name, d.Allocated dir ∧ (d.dinode dir).type = .dir ∧
    (direntSlots (d.content (d.dinode dir))).lookup name = some (k, i)

/-- A state between two calls.  An inode that a path can lead to has links or is referenced, and
directories hold whole records of inodes that the disk has. -/
structure Consistent (s : FsState) : Prop where
  inv : CacheInv s
  kept : ∀ i, Named s.disk i → s.disk.Allocated i → (s.disk.dinode i).nlink = 0 →
    ∃ ip, (s.icache ip).ref > 0 ∧ (s.icache ip).inum = i
  whole : ∀ i, s.disk.Allocated i → (s.disk.dinode i).type = .dir →
    (s.disk.dinode i).size % direntSize = 0
  inside : ∀ i, Named s.disk i → i < s.disk.sb.ninodes

/-- One more reference to the inode in slot `ip`. -/
def bump (x : Fin ninode → Nat) (ip : Fin ninode) : Fin ninode → Nat :=
  Function.update x ip (x ip + 1)

theorem bump_self (x : Fin ninode → Nat) (ip : Fin ninode) : bump x ip ip = x ip + 1 :=
  Function.update_self ..

theorem bump_other {ip jp : Fin ninode} (x : Fin ninode → Nat) (other : jp ≠ ip) :
    bump x ip jp = x jp := Function.update_of_ne other ..

theorem bump_comm (x : Fin ninode → Nat) (ip jp : Fin ninode) :
    bump (bump x ip) jp = bump (bump x jp) ip := by
  by_cases same : ip = jp
  · rw [same]
  · unfold bump
    rw [Function.update_of_ne same, Function.update_of_ne (Ne.symm same), Function.update_comm same]

/-- `t` differs from `s` by references, `x` says how many to each slot. -/
structure Grabs (s t : FsState) (x : Fin ninode → Nat) : Prop where
  disk : t.disk = s.disk
  inv : CacheInv t
  ref : ∀ ip, (t.icache ip).ref = (s.icache ip).ref + x ip
  same : ∀ ip, (s.icache ip).ref > 0 → (t.icache ip).inum = (s.icache ip).inum
  fresh : ∀ ip, (s.icache ip).ref = 0 → (t.icache ip).ref > 0 → Named s.disk (t.icache ip).inum

variable {s t u : FsState} {x : Fin ninode → Nat} {ip dp : Fin ninode} {inum : Nat}

theorem Grabs.refl (inv : CacheInv s) : Grabs s s fun _ => 0 :=
  ⟨rfl, inv, fun _ => rfl, fun _ _ => rfl, fun _ unused held => absurd held (by omega)⟩

theorem Grabs.held (grabs : Grabs s t (bump x ip)) : (t.icache ip).ref > 0 := by
  rw [grabs.ref, bump_self]
  omega

/-- A slot gets one more reference, or one less. -/
theorem Grabs.retake {y : Fin ninode → Nat} (grabs : Grabs s t x) (ip : Fin ninode)
    (inv : CacheInv u) (disk : u.disk = t.disk) (others : ∀ jp, jp ≠ ip → u.icache jp = t.icache jp)
    (count : (u.icache ip).ref = (s.icache ip).ref + y ip)
    (inum : (s.icache ip).ref > 0 → (u.icache ip).inum = (t.icache ip).inum)
    (fresh : (s.icache ip).ref = 0 → Named s.disk (u.icache ip).inum)
    (away : ∀ jp, jp ≠ ip → y jp = x jp) : Grabs s u y := by
  refine ⟨disk.trans grabs.disk, inv, fun jp => ?_, fun jp held => ?_, fun jp unused held => ?_⟩
  · by_cases self : jp = ip
    · rw [self, count]
    · rw [others jp self, grabs.ref, away jp self]
  · by_cases self : jp = ip
    · subst self
      rw [inum held, grabs.same jp held]
    · rw [others jp self, grabs.same jp held]
  · by_cases self : jp = ip
    · subst self
      exact fresh unused
    · rw [others jp self] at held ⊢
      exact grabs.fresh jp unused held

theorem Grabs.iget (grabs : Grabs s t x) (consistent : s.Consistent) (leads : Named s.disk inum)
    (ran : t.iget inum = .ok (ip, u)) : Grabs s u (bump x ip) ∧ (u.icache ip).inum = inum := by
  have inside := consistent.inside inum leads
  have inv : CacheInv u := grabs.inv.iget (by rw [grabs.disk]; exact inside) ran
  have count := grabs.ref ip
  rcases iget_cases ran with ⟨held, named, rfl⟩ | ⟨none, _, rfl⟩
  · refine ⟨grabs.retake ip inv rfl (fun jp other => setSlot_other other _) ?_ ?_ ?_
      fun jp other => bump_other x other, ?_⟩
    · rw [setSlot_self, bump_self]
      change (t.icache ip).ref + 1 = _
      omega
    · rw [setSlot_self]
      exact fun _ => rfl
    · rw [setSlot_self]
      exact fun _ => named ▸ leads
    · rw [setSlot_self]
      exact named
  · refine ⟨grabs.retake ip inv rfl (fun jp other => setSlot_other other _) ?_ ?_ ?_
      fun jp other => bump_other x other, ?_⟩
    · rw [setSlot_self, bump_self]
      change 1 = _
      omega
    · intro held
      omega
    · rw [setSlot_self]
      exact fun _ => leads
    · rw [setSlot_self]

theorem Grabs.idup (grabs : Grabs s t x) (held : (t.icache ip).ref > 0) :
    Grabs s (t.idup ip) (bump x ip) ∧ ((t.idup ip).icache ip).inum = (t.icache ip).inum := by
  have inv : CacheInv (t.idup ip) := grabs.inv.slot grabs.inv.owned rfl (fun _ _ => rfl)
    (fun _ => grabs.inv.inside ip held) (fun _ => grabs.inv.copies ip held) (grabs.inv.apart held)
  have count := grabs.ref ip
  refine ⟨grabs.retake ip inv rfl (fun jp other => setSlot_other other _) ?_ ?_ ?_
    fun jp other => bump_other x other, ?_⟩
  · rw [FsState.idup, setSlot_self, bump_self]
    change (t.icache ip).ref + 1 = _
    omega
  · rw [FsState.idup, setSlot_self]
    exact fun _ => rfl
  · rw [FsState.idup, setSlot_self]
    exact fun unused => grabs.fresh ip unused held
  · rw [FsState.idup, setSlot_self]

/-- A locked inode is read, and its copy is what the disk has. -/
structure Ready (t : FsState) (ip : Fin ninode) (inum : Nat) : Prop where
  held : (t.icache ip).ref > 0
  named : (t.icache ip).inum = inum
  valid : (t.icache ip).valid = true
  copy : (t.icache ip).copy = t.disk.dinode inum
  type : (t.icache ip).copy.type ≠ .free
  inside : inum < t.disk.sb.ninodes

theorem Ready.of_valid (inv : CacheInv t) (held : (t.icache ip).ref > 0)
    (named : (t.icache ip).inum = inum) (valid : (t.icache ip).valid = true) : t.Ready ip inum := by
  obtain ⟨copy, type⟩ := inv.copies ip held valid
  exact ⟨held, named, valid, named ▸ copy, type, named ▸ inv.inside ip held⟩

theorem Ready.allocated (ready : t.Ready ip inum) : t.disk.Allocated inum :=
  ⟨ready.inside, ready.copy ▸ ready.type⟩

theorem Grabs.ilock (grabs : Grabs s t x) (held : (t.icache ip).ref > 0)
    (named : (t.icache ip).inum = inum) (ran : t.ilock ip = .ok u) :
    Grabs s u x ∧ u.Ready ip inum ∧ ∀ jp, jp ≠ ip → u.icache jp = t.icache jp := by
  unfold FsState.ilock at ran
  split at ran
  · next valid =>
      cases ran
      exact ⟨grabs, .of_valid grabs.inv held named valid, fun _ _ => rfl⟩
  · next stale =>
      dsimp only at ran
      split at ran
      · cases ran
      · next type =>
          cases ran
          have inv : CacheInv (t.setSlot ip { t.icache ip with
              valid := true, copy := t.disk.dinode (t.icache ip).inum }) :=
            grabs.inv.slot grabs.inv.owned rfl (fun _ _ => rfl) (fun _ => grabs.inv.inside ip held)
              (fun _ _ => ⟨rfl, type⟩) (grabs.inv.apart held)
          refine ⟨grabs.retake ip inv rfl (fun jp other => setSlot_other other _) ?_ ?_ ?_
            fun _ _ => rfl, .of_valid inv ?_ ?_ ?_, fun jp other => setSlot_other other _⟩
          · rw [setSlot_self]
            exact grabs.ref ip
          · rw [setSlot_self]
            exact fun _ => rfl
          · rw [setSlot_self]
            exact fun unused => grabs.fresh ip unused held
          · rw [setSlot_self]
            exact held
          · rw [setSlot_self]
            exact named
          · rw [setSlot_self]

/-- `iput` that does not free the inode. -/
theorem iput_keeps (keep : ¬ ((t.icache ip).valid = true ∧ (t.icache ip).copy.nlink = 0 ∧
    (t.icache ip).ref = 1)) :
    t.iput ip = .ok (t.setSlot ip { t.icache ip with ref := (t.icache ip).ref - 1 }) := by
  unfold FsState.iput
  rw [if_neg keep]
  rfl

/-- Dropping a reference that the call took frees no inode. -/
theorem Grabs.iput (grabs : Grabs s t (bump x ip)) (consistent : s.Consistent) :
    ∃ u, t.iput ip = .ok u ∧ Grabs s u x ∧ ∀ jp, (u.icache jp).inum = (t.icache jp).inum := by
  have held := grabs.held
  have count := grabs.ref ip
  rw [bump_self] at count
  have keep : ¬ ((t.icache ip).valid = true ∧ (t.icache ip).copy.nlink = 0 ∧
      (t.icache ip).ref = 1) := by
    rintro ⟨valid, links, last⟩
    obtain ⟨copy, type⟩ := grabs.inv.copies ip held valid
    have allocated : s.disk.Allocated (t.icache ip).inum := by
      rw [← grabs.disk]
      exact ⟨grabs.inv.inside ip held, copy ▸ type⟩
    have unused : (s.icache ip).ref = 0 := by omega
    obtain ⟨jp, others, same⟩ := consistent.kept _ (grabs.fresh ip unused held) allocated
      (by rw [← grabs.disk, ← copy]; exact links)
    have also : (t.icache jp).ref > 0 := by
      rw [grabs.ref]
      omega
    obtain rfl := grabs.inv.unique jp ip also held ((grabs.same jp others).trans same)
    omega
  refine ⟨_, iput_keeps keep, ?_, fun jp => ?_⟩
  swap
  · by_cases self : jp = ip
    · rw [self, setSlot_self]
    · rw [setSlot_other self]
  have inv : CacheInv (t.setSlot ip { t.icache ip with ref := (t.icache ip).ref - 1 }) :=
    grabs.inv.slot grabs.inv.owned rfl (fun _ _ => rfl) (fun _ => grabs.inv.inside ip held)
      (fun _ => grabs.inv.copies ip held) (grabs.inv.apart held)
  refine grabs.retake ip inv rfl (fun jp other => setSlot_other other _) ?_ ?_ ?_
    fun jp other => (bump_other x other).symm
  · rw [setSlot_self]
    change (t.icache ip).ref - 1 = _
    omega
  · rw [setSlot_self]
    exact fun _ => rfl
  · rw [setSlot_self]
    exact fun unused => grabs.fresh ip unused held

/-! ## What freeing an inode leaves alone -/

theorem bfree_dinode {d e : FsDisk} {b : Nat} (ran : bfree d b = .ok e) : e.dinode = d.dinode := by
  unfold bfree at ran
  split at ran
  · cases ran
    rfl
  · cases ran

theorem bfreeAll_dinode {d e : FsDisk} {blocks : List Nat} (ran : bfreeAll d blocks = .ok e) :
    e.dinode = d.dinode := by
  induction blocks generalizing d with
  | nil =>
      cases ran
      rfl
  | cons b rest ih =>
      rw [bfreeAll] at ran
      split at ran
      · obtain ⟨c, first, later⟩ := bind_eq_ok.mp ran
        rw [ih later, bfree_dinode first]
      · exact ih ran

/-- `itrunc` writes its own inode only. -/
theorem itrunc_dinode {l l' : Locked} (ran : itrunc l = .ok l') :
    l'.inum = l.inum ∧ ∀ j, j ≠ l.inum → l'.disk.dinode j = l.disk.dinode j := by
  unfold itrunc at ran
  obtain ⟨d, direct, rest⟩ := bind_eq_ok.mp ran
  have wrote : ∃ e : FsDisk, e.dinode = d.dinode ∧
      l' = ⟨l.inum, { l.ip with size := 0, addrs := fun _ => 0 },
        iupdate e l.inum { l.ip with size := 0, addrs := fun _ => 0 }⟩ := by
    dsimp only at rest
    split at rest
    · obtain ⟨c, words, later⟩ := bind_eq_ok.mp rest
      obtain ⟨e, list, last⟩ := bind_eq_ok.mp later
      cases last
      exact ⟨e, (bfree_dinode list).trans (bfreeAll_dinode words), rfl⟩
    · cases rest
      exact ⟨d, rfl, rfl⟩
  obtain ⟨e, after, rfl⟩ := wrote
  refine ⟨rfl, fun j other => ?_⟩
  rw [← bfreeAll_dinode direct, ← after]
  exact Function.update_of_ne other ..

/-- `iput` changes its own slot and its own inode only. -/
theorem iput_frame (ran : t.iput ip = .ok u) :
    (∀ j, j ≠ (t.icache ip).inum → u.disk.dinode j = t.disk.dinode j) ∧
      ∀ jp, jp ≠ ip → u.icache jp = t.icache jp := by
  unfold FsState.iput at ran
  split at ran
  · cases truncated : itrunc (t.locked ip) with
    | error reason =>
        rw [truncated] at ran
        cases ran
    | ok l =>
        obtain ⟨inum, others⟩ := itrunc_dinode truncated
        rw [truncated] at ran
        cases ran
        refine ⟨fun j other => ?_, fun jp other => ?_⟩
        · refine Eq.trans (Function.update_of_ne ?_ ..) (others j other)
          rw [inum]
          exact other
        · rw [setSlot_other other, setSlot_other other]
          exact Function.update_of_ne other ..
  · cases ran
    exact ⟨fun _ _ => rfl, fun jp other => setSlot_other other _⟩

end FsState

end SlabStudy.Xv6
