import SlabStudy.Xv6.PathWalk

/-!
# The results of the calls

On a settled state every call is its walks, a choice among its exits, and at
most one change of the inodes it found: an inode entered in a directory, an
entry erased, a reference traded.  The equations here say so exactly, faults
and self-locking exits included.
-/

namespace SlabStudy.Xv6

namespace Fs

variable {P : Type} {s : Fs P} {i j dp : Nat} {v : Bool} {p : P}

/-! ## Updates and references in flight -/

@[simp] theorem reap_ref : (s.reap i).ref = s.ref := by
  unfold reap
  split <;> rfl

@[simp] theorem reap_valid : (s.reap i).valid = s.valid := by
  unfold reap
  split <;> rfl

@[simp] theorem reap_locked : (s.reap i).locked = s.locked := by
  unfold reap
  split <;> rfl

@[simp] theorem reap_holds : (s.reap i).cwd = s.cwd ∧ (s.reap i).ofile = s.ofile := by
  unfold reap
  split <;> exact ⟨rfl, rfl⟩

@[simp] theorem addLink_ref (n : Int) : (s.addLink i n).ref = s.ref := rfl

@[simp] theorem addLink_valid (n : Int) : (s.addLink i n).valid = s.valid := rfl

@[simp] theorem addLink_locked (n : Int) : (s.addLink i n).locked = s.locked := rfl

theorem take_addLink (n : Int) : (s.take i).addLink j n = (s.addLink j n).take i := rfl

theorem grab_addLink (n : Int) : (s.grab i v).addLink j n = (s.addLink j n).grab i v := rfl

theorem take_setNode (n : Node) : (s.take i).setNode j n = (s.setNode j n).take i := rfl

theorem grab_setNode (n : Node) : (s.grab i v).setNode j n = (s.setNode j n).grab i v := rfl

/-- An inode that is locked elsewhere does not see what another inode's release frees. -/
theorem take_reap (other : i ≠ j) : (s.take i).reap j = (s.reap j).take i := by
  have same : (s.take i).ref j = s.ref j := Function.update_of_ne other.symm _ _
  have node : (s.take i).node = s.node := rfl
  simp only [reap, node, same]
  split <;> rfl

/-- Locking a second inode. -/
theorem ilock_beside (unlocked : s.locked j = false) (other : j ≠ i) :
    ((s.grab j v).take i).ilock j =
      if v = false ∧ (s.node j).type = .free then .error .noType else .ok ((s.take j).take i) := by
  have away : (s.take i).locked j = false := by
    simpa [take, grab, Function.update_of_ne other] using unlocked
  rw [← take_grab fun same => absurd same other, ilock_grab away, take_comm other.symm]
  rfl

/-- Locking the same inode a second time. -/
theorem ilock_self : ((s.grab i v).take i).ilock i = .error (.deadlock i) := by
  simp [ilock, take, grab]

/-- Releasing the first of two locked inodes. -/
theorem iunlockput_beside (read : s.valid i = decide (0 < s.ref i)) (unlocked : s.locked i = false)
    (other : j ≠ i) : ((s.take j).take i).iunlockput i = .ok ((s.reap i).take j) := by
  have away : (s.take j).locked i = false := by
    simpa [take, grab, Function.update_of_ne other.symm] using unlocked
  have same : (s.take j).valid i = decide (0 < (s.take j).ref i) := by
    simpa [take, grab, Function.update_of_ne other.symm] using read
  rw [iunlockput_take same away, take_reap other]

/-! ## Paths that are only looked up -/

theorem namei_eq (settled : s.Settled) (path : List Char) :
    s.namei p path =
      match s.find p path false with
      | .error fault => .error fault
      | .ok none => .ok (none, s)
      | .ok (some target) => .ok (some target.inum, s.grab target.inum target.valid) := by
  simp only [namei, namex_eq settled]
  cases s.find p path false with
  | error fault => rfl
  | ok found => cases found <;> rfl

/-- The inode found, locked, or a fault. -/
theorem namei_ilock (settled : s.Settled) {target : Target} :
    (s.grab target.inum target.valid).ilock target.inum =
      if target.valid = false ∧ (s.node target.inum).type = .free then .error .noType
      else .ok (s.take target.inum) :=
  ilock_grab (settled.unlocked _)

/-- An inode whose lock was granted is allocated. -/
theorem Arrived.locked {parent : Bool} {target : Target} (arrived : s.Arrived parent target)
    (lock : ¬ (target.valid = false ∧ (s.node target.inum).type = .free)) :
    (s.node target.inum).type ≠ .free := by
  intro free
  cases read : target.valid with
  | false => exact lock ⟨read, free⟩
  | true => exact arrived.allocated read free

theorem exec_eq (settled : s.Settled) (path : List Char) :
    s.exec p path =
      match s.find p path false with
      | .error fault => .error fault
      | .ok none => .ok s
      | .ok (some target) =>
          if target.valid = false ∧ (s.node target.inum).type = .free then .error .noType
          else .ok s := by
  simp only [exec, namei_eq settled]
  cases ends : s.find p path false with
  | error fault => rfl
  | ok found =>
      cases found with
      | none => rfl
      | some target =>
          simp only [bind, Except.bind, namei_ilock settled]
          by_cases free : target.valid = false ∧ (s.node target.inum).type = .free
          · simp only [free, and_self, if_true]
          · simp only [free, if_false]
            exact settled.iunlockput_take ((find_arrived settled ends).locked free)

/-! ## unlink -/

/-- The entry `off` for the inode `ip` is erased from `dp`. -/
def erase (s : Fs P) (dp off ip : Nat) : Fs P :=
  let s := s.setNode dp ((s.node dp).write off ⟨0, []⟩)
  if (s.node ip).type = .dir then s.addLink dp (-1) else s

@[simp] theorem erase_ref {off : Nat} : (s.erase dp off i).ref = s.ref := by
  unfold erase
  dsimp only
  split <;> rfl

@[simp] theorem erase_valid {off : Nat} : (s.erase dp off i).valid = s.valid := by
  unfold erase
  dsimp only
  split <;> rfl

@[simp] theorem erase_locked {off : Nat} : (s.erase dp off i).locked = s.locked := by
  unfold erase
  dsimp only
  split <;> rfl

@[simp] theorem erase_holds {off : Nat} :
    (s.erase dp off i).cwd = s.cwd ∧ (s.erase dp off i).ofile = s.ofile := by
  unfold erase
  dsimp only
  split <;> exact ⟨rfl, rfl⟩

/-- Erasing an entry of `dp` while `dp` and the inode `i` are locked. -/
theorem erase_take {off : Nat} :
    (if ((((s.take i).take dp).setNode dp ((s.node dp).write off ⟨0, []⟩)).node i).type = .dir then
        (((s.take i).take dp).setNode dp ((s.node dp).write off ⟨0, []⟩)).addLink dp (-1)
      else ((s.take i).take dp).setNode dp ((s.node dp).write off ⟨0, []⟩)) =
      ((s.erase dp off i).take i).take dp := by
  unfold erase
  dsimp only
  split <;> split <;> first | rfl | contradiction

/-- `sys_unlink` behind the walk to the parent. -/
def unlinkAt (s : Fs P) (dp : Nat) (name : Name) : Except Fault (Int × Fs P) :=
  if namecmp name ['.'] ∨ namecmp name ['.', '.'] then .ok (-1, s)
  else
    match (s.node dp).lookup name with
    | none => .ok (-1, s)
    | some off =>
        let ip := ((s.node dp).entry off).inum
        if ¬ (s.take dp).Room ip then .error .noInodes
        else if ip = dp then .error (.deadlock ip)
        else if s.valid ip = false ∧ (s.node ip).type = .free then .error .noType
        else if (s.node ip).nlink < 1 then .error .unlink
        else if (s.node ip).type = .dir ∧ ¬ (s.node ip).isdirempty then .ok (-1, s)
        else .ok (0, (((s.erase dp off ip).reap dp).addLink ip (-1)).reap ip)

theorem sysUnlink_eq (settled : s.Settled) (path : List Char) :
    s.sysUnlink p path =
      match s.find p path true with
      | .error fault => .error fault
      | .ok none => .ok (-1, s)
      | .ok (some target) => s.unlinkAt target.inum target.name := by
  simp only [sysUnlink, nameiparent, namex_eq settled]
  cases ends : s.find p path true with
  | error fault => rfl
  | ok found =>
      cases found with
      | none => rfl
      | some target =>
          obtain ⟨dp, read, name⟩ := target
          obtain ⟨rfl, directory⟩ := (find_arrived settled ends).directory rfl
          have used : (s.node dp).type ≠ .free := by
            simp only at directory
            simp [directory]
          simp only at directory
          have put := settled.iunlockput_take used
          simp only [arrive, bind, Except.bind, unlinkAt]
          rw [ilock_grab (settled.unlocked dp)]
          simp only [Bool.true_eq_false, false_and, if_false]
          by_cases dots : namecmp name ['.'] = true ∨ namecmp name ['.', '.'] = true
          · simp only [dots, if_true, put]
          simp only [dots, if_false, dirlookup_take settled.cached name directory]
          cases (s.node dp).lookup name with
          | none => simp only [put]
          | some off =>
              dsimp only
              generalize ((s.node dp).entry off).inum = ip
              by_cases room : (s.take dp).Room ip
              · simp only [room, if_true, not_true_eq_false, if_false]
                by_cases same : ip = dp
                · subst same
                  simp only [ilock_self, if_true]
                have far : (s.take dp).valid ip = s.valid ip := Function.update_of_ne same _ _
                simp only [ilock_beside (settled.unlocked ip) same, same, if_false, far]
                by_cases free : s.valid ip = false ∧ (s.node ip).type = .free
                · simp only [free, and_self, if_true]
                have allocated : (s.node ip).type ≠ .free := by
                  intro none
                  refine free ⟨?_, none⟩
                  by_contra read
                  exact settled.allocated_of_valid (by simpa using read) none
                have node : ((s.take ip).take dp).node = s.node := rfl
                simp only [free, if_false, node]
                split
                · rfl
                split
                · rw [take_comm same, iunlockput_beside (settled.cached ip) (settled.unlocked ip)
                    (Ne.symm same), reap_of_kept (settled.kept ip) allocated]
                  simp only [put]
                · simp only [erase_take]
                  rw [iunlockput_beside (by simpa using settled.cached dp)
                    (by simpa using settled.unlocked dp) same]
                  simp only [take_addLink]
                  rw [iunlockput_take (by simpa using settled.cached ip)
                    (by simpa using settled.unlocked ip)]
              · simp only [room, if_false, not_false_eq_true, if_true]

/-! ## link -/

/-- `ip` with a link more, held by the call. -/
def raised (s : Fs P) (ip : Nat) : Fs P := (s.addLink ip 1).grab ip true

/-- `inum` is entered in `dp`. -/
def enter (s : Fs P) (dp : Nat) (name : Name) (inum : Nat) : Fs P :=
  s.setNode dp ((s.node dp).write (s.node dp).vacant ⟨inum % 65536, name.take dirsiz⟩)

/-- `sys_link` behind the two walks. -/
def linkAt (s : Fs P) (ip dp : Nat) (name : Name) : Except Fault (Int × Fs P) :=
  match (s.node dp).lookup name with
  | some off =>
      let j := ((s.node dp).entry off).inum
      if ¬ ((s.raised ip).take dp).Room j then .error .noInodes
      else if j = dp then .error (.deadlock j)
      else .ok (-1, s)
  | none =>
      if maxdirent ≤ (s.node dp).vacant then .error .dirlink
      else .ok (0, ((s.addLink ip 1).enter dp name ip).reap ip)

theorem short_short (n : Int) : short (short n) = short n := by
  unfold short
  exact Int.bmod_bmod

/-- A link that is added and taken away again. -/
theorem Calm.addLink_undo (calm : s.Calm) : (s.addLink i 1).addLink i (-1) = s := by
  have links : short (short ((s.node i).nlink + 1) + -1) = (s.node i).nlink := by
    have fits := calm.fits i
    simp only [short, Int.bmod_def] at fits ⊢
    omega
  simp [addLink, setNode, links]

theorem addLink_type (n : Int) (k : Nat) : ((s.addLink i n).node k).type = (s.node k).type := by
  by_cases same : k = i
  · subst same
    simp [addLink, setNode]
  · simp [addLink, setNode, Function.update_of_ne same]

theorem Settled.raised (settled : s.Settled) (allocated : (s.node i).type ≠ .free) :
    (s.raised i).Settled where
  cached := Cached.grab settled.cached
  unlocked := settled.unlocked
  held k references := by
    have same : ((s.raised i).node k).type = (s.node k).type := addLink_type 1 k
    rw [same]
    by_cases here : k = i
    · rw [here]
      exact allocated
    · exact settled.held k (by simpa [Fs.raised, Fs.grab, Function.update_of_ne here] using references)
  fits k := by
    by_cases here : k = i
    · subst here
      simp [Fs.raised, Fs.grab, Fs.addLink, Fs.setNode, short_short]
    · simpa [Fs.raised, Fs.grab, Fs.addLink, Fs.setNode, Function.update_of_ne here]
        using settled.fits k
  inside k used := settled.inside k ((addLink_type 1 k).symm ▸ used)
  few := settled.few
  kept k := by
    by_cases here : k = i
    · subst here
      intro _ _
      simp [Fs.raised, Fs.grab]
    · have kept := settled.kept k
      simpa [Kept, Fs.raised, Fs.grab, Fs.addLink, Fs.setNode, Function.update_of_ne here] using kept

/-- `dirlink` of a name that is not present. -/
theorem dirlink_new {name : Name} (inum : Nat) (directory : (s.node dp).type = .dir)
    (absent : (s.node dp).lookup name = none) :
    s.dirlink dp name inum =
      if maxdirent ≤ (s.node dp).vacant then .error .dirlink
      else .ok (true, s.enter dp name inum) := by
  simp [dirlink, dirlookup, directory, absent, bind, Except.bind, enter]

/-- `dirlink` of a name that is present: it fails, or locks the directory a second time. -/
theorem dirlink_found (settled : s.Settled) {name : Name} {off : Nat} (inum : Nat)
    (directory : (s.node dp).type = .dir) (present : (s.node dp).lookup name = some off) :
    (s.take dp).dirlink dp name inum =
      let j := ((s.node dp).entry off).inum
      if ¬ (s.take dp).Room j then .error .noInodes
      else if j = dp then .error (.deadlock j)
      else .ok (false, s.take dp) := by
  simp only [dirlink, dirlookup_take settled.cached name directory, present]
  generalize ((s.node dp).entry off).inum = j
  by_cases room : (s.take dp).Room j
  · simp only [room, if_true, not_true_eq_false, if_false, bind, Except.bind]
    by_cases same : j = dp
    · subst same
      simp [iput, take]
    · have used : (s.node dp).type ≠ .free := by simp [directory]
      have away : (s.take dp).locked j = false := by
        simpa [take, grab, Function.update_of_ne same] using settled.unlocked j
      have kept : (s.take dp).Kept j := (settled.kept j).grab (v := true)
      rw [← take_grab (take_valid j)]
      rw [iput_grab_kept settled.cached.take away kept id (settled.allocated_of_take used)]
      simp [same]
  · simp [room, bind, Except.bind]

/-- The error exit of `sys_link`. -/
theorem Settled.link_undo (settled : s.Settled) (used : (s.node i).type ≠ .free) :
    (do
      let s ← (s.raised i).ilock i
      let s := s.addLink i (-1)
      let s ← s.iunlockput i
      .ok (-1, s)) = (.ok (-1, s) : Except Fault (Int × Fs P)) := by
  have again : (s.raised i).ilock i = .ok ((s.addLink i 1).take i) := by
    rw [Fs.raised, ilock_grab (s := s.addLink i 1) (settled.unlocked i)]
    simp
  simp only [again, bind, Except.bind, take_addLink, settled.addLink_undo,
    settled.iunlockput_take used]

/-- The two ends of `sys_link` when the walks have arrived. -/
theorem linkAt_eq (settled : s.Settled) {name : Name} (used : (s.node i).type ≠ .free)
    (directory : (s.node dp).type = .dir) (other : dp ≠ i) :
    (do
      let s ← ((s.raised i).grab dp true).ilock dp
      let (linked, s) ← s.dirlink dp name i
      let s ← s.iunlockput dp
      if linked then do
        let s ← s.iput i
        .ok (0, s)
      else do
        let s ← s.ilock i
        let s := s.addLink i (-1)
        let s ← s.iunlockput i
        .ok (-1, s)) = s.linkAt i dp name := by
  have raised := settled.raised used
  have node : (s.raised i).node dp = s.node dp := Function.update_of_ne other _ _
  have parent : ((s.raised i).node dp).type = .dir := by rw [node, directory]
  have allocated : ((s.raised i).node dp).type ≠ .free := by simp [parent]
  have lock : ((s.raised i).grab dp true).ilock dp = .ok ((s.raised i).take dp) := by
    rw [ilock_grab (raised.unlocked dp)]
    simp
  cases present : (s.node dp).lookup name with
  | some off =>
      have link := dirlink_found raised i parent (by rw [node, present])
      rw [node] at link
      simp only [lock, bind, Except.bind, link, linkAt, present]
      generalize ((s.node dp).entry off).inum = j
      by_cases room : ((s.raised i).take dp).Room j
      · by_cases same : j = dp
        · subst same
          simp only [room, not_true_eq_false, if_false, if_true]
        · simp only [room, same, not_true_eq_false, if_false, raised.iunlockput_take allocated]
          exact settled.link_undo used
      · simp only [room, not_false_eq_true, if_true]
  | none =>
      have absent : (((s.raised i).take dp).node dp).lookup name = none :=
        (congrArg (Node.lookup · name) node).trans present
      have link := dirlink_new i (s := (s.raised i).take dp) parent absent
      have vacant : (((s.raised i).take dp).node dp).vacant = (s.node dp).vacant :=
        congrArg Node.vacant node
      rw [vacant] at link
      simp only [lock, bind, Except.bind, link, linkAt, present]
      by_cases full : maxdirent ≤ (s.node dp).vacant
      · simp only [full, if_true]
      have entered : ((s.raised i).take dp).enter dp name i =
          (((s.addLink i 1).enter dp name i).grab i true).take dp := rfl
      have kept : (((s.addLink i 1).enter dp name i).grab i true).Kept dp := by
        have kept := raised.kept dp
        simpa [Kept, enter, setNode, grab, Fs.raised, Node.write] using kept
      have used : ((((s.addLink i 1).enter dp name i).grab i true).node dp).type ≠ .free := by
        simp [enter, setNode, grab, Node.write, addLink_type, directory]
      have release : ((((s.addLink i 1).enter dp name i).grab i true).take dp).iunlockput dp =
          .ok (((s.addLink i 1).enter dp name i).grab i true) := by
        rw [iunlockput_take (s := ((s.addLink i 1).enter dp name i).grab i true)
          (raised.cached dp) (raised.unlocked dp), reap_of_kept kept used]
      have put : (((s.addLink i 1).enter dp name i).grab i true).iput i =
          .ok (((s.addLink i 1).enter dp name i).reap i) :=
        iput_grab (settled.cached i) (settled.unlocked i)
      simp only [full, if_false, entered, release, put, if_true]

theorem sysLink_eq (settled : s.Settled) (old new : List Char) :
    s.sysLink p old new =
      match s.find p old false with
      | .error fault => .error fault
      | .ok none => .ok (-1, s)
      | .ok (some target) =>
          if target.valid = false ∧ (s.node target.inum).type = .free then .error .noType
          else if (s.node target.inum).type = .dir then .ok (-1, s)
          else
            match (s.raised target.inum).find p new true with
            | .error fault => .error fault
            | .ok none => .ok (-1, s)
            | .ok (some parent) => s.linkAt target.inum parent.inum parent.name := by
  simp only [sysLink, namei_eq settled]
  cases ends : s.find p old false with
  | error fault => rfl
  | ok found =>
      cases found with
      | none => rfl
      | some target =>
          have arrived := find_arrived settled ends
          simp only [bind, Except.bind, namei_ilock settled]
          by_cases free : target.valid = false ∧ (s.node target.inum).type = .free
          · simp only [free, and_self, if_true]
          have used := arrived.locked free
          simp only [free, if_false]
          generalize target.inum = ip at used
          have node : (s.take ip).node = s.node := rfl
          simp only [node]
          by_cases directory : (s.node ip).type = .dir
          · simp only [directory, if_true, settled.iunlockput_take used]
          have raised := settled.raised used
          have unlock : ((s.take ip).addLink ip 1).iunlock ip = .ok (s.raised ip) :=
            iunlock_take (s := s.addLink ip 1) (settled.unlocked ip)
          simp only [directory, if_false, unlock, nameiparent, namex_eq raised]
          cases there : (s.raised ip).find p new true with
          | error fault => rfl
          | ok found =>
              cases found with
              | none => exact settled.link_undo used
              | some parent =>
                  obtain ⟨dp, read, name⟩ := parent
                  obtain ⟨rfl, below⟩ := (find_arrived raised there).directory rfl
                  have below : (s.node dp).type = .dir := (addLink_type 1 dp).symm.trans below
                  have other : dp ≠ ip := by
                    intro same
                    exact directory (same ▸ below)
                  exact linkAt_eq settled used below other

/-! ## create -/

/-- The entries "." and ".." of a new directory `i` in `dp`. -/
def dots (s : Fs P) (dp i : Nat) : Fs P :=
  ((s.addLink dp 1).enter i ['.'] i).enter i ['.', '.'] dp

/-- The new inode `i`, entered in `dp`. -/
def made (s : Fs P) (dp : Nat) (name : Name) (i : Nat) (type : InodeType) (major minor : Int) :
    Fs P :=
  let s := s.setNode i ⟨type, major, minor, 1, []⟩
  let s := if type = .dir then s.dots dp i else s
  s.enter dp name i

@[simp] theorem enter_ref {name : Name} : (s.enter dp name i).ref = s.ref := rfl

@[simp] theorem enter_valid {name : Name} : (s.enter dp name i).valid = s.valid := rfl

@[simp] theorem enter_locked {name : Name} : (s.enter dp name i).locked = s.locked := rfl

theorem take_enter {name : Name} {k : Nat} :
    (s.take k).enter dp name i = (s.enter dp name i).take k := rfl

theorem enter_other {name : Name} {k : Nat} (other : k ≠ dp) :
    (s.enter dp name i).node k = s.node k := Function.update_of_ne other _ _

theorem addLink_other {k : Nat} (n : Int) (other : k ≠ i) : (s.addLink i n).node k = s.node k :=
  Function.update_of_ne other _ _

/-- The first empty entry is not beyond the end of the directory. -/
theorem vacant_le (n : Node) : n.vacant ≤ n.entries.length := by
  unfold Node.vacant
  cases found : n.entries.findIdx? fun de => de.inum == 0 with
  | none => simp
  | some k =>
      obtain ⟨inside, -⟩ := List.findIdx?_eq_some_iff_getElem.mp found
      simpa using inside.le

theorem not_full {n : Node} (small : n.entries.length < 2) : ¬ maxdirent ≤ n.vacant := by
  have limit : maxdirent = 4480 := by decide
  have bound := vacant_le n
  omega

/-- The two entries fit into the new directory, and are not there before. -/
theorem dirlink_dots (fresh : (s.node i).type = .dir ∧ (s.node i).entries = []) (other : i ≠ dp) :
    (s.addLink dp 1).dirlink i ['.'] i = .ok (true, (s.addLink dp 1).enter i ['.'] i) ∧
      ((s.addLink dp 1).enter i ['.'] i).dirlink i ['.', '.'] dp = .ok (true, s.dots dp i) := by
  obtain ⟨type, entries⟩ := fresh
  have node : (s.addLink dp 1).node i = s.node i := addLink_other 1 other
  have first : (s.addLink dp 1).dirlink i ['.'] i = .ok (true, (s.addLink dp 1).enter i ['.'] i) := by
    rw [dirlink_new i (by rw [node, type]) (by simp [node, Node.lookup, entries])]
    rw [if_neg (not_full (by simp [node, entries]))]
  have written : ((s.addLink dp 1).enter i ['.'] i).node i =
      (s.node i).write 0 ⟨i % 65536, ['.']⟩ := by
    simp [enter, setNode, node, Node.vacant, entries]
  have second : ((s.addLink dp 1).enter i ['.'] i).dirlink i ['.', '.'] dp =
      .ok (true, s.dots dp i) := by
    rw [dirlink_new dp (by simp [written, Node.write, type])
      (by simp [written, Node.write, Node.lookup, entries, namecmp])]
    rw [if_neg (not_full (by simp [written, Node.write, entries]))]
    rfl
  exact ⟨first, second⟩

@[simp] theorem made_ref {name : Name} {type : InodeType} {major minor : Int} :
    (s.made dp name i type major minor).ref = s.ref := by
  unfold made
  dsimp only
  split <;> rfl

@[simp] theorem made_valid {name : Name} {type : InodeType} {major minor : Int} :
    (s.made dp name i type major minor).valid = s.valid := by
  unfold made
  dsimp only
  split <;> rfl

@[simp] theorem made_locked {name : Name} {type : InodeType} {major minor : Int} :
    (s.made dp name i type major minor).locked = s.locked := by
  unfold made
  dsimp only
  split <;> rfl

@[simp] theorem made_holds {name : Name} {type : InodeType} {major minor : Int} :
    (s.made dp name i type major minor).cwd = s.cwd ∧
      (s.made dp name i type major minor).ofile = s.ofile := by
  unfold made
  dsimp only
  split <;> exact ⟨rfl, rfl⟩

/-- What the new inode adds before it is entered leaves the entries of `dp` alone. -/
theorem dots_parent (other : dp ≠ i) :
    ((s.dots dp i).node dp).entries = (s.node dp).entries ∧
      ((s.dots dp i).node dp).type = (s.node dp).type := by
  simp [dots, enter_other other, addLink, setNode]

theorem lookup_congr {n m : Node} (same : n.entries = m.entries) (name : Name) :
    n.lookup name = m.lookup name ∧ n.vacant = m.vacant := by
  simp [Node.lookup, Node.vacant, same]

/-- `create` behind `ialloc`. -/
theorem createNew_eq (settled : s.Settled) {name : Name} {type : InodeType}
    (major minor : Int) (typed : type ≠ .free) (free : (s.node i).type = .free) (directory : (s.node dp).type = .dir)
    (absent : (s.node dp).lookup name = none) :
    (((s.setNode i ⟨type, 0, 0, 0, []⟩).take dp).grab i false).createNew dp name i type
        major minor =
      if maxdirent ≤ (s.node dp).vacant then .error .dirlink
      else .ok (((s.made dp name i type major minor).reap dp).take i) := by
  have other : i ≠ dp := by
    intro same
    rw [same, directory] at free
    cases free
  have lock : (((s.setNode i ⟨type, 0, 0, 0, []⟩).take dp).grab i false).ilock i =
      .ok (((s.setNode i ⟨type, 0, 0, 0, []⟩).take dp).take i) := by
    have away : ((s.setNode i ⟨type, 0, 0, 0, []⟩).take dp).locked i = false := by
      simpa [take, grab, setNode, Function.update_of_ne other] using settled.unlocked i
    have allocated : (((s.setNode i ⟨type, 0, 0, 0, []⟩).take dp).node i).type ≠ .free := by
      simpa [take, grab, setNode] using typed
    rw [ilock_grab away, if_neg fun none => allocated none.2]
  have fill : (((s.setNode i ⟨type, 0, 0, 0, []⟩).take dp).take i).setNode i
      { (((s.setNode i ⟨type, 0, 0, 0, []⟩).take dp).take i).node i with
        major := major, minor := minor, nlink := 1 } =
      ((s.setNode i ⟨type, major, minor, 1, []⟩).take dp).take i := by
    simp [take, grab, setNode]
  obtain ⟨w, which⟩ : ∃ w, w = if type = .dir
      then (s.setNode i ⟨type, major, minor, 1, []⟩).dots dp i
      else s.setNode i ⟨type, major, minor, 1, []⟩ := ⟨_, rfl⟩
  have made : s.made dp name i type major minor = w.enter dp name i := by rw [which, Fs.made]
  have parent : (w.node dp).entries = (s.node dp).entries ∧ (w.node dp).type = .dir := by
    rw [which]
    split
    · have same := dots_parent (s := s.setNode i ⟨type, major, minor, 1, []⟩) other.symm
      simpa [setNode, Function.update_of_ne other.symm, directory] using same
    · simp [setNode, Function.update_of_ne other.symm, directory]
  have kept : w.ref = s.ref ∧ w.valid = s.valid ∧ w.locked = s.locked := by
    rw [which]
    split <;> exact ⟨rfl, rfl, rfl⟩
  obtain ⟨lookup, vacant⟩ := lookup_congr parent.1 name
  have link : ((w.take dp).take i).dirlink dp name i =
      if maxdirent ≤ (s.node dp).vacant then .error .dirlink
      else .ok (true, ((w.enter dp name i).take dp).take i) := by
    rw [dirlink_new i (s := (w.take dp).take i) parent.2 (lookup.trans absent), ← vacant]
    rfl
  have release : (((w.enter dp name i).take dp).take i).iunlockput dp =
      .ok (((w.enter dp name i).reap dp).take i) := by
    rw [take_comm other.symm]
    refine iunlockput_beside ?_ ?_ other
    · simpa [kept.1, kept.2.1] using settled.cached dp
    · simpa [kept.2.2] using settled.unlocked dp
  simp only [createNew, lock, bind, Except.bind, fill]
  by_cases dir : type = .dir
  · rw [if_pos dir] at which
    obtain ⟨dot, dots⟩ := dirlink_dots 
      (s := ((s.setNode i ⟨type, major, minor, 1, []⟩).take dp).take i)
      (by simp [take, grab, setNode, dir]) other
    have reached : (((s.setNode i ⟨type, major, minor, 1, []⟩).take dp).take i).dots dp i =
        (w.take dp).take i := by
      rw [which]
      rfl
    rw [if_pos dir]
    simp only [dot, dots, reached, not_true_eq_false, if_false, link]
    by_cases full : maxdirent ≤ (s.node dp).vacant
    · simp only [full, if_true]
    · simp only [full, if_false, not_true_eq_false, release, made]
  · rw [if_neg dir] at which
    rw [if_neg dir, ← which]
    simp only [link]
    by_cases full : maxdirent ≤ (s.node dp).vacant
    · simp only [full, if_true]
    · simp only [full, if_false, not_true_eq_false, release, made]

/-- `create` behind the walk to the parent. -/
def createAt (s : Fs P) (dp : Nat) (name : Name) (type : InodeType) (major minor : Int) :
    Except Fault (Option Nat × Fs P) :=
  match (s.node dp).lookup name with
  | some off =>
      let ip := ((s.node dp).entry off).inum
      if ¬ (s.take dp).Room ip then .error .noInodes
      else if (s.take dp).valid ip = false ∧ (s.node ip).type = .free then .error .noType
      else if type = .file ∧ (s.node ip).type = .file then .ok (some ip, s.take ip)
      else .ok (none, s)
  | none =>
      match (List.range' 1 (s.ninodes - 1)).find? fun i => decide ((s.node i).type = .free) with
      | none => .error .noDiskInodes
      | some ip =>
          if ¬ (s.take dp).Room ip then .error .noInodes
          else if maxdirent ≤ (s.node dp).vacant then .error .dirlink
          else .ok (some ip, ((s.made dp name ip type major minor).reap dp).take ip)

theorem create_eq (settled : s.Settled) {type : InodeType} (typed : type ≠ .free)
    (path : List Char) (major minor : Int) :
    s.create p path type major minor =
      match s.find p path true with
      | .error fault => .error fault
      | .ok none => .ok (none, s)
      | .ok (some target) =>
          s.createAt target.inum target.name type (short major) (short minor) := by
  simp only [create, nameiparent, namex_eq settled]
  cases ends : s.find p path true with
  | error fault => rfl
  | ok found =>
      cases found with
      | none => rfl
      | some target =>
          obtain ⟨dp, read, name⟩ := target
          obtain ⟨rfl, directory⟩ := (find_arrived settled ends).directory rfl
          simp only at directory
          have used : (s.node dp).type ≠ .free := by simp [directory]
          have lock : (s.grab dp true).ilock dp = .ok (s.take dp) := by
            rw [ilock_grab (settled.unlocked dp)]
            simp
          simp only [arrive, bind, Except.bind, lock, createAt,
            dirlookup_take settled.cached name directory]
          cases present : (s.node dp).lookup name with
          | some off =>
              dsimp only
              generalize ((s.node dp).entry off).inum = ip
              by_cases room : (s.take dp).Room ip
              · simp only [room, if_true, not_true_eq_false, if_false,
                  settled.iunlockput_found used (take_valid ip), ilock_grab (settled.unlocked ip)]
                by_cases free : (s.take dp).valid ip = false ∧ (s.node ip).type = .free
                · simp only [free, and_self, if_true]
                · have node : (s.take ip).node = s.node := rfl
                  have allocated : (s.node ip).type ≠ .free := by
                    intro none
                    refine free ⟨?_, none⟩
                    by_contra read
                    exact settled.allocated_of_take used (by simpa using read) none
                  simp only [free, if_false, node]
                  split
                  · rfl
                  · simp only [settled.iunlockput_take allocated]
              · simp only [room, if_false, not_false_eq_true, if_true]
          | none =>
              have node : (s.take dp).node = s.node := rfl
              have ninodes : (s.take dp).ninodes = s.ninodes := rfl
              simp only [ialloc, node, ninodes]
              cases search : (List.range' 1 (s.ninodes - 1)).find? fun i =>
                  decide ((s.node i).type = .free) with
              | none => rfl
              | some ip =>
                  have free : (s.node ip).type = .free := by simpa using List.find?_some search
                  have unread : s.valid ip = false := by
                    by_contra read
                    exact settled.allocated_of_valid (by simpa using read) free
                  have other : ip ≠ dp := by
                    intro same
                    exact used (same ▸ free)
                  have get := iget_eq (i := ip) (s := (s.take dp).setNode ip ⟨type, 0, 0, 0, []⟩)
                    settled.cached.take
                  have away : ((s.take dp).setNode ip ⟨type, 0, 0, 0, []⟩).valid ip = false := by
                    simpa [setNode, take, grab, Function.update_of_ne other] using unread
                  rw [away] at get
                  simp only [get, bind, Except.bind]
                  by_cases room : (s.take dp).Room ip
                  · have room' : ((s.take dp).setNode ip ⟨type, 0, 0, 0, []⟩).Room ip := room
                    have new := createNew_eq settled (short major) (short minor)
                      typed free directory present
                    rw [← take_setNode] at new
                    rw [if_pos room', if_neg (not_not.mpr room)]
                    simp only [new]
                    by_cases full : maxdirent ≤ (s.node dp).vacant
                    · simp only [full, if_true]
                    · simp only [full, if_false]
                  · have room' : ¬ ((s.take dp).setNode ip ⟨type, 0, 0, 0, []⟩).Room ip := room
                    rw [if_neg room', if_pos room]

/-! ## Calls that keep or give up references -/

/-- One reference less. -/
def drop (s : Fs P) (i : Nat) : Fs P :=
  { s with
    ref := Function.update s.ref i (s.ref i - 1)
    valid := Function.update s.valid i (decide (1 < s.ref i)) }

theorem drop_grab (cached : s.Cached) (held : 0 < s.ref i) : (s.drop i).grab i true = s := by
  have read : s.valid i = true := cached.valid_iff.mpr held
  have refs : s.ref i - 1 + 1 = s.ref i := by omega
  have back : Function.update s.valid i true = s.valid := by rw [← read, Function.update_eq_self]
  simp [drop, grab, refs, back]

theorem drop_read : (s.drop i).valid i = decide (0 < (s.drop i).ref i) := by
  have same : decide (1 < s.ref i) = decide (0 < s.ref i - 1) := decide_eq_decide.mpr (by omega)
  simpa only [drop, Function.update_self] using same

theorem iput_held (cached : s.Cached) (unlocked : s.locked i = false) (held : 0 < s.ref i) :
    s.iput i = .ok ((s.drop i).reap i) := by
  have put := iput_grab (s := s.drop i) drop_read unlocked
  rwa [drop_grab cached held] at put

section Processes

variable [DecidableEq P]

/-- `sys_open` with the inode locked. -/
theorem openLocked_eq {t : Fs P} (read : t.valid i = decide (0 < t.ref i))
    (unlocked : t.locked i = false) (room : Bool) :
    (match if room then (t.take i).fdalloc p else none with
      | none => do
          let s ← (t.take i).iunlockput i
          .ok (-1, s)
      | some fd => do
          let s ← (t.take i).iunlock i
          .ok ((fd : Int), s.setFile p fd (some i))) =
      (match if room then t.fdalloc p else none with
        | none => .ok (-1, t.reap i)
        | some fd => .ok ((fd : Int), (t.grab i true).setFile p fd (some i)) :
        Except Fault (Int × Fs P)) := by
  have same : (t.take i).fdalloc p = t.fdalloc p := rfl
  rw [same]
  cases if room then t.fdalloc p else none with
  | none =>
      rw [iunlockput_take read unlocked]
      rfl
  | some fd =>
      rw [iunlock_take unlocked]
      rfl

omit [DecidableEq P] in
/-- A descriptor that `fdalloc` returns is free. -/
theorem fdalloc_free {room : Bool} {fd : Fin nofile}
    (found : (if room then s.fdalloc p else none) = some fd) : s.ofile p fd = none := by
  split at found
  · have free := List.find?_some found
    simpa using free
  · cases found

theorem sysChdir_eq (settled : s.Settled) {c : Nat} (cwd : s.cwd p = some c)
    (held : 0 < s.ref c) (path : List Char) :
    s.sysChdir p path =
      match s.find p path false with
      | .error fault => .error fault
      | .ok none => .ok (-1, s)
      | .ok (some target) =>
          if target.valid = false ∧ (s.node target.inum).type = .free then .error .noType
          else if (s.node target.inum).type ≠ .dir then .ok (-1, s)
          else .ok (0, (((s.grab target.inum true).drop c).reap c).setCwd p (some target.inum)) := by
  simp only [sysChdir, namei_eq settled]
  cases ends : s.find p path false with
  | error fault => rfl
  | ok found =>
      cases found with
      | none => rfl
      | some target =>
          have arrived := find_arrived settled ends
          simp only [bind, Except.bind, namei_ilock settled]
          by_cases free : target.valid = false ∧ (s.node target.inum).type = .free
          · simp only [free, and_self, if_true]
          have used := arrived.locked free
          simp only [free, if_false]
          generalize target.inum = ip at used
          have node : (s.take ip).node = s.node := rfl
          simp only [node]
          by_cases directory : (s.node ip).type = .dir
          · have same : (s.grab ip true).cwd = s.cwd := rfl
            have more : 0 < (s.grab ip true).ref c := by
              by_cases here : c = ip
              · subst here
                simp [grab]
              · simpa [grab, Function.update_of_ne here] using held
            simp only [directory, ne_eq, not_true_eq_false, if_false,
              iunlock_take (settled.unlocked ip), same, cwd]
            rw [iput_held settled.cached.grab (settled.unlocked c) more]
          · simp only [directory, ne_eq, not_false_eq_true, if_true, settled.iunlockput_take used]

/-- The state in which a process has given up a descriptor. -/
def closed (s : Fs P) (p : P) (fd : Fin nofile) (i : Nat) : Fs P :=
  ((s.setFile p fd none).drop i).reap i

theorem sysClose_eq (settled : s.Settled) {fd : Fin nofile} (file : s.ofile p fd = some i)
    (held : 0 < s.ref i) : s.sysClose p fd = .ok (0, s.closed p fd i) := by
  have put := iput_held (s := s.setFile p fd none) settled.cached (settled.unlocked i) held
  simp only [sysClose, file, put, bind, Except.bind, closed]

theorem reap_setFile {fd : Fin nofile} {file : Option Nat} :
    (s.reap i).setFile p fd file = (s.setFile p fd file).reap i := by
  have node : (s.setFile p fd file).node = s.node := rfl
  have ref : (s.setFile p fd file).ref = s.ref := rfl
  simp only [reap, node, ref]
  split <;> rfl

/-- One descriptor in the loop of `exit`. -/
theorem closeFiles_cons (settled : s.Settled) {fd : Fin nofile} {fds : List (Fin nofile)}
    (held : ∀ i, s.ofile p fd = some i → 0 < s.ref i) :
    closeFiles p s (fd :: fds) =
      match s.ofile p fd with
      | none => closeFiles p s fds
      | some i => closeFiles p (s.closed p fd i) fds := by
  simp only [closeFiles]
  cases file : s.ofile p fd with
  | none => rfl
  | some i =>
      simp only [iput_held settled.cached (settled.unlocked i) (held i file), bind, Except.bind,
        reap_setFile]
      rfl

end Processes

end Fs

end SlabStudy.Xv6
