import Mathlib.Data.List.Perm.Subperm
import SlabStudy.Xv6.OpenCall
import SlabStudy.Xv6.SharedWrite

/-!
# filewrite

`filewrite` of `file.c` on an inode: a loop of transactions, each of which locks
the inode and writes a chunk.  As long as the chunks fit they are one write; the
first that does not fit ends the call, and the chunks before it stay.
-/

namespace SlabStudy.Xv6

open Library

/-! ## The call -/

/-- How a call on a file can end other than by returning. -/
inductive FileStop where
  /-- A panic of the functions below. -/
  | fs (reason : FsPanic)
  /-- `panic("short filewrite")` -/
  | short
  /-- `panic("filewrite")` -/
  | untyped
  deriving DecidableEq, Repr

namespace OpenState

variable (devsw : Devsw)

/-- The loop of `filewrite`, with the local variable `i`; `n` bytes can be read at `addr`. -/
def filewriteLoop (f : Fin nfile) (addr : List UInt8) (n : Int) (s : OpenState) (i : Nat) :
    Except FileStop (Int × OpenState) :=
  if _more : i < n then
    let n1 := min (n - i) filewriteMax
    let ip := (s.file f).ip
    match (s.fs.ilock ip >>= fun fs => fs.writei devsw ip (s.file f).off
        ((addr.drop i).take n1.toNat)) with
    | .error reason => .error (.fs reason)
    | .ok (r, fs) =>
        let s := { s with fs := fs }
        let s := if r > 0 then s.setFile f { s.file f with off := uint ((s.file f).off + r) } else s
        if r < 0 then .ok (if i = n then n else -1, s)
        else if _whole : r ≠ n1 then .error .short
        else filewriteLoop f addr n s (i + r.toNat)
  else .ok (if i = n then n else -1, s)
termination_by (n - i).toNat
decreasing_by
  have most : (filewriteMax : Int) = 1536 := rfl
  have size := not_not.mp _whole
  dsimp only [n1] at size
  omega

/-- `filewrite`; `pipewrite` is that of the pipe of the file. -/
def filewrite (pipewrite : List UInt8 → Int → Except FileStop (Int × OpenState)) (s : OpenState)
    (f : Fin nfile) (addr : List UInt8) (n : Int) : Except FileStop (Int × OpenState) :=
  if (s.file f).writable = false then .ok (-1, s)
  else
    match (s.file f).type with
    | .pipe => pipewrite addr n
    | .inode => s.filewriteLoop devsw f addr n 0
    | .none => .error .untyped

end OpenState

/-! ## Blocks for the next chunk -/

namespace Locked

theorem mem_touched {off n bn : Nat} :
    bn ∈ touched off n ↔ n ≠ 0 ∧ off / bsize ≤ bn ∧ bn * bsize < off + n := by
  unfold touched
  split
  · next none => simp [none]
  · next some =>
      rw [List.mem_range'_1]
      simp only [bsize]
      omega

theorem nodup_touched (off n : Nat) : (touched off n).Nodup := by
  unfold touched
  split
  · exact List.nodup_nil
  · exact List.nodup_range'

theorem touched_mono (off k n : Nat) : ∀ bn ∈ touched off k, bn ∈ touched off (k + n) := by
  intro bn member
  rw [mem_touched] at member ⊢
  omega

theorem need_mono (l : Locked) {bns more : List Nat} (nodup : bns.Nodup)
    (inside : ∀ bn ∈ bns, bn ∈ more) : l.need bns ≤ l.need more := by
  refine Nat.add_le_add ((nodup.subperm inside).countP_le _) ?_
  split
  · next both =>
      obtain ⟨none, bn, member, large⟩ := both
      rw [if_pos ⟨none, bn, inside bn member, large⟩]
  · exact Nat.zero_le _

/-- The blocks of the data are listed when it has been written. -/
theorem Wrote.listed_touched {l m : Locked} {off : Nat} {data : List UInt8}
    (wrote : Wrote l off data m) {bn : Nat} (member : bn ∈ touched off data.length) :
    m.disk.addrOf m.ip bn ≠ 0 := by
  obtain ⟨_, low, high⟩ := mem_touched.mp member
  have listed := wrote.listed (max (bn * bsize - off) 0) (by omega)
  have block : (off + max (bn * bsize - off) 0) / bsize = bn := by
    simp only [bsize] at *
    omega
  rwa [block] at listed

theorem indirect_of_large {d : FsDisk} {ip : Dinode} {bn : Nat} (large : ndirect ≤ bn)
    (listed : d.addrOf ip bn ≠ 0) : ip.addrs indirect ≠ 0 := by
  intro none
  have inside := lt_maxfile listed
  have word : bn - ndirect < nindirect := by
    simp only [maxfile, ndirect, nindirect] at *
    omega
  refine listed ?_
  rw [FsDisk.addrOf, index_entry (Nat.not_lt.mpr large) word]
  exact if_pos none

/-- The blocks that a write needs, and those that the next one needs, are needed by both. -/
theorem Wrote.need_le {l m : Locked} {off : Nat} {data : List UInt8} (wrote : Wrote l off data m)
    (ok : l.Ok) (n : Nat) : l.need (touched off data.length) +
      m.need (touched (off + data.length) n) ≤ l.need (touched off (data.length + n)) := by
  have first : ∀ bn ∈ touched off data.length, bn ∈ touched off (data.length + n) :=
    touched_mono _ _ _
  have second : ∀ bn ∈ touched (off + data.length) n, bn ∈ touched off (data.length + n) := by
    intro bn member
    rw [mem_touched] at member ⊢
    simp only [bsize] at *
    omega
  have keeps : ∀ bn, m.disk.addrOf m.ip bn = 0 → l.disk.addrOf l.ip bn = 0 := by
    intro bn none
    by_contra some
    rw [← wrote.addrOf ok some] at some
    exact some none
  have counts : (touched off data.length).countP (fun bn => l.disk.addrOf l.ip bn = 0) +
      (touched (off + data.length) n).countP (fun bn => m.disk.addrOf m.ip bn = 0) ≤
        (touched off (data.length + n)).countP (fun bn => l.disk.addrOf l.ip bn = 0) := by
    simp only [List.countP_eq_length_filter]
    rw [← List.length_append]
    refine List.Subperm.length_le (List.Nodup.subperm (List.nodup_append.mpr
      ⟨(nodup_touched _ _).filter _, (nodup_touched _ _).filter _, ?_⟩) ?_)
    · intro bn left other right same
      subst same
      have listed := wrote.listed_touched (List.mem_filter.mp left).1
      exact listed (by simpa using (List.mem_filter.mp right).2)
    · intro bn member
      rcases List.mem_append.mp member with left | right
      · obtain ⟨place, missing⟩ := List.mem_filter.mp left
        exact List.mem_filter.mpr ⟨first bn place, missing⟩
      · obtain ⟨place, missing⟩ := List.mem_filter.mp right
        refine List.mem_filter.mpr ⟨second bn place, ?_⟩
        rw [decide_eq_true_eq] at missing ⊢
        exact keeps bn missing
  have lists : m.ip.addrs indirect = 0 → l.ip.addrs indirect = 0 ∧
      ¬ ∃ bn ∈ touched off data.length, ndirect ≤ bn := by
    intro none
    constructor
    · by_contra some
      have here : l.flush.ref (l.inum, .addr indirect) = l.ip.addrs indirect := ok.ref _
      have kept := wrote.kept (l.inum, .addr indirect) (by rw [here]; exact some)
      rw [here, ← wrote.inum] at kept
      have there : m.flush.ref (m.inum, .addr indirect) = m.ip.addrs indirect := wrote.ok.ref _
      rw [there, none] at kept
      exact some kept.symm
    · rintro ⟨bn, member, large⟩
      exact indirect_of_large large (wrote.listed_touched member) none
  unfold need
  have lists' : (if l.ip.addrs indirect = 0 ∧ ∃ bn ∈ touched off data.length, ndirect ≤ bn then 1
      else 0) + (if m.ip.addrs indirect = 0 ∧ ∃ bn ∈ touched (off + data.length) n, ndirect ≤ bn
        then 1 else 0) ≤ if l.ip.addrs indirect = 0 ∧
          ∃ bn ∈ touched off (data.length + n), ndirect ≤ bn then 1 else 0 := by
    by_cases late : m.ip.addrs indirect = 0 ∧
        ∃ bn ∈ touched (off + data.length) n, ndirect ≤ bn
    · obtain ⟨none, bn, member, large⟩ := late
      obtain ⟨before, few⟩ := lists none
      rw [if_neg fun both => few both.2, if_pos ⟨none, bn, member, large⟩,
        if_pos ⟨before, bn, second bn member, large⟩]
    · rw [if_neg late]
      by_cases early : l.ip.addrs indirect = 0 ∧ ∃ bn ∈ touched off data.length, ndirect ≤ bn
      · obtain ⟨none, bn, member, large⟩ := early
        rw [if_pos ⟨none, bn, member, large⟩, if_pos ⟨none, bn, first bn member, large⟩]
      · rw [if_neg early]
        exact Nat.zero_le _
  omega

end Locked

/-- A file keeps its blocks when its size is updated. -/
theorem FsDisk.need_congr {l m : Locked} (addrs : m.ip.addrs = l.ip.addrs)
    (block : m.disk.block = l.disk.block) (bns : List Nat) : m.need bns = l.need bns := by
  have place : m.disk.place m.ip = l.disk.place l.ip := by
    funext p
    cases p with
    | addr k => exact congrFun addrs k
    | entry k =>
        unfold FsDisk.place
        rw [addrs, block]
  unfold Locked.need FsDisk.addrOf
  rw [place, addrs]

/-- `writei` inside the largest file, with the blocks that are left for the rest of the data. -/
theorem FsDisk.writei_fits (devsw : Devsw) {d : FsDisk} {i off : Nat} {data : List UInt8}
    (owned : d.Owned) (allocated : d.Allocated i) (regular : (d.dinode i).type ≠ .dev)
    (start : off ≤ (d.dinode i).size) (fits : off + data.length ≤ maxfile * bsize) {n : Nat}
    (enough : (d.locked i).need (touched off (data.length + n)) ≤ d.freeBlocks) :
    ∃ l, writei devsw (d.locked i) off data = .ok (data.length, l) ∧
      d.Replaced i ((d.content (d.dinode i)).take off ++ data ++
        (d.content (d.dinode i)).drop (off + data.length)) l ∧
      (l.disk.locked i).need (touched (off + data.length) n) ≤ l.disk.freeBlocks := by
  have ok := owned.locked allocated
  have limit : maxfile * bsize < 2 ^ 32 := by decide
  have type : (d.locked i).ip.type ≠ .dev := regular
  have size : (d.locked i).ip.size = (d.dinode i).size := rfl
  have free : (d.locked i).disk.freeBlocks = d.freeBlocks := rfl
  have whole : (off + data.length) % 2 ^ 32 = off + data.length := Nat.mod_eq_of_lt (by omega)
  rcases Locked.writeLoop_spec ok off data fits with ⟨l, loop, wrote, count⟩ | ⟨_, few⟩
  · have finished := FsDisk.writei_finish owned allocated start wrote
    have law := wrote.need_le ok n
    have inum : l.inum = i := wrote.inum
    refine ⟨_, ?_, finished, ?_⟩
    · rw [writei, if_neg type, size, if_neg (by omega), whole, if_neg (by omega), loop]
      change (if _ then _ else _) = _
      split
      · rfl
      · rfl
    · refine (Nat.le_of_eq (FsDisk.need_congr (l := l) ?_ ?_ _)).trans
        (Nat.le_trans ?_ (Nat.le_of_eq ?_ : l.disk.freeBlocks ≤ _))
      · change (FsDisk.dinode _ i).addrs = _
        rw [finished.stored]
        split
        · rfl
        · rfl
      · split
        · rfl
        · rfl
      · omega
      · split
        · rfl
        · rfl
  · have needs := (d.locked i).need_mono (Locked.nodup_touched off data.length)
      (Locked.touched_mono off data.length n)
    omega

/-! ## One transaction -/

namespace FsState

variable {devsw : Devsw} {t : FsState} {ip : Fin ninode} {inum off : Nat} {data : List UInt8}

/-- The bytes of an inode. -/
def content (t : FsState) (inum : Nat) : List UInt8 := t.disk.content (t.disk.dinode inum)

/-- The caller has locked a file that is not a device. -/
structure FileLocked (t : FsState) (ip : Fin ninode) (inum : Nat) : Prop where
  inv : CacheInv t
  ready : t.Ready ip inum
  regular : (t.disk.dinode inum).type ≠ .dev

theorem FileLocked.locked (file : t.FileLocked ip inum) : t.locked ip = t.disk.locked inum := by
  rw [FsState.locked, file.ready.named, file.ready.copy]
  rfl

/-- A chunk that fits is written. -/
theorem FileLocked.writei_fits (devsw : Devsw) (file : t.FileLocked ip inum) (start : off ≤ (t.content inum).length)
    (fits : off + data.length ≤ maxfile * bsize) {n : Nat}
    (enough : (t.disk.locked inum).need (touched off (data.length + n)) ≤ t.disk.freeBlocks) :
    ∃ u, t.writei devsw ip off data = .ok (data.length, u) ∧ u.FileLocked ip inum ∧
      u.content inum = splice (t.content inum) off data ∧
      (u.disk.locked inum).need (touched (off + data.length) n) ≤ u.disk.freeBlocks := by
  have ⟨inv, ready, regular⟩ := file
  rw [FsState.content, FsDisk.content_length] at start
  obtain ⟨l, ran, replaced, left⟩ :=
    FsDisk.writei_fits devsw inv.owned ready.allocated regular start fits enough
  have slot : (t.unlock ip l).icache ip = { t.icache ip with copy := l.ip } :=
    Function.update_self ..
  have type : l.ip.type = (t.disk.dinode inum).type := by rw [replaced.ip]
  have inv' : CacheInv (t.unlock ip l) := by
    refine inv.unlock ready.held replaced.owned replaced.sb (fun j other => ?_) ?_ ?_
    · rw [ready.named] at other
      exact (replaced.others j other).1
    · rw [ready.named]
      exact replaced.stored.symm
    · rw [type, ← ready.copy]
      exact ready.type
  refine ⟨t.unlock ip l, ?_, ⟨inv', ?_, ?_⟩, ?_, left⟩
  · rw [FsState.writei, file.locked, ran]
    rfl
  · refine .of_valid inv' ?_ ?_ ?_
    all_goals rw [slot]
    · exact ready.held
    · exact ready.named
    · exact ready.valid
  · change (l.disk.dinode inum).type ≠ .dev
    rw [replaced.stored, type]
    exact regular
  · change l.disk.content (l.disk.dinode inum) = _
    rw [replaced.stored, replaced.content]
    rfl

/-- A chunk that does not fit changes nothing. -/
theorem FileLocked.writei_overflow (file : t.FileLocked ip inum) (small : off ≤ maxfile * bsize)
    (few : data.length ≤ filewriteMax) (large : maxfile * bsize < off + data.length) :
    t.writei devsw ip off data = .ok (-1, t) := by
  have limit : maxfile * bsize < 2 ^ 31 := by decide
  have most : filewriteMax = 1536 := rfl
  have wrote := @FsDisk.writei_eq devsw _ _ off data file.inv.owned file.ready.allocated
    file.regular (by omega) (by omega)
  rw [writeBytes, if_pos (.inr (.inr large))] at wrote
  dsimp only at wrote
  rw [FsState.writei, file.locked, wrote, ← file.locked]
  change Except.ok ((-1 : Int), t.unlock ip (t.locked ip)) = _
  rw [unlock_locked]

/-- Locking a file again leaves it as it is. -/
theorem FileLocked.ilock (file : t.FileLocked ip inum) : t.ilock ip = .ok t := by
  rw [FsState.ilock, if_pos file.ready.valid]

/-- Locking a file. -/
theorem ilock_file (inv : CacheInv t) (held : (t.icache ip).ref > 0)
    (named : (t.icache ip).inum = inum) (file : (t.disk.dinode inum).type = .file) :
    ∃ u, t.ilock ip = .ok u ∧ u.FileLocked ip inum ∧ u.disk = t.disk := by
  have ran : ∃ u, t.ilock ip = .ok u := by
    unfold FsState.ilock
    split
    · exact ⟨t, rfl⟩
    · rw [named]
      dsimp only
      rw [file, if_neg (by decide)]
      exact ⟨_, rfl⟩
  obtain ⟨u, ran⟩ := ran
  obtain ⟨grabs, ready, _⟩ := (Grabs.refl inv).ilock held named ran
  refine ⟨u, ran, ⟨grabs.inv, ready, ?_⟩, grabs.disk⟩
  rw [grabs.disk, file]
  decide

end FsState

/-! ## The loop -/

/-- The bytes that `filewrite` stores of the `k` it is given: all of them, or the chunks that fit. -/
def storable (off k : Nat) : Nat :=
  if off + k ≤ maxfile * bsize then k else (maxfile * bsize - off) / filewriteMax * filewriteMax

theorem storable_step {off k : Nat} (fits : off + min k filewriteMax ≤ maxfile * bsize) :
    storable off k = min k filewriteMax +
      storable (off + min k filewriteMax) (k - min k filewriteMax) := by
  have most : filewriteMax = 1536 := rfl
  unfold storable
  by_cases all : off + k ≤ maxfile * bsize
  · rw [if_pos all, if_pos (by omega)]
    omega
  · rw [if_neg all, if_neg (by omega)]
    simp only [most] at *
    omega

theorem storable_stop {off k : Nat} (small : off ≤ maxfile * bsize)
    (large : maxfile * bsize < off + min k filewriteMax) : storable off k = 0 := by
  have most : filewriteMax = 1536 := rfl
  unfold storable
  rw [if_neg (by omega)]
  simp only [most] at *
  omega

namespace OpenState

variable {devsw : Devsw} {s t : OpenState} {f : Fin nfile} {addr : List UInt8} {inum : Nat}

/-- What `filewrite` has done when it has stored `data`: the file has them at the old offset, and
the offset is behind them. -/
structure Stored (s t : OpenState) (f : Fin nfile) (inum : Nat) (data : List UInt8) : Prop where
  content : t.fs.content inum = splice (s.fs.content inum) (s.file f).off data
  file : t.file = Function.update s.file f
    { s.file f with off := (s.file f).off + data.length }
  ofile : t.ofile = s.ofile
  cwd : t.cwd = s.cwd

theorem Stored.nil (s : OpenState) (f : Fin nfile) (inum : Nat) : Stored s s f inum [] :=
  ⟨(splice_nil _ _).symm, (Function.update_eq_self f s.file).symm, rfl, rfl⟩

theorem Stored.append {u : OpenState} {first second : List UInt8} (one : Stored s t f inum first)
    (two : Stored t u f inum second) (start : (s.file f).off ≤ (s.fs.content inum).length) :
    Stored s u f inum (first ++ second) := by
  have entry : t.file f = { s.file f with off := (s.file f).off + first.length } := by
    rw [one.file, Function.update_self]
  refine ⟨?_, ?_, two.ofile.trans one.ofile, two.cwd.trans one.cwd⟩
  · rw [two.content, one.content, entry]
    exact splice_splice start first second
  · rw [two.file, one.file, Function.update_idem, Function.update_self, List.length_append,
      Nat.add_assoc]

/-- A round that stores its chunk. -/
theorem filewriteLoop_round {n : Int} {i : Nat} {u v : FsState} (more : i < n)
    (lock : s.fs.ilock (s.file f).ip = .ok u)
    (ran : u.writei devsw (s.file f).ip (s.file f).off
      ((addr.drop i).take (min (n - i) filewriteMax).toNat) = .ok (min (n - i) filewriteMax, v)) :
    s.filewriteLoop devsw f addr n i = filewriteLoop devsw f addr n
      ({ s with fs := v }.setFile f
        { s.file f with off := uint ((s.file f).off + min (n - i) filewriteMax) })
      (i + (min (n - i) filewriteMax).toNat) := by
  have most : (filewriteMax : Int) = 1536 := rfl
  rw [filewriteLoop, dif_pos more]
  dsimp only [Bind.bind, Except.bind]
  rw [lock]
  dsimp only
  rw [ran]
  dsimp only
  rw [if_neg (by omega), dif_neg (not_not.mpr rfl), if_pos (by omega)]

/-- A round that does not fit. -/
theorem filewriteLoop_stops {n : Int} {i : Nat} {u v : FsState} (more : i < n)
    (lock : s.fs.ilock (s.file f).ip = .ok u)
    (ran : u.writei devsw (s.file f).ip (s.file f).off
      ((addr.drop i).take (min (n - i) filewriteMax).toNat) = .ok (-1, v)) :
    s.filewriteLoop devsw f addr n i = .ok (-1, { s with fs := v }) := by
  rw [filewriteLoop, dif_pos more]
  dsimp only [Bind.bind, Except.bind]
  rw [lock]
  dsimp only
  rw [ran]
  dsimp only
  rw [if_pos (by decide), if_neg (by omega), if_neg (by decide)]

/-- The loop of `filewrite` from any round on. -/
theorem filewriteLoop_spec (locked : s.fs.FileLocked (s.file f).ip inum) {i : Nat}
    (more : i ≤ addr.length) (start : (s.file f).off ≤ (s.fs.content inum).length)
    (enough : (s.fs.disk.locked inum).need (touched (s.file f).off
      (storable (s.file f).off (addr.length - i))) ≤ s.fs.disk.freeBlocks) :
    ∃ t, s.filewriteLoop devsw f addr addr.length i = .ok
        (if (s.file f).off + (addr.length - i) ≤ maxfile * bsize then (addr.length : Int) else -1,
          t) ∧
      Stored s t f inum ((addr.drop i).take (storable (s.file f).off (addr.length - i))) := by
  have most : filewriteMax = 1536 := rfl
  have limit : maxfile * bsize < 2 ^ 31 := by decide
  induction left : addr.length - i using Nat.strongRecOn generalizing s i with
  | ind k ih =>
      have bound := (locked.inv.owned.locked locked.ready.allocated).size_le
      have small : (s.file f).off ≤ maxfile * bsize := by
        rw [FsState.content, FsDisk.content_length] at start
        exact Nat.le_trans start bound
      by_cases last : k = 0
      · refine ⟨s, ?_, ?_⟩
        · rw [filewriteLoop, dif_neg (by omega), if_pos (by omega), if_pos (by omega)]
        · have none : storable (s.file f).off k = 0 := by
            rw [storable, if_pos (by omega), last]
          rw [none]
          exact .nil s f inum
      · have size : (min ((addr.length : Int) - i) filewriteMax).toNat = min k filewriteMax := by
          omega
        have length : ((addr.drop i).take (min k filewriteMax)).length = min k filewriteMax := by
          rw [List.length_take, List.length_drop]
          omega
        by_cases fits : (s.file f).off + min k filewriteMax ≤ maxfile * bsize
        · rw [left, storable_step fits, ← length] at enough
          obtain ⟨u, ran, locked', content, enough'⟩ :=
            locked.writei_fits devsw start (by rw [length]; exact fits) enough
          have round := @filewriteLoop_round devsw s f addr addr.length i _ u (by omega) locked.ilock (by
              rw [size, ran, length]
              congr 2
              omega)
          have offset : uint ((s.file f).off + min ((addr.length : Int) - i) filewriteMax) =
              (s.file f).off + min k filewriteMax := by
            unfold uint
            omega
          rw [offset, size] at round
          generalize moved : { s with fs := u }.setFile f
            { s.file f with off := (s.file f).off + min k filewriteMax } = v at round
          have one : Stored s v f inum ((addr.drop i).take (min k filewriteMax)) := by
            rw [← moved]
            refine ⟨content, ?_, rfl, rfl⟩
            rw [length]
            rfl
          have fs : v.fs = u := by rw [← moved]; rfl
          have entry : v.file f = { s.file f with off := (s.file f).off + min k filewriteMax } := by
            rw [← moved]
            exact Function.update_self ..
          have start' : (v.file f).off ≤ (v.fs.content inum).length := by
            rw [entry, fs, content, length_splice, length]
            dsimp only
            omega
          rw [length] at enough'
          obtain ⟨t, ran, two⟩ := ih (k - min k filewriteMax) (by omega) (s := v)
            (i := i + min k filewriteMax) (by rw [fs, entry]; exact locked') (by omega) start'
            (by
              rw [fs, entry, show addr.length - (i + min k filewriteMax) =
                k - min k filewriteMax by omega]
              exact enough') (by omega)
          refine ⟨t, round.trans (ran.trans ?_), ?_⟩
          · rw [entry]
            dsimp only
            rw [show (s.file f).off + min k filewriteMax + (k - min k filewriteMax) =
              (s.file f).off + k by omega]
          · have whole := one.append two start
            rw [entry] at whole
            dsimp only at whole
            rw [storable_step fits, List.take_add, List.drop_drop]
            exact whole
        · refine ⟨s, ?_, ?_⟩
          · have stops := @filewriteLoop_stops devsw s f addr addr.length i _ s.fs (by omega) locked.ilock (by
                rw [size]
                exact locked.writei_overflow small (by rw [length]; omega) (by rw [length]; omega))
            rw [stops, if_neg (by omega)]
          · rw [storable_stop small (by omega)]
            exact .nil s f inum

/-- A call of `filewrite` on a file that is not locked. -/
theorem filewrite_spec (pipewrite : List UInt8 → Int → Except FileStop (Int × OpenState))
    (writable : (s.file f).writable = true) (inode : (s.file f).type = .inode)
    (inv : CacheInv s.fs) (held : (s.fs.icache (s.file f).ip).ref > 0)
    (named : (s.fs.icache (s.file f).ip).inum = inum)
    (file : (s.fs.disk.dinode inum).type = .file)
    (start : (s.file f).off ≤ (s.fs.content inum).length)
    (enough : (s.fs.disk.locked inum).need (touched (s.file f).off
      (storable (s.file f).off addr.length)) ≤ s.fs.disk.freeBlocks) :
    ∃ t, s.filewrite devsw pipewrite f addr addr.length = .ok
        (if (s.file f).off + addr.length ≤ maxfile * bsize then (addr.length : Int) else -1, t) ∧
      Stored s t f inum (addr.take (storable (s.file f).off addr.length)) := by
  obtain ⟨u, ran, locked, disk⟩ := FsState.ilock_file inv held named file
  have call : s.filewrite devsw pipewrite f addr addr.length =
      s.filewriteLoop devsw f addr addr.length 0 := by
    rw [filewrite, if_neg (by rw [writable]; decide), inode]
  rw [call]
  by_cases none : addr.length = 0
  · have fits : (s.file f).off ≤ maxfile * bsize := by
      rw [FsState.content, FsDisk.content_length, ← disk] at start
      exact Nat.le_trans start (locked.inv.owned.locked locked.ready.allocated).size_le
    refine ⟨s, ?_, ?_⟩
    · rw [filewriteLoop, dif_neg (by omega), if_pos (by omega), if_pos (by omega)]
    · rw [List.eq_nil_of_length_eq_zero none, List.take_nil]
      exact .nil s f inum
  · -- the first round reads the inode from the disk
    have same : s.filewriteLoop devsw f addr addr.length 0 =
        { s with fs := u }.filewriteLoop devsw f addr addr.length 0 := by
      rw [filewriteLoop, filewriteLoop, dif_pos (by omega), dif_pos (by omega)]
      dsimp only [Bind.bind, Except.bind]
      rw [ran, locked.ilock]
    have content : u.content inum = s.fs.content inum := by
      rw [FsState.content, disk]
      rfl
    obtain ⟨t, result, stored⟩ := @filewriteLoop_spec devsw { s with fs := u } f addr inum locked 0
      (Nat.zero_le _) (by rw [content]; exact start)
      (by rw [disk]; exact enough)
    refine ⟨t, same.trans result, ?_, stored.file, stored.ofile, stored.cwd⟩
    rw [stored.content]
    dsimp only
    rw [content]
    rfl

/--
`filewrite` in chunks is one write of all its bytes if these end inside the
largest file.  If they do not, it returns `-1`, and the chunks that end inside
the largest file have been written.
-/
theorem filewrite_chunks (devsw : Devsw)
    (pipewrite : List UInt8 → Int → Except FileStop (Int × OpenState))
    (writable : (s.file f).writable = true) (inode : (s.file f).type = .inode)
    (inv : CacheInv s.fs) (held : (s.fs.icache (s.file f).ip).ref > 0)
    (named : (s.fs.icache (s.file f).ip).inum = inum)
    (file : (s.fs.disk.dinode inum).type = .file)
    (start : (s.file f).off ≤ (s.fs.content inum).length)
    (enough : (s.fs.disk.locked inum).need (touched (s.file f).off
      (storable (s.file f).off addr.length)) ≤ s.fs.disk.freeBlocks) :
    ((s.file f).off + addr.length ≤ maxfile * bsize →
      ∃ t, s.filewrite devsw pipewrite f addr addr.length = .ok (addr.length, t) ∧
        Stored s t f inum addr) ∧
    (maxfile * bsize < (s.file f).off + addr.length →
      ∃ t, s.filewrite devsw pipewrite f addr addr.length = .ok (-1, t) ∧
        Stored s t f inum
          (addr.take ((maxfile * bsize - (s.file f).off) / filewriteMax * filewriteMax))) := by
  obtain ⟨t, ran, stored⟩ := @filewrite_spec devsw s f addr inum pipewrite writable inode inv held named
    file start enough
  refine ⟨fun fits => ⟨t, ?_, ?_⟩, fun large => ⟨t, ?_, ?_⟩⟩
  · rw [ran, if_pos fits]
  · rw [storable, if_pos fits, List.take_length] at stored
    exact stored
  · rw [ran, if_neg (by omega)]
  · rw [storable, if_neg (by omega)] at stored
    exact stored

/-- A disk of two hundred blocks with one empty file, which is open at its start. -/
def emptyFile : OpenState where
  fs := ⟨{ FsDisk.sample with sb := ⟨200, 3, 2⟩ }, fun ip =>
    if ip = 0 then ⟨1, 1, false, .zero⟩ else ⟨0, 0, false, .zero⟩⟩
  file f := if f = 0 then ⟨.inode, 1, true, true, 0, 0⟩ else ⟨.none, 0, false, false, 0, 0⟩
  ofile _ := none
  cwd := 0

theorem emptyFile_inv : CacheInv emptyFile.fs := by
  have first : ∀ ip : Fin ninode, (emptyFile.fs.icache ip).ref > 0 → ip = 0 := by
    intro ip held
    by_contra other
    have unused : (emptyFile.fs.icache ip).ref = 0 := congrArg CachedInode.ref (if_neg other)
    omega
  refine ⟨FsDisk.owned_of_empty (fun i => ?_) (fun i => ?_) (fun _ => rfl) (by decide),
    fun ip held => ?_, fun ip held valid => ?_, fun ip jp left right _ => ?_⟩
  · change (if i = 1 then _ else _ : Dinode).addrs = _
    split
    · rfl
    · rfl
  · change (if i = 1 then _ else _ : Dinode).size = _
    split
    · rfl
    · rfl
  · rw [first ip held]
    decide
  · rw [first ip held] at valid
    cases valid
  · rw [first ip left, first jp right]

/-- A write that takes three chunks. -/
def threeChunks : List UInt8 := List.replicate 4000 7

theorem length_threeChunks : threeChunks.length = 4000 := List.length_replicate

/-- It is written to the empty file. -/
theorem filewrite_chunks_three : 2 * filewriteMax < threeChunks.length ∧ ∃ t,
    emptyFile.filewrite ⟨fun _ => none, fun _ => none⟩ (fun _ _ => .error .untyped) 0 threeChunks
        threeChunks.length = .ok (threeChunks.length, t) ∧ Stored emptyFile t 0 1 threeChunks := by
  have length := length_threeChunks
  refine ⟨by rw [length]; decide, (@filewrite_chunks emptyFile 0 threeChunks 1
    ⟨fun _ => none, fun _ => none⟩ (fun _ _ => .error .untyped) rfl rfl emptyFile_inv (by decide)
    rfl rfl (Nat.zero_le _) ?_).1 ?_⟩
  · rw [length]
    decide +kernel
  · rw [length]
    decide

/-- A write of one byte more than the largest file has. -/
def longWrite : List UInt8 := List.replicate 71681 7

/-- It fails, but not before most of it is stored. -/
theorem filewrite_overflow_stores : ∃ t,
    emptyFile.filewrite ⟨fun _ => none, fun _ => none⟩ (fun _ _ => .error .untyped) 0 longWrite
        longWrite.length = .ok (-1, t) ∧
      (t.file 0).off = 70656 ∧ (t.fs.content 1).length = 70656 ∧ emptyFile.fs.content 1 = [] := by
  have length : longWrite.length = 71681 := List.length_replicate
  have kept : storable 0 71681 = 70656 := by decide
  have spec := @filewrite_spec ⟨fun _ => none, fun _ => none⟩ emptyFile 0 longWrite 1
    (fun _ _ => .error .untyped) rfl rfl
    emptyFile_inv (by decide) rfl rfl (Nat.zero_le _)
  have offset : (emptyFile.file 0).off = 0 := rfl
  rw [length, offset, kept] at spec
  obtain ⟨t, ran, stored⟩ := spec (by decide +kernel)
  have size : (longWrite.take 70656).length = 70656 := by
    rw [List.length_take, length]
    rfl
  rw [if_neg (by decide)] at ran
  refine ⟨t, ?_, ?_, ?_, rfl⟩
  · rw [length]
    exact ran
  · rw [stored.file, Function.update_self, size, offset]
  · rw [stored.content, length_splice, size, offset]
    rfl

end OpenState

end SlabStudy.Xv6
