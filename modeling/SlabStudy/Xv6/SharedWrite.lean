import SlabStudy.Library.Runs
import SlabStudy.Library.WriteAt
import SlabStudy.Xv6.FileContent

/-!
# Writers of one open file

Processes that share a file-table entry, by `dup` or `fork`, share its offset.
`filewrite` writes its bytes in rounds; each round reads the offset, writes at
it and advances it while it holds the inode.  Between two rounds other writers
may come first, and still no byte is overwritten.
-/

namespace SlabStudy.Xv6

open Library

/-! ## filewrite -/

/-- The most that `filewrite` writes in one transaction. -/
def filewriteMax : Nat := (maxopblocks - 1 - 1 - 2) / 2 * 512

/-- The arguments of a call of `filewrite`, and its local variable `i`. -/
structure Writing where
  addr : List UInt8
  n : Int
  i : Nat

/-- The `n1` bytes of the next round. -/
def Writing.chunk (w : Writing) : List UInt8 :=
  (w.addr.drop w.i).take (min (w.n - w.i).toNat filewriteMax)

/-- The bytes of the rounds so far. -/
def Writing.done (w : Writing) : List UInt8 := w.addr.take w.i

/-- A round from `ilock` to `iunlock`: the result of `writei`, the disk, and the new offset. -/
def filewriteRound (devsw : Devsw) (inum : Nat) (disk : FsDisk) (off : Nat) (data : List UInt8) :
    Except FsPanic (Int × FsDisk × Nat) := do
  let (r, l) ← writei devsw (disk.locked inum) off data
  .ok (r, l.disk, if 0 < r then uint (off + r) else off)

/-- A writable entry of type `FD_INODE`, with the processes that are in a call on it. -/
structure SharedFile (ι : Type) where
  disk : FsDisk
  off : Nat
  call : ι → Option Writing

inductive WriteLabel (ι : Type) where
  | calls (p : ι)
  /-- A round of `p` has stored `data` at `off`. -/
  | stores (p : ι) (off : Nat) (data : List UInt8)
  /-- `filewrite` returns the number of bytes it was called with. -/
  | returns (p : ι) (addr : List UInt8)
  /-- `filewrite` returns `-1`, after rounds that have stored `data`. -/
  | fails (p : ι) (data : List UInt8)
  | elsewhere

section System

variable {ι : Type} [DecidableEq ι] (devsw : Devsw) (inum : Nat)

/-- What the writers can do next.  A short count would be a panic. -/
inductive WriteStep (s : SharedFile ι) : WriteLabel ι → SharedFile ι → Prop where
  | call {p : ι} (addr : List UInt8) (n : Int) (idle : s.call p = none)
      (size : addr.length = n.toNat) :
      WriteStep s (.calls p) { s with call := Function.update s.call p (some ⟨addr, n, 0⟩) }
  | round {p : ι} {w : Writing} {disk : FsDisk} {off : Nat} (busy : s.call p = some w)
      (more : (w.i : Int) < w.n)
      (ran : filewriteRound devsw inum s.disk s.off w.chunk = .ok (w.chunk.length, disk, off)) :
      WriteStep s (.stores p s.off w.chunk)
        ⟨disk, off, Function.update s.call p (some { w with i := w.i + w.chunk.length })⟩
  | breaks {p : ι} {w : Writing} {r : Int} {disk : FsDisk} {off : Nat} (busy : s.call p = some w)
      (more : (w.i : Int) < w.n)
      (ran : filewriteRound devsw inum s.disk s.off w.chunk = .ok (r, disk, off))
      (failed : r < 0) :
      WriteStep s (.fails p w.done) ⟨disk, off, Function.update s.call p none⟩
  | returns {p : ι} {w : Writing} (busy : s.call p = some w) (all : (w.i : Int) = w.n) :
      WriteStep s (.returns p w.addr) { s with call := Function.update s.call p none }
  -- the loop is never entered for a negative `n`
  | negative {p : ι} {w : Writing} (busy : s.call p = some w) (none : w.n < w.i) :
      WriteStep s (.fails p w.done) { s with call := Function.update s.call p Option.none }
  -- the rest of the file system, as far as it leaves this inode alone
  | elsewhere {disk : FsDisk} (owned : disk.Owned) (allocated : disk.Allocated inum)
      (regular : (disk.dinode inum).type ≠ .dev)
      (same : disk.content (disk.dinode inum) = s.disk.content (s.disk.dinode inum)) :
      WriteStep s .elsewhere { s with disk := disk }

/-- Writers of a file that is not a device. -/
def writeSystem : System (SharedFile ι) (WriteLabel ι) where
  initial s := s.disk.Owned ∧ s.disk.Allocated inum ∧ (s.disk.dinode inum).type ≠ .dev ∧
    s.off < 2 ^ 32 ∧ ∀ p, s.call p = none
  step := WriteStep devsw inum

end System

/-! ## Histories -/

/-- A round that has stored something. -/
structure Chunk (ι : Type) where
  writer : ι
  off : Nat
  data : List UInt8

def WriteLabel.chunk {ι : Type} : WriteLabel ι → Option (Chunk ι)
  | .stores p off data => some ⟨p, off, data⟩
  | _ => none

/-- The bytes of the calls of `p` that come to an end with a step. -/
def WriteLabel.sent {ι : Type} [DecidableEq ι] (p : ι) : WriteLabel ι → List UInt8
  | .returns q addr => if q = p then addr else []
  | .fails q data => if q = p then data else []
  | _ => []

/-- The chunks of a run, in the order in which the inode was locked. -/
def storedChunks {ι : Type} (labels : List (WriteLabel ι)) : List (Chunk ι) :=
  labels.filterMap WriteLabel.chunk

/-- The bytes of some chunks, one after the other. -/
def chunkBytes {ι : Type} (stored : List (Chunk ι)) : List UInt8 := stored.flatMap Chunk.data

/-- Each chunk lies behind the ones before it. -/
def Consecutive {ι : Type} (start : Nat) (stored : List (Chunk ι)) : Prop :=
  ∀ before chunk after, stored = before ++ chunk :: after →
    chunk.off = start + (chunkBytes before).length

section Chunks

variable {ι : Type} {start : Nat} {stored : List (Chunk ι)} {chunk : Chunk ι}

theorem storedChunks_snoc (labels : List (WriteLabel ι)) (label : WriteLabel ι) :
    storedChunks (labels ++ [label]) = storedChunks labels ++ label.chunk.toList := by
  have last : [label].filterMap WriteLabel.chunk = label.chunk.toList := by
    rw [List.filterMap_cons]
    cases label.chunk <;> rfl
  rw [storedChunks, List.filterMap_append, last]
  rfl

theorem chunkBytes_snoc (stored : List (Chunk ι)) (chunk : Chunk ι) :
    chunkBytes (stored ++ [chunk]) = chunkBytes stored ++ chunk.data := by
  rw [chunkBytes, List.flatMap_append, List.flatMap_singleton]
  rfl

/-- The next chunk is stored at the end. -/
theorem Consecutive.snoc (all : Consecutive start stored)
    (here : chunk.off = start + (chunkBytes stored).length) :
    Consecutive start (stored ++ [chunk]) := by
  intro before next after split
  rcases List.eq_nil_or_concat after with rfl | ⟨rest, last, rfl⟩
  · obtain ⟨rfl, same⟩ := List.append_inj' split rfl
    cases same
    exact here
  · rw [List.concat_eq_append, ← List.cons_append, ← List.append_assoc] at split
    obtain ⟨front, _⟩ := List.append_inj' split rfl
    exact all before next rest front

/-- Consecutive chunks do not overlap. -/
theorem Consecutive.disjoint (all : Consecutive start stored) :
    stored.Pairwise fun early late => early.off + early.data.length ≤ late.off := by
  induction stored using List.reverseRecOn with
  | nil => exact .nil
  | append_singleton stored last ih =>
      have front : Consecutive start stored := fun before chunk after split =>
        all before chunk (after ++ [last]) (by rw [split, List.append_assoc]; rfl)
      refine List.pairwise_append.mpr ⟨ih front, List.pairwise_singleton _ _, ?_⟩
      intro early member late here
      rw [List.mem_singleton.mp here, all stored last [] rfl]
      obtain ⟨before, after, rfl⟩ := List.append_of_mem member
      rw [front before early after rfl, chunkBytes, chunkBytes, List.flatMap_append,
        List.flatMap_cons, List.length_append, List.length_append]
      omega

end Chunks

/-! ## The invariant -/

section Invariant

variable {ι : Type} [DecidableEq ι] {devsw : Devsw} {inum : Nat} {first s s' : SharedFile ι}
  {label : WriteLabel ι} {labels : List (WriteLabel ι)} {stored : List (Chunk ι)}

/-- The bytes that process `p` has stored in the call it is in. -/
def SharedFile.current (s : SharedFile ι) (p : ι) : List UInt8 := (s.call p).elim [] Writing.done

/-- The content of the file. -/
def SharedFile.content (inum : Nat) (s : SharedFile ι) : List UInt8 :=
  s.disk.content (s.disk.dinode inum)

/-- The buffer has the length that the caller says, and `i` is inside it. -/
def Writing.Fits (w : Writing) : Prop := w.addr.length = w.n.toNat ∧ w.i ≤ w.addr.length

/-- The state of the file and of its writers after some chunks have been stored. -/
structure Written (inum : Nat) (first s : SharedFile ι) (stored : List (Chunk ι)) : Prop where
  owned : s.disk.Owned
  allocated : s.disk.Allocated inum
  regular : (s.disk.dinode inum).type ≠ .dev
  small : s.off < 2 ^ 32
  consecutive : Consecutive first.off stored
  off : s.off = first.off + (chunkBytes stored).length
  content : s.content inum = splice (first.content inum) first.off (chunkBytes stored)
  calls : ∀ p w, s.call p = some w → w.Fits

/-- One process enters a call, goes on in it or leaves it. -/
theorem fits_update {call : ι → Option Writing} {p : ι} {new : Option Writing}
    (calls : ∀ q w, call q = some w → w.Fits) (here : ∀ w, new = some w → w.Fits) :
    ∀ q w, Function.update call p new q = some w → w.Fits := by
  intro q w there
  by_cases same : q = p
  · rw [same, Function.update_self] at there
    exact here w there
  · rw [Function.update_of_ne same] at there
    exact calls q w there

omit [DecidableEq ι] in
/-- A step of a writer that stores nothing. -/
theorem Written.same (written : Written inum first s stored)
    (disk : s'.disk = s.disk) (off : s'.off = s.off)
    (calls : ∀ p w, s'.call p = some w → w.Fits) :
    Written inum first s' stored := by
  obtain ⟨owned, allocated, regular, small, consecutive, here, content, _⟩ := written
  unfold SharedFile.content at content
  rw [← disk] at owned allocated regular content
  rw [← off] at small here
  exact ⟨owned, allocated, regular, small, consecutive, here, content, calls⟩

/-- A round leaves the file as it is, or stores the bytes at the offset and moves it behind them. -/
theorem filewriteRound_cases {d disk : FsDisk} {off off' : Nat} {data : List UInt8} {r : Int}
    (owned : d.Owned) (allocated : d.Allocated inum) (regular : (d.dinode inum).type ≠ .dev)
    (small : off < 2 ^ 32) (few : data.length < 2 ^ 32)
    (ran : filewriteRound devsw inum d off data = .ok (r, disk, off')) :
    (r < 0 ∧ disk = d ∧ off' = off) ∨
      (r = data.length ∧ off' = off + data.length ∧ off' < 2 ^ 32 ∧
        off ≤ (d.content (d.dinode inum)).length ∧ disk.Owned ∧ disk.Allocated inum ∧ (disk.dinode inum).type ≠ .dev ∧
        disk.content (disk.dinode inum) = splice (d.content (d.dinode inum)) off data) := by
  have spec := FsDisk.writei_eq devsw owned allocated regular small few
  unfold filewriteRound at ran
  cases result : writeBytes (d.content (d.dinode inum)) off data with
  | none =>
      rw [result] at spec
      rw [spec] at ran
      cases ran
      exact .inl ⟨by decide, rfl, rfl⟩
  | some later =>
      rw [result] at spec
      dsimp only at spec
      split at spec
      · obtain ⟨l, wrote, replaced⟩ := spec
        rw [wrote] at ran
        cases ran
        unfold writeBytes at result
        split at result
        · cases result
        · next fits =>
            cases result
            have same := replaced.stored
            have moved : (if 0 < (data.length : Int) then uint (off + data.length) else off) =
                off + data.length := by
              unfold uint
              split <;> omega
            refine .inr ⟨rfl, moved, by omega, by omega, replaced.owned, ⟨?_, ?_⟩, ?_, ?_⟩
            · rw [replaced.sb]
              exact allocated.1
            · rw [same, replaced.ip]
              exact allocated.2
            · rw [same, replaced.ip]
              exact regular
            · rw [same]
              exact replaced.content
      · rw [spec] at ran
        cases ran

theorem Writing.Fits.chunk {w : Writing} (fits : w.Fits) :
    w.i + w.chunk.length ≤ w.addr.length ∧ w.chunk.length < 2 ^ 32 := by
  have inside := fits.2
  have little : filewriteMax < 2 ^ 32 := by decide
  rw [Writing.chunk, List.length_take, List.length_drop]
  omega

/-- A round that stores its chunk. -/
theorem Written.round {p : ι} {w : Writing} {disk : FsDisk} {off : Nat}
    (written : Written inum first s stored) (busy : s.call p = some w)
    (ran : filewriteRound devsw inum s.disk s.off w.chunk = .ok (w.chunk.length, disk, off)) :
    Written inum first
      ⟨disk, off, Function.update s.call p (some { w with i := w.i + w.chunk.length })⟩
      (stored ++ [⟨p, s.off, w.chunk⟩]) := by
  have fits := written.calls p w busy
  obtain ⟨most, few⟩ := fits.chunk
  have length := congrArg List.length written.content
  rcases filewriteRound_cases written.owned written.allocated written.regular written.small
    few ran with ⟨negative, _⟩ | ⟨_, rfl, small, within, owned, allocated, regular, content⟩
  · omega
  · have here := written.off
    -- an offset behind the end of the file is refused
    have start : first.off ≤ (first.content inum).length := by
      rw [length_splice] at length
      change s.off ≤ (s.content inum).length at within
      omega
    refine ⟨owned, allocated, regular, small, written.consecutive.snoc here, ?_, ?_, ?_⟩
    · rw [chunkBytes_snoc, List.length_append, here]
      exact Nat.add_assoc _ _ _
    · rw [chunkBytes_snoc, ← splice_splice start, ← written.content, ← here]
      exact content
    · refine fits_update written.calls fun v next => ?_
      cases next
      exact ⟨fits.1, most⟩

/-- The end of a call, in whatever way. -/
theorem Written.ends {p : ι} (written : Written inum first s stored) :
    Written inum first { s with call := Function.update s.call p none } stored :=
  written.same rfl rfl (fits_update written.calls nofun)

theorem Written.step (written : Written inum first s stored)
    (step : WriteStep devsw inum s label s') :
    Written inum first s' (stored ++ label.chunk.toList) := by
  have quiet (same : Written inum first s' stored) :
      Written inum first s' (stored ++ (none : Option (Chunk ι)).toList) := by
    rw [Option.toList_none, List.append_nil]
    exact same
  cases step with
  | @call p addr n idle size =>
      refine quiet (written.same rfl rfl (fits_update written.calls fun w new => ?_))
      cases new
      exact ⟨size, Nat.zero_le _⟩
  | round busy more ran => exact written.round busy ran
  | @breaks p w r disk off busy more ran failed =>
      rcases filewriteRound_cases written.owned written.allocated written.regular written.small
        (written.calls p w busy).chunk.2 ran with ⟨_, rfl, rfl⟩ | ⟨rfl, _⟩
      · exact quiet written.ends
      · omega
  | returns busy all =>
      exact quiet written.ends
  | negative busy none =>
      exact quiet written.ends
  | elsewhere owned allocated regular same =>
      exact quiet ⟨owned, allocated, regular, written.small, written.consecutive, written.off,
        same.trans written.content, written.calls⟩

theorem Written.run (begins : (writeSystem devsw inum).initial first)
    (run : (writeSystem devsw inum).Run first labels s) :
    Written inum first s (storedChunks labels) := by
  refine run.preservesHistory (P := fun labels s =>
    Written inum first s (storedChunks labels)) ?_ ?_
  · intro labels s label s' written step
    have later := written.step step
    rw [storedChunks_snoc]
    exact later
  · obtain ⟨owned, allocated, regular, small, idle⟩ := begins
    refine ⟨owned, allocated, regular, small, ?_, rfl, (splice_nil _ _).symm, fun p w busy => ?_⟩
    · intro before chunk after split
      exact absurd split.symm (List.append_ne_nil_of_right_ne_nil _ (List.cons_ne_nil _ _))
    · rw [idle p] at busy
      cases busy

/-! ## The chunks of one process -/

/-- The bytes of process `p` among the chunks. -/
def ownBytes (p : ι) (stored : List (Chunk ι)) : List UInt8 :=
  chunkBytes (stored.filter fun chunk => chunk.writer = p)

theorem ownBytes_append (p : ι) (stored later : List (Chunk ι)) :
    ownBytes p (stored ++ later) = ownBytes p stored ++ ownBytes p later := by
  rw [ownBytes, List.filter_append, chunkBytes, List.flatMap_append]
  rfl

theorem ownBytes_singleton (p : ι) (chunk : Chunk ι) :
    ownBytes p [chunk] = if chunk.writer = p then chunk.data else [] := by
  rw [ownBytes, List.filter_singleton]
  by_cases own : chunk.writer = p
  · rw [if_pos own, decide_eq_true own]
    exact List.flatMap_singleton _ _
  · rw [if_neg own, decide_eq_false own]
    rfl

/-- A round continues where the last one has stopped. -/
theorem Writing.done_next (w : Writing) :
    ({ w with i := w.i + w.chunk.length } : Writing).done = w.done ++ w.chunk := by
  rw [done, done, List.take_add]
  congr 1
  rw [chunk, List.length_take]
  exact (List.take_eq_take_min ..).symm

/-- A call that has come to its end has stored all its bytes. -/
theorem Writing.Fits.done {w : Writing} (fits : w.Fits) (all : (w.i : Int) = w.n) :
    w.done = w.addr := by
  have size := fits.1
  exact List.take_of_length_le (by omega)

theorem SharedFile.current_update (s : SharedFile ι) (p q : ι) (disk : FsDisk) (off : Nat)
    (new : Option Writing) :
    SharedFile.current ⟨disk, off, Function.update s.call p new⟩ q =
      if q = p then new.elim [] Writing.done else s.current q := by
  unfold current
  by_cases same : q = p
  · rw [if_pos same, same]
    simp only [Function.update_self]
  · rw [if_neg same]
    simp only [Function.update_of_ne same]

/-- What a process has stored is what its calls were given, as far as they have come. -/
theorem own_step (fits : ∀ p w, s.call p = some w → w.Fits)
    (step : WriteStep devsw inum s label s') (q : ι) :
    s.current q ++ ownBytes q label.chunk.toList = label.sent q ++ s'.current q := by
  have busy_current {p : ι} {w : Writing} (busy : s.call p = some w) : s.current p = w.done := by
    rw [SharedFile.current, busy]
    rfl
  have ends {p : ι} {w : Writing} {disk : FsDisk} {off : Nat} {sent : List UInt8}
      (busy : s.call p = some w) (told : sent = if p = q then w.done else []) :
      s.current q ++ [] =
        sent ++ SharedFile.current ⟨disk, off, Function.update s.call p none⟩ q := by
    rw [SharedFile.current_update, told, List.append_nil]
    by_cases same : p = q
    · rw [if_pos same, if_pos same.symm, ← same, busy_current busy]
      exact (List.append_nil _).symm
    · rw [if_neg same, if_neg (Ne.symm same)]
      rfl
  cases step with
  | @call p addr n idle size =>
      rw [SharedFile.current_update]
      change s.current q ++ [] = [] ++ _
      rw [List.append_nil, List.nil_append]
      split
      · next same =>
          rw [same, SharedFile.current, idle]
          rfl
      · rfl
  | @round p w disk off busy more ran =>
      rw [SharedFile.current_update]
      change s.current q ++ ownBytes q [⟨p, s.off, w.chunk⟩] = [] ++ _
      rw [ownBytes_singleton, List.nil_append]
      by_cases same : p = q
      · rw [if_pos same, if_pos same.symm, ← same, busy_current busy]
        exact w.done_next.symm
      · rw [if_neg same, if_neg (Ne.symm same)]
        exact List.append_nil _
  | breaks busy more ran failed => exact ends busy rfl
  | @returns p w busy all =>
      have whole : (WriteLabel.returns p w.addr).sent q = if p = q then w.done else [] := by
        rw [(fits p w busy).done all]
        rfl
      rw [whole]
      exact ends busy rfl
  | negative busy none => exact ends busy rfl
  | elsewhere owned allocated regular same => exact List.append_nil _

theorem own_run (begins : (writeSystem devsw inum).initial first)
    (run : (writeSystem devsw inum).Run first labels s) (q : ι) :
    ownBytes q (storedChunks labels) = labels.flatMap (WriteLabel.sent q) ++ s.current q := by
  induction run with
  | nil =>
      rw [SharedFile.current, begins.2.2.2.2 q]
      rfl
  | snoc earlier next ih =>
      have step := own_step (Written.run begins earlier).calls next q
      rw [storedChunks_snoc, ownBytes_append, ih, List.flatMap_append, List.flatMap_singleton,
        List.append_assoc, List.append_assoc, step]

end Invariant

/-! ## The result -/

/-- The chunks fill consecutive ranges from the initial offset on, in the order in which the
writers get the inode; nothing else in the file changes, and the chunks of a process are, in
order, the bytes its calls were given. -/
theorem shared_writes {ι : Type} [DecidableEq ι] {devsw : Devsw} {inum : Nat}
    {first s : SharedFile ι} {labels : List (WriteLabel ι)}
    (begins : (writeSystem devsw inum).initial first)
    (run : (writeSystem devsw inum).Run first labels s) :
    Consecutive first.off (storedChunks labels) ∧
    ((storedChunks labels).Pairwise fun early late => early.off + early.data.length ≤ late.off) ∧
    s.off = first.off + (chunkBytes (storedChunks labels)).length ∧
    s.content inum = splice (first.content inum) first.off (chunkBytes (storedChunks labels)) ∧
    ∀ p, ownBytes p (storedChunks labels) =
      labels.flatMap (WriteLabel.sent p) ++ s.current p := by
  have written := Written.run begins run
  exact ⟨written.consecutive, written.consecutive.disjoint, written.off, written.content,
    own_run begins run⟩

/-- The empty file of the small image, which two processes are going to write. -/
def twoWriters : SharedFile Bool := ⟨.sample, 0, fun _ => none⟩

/-- Both have called `filewrite`, and the first one has stored its bytes. -/
theorem one_of_two_writes : ∃ s, (writeSystem noDevices 1).Run twoWriters
    [.calls true, .calls false, .stores true 0 [7, 8]] s ∧ s.content 1 = [7, 8] ∧ s.off = 2 := by
  have begins : (writeSystem noDevices 1).initial twoWriters :=
    ⟨FsDisk.sample_owned, by decide, by decide, by decide, fun _ => rfl⟩
  have written := FsDisk.writei_eq noDevices FsDisk.sample_owned
    (by decide : FsDisk.sample.Allocated 1) (by decide) (by decide : 0 < 2 ^ 32)
    (by decide : ([7, 8] : List UInt8).length < 2 ^ 32)
  change if _ then ∃ l, _ ∧ FsDisk.sample.Replaced 1 [7, 8] l else _ at written
  rw [if_pos (by decide)] at written
  obtain ⟨l, wrote, _⟩ := written
  have round : filewriteRound noDevices 1 FsDisk.sample 0 [7, 8] = .ok (2, l.disk, 2) := by
    rw [filewriteRound, wrote]
    rfl
  have start : (writeSystem noDevices 1).Run twoWriters [] twoWriters := .nil _
  have one := start.snoc (.call (p := true) [7, 8] 2 rfl rfl)
  have two := one.snoc (.call (p := false) [9] 1 rfl rfl)
  have three := two.snoc (.round (p := true) (w := ⟨[7, 8], 2, 0⟩) rfl (by decide) round)
  have shared := shared_writes begins three
  exact ⟨_, three, shared.2.2.2.1, shared.2.2.1⟩

end SlabStudy.Xv6
