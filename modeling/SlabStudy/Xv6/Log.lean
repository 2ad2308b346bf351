import SlabStudy.Xv6.Block
import SlabStudy.Xv6.Proc

/-!
# The redo log

`commit` of `log.c` copies the blocks of a transaction into the log, writes
the header, installs the blocks at their home locations and clears the header.
`recover_from_log` installs what the header names.  Both are sequences of
single block writes, and a crash keeps a prefix of them: what the buffers held
is lost, and the next start runs the recovery from the disk.
-/

namespace SlabStudy.Xv6

open Library

/-- The blocks of the disk. -/
abbrev Disk := Nat → Block

/-- The disk, and for every block what `bread` returns: its buffer, if it has one. -/
structure Buffers where
  disk : Disk
  buf : Disk

namespace Buffers

/-- Fill the buffer of block `b` and write it to the disk. -/
def bwrite (m : Buffers) (b : Nat) (data : Block) : Buffers :=
  ⟨Function.update m.disk b data, Function.update m.buf b data⟩

/-- After a restart every buffer is read from the disk. -/
def reboot (disk : Disk) : Buffers := ⟨disk, disk⟩

end Buffers

/-! ## The header block -/

/-- Store block numbers in the words behind number `tail` of the header. -/
def putBlocks (tail : Nat) (head : Block) : List Nat → Block
  | [] => head
  | b :: rest => putBlocks (tail + 1) (head.setWord (tail + 1) b) rest

/-- The stores of `write_head`; words of the block that it does not store to are kept. -/
def putHead (head : Block) (lh : List Nat) : Block :=
  putBlocks 0 (head.setWord 0 lh.length) lh

/-- The loads of `read_head`. -/
def readHead (head : Block) : List Nat :=
  (List.range (int (head.word 0)).toNat).map fun i => head.word (i + 1)

/-! ## log.c -/

/-- One block write of `log.c`. -/
inductive Io where
  | copy (dst src : Nat)
  | head (lh : List Nat)
  deriving DecidableEq

def Io.run (start : Nat) (m : Buffers) : Io → Buffers
  | .copy dst src => m.bwrite dst (m.buf src)
  | .head lh => m.bwrite start (putHead (m.buf start) lh)

/-- Run block writes in order. -/
def runIo (start : Nat) (m : Buffers) (writes : List Io) : Buffers :=
  writes.foldl (Io.run start) m

/-- Copy modified blocks from cache to log; an entry is a block number and its index `tail`. -/
def writeLog (start : Nat) (lh : List Nat) : List Io :=
  lh.zipIdx.map fun entry => .copy (start + entry.2 + 1) entry.1

/-- Copy committed blocks from log to their home location. -/
def installTrans (start : Nat) (lh : List Nat) : List Io :=
  lh.zipIdx.map fun entry => .copy entry.1 (start + entry.2 + 1)

/-- The block writes of `commit`, with the in-memory header `lh`. -/
def commitIo (start : Nat) (lh : List Nat) : List Io :=
  if lh.length > 0 then
    writeLog start lh ++ .head lh :: (installTrans start lh ++ [.head []])
  else []

/-- The block writes of `recover_from_log`, which reads the header first. -/
def recoverIo (start : Nat) (disk : Disk) : List Io :=
  installTrans start (readHead (disk start)) ++ [.head []]

/-- A recovery that is not interrupted. -/
def recoverFromLog (start : Nat) (disk : Disk) : Buffers :=
  runIo start (.reboot disk) (recoverIo start disk)

/-- The disks that recoveries can leave which are all interrupted between two writes. -/
inductive Interrupted (start : Nat) (disk : Disk) : Disk → Prop where
  | none : Interrupted start disk disk
  | crash {later : Disk} {done : List Io} (earlier : Interrupted start disk later)
      (cut : done <+: recoverIo start later) :
      Interrupted start disk (runIo start (.reboot later) done).disk

/-! ## The header as a list of block numbers -/

theorem putBlocks_word (head : Block) (lh : List Nat) {tail i : Nat} (inside : i < nindirect)
    (before : i ≤ tail) : (putBlocks tail head lh).word i = head.word i := by
  induction lh generalizing head tail with
  | nil => rfl
  | cons b lh ih =>
      rw [putBlocks, ih _ (Nat.le_succ_of_le before)]
      exact head.word_setWord_other b inside (by omega)

theorem putBlocks_get (head : Block) (tail : Nat) {lh : List Nat} {i : Nat}
    (fits : tail + lh.length < nindirect) (words : ∀ b ∈ lh, b < 2 ^ 32)
    (listed : i < lh.length) : (putBlocks tail head lh).word (tail + i + 1) = lh[i] := by
  induction lh generalizing head tail i with
  | nil => cases listed
  | cons b lh ih =>
      rw [List.length_cons] at fits listed
      rw [putBlocks]
      cases i with
      | zero =>
          rw [putBlocks_word _ _ (by omega) (by omega)]
          exact head.word_setWord_self (by omega) (words b List.mem_cons_self)
      | succ i =>
          have next := ih (head.setWord (tail + 1) b) (tail + 1) (by omega)
            (fun b member => words b (List.mem_cons_of_mem _ member)) (by omega : i < lh.length)
          rw [List.getElem_cons_succ, ← next]
          congr 1
          omega

theorem putHead_count (head : Block) {lh : List Nat} (fits : lh.length < nindirect) :
    (putHead head lh).word 0 = lh.length := by
  unfold putHead
  rw [putBlocks_word _ _ (by decide) (Nat.le_refl _)]
  exact head.word_setWord_self (by decide) (Nat.lt_trans fits (by decide))

/-- A written header is read back. -/
theorem readHead_putHead (head : Block) {lh : List Nat} (fits : lh.length < nindirect)
    (words : ∀ b ∈ lh, b < 2 ^ 32) : readHead (putHead head lh) = lh := by
  have count : (int (lh.length : Nat)).toNat = lh.length := by
    unfold int
    rw [Int.bmod_eq_of_le]
    · exact Int.toNat_natCast _
    · omega
    · simp only [nindirect] at fits
      omega
  unfold readHead
  rw [putHead_count head fits, count]
  refine List.ext_getElem (by simp) fun i left right => ?_
  rw [List.getElem_map, List.getElem_range]
  have entry := putBlocks_get (head.setWord 0 lh.length) 0 (by omega) words right
  rw [Nat.zero_add] at entry
  exact entry

theorem readHead_of_count {head : Block} (none : head.word 0 = 0) : readHead head = [] := by
  unfold readHead
  rw [none]
  rfl

/-! ## Copies -/

/-- The writes of some copies, when no copy reads what another one has written. -/
theorem runIo_copies (start : Nat) (m : Buffers) {entries : List (Nat × Nat)}
    (dst src : Nat × Nat → Nat) (apart : ∀ x ∈ entries, ∀ y ∈ entries, src x ≠ dst y) :
    runIo start m (entries.map fun entry => .copy (dst entry) (src entry)) =
      ⟨applyWrites (entries.map fun entry => (dst entry, m.buf (src entry))) m.disk,
        applyWrites (entries.map fun entry => (dst entry, m.buf (src entry))) m.buf⟩ := by
  induction entries generalizing m with
  | nil => rfl
  | cons entry entries ih =>
      have rest := ih (m.bwrite (dst entry) (m.buf (src entry))) fun x left y right =>
        apart x (List.mem_cons_of_mem _ left) y (List.mem_cons_of_mem _ right)
      have same : (entries.map fun later =>
            (dst later, (m.bwrite (dst entry) (m.buf (src entry))).buf (src later))) =
          entries.map fun later => (dst later, m.buf (src later)) := by
        refine List.map_congr_left fun later member => ?_
        have other := apart later (List.mem_cons_of_mem _ member) entry List.mem_cons_self
        exact congrArg (Prod.mk (dst later)) (Function.update_of_ne other _ _)
      rw [same] at rest
      exact rest

theorem runIo_append (start : Nat) (m : Buffers) (first second : List Io) :
    runIo start m (first ++ second) = runIo start (runIo start m first) second :=
  List.foldl_append

/-! ## Transactions -/

/-- The blocks of the log region. -/
def InLog (start size b : Nat) : Prop := start ≤ b ∧ b < start + size

/--
A transaction about to be committed: the on-disk header is empty, the logged
blocks are distinct home blocks and fit into the log, and every other buffer
agrees with the disk.
-/
structure Transaction (start size : Nat) (m : Buffers) (lh : List Nat) : Prop where
  empty : (m.disk start).word 0 = 0
  nodup : lh.Nodup
  fits : lh.length + 1 ≤ size
  entries : lh.length ≤ logsize
  words : ∀ b ∈ lh, b < 2 ^ 32
  outside : ∀ b ∈ lh, ¬ InLog start size b
  clean : ∀ b, b ∉ lh → m.buf b = m.disk b

/-- What the disk holds at home once the transaction has been done. -/
def Buffers.done (m : Buffers) (lh : List Nat) : Disk :=
  fun b => if b ∈ lh then m.buf b else m.disk b

/-- The header is empty, and outside the log the disk holds `home`. -/
structure Cleared (start size : Nat) (home disk : Disk) : Prop where
  empty : (disk start).word 0 = 0
  home : ∀ b, ¬ InLog start size b → disk b = home b

/-- The header names `lh`, the log holds its contents, and the other blocks are at home. -/
structure Committed (start size : Nat) (lh : List Nat) (home disk : Disk) : Prop where
  head : readHead (disk start) = lh
  logged : ∀ i b, lh[i]? = some b → disk (start + i + 1) = home b
  home : ∀ b, b ∉ lh → ¬ InLog start size b → disk b = home b

section Commit

variable {start size : Nat} {lh : List Nat} {home disk : Disk} {m : Buffers}

theorem head_self (start : Nat) (m : Buffers) (lh : List Nat) :
    ((Io.head lh).run start m).disk start = putHead (m.buf start) lh :=
  Function.update_self _ _ _

theorem head_other (m : Buffers) (lh : List Nat) {b : Nat} (apart : b ≠ start) :
    ((Io.head lh).run start m).disk b = m.disk b ∧ ((Io.head lh).run start m).buf b = m.buf b :=
  ⟨Function.update_of_ne apart _ _, Function.update_of_ne apart _ _⟩

/-- The home blocks of a transaction are not in the log, and the log blocks are. -/
theorem log_apart (fits : lh.length + 1 ≤ size) (outside : ∀ b ∈ lh, ¬ InLog start size b)
    {first second : Nat × Nat} (left : first ∈ lh.zipIdx) (right : second ∈ lh.zipIdx) :
    first.1 ≠ start + second.2 + 1 := by
  intro same
  refine outside first.1 (List.fst_mem_of_mem_zipIdx left) ?_
  have bound := List.snd_lt_of_mem_zipIdx right
  unfold InLog
  omega

/-- What copies into the log have written. -/
theorem runIo_writeLog {part : List (Nat × Nat)} (m : Buffers) (fits : lh.length + 1 ≤ size)
    (outside : ∀ b ∈ lh, ¬ InLog start size b) (inside : part ⊆ lh.zipIdx) :
    runIo start m (part.map fun entry => .copy (start + entry.2 + 1) entry.1) =
      ⟨applyWrites (part.map fun entry => (start + entry.2 + 1, m.buf entry.1)) m.disk,
        applyWrites (part.map fun entry => (start + entry.2 + 1, m.buf entry.1)) m.buf⟩ :=
  runIo_copies start m (fun entry => start + entry.2 + 1) Prod.fst fun _ left _ right =>
    log_apart fits outside (inside left) (inside right)

/-- What copies out of the log have written. -/
theorem runIo_installTrans {part : List (Nat × Nat)} (m : Buffers) (fits : lh.length + 1 ≤ size)
    (outside : ∀ b ∈ lh, ¬ InLog start size b) (inside : part ⊆ lh.zipIdx) :
    runIo start m (part.map fun entry => .copy entry.1 (start + entry.2 + 1)) =
      ⟨applyWrites (part.map fun entry => (entry.1, m.buf (start + entry.2 + 1))) m.disk,
        applyWrites (part.map fun entry => (entry.1, m.buf (start + entry.2 + 1))) m.buf⟩ :=
  runIo_copies start m Prod.fst (fun entry => start + entry.2 + 1) fun _ left _ right =>
    (log_apart fits outside (inside right) (inside left)).symm

/-- Copies into the log leave the header and everything outside the log alone. -/
theorem writeLog_other {part : List (Nat × Nat)} {b : Nat} (store : Disk) (data : Nat × Nat → Block)
    (inside : part ⊆ lh.zipIdx) (other : ∀ i, i < lh.length → start + i + 1 ≠ b) :
    applyWrites (part.map fun entry => (start + entry.2 + 1, data entry)) store b = store b := by
  refine applyWrites_other _ fun write member => ?_
  obtain ⟨entry, listed, rfl⟩ := List.mem_map.mp member
  exact other _ (List.snd_lt_of_mem_zipIdx (inside listed))

/-- While the log is being written nothing changes outside it, and the header stays empty. -/
theorem Transaction.writing {done : List Io} (trans : Transaction start size m lh)
    (cut : done <+: writeLog start lh) :
    Cleared start size m.disk (runIo start m done).disk := by
  obtain ⟨part, short, rfl⟩ := List.prefix_map_iff.mp cut
  have inside := short.subset
  have fits := trans.fits
  rw [runIo_writeLog m fits trans.outside inside]
  dsimp only
  refine ⟨?_, fun b outer => ?_⟩
  · rw [writeLog_other m.disk (fun entry => m.buf entry.1) inside
      fun i _ => (by omega : start + i + 1 ≠ start)]
    exact trans.empty
  · refine writeLog_other m.disk (fun entry => m.buf entry.1) inside fun i small same => outer ?_
    unfold InLog
    omega

/-- After `write_log` every logged block is in the log, on disk and in its buffer. -/
theorem writeLog_logged (lh : List Nat) (store data : Disk) {i b : Nat} (listed : lh[i]? = some b) :
    applyWrites (lh.zipIdx.map fun entry => (start + entry.2 + 1, data entry.1)) store
      (start + i + 1) = data b := by
  refine applyWrites_mem store ?_ (List.mem_map.mpr
    ⟨(b, i), List.mk_mem_zipIdx_iff_getElem?.mpr listed, rfl⟩)
  have indices : (lh.zipIdx.map Prod.snd).Nodup := by
    rw [List.zipIdx_map_snd]
    exact List.nodup_range'
  have addresses := indices.map (f := fun tail => start + tail + 1) fun x y same => by
    simpa using same
  rw [List.map_map] at addresses ⊢
  exact addresses

/-- The header write turns a written log into a committed transaction. -/
theorem Transaction.commits (trans : Transaction start size m lh) :
    Committed start size lh (m.done lh)
        ((Io.head lh).run start (runIo start m (writeLog start lh))).disk ∧
      ∀ i b, lh[i]? = some b →
        ((Io.head lh).run start (runIo start m (writeLog start lh))).buf (start + i + 1) =
          m.done lh b := by
  have fits := trans.fits
  have short : lh.length < nindirect := Nat.lt_of_le_of_lt trans.entries (by decide)
  have written : runIo start m (writeLog start lh) = _ :=
    runIo_writeLog m fits trans.outside (List.Subset.refl lh.zipIdx)
  have value : ∀ i b, lh[i]? = some b → m.done lh b = m.buf b :=
    fun i b listed => if_pos (List.mem_of_getElem? listed)
  rw [written]
  refine ⟨⟨?_, fun i b listed => ?_, fun b other outer => ?_⟩, fun i b listed => ?_⟩
  · rw [head_self]
    exact readHead_putHead _ short trans.words
  · rw [(head_other _ _ (by omega)).1, value i b listed]
    exact writeLog_logged lh m.disk m.buf listed
  · have away : b ≠ start := by
      rintro rfl
      exact outer ⟨Nat.le_refl _, by omega⟩
    rw [(head_other _ _ away).1, Buffers.done, if_neg other]
    refine writeLog_other m.disk (fun entry => m.buf entry.1) (List.Subset.refl _)
      fun i small same => outer ?_
    unfold InLog
    omega
  · rw [(head_other _ _ (by omega)).2, value i b listed]
    exact writeLog_logged lh m.buf m.buf listed

/-- Installing keeps a transaction committed, and all of it brings every block home. -/
theorem Committed.installing {part : List (Nat × Nat)}
    (committed : Committed start size lh home m.disk) (nodup : lh.Nodup)
    (fits : lh.length + 1 ≤ size) (outside : ∀ b ∈ lh, ¬ InLog start size b)
    (buffered : ∀ i b, lh[i]? = some b → m.buf (start + i + 1) = home b)
    (short : part <+: lh.zipIdx) :
    Committed start size lh home
      (runIo start m (part.map fun entry => .copy entry.1 (start + entry.2 + 1))).disk ∧
    (part = lh.zipIdx → ∀ b, ¬ InLog start size b →
      (runIo start m (part.map fun entry => .copy entry.1 (start + entry.2 + 1))).disk b =
        home b) := by
  have inside := short.subset
  rw [runIo_installTrans m fits outside inside]
  dsimp only
  -- only home blocks of the transaction are written
  have kept : ∀ b, b ∉ lh → applyWrites (part.map fun entry =>
      (entry.1, m.buf (start + entry.2 + 1))) m.disk b = m.disk b := by
    intro b other
    refine applyWrites_other _ fun write member same => other ?_
    obtain ⟨entry, listed, rfl⟩ := List.mem_map.mp member
    rw [← same]
    exact List.fst_mem_of_mem_zipIdx (inside listed)
  have log : ∀ b, InLog start size b → b ∉ lh := fun b inLog listed => outside b listed inLog
  refine ⟨⟨?_, fun i b listed => ?_, fun b other outer => ?_⟩, fun whole b outer => ?_⟩
  · rw [kept start (log start ⟨Nat.le_refl _, by omega⟩)]
    exact committed.head
  · have small : i < lh.length := (List.getElem?_eq_some_iff.mp listed).1
    rw [kept _ (log _ ⟨by omega, by omega⟩)]
    exact committed.logged i b listed
  · rw [kept b other]
    exact committed.home b other outer
  · by_cases listed : b ∈ lh
    · obtain ⟨i, small, rfl⟩ := List.getElem_of_mem listed
      have entry : lh[i]? = some lh[i] := List.getElem?_eq_getElem small
      rw [← buffered i _ entry]
      refine applyWrites_mem _ ?_ (List.mem_map.mpr ⟨(lh[i], i), ?_, rfl⟩)
      · rw [whole, List.map_map]
        have blocks := nodup
        rw [← List.zipIdx_map_fst 0 lh] at blocks
        exact blocks
      · rw [whole]
        exact List.mk_mem_zipIdx_iff_getElem?.mpr entry
    · rw [kept b listed]
      exact committed.home b listed outer

/-- The last write clears the header. -/
theorem cleared_head (brought : ∀ b, ¬ InLog start size b → m.disk b = home b)
    (nonempty : 0 < size) : Cleared start size home ((Io.head []).run start m).disk := by
  refine ⟨?_, fun b outer => ?_⟩
  · rw [head_self]
    exact putHead_count _ (by decide)
  · have away : b ≠ start := by
      rintro rfl
      exact outer ⟨Nat.le_refl _, by omega⟩
    rw [(head_other m [] away).1]
    exact brought b outer

/-! ## Crashes -/

/-- A recovery from an empty header, interrupted or not, changes no block outside the log. -/
theorem Cleared.recovering {done : List Io} (cleared : Cleared start size home disk)
    (nonempty : 0 < size) (cut : done <+: recoverIo start disk) :
    Cleared start size home (runIo start (.reboot disk) done).disk := by
  have only : recoverIo start disk = [.head []] := by
    unfold recoverIo
    rw [readHead_of_count cleared.empty]
    rfl
  rw [only] at cut
  rcases List.prefix_cons_iff.mp cut with rfl | ⟨rest, rfl, last⟩
  · exact cleared
  · rw [List.prefix_nil.mp last]
    exact cleared_head cleared.home nonempty

/-- A recovery that is not interrupted installs a committed transaction. -/
theorem Committed.recovering {done : List Io} (committed : Committed start size lh home disk)
    (nodup : lh.Nodup) (fits : lh.length + 1 ≤ size) (outside : ∀ b ∈ lh, ¬ InLog start size b)
    (cut : done <+: recoverIo start disk) :
    Committed start size lh home (runIo start (.reboot disk) done).disk ∨
      Cleared start size home (runIo start (.reboot disk) done).disk := by
  unfold recoverIo at cut
  rw [committed.head] at cut
  have install := fun {part} (short : part <+: lh.zipIdx) =>
    Committed.installing (m := .reboot disk) committed nodup fits outside committed.logged short
  rcases prefix_append_cases cut with early | ⟨rest, rfl, late⟩
  · obtain ⟨part, short, rfl⟩ := List.prefix_map_iff.mp early
    exact .inl (install short).1
  · have whole := install (List.prefix_refl lh.zipIdx)
    rcases List.prefix_cons_iff.mp late with rfl | ⟨last, rfl, stop⟩
    · rw [List.append_nil]
      exact .inl whole.1
    · rw [List.prefix_nil.mp stop, runIo_append]
      exact .inr (cleared_head (whole.2 rfl) (by omega))

/-- A recovery that is not interrupted brings a committed transaction home. -/
theorem Committed.recovered (committed : Committed start size lh home disk) (nodup : lh.Nodup)
    (fits : lh.length + 1 ≤ size) (outside : ∀ b ∈ lh, ¬ InLog start size b) :
    Cleared start size home (recoverFromLog start disk).disk := by
  have brought := (Committed.installing (m := .reboot disk) committed nodup fits outside
    committed.logged (List.prefix_refl lh.zipIdx)).2 rfl
  unfold recoverFromLog recoverIo
  rw [committed.head, runIo_append]
  exact cleared_head brought (by omega)

/-- What a crash can leave of a transaction: nothing of it, all of it in the log, or all of it. -/
def CrashState (start size : Nat) (lh : List Nat) (before after disk : Disk) : Prop :=
  Cleared start size before disk ∨ Committed start size lh after disk ∨
    Cleared start size after disk

/-- A crash at any block write of `commit`. -/
theorem Transaction.crash {done : List Io} (trans : Transaction start size m lh)
    (cut : done <+: commitIo start lh) :
    CrashState start size lh m.disk (m.done lh) (runIo start m done).disk := by
  have fits := trans.fits
  unfold commitIo at cut
  split at cut
  · rcases prefix_append_cases cut with early | ⟨rest, rfl, late⟩
    · exact .inl (trans.writing early)
    · rcases List.prefix_cons_iff.mp late with rfl | ⟨install, rfl, behind⟩
      · rw [List.append_nil]
        exact .inl (trans.writing (List.prefix_refl _))
      · obtain ⟨committed, buffered⟩ := trans.commits
        have installing := fun {part} (short : part <+: lh.zipIdx) =>
          committed.installing trans.nodup fits trans.outside buffered short
        rw [runIo_append]
        change CrashState _ _ _ _ _ (runIo start
          ((Io.head lh).run start (runIo start m (writeLog start lh))) install).disk
        rcases prefix_append_cases behind with early | ⟨rest, rfl, last⟩
        · obtain ⟨part, short, rfl⟩ := List.prefix_map_iff.mp early
          exact .inr (.inl (installing short).1)
        · have whole := installing (List.prefix_refl lh.zipIdx)
          rcases List.prefix_cons_iff.mp last with rfl | ⟨none, rfl, stop⟩
          · rw [List.append_nil]
            exact .inr (.inl whole.1)
          · rw [List.prefix_nil.mp stop, runIo_append]
            exact .inr (.inr (cleared_head (whole.2 rfl) (by omega)))
  · rw [List.prefix_nil.mp cut]
    exact .inl ⟨trans.empty, fun _ _ => rfl⟩

/-- A recovery, interrupted or not, leaves such a state again. -/
theorem CrashState.recovering {before after : Disk} {done : List Io}
    (state : CrashState start size lh before after disk) (nodup : lh.Nodup)
    (fits : lh.length + 1 ≤ size) (outside : ∀ b ∈ lh, ¬ InLog start size b)
    (cut : done <+: recoverIo start disk) :
    CrashState start size lh before after (runIo start (.reboot disk) done).disk := by
  rcases state with cleared | committed | cleared
  · exact .inl (cleared.recovering (by omega) cut)
  · exact .inr (committed.recovering nodup fits outside cut)
  · exact .inr (.inr (cleared.recovering (by omega) cut))

/-- A recovery that is not interrupted decides which of the two it is. -/
theorem CrashState.recovered {before after : Disk}
    (state : CrashState start size lh before after disk) (nodup : lh.Nodup)
    (fits : lh.length + 1 ≤ size) (outside : ∀ b ∈ lh, ¬ InLog start size b) :
    Cleared start size before (recoverFromLog start disk).disk ∨
      Cleared start size after (recoverFromLog start disk).disk := by
  rcases state with cleared | committed | cleared
  · exact .inl (cleared.recovering (by omega) (List.prefix_refl (recoverIo start disk)))
  · exact .inr (committed.recovered nodup fits outside)
  · exact .inr (cleared.recovering (by omega) (List.prefix_refl (recoverIo start disk)))

/--
A transaction is atomic: wherever `commit` is interrupted, and however often
the recovery is, an uninterrupted recovery ends with an empty header and with
all blocks outside the log as before the transaction, or all as after it.
-/
theorem commit_crash_atomic {done : List Io} (trans : Transaction start size m lh)
    (cut : done <+: commitIo start lh)
    (restarts : Interrupted start (runIo start m done).disk disk) :
    ((recoverFromLog start disk).disk start).word 0 = 0 ∧
      ((∀ b, ¬ InLog start size b → (recoverFromLog start disk).disk b = m.disk b) ∨
        ∀ b, ¬ InLog start size b →
          (recoverFromLog start disk).disk b = if b ∈ lh then m.buf b else m.disk b) := by
  have state : CrashState start size lh m.disk (m.done lh) disk := by
    induction restarts with
    | none => exact trans.crash cut
    | crash _ interrupted ih =>
        exact ih.recovering trans.nodup trans.fits trans.outside interrupted
  rcases state.recovered trans.nodup trans.fits trans.outside with before | after
  · exact ⟨before.empty, .inl before.home⟩
  · exact ⟨after.empty, .inr after.home⟩

end Commit

/-- A blank disk with one modified block in the cache. -/
def sampleBuffers : Buffers :=
  ⟨fun _ => .zero, fun b => if b = 40 then fun _ => 1 else .zero⟩

theorem sample_transaction : Transaction 2 30 sampleBuffers [40] where
  empty := rfl
  nodup := List.nodup_singleton 40
  fits := by decide
  entries := by decide
  words := by decide
  outside := by
    intro b member
    rw [List.mem_singleton.mp member]
    unfold InLog
    decide
  clean := by
    intro b other
    exact if_neg fun same => other (List.mem_singleton.mpr same)

/-- A crash between the header write and the first install. -/
theorem commit_crash_after_header :
    [Io.copy 3 40, .head [40]] <+: commitIo 2 [40] ∧
      ((∀ b, ¬ InLog 2 30 b → (recoverFromLog 2 (runIo 2 sampleBuffers
          [.copy 3 40, .head [40]]).disk).disk b = sampleBuffers.disk b) ∨
        ∀ b, ¬ InLog 2 30 b → (recoverFromLog 2 (runIo 2 sampleBuffers
          [.copy 3 40, .head [40]]).disk).disk b =
            if b ∈ [40] then sampleBuffers.buf b else sampleBuffers.disk b) := by
  have cut : [Io.copy 3 40, .head [40]] <+: commitIo 2 [40] :=
    ⟨[.copy 40 3, .head []], rfl⟩
  exact ⟨cut, (commit_crash_atomic sample_transaction cut .none).2⟩

end SlabStudy.Xv6
