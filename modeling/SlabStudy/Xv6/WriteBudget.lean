import SlabStudy.Library.Traced
import SlabStudy.Xv6.SharedWrite

/-!
# The log blocks of a write

`writei` with the calls of `log_write` that it makes.  `filewrite` cuts what it
writes so that one call fits the `MAXOPBLOCKS` blocks that `begin_op` reserves:
of the blocks that a chunk touches, one that is only partly behind its start
is in the file already.
-/

namespace SlabStudy.Xv6

open Library

/-! ## fs.h -/

/-- `BBLOCK`: block of the free map containing the bit for block `b`. -/
def bblock (sb : Superblock) (b : Nat) : Nat := b / bpb + sb.bmapstart

/-- `IBLOCK`: block containing inode `i`, with eight inodes in each block. -/
def iblock (inodestart i : Nat) : Nat := i / (bsize / 64) + inodestart

/-! ## The functions of `fs.c`, with the blocks they call `log_write` on -/

/-- A computation of `fs.c`, with the numbers of the blocks logged. -/
abbrev Logging (α : Type) : Type := Traced FsPanic Nat α

def logWrite (b : Nat) : Logging Unit := .report b

/-- The block of the free map is logged, and `bzero` logs the block itself. -/
def ballocLogging (d : FsDisk) : Logging (Nat × FsDisk) := do
  let (b, d') ← Traced.quiet (balloc d)
  logWrite (bblock d.sb b)
  logWrite b
  pure (b, d')

namespace Locked

def ensureLogging (l : Locked) (i : Fin (ndirect + 1)) : Logging (Nat × Locked) :=
  if l.ip.addrs i = 0 then do
    let (addr, disk) ← ballocLogging l.disk
    pure (addr, { l with
      ip := { l.ip with addrs := Function.update l.ip.addrs i addr }
      disk := disk })
  else pure (l.ip.addrs i, l)

def ensureEntryLogging (l : Locked) (list k : Nat) : Logging (Nat × Locked) :=
  if (l.disk.block list).word k = 0 then do
    let (addr, disk) ← ballocLogging l.disk
    logWrite list
    pure (addr, { l with disk := { disk with
      block := Function.update disk.block list ((disk.block list).setWord k addr) } })
  else pure ((l.disk.block list).word k, l)

end Locked

def bmapLogging (l : Locked) (bn : Nat) : Logging (Nat × Locked) :=
  if bn < ndirect then l.ensureLogging (Fin.ofNat (ndirect + 1) bn)
  else if bn - ndirect < nindirect then do
    let (list, l) ← l.ensureLogging indirect
    l.ensureEntryLogging list (bn - ndirect)
  else .quiet (.error .outOfRange)

def writeLoopLogging (l : Locked) (off : Nat) (data : List UInt8) : Logging Locked :=
  if _done : data.length = 0 then pure l
  else do
    let (addr, l) ← bmapLogging l (off / bsize)
    let n := chunk off data.length
    let block := (l.disk.block addr).store (off % bsize) (data.take n)
    logWrite addr
    writeLoopLogging { l with disk := { l.disk with block := Function.update l.disk.block addr block } }
      (off + n) (data.drop n)
termination_by data.length
decreasing_by
  have moved := chunk_pos off _done
  rw [List.length_drop]
  omega

/-- `writei`; the drivers of `devsw` log nothing, and `iupdate` logs the block of the inode. -/
def writeiLogging (devsw : Devsw) (inodestart : Nat) (l : Locked) (off : Nat) (data : List UInt8) :
    Logging (Int × Locked) :=
  if l.ip.type = .dev then
    match l.ip.device devsw.write with
    | none => pure (-1, l)
    | some write => pure (write data, l)
  else if off > l.ip.size ∨ (off + data.length) % 2 ^ 32 < off then pure (-1, l)
  else if (off + data.length) % 2 ^ 32 > maxfile * bsize then pure (-1, l)
  else do
    let l ← writeLoopLogging l off data
    if data.length > 0 ∧ off + data.length > l.ip.size then
      let ip := { l.ip with size := off + data.length }
      logWrite (iblock inodestart l.inum)
      pure (data.length, { l with ip := ip, disk := iupdate l.disk l.inum ip })
    else pure (data.length, l)

/-! ## What they return -/

theorem ballocLogging_result (d : FsDisk) : (ballocLogging d).result = balloc d := by
  unfold ballocLogging
  rw [Traced.bind_result, Traced.quiet_result]
  cases balloc d <;> rfl

namespace Locked

theorem ensureLogging_result (l : Locked) (i : Fin (ndirect + 1)) :
    (l.ensureLogging i).result = l.ensure i := by
  unfold ensureLogging ensure
  split
  · rw [Traced.bind_result, ballocLogging_result]
    rfl
  · rfl

theorem ensureEntryLogging_result (l : Locked) (list k : Nat) :
    (l.ensureEntryLogging list k).result = l.ensureEntry list k := by
  unfold ensureEntryLogging ensureEntry
  split
  · rw [Traced.bind_result, ballocLogging_result]
    cases balloc l.disk <;> rfl
  · rfl

end Locked

theorem bmapLogging_result (l : Locked) (bn : Nat) : (bmapLogging l bn).result = bmap l bn := by
  unfold bmapLogging bmap
  split
  · exact l.ensureLogging_result _
  · split
    · rw [Traced.bind_result, Locked.ensureLogging_result]
      exact congrArg _ (funext fun r => r.2.ensureEntryLogging_result _ _)
    · rfl

theorem writeLoopLogging_result (l : Locked) (off : Nat) (data : List UInt8) :
    (writeLoopLogging l off data).result = writeLoop l off data := by
  induction data using (measure List.length).wf.induction generalizing l off with
  | _ data ih =>
      rw [writeLoopLogging, writeLoop]
      split
      · rfl
      · next some =>
        have moved := chunk_pos off some
        rw [Traced.bind_result, bmapLogging_result]
        cases bmap l (off / bsize) with
        | error e => rfl
        | ok r =>
            change (_ >>= fun _ => _ : Logging Locked).result = _
            rw [Traced.bind_result]
            refine ih _ ?_ _ _
            change (List.drop _ _).length < data.length
            rw [List.length_drop]
            omega

/-- What `writei` returns. -/
theorem writeiLogging_result (devsw : Devsw) (inodestart : Nat) (l : Locked) (off : Nat)
    (data : List UInt8) :
    (writeiLogging devsw inodestart l off data).result = writei devsw l off data := by
  unfold writeiLogging writei
  split
  · cases l.ip.device devsw.write <;> rfl
  · split
    · rfl
    · split
      · rfl
      · rw [Traced.bind_result, writeLoopLogging_result]
        refine congrArg _ (funext fun l => ?_)
        split <;> rfl

/-! ## What they log -/

namespace Locked

variable {l : Locked} {log more : List Nat} {data bits : Nat}

/-- The indirect block, if the inode has one. -/
def listed (l : Locked) : Finset Nat := if l.ip.addrs indirect = 0 then ∅ else {l.ip.addrs indirect}

theorem listed_card (l : Locked) : l.listed.card ≤ 1 := by
  unfold listed
  split
  · exact Nat.zero_le 1
  · exact Nat.le_refl 1

/--
Up to `data` data blocks are logged, the blocks of the free map for `bits` of
them and for the indirect block if the inode has none, and the indirect block.
-/
def Logs (l : Locked) (log : List Nat) (data bits : Nat) : Prop :=
  ∃ blocks maps lists : Finset Nat, log.toFinset ⊆ blocks ∪ maps ∪ lists ∧ blocks.card ≤ data ∧
    maps.card + l.listed.card ≤ bits + 1 ∧ lists.card ≤ 1 ∧ l.listed ⊆ lists

theorem Logs.nil (l : Locked) (data bits : Nat) : l.Logs [] data bits := by
  refine ⟨∅, ∅, l.listed, Finset.empty_subset _, Nat.zero_le _, ?_, l.listed_card,
    Finset.Subset.refl _⟩
  rw [Finset.card_empty, Nat.zero_add]
  exact Nat.le_trans l.listed_card (Nat.le_add_left 1 bits)

theorem Logs.card (logs : l.Logs log data bits) : log.toFinset.card ≤ data + bits + 2 := by
  obtain ⟨blocks, maps, lists, inside, few, bitmap, one, _⟩ := logs
  have total := Finset.card_le_card inside
  have outer := Finset.card_union_le (blocks ∪ maps) lists
  have inner := Finset.card_union_le blocks maps
  omega

/-- What `bmap` did: it returned block `addr`, after logging `log`. -/
structure Found (l : Locked) (log : List Nat) (addr : Nat) (l' : Locked) : Prop where
  boot : l'.disk.bit 0 = true
  logs : ∃ maps : Finset Nat, log.toFinset ⊆ insert addr (maps ∪ l'.listed) ∧
    maps.card + l.listed.card ≤ l'.listed.card + 1
  listed : l.listed ⊆ l'.listed

end Locked

/-- What `balloc` logs when block 0, the boot block, is not free. -/
theorem ballocLogging_logs {d : FsDisk} (boot : d.bit 0 = true) :
    (∃ b d', (ballocLogging d).result = .ok (b, d') ∧ b ≠ 0 ∧ d'.bit 0 = true ∧
      (ballocLogging d).trace = [bblock d.sb b, b]) ∨
    ∃ e, (ballocLogging d).result = .error e ∧ (ballocLogging d).trace = [] := by
  rw [ballocLogging_result]
  rcases Locked.balloc_spec d with ⟨b, inside, free, took⟩ | ⟨_, stopped⟩
  · refine .inl ⟨b, _, took, ?_, ?_, ?_⟩
    · rintro rfl
      rw [boot] at free
      cases free
    · change Function.update d.bit b true 0 = true
      by_cases here : 0 = b
      · rw [here, Function.update_self]
      · rw [Function.update_of_ne here]
        exact boot
    · unfold ballocLogging
      rw [Traced.bind_ok took]
      rfl
  · refine .inr ⟨_, stopped, ?_⟩
    unfold ballocLogging
    rw [Traced.bind_error stopped]
    rfl

namespace Locked

/-- `ensure` returns what is listed, or allocates. -/
theorem ensureLogging_logs {l : Locked} (boot : l.disk.bit 0 = true) (i : Fin (ndirect + 1)) :
    (l.ip.addrs i ≠ 0 ∧ l.ensureLogging i = pure (l.ip.addrs i, l)) ∨
    (l.ip.addrs i = 0 ∧ ∃ b l', (l.ensureLogging i).result = .ok (b, l') ∧ b ≠ 0 ∧
      l'.disk.bit 0 = true ∧ l'.ip.addrs = Function.update l.ip.addrs i b ∧
      (l.ensureLogging i).trace = [bblock l.disk.sb b, b]) ∨
    ∃ e, (l.ensureLogging i).result = .error e ∧ (l.ensureLogging i).trace = [] := by
  by_cases none : l.ip.addrs i = 0
  · refine .inr ?_
    unfold ensureLogging
    rw [if_pos none]
    rcases ballocLogging_logs boot with ⟨b, d', took, nonzero, still, trace⟩ | ⟨e, stopped, trace⟩
    · refine .inl ⟨none, b, ⟨l.inum, { l.ip with addrs := Function.update l.ip.addrs i b }, d'⟩,
        ?_, nonzero, still, rfl, ?_⟩
      · rw [Traced.bind_result, took]
        rfl
      · rw [Traced.bind_ok took, trace]
        rfl
    · refine .inr ⟨e, ?_, ?_⟩
      · rw [Traced.bind_result, stopped]
        rfl
      · rw [Traced.bind_error stopped, trace]
  · refine .inl ⟨none, ?_⟩
    unfold ensureLogging
    rw [if_neg none]

/-- `ensureEntry` in an indirect block, whatever is written there. -/
theorem ensureEntryLogging_logs {l : Locked} (boot : l.disk.bit 0 = true) (list k : Nat) :
    (∃ addr l' maps, (l.ensureEntryLogging list k).result = .ok (addr, l') ∧
      l'.disk.bit 0 = true ∧ l'.ip = l.ip ∧ maps.card ≤ 1 ∧
      (l.ensureEntryLogging list k).trace.toFinset ⊆ insert addr (maps ∪ {list})) ∨
    ∃ e, (l.ensureEntryLogging list k).result = .error e ∧
      (l.ensureEntryLogging list k).trace = [] := by
  unfold ensureEntryLogging
  by_cases none : (l.disk.block list).word k = 0
  · rw [if_pos none]
    rcases ballocLogging_logs boot with ⟨b, d', took, _, still, trace⟩ | ⟨e, stopped, trace⟩
    · let disk := { d' with
        block := Function.update d'.block list ((d'.block list).setWord k b) }
      refine .inl ⟨b, ⟨l.inum, l.ip, disk⟩, {bblock l.disk.sb b}, ?_, still, rfl, Nat.le_refl 1, ?_⟩
      · rw [Traced.bind_result, took]
        rfl
      · rw [Traced.bind_ok took, trace]
        change [bblock l.disk.sb b, b, list].toFinset ⊆ _
        intro c member
        simp only [List.mem_toFinset, List.mem_cons, List.not_mem_nil, or_false] at member
        simp only [Finset.mem_insert, Finset.mem_union, Finset.mem_singleton]
        rcases member with bit | block | entry
        · exact .inr (.inl bit)
        · exact .inl block
        · exact .inr (.inr entry)
    · refine .inr ⟨e, ?_, ?_⟩
      · rw [Traced.bind_result, stopped]
        rfl
      · rw [Traced.bind_error stopped, trace]
  · rw [if_neg none]
    exact .inl ⟨_, l, ∅, rfl, boot, rfl, Nat.zero_le 1, Finset.empty_subset _⟩

/-- The second half of `bmap`, when there is an indirect block. -/
theorem ensureEntryLogging_found {l : Locked} (boot : l.disk.bit 0 = true)
    (some : l.ip.addrs indirect ≠ 0) (k : Nat) :
    (∃ addr l', (l.ensureEntryLogging (l.ip.addrs indirect) k).result = .ok (addr, l') ∧
      Found l (l.ensureEntryLogging (l.ip.addrs indirect) k).trace addr l') ∨
    ∃ e, (l.ensureEntryLogging (l.ip.addrs indirect) k).result = .error e ∧
      (l.ensureEntryLogging (l.ip.addrs indirect) k).trace = [] := by
  rcases ensureEntryLogging_logs boot (l.ip.addrs indirect) k with
    ⟨addr, l', maps, returned, still, same, few, inside⟩ | ⟨e, stopped, trace⟩
  · have list : l'.listed = {l.ip.addrs indirect} := by
      unfold listed
      rw [same, if_neg some]
    have before : l.listed = {l.ip.addrs indirect} := if_neg some
    refine .inl ⟨addr, l', returned, still, ⟨maps, ?_, ?_⟩, ?_⟩
    · rw [list]
      exact inside
    · rw [before, list]
      exact Nat.add_le_add_right few 1 |>.trans (Nat.le_of_eq (Nat.add_comm ..))
    · rw [before, list]
  · exact .inr ⟨e, stopped, trace⟩

/-- The indirect block was allocated before. -/
theorem Found.behind {l m l' : Locked} {b map addr : Nat} {log : List Nat}
    (found : Found m log addr l') (none : l.ip.addrs indirect = 0)
    (list : m.listed = {b}) : Found l ([map, b] ++ log) addr l' := by
  have unlisted : l.listed = ∅ := if_pos none
  obtain ⟨maps, inside, few⟩ := found.logs
  have still : b ∈ l'.listed := found.listed (by rw [list]; exact Finset.mem_singleton_self b)
  refine ⟨found.boot, ⟨insert map maps, ?_, ?_⟩, ?_⟩
  · intro c member
    rw [List.mem_toFinset, List.mem_append] at member
    simp only [Finset.mem_insert, Finset.mem_union]
    rcases member with first | later
    · simp only [List.mem_cons, List.not_mem_nil, or_false] at first
      rcases first with rfl | rfl
      · exact .inr (.inl (.inl rfl))
      · exact .inr (.inr still)
    · have place := inside (List.mem_toFinset.mpr later)
      simp only [Finset.mem_insert, Finset.mem_union] at place
      exact place.imp_right (.imp_left .inr)
  · have more := Finset.card_insert_le map maps
    rw [list, Finset.card_singleton] at few
    rw [unlisted, Finset.card_empty]
    omega
  · rw [unlisted]
    exact Finset.empty_subset _

/-- Only the indirect block was allocated. -/
theorem Logs.list {l : Locked} (none : l.ip.addrs indirect = 0) (map b : Nat) :
    l.Logs [map, b] 1 1 := by
  have unlisted : l.listed = ∅ := if_pos none
  refine ⟨∅, {map}, {b}, ?_, Nat.zero_le 1, ?_, Nat.le_refl 1, ?_⟩
  · intro c member
    simp only [List.mem_toFinset, List.mem_cons, List.not_mem_nil, or_false] at member
    simp only [Finset.empty_union, Finset.mem_union, Finset.mem_singleton]
    exact member
  · rw [unlisted]
    exact Nat.le_succ 1
  · rw [unlisted]
    exact Finset.empty_subset _

/-- `bmap` finds a block, or stops after it has allocated an indirect block at most. -/
theorem bmapLogging_logs {l : Locked} (boot : l.disk.bit 0 = true) (bn : Nat) :
    (∃ addr l', (bmapLogging l bn).result = .ok (addr, l') ∧
      Found l (bmapLogging l bn).trace addr l') ∨
    ∃ e, (bmapLogging l bn).result = .error e ∧ l.Logs (bmapLogging l bn).trace 1 1 := by
  unfold bmapLogging
  by_cases small : bn < ndirect
  · rw [if_pos small]
    have apart : indirect ≠ Fin.ofNat (ndirect + 1) bn := by
      intro same
      have value : ndirect = bn % (ndirect + 1) := congrArg Fin.val same
      rw [Nat.mod_eq_of_lt (Nat.lt_succ_of_lt small)] at value
      omega
    rcases ensureLogging_logs boot (Fin.ofNat (ndirect + 1) bn) with
      ⟨_, found⟩ | ⟨_, b, l', took, _, still, addrs, trace⟩ | ⟨e, stopped, trace⟩
    · rw [found]
      refine .inl ⟨_, l, rfl, boot, ⟨∅, Finset.empty_subset _, ?_⟩, Finset.Subset.refl _⟩
      rw [Finset.card_empty]
      omega
    · have list : l'.listed = l.listed := by
        unfold listed
        rw [addrs, Function.update_of_ne apart]
      refine .inl ⟨b, l', took, still, ⟨{bblock l.disk.sb b}, ?_, ?_⟩, list.symm.subset⟩
      · rw [trace]
        intro c member
        simp only [List.mem_toFinset, List.mem_cons, List.not_mem_nil, or_false] at member
        simp only [Finset.mem_insert, Finset.mem_union, Finset.mem_singleton]
        exact member.symm.imp_right .inl
      · rw [Finset.card_singleton, list]
        omega
    · exact .inr ⟨e, stopped, by rw [trace]; exact .nil l 1 1⟩
  · rw [if_neg small]
    split
    · rcases ensureLogging_logs boot indirect with
        ⟨some, found⟩ | ⟨none, b, m, took, nonzero, still, addrs, trace⟩ | ⟨e, stopped, trace⟩
      · rw [found, Traced.pure_bind]
        refine (ensureEntryLogging_found boot some (bn - ndirect)).imp_right ?_
        rintro ⟨e, stopped, trace⟩
        exact ⟨e, stopped, by rw [trace]; exact .nil l 1 1⟩
      · have here : m.ip.addrs indirect = b := by rw [addrs, Function.update_self]
        have list : m.listed = {b} := by
          unfold listed
          rw [here, if_neg nonzero]
        rw [Traced.bind_result, took, Traced.bind_ok took, trace]
        have entry := ensureEntryLogging_found still (by rw [here]; exact nonzero) (bn - ndirect)
        rw [here] at entry
        rcases entry with ⟨addr, l', returned, found⟩ | ⟨e, stopped, quiet⟩
        · exact .inl ⟨addr, l', returned, found.behind none list⟩
        · refine .inr ⟨e, stopped, ?_⟩
          rw [quiet]
          exact .list none _ b
      · refine .inr ⟨e, ?_, ?_⟩
        · rw [Traced.bind_result, stopped]
          rfl
        · rw [Traced.bind_error stopped, trace]
          exact .nil l 1 1
    · exact .inr ⟨_, rfl, .nil l 1 1⟩

/-- A block that the file has is found, and nothing is logged. -/
theorem bmapLogging_found {l : Locked} {bn : Nat} (some : l.disk.addrOf l.ip bn ≠ 0) :
    bmapLogging l bn = pure (l.disk.addrOf l.ip bn, l) := by
  have inside := lt_maxfile some
  unfold bmapLogging
  by_cases small : bn < ndirect
  · have place : l.disk.addrOf l.ip bn = l.ip.addrs (Fin.ofNat (ndirect + 1) bn) := by
      simp [FsDisk.addrOf, index_direct small, FsDisk.place]
    rw [if_pos small, place, ensureLogging, if_neg (by rw [← place]; exact some)]
  · have word : bn - ndirect < nindirect := by
      simp only [maxfile, ndirect, nindirect] at *
      omega
    have index : ((Fin.ofNat nindirect (bn - ndirect)).val : Nat) = bn - ndirect :=
      Nat.mod_eq_of_lt word
    have list : l.ip.addrs indirect ≠ 0 := fun none =>
      some (by simp [FsDisk.addrOf, index_entry small word, FsDisk.place, none])
    have place : l.disk.addrOf l.ip bn =
        (l.disk.block (l.ip.addrs indirect)).word (bn - ndirect) := by
      rw [FsDisk.addrOf, index_entry small word]
      change (if _ then _ else _ : Nat) = _
      rw [if_neg list, index]
    rw [if_neg small, if_pos word, ensureLogging, if_neg list]
    change l.ensureEntryLogging (l.ip.addrs indirect) (bn - ndirect) = _
    rw [ensureEntryLogging, ← place, if_neg some]

/-- A block that was found and written, and the blocks behind it. -/
theorem Found.followed {l l' m : Locked} {log more : List Nat} {addr data bits : Nat}
    (found : Found l log addr l') (same : m.listed = l'.listed) (later : m.Logs more data bits) :
    l.Logs (log ++ addr :: more) (data + 1) (bits + 1) := by
  obtain ⟨maps, first, few⟩ := found.logs
  obtain ⟨blocks, others, lists, rest, count, fewer, one, list⟩ := later
  rw [same] at fewer list
  refine ⟨insert addr blocks, maps ∪ others, lists, ?_, ?_, ?_, one, found.listed.trans list⟩
  · intro c member
    simp only [List.mem_toFinset, List.mem_append, List.mem_cons] at member
    simp only [Finset.mem_insert, Finset.mem_union]
    rcases member with before | rfl | behind
    · have place := first (List.mem_toFinset.mpr before)
      simp only [Finset.mem_insert, Finset.mem_union] at place
      rcases place with here | map | listed
      · exact .inl (.inl (.inl here))
      · exact .inl (.inr (.inl map))
      · exact .inr (list listed)
    · exact .inl (.inl (.inl rfl))
    · have place := rest (List.mem_toFinset.mpr behind)
      simp only [Finset.mem_union] at place
      rcases place with (block | map) | listed
      · exact .inl (.inl (.inr block))
      · exact .inl (.inr (.inr map))
      · exact .inr listed
  · exact (Finset.card_insert_le ..).trans (Nat.succ_le_succ count)
  · have both := Finset.card_union_le maps others
    omega

/-- A block that was there and is written. -/
theorem Logs.cons {l : Locked} {log : List Nat} {data bits : Nat} (logs : l.Logs log data bits)
    (addr : Nat) : l.Logs (addr :: log) (data + 1) bits := by
  obtain ⟨blocks, maps, lists, inside, count, few, one, list⟩ := logs
  refine ⟨insert addr blocks, maps, lists, ?_, ?_, few, one, list⟩
  · rw [List.toFinset_cons, Finset.insert_union, Finset.insert_union]
    exact Finset.insert_subset_insert addr inside
  · exact (Finset.card_insert_le ..).trans (Nat.succ_le_succ count)

theorem Logs.mono {l : Locked} {log : List Nat} {data bits data' bits' : Nat}
    (logs : l.Logs log data bits) (more : data ≤ data') (most : bits ≤ bits') :
    l.Logs log data' bits' := by
  obtain ⟨blocks, maps, lists, inside, count, few, one, list⟩ := logs
  exact ⟨blocks, maps, lists, inside, count.trans more, few.trans (Nat.succ_le_succ most), one, list⟩

end Locked

/-- Each block that is touched is a data block, and can be a new one. -/
theorem writeLoopLogging_logs {l : Locked} (boot : l.disk.bit 0 = true) (off : Nat)
    (data : List UInt8) : l.Logs (writeLoopLogging l off data).trace
      (touched off data.length).length (touched off data.length).length := by
  induction data using (measure List.length).wf.induction generalizing l off with
  | _ data ih =>
      rw [writeLoopLogging]
      by_cases none : data.length = 0
      · rw [dif_pos none]
        exact .nil ..
      · have moved := chunk_pos off none
        have shorter : (data.drop (chunk off data.length)).length = data.length - chunk off data.length :=
          List.length_drop
        rw [dif_neg none, touched_cons none, List.length_cons, ← shorter]
        rcases Locked.bmapLogging_logs boot (off / bsize) with
          ⟨addr, l', returned, found⟩ | ⟨e, stopped, logs⟩
        · rw [Traced.bind_ok returned]
          let block := (l'.disk.block addr).store (off % bsize) (data.take (chunk off data.length))
          have less : (data.drop (chunk off data.length)).length < data.length := by omega
          have later := ih _ less (l := l'.put addr block) found.boot (off + chunk off data.length)
          exact found.followed rfl later
        · rw [Traced.bind_error stopped]
          exact logs.mono (Nat.le_add_left 1 _) (Nat.le_add_left 1 _)

/-- When the file has the first block, one less can be new. -/
theorem writeLoopLogging_first {l : Locked} {off : Nat} (boot : l.disk.bit 0 = true)
    (data : List UInt8) (some : l.disk.addrOf l.ip (off / bsize) ≠ 0) :
    l.Logs (writeLoopLogging l off data).trace
      (touched off data.length).length ((touched off data.length).length - 1) := by
  rw [writeLoopLogging]
  by_cases none : data.length = 0
  · rw [dif_pos none]
    exact .nil ..
  · have shorter : (data.drop (chunk off data.length)).length = data.length - chunk off data.length :=
      List.length_drop
    let addr := l.disk.addrOf l.ip (off / bsize)
    let block := (l.disk.block addr).store (off % bsize) (data.take (chunk off data.length))
    have later := writeLoopLogging_logs (l := l.put addr block) boot (off + chunk off data.length)
      (data.drop (chunk off data.length))
    rw [dif_neg none, touched_cons none, List.length_cons, Nat.add_sub_cancel, ← shorter,
      Locked.bmapLogging_found some, Traced.pure_bind]
    exact later.cons addr

/-! ## One chunk of filewrite -/

theorem touched_length (off : Nat) {n : Nat} (short : n ≤ filewriteMax) :
    (touched off n).length ≤ 3 ∨ (touched off n).length ≤ 4 ∧ off % bsize ≠ 0 := by
  have most : filewriteMax = 3 * bsize := rfl
  unfold touched
  split
  · exact .inl (Nat.zero_le 3)
  · rw [List.length_range']
    simp only [bsize] at *
    omega

/--
A chunk of `filewrite` logs no more distinct blocks than `begin_op` has
reserved, when the boot block is not marked free and the file has all blocks
below its size.
-/
theorem filewrite_chunk_fits (devsw : Devsw) (inodestart : Nat) {l : Locked} {off : Nat}
    {data : List UInt8} (boot : l.disk.bit 0 = true)
    (full : ∀ bn, bn * bsize < l.ip.size → l.disk.addrOf l.ip bn ≠ 0)
    (short : data.length ≤ filewriteMax) :
    (writeiLogging devsw inodestart l off data).result = writei devsw l off data ∧
      (writeiLogging devsw inodestart l off data).trace.toFinset.card ≤ maxopblocks := by
  refine ⟨writeiLogging_result devsw inodestart l off data, ?_⟩
  have nothing : ([] : List Nat).toFinset.card ≤ maxopblocks := Nat.zero_le _
  unfold writeiLogging
  split
  · split
    · exact nothing
    · exact nothing
  · split
    · exact nothing
    · next inside =>
      have loop : (writeLoopLogging l off data).trace.toFinset.card + 1 ≤ maxopblocks := by
        rcases touched_length off short with aligned | ⟨unaligned, partly⟩
        · have logged := (writeLoopLogging_logs boot off data).card
          simp only [maxopblocks]
          omega
        · have below : off / bsize * bsize < l.ip.size := by
            simp only [bsize] at *
            omega
          have logged := (writeLoopLogging_first boot data (full _ below)).card
          simp only [maxopblocks]
          omega
      split
      · exact nothing
      · cases ran : (writeLoopLogging l off data).result with
        | error e =>
            rw [Traced.bind_error ran]
            omega
        | ok m =>
            rw [Traced.bind_ok ran]
            split
            · change (_ ++ [iblock inodestart m.inum]).toFinset.card ≤ _
              rw [List.toFinset_append]
              exact (Finset.card_union_le _ _).trans loop
            · change (_ ++ []).toFinset.card ≤ _
              rw [List.append_nil]
              omega

/-- A disk with four blocks of free map, each with the bit of one free block. -/
def fourMaps : FsDisk where
  sb := ⟨3 * bpb + 201, 200, 58⟩
  bit b := b % bpb != 200
  dinode _ := .zero
  block _ := .zero

/-- A file that lacks one byte to fill the blocks listed in its inode. -/
def directFile : Locked :=
  ⟨1, ⟨.file, 0, 0, 1, ndirect * bsize - 1, fun i => if i = indirect then 0 else 100 + i⟩, fourMaps⟩

set_option maxRecDepth 20000 in
/-- A chunk at the end of this file logs all the blocks that are reserved. -/
theorem filewrite_chunk_fills :
    let logged := writeiLogging noDevices 32 directFile (ndirect * bsize - 1)
      (List.replicate filewriteMax 1)
    logged.trace.toFinset.card ≤ maxopblocks ∧ logged.trace.toFinset.card = maxopblocks := by
  refine ⟨(filewrite_chunk_fits _ 32 rfl (fun bn below => ?_) ?_).2, by decide +kernel⟩
  · have size : bn * bsize < ndirect * bsize - 1 := below
    have small : bn < ndirect := by
      simp only [bsize, ndirect] at *
      omega
    have listed : directFile.disk.addrOf directFile.ip bn = 100 + bn := by
      have direct : (Fin.ofNat (ndirect + 1) bn).val = bn := Nat.mod_eq_of_lt (by omega)
      have apart : Fin.ofNat (ndirect + 1) bn ≠ indirect := by
        intro same
        have value : bn = ndirect := direct.symm.trans (congrArg Fin.val same)
        omega
      rw [FsDisk.addrOf, Locked.index_direct small]
      change (if _ then _ else 100 + (Fin.ofNat (ndirect + 1) bn).val : Nat) = _
      rw [if_neg apart, direct]
    rw [listed]
    exact Nat.ne_of_gt (Nat.lt_of_lt_of_le (by decide) (Nat.le_add_right 100 bn))
  · rw [List.length_replicate]

end SlabStudy.Xv6
