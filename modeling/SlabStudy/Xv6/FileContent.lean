import SlabStudy.Xv6.Ownership

/-!
# Inodes as byte arrays

An inode whose blocks are all allocated below its size is an array of bytes.
`readi` returns a range of it, and `writei` replaces a range and may extend
the array; no other inode changes.
-/

namespace SlabStudy.Xv6

open Library

namespace FsDisk

/-- The byte of a file at an offset. -/
def byteAt (d : FsDisk) (ip : Dinode) (k : Nat) : UInt8 :=
  d.block (d.addrOf ip (k / bsize)) (Fin.ofNat bsize k)

/-- The bytes of a file. -/
def content (d : FsDisk) (ip : Dinode) : List UInt8 := (List.range ip.size).map (d.byteAt ip)

end FsDisk

/-! ## Blocks of a range -/

theorem chunk_le (off n : Nat) : chunk off n ≤ n := Nat.min_le_left _ _

/-- The bytes of one round lie in one block. -/
theorem chunk_block {off n i : Nat} (inside : i < chunk off n) :
    (off + i) / bsize = off / bsize ∧ (off + i) % bsize = off % bsize + i := by
  unfold chunk at inside
  simp only [bsize] at *
  omega

theorem slice_eq (d : FsDisk) (ip : Dinode) (off n : Nat) :
    (d.block (d.addrOf ip (off / bsize))).slice (off % bsize) (chunk off n) =
      (List.range (chunk off n)).map fun i => d.byteAt ip (off + i) := by
  refine List.map_congr_left fun i member => ?_
  obtain ⟨block, offset⟩ := chunk_block (List.mem_range.mp member)
  have same : Fin.ofNat bsize (off % bsize + i) = Fin.ofNat bsize (off + i) := by
    apply Fin.ext
    simp only [Fin.val_ofNat, bsize]
    omega
  rw [FsDisk.byteAt, block, same]

/-- Reading below the size of a file changes nothing. -/
theorem readLoop_eq {l : Locked}
    (full : ∀ bn, bn * bsize < l.ip.size → l.disk.addrOf l.ip bn ≠ 0) (off n : Nat)
    (inside : off + n ≤ l.ip.size) :
    readLoop l off n = .ok ((List.range n).map fun i => l.disk.byteAt l.ip (off + i), l) := by
  induction n using Nat.strongRecOn generalizing off with
  | ind n ih =>
      rw [readLoop]
      by_cases none : n = 0
      · simp [none]
      · have moved := chunk_pos off none
        have most := chunk_le off n
        have below : off / bsize * bsize < l.ip.size := by
          simp only [bsize] at *
          omega
        have rest := ih (n - chunk off n) (by omega) (off + chunk off n) (by omega)
        have split : n = chunk off n + (n - chunk off n) := by omega
        rw [dif_neg none, Locked.bmap_found (full _ below)]
        change (readLoop l (off + chunk off n) (n - chunk off n) >>= fun r =>
          Except.ok (_ ++ r.1, r.2)) = _
        rw [rest]
        change Except.ok (_, l) = _
        rw [slice_eq, split, List.range_add, List.map_append, List.map_map, ← split]
        simp only [Function.comp_def, Nat.add_assoc]

/-- The blocks that a range of a file touches. -/
def touched (off n : Nat) : List Nat :=
  if n = 0 then [] else List.range' (off / bsize) ((off + n - 1) / bsize - off / bsize + 1)

/-- The first round moves the bytes of the first block. -/
theorem touched_cons {off n : Nat} (some : n ≠ 0) :
    touched off n = off / bsize :: touched (off + chunk off n) (n - chunk off n) := by
  have moved := chunk_pos off some
  have most := chunk_le off n
  have size : chunk off n = min n (bsize - off % bsize) := rfl
  rw [touched, if_neg some, touched]
  by_cases last : n - chunk off n = 0
  · have one : (off + n - 1) / bsize - off / bsize = 0 := by
      simp only [bsize] at *
      omega
    rw [if_pos last, one]
    rfl
  · have next : (off + chunk off n) / bsize = off / bsize + 1 := by
      simp only [bsize] at *
      omega
    have stop : off + chunk off n + (n - chunk off n) - 1 = off + n - 1 := by omega
    have count : (off + n - 1) / bsize - off / bsize =
        (off + n - 1) / bsize - (off / bsize + 1) + 1 := by
      simp only [bsize] at *
      omega
    rw [if_neg last, next, stop, count, List.range'_succ]

theorem touched_above {off n bn : Nat} (member : bn ∈ touched off n) : off / bsize ≤ bn := by
  rw [touched] at member
  split at member
  · cases member
  · exact (List.mem_range'_1.mp member).1

/-! ## Writing -/

namespace Locked

/-- A data block with new contents. -/
def put (l : Locked) (addr : Nat) (data : Block) : Locked :=
  { l with disk := { l.disk with block := Function.update l.disk.block addr data } }

/-- A block of the file is not an indirect block. -/
theorem Ok.data_block {l : Locked} {bn i : Nat} (ok : l.Ok) (some : l.disk.addrOf l.ip bn ≠ 0)
    (allocated : l.flush.Allocated i) :
    (l.flush.dinode i).addrs indirect ≠ l.disk.addrOf l.ip bn := by
  intro same
  cases here : FsDisk.index bn with
  | none => simp [FsDisk.addrOf, here] at some
  | some p =>
      have left : l.flush.ref (i, .addr indirect) = (l.flush.dinode i).addrs indirect :=
        FsDisk.ref_of allocated _
      rw [ok.addrOf here] at some same
      have clash := ok.owned.owns.once (l.inum, p) (i, .addr indirect) some (by rw [left, same])
      have place : p = .addr indirect := congrArg Prod.snd clash
      exact FsDisk.index_ne_indirect (by rw [here, place])

/-- Filling a block of the file changes no reference. -/
theorem Ok.put_ref {l : Locked} {bn : Nat} (ok : l.Ok) (some : l.disk.addrOf l.ip bn ≠ 0)
    (data : Block) : (l.put (l.disk.addrOf l.ip bn) data).flush.ref = l.flush.ref := by
  funext ⟨i, p⟩
  by_cases allocated : l.flush.Allocated i
  · have after : (l.put (l.disk.addrOf l.ip bn) data).flush.Allocated i := allocated
    rw [FsDisk.ref_of allocated, FsDisk.ref_of after]
    refine congrFun (FsDisk.place_congr fun _ => ?_) p
    exact Function.update_of_ne (ok.data_block some allocated) _ _
  · have after : ¬ (l.put (l.disk.addrOf l.ip bn) data).flush.Allocated i := allocated
    simp [FsDisk.ref, allocated, after]

theorem Ok.put_addrOf {l : Locked} {bn : Nat} (ok : l.Ok) (some : l.disk.addrOf l.ip bn ≠ 0)
    (data : Block) (other : Nat) :
    (l.put (l.disk.addrOf l.ip bn) data).disk.addrOf l.ip other = l.disk.addrOf l.ip other := by
  have own := ok.data_block some (i := l.inum) ⟨ok.inside, by simpa using ok.type⟩
  rw [flush_self] at own
  unfold FsDisk.addrOf
  rw [FsDisk.place_congr fun _ => Function.update_of_ne own _ _]

theorem Ok.put {l : Locked} {bn : Nat} (ok : l.Ok) (some : l.disk.addrOf l.ip bn ≠ 0)
    (data : Block) : (l.put (l.disk.addrOf l.ip bn) data).Ok := by
  have refs := ok.put_ref some data
  refine ⟨ok.inside, ok.type, ?_, fun i allocated other below => ?_, ok.owned.small⟩
  · rw [refs]
    exact ok.owned.owns
  · have listed := ok.owned.full i allocated other below
    cases here : FsDisk.index other with
    | none => simp [FsDisk.addrOf, here] at listed
    | some p =>
        have before : l.flush.Allocated i := allocated
        rw [FsDisk.addrOf_eq_ref before here] at listed
        rw [FsDisk.addrOf_eq_ref allocated here, refs]
        exact listed

/-- The bytes `data` have been written at the offset `off`; nothing else that was there changes. -/
structure Wrote (l : Locked) (off : Nat) (data : List UInt8) (l' : Locked) : Prop where
  ok : l'.Ok
  inum : l'.inum = l.inum
  ip : l'.ip = { l.ip with addrs := l'.ip.addrs }
  sb : l'.disk.sb = l.disk.sb
  dinode : l'.disk.dinode = l.disk.dinode
  listed : ∀ i, i < data.length → l'.disk.addrOf l'.ip ((off + i) / bsize) ≠ 0
  written : ∀ i, (inside : i < data.length) → l'.disk.byteAt l'.ip (off + i) = data[i]
  rest : ∀ k, k < off ∨ off + data.length ≤ k → l.disk.addrOf l.ip (k / bsize) ≠ 0 →
    l'.disk.byteAt l'.ip k = l.disk.byteAt l.ip k
  kept : ∀ x, l.flush.ref x ≠ 0 → l'.flush.ref x = l.flush.ref x
  others : ∀ x, x.1 ≠ l.inum → l.flush.ref x ≠ 0 →
    l'.disk.block (l.flush.ref x) = l.disk.block (l.flush.ref x)
  same : (∀ i, i < data.length → l.disk.addrOf l.ip ((off + i) / bsize) ≠ 0) → l'.ip = l.ip

theorem Wrote.nil {l : Locked} {off : Nat} (ok : l.Ok) : Wrote l off [] l :=
  ⟨ok, rfl, rfl, rfl, rfl, fun _ inside => absurd inside (Nat.not_lt_zero _),
    fun _ inside => absurd inside (Nat.not_lt_zero _), fun _ _ _ => rfl, fun _ _ => rfl,
    fun _ _ _ => rfl, fun _ => rfl⟩

/-- A block that was listed stays listed at the same address. -/
theorem Wrote.addrOf {l l' : Locked} {off bn : Nat} {data : List UInt8}
    (wrote : Wrote l off data l') (ok : l.Ok) (some : l.disk.addrOf l.ip bn ≠ 0) :
    l'.disk.addrOf l'.ip bn = l.disk.addrOf l.ip bn := by
  cases here : FsDisk.index bn with
  | none => simp [FsDisk.addrOf, here]
  | some p =>
      rw [ok.addrOf here] at some ⊢
      rw [wrote.ok.addrOf here, wrote.inum, wrote.kept _ some]

/-- Two ranges in a row. -/
theorem Wrote.append {l m l' : Locked} {off : Nat} {first second : List UInt8}
    (left : Wrote l off first m) (right : Wrote m (off + first.length) second l') (ok : l.Ok) :
    Wrote l off (first ++ second) l' := by
  refine ⟨right.ok, right.inum.trans left.inum, ?_, right.sb.trans left.sb,
    right.dinode.trans left.dinode, fun i inside => ?_, fun i inside => ?_, fun k outside some => ?_,
    fun x listed => ?_, fun x apart listed => ?_, fun all => ?_⟩
  · rw [right.ip, left.ip]
  · rw [List.length_append] at inside
    by_cases early : i < first.length
    · rw [right.addrOf left.ok (left.listed i early)]
      exact left.listed i early
    · have later := right.listed (i - first.length) (by omega)
      rwa [Nat.add_assoc, Nat.add_sub_cancel' (Nat.le_of_not_lt early)] at later
  · rw [List.length_append] at inside
    by_cases early : i < first.length
    · rw [List.getElem_append_left early,
        right.rest _ (.inl (by omega)) (left.listed i early)]
      exact left.written i early
    · have later := right.written (i - first.length) (by omega)
      rw [Nat.add_assoc, Nat.add_sub_cancel' (Nat.le_of_not_lt early)] at later
      rw [List.getElem_append_right (Nat.le_of_not_lt early)]
      exact later
  · rw [List.length_append] at outside
    rw [right.rest k (by omega) (by rw [left.addrOf ok some]; exact some)]
    exact left.rest k (by omega) some
  · have first := left.kept x listed
    rw [right.kept x (by rw [first]; exact listed), first]
  · have first := left.kept x listed
    have block := right.others x (by rw [left.inum]; exact apart) (by rw [first]; exact listed)
    rw [first] at block
    rw [block]
    exact left.others x apart listed
  · have before := left.same fun i inside => all i (by rw [List.length_append]; omega)
    rw [right.same fun i inside => ?_, before]
    have some := all (first.length + i) (by rw [List.length_append]; omega)
    rw [← Nat.add_assoc] at some
    rw [left.addrOf ok some]
    exact some

/-- The byte that `store` leaves at an offset of the block. -/
theorem store_inside (b : Block) {start i : Nat} {data : List UInt8} {offset : Fin bsize}
    (here : offset.val = start + i) (inside : i < data.length) :
    b.store start data offset = data[i] := by
  have index : offset.val - start = i := by omega
  rw [Block.store, if_pos (by omega), index, List.getElem?_eq_getElem inside]
  rfl

theorem store_outside (b : Block) {start : Nat} {data : List UInt8} {offset : Fin bsize}
    (outside : offset.val < start ∨ start + data.length ≤ offset.val) :
    b.store start data offset = b offset := by
  rw [Block.store]
  split
  · rw [List.getElem?_eq_none (by omega)]
    rfl
  · rfl

/-- A place of the locked inode and a place of any inode that list the same block are the same. -/
theorem Ok.apart {l : Locked} (ok : l.Ok) {p : Place} {x : Nat × Place}
    (some : l.flush.ref x ≠ 0) (apart : x ≠ (l.inum, p)) :
    l.flush.ref x ≠ l.disk.place l.ip p := by
  rw [← ok.ref]
  exact fun same => apart (ok.owned.owns.once _ _ some same)

/-- One round of `writei`. -/
theorem Mapped.wrote {l m : Locked} {off addr : Nat} {data : List UInt8} (ok : l.Ok)
    (mapped : Mapped l (off / bsize) addr m)
    (unchanged : l.disk.addrOf l.ip (off / bsize) ≠ 0 → m = l) (some : data ≠ [])
    (fits : data.length ≤ bsize - off % bsize) :
    Wrote l off data (m.put addr ((m.disk.block addr).store (off % bsize) data)) := by
  obtain rfl := mapped.found
  have nonzero := mapped.nonzero
  generalize filled : (m.disk.block (m.disk.addrOf m.ip (off / bsize))).store (off % bsize) data =
    block
  have addrs := mapped.ok.put_addrOf nonzero block
  have refs := mapped.ok.put_ref nonzero block
  have within : ∀ i, i < data.length → (off + i) / bsize = off / bsize ∧
      (off + i) % bsize = off % bsize + i := by
    intro i inside
    simp only [bsize] at *
    omega
  obtain ⟨p, here⟩ : ∃ p, FsDisk.index (off / bsize) = Option.some p := by
    cases here : FsDisk.index (off / bsize) with
    | none => simp [FsDisk.addrOf, here] at nonzero
    | some p => exact ⟨p, rfl⟩
  have place : m.disk.addrOf m.ip (off / bsize) = m.disk.place m.ip p := by
    simp [FsDisk.addrOf, here]
  refine ⟨mapped.ok.put nonzero block, mapped.inum, mapped.ip, mapped.sb, mapped.dinode,
    fun i inside => ?_, fun i inside => ?_, fun k outside listed => ?_, fun x listed => ?_,
    fun x apart listed => ?_, fun all => ?_⟩
  · rw [(within i inside).1]
    exact (addrs _).symm ▸ nonzero
  · rw [FsDisk.byteAt]
    change (m.put _ block).disk.block ((m.put _ block).disk.addrOf m.ip _) _ = _
    rw [addrs, (within i inside).1]
    change Function.update m.disk.block _ block _ _ = _
    rw [Function.update_self, ← filled]
    exact store_inside _ (within i inside).2 inside
  · rw [FsDisk.byteAt]
    change (m.put _ block).disk.block ((m.put _ block).disk.addrOf m.ip _) _ = _
    rw [addrs]
    change Function.update m.disk.block _ block _ _ = _
    by_cases same : k / bsize = off / bsize
    · -- the block was there before, and `k` is outside the part that is stored
      rw [same] at listed ⊢
      rw [Function.update_self, ← filled, store_outside]
      · rw [unchanged listed, FsDisk.byteAt, same]
      · simp only [Fin.val_ofNat, bsize] at *
        omega
    · have kept := mapped.others _ same
      cases there : FsDisk.index (k / bsize) with
      | none => simp [FsDisk.addrOf, there] at listed
      | some q =>
          have at' : m.disk.addrOf m.ip (k / bsize) = m.flush.ref (m.inum, q) :=
            mapped.ok.addrOf there
          have some' : m.flush.ref (m.inum, q) ≠ 0 := by
            rw [← at', kept]
            exact listed
          have other : m.disk.addrOf m.ip (k / bsize) ≠ m.disk.addrOf m.ip (off / bsize) := by
            rw [at', place]
            refine mapped.ok.apart some' fun clash => same ?_
            have places : q = p := congrArg Prod.snd clash
            exact FsDisk.index_inj there (by rw [here, places])
          have data' : m.disk.addrOf m.ip (k / bsize) ≠ m.ip.addrs indirect := by
            rw [at']
            refine mapped.ok.apart (p := .addr indirect) some' fun clash => ?_
            have places : q = .addr indirect := congrArg Prod.snd clash
            exact FsDisk.index_ne_indirect (by rw [there, places])
          have used : l.disk.bit (l.disk.addrOf l.ip (k / bsize)) = true := by
            rw [ok.addrOf there] at listed ⊢
            exact ok.owned.owns.used_of_ref listed
          rw [Function.update_of_ne other, FsDisk.byteAt, ← kept, mapped.block]
          · rw [kept]
            exact used
          · exact data'
  · rw [refs]
    exact mapped.kept x listed
  · have kept := mapped.kept x listed
    have some' : m.flush.ref x ≠ 0 := by
      rw [kept]
      exact listed
    have away : ∀ q, x ≠ (m.inum, q) := by
      rintro q rfl
      exact apart mapped.inum
    change Function.update m.disk.block _ block _ = _
    rw [Function.update_of_ne, mapped.block _ (ok.owned.owns.used_of_ref listed)]
    · rw [← kept]
      exact mapped.ok.apart (p := .addr indirect) some' (away _)
    · rw [place, ← kept]
      exact mapped.ok.apart some' (away p)
  · change m.ip = l.ip
    have long := List.length_pos_of_ne_nil some
    rw [unchanged (all 0 long)]

/-- How many blocks have to be allocated to have the blocks `bns` and their indirect block. -/
def need (l : Locked) (bns : List Nat) : Nat :=
  bns.countP (fun bn => l.disk.addrOf l.ip bn = 0) +
    if l.ip.addrs indirect = 0 ∧ ∃ bn ∈ bns, ndirect ≤ bn then 1 else 0

/-- Mapping the first block leaves the allocations of the others. -/
theorem Mapped.need {l m : Locked} {bn addr : Nat} {rest : List Nat} (mapped : Mapped l bn addr m)
    (new : bn ∉ rest) (data : Block) : l.need (bn :: rest) = l.cost bn + (m.put addr data).need rest := by
  obtain rfl := mapped.found
  have addrs := mapped.ok.put_addrOf mapped.nonzero data
  have same : rest.countP (fun bn => l.disk.addrOf l.ip bn = 0) =
      rest.countP fun other => (m.put (m.disk.addrOf m.ip bn) data).disk.addrOf m.ip other = 0 := by
    refine List.countP_congr fun other member => ?_
    have apart : other ≠ bn := by
      rintro rfl
      exact new member
    rw [addrs, mapped.others other apart]
  have list := mapped.list
  unfold Locked.need cost
  change _ = _ + (rest.countP (fun other =>
    (m.put (m.disk.addrOf m.ip bn) data).disk.addrOf m.ip other = 0) +
      if m.ip.addrs indirect = 0 ∧ ∃ bn ∈ rest, ndirect ≤ bn then 1 else 0)
  rw [← same, List.countP_cons]
  simp only [list, decide_eq_true_eq, List.mem_cons, exists_eq_or_imp]
  by_cases none : l.ip.addrs indirect = 0
  · by_cases large : ndirect ≤ bn
    · simp only [none, large, true_or, and_self, if_true, Nat.not_lt.mpr large, and_false, false_and,
        if_false]
      omega
    · simp only [none, large, false_or, true_and, if_false, Nat.lt_of_not_le large]
      omega
  · simp only [none, false_and, if_false]
    omega

theorem cost_le_need (l : Locked) (bn : Nat) (rest : List Nat) :
    l.cost bn ≤ l.need (bn :: rest) := by
  unfold need cost
  rw [List.countP_cons]
  simp only [decide_eq_true_eq, List.mem_cons, exists_eq_or_imp]
  by_cases both : l.ip.addrs indirect = 0 ∧ ndirect ≤ bn
  · simp only [both, true_or, and_self, if_true]
    omega
  · simp only [both, if_false]
    omega

/-- The loop of `writei` writes its data, or there are not enough free blocks. -/
theorem writeLoop_spec {l : Locked} (ok : l.Ok) (off : Nat) (data : List UInt8)
    (fits : off + data.length ≤ maxfile * bsize) :
    (∃ l', writeLoop l off data = .ok l' ∧ Wrote l off data l' ∧
      l.disk.freeBlocks = l'.disk.freeBlocks + l.need (touched off data.length)) ∨
    writeLoop l off data = .error .outOfBlocks ∧
      l.disk.freeBlocks < l.need (touched off data.length) := by
  induction long : data.length using Nat.strongRecOn generalizing l off data with
  | ind n ih =>
      subst long
      by_cases none : data.length = 0
      · have empty := List.eq_nil_of_length_eq_zero none
        subst empty
        refine .inl ⟨l, by rw [writeLoop]; rfl, .nil ok, ?_⟩
        simp [touched, Locked.need]
      · have moved := chunk_pos off none
        have most := chunk_le off data.length
        have inside : off / bsize < maxfile := by
          simp only [bsize, maxfile, ndirect, nindirect] at *
          omega
        have part : (data.take (chunk off data.length)).length = chunk off data.length := by
          rw [List.length_take]
          omega
        have rest : (data.drop (chunk off data.length)).length =
            data.length - chunk off data.length := List.length_drop
        have split : data.take (chunk off data.length) ++ data.drop (chunk off data.length) = data :=
          List.take_append_drop _ _
        have later : off / bsize ∉ touched (off + chunk off data.length)
            (data.length - chunk off data.length) := by
          intro member
          have above := touched_above member
          rw [touched] at member
          split at member
          · cases member
          · have size : chunk off data.length = min data.length (bsize - off % bsize) := rfl
            simp only [bsize] at *
            omega
        rw [writeLoop, dif_neg none, touched_cons none]
        rcases bmap_spec ok inside with ⟨addr, m, ran, mapped, count, unchanged⟩ | ⟨ran, few⟩
        · generalize block : (m.disk.block addr).store (off % bsize)
            (data.take (chunk off data.length)) = stored
          have round : Wrote l off (data.take (chunk off data.length)) (m.put addr stored) := by
            rw [← block]
            refine mapped.wrote ok unchanged (fun empty => ?_) ?_
            · rw [empty] at part
              change 0 = _ at part
              omega
            · rw [part]
              exact Nat.min_le_right _ _
          have needs := mapped.need later stored
          have free : m.disk.freeBlocks = (m.put addr stored).disk.freeBlocks := rfl
          have step : (bmap l (off / bsize) >>= fun r =>
              writeLoop { r.2 with disk := { r.2.disk with
                block := Function.update r.2.disk.block r.1 ((r.2.disk.block r.1).store (off % bsize)
                  (data.take (chunk off data.length))) } } (off + chunk off data.length)
                (data.drop (chunk off data.length))) =
              writeLoop (m.put addr stored) (off + chunk off data.length)
                (data.drop (chunk off data.length)) := by
            rw [ran, ← block]
            rfl
          have next := ih _ (by omega) (l := m.put addr stored) round.ok
            (off + chunk off data.length) (data.drop (chunk off data.length)) (by omega) rest
          rcases next with ⟨l', done, wrote, left⟩ | ⟨stopped, few⟩
          · refine .inl ⟨l', step.trans done, ?_, by omega⟩
            rw [← split]
            exact round.append (by rw [part]; exact wrote) ok
          · exact .inr ⟨step.trans stopped, by omega⟩
        · refine .inr ⟨by rw [ran]; rfl, ?_⟩
          exact Nat.lt_of_lt_of_le few (l.cost_le_need _ _)

end Locked

/-! ## The array -/

/-- A range of an array of bytes; `none` for the error return of `readi`. -/
def readBytes (s : List UInt8) (off n : Nat) : Option (List UInt8) :=
  if s.length < off ∨ 2 ^ 32 ≤ off + n then none else some ((s.drop off).take n)

/-- An array with a range replaced, and extended if need be; `none` for the error return. -/
def writeBytes (s : List UInt8) (off : Nat) (data : List UInt8) : Option (List UInt8) :=
  if s.length < off ∨ 2 ^ 32 ≤ off + data.length ∨ maxfile * bsize < off + data.length then none
  else some (s.take off ++ data ++ s.drop (off + data.length))

namespace FsDisk

/-- The inode as `ilock` finds it on the disk. -/
def locked (d : FsDisk) (inum : Nat) : Locked := ⟨inum, d.dinode inum, d⟩

theorem flush_locked (d : FsDisk) (inum : Nat) : (d.locked inum).flush = d := by
  unfold Locked.flush iupdate locked
  rw [Function.update_eq_self]

theorem Owned.locked {d : FsDisk} {inum : Nat} (owned : d.Owned) (allocated : d.Allocated inum) :
    (d.locked inum).Ok :=
  ⟨allocated.1, allocated.2, by rw [flush_locked]; exact owned⟩

@[simp] theorem content_length (d : FsDisk) (ip : Dinode) : (d.content ip).length = ip.size := by
  simp [content]

theorem content_get (d : FsDisk) (ip : Dinode) {k : Nat} (inside : k < (d.content ip).length) :
    (d.content ip)[k] = d.byteAt ip k := by
  simp [content]

/-- `readi` returns a range of the content and changes nothing, if no block is missing. -/
theorem readi_full (devsw : Devsw) {l : Locked}
    (full : ∀ bn, bn * bsize < l.ip.size → l.disk.addrOf l.ip bn ≠ 0) (regular : l.ip.type ≠ .dev)
    {off n : Nat} (small : off < 2 ^ 32) (few : n < 2 ^ 32) : readi devsw l off n = .ok
      (match readBytes (l.disk.content l.ip) off n with
      | none => (-1, [], l)
      | some bytes => (bytes.length, bytes, l)) := by
  have bound : l.ip.size ≤ maxfile * bsize := by
    by_contra large
    exact absurd (Locked.lt_maxfile (full maxfile (by omega))) (lt_irrefl _)
  have limit : maxfile * bsize < 2 ^ 32 := by decide
  rw [readi, if_neg regular, readBytes, content_length]
  by_cases bad : l.ip.size < off ∨ 2 ^ 32 ≤ off + n
  · rw [if_pos bad, if_pos]
    omega
  · have whole : (off + n) % 2 ^ 32 = off + n := Nat.mod_eq_of_lt (by omega)
    rw [if_neg bad, if_neg (by omega), whole]
    generalize count : (if off + n > l.ip.size then l.ip.size - off else n) = m
    have short : m = min n (l.ip.size - off) := by
      rw [← count]
      split
      · omega
      · omega
    have read := readLoop_eq full off m (by omega)
    have bytes : (List.range m).map (fun i => l.disk.byteAt l.ip (off + i)) =
        ((l.disk.content l.ip).drop off).take n := by
      refine List.ext_getElem ?_ fun i left right => ?_
      · simp [short]
      · simp [content]
    change (readLoop l off m >>= fun r => Except.ok ((m : Int), r.1, r.2)) = _
    rw [read]
    change Except.ok ((m : Int), _, _) = Except.ok (_, _, _)
    rw [← bytes, List.length_map, List.length_range]

/-- `readi` of an inode whose blocks are all there. -/
theorem readi_eq (devsw : Devsw) {d : FsDisk} {inum off n : Nat} (owned : d.Owned)
    (allocated : d.Allocated inum) (regular : (d.dinode inum).type ≠ .dev) (small : off < 2 ^ 32)
    (few : n < 2 ^ 32) : readi devsw (d.locked inum) off n = .ok
      (match readBytes (d.content (d.dinode inum)) off n with
      | none => (-1, [], d.locked inum)
      | some bytes => (bytes.length, bytes, d.locked inum)) :=
  readi_full devsw (l := d.locked inum) (fun _ => (owned.locked allocated).full) regular small few

/-- The content of an inode is now `s`, and no other inode has changed. -/
structure Replaced (d : FsDisk) (i : Nat) (s : List UInt8) (l : Locked) : Prop where
  inum : l.inum = i
  ip : l.ip = { d.dinode i with size := s.length, addrs := l.ip.addrs }
  stored : l.disk.dinode i = l.ip
  sb : l.disk.sb = d.sb
  owned : l.disk.Owned
  content : l.disk.content l.ip = s
  others : ∀ j, j ≠ i → l.disk.dinode j = d.dinode j ∧
    (d.Allocated j → l.disk.content (d.dinode j) = d.content (d.dinode j))

/-- An on-disk inode is replaced, and the marks are exact for the places it has then. -/
theorem Owned.replace {d : FsDisk} (owned : d.Owned) (i : Nat) (ip : Dinode) (bit : Nat → Bool)
    (owns : Owns d.sb.nmeta d.sb.size bit fun x => if x.1 = i then
      if i < d.sb.ninodes ∧ ip.type ≠ .free then d.place ip x.2 else 0 else d.ref x)
    (full : ip.type ≠ .free → ∀ bn, bn * bsize < ip.size → d.addrOf ip bn ≠ 0) :
    (iupdate { d with bit := bit } i ip).Owned := by
  generalize after : iupdate { d with bit := bit } i ip = e
  have own : e.dinode i = ip := by
    rw [← after]
    exact Function.update_self _ _ _
  have others : ∀ j, j ≠ i → e.dinode j = d.dinode j := by
    intro j apart
    rw [← after]
    exact Function.update_of_ne apart _ _
  have sb : e.sb = d.sb := by rw [← after]; rfl
  have block : e.block = d.block := by rw [← after]; rfl
  have marks : e.bit = bit := by rw [← after]; rfl
  have place : ∀ ip, e.place ip = d.place ip := fun _ => place_congr fun _ => by rw [block]
  have allocated : ∀ j, j ≠ i → (e.Allocated j ↔ d.Allocated j) := by
    intro j apart
    unfold Allocated
    rw [sb, others j apart]
  have ref : e.ref = fun x => if x.1 = i then
      if i < d.sb.ninodes ∧ ip.type ≠ .free then d.place ip x.2 else 0 else d.ref x := by
    funext ⟨j, p⟩
    by_cases self : j = i
    · subst self
      simp only [FsDisk.ref, Allocated, own, sb, place, if_true]
    · simp only [FsDisk.ref, self, if_false, allocated j self, others j self, place]
  refine ⟨?_, fun j there bn below => ?_, by rw [sb]; exact owned.small⟩
  · rw [ref, sb, marks]
    exact owns
  · rw [addrOf, place]
    by_cases self : j = i
    · subst self
      have type := there.2
      rw [own] at below type ⊢
      exact full type bn below
    · rw [others j self] at below ⊢
      exact owned.full j ((allocated j self).mp there) bn below

/-- An inode whose blocks stay listed where they are may get any other fields. -/
theorem Owned.update {d : FsDisk} (owned : d.Owned) (i : Nat) (ip : Dinode)
    (type : ip.type = .free ↔ (d.dinode i).type = .free) (addrs : ip.addrs = (d.dinode i).addrs)
    (full : ∀ bn, bn * bsize < ip.size → d.addrOf (d.dinode i) bn ≠ 0) :
    (iupdate d i ip).Owned := by
  have place : d.place ip = d.place (d.dinode i) := by
    funext p
    cases p with
    | addr k => exact congrFun addrs k
    | entry k =>
        unfold FsDisk.place
        rw [addrs]
  refine owned.replace i ip d.bit ?_ fun _ bn below => ?_
  · have same : (fun x : Nat × Place => if x.1 = i then
        if i < d.sb.ninodes ∧ ip.type ≠ .free then d.place ip x.2 else 0 else d.ref x) = d.ref := by
      funext ⟨j, p⟩
      by_cases self : j = i
      · subst self
        simp only [if_true]
        exact if_congr (and_congr_right fun _ => not_congr type) (congrFun place p) rfl
      · simp only [self, if_false]
    rw [same]
    exact owned.owns
  · rw [addrOf, place]
    exact full bn below

end FsDisk

namespace Locked

/-- A new size keeps the ownership exact, if all blocks below it are there. -/
theorem Ok.resize {l : Locked} (ok : l.Ok) {size : Nat}
    (full : ∀ bn, bn * bsize < size → l.disk.addrOf l.ip bn ≠ 0) :
    (iupdate l.disk l.inum { l.ip with size := size }).Owned := by
  have resized := ok.owned.update l.inum { l.ip with size := size }
    (by rw [flush_self]) (by rw [flush_self]) (by rw [flush_self]; exact full)
  unfold flush iupdate at resized
  rw [Function.update_idem] at resized
  exact resized

/-- What the bytes of the file are after a write. -/
theorem Wrote.byte {d : FsDisk} {i off k : Nat} {data : List UInt8} {l : Locked}
    (wrote : Wrote (d.locked i) off data l) (ok : (d.locked i).Ok)
    (start : off ≤ (d.dinode i).size) (inside : k < ((d.content (d.dinode i)).take off ++ data ++
      (d.content (d.dinode i)).drop (off + data.length)).length) :
    l.disk.byteAt l.ip k = ((d.content (d.dinode i)).take off ++ data ++
      (d.content (d.dinode i)).drop (off + data.length))[k] := by
  have head : ((d.content (d.dinode i)).take off).length = off := by simp [start]
  have below : k < (d.dinode i).size → d.addrOf (d.dinode i) (k / bsize) ≠ 0 := by
    intro small
    refine ok.full ?_
    change _ < (d.dinode i).size
    simp only [bsize] at *
    omega
  simp only [List.length_append, head, List.length_drop, FsDisk.content_length] at inside
  by_cases early : k < off
  · rw [List.getElem_append_left (by simp only [List.length_append, head]; omega),
      List.getElem_append_left (by rw [head]; exact early), List.getElem_take, FsDisk.content_get]
    exact wrote.rest k (.inl early) (below (by omega))
  · by_cases within : k < off + data.length
    · have written := wrote.written (k - off) (by omega)
      rw [Nat.add_sub_cancel' (by omega)] at written
      rw [List.getElem_append_left (by simp only [List.length_append, head]; omega),
        List.getElem_append_right (by rw [head]; omega), written]
      simp only [head]
    · rw [List.getElem_append_right (by simp only [List.length_append, head]; omega),
        List.getElem_drop, FsDisk.content_get]
      have index : off + data.length +
          (k - (((d.content (d.dinode i)).take off) ++ data).length) = k := by
        simp only [List.length_append, head]
        omega
      rw [index]
      exact wrote.rest k (.inr (by omega)) (below (by omega))

/-- The other inodes keep their content. -/
theorem Wrote.other_content {d : FsDisk} {i j off : Nat} {data : List UInt8} {l : Locked}
    (wrote : Wrote (d.locked i) off data l) (owned : d.Owned) (apart : j ≠ i)
    (allocated : d.Allocated j) : l.disk.content (d.dinode j) = d.content (d.dinode j) := by
  refine List.map_congr_left fun k member => ?_
  have below : k / bsize * bsize < (d.dinode j).size := by
    have small := List.mem_range.mp member
    simp only [bsize] at *
    omega
  have listed := owned.full j allocated _ below
  cases here : FsDisk.index (k / bsize) with
  | none => simp [FsDisk.addrOf, here] at listed
  | some p =>
      have before : (d.locked i).flush.ref (j, p) = d.addrOf (d.dinode j) (k / bsize) := by
        rw [FsDisk.flush_locked, FsDisk.addrOf_eq_ref allocated here]
      have kept := wrote.kept (j, p) (by rw [before]; exact listed)
      have block := wrote.others (j, p) apart (by rw [before]; exact listed)
      have entry : l.flush.dinode j = d.dinode j := by
        rw [l.flush_other (by rw [wrote.inum]; exact apart), wrote.dinode]
        rfl
      have still : l.flush.Allocated j := by
        unfold FsDisk.Allocated
        rw [entry]
        change _ < l.disk.sb.ninodes ∧ _
        rw [wrote.sb]
        exact allocated
      have after : l.disk.addrOf (d.dinode j) (k / bsize) = d.addrOf (d.dinode j) (k / bsize) := by
        have found := FsDisk.addrOf_eq_ref still here
        rw [kept, before, entry] at found
        exact found
      unfold FsDisk.byteAt
      rw [after]
      rw [before] at block
      rw [block]
      rfl

end Locked

namespace FsDisk

/-- The last steps of `writei`: the size is updated if the file has grown. -/
theorem writei_finish {d : FsDisk} {i off : Nat} {data : List UInt8} {l : Locked} (owned : d.Owned)
    (allocated : d.Allocated i) (start : off ≤ (d.dinode i).size)
    (wrote : Locked.Wrote (d.locked i) off data l) :
    Replaced d i ((d.content (d.dinode i)).take off ++ data ++
      (d.content (d.dinode i)).drop (off + data.length))
      (if data.length > 0 ∧ off + data.length > l.ip.size then
        { l with
          ip := { l.ip with size := off + data.length }
          disk := iupdate l.disk l.inum { l.ip with size := off + data.length } }
      else l) := by
  have ok := owned.locked allocated
  have inum : l.inum = i := wrote.inum
  have size : l.ip.size = (d.dinode i).size := by
    rw [wrote.ip]
    rfl
  have bytes := fun k => wrote.byte (k := k) ok start
  generalize new : (d.content (d.dinode i)).take off ++ data ++
    (d.content (d.dinode i)).drop (off + data.length) = s at bytes ⊢
  have length : s.length = max (d.dinode i).size (off + data.length) := by
    rw [← new]
    simp only [List.length_append, List.length_take, List.length_drop, content_length]
    omega
  have others : ∀ j, j ≠ i → l.disk.dinode j = d.dinode j ∧
      (d.Allocated j → l.disk.content (d.dinode j) = d.content (d.dinode j)) := by
    intro j apart
    exact ⟨by rw [wrote.dinode]; rfl, wrote.other_content owned apart⟩
  by_cases grown : data.length > 0 ∧ off + data.length > l.ip.size
  · have count : s.length = off + data.length := by omega
    rw [if_pos grown]
    refine ⟨inum, ?_, ?_, wrote.sb, wrote.ok.resize fun bn below => ?_, ?_, fun j apart => ?_⟩
    · rw [count, wrote.ip]
      rfl
    · rw [← inum]
      exact Function.update_self _ _ _
    · by_cases old : bn * bsize < l.ip.size
      · exact wrote.ok.full old
      · have listed := wrote.listed (bn * bsize - off) (by omega)
        rw [Nat.add_sub_cancel' (by omega), Nat.mul_div_cancel _ (by decide)] at listed
        exact listed
    · refine List.ext_getElem (by rw [content_length, count]) fun k left right => ?_
      rw [content_get, ← bytes k right]
      rfl
    · obtain ⟨same, content⟩ := others j apart
      refine ⟨?_, content⟩
      rw [← inum] at apart
      rw [← same]
      exact Function.update_of_ne apart _ _
  · have all : ∀ k, k < data.length → d.addrOf (d.dinode i) ((off + k) / bsize) ≠ 0 := by
      intro k small
      refine ok.full ?_
      change _ < (d.dinode i).size
      simp only [bsize] at *
      omega
    have ip : l.ip = d.dinode i := wrote.same all
    have stored : l.disk.dinode i = l.ip := by
      rw [wrote.dinode, ip]
      rfl
    have count : s.length = (d.dinode i).size := by omega
    have flushed : l.flush = l.disk := by
      unfold Locked.flush iupdate
      rw [← stored, inum, Function.update_eq_self]
    rw [if_neg grown]
    refine ⟨inum, ?_, stored, wrote.sb, ?_, ?_, others⟩
    · rw [count, ip]
    · rw [← flushed]
      exact wrote.ok.owned
    · refine List.ext_getElem (by rw [content_length, count, size]) fun k left right => ?_
      rw [content_get, ← bytes k right]

/-- `writei` replaces a range of the content, or there are not enough free blocks. -/
theorem writei_eq (devsw : Devsw) {d : FsDisk} {i off : Nat} {data : List UInt8} (owned : d.Owned)
    (allocated : d.Allocated i) (regular : (d.dinode i).type ≠ .dev) (small : off < 2 ^ 32)
    (few : data.length < 2 ^ 32) :
    match writeBytes (d.content (d.dinode i)) off data with
    | none => writei devsw (d.locked i) off data = .ok (-1, d.locked i)
    | some s =>
        if (d.locked i).need (touched off data.length) ≤ d.freeBlocks then
          ∃ l, writei devsw (d.locked i) off data = .ok (data.length, l) ∧ Replaced d i s l
        else writei devsw (d.locked i) off data = .error .outOfBlocks := by
  have ok := owned.locked allocated
  have bound := ok.size_le
  have size : (d.locked i).ip.size = (d.dinode i).size := rfl
  have type : (d.locked i).ip.type ≠ .dev := regular
  have limit : maxfile * bsize < 2 ^ 32 := by decide
  rw [writeBytes, content_length]
  by_cases bad : (d.dinode i).size < off ∨ 2 ^ 32 ≤ off + data.length
  · rw [if_pos (by omega)]
    change writei devsw (d.locked i) off data = _
    rw [writei, if_neg type, size, if_pos (by omega)]
  · have whole : (off + data.length) % 2 ^ 32 = off + data.length := Nat.mod_eq_of_lt (by omega)
    by_cases big : maxfile * bsize < off + data.length
    · rw [if_pos (.inr (.inr big))]
      change writei devsw (d.locked i) off data = _
      rw [writei, if_neg type, size, if_neg (by omega), whole, if_pos big]
    · have run : writei devsw (d.locked i) off data = (writeLoop (d.locked i) off data >>= fun l =>
          Except.ok ((data.length : Int), if data.length > 0 ∧ off + data.length > l.ip.size then
            { l with
              ip := { l.ip with size := off + data.length }
              disk := iupdate l.disk l.inum { l.ip with size := off + data.length } }
          else l)) := by
        rw [writei, if_neg type, size, if_neg (by omega), whole, if_neg big]
        refine bind_congr fun l => ?_
        split
        · rfl
        · rfl
      rw [if_neg (by omega)]
      change if _ then _ else _
      rw [run]
      have free : (d.locked i).disk.freeBlocks = d.freeBlocks := rfl
      rcases Locked.writeLoop_spec ok off data (by omega) with
        ⟨l, wrote, bytes, count⟩ | ⟨stopped, short⟩
      · rw [if_pos (by omega), wrote]
        exact ⟨_, rfl, writei_finish owned allocated (by omega) bytes⟩
      · rw [if_neg (by omega), stopped]
        rfl

/--
An inode behaves like its content, an array of bytes: `readi` and `writei`
are `readBytes` and `writeBytes` as far as there are enough free blocks, and
leave every other inode alone.
-/
theorem inode_is_byte_array (devsw : Devsw) {d : FsDisk} {i : Nat} (owned : d.Owned)
    (allocated : d.Allocated i) (regular : (d.dinode i).type ≠ .dev) :
    (∀ off n, off < 2 ^ 32 → n < 2 ^ 32 → readi devsw (d.locked i) off n = .ok
      (match readBytes (d.content (d.dinode i)) off n with
      | none => (-1, [], d.locked i)
      | some bytes => (bytes.length, bytes, d.locked i))) ∧
    ∀ off (data : List UInt8), off < 2 ^ 32 → data.length < 2 ^ 32 →
      match writeBytes (d.content (d.dinode i)) off data with
      | none => writei devsw (d.locked i) off data = .ok (-1, d.locked i)
      | some s =>
          if (d.locked i).need (touched off data.length) ≤ d.freeBlocks then
            ∃ l, writei devsw (d.locked i) off data = .ok (data.length, l) ∧
              l.ip.size = max (d.dinode i).size (off + data.length) ∧ Replaced d i s l
          else writei devsw (d.locked i) off data = .error .outOfBlocks := by
  refine ⟨fun off n => readi_eq devsw owned allocated regular, fun off data small few => ?_⟩
  have wrote := writei_eq devsw owned allocated regular small few
  cases result : writeBytes (d.content (d.dinode i)) off data with
  | none =>
      rw [result] at wrote
      exact wrote
  | some s =>
      rw [result] at wrote
      dsimp only at wrote ⊢
      split
      · next enough =>
          rw [if_pos enough] at wrote
          obtain ⟨l, ran, replaced⟩ := wrote
          refine ⟨l, ran, ?_, replaced⟩
          rw [replaced.ip]
          unfold writeBytes at result
          split at result
          · cases result
          · next good =>
              obtain rfl := Option.some.inj result
              simp only [List.length_append, List.length_take, List.length_drop,
                content_length] at good ⊢
              omega
      · next short =>
          rw [if_neg short] at wrote
          exact wrote

/-- An image of twenty blocks with one empty file. -/
def sample : FsDisk where
  sb := ⟨20, 3, 2⟩
  bit b := decide (b < 3)
  dinode i := if i = 1 then { Dinode.zero with type := .file, nlink := 1 } else .zero
  block _ := .zero

/-- A disk whose inodes list no blocks and have no content, with the metadata marked. -/
theorem owned_of_empty {d : FsDisk} (addrs : ∀ i, (d.dinode i).addrs = fun _ => 0)
    (sizes : ∀ i, (d.dinode i).size = 0) (bit : ∀ b, d.bit b = decide (b < d.sb.nmeta))
    (small : d.sb.size < 2 ^ 32) : d.Owned := by
  have none : ∀ x, d.ref x = 0 := by
    rintro ⟨i, p⟩
    have empty : d.place (d.dinode i) p = 0 := by
      cases p with
      | addr k => simp [place, addrs]
      | entry k => simp [place, addrs]
    simp [ref, empty]
  refine ⟨⟨fun x some => absurd (none x) some, fun x y some => absurd (none x) some,
    fun b inside => ?_⟩, fun i _ bn below => ?_, small⟩
  · rw [bit b, decide_eq_true_eq]
    refine ⟨.inl, fun either => either.elim id fun held => ?_⟩
    obtain ⟨some, x, same⟩ := held
    rw [none x] at same
    exact absurd same.symm some
  · rw [sizes i] at below
    exact absurd below (Nat.not_lt_zero _)

theorem sample_owned : sample.Owned := by
  refine owned_of_empty (fun i => ?_) (fun i => ?_) (fun _ => rfl) (by decide)
  all_goals
    simp only [sample]
    split
    · rfl
    · rfl

/-- Two bytes are written to the empty file. -/
theorem sample_byte_array : sample.Owned ∧ sample.Allocated 1 ∧
    ∃ l, writei ⟨fun _ => none, fun _ => none⟩ (sample.locked 1) 0 [7, 8] = .ok (2, l) ∧
      l.ip.size = 2 ∧ sample.Replaced 1 [7, 8] l := by
  have spec := (inode_is_byte_array ⟨fun _ => none, fun _ => none⟩ sample_owned
    (by decide : sample.Allocated 1) (by decide)).2 0 [7, 8] (by decide) (by decide)
  change if _ then ∃ l, _ ∧ _ ∧ sample.Replaced 1 [7, 8] l else _ at spec
  rw [if_pos (by decide)] at spec
  exact ⟨sample_owned, by decide, spec⟩

end FsDisk

end SlabStudy.Xv6
