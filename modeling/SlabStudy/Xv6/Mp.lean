import SlabStudy.Xv6.Machine

/-!
# The MP tables

`mpsearch`, `mpconfig` and `mpinit` of `mp.c`.  All pointers go through `P2V`,
and are given here by the physical address.
-/

namespace SlabStudy.Xv6.Mp

/-- Physical memory. -/
abbrev Memory := Nat → UInt8

/-- `sum`. -/
def sum (mem : Memory) (addr len : Nat) : UInt8 :=
  ((List.range len).map fun i => mem (addr + i)).foldl (· + ·) 0

def signature (mem : Memory) (addr : Nat) : List UInt8 :=
  [mem addr, mem (addr + 1), mem (addr + 2), mem (addr + 3)]

/-- A `ushort` and a `uint`, the low byte first. -/
def ushort (mem : Memory) (addr : Nat) : Nat := (mem addr).toNat + 256 * (mem (addr + 1)).toNat

def uint (mem : Memory) (addr : Nat) : Nat := ushort mem addr + 65536 * ushort mem (addr + 2)

/-- `sizeof(struct mp)` and `sizeof(struct mpconf)`. -/
abbrev mpSize : Nat := 16
abbrev mpconfSize : Nat := 44

/-- `mpsearch1`. -/
def mpsearch1 (mem : Memory) (a len : Nat) : Option Nat :=
  ((List.range ((len + (mpSize - 1)) / mpSize)).map fun i => a + mpSize * i).find? fun p =>
    signature mem p = [95, 77, 80, 95] && sum mem p mpSize = 0

/-- `mpsearch`; the `uint` in front of address 0 is at the end of the addresses. -/
def mpsearch (mem : Memory) : Option Nat :=
  let ebda := 16 * ushort mem 0x40E
  let base := 1024 * ushort mem 0x413
  (if ebda ≠ 0 then mpsearch1 mem ebda 1024
    else mpsearch1 mem ((base + 4294967296 - 1024) % 4294967296) 1024).or
      (mpsearch1 mem 0xF0000 0x10000)

/-- `mpconfig`: the `struct mp` and the table. -/
def mpconfig (mem : Memory) : Option (Nat × Nat) :=
  (mpsearch mem).bind fun mp =>
    let conf := uint mem (mp + 4)
    if conf = 0 then none
    else if signature mem conf ≠ [80, 67, 77, 80] then none
    else if mem (conf + 6) ≠ 1 ∧ mem (conf + 6) ≠ 4 then none
    else if sum mem conf (ushort mem (conf + 4)) ≠ 0 then none
    else some (mp, conf)

/-- What the loop of `mpinit` changes. -/
structure Walk where
  p : Nat
  ncpu : Nat
  apicid : Nat → UInt8
  ioapicid : UInt8
  ismp : Bool

/-- The body of the loop.  The `break` of the default case ends the `switch` only. -/
def Walk.next (mem : Memory) (w : Walk) : Walk :=
  match mem w.p with
  | 0 =>
      if w.ncpu < Xv6.ncpu then
        { w with
          p := w.p + 20
          ncpu := w.ncpu + 1
          apicid := Function.update w.apicid w.ncpu (mem (w.p + 1)) }
      else { w with p := w.p + 20 }
  | 2 => { w with p := w.p + 8, ioapicid := mem (w.p + 1) }
  | 1 => { w with p := w.p + 8 }
  | 3 => { w with p := w.p + 8 }
  | 4 => { w with p := w.p + 8 }
  | _ => { w with ismp := false }

/-- So many rounds of the loop; `none` if it has not ended then. -/
def walk (mem : Memory) (e : Nat) : Nat → Walk → Option Walk
  | 0, _ => none
  | rounds + 1, w => if w.p < e then walk mem e rounds (w.next mem) else some w

inductive Ended where
  /-- `panic("Expect to run on an SMP")`. -/
  | noSmp
  /-- `panic("Didn't find a suitable machine")`. -/
  | unsuitable (w : Walk)
  /-- With `lapic`, and whether the IMCR is selected. -/
  | done (w : Walk) (lapic : Nat) (imcr : Bool)

/-- The first entry, and the end of the table. -/
def first (conf : Nat) : Nat := conf + mpconfSize
def limit (mem : Memory) (conf : Nat) : Nat := conf + ushort mem (conf + 4)

/-- `mpinit`, with the globals it finds. -/
def mpinit (mem : Memory) (apicid : Nat → UInt8) (ioapicid : UInt8) (rounds : Nat) :
    Option Ended :=
  match mpconfig mem with
  | none => some .noSmp
  | some (mp, conf) =>
      (walk mem (limit mem conf) rounds ⟨first conf, 0, apicid, ioapicid, true⟩).map fun w =>
        if w.ismp then .done w (uint mem (conf + 36)) (mem (mp + 12) ≠ 0) else .unsuitable w

def Ended.walk : Ended → Option Walk
  | .noSmp => none
  | .unsuitable w => some w
  | .done w _ _ => some w

/-! ## The entries -/

/-- The size of an entry of a known type. -/
def entrySize : UInt8 → Option Nat
  | 0 => some 20
  | 1 => some 8
  | 2 => some 8
  | 3 => some 8
  | 4 => some 8
  | _ => none

/-- The entry at `q` is reached from `p`. -/
inductive Reaches (mem : Memory) (e : Nat) : Nat → Nat → Prop where
  | here {p} : p < e → Reaches mem e p p
  | later {p q size} : p < e → entrySize (mem p) = some size → Reaches mem e (p + size) q →
      Reaches mem e p q

/-- The walk over the table ends, with no more than `NCPU` processors, and in the panic exactly if
it has reached an entry of an unknown type. -/
def Ends (mem : Memory) (conf : Nat) (apicid : Nat → UInt8) (ioapicid : UInt8) : Prop :=
  ∃ rounds ended w, mpinit mem apicid ioapicid rounds = some ended ∧ ended.walk = some w ∧
    w.ncpu ≤ Xv6.ncpu ∧ (ended = .unsuitable w ↔
      ∃ q, Reaches mem (limit mem conf) (first conf) q ∧ entrySize (mem q) = none)

variable {mem : Memory} {e rounds mp conf size : Nat} {w w' : Walk}

theorem entrySize_eq_some {type : UInt8} (known : entrySize type = some size) :
    (type = 0 ∧ size = 20) ∨ (type = 1 ∧ size = 8) ∨ (type = 2 ∧ size = 8) ∨
      (type = 3 ∧ size = 8) ∨ (type = 4 ∧ size = 8) := by
  unfold entrySize at known
  split at known
  all_goals
    cases known
    try decide

/-- An entry of a known type is passed. -/
theorem Walk.next_known (known : entrySize (mem w.p) = some size) :
    (w.next mem).p = w.p + size ∧ (w.next mem).ismp = w.ismp := by
  unfold next
  obtain ⟨type, rfl⟩ | ⟨type, rfl⟩ | ⟨type, rfl⟩ | ⟨type, rfl⟩ | ⟨type, rfl⟩ :=
    entrySize_eq_some known
  · rw [type]
    change (ite _ _ _ : Walk).p = _ ∧ (ite (w.ncpu < Xv6.ncpu) _ _ : Walk).ismp = _
    split
    · exact ⟨rfl, rfl⟩
    · exact ⟨rfl, rfl⟩
  all_goals
    rw [type]
    exact ⟨rfl, rfl⟩

/-- One of an unknown type is not. -/
theorem Walk.next_unknown (unknown : entrySize (mem w.p) = none) :
    w.next mem = { w with ismp := false } := by
  unfold next
  split
  case h_6 => rfl
  all_goals
    next type =>
      rw [type] at unknown
      cases unknown

theorem Walk.next_ncpu (room : w.ncpu ≤ Xv6.ncpu) : (w.next mem).ncpu ≤ Xv6.ncpu := by
  unfold next
  split
  · split
    · next more => exact more
    · exact room
  all_goals exact room

theorem walk_ncpu (room : w.ncpu ≤ Xv6.ncpu) (ran : walk mem e rounds w = some w') :
    w'.ncpu ≤ Xv6.ncpu := by
  induction rounds generalizing w with
  | zero => cases ran
  | succ rounds ih =>
      rw [walk] at ran
      split at ran
      · exact ih (Walk.next_ncpu room) ran
      · exact Option.some.inj ran ▸ room

/-- The walk stays at an entry of an unknown type. -/
theorem walk_stuck {q : Nat} (reached : Reaches mem e w.p q)
    (unknown : entrySize (mem q) = none) : walk mem e rounds w = none := by
  induction rounds generalizing w with
  | zero => rfl
  | succ rounds ih =>
      rw [walk]
      cases reached with
      | here inside =>
          rw [if_pos inside, Walk.next_unknown unknown]
          exact ih (w := { w with ismp := false }) (.here inside)
      | @later _ _ size inside known rest =>
          rw [if_pos inside]
          apply ih
          rw [(Walk.next_known known).1]
          exact rest

/-- Without one, it ends. -/
theorem exists_walk
    (known : ∀ q, Reaches mem e w.p q → entrySize (mem q) ≠ none) :
    ∃ rounds w', walk mem e rounds w = some w' ∧ w'.ismp = w.ismp := by
  induction left : e - w.p using Nat.strongRecOn generalizing w with
  | ind left' ih =>
      by_cases inside : w.p < e
      · cases type : entrySize (mem w.p) with
        | none => exact absurd type (known w.p (.here inside))
        | some size =>
            obtain ⟨moves, keeps⟩ := Walk.next_known type
            have positive : 0 < size := by
              rcases entrySize_eq_some type with
                ⟨-, rfl⟩ | ⟨-, rfl⟩ | ⟨-, rfl⟩ | ⟨-, rfl⟩ | ⟨-, rfl⟩
              all_goals decide
            obtain ⟨rounds, w', ran, same⟩ := @ih (e - (w.next mem).p) (by omega) (w.next mem)
              (fun q reached => known q (.later inside type (moves ▸ reached))) rfl
            refine ⟨rounds + 1, w', ?_, same.trans keeps⟩
            rw [walk, if_pos inside]
            exact ran
      · exact ⟨1, w, if_neg inside, rfl⟩

/-- `mpinit` does what it is to do exactly where the walk over the table meets no entry of an
unknown type. -/
theorem mpinit_ends_iff (mem : Memory) (mp conf : Nat) (apicid : Nat → UInt8) (ioapicid : UInt8)
    (accepted : mpconfig mem = some (mp, conf)) : Ends mem conf apicid ioapicid ↔
      ∀ q, Reaches mem (limit mem conf) (first conf) q → entrySize (mem q) ≠ none := by
  constructor
  · rintro ⟨rounds, ended, w, ran, -⟩ q reached unknown
    rw [mpinit, accepted] at ran
    obtain ⟨w', walked, -⟩ := Option.map_eq_some_iff.mp ran
    rw [walk_stuck (w := ⟨first conf, 0, apicid, ioapicid, true⟩) reached unknown] at walked
    cases walked
  · intro known
    obtain ⟨rounds, w, walked, same⟩ :=
      @exists_walk mem (limit mem conf) ⟨first conf, 0, apicid, ioapicid, true⟩ known
    have ran : mpinit mem apicid ioapicid rounds =
        some (.done w (uint mem (conf + 36)) (mem (mp + 12) ≠ 0)) := by
      rw [mpinit, accepted]
      dsimp only
      rw [walked, Option.map_some, same]
      rfl
    refine ⟨rounds, _, w, ran, rfl, walk_ncpu (Nat.zero_le _) walked, iff_of_false nofun ?_⟩
    rintro ⟨q, reached, unknown⟩
    exact known q reached unknown

/-- A memory with a `struct mp` in the EBDA and behind it a table with this header and entries. -/
def sampleMemory (checksum : UInt8) (length : UInt8) (entries : List UInt8) : Memory := fun a =>
  if a = 0x40E then 0x10
  else if a < 0x100 then 0
  else ([95, 77, 80, 95, 0x10, 1, 0, 0, 1, 4, 143, 0, 0, 0, 0, 0] ++
    ([80, 67, 77, 80, length, 0, 4, checksum] ++ List.replicate 36 0) ++ entries).getD (a - 0x100) 0

/-- With one processor, the walk ends. -/
theorem mpinit_ends_iff_one_processor :
    Ends (sampleMemory 140 64 (List.replicate 20 0)) 0x110 (fun _ => 0) 0 ↔
      ∀ q, Reaches (sampleMemory 140 64 (List.replicate 20 0))
        (limit (sampleMemory 140 64 (List.replicate 20 0)) 0x110) (first 0x110) q →
          entrySize (sampleMemory 140 64 (List.replicate 20 0) q) ≠ none :=
  mpinit_ends_iff _ 0x100 0x110 _ _ (by decide +kernel)

/-- A table of one entry, of type 5: no number of rounds ends the walk. -/
theorem unknown_entry_never_ends :
    mpconfig (sampleMemory 154 45 [5]) = some (0x100, 0x110) ∧
      (∀ rounds, mpinit (sampleMemory 154 45 [5]) (fun _ => 0) 0 rounds = none) ∧
      ¬ Ends (sampleMemory 154 45 [5]) 0x110 (fun _ => 0) 0 := by
  have accepted : mpconfig (sampleMemory 154 45 [5]) = some (0x100, 0x110) := by decide +kernel
  have reached : Reaches (sampleMemory 154 45 [5]) (limit (sampleMemory 154 45 [5]) 0x110)
      (first 0x110) (first 0x110) := .here (by decide)
  have never : ∀ rounds, mpinit (sampleMemory 154 45 [5]) (fun _ => 0) 0 rounds = none := by
    intro rounds
    rw [mpinit, accepted]
    dsimp only
    rw [walk_stuck (w := ⟨first 0x110, 0, fun _ => 0, 0, true⟩) reached (by decide)]
    rfl
  refine ⟨accepted, never, ?_⟩
  rintro ⟨rounds, ended, w, ran, -⟩
  rw [never] at ran
  cases ran

end SlabStudy.Xv6.Mp
