import Mathlib.Algebra.Order.BigOperators.Group.Multiset
import Mathlib.Tactic.Abel
import SlabStudy.Library.Ledger
import SlabStudy.Xv6.PhysMem

/-!
# Two-level page tables

A page directory owns the page it is stored in and its page tables; a page
table owns its page, and below `KERNBASE` also the pages its present entries
map.  Entries are kept as typed values instead of words in physical memory:
the kernel reads and writes them only through `walkpgdir`.
-/

namespace SlabStudy.Xv6

/-- A page-table entry, split into `PTE_ADDR` and `PTE_FLAGS`. -/
structure Pte where
  addr : Frame
  flags : Flags
  deriving DecidableEq

namespace Pte

/-- The zero word. -/
def zero : Pte := ⟨0, 0⟩

def present (pte : Pte) : Bool := pte.flags &&& pteP != 0

def user (pte : Pte) : Bool := pte.flags &&& pteU != 0

@[simp] theorem zero_present : zero.present = false := rfl

theorem pteP_getLsbD (i : Nat) : pteP.getLsbD i = decide (i = 0) := by
  simp [pteP, BitVec.getLsbD_one]

/-- The present flag is bit zero. -/
theorem present_iff (pte : Pte) : pte.present = true ↔ pte.flags.getLsbD 0 = true := by
  rw [present, bne_iff_ne, ne_eq, not_iff_comm]
  constructor
  · intro clear
    apply BitVec.eq_of_getLsbD_eq
    intro i _
    rw [BitVec.getLsbD_and, pteP_getLsbD]
    by_cases first : i = 0
    · subst first
      rw [Bool.eq_false_of_not_eq_true clear]
      rfl
    · simp [first]
  · intro zero set
    have bit := congrArg (BitVec.getLsbD · 0) zero
    simp only [BitVec.getLsbD_and, pteP_getLsbD, set] at bit
    simp at bit

@[simp] theorem present_or_pteP (addr : Frame) (perm : Flags) :
    (Pte.mk addr (perm ||| pteP)).present = true := by
  rw [present_iff, BitVec.getLsbD_or, pteP_getLsbD]
  simp

/-- Setting the present bit of a present entry changes nothing. -/
theorem flags_or_pteP {pte : Pte} (present : pte.present = true) :
    pte.flags ||| pteP = pte.flags := by
  apply BitVec.eq_of_getLsbD_eq
  intro i _
  rw [BitVec.getLsbD_or, pteP_getLsbD]
  by_cases first : i = 0
  · subst first
    rw [(present_iff pte).mp present]
    rfl
  · simp [first]

/-- The page an entry maps, if it is present. -/
def frames (pte : Pte) : Multiset Frame := if pte.present then {pte.addr} else 0

@[simp] theorem zero_frames : zero.frames = 0 := rfl

end Pte

/-- A page of page-table entries. -/
structure PgTab where
  frame : Frame
  pte : Fin nptentries → Pte

/-- A freshly cleared page table. -/
def PgTab.empty (frame : Frame) : PgTab := ⟨frame, fun _ => Pte.zero⟩

/-- What entry `i` of a page directory owns; entries from 512 on map the kernel. -/
def PgTab.frames (i : Fin npdentries) : Option PgTab → Multiset Frame
  | none => 0
  | some tab => {tab.frame} + if i.val < 512 then ∑ j, (tab.pte j).frames else 0

@[simp] theorem PgTab.frames_none (i : Fin npdentries) : PgTab.frames i none = 0 := rfl

theorem PgTab.frames_user {i : Fin npdentries} (user : i.val < 512) (tab : PgTab) :
    PgTab.frames i (some tab) = {tab.frame} + ∑ j, (tab.pte j).frames := by
  simp [PgTab.frames, user]

/-- A page directory.  Its present entries are all marked writeable and user. -/
structure Pgdir where
  frame : Frame
  pde : Fin npdentries → Option PgTab

namespace Pgdir

/-- All pages a page directory owns. -/
def frames (d : Pgdir) : Multiset Frame := {d.frame} + ∑ i, PgTab.frames i (d.pde i)

theorem frames_eq (d : Pgdir) :
    d.frames = {d.frame} + ∑ i, PgTab.frames i (d.pde i) := rfl

-- unfolding the sum over a thousand entries during elaboration is never wanted
attribute [irreducible] frames

/-- The entry for `va`, if its page table exists. -/
def pte? (d : Pgdir) (va : Nat) : Option Pte :=
  (d.pde (pdx va)).map fun tab => tab.pte (ptx va)

/-- The entry for `va`, if it is present. -/
def lookup (d : Pgdir) (va : Nat) : Option Pte := (d.pte? va).filter Pte.present

/-- Store through the pointer that `walkpgdir` returned. -/
def setPte (d : Pgdir) (va : Nat) (pte : Pte) : Pgdir :=
  { d with
    pde := Function.update d.pde (pdx va) ((d.pde (pdx va)).map fun tab =>
      { tab with pte := Function.update tab.pte (ptx va) pte }) }

/-- Enter a new page table for `va`. -/
def addTable (d : Pgdir) (va : Nat) (frame : Frame) : Pgdir :=
  { d with pde := Function.update d.pde (pdx va) (some (PgTab.empty frame)) }

/-! ## Looking entries up after an update -/

theorem lookup_eq_some_iff {d : Pgdir} {va : Nat} {pte : Pte} :
    d.lookup va = some pte ↔ d.pte? va = some pte ∧ pte.present = true := by
  simp [lookup, Option.filter_eq_some_iff]

theorem lookup_eq_none_of_pte? {d : Pgdir} {va : Nat} (missing : d.pte? va = none) :
    d.lookup va = none := by
  simp [lookup, missing]

/-- Looking an address up depends on its page only. -/
theorem lookup_congr (d : Pgdir) {va vb : Nat} (left : va < 2 ^ 32) (right : vb < 2 ^ 32)
    (page : va / pgsize = vb / pgsize) : d.lookup va = d.lookup vb := by
  obtain ⟨dir, tab⟩ := (same_entry_iff left right).mpr page
  simp only [lookup, pte?, dir, tab]

theorem pte?_setPte_self {d : Pgdir} {va : Nat} {old : Pte} (new : Pte)
    (found : d.pte? va = some old) : (d.setPte va new).pte? va = some new := by
  unfold pte? at found
  obtain ⟨tab, atDir, _⟩ := Option.map_eq_some_iff.mp found
  simp [pte?, setPte, atDir]

theorem pte?_setPte_other {d : Pgdir} {va vb : Nat} (new : Pte) (left : va < 2 ^ 32)
    (right : vb < 2 ^ 32) (apart : va / pgsize ≠ vb / pgsize) :
    (d.setPte va new).pte? vb = d.pte? vb := by
  unfold pte? setPte
  by_cases dir : pdx vb = pdx va
  · have tab : ptx vb ≠ ptx va := by
      intro tab
      exact apart ((same_entry_iff left right).mp ⟨dir.symm, tab.symm⟩)
    cases atDir : d.pde (pdx va) with
    | none => simp [dir, atDir]
    | some table => simp [dir, atDir, tab]
  · simp [dir]

/-- Storing a present entry shows at its own page and nowhere else. -/
theorem lookup_setPte {d : Pgdir} {va vb : Nat} {old new : Pte} (left : va < 2 ^ 32)
    (right : vb < 2 ^ 32) (found : d.pte? va = some old) :
    (d.setPte va new).lookup vb =
      if vb / pgsize = va / pgsize then (some new).filter Pte.present else d.lookup vb := by
  by_cases page : vb / pgsize = va / pgsize
  · rw [if_pos page, lookup_congr _ right left page, lookup, pte?_setPte_self new found]
  · rw [if_neg page, lookup, lookup, pte?_setPte_other new left right (Ne.symm page)]

/-- A new page table is empty, so it shows no present entry. -/
theorem lookup_addTable {d : Pgdir} {va : Nat} (frame : Frame)
    (missing : d.pde (pdx va) = none) (vb : Nat) :
    (d.addTable va frame).lookup vb = d.lookup vb := by
  by_cases dir : pdx vb = pdx va
  · simp [lookup, pte?, addTable, dir, missing, PgTab.empty]
  · simp [lookup, pte?, addTable, dir]

theorem pte?_addTable_self (d : Pgdir) (va : Nat) (frame : Frame) :
    (d.addTable va frame).pte? va = some Pte.zero := by
  simp [pte?, addTable, PgTab.empty]

/-! ## What the updates do to the owned pages -/

theorem setPte_frames {d : Pgdir} {va : Nat} {old : Pte} (new : Pte) (user : va < kernbase)
    (found : d.pte? va = some old) :
    (d.setPte va new).frames + old.frames = d.frames + new.frames := by
  unfold pte? at found
  obtain ⟨tab, atDir, rfl⟩ := Option.map_eq_some_iff.mp found
  have below : (pdx va).val < 512 :=
    (pdx_lt_iff (Nat.lt_trans user (by decide))).mpr user
  have inner := Library.sum_holding_update (fun _ => Pte.frames) tab.pte (ptx va) new
  have outer := Library.sum_holding_update PgTab.frames d.pde (pdx va)
    (some { tab with pte := Function.update tab.pte (ptx va) new })
  rw [atDir, PgTab.frames_user below, PgTab.frames_user below] at outer
  rw [frames_eq, frames_eq]
  simp only [setPte, atDir, Option.map_some]
  -- the table's own page and the other entries cancel on both sides
  generalize ∑ i, PgTab.frames i (Function.update d.pde (pdx va) _ i) = after at outer ⊢
  generalize ∑ i, PgTab.frames i (d.pde i) = before at outer ⊢
  generalize ∑ j, (Function.update tab.pte (ptx va) new j).frames = entriesAfter at inner outer
  generalize ∑ j, (tab.pte j).frames = entries at inner outer
  have key : after + (tab.pte (ptx va)).frames + ({tab.frame} + entries) =
      before + new.frames + ({tab.frame} + entries) := by
    calc after + (tab.pte (ptx va)).frames + ({tab.frame} + entries)
        = after + ({tab.frame} + entries) + (tab.pte (ptx va)).frames := by abel
      _ = before + ({tab.frame} + entriesAfter) + (tab.pte (ptx va)).frames := by rw [outer]
      _ = before + {tab.frame} + (entriesAfter + (tab.pte (ptx va)).frames) := by abel
      _ = before + {tab.frame} + (entries + new.frames) := by rw [inner]
      _ = before + new.frames + ({tab.frame} + entries) := by abel
  have cancelled := add_right_cancel key
  rw [add_assoc, cancelled, add_assoc]

theorem setPte_frames_kernel {d : Pgdir} {va : Nat} (new : Pte) (bound : va < 2 ^ 32)
    (kernel : kernbase ≤ va) : (d.setPte va new).frames = d.frames := by
  have above : ¬ (pdx va).val < 512 := fun below =>
    Nat.not_lt.mpr kernel ((pdx_lt_iff bound).mp below)
  have same : ∀ i, PgTab.frames i ((d.setPte va new).pde i) = PgTab.frames i (d.pde i) := by
    intro i
    by_cases dir : i = pdx va
    · subst dir
      cases atDir : d.pde (pdx va) with
      | none => simp [setPte, atDir]
      | some tab => simp only [setPte, atDir, Option.map_some, Function.update_self,
          PgTab.frames, above, if_false]
    · simp [setPte, dir]
  rw [frames_eq, frames_eq]
  simp only [same]
  rfl

theorem addTable_frames {d : Pgdir} {va : Nat} (frame : Frame)
    (missing : d.pde (pdx va) = none) :
    (d.addTable va frame).frames = d.frames + {frame} := by
  have traded := Library.sum_holding_update PgTab.frames d.pde (pdx va)
    (some (PgTab.empty frame))
  have fresh : PgTab.frames (pdx va) (some (PgTab.empty frame)) = {frame} := by
    simp [PgTab.frames, PgTab.empty]
  rw [missing, fresh, PgTab.frames_none, add_zero] at traded
  rw [frames_eq, frames_eq]
  simp only [addTable]
  rw [traded, add_assoc]

/-- A present user entry maps a page of the directory. -/
theorem addr_mem_frames {d : Pgdir} {va : Nat} {pte : Pte} (user : va < kernbase)
    (found : d.lookup va = some pte) : pte.addr ∈ d.frames := by
  have entry := lookup_eq_some_iff.mp found
  have traded := setPte_frames Pte.zero user entry.1
  rw [Pte.zero_frames, add_zero] at traded
  rw [← traded]
  simp [Pte.frames, entry.2]

end Pgdir

end SlabStudy.Xv6
