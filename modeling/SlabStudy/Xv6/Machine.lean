import Mathlib.Algebra.Ring.Int.Defs
import Mathlib.Algebra.Ring.Nat
import Mathlib.Data.Fin.Basic
import Mathlib.Data.List.Nodup
import Mathlib.Tactic.Common

/-!
# Constants, addresses and panics

The numbers of `param.h`, `memlayout.h`, `mmu.h` and `proc.h`, the address
macros that the memory code uses, and the reasons for which the kernel stops.
Virtual addresses are natural numbers below `2 ^ 32`; every place where the
source relies on wrap-around of `uint` reduces explicitly.
-/

namespace SlabStudy.Xv6

/-! ## param.h and proc.h -/

/-- Maximum number of processes. -/
abbrev nproc : Nat := 64
/-- Maximum number of CPUs. -/
abbrev ncpu : Nat := 8
/-- Open files per process. -/
abbrev nofile : Nat := 16

abbrev highprio : Int := 10
abbrev lowprio : Int := -10

instance : NeZero nproc := ⟨by decide⟩

/-! ## memlayout.h -/

abbrev extmem : Nat := 0x100000
abbrev phystop : Nat := 0xE000000
abbrev devspace : Nat := 0xFE000000
abbrev kernbase : Nat := 0x80000000
abbrev kernlink : Nat := kernbase + extmem
abbrev stackbase : Nat := kernbase - 1

/-! ## mmu.h -/

abbrev npdentries : Nat := 1024
abbrev nptentries : Nat := 1024
abbrev pgsize : Nat := 4096

instance : NeZero pgsize := ⟨by decide⟩

/-- The low twelve bits of a page-table entry. -/
abbrev Flags := BitVec 12

/-- Present. -/
def pteP : Flags := 0x001
/-- Writeable. -/
def pteW : Flags := 0x002
/-- User. -/
def pteU : Flags := 0x004

/-- Conversion to the 32-bit `uint`. -/
def uint (value : Int) : Nat := (value % 2 ^ 32).toNat

/-- `PGROUNDUP`, with the wrap-around of its addition. -/
def pgRoundUp (sz : Nat) : Nat := (sz + pgsize - 1) % 2 ^ 32 / pgsize * pgsize

/-- `PGROUNDDOWN`. -/
def pgRoundDown (a : Nat) : Nat := a / pgsize * pgsize

/-- Page-directory index of an address. -/
def pdx (va : Nat) : Fin npdentries := Fin.ofNat npdentries (va / 2 ^ 22)

/-- Page-table index of an address. -/
def ptx (va : Nat) : Fin nptentries := Fin.ofNat nptentries (va / 2 ^ 12)

/--
The addresses visited by `for(; a < limit; a += PGSIZE)`.  No caller brings
`limit` near `2 ^ 32`, so the loop variable does not wrap.
-/
def pageAddrs (a limit : Nat) : List Nat :=
  (List.range ((limit - a + pgsize - 1) / pgsize)).map fun k => a + pgsize * k

/-- The calls of `panic`, and the wild accesses of early boot. -/
inductive Panic where
  | kfree
  | remap
  | phystopTooHigh
  | inituvmSize
  | freevmNoPgdir
  | copyuvmNoPte
  | copyuvmNotPresent
  | loaduvmAligned
  | loaduvmMissing
  | switchuvmNoKstack
  | switchuvmNoPgdir
  | userinitNoMemory
  | initExiting
  | stackOverflow
  | trap
  | nullPointer
  deriving DecidableEq, Repr

/-- The text that is printed before the machine stops. -/
def Panic.message : Panic → String
  | .kfree => "kfree"
  | .remap => "remap"
  | .phystopTooHigh => "PHYSTOP too high"
  | .inituvmSize => "inituvm: more than a page"
  | .freevmNoPgdir => "freevm: no pgdir"
  | .copyuvmNoPte => "copyuvm: pte should exist"
  | .copyuvmNotPresent => "copyuvm: page not present"
  | .loaduvmAligned => "loaduvm: addr must be page aligned"
  | .loaduvmMissing => "loaduvm: address should exist"
  | .switchuvmNoKstack => "switchuvm: no kstack"
  | .switchuvmNoPgdir => "switchuvm: no pgdir"
  | .userinitNoMemory => "userinit: out of memory?"
  | .initExiting => "init exiting"
  | .stackOverflow => " stack overflow\n"
  | .trap => "trap"
  | .nullPointer => ""

/-- Outcome of kernel code that may stop the machine. -/
abbrev Kern (α : Type) := Except Panic α

/--
The two symbols that `kernel.ld` provides and the memory code reads: the page
aligned start of the data segment, and the first address behind the kernel.
-/
structure Linkage where
  data : Nat
  endAddr : Nat
  data_aligned : data % pgsize = 0
  kernlink_lt_data : kernlink < data
  data_le_end : data ≤ endAddr
  end_lt : endAddr < kernbase + phystop

/-! ## Page arithmetic -/

theorem pgRoundUp_mod (sz : Nat) : pgRoundUp sz % pgsize = 0 := by
  simp [pgRoundUp]

theorem le_pgRoundUp {sz : Nat} (bound : sz ≤ kernbase) : sz ≤ pgRoundUp sz := by
  unfold pgRoundUp pgsize
  simp only [kernbase] at bound
  omega

theorem pgRoundUp_lt {sz : Nat} (bound : sz ≤ kernbase) : pgRoundUp sz < sz + pgsize := by
  unfold pgRoundUp pgsize
  simp only [kernbase] at bound
  omega

theorem pgRoundUp_of_aligned {a : Nat} (aligned : a % pgsize = 0) (bound : a ≤ kernbase) :
    pgRoundUp a = a := by
  unfold pgRoundUp
  simp only [kernbase, pgsize] at *
  omega

/-- An aligned address lies below a limit as soon as it lies below its rounding. -/
theorem lt_pgRoundUp_iff {a sz : Nat} (aligned : a % pgsize = 0) (bound : sz ≤ kernbase) :
    a < pgRoundUp sz ↔ a < sz := by
  have lower := le_pgRoundUp bound
  have upper := pgRoundUp_lt bound
  have rounded := pgRoundUp_mod sz
  simp only [pgsize] at *
  omega

theorem pgRoundDown_mod (a : Nat) : pgRoundDown a % pgsize = 0 := by
  simp [pgRoundDown]

theorem mem_pageAddrs {a limit x : Nat} (aligned : a % pgsize = 0) :
    x ∈ pageAddrs a limit ↔ a ≤ x ∧ x < limit ∧ x % pgsize = 0 := by
  simp only [pageAddrs, List.mem_map, List.mem_range, pgsize] at *
  constructor
  · rintro ⟨k, small, rfl⟩
    omega
  · rintro ⟨low, high, multiple⟩
    exact ⟨(x - a) / 4096, by omega, by omega⟩

theorem pageAddrs_nodup (a limit : Nat) : (pageAddrs a limit).Nodup := by
  refine List.Nodup.map (fun first second same => ?_) List.nodup_range
  simp only [pgsize] at same
  omega

theorem pageAddrs_empty {a limit : Nat} (outside : limit ≤ a) : pageAddrs a limit = [] := by
  have none : (limit - a + pgsize - 1) / pgsize = 0 := by
    simp only [pgsize]
    omega
  rw [pageAddrs, none]
  rfl

theorem pageAddrs_cons {a limit : Nat} (inside : a < limit) :
    pageAddrs a limit = a :: pageAddrs (a + pgsize) limit := by
  have count : (limit - a + pgsize - 1) / pgsize =
      (limit - (a + pgsize) + pgsize - 1) / pgsize + 1 := by
    simp only [pgsize]
    omega
  rw [pageAddrs, count, List.range_succ_eq_map, List.map_cons, List.map_map, Nat.mul_zero,
    Nat.add_zero, pageAddrs]
  congr 1
  refine List.map_congr_left fun k _ => ?_
  simp only [Function.comp_apply, pgsize]
  omega

/-- Two addresses use the same page-table entry exactly when they share a page. -/
theorem same_entry_iff {a b : Nat} (left : a < 2 ^ 32) (right : b < 2 ^ 32) :
    pdx a = pdx b ∧ ptx a = ptx b ↔ a / pgsize = b / pgsize := by
  simp only [pdx, ptx, Fin.ofNat, Fin.mk.injEq, npdentries, nptentries, pgsize] at *
  omega

theorem pdx_lt_iff {va : Nat} (bound : va < 2 ^ 32) : (pdx va).val < 512 ↔ va < kernbase := by
  simp only [pdx, Fin.ofNat, npdentries, kernbase]
  omega

end SlabStudy.Xv6
