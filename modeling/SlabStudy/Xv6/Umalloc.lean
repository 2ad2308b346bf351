import Mathlib.Order.CompletePartialOrder
import SlabStudy.Library.Runs
import SlabStudy.Xv6.Growproc

/-!
# malloc and free

The allocator of `umalloc.c`, which the programs of the user level link.  The
free list is circular, in the order of addresses, and starts at the static
header `base`; the memory is seen as the headers stored in it.  A call that
would walk the list forever has no result.
-/

namespace SlabStudy.Xv6.Umalloc

open Library

/-! ## sbrk -/

/-- Conversion of a `uint` to `int`. -/
def toInt (u : Nat) : Int := if u < 2 ^ 31 then u else u - 2 ^ 32

/-- What `growproc(n)` gets from `allocuvm` or `deallocuvm`, if there are enough pages. -/
def newSize (sz : Nat) (n : Int) : Nat :=
  let newsz := uint (sz + n)
  if 0 < n then if kernbase ≤ newsz then 0 else if newsz < sz then sz else newsz
  else if sz ≤ newsz then sz else newsz

/-- The size of a process after a successful `growproc(n)`; 0 from either function is a failure. -/
def resized (sz : Nat) (n : Int) : Option Nat :=
  if n = 0 then some sz else if newSize sz n = 0 then none else some (newSize sz n)

/-- `growproc` of the kernel sets this size. -/
theorem resized_of_growproc {ld : Linkage} {s s' : Kernel} {p : Slot} {d : Pgdir} {n : Int}
    (own : (s.proc p).pgdir = some d) (owned : Owned ld s.kmem d)
    (ran : growproc ld s p n = .ok (0, s')) :
    resized (s.proc p).sz n = some (s'.proc p).sz := by
  unfold resized
  rcases growproc_eq_ok own ran with
    ⟨grow, result, km, d', grown, ended⟩ | ⟨shrink, result, km, d', shrunk, ended⟩ | ⟨rfl, _, rfl⟩
  · have same : newSize (s.proc p).sz n = result := by
      unfold newSize
      rw [if_pos grow]
      rcases allocuvm_cases owned grown with
        ⟨high, rfl, _⟩ | ⟨wraps, user, rfl, _⟩ | ⟨more, user, rfl, _⟩ | ⟨_, _, zero, _⟩
      · exact if_pos high
      · rw [if_neg (Nat.not_le.mpr user), if_pos wraps]
      · rw [if_neg (Nat.not_le.mpr user), if_neg (Nat.not_lt.mpr more)]
      · rcases growprocResize_eq_ok ended with ⟨_, fails, _⟩ | ⟨positive, _⟩
        · cases fails
        · exact absurd zero positive
    rcases growprocResize_eq_ok ended with ⟨_, fails, _⟩ | ⟨positive, _, rfl⟩
    · cases fails
    · rw [if_neg (ne_of_gt grow), same, if_neg positive, Kernel.modify_self]
  · have same : newSize (s.proc p).sz n = result := by
      unfold newSize
      rw [if_neg (not_lt.mpr (le_of_lt shrink))]
      unfold deallocuvm at shrunk
      split at shrunk
      · next wraps =>
        cases shrunk
        exact if_pos wraps
      · next less =>
        obtain ⟨_, _, last⟩ := Kern.bind_eq_ok.mp shrunk
        cases last
        exact if_neg less
    rcases growprocResize_eq_ok ended with ⟨_, fails, _⟩ | ⟨positive, _, rfl⟩
    · cases fails
    · rw [if_neg (ne_of_lt shrink), same, if_neg positive, Kernel.modify_self]
  · exact if_pos rfl

/-- `sbrk`: the old break and the new size; growing also needs the pages that `grants` gives. -/
def sbrk (grants : Nat → Int → Bool) (sz : Nat) (n : Int) : Option (Nat × Nat) :=
  if 0 < n ∧ grants sz n = false then none else (resized sz n).map fun newsz => (sz, newsz)

/-! ## umalloc.c -/

/-- `union header`; a pointer is the address it holds, 0 for none. -/
structure Header where
  ptr : Nat
  size : Nat
  deriving DecidableEq, Repr

/-- `sizeof(Header)` -/
abbrev headerSize : Nat := 8

/-- The pointer `p + n` to a header. -/
def plus (p n : Nat) : Nat := (p + n * headerSize) % 2 ^ 32

/-- The data of the allocator, and the size of the process. -/
structure Heap where
  /-- The address of the static `base`. -/
  base : Nat
  freep : Nat
  mem : Nat → Header
  sz : Nat

/-- A loop that has not ended after as many steps as there are addresses does not end. -/
def fuel : Nat := 2 ^ 32

namespace Heap

/-- `p->s.ptr = q` -/
def setPtr (h : Heap) (p q : Nat) : Heap :=
  { h with mem := Function.update h.mem p { h.mem p with ptr := q } }

/-- `p->s.size = n` -/
def setSize (h : Heap) (p n : Nat) : Heap :=
  { h with mem := Function.update h.mem p { h.mem p with size := n } }

/-- `bp` belongs behind `p`: the conditions that end the loop of `free`. -/
def between (h : Heap) (bp p : Nat) : Bool :=
  bp > p && bp < (h.mem p).ptr || p ≥ (h.mem p).ptr && (bp > p || bp < (h.mem p).ptr)

/-- The loop of `free`. -/
def freeLoop (h : Heap) (bp : Nat) : Nat → Nat → Option Nat
  | 0, _ => none
  | fuel + 1, p => if h.between bp p then some p else h.freeLoop bp fuel (h.mem p).ptr

/-- Join `bp` with the block in front of which it lies, or link it to this block. -/
def joinNext (h : Heap) (bp p : Nat) : Heap :=
  if plus bp (h.mem bp).size = (h.mem p).ptr then
    let h := h.setSize bp (((h.mem bp).size + (h.mem (h.mem p).ptr).size) % 2 ^ 32)
    h.setPtr bp (h.mem (h.mem p).ptr).ptr
  else h.setPtr bp (h.mem p).ptr

/-- Join `bp` with the block behind which it lies, or link this block to it. -/
def joinPrev (h : Heap) (bp p : Nat) : Heap :=
  if plus p (h.mem p).size = bp then
    let h := h.setSize p (((h.mem p).size + (h.mem bp).size) % 2 ^ 32)
    h.setPtr p (h.mem bp).ptr
  else h.setPtr p bp

def free (h : Heap) (ap : Nat) : Option Heap := do
  let bp := (ap + (2 ^ 32 - headerSize)) % 2 ^ 32
  let p ← h.freeLoop bp fuel h.freep
  some { (h.joinNext bp p).joinPrev bp p with freep := p }

/-- Ask the system for at least `nu` units; the pointer is 0 if it has none. -/
def morecore (grants : Nat → Int → Bool) (h : Heap) (nu : Nat) : Option (Nat × Heap) :=
  let nu := if nu < 4096 then 4096 else nu
  match sbrk grants h.sz (toInt (nu * headerSize % 2 ^ 32)) with
  | none => some (0, h)
  | some (hp, sz) => do
      let h ← ({ h with sz := sz }.setSize hp nu).free (plus hp 1)
      some (h.freep, h)

/-- Take `nunits` from the block `p` behind `prevp`, from its end. -/
def take (h : Heap) (prevp p nunits : Nat) : Nat × Heap :=
  if (h.mem p).size = nunits then
    (plus p 1, { h.setPtr prevp (h.mem p).ptr with freep := prevp })
  else
    let h := h.setSize p ((h.mem p).size - nunits)
    let p := plus p (h.mem p).size
    (plus p 1, { h.setSize p nunits with freep := prevp })

/-- The loop of `malloc`. -/
def mallocLoop (grants : Nat → Int → Bool) (nunits : Nat) :
    Nat → Heap → Nat → Nat → Option (Nat × Heap)
  | 0, _, _, _ => none
  | fuel + 1, h, prevp, p =>
      if (h.mem p).size ≥ nunits then some (h.take prevp p nunits)
      else if p = h.freep then do
        let (p, h) ← h.morecore grants nunits
        if p = 0 then some (0, h) else mallocLoop grants nunits fuel h p (h.mem p).ptr
      else mallocLoop grants nunits fuel h p (h.mem p).ptr

/-- The units that `malloc` looks for: the bytes rounded up, and a header. -/
def units (nbytes : Nat) : Nat := (nbytes + headerSize - 1) % 2 ^ 32 / headerSize + 1

def malloc (grants : Nat → Int → Bool) (h : Heap) (nbytes : Nat) : Option (Nat × Heap) :=
  let h := if h.freep = 0 then { h.setPtr h.base h.base with freep := h.base }.setSize h.base 0 else h
  mallocLoop grants (units nbytes) fuel h h.freep (h.mem h.freep).ptr

end Heap

/-! ## A program -/

/-- The heap of a program, and the results of `malloc` it has not freed, with the bytes asked for. -/
structure Program where
  heap : Heap
  allocs : List (Nat × Nat)

/-- Two ranges of bytes that have none in common. -/
def Apart (p n q m : Nat) : Prop := p + n ≤ q ∨ q + m ≤ p

instance (p n q m : Nat) : Decidable (Apart p n q m) := inferInstanceAs (Decidable (_ ∨ _))

/-- What a program does with its heap. -/
inductive Call where
  | malloc (nbytes : Nat) (grants : Nat → Int → Bool)
  | free (ap : Nat)
  /-- The program writes to the memory allocated to it. -/
  | write (mem : Nat → Header)

/-- The steps of a program that frees what is allocated, and writes only there. -/
def Program.step (s : Program) : Call → Program → Prop
  | .malloc nbytes grants, t => nbytes < 2 ^ 32 ∧ ∃ p heap,
      s.heap.malloc grants nbytes = some (p, heap) ∧
        t = ⟨heap, if p = 0 then s.allocs else (p, nbytes) :: s.allocs⟩
  | .free ap, t => ∃ nbytes heap, (ap, nbytes) ∈ s.allocs ∧ s.heap.free ap = some heap ∧
      t = ⟨heap, s.allocs.erase (ap, nbytes)⟩
  | .write mem, t => (∀ a, (∀ x ∈ s.allocs, Apart x.1 x.2 a headerSize) → mem a = s.heap.mem a) ∧
      t = { s with heap := { s.heap with mem := mem } }

/-- A program that has not called `malloc`; its size includes `base`. -/
structure Program.Initial (s : Program) : Prop where
  freep : s.heap.freep = 0
  allocs : s.allocs = []
  base : 0 < s.heap.base
  loaded : s.heap.base + headerSize ≤ s.heap.sz
  user : s.heap.sz < kernbase

def mallocSystem : System Program Call := ⟨Program.Initial, Program.step⟩

/-- The header at which `n` links of the free list lead from `freep`. -/
def Heap.listed (h : Heap) (n : Nat) : Nat := (fun p => (h.mem p).ptr)^[n] h.freep

/-- The allocated ranges are memory from `sbrk`, and nothing else uses them. -/
structure Program.Exclusive (s : Program) (start : Nat) : Prop where
  inside : ∀ x ∈ s.allocs, start ≤ x.1 ∧ x.1 + x.2 ≤ s.heap.sz
  apart : s.allocs.Pairwise fun x y => Apart x.1 x.2 y.1 y.2
  headers : s.heap.freep ≠ 0 → ∀ x ∈ s.allocs, ∀ n, Apart x.1 x.2 (s.heap.listed n) headerSize

end SlabStudy.Xv6.Umalloc
