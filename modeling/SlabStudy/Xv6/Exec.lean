import SlabStudy.Xv6.Proc

/-!
# exec

Replacing the image of a process.  The new page directory is built beside the
old one: the segments of the file from address zero on, and one stack page
below `KERNBASE` with the arguments.  Whatever goes wrong before the commit,
the new directory is released and the process keeps its image.
-/

namespace SlabStudy.Xv6

/-- What `readi` stores at an offset, when it returns the length it was asked for. -/
abbrev Readi := Nat → Nat → Option (List UInt8)

/-! ## elf.h -/

/-- A little-endian word. -/
def leWord (bytes : List UInt8) (off : Nat) : Nat :=
  (bytes.getD off 0).toNat + 2 ^ 8 * (bytes.getD (off + 1) 0).toNat +
    2 ^ 16 * (bytes.getD (off + 2) 0).toNat + 2 ^ 24 * (bytes.getD (off + 3) 0).toNat

def wordBytes (word : Nat) : List UInt8 :=
  [.ofNat word, .ofNat (word / 2 ^ 8), .ofNat (word / 2 ^ 16), .ofNat (word / 2 ^ 24)]

def leHalf (bytes : List UInt8) (off : Nat) : Nat :=
  (bytes.getD off 0).toNat + 2 ^ 8 * (bytes.getD (off + 1) 0).toNat

abbrev elfMagic : Nat := 0x464C457F

/-- The fields of `struct elfhdr` that `exec` reads. -/
structure Elfhdr where
  magic : Nat
  entry : Nat
  phoff : Nat
  phnum : Nat

def Elfhdr.parse (bytes : List UInt8) : Elfhdr :=
  ⟨leWord bytes 0, leWord bytes 24, leWord bytes 28, leHalf bytes 44⟩

abbrev elfProgLoad : Nat := 1

/-- The fields of `struct proghdr` that `exec` reads. -/
structure Proghdr where
  type : Nat
  off : Nat
  vaddr : Nat
  filesz : Nat
  memsz : Nat

def Proghdr.parse (bytes : List UInt8) : Proghdr :=
  ⟨leWord bytes 0, leWord bytes 4, leWord bytes 8, leWord bytes 16, leWord bytes 20⟩

theorem leWord_lt (bytes : List UInt8) (off : Nat) : leWord bytes off < 2 ^ 32 := by
  unfold leWord
  have first := (bytes.getD off 0).toNat_lt
  have second := (bytes.getD (off + 1) 0).toNat_lt
  have third := (bytes.getD (off + 2) 0).toNat_lt
  have fourth := (bytes.getD (off + 3) 0).toNat_lt
  omega

/-! ## Stores into the pages of a directory -/

/-- `memmove` into a page, from `start` on. -/
def Kmem.store (km : Kmem) (frame : Frame) (start : Nat) (bytes : List UInt8) : Kmem :=
  { km with
    mem := Function.update km.mem frame fun i =>
      if start ≤ i.val ∧ i.val < start + bytes.length then bytes.getD (i.val - start) 0
      else km.mem frame i }

@[simp] theorem Kmem.store_freelist (km : Kmem) (frame : Frame) (start : Nat)
    (bytes : List UInt8) : (km.store frame start bytes).freelist = km.freelist := rfl

theorem Kmem.store_mem_of_ne (km : Kmem) {frame other : Frame} (start : Nat) (bytes : List UInt8)
    (apart : other ≠ frame) : (km.store frame start bytes).mem other = km.mem other :=
  Function.update_of_ne apart _ _

/-- The loop of `loaduvm` over the offsets of the pages; false for the result `-1`. -/
def loaduvmLoop (read : Readi) (d : Pgdir) (addr offset sz : Nat) :
    List Nat → Kmem → Kern (Bool × Kmem)
  | [], km => .ok (true, km)
  | i :: rest, km =>
      match walkpgdir km d ((addr + i) % 2 ^ 32) false with
      | none => .error .loaduvmMissing
      | some (pte, _, _) =>
          match read ((offset + i) % 2 ^ 32) (min (sz - i) pgsize) with
          | none => .ok (false, km)
          | some bytes =>
              loaduvmLoop read d addr offset sz rest (km.store pte.addr 0 (bytes.take pgsize))

/-- Load a program segment into pages that are mapped already. -/
def loaduvm (read : Readi) (d : Pgdir) (addr offset sz : Nat) (km : Kmem) : Kern (Bool × Kmem) :=
  if addr % pgsize ≠ 0 then .error .loaduvmAligned
  else loaduvmLoop read d addr offset sz (pageAddrs 0 sz) km

/-! ## Where a page table is missing -/

/-- The entry that a word stands for. -/
def Pte.ofWord (word : Nat) : Pte := ⟨BitVec.ofNat 20 (word / pgsize), BitVec.ofNat 12 word⟩

def Pte.word (pte : Pte) : Nat := pte.addr.toNat * pgsize + pte.flags.toNat

/-- The entry at offset `off` of its page, after a store of `bytes` from `start` on. -/
def Pte.struck (pte : Pte) (off start : Nat) (bytes : List UInt8) : Pte :=
  if start < off + 4 ∧ off < start + bytes.length then
    .ofWord (leWord ((wordBytes pte.word).mapIdx fun k byte =>
      if start ≤ off + k ∧ off + k < start + bytes.length then bytes.getD (off + k - start) 0
      else byte) 0)
  else pte

def PgTab.struck (tab : PgTab) (start : Nat) (bytes : List UInt8) : PgTab :=
  { tab with pte := fun j => (tab.pte j).struck (4 * j.val) start bytes }

/-- The second table has lost entries of the first one, and has no other than these. -/
def PgTab.Thinned (tab tab' : PgTab) : Prop :=
  ∀ j, (tab'.pte j).present = true → tab'.pte j = tab.pte j

instance (tab tab' : PgTab) : Decidable (tab.Thinned tab') :=
  inferInstanceAs (Decidable (∀ _, _))

/--
A store into the page `frame`, which may be any page of the machine.  It is
followed where it takes entries out of a page table of the directory.
-/
def Pgdir.strike (d : Pgdir) (frame : Frame) (start : Nat) (bytes : List UInt8) : Option Pgdir := do
  let i ← (List.finRange npdentries).find? fun i => (d.pde i).any fun tab => tab.frame == frame
  let tab ← d.pde i
  if tab.Thinned (tab.struck start bytes) then
    some { d with pde := Function.update d.pde i (some (tab.struck start bytes)) }
  else none

/--
Map a user address to its page.  Where the page table is missing, the entry is
read through the null pointer that `walkpgdir` returns: it is the word `null`
at the user address 0 of the running process, or none if that page is absent
and the kernel faults.
-/
def uva2ka (null : Option Pte) (d : Pgdir) (uva : Nat) : Kern (Option Frame) :=
  match (d.pte? uva).or null with
  | none => .error .nullPointer
  | some pte => .ok (if pte.present && pte.user then some pte.addr else none)

/-- `memmove` to the page that `uva2ka` has found for `uva`. -/
def copyInto (d : Pgdir) (uva : Nat) (frame : Frame) (start : Nat) (bytes : List UInt8)
    (km : Kmem) : Kern (Kmem × Pgdir) :=
  match d.pte? uva with
  | some _ => .ok (km.store frame start bytes, d)
  | none =>
      match d.strike frame start bytes with
      | some d => .ok (km, d)
      | none => .error .nullPointer

/-- Copy bytes to the user address `va` of a page directory; false for the result `-1`. -/
def copyout (null : Option Pte) (d : Pgdir) (va : Nat) (bytes : List UInt8) (km : Kmem) :
    Kern (Bool × Kmem × Pgdir) :=
  match bytes with
  | [] => .ok (true, km, d)
  | first :: rest => do
      match ← uva2ka null d (pgRoundDown va) with
      | none => .ok (false, km, d)
      | some frame =>
          let n := min (pgsize - va % pgsize) (rest.length + 1)
          let (km, d) ←
            copyInto d (pgRoundDown va) frame (va % pgsize) ((first :: rest).take n) km
          copyout null d ((pgRoundDown va + pgsize) % 2 ^ 32) ((first :: rest).drop n) km
termination_by bytes.length
decreasing_by
  have inside : va % pgsize < pgsize := Nat.mod_lt _ (by decide)
  simp only [List.length_drop, List.length_cons]
  omega

/-! ## exec -/

abbrev maxarg : Nat := 32

/-- The loop over the program headers: the size, or none for `goto bad`. -/
def execLoad (ld : Linkage) (read : Readi) :
    Nat → Nat → Nat → Kmem → Pgdir → Kern (Option Nat × Kmem × Pgdir)
  | 0, _, sz, km, d => .ok (some sz, km, d)
  | left + 1, off, sz, km, d =>
      match read off 32 with
      | none => .ok (none, km, d)
      | some bytes =>
          let ph := Proghdr.parse bytes
          if ph.type ≠ elfProgLoad then execLoad ld read left ((off + 32) % 2 ^ 32) sz km d
          else if ph.memsz < ph.filesz then .ok (none, km, d)
          else if (ph.vaddr + ph.memsz) % 2 ^ 32 < ph.vaddr then .ok (none, km, d)
          else do
            let (sz, km, d) ← allocuvm ld km d sz ((ph.vaddr + ph.memsz) % 2 ^ 32)
            if sz = 0 then .ok (none, km, d)
            else if ph.vaddr % pgsize ≠ 0 then .ok (none, km, d)
            else
              let (loaded, km) ← loaduvm read d ph.vaddr ph.off ph.filesz km
              if loaded then execLoad ld read left ((off + 32) % 2 ^ 32) sz km d
              else .ok (none, km, d)

/-- Push the argument strings: the stack pointer and `ustack[3..]`, or none for `goto bad`. -/
def pushArgs (null : Option Pte) :
    Pgdir → List (List UInt8) → Nat → List Nat → Kmem →
      Kern (Option (Nat × List Nat) × Kmem × Pgdir)
  | d, [], sp, ustack, km => .ok (some (sp, ustack), km, d)
  | d, arg :: rest, sp, ustack, km =>
      if maxarg ≤ ustack.length then .ok (none, km, d)
      else do
        let sp := (sp + 2 ^ 32 - (arg.length + 1) % 2 ^ 32) % 2 ^ 32 / 4 * 4
        let (copied, km, d) ← copyout null d sp (arg ++ [0]) km
        if copied then pushArgs null d rest sp (ustack ++ [sp]) km else .ok (none, km, d)

/-- The stack page with the arguments: the stack pointer, or none for `goto bad`. -/
def execStack (null : Option Pte) (ld : Linkage) (argv : List (List UInt8)) (km : Kmem)
    (d : Pgdir) : Kern (Option Nat × Kmem × Pgdir) := do
  let new := pgRoundUp (stackbase - pgsize)
  let (result, km, d) ← allocuvm ld km d new stackbase
  if result = 0 then .ok (none, km, d)
  else
    let (pushed, km, d) ← pushArgs null d argv stackbase [] km
    match pushed with
    | none => .ok (none, km, d)
    | some (sp, args) =>
        let argc := args.length
        let ustack := [0xffffffff, argc, (sp + 2 ^ 32 - (argc + 1) * 4) % 2 ^ 32] ++ args ++ [0]
        let sp := (sp + 2 ^ 32 - (3 + argc + 1) * 4) % 2 ^ 32
        let (copied, km, d) ← copyout null d sp (ustack.flatMap wordBytes) km
        .ok (if copied then some sp else none, km, d)

/-- The label `bad` once there is a new directory. -/
def execBad (ld : Linkage) (s : Kernel) (km : Kmem) (d : Pgdir) : Kern (Int × Kernel) := do
  let km ← freevm ld km (some d)
  return (-1, s.setKmem km)

/-- Commit to the user image and release the old one. -/
def execCommit (ld : Linkage) (s : Kernel) (p : Slot) (name : String) (entry sz sp : Nat)
    (km : Kmem) (d : Pgdir) : Kern (Int × Kernel) := do
  let old := (s.proc p).pgdir
  let s := s.modify p fun pr =>
    { pr with
      name := name
      pgdir := some d
      sz := sz
      stackPsize := 1
      tf := { pr.tf with eip := .ofNat entry, esp := .ofNat sp } }
  switchuvm (s.proc p)
  let km ← freevm ld km old
  return (0, s.setKmem km)

/-- The call, with the entry that it reads through the null pointer. -/
def execReading (null : Option Pte) (ld : Linkage) (file : Option Readi) (name : String)
    (argv : List (List UInt8)) (s : Kernel) (p : Slot) : Kern (Int × Kernel) :=
  match file with
  | none => .ok (-1, s)
  | some read =>
      match read 0 52 with
      | none => .ok (-1, s)
      | some bytes =>
          let elf := Elfhdr.parse bytes
          if elf.magic ≠ elfMagic then .ok (-1, s)
          else do
            let (made, km) ← setupkvm ld s.kmem
            match made with
            | none => .ok (-1, s.setKmem km)
            | some d =>
                let (loaded, km, d) ← execLoad ld read elf.phnum elf.phoff 0 km d
                match loaded with
                | none => execBad ld s km d
                | some sz =>
                    let (stacked, km, d) ← execStack null ld argv km d
                    match stacked with
                    | none => execBad ld s km d
                    | some sp => execCommit ld s p name elf.entry sz sp km d

/-- The entry that the word at user address 0 stands for; the call stores into no page that the
process has. -/
def Kernel.nullPte (s : Kernel) (p : Slot) : Option Pte :=
  ((s.proc p).pgdir.bind fun d => d.lookup 0).map fun page =>
    .ofWord (leWord ((List.range 4).map fun i => s.kmem.mem page.addr (Fin.ofNat pgsize i)) 0)

/-- Run the program `file`, none if its path leads nowhere, in process `p`. -/
def exec (ld : Linkage) (file : Option Readi) (name : String) (argv : List (List UInt8))
    (s : Kernel) (p : Slot) : Kern (Int × Kernel) :=
  execReading (s.nullPte p) ld file name argv s p

end SlabStudy.Xv6
