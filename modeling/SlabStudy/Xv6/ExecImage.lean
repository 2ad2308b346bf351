import SlabStudy.Xv6.ExecArgs
import SlabStudy.Xv6.FileContent

/-!
# The image that exec loads

The heap of a program holds, byte by byte, what the last segment covering an
address has in the file, and zeros elsewhere: segments may overlap, come in any
order and end within a page.
-/

namespace SlabStudy.Xv6

open Library

/-! ## What the file describes -/

/-- `readi` of a file with this content, where it returns the length it is asked for. -/
def fileRead (content : List UInt8) : Readi := fun off n =>
  (readBytes content off n).filter fun bytes => bytes.length == n

/-- The program header at an offset of the file. -/
def headerAt (content : List UInt8) (off : Nat) : Proghdr := .parse ((content.drop off).take 32)

/-- The program headers; their offsets are computed in 32 bits. -/
def headers (content : List UInt8) (phoff phnum : Nat) : List Proghdr :=
  (List.range phnum).map fun i => headerAt content ((phoff + 32 * i) % 2 ^ 32)

/-- Where the last one of the segments ends. -/
def memEnd (loads : List Proghdr) : Nat := (loads.map fun ph => ph.vaddr + ph.memsz).foldl max 0

def Proghdr.covers (ph : Proghdr) (va : Nat) : Bool :=
  decide (ph.vaddr ≤ va) && decide (va < ph.vaddr + ph.filesz)

/-- The byte of the image at an address: that of the last segment with one for it, or zero. -/
def imageByte (content : List UInt8) (loads : List Proghdr) (va : Nat) : Option UInt8 :=
  match (loads.filter fun ph => ph.covers va).getLast? with
  | some ph => content[ph.off + (va - ph.vaddr)]?
  | none => some 0

section File

variable {content bytes : List UInt8} {loads : List Proghdr} {ph : Proghdr} {va off n : Nat}

theorem fileRead_eq_some (found : fileRead content off n = some bytes) :
    off + n ≤ content.length ∧ off + n < 2 ^ 32 ∧ bytes = (content.drop off).take n := by
  unfold fileRead readBytes at found
  obtain ⟨range, length⟩ := Option.filter_eq_some_iff.mp found
  split at range
  · cases range
  · cases range
    rw [beq_iff_eq, List.length_take, List.length_drop] at length
    exact ⟨by omega, by omega, rfl⟩

theorem headers_succ (content : List UInt8) (phnum : Nat) (small : off < 2 ^ 32) :
    headers content off (phnum + 1) =
      headerAt content off :: headers content ((off + 32) % 2 ^ 32) phnum := by
  unfold headers
  rw [List.range_succ_eq_map, List.map_cons, List.map_map, Nat.mul_zero, Nat.add_zero,
    Nat.mod_eq_of_lt small]
  refine congrArg (headerAt content off :: ·) (List.map_congr_left fun i _ => ?_)
  refine congrArg (headerAt content) ?_
  rw [Nat.mod_add_mod, Nat.mul_succ]
  congr 1
  omega

theorem memEnd_append (loads : List Proghdr) (ph : Proghdr) :
    memEnd (loads ++ [ph]) = max (memEnd loads) (ph.vaddr + ph.memsz) := by
  unfold memEnd
  rw [List.map_append, List.foldl_append]
  rfl

theorem Proghdr.covers_iff : ph.covers va = true ↔ ph.vaddr ≤ va ∧ va < ph.vaddr + ph.filesz := by
  rw [covers, Bool.and_eq_true, decide_eq_true_eq, decide_eq_true_eq]

/-- A later segment hides the earlier ones. -/
theorem imageByte_append (content : List UInt8) (loads : List Proghdr) (ph : Proghdr) (va : Nat) :
    imageByte content (loads ++ [ph]) va =
      if ph.covers va then content[ph.off + (va - ph.vaddr)]? else imageByte content loads va := by
  unfold imageByte
  rw [List.filter_append]
  cases inside : ph.covers va with
  | true =>
      rw [List.filter_singleton, inside]
      change (match (List.filter _ loads ++ [ph]).getLast? with | some ph => _ | none => _) = _
      rw [List.getLast?_append_cons]
      rfl
  | false =>
      rw [List.filter_singleton, inside]
      change (match (List.filter _ loads ++ []).getLast? with | some ph => _ | none => _) = _
      rw [List.append_nil]
      rfl

/-- Beyond all segments the image is zero. -/
theorem imageByte_beyond (content : List UInt8)
    (beyond : ∀ ph ∈ loads, ph.vaddr + ph.filesz ≤ va) : imageByte content loads va = some 0 := by
  have none : (loads.filter fun ph => ph.covers va) = [] := by
    refine List.filter_eq_nil_iff.mpr fun ph member inside => ?_
    have last := beyond ph member
    have covered := Proghdr.covers_iff.mp inside
    omega
  unfold imageByte
  rw [none]
  rfl

end File

/-! ## loaduvm -/

section Load

variable {ld : Linkage} {km km' : Kmem} {d d' : Pgdir} {sz va : Nat} {content : List UInt8}
  {loads : List Proghdr} {ph : Proghdr}

/-- The loop deposits what is left of the segment, page by page. -/
theorem loaduvmLoop_deposited {addr offset filesz i : Nat} (aligned : addr % pgsize = 0)
    (multiple : i % pgsize = 0) (limit : addr + filesz ≤ kernbase)
    (placed : ∀ va, addr ≤ va → va < addr + filesz → (d.place va).isSome = true)
    (small : i < filesz → offset + i < 2 ^ 32)
    (ran : loaduvmLoop (fileRead content) d addr offset filesz (pageAddrs i filesz) km =
      .ok (true, km')) :
    (i < filesz → offset + filesz ≤ content.length) ∧
      Deposited d.place (addr + i) ((content.drop (offset + i)).take (filesz - i))
        km.cell km'.cell := by
  induction left : filesz - i using Nat.strongRecOn generalizing i km with
  | ind k ih =>
      by_cases more : i < filesz
      · have bound : addr + i < 2 ^ 32 := by
          simp only [kernbase] at limit
          omega
        obtain ⟨⟨frame, offset'⟩, here⟩ :=
          Option.isSome_iff_exists.mp (placed (addr + i) (by omega) (by omega))
        obtain ⟨pte, found, _, same⟩ := Pgdir.place_eq_some_iff.mp here
        rw [pageAddrs_cons more] at ran
        unfold loaduvmLoop at ran
        rw [Nat.mod_eq_of_lt bound, walkpgdir_false, (Pgdir.lookup_eq_some_iff.mp found).1,
          Nat.mod_eq_of_lt (small more)] at ran
        dsimp only [Option.map_some] at ran
        split at ran
        · cases ran
        next bytes read =>
        obtain ⟨enough, noWrap, range⟩ := fileRead_eq_some read
        have length : bytes.length = min (filesz - i) pgsize := by
          rw [range, List.length_take, List.length_drop]
          omega
        have whole : bytes.take pgsize = bytes := by
          rw [List.take_of_length_le]
          omega
        have start : (addr + i) % pgsize = 0 := by
          simp only [pgsize] at *
          omega
        obtain ⟨_, stored⟩ := store_deposited km bytes
          (by rw [length]; simp only [kernbase] at limit; omega) here
          (by rw [length, start]; omega)
        rw [start, (Prod.mk.inj same).1] at stored
        rw [whole] at ran
        by_cases last : filesz - i ≤ pgsize
        · rw [pageAddrs_empty (by omega)] at ran
          cases ran
          rw [Nat.min_eq_left last] at enough range
          rw [← left, ← range]
          exact ⟨fun _ => by omega, stored⟩
        · have order := Nat.le_of_not_le last
          have page : min (filesz - i) pgsize = pgsize := Nat.min_eq_right order
          rw [page] at enough noWrap range length
          have positive : 0 < pgsize := by decide
          have shorter : filesz - (i + pgsize) < k := by omega
          have next : (i + pgsize) % pgsize = 0 := by rw [Nat.add_mod_right, multiple]
          have later : i + pgsize < filesz → offset + (i + pgsize) < 2 ^ 32 := by
            intro _
            rw [← Nat.add_assoc]
            exact noWrap
          obtain ⟨rest, deposited⟩ := @ih _ shorter _ (i + pgsize) next later ran rfl
          have split : (content.drop (offset + i)).take k =
              bytes ++ (content.drop (offset + (i + pgsize))).take (filesz - (i + pgsize)) := by
            have sum : k = pgsize + (filesz - (i + pgsize)) := by omega
            rw [range, sum, List.take_add, List.drop_drop, Nat.add_assoc]
          rw [split]
          refine ⟨fun _ => rest (by omega), stored.append ?_⟩
          rw [length, Nat.add_assoc]
          exact deposited
      · rw [pageAddrs_empty (Nat.le_of_not_lt more)] at ran
        cases ran
        have zero : k = 0 := by omega
        rw [zero, List.take_zero]
        exact ⟨fun impossible => absurd impossible more, .nil _ _ _⟩

/-- A segment that is loaded: each of its bytes comes from the file. -/
theorem HeapOnly.loaduvm_bytes {addr offset filesz : Nat} (heap : HeapOnly ld km d sz)
    (aligned : addr % pgsize = 0) (fits : addr + filesz ≤ sz) (small : offset < 2 ^ 32)
    (ran : Xv6.loaduvm (fileRead content) d addr offset filesz km = .ok (true, km')) :
    (∀ i, i < filesz → ∃ byte, content[offset + i]? = some byte ∧
      userByte km' d (addr + i) = some byte) ∧
    ∀ va, va < kernbase → (va < addr ∨ addr + filesz ≤ va) →
      userByte km' d va = userByte km d va := by
  have limit := heap.layout.heap_le
  have order := le_pgRoundUp limit
  have placed : ∀ va, addr ≤ va → va < addr + filesz → (d.place va).isSome = true := by
    intro va _ below
    obtain ⟨pte, found⟩ := Option.isSome_iff_exists.mp
      (heap.present (by omega : va < pgRoundUp sz))
    rw [heap.only.place (by omega) found]
    rfl
  unfold Xv6.loaduvm at ran
  rw [if_neg (not_not.mpr aligned)] at ran
  obtain ⟨long, deposited⟩ := loaduvmLoop_deposited (i := 0) aligned rfl (by omega) placed
    (fun _ => small) ran
  rw [Nat.add_zero, Nat.add_zero, Nat.sub_zero] at deposited
  rcases Nat.eq_zero_or_pos filesz with rfl | filled
  · refine ⟨fun i impossible => absurd impossible (Nat.not_lt_zero i), fun va low apart => ?_⟩
    rw [List.take_zero] at deposited
    exact heap.owned.deposited_kept _ (by rw [List.length_nil]; omega) deposited low apart
  · have enough := long filled
    have length : ((content.drop offset).take filesz).length = filesz := by
      rw [List.length_take, List.length_drop]
      omega
    have ends : addr + ((content.drop offset).take filesz).length ≤ kernbase := by
      rw [length]
      omega
    have bytes := heap.owned.deposited_bytes ends
      (fun i inside => placed _ (Nat.le_add_right _ _) (by omega)) deposited
    refine ⟨fun i inside => ?_, fun va low apart => ?_⟩
    · obtain ⟨byte, found⟩ : ∃ byte, content[offset + i]? = some byte :=
        ⟨_, List.getElem?_eq_getElem (by omega)⟩
      refine ⟨byte, found, bytes i byte ?_⟩
      rw [List.getElem?_take_of_lt inside, List.getElem?_drop]
      exact found
    · refine heap.owned.deposited_kept _ ends deposited low ?_
      rw [length]
      exact apart

/-! ## The loop over the headers -/

/-- The heap holds the image of the segments loaded so far. -/
structure Loaded (ld : Linkage) (content : List UInt8) (loads : List Proghdr) (km : Kmem)
    (d : Pgdir) (sz : Nat) : Prop where
  heap : HeapOnly ld km d sz
  size : sz = memEnd loads
  fits : ∀ ph ∈ loads, ph.vaddr + ph.filesz ≤ sz
  bytes : ∀ va, va < pgRoundUp sz → userByte km d va = imageByte content loads va

theorem HeapOnly.image (heap : HeapOnly ld km d 0) (content : List UInt8) :
    Loaded ld content [] km d 0 where
  heap := heap
  size := rfl
  fits _ member := absurd member List.not_mem_nil
  bytes va inside := absurd inside (Nat.not_lt_zero va)

/-- One more segment. -/
theorem Loaded.segment {size : Nat} {km₁ : Kmem} (image : Loaded ld content loads km d sz)
    (small : ph.off < 2 ^ 32)
    (segment : HeapOnly.Segment ld (fileRead content) ph sz km d size km₁ d' km') :
    Loaded ld content (loads ++ [ph]) km' d' size := by
  have fits := HeapOnly.Segment.fits image.heap segment
  obtain ⟨grown, max, kept, zero⟩ := image.heap.allocuvm segment.grown segment.positive
  obtain ⟨written, others⟩ := grown.loaduvm_bytes segment.aligned fits small segment.stored
  have few := grown.heap_le
  refine ⟨image.heap.segment segment, ?_, fun other member => ?_, fun va inside => ?_⟩
  · rw [memEnd_append, max, image.size]
  · rcases List.mem_append.mp member with earlier | last
    · have before := image.fits other earlier
      omega
    · rw [List.mem_singleton.mp last]
      exact fits
  rw [imageByte_append]
  split
  · next covered =>
      obtain ⟨first, last⟩ := Proghdr.covers_iff.mp covered
      obtain ⟨byte, found, here⟩ := written (va - ph.vaddr) (by omega)
      rw [Nat.add_sub_cancel' first] at here
      rw [here, found]
  · next outside =>
      rw [Proghdr.covers_iff] at outside
      have low : va < kernbase := Nat.lt_of_lt_of_le inside (Nat.le_trans few (by decide))
      rw [others va low (by omega)]
      rcases Nat.lt_or_ge va (pgRoundUp sz) with before | new
      · rw [kept va before, image.bytes va before]
      · rw [zero va new inside]
        refine (imageByte_beyond content fun other member => ?_).symm
        have ends := image.fits other member
        have order := le_pgRoundUp image.heap.layout.heap_le
        omega

/-- The loop loads the segments of the headers that are left. -/
theorem Loaded.execLoad {left off sz' : Nat} (image : Loaded ld content loads km d sz)
    (small : off < 2 ^ 32)
    (ran : execLoad ld (fileRead content) left off sz km d = .ok (some sz', km', d')) :
    Loaded ld content
      (loads ++ (headers content off left).filter fun ph => ph.type == elfProgLoad) km' d' sz' := by
  induction left generalizing off sz km d loads with
  | zero =>
      cases ran
      change Loaded ld content (loads ++ []) _ _ _
      rw [List.append_nil]
      exact image
  | succ left ih =>
      rw [headers_succ content left small]
      have next : (off + 32) % 2 ^ 32 < 2 ^ 32 := Nat.mod_lt _ (by decide)
      obtain ⟨bytes, found, rest⟩ := execLoad_succ ran
      obtain ⟨_, _, rfl⟩ := fileRead_eq_some found
      change (headerAt content off).type ≠ _ ∧ _ ∨ ∃ size km₁ d₁ km₂,
        HeapOnly.Segment ld _ (headerAt content off) _ _ _ _ _ _ _ ∧ _ at rest
      rcases rest with ⟨other, rest⟩ | ⟨size, km₁, d₁, km₂, segment, rest⟩
      · rw [List.filter_cons_of_neg (by rw [beq_iff_eq]; exact other)]
        exact ih image next rest
      · rw [List.filter_cons_of_pos (by rw [beq_iff_eq]; exact segment.ok.load),
          List.append_cons]
        exact ih (image.segment (leWord_lt _ _) segment) next rest

end Load

/-! ## The files of a disk -/

/-- What `readi` stores of an inode, where it returns the length it is asked for. -/
def inodeRead (devsw : Devsw) (d : FsDisk) (inum : Nat) : Readi := fun off n =>
  match readi devsw (d.locked inum) off n with
  | .ok (got, bytes, _) => if got = n then some bytes else none
  | .error _ => none

/-- An inode is read like the array of its bytes. -/
theorem inodeRead_eq (devsw : Devsw) {d : FsDisk} {inum off n : Nat} (owned : d.Owned)
    (allocated : d.Allocated inum) (regular : (d.dinode inum).type ≠ .dev) (small : off < 2 ^ 32)
    (few : n < 2 ^ 32) :
    inodeRead devsw d inum off n = fileRead (d.content (d.dinode inum)) off n := by
  unfold inodeRead fileRead
  rw [FsDisk.readi_eq devsw owned allocated regular small few]
  cases readBytes (d.content (d.dinode inum)) off n with
  | none =>
      have negative : ¬ (-1 : Int) = n := by omega
      exact if_neg negative
  | some bytes =>
      by_cases length : bytes.length = n
      · have got : (bytes.length : Int) = n := congrArg Nat.cast length
        have whole : (bytes.length == n) = true := beq_iff_eq.mpr length
        change (if (bytes.length : Int) = n then some bytes else none) =
          if (bytes.length == n) = true then some bytes else none
        rw [if_pos got, if_pos whole]
      · have got : ¬ (bytes.length : Int) = n := fun same => length (Int.ofNat.inj same)
        have other : ¬ (bytes.length == n) = true := fun same => length (beq_iff_eq.mp same)
        change (if (bytes.length : Int) = n then some bytes else none) =
          if (bytes.length == n) = true then some bytes else none
        rw [if_neg got, if_neg other]

section Congr

variable {ld : Linkage} {read read' : Readi}

/-- Offsets and lengths are words in every call of `readi`. -/
def SameWords (read read' : Readi) : Prop :=
  ∀ off n, off < 2 ^ 32 → n < 2 ^ 32 → read off n = read' off n

theorem loaduvmLoop_congr (same : SameWords read read') (d : Pgdir) (addr offset sz : Nat)
    (pages : List Nat) (km : Kmem) :
    loaduvmLoop read d addr offset sz pages km = loaduvmLoop read' d addr offset sz pages km := by
  induction pages generalizing km with
  | nil => rfl
  | cons i rest ih =>
      have page : min (sz - i) pgsize < 2 ^ 32 :=
        Nat.lt_of_le_of_lt (Nat.min_le_right _ _) (by decide)
      rw [loaduvmLoop, loaduvmLoop, same _ _ (Nat.mod_lt _ (by decide)) page]
      simp only [ih]

theorem loaduvm_congr (same : SameWords read read') (d : Pgdir) (addr offset sz : Nat) (km : Kmem) :
    loaduvm read d addr offset sz km = loaduvm read' d addr offset sz km := by
  unfold loaduvm
  rw [loaduvmLoop_congr same]

theorem execLoad_congr (same : SameWords read read') {left off : Nat} (small : off < 2 ^ 32)
    (sz : Nat) (km : Kmem) (d : Pgdir) :
    execLoad ld read left off sz km d = execLoad ld read' left off sz km d := by
  induction left generalizing off sz km d with
  | zero => rfl
  | succ left ih =>
      have next : (off + 32) % 2 ^ 32 < 2 ^ 32 := Nat.mod_lt _ (by decide)
      rw [execLoad, execLoad, same off 32 small (by decide)]
      simp only [ih next, loaduvm_congr same]

/-- `exec` of an inode is `exec` of its content. -/
theorem exec_inode (devsw : Devsw) {disk : FsDisk} {inum : Nat} (owned : disk.Owned)
    (allocated : disk.Allocated inum) (regular : (disk.dinode inum).type ≠ .dev) (name : String)
    (argv : List (List UInt8)) (s : Kernel) (p : Slot) :
    exec ld (some (inodeRead devsw disk inum)) name argv s p =
      exec ld (some (fileRead (disk.content (disk.dinode inum)))) name argv s p := by
  have same : SameWords (inodeRead devsw disk inum)
      (fileRead (disk.content (disk.dinode inum))) :=
    fun _ _ small few => inodeRead_eq devsw owned allocated regular small few
  have load (bytes : List UInt8) (km : Kmem) (d : Pgdir) :
      execLoad ld (inodeRead devsw disk inum) (Elfhdr.parse bytes).phnum
          (Elfhdr.parse bytes).phoff 0 km d =
        execLoad ld (fileRead (disk.content (disk.dinode inum))) (Elfhdr.parse bytes).phnum
          (Elfhdr.parse bytes).phoff 0 km d :=
    execLoad_congr same (leWord_lt bytes 28) 0 km d
  unfold exec execReading
  dsimp only
  rw [same 0 52 (by decide) (by decide)]
  simp only [load]

end Congr

/-! ## How exec stops the machine -/

section Stops

variable {null : Option Pte} {ld : Linkage} {km km' : Kmem} {d d' : Pgdir} {reason : Panic}

end Stops

/-! ## The image of the process -/

end SlabStudy.Xv6
