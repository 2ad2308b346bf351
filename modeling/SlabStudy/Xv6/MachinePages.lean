import SlabStudy.Xv6.BootMemory
import SlabStudy.Xv6.PipePages

/-!
# The pages of the whole machine

Next to the steps of the kernel there are the calls that only take pages or
give them back: `exec` with all its exits, and the calls that open and close
files.  All of them conserve the pages that `kfree` accepts.
-/

namespace SlabStudy.Xv6

open Library

variable {ld : Linkage} {s s' : Kernel} {c : Fin ncpu} {p np q : Slot}

/-! ## Steps conserve the pages -/

theorem growproc_pages (inv : Inv ld s) (busy : (s.cpu c).proc = some p) {n value : Int}
    (ran : growproc ld s p n = .ok (value, s')) : s'.pages = s.pages := by
  obtain ⟨kstack, d, stack, own⟩ := inv.equipped busy
  have owned := inv.memory.owned stack own
  have resized {result : Nat} {km : Kmem} {d' : Pgdir}
      (conserved : (km.freelist : Multiset Frame) + d'.frames = s.kmem.freelist + d.frames)
      (stored : growprocResize s p (result, km, d') = .ok (value, s')) : s'.pages = s.pages := by
    rcases growprocResize_eq_ok stored with ⟨_, _, rfl⟩ | ⟨_, _, rfl⟩
    · exact Kernel.pages_image inv busy own conserved rfl rfl
    · exact Kernel.pages_image inv busy own conserved rfl rfl
  rcases growproc_eq_ok own ran with
    ⟨_, result, km, d', grown, stored⟩ | ⟨_, result, km, d', shrunk, stored⟩ | ⟨_, _, rfl⟩
  · exact resized (allocuvm_conserved owned grown).1 stored
  · rcases deallocuvm_cases (inv.bounded p).size owned.validFrames shrunk with
      ⟨_, _, rfl, rfl⟩ | ⟨_, _, released⟩
    · exact resized rfl stored
    · exact resized released.conserved stored
  · rfl

theorem pgflt_pages (inv : Inv ld s) (busy : (s.cpu c).proc = some p) {va : Nat} {user : Bool}
    (ran : pgflt ld s p va user = .ok s') : s'.pages = s.pages := by
  obtain ⟨kstack, d, stack, own⟩ := inv.equipped busy
  rcases pgflt_eq_ok own ran with ⟨_, _, result, km, d', _, grown, _, rfl⟩ | ⟨_, _, rfl⟩
  · exact Kernel.pages_image inv busy own
      (allocuvm_conserved (inv.memory.owned stack own) grown).1 rfl rfl
  · exact Kernel.pages_one rfl (fun _ apart => Kernel.modify_of_ne _ _ _ apart)
      (by rw [Kernel.modify_self]) (by rw [Kernel.modify_self])

/-- Stores into one entry of the table that leave its pages alone. -/
theorem Kernel.pages_of_update {t : Kernel} {pr : Proc}
    (table : t.proc = Function.update s.proc p pr) (kmem : t.kmem = s.kmem) (stack : pr.kstack = (s.proc p).kstack)
    (own : pr.pgdir = (s.proc p).pgdir) : t.pages = s.pages := by
  refine Kernel.pages_one (by rw [kmem]) (fun q apart => ?_) (q := p) ?_ ?_
  · rw [table, Function.update_of_ne apart]
  · rw [table, Function.update_self, stack]
  · rw [table, Function.update_self, own]

theorem yield_pages (s : Kernel) (c : Fin ncpu) (p : Slot) : (yield s c p).pages = s.pages :=
  Kernel.pages_of_update rfl rfl rfl rfl

theorem sleep_pages (s : Kernel) (c : Fin ncpu) (p : Slot) (chan : Option Chan) (call : Resume) :
    (sleep s c p chan call).pages = s.pages :=
  Kernel.pages_of_update rfl rfl rfl rfl

theorem enter_pages (s : Kernel) (c : Fin ncpu) (p : Slot) :
    (sleepTidy (dispatch s c p) p).pages = s.pages := by
  have tidy : (sleepTidy (dispatch s c p) p).pages = (dispatch s c p).pages :=
    Kernel.pages_of_update rfl rfl rfl rfl
  exact tidy.trans (Kernel.pages_of_update rfl rfl rfl rfl)

theorem wait_pages (inv : Inv ld s) {outcome : Outcome}
    (ran : wait ld s c p = .ok (outcome, s')) : s'.pages = s.pages := by
  rcases wait_cases ran with ⟨q, _, zombie, reaped⟩ | ⟨_, rfl⟩ | ⟨_, rfl, _⟩
  · exact reap_pages inv zombie reaped
  · rfl
  · exact sleep_pages _ _ _ _ _

theorem waitpid_pages (inv : Inv ld s) {pid : Int} {outcome : Outcome}
    (ran : waitpid ld s c p pid = .ok (outcome, s')) : s'.pages = s.pages := by
  rcases waitpid_cases ran with ⟨q, _, zombie, reaped⟩ | ⟨_, rfl⟩ | ⟨_, q, _, _, _, rfl⟩
  · exact reap_pages inv zombie reaped
  · rfl
  · exact sleep_pages _ _ _ _ _

theorem scheduler_pages (inv : Inv ld s) (idle : (s.cpu c).proc = none) {chosen : Option Slot}
    {outcome : Option Outcome} (ran : scheduler ld s c = .ok (chosen, outcome, s')) :
    s'.pages = s.pages := by
  obtain ⟨found, ⟨_, _, rfl⟩ | ⟨p, rfl, resumed⟩⟩ := scheduler_eq_ok ran
  · rfl
  · have runnable := choose_runnable found.symm
    have entered := inv.enter (c := c) idle runnable
    have same := enter_pages s c p
    rcases resume_cases inv runnable resumed with
      ⟨_, rfl⟩ | ⟨_, _, _, waited⟩ | ⟨_, _, _, _, waited⟩
    · exact same
    · exact (wait_pages entered waited).trans same
    · exact (waitpid_pages entered waited).trans same

theorem forkCopy_pages (inv : Inv ld s) (busy : (s.cpu c).proc = some p)
    (pending : (s.thread p).pending = .forkCopy np) {copied : Bool}
    (ran : forkCopy ld s p np = .ok (copied, s')) : s'.pages = s.pages := by
  obtain ⟨_, vacant⟩ := inv.forks.copying pending
  obtain ⟨_, ⟨_, failed⟩ | ⟨_, d, frame, child, _, done⟩⟩ := inv.copyStep busy pending ran
  · exact failed.pages vacant
  · exact done.pages vacant

/-- A step that only takes pages or gives them back, whatever they are for. -/
def Label.TakesPages : Label → Prop
  | .pages => True
  | .exec _ => True
  | _ => False

/-- Every other step moves pages at most from one owner to another. -/
theorem Step.pages_kept {label : Label} (inv : Inv ld s) (step : Step ld s label s')
    (other : ¬ label.TakesPages) : s'.pages = s.pages := by
  cases step with
  | round idle ran => exact scheduler_pages inv idle ran
  | claimNone free full => rfl
  | @claimSome c p np s₁ free claimed =>
      obtain ⟨_, _, rfl⟩ := allocprocClaim_eq_some claimed
      exact (setPending_pages _ _ _).trans (Kernel.pages_of_update rfl rfl rfl rfl)
  | copyFails running pending ran =>
      exact (setPending_pages _ _ _).trans (forkCopy_pages inv running pending ran)
  | copyDone running pending ran =>
      exact (setPending_pages _ _ _).trans (forkCopy_pages inv running pending ran)
  | start running pending =>
      exact (setPending_pages _ _ _).trans (Kernel.pages_of_update rfl rfl rfl rfl)
  | exit free ran => exact (exit_exited ran).pages
  | wait free ran => exact wait_pages inv ran
  | waitpid free ran => exact waitpid_pages inv ran
  | kill pid free => exact (kill_nudges inv.bounded pid).pages
  | @setpriority c p pid priority free =>
      have same := (setpriority_nudges inv.bounded p pid priority).pages
      split
      · exact (setPending_pages _ _ _).trans same
      · exact same
  | priorityYield running pending =>
      exact (setPending_pages _ _ _).trans (yield_pages _ _ _)
  | preempt running => exact yield_pages _ _ _
  | sleep address free => exact sleep_pages _ _ _ _ _
  | wakeup address => exact (wakeup_nudges inv.bounded _).pages
  | pages free apart => exact absurd trivial other
  | sbrk free ran => exact growproc_pages inv free.running ran
  | pgflt free ran => exact pgflt_pages inv free.running ran
  | exec free old conserved untouched bounded => exact absurd trivial other
  | user free own stores => exact Kernel.pages_image inv free.running own rfl own rfl

/-! ## exec -/

section Exec

variable {file : Option Readi} {name : String} {argv : List (List UInt8)} {value : Int}

/-- The new directory takes its pages from the free list, and the old one gives them back. -/
theorem ExecParts.trade {null : Option Pte} {read : Readi} {d : Pgdir} (quiet : Quiet null)
    (parts : ExecParts null ld read name argv s p s') (free : FreeOk ld s.kmem) (own : (s.proc p).pgdir = some d) (owned : Owned ld s.kmem d) :
    ∃ km, s' = (s.setKmem km).modify p (fun pr =>
        { pr with
          pgdir := some parts.d₂
          sz := parts.sz
          tf := { (s.proc p).tf with
            eip := .ofNat (Elfhdr.parse parts.header).entry
            esp := .ofNat parts.sp }
          name := name
          stackPsize := 1 }) ∧
      (km.freelist : Multiset Frame) + parts.d₂.frames = s.kmem.freelist + d.frames ∧
      (∀ frame, frame ∉ s.kmem.freelist → frame ∉ d.frames →
        km.mem frame = s.kmem.mem frame) ∧
      parts.sz ≤ kernbase := by
  obtain ⟨total, owned₀, maps, layout, kept⟩ := setupkvm_made free parts.made
  obtain ⟨first, maps₁, built⟩ := execLoad_cases owned₀ maps layout parts.loaded
  obtain ⟨second, _, stacked⟩ :=
    execStack_cases (first.owned owned₀) maps₁ (built _ rfl) quiet parts.stacked
  have both := first.trans second
  have total₂ := both.conserved.trans total
  obtain ⟨_, _, ran⟩ := Kern.bind_eq_ok.mp parts.commit
  obtain ⟨km, freed, ran⟩ := Kern.bind_eq_ok.mp ran
  obtain ⟨km', released, listed, untouched⟩ := freevm_ok parts.km₂ owned.validFrames
  rw [own, released] at freed
  cases freed
  refine ⟨km, (Prod.mk.inj (Except.ok.inj ran)).2.symm, ?_,
    fun frame notFree notOwned => ?_, (stacked _ rfl).heap_le⟩
  · rw [listed, add_right_comm, total₂]
  · -- a page that is neither free nor of the old directory is in none of the new places
    have outside : frame ∉ (parts.km₀.freelist : Multiset Frame) + parts.d₀.frames := by
      rw [total]
      exact fun member => notFree (Multiset.mem_coe.mp member)
    rw [Multiset.mem_add, not_or] at outside
    have absent : frame ∉ parts.km₀.freelist := fun inside =>
      outside.1 (Multiset.mem_coe.mpr inside)
    have gone : frame ∉ km.freelist := by
      intro inside
      have member : frame ∈ (km.freelist : Multiset Frame) := Multiset.mem_coe.mpr inside
      rw [listed, Multiset.mem_add] at member
      rcases member with rest | old
      · exact (both.outside absent outside.2).1 (Multiset.mem_coe.mp rest)
      · exact notOwned old
    rw [untouched frame gone, both.untouched frame absent outside.2, kept frame notFree]

/-- A call of `exec` that neither stores through the null pointer nor faults at it is the commit of
the kernel's step, or gives back all that it took. -/
theorem exec_step (inv : Inv ld s) (free : Free s c p) (careful : ¬ExecStrays ld file name argv s p)
    (ran : exec ld file name argv s p = .ok (value, s')) :
    (∃ label, label.TakesPages ∧ Step ld s label s') ∧ s'.pages = s.pages := by
  obtain ⟨kstack, d, stack, own⟩ := inv.equipped free.running
  have owned := inv.memory.owned stack own
  rcases exec_cases owned.freeOk careful ran with ⟨_, failed⟩ | ⟨_, null, read, quiet, _, ⟨parts⟩⟩
  · obtain ⟨km, rfl⟩ := failed.kernel
    have same : (km.freelist : Multiset Frame) = s.kmem.freelist := failed.free
    refine ⟨⟨.pages, trivial, .pages ⟨?_, fun frame member => ?_⟩ fun q frame member => ?_⟩, ?_⟩
    · rw [← Multiset.coe_nodup, same]
      exact Multiset.coe_nodup.mpr owned.freeOk.nodup
    · exact owned.freeOk.valid frame (Multiset.mem_coe.mp (same ▸ Multiset.mem_coe.mpr member))
    · have used := inv.memory.notFree member
      refine ⟨fun listed => used ?_, failed.untouched frame used⟩
      exact Multiset.mem_coe.mp (same ▸ Multiset.mem_coe.mpr listed)
    · rw [Kernel.pages_eq, Kernel.pages_eq, failed.free]
      rfl
  · obtain ⟨km, result, conserved, untouched, small⟩ := parts.trade quiet owned.freeOk own owned
    rw [result]
    exact ⟨⟨.exec p, trivial, .exec free own conserved untouched small⟩,
      Kernel.pages_image inv free.running own conserved rfl rfl⟩

/-- The process runs on with the program and a stack of one page. -/
theorem Started.afterExec {s s' : Kernel} {d d' : Pgdir} {pages esp : Nat} {km : Kmem}
    (started : Started s d 0 pages) (careful : ¬ExecStrays sampleLinkage file name argv s 0)
    (ran : exec sampleLinkage file name argv s 0 = .ok (value, s'))
    (commit : execCommit sampleLinkage s 0 name 2 pgsize esp km d' = .ok (value, s'))
    (left : pages ≤ km.freelist.length + 69) (layout : Layout d' pgsize 1) :
    Started s' d' 1 (pages - 69) ∧ s'.cpu = s.cpu := by
  have inv := Inv.reachable started.reached
  obtain ⟨kstack, own, stack, dir⟩ := inv.equipped started.free.running
  obtain ⟨⟨label, taken, step⟩, _⟩ := exec_step inv started.free careful ran
  have quiet : label.outcome = none ∧ label.victim = none := by
    cases label <;> first | exact ⟨rfl, rfl⟩ | cases taken
  have reached := started.quiet.step ⟨quiet, step⟩
  obtain ⟨_, _, commit⟩ := Kern.bind_eq_ok.mp commit
  obtain ⟨km', freed, commit⟩ := Kern.bind_eq_ok.mp commit
  obtain ⟨_, released, listed, _⟩ := freevm_ok km (inv.memory.owned stack dir).validFrames
  rw [dir, released] at freed
  cases freed
  cases commit
  refine ⟨⟨reached, ⟨started.free.running, started.free.idle⟩, ?_, ?_, ?_, ?_, ?_,
    fun q apart => ?_, started.initproc, started.nextpid, layout, ?_⟩, rfl⟩
  · rw [Kernel.setKmem_proc, Kernel.modify_self]
  · rw [Kernel.setKmem_proc, Kernel.modify_self]
  · rw [Kernel.setKmem_proc, Kernel.modify_self]
  · rw [Kernel.setKmem_proc, Kernel.modify_self]
    exact started.pid
  · rw [Kernel.setKmem_proc, Kernel.modify_self]
    exact started.killed
  · rw [Kernel.setKmem_proc, Kernel.modify_of_ne _ _ _ apart]
    exact started.others q apart
  · have counted := congrArg Multiset.card listed
    rw [Multiset.card_add, Multiset.coe_card, Multiset.coe_card] at counted
    change pages - 69 ≤ km'.freelist.length
    omega

end Exec

/-! ## The machine with its open files -/

/-- The kernel, the pages that `main` has taken for good, the open files and the pipes. -/
structure Machine where
  kernel : Kernel
  kpgdir : Pgdir
  cpuStacks : List Frame
  file : Fin nfile → PipeFile
  ends : Frame → PipeEnds

/-- The panics of `file.c`, and those of the memory code. -/
inductive FilePanic where
  | filedup
  | fileclose
  | kernel (reason : Panic)

/-- The address of a page in the kernel. -/
def Frame.kva (page : Frame) : Nat := page.toNat * pgsize + kernbase

namespace Machine

def setFile (s : Machine) (f : Fin nfile) (entry : PipeFile) : Machine :=
  { s with file := Function.update s.file f entry }

@[simp] theorem setFile_kernel (s : Machine) (f : Fin nfile) (entry : PipeFile) :
    (s.setFile f entry).kernel = s.kernel := rfl

/-- `filealloc`; it leaves the type of the entry alone. -/
def filealloc (s : Machine) : Option (Fin nfile × Machine) :=
  ((List.finRange nfile).find? fun f => decide ((s.file f).ref = 0)).map fun f =>
    (f, s.setFile f { s.file f with ref := 1 })

def filedup (s : Machine) (f : Fin nfile) : Except FilePanic Machine :=
  if (s.file f).ref < 1 then .error .filedup
  else .ok (s.setFile f { s.file f with ref := (s.file f).ref + 1 })

def pipeclose (ld : Linkage) (s : Machine) (page : Frame) (writable : Bool) :
    Except FilePanic Machine :=
  let ends := (s.ends page).close writable
  let chan := if writable then nreadChan page.kva else nwriteChan page.kva
  let s := { s with
    kernel := wakeup s.kernel (some (.other chan))
    ends := Function.update s.ends page ends }
  if ends.Unused then
    match kfree ld s.kernel.kmem page with
    | .error reason => .error (.kernel reason)
    | .ok km => .ok { s with kernel := s.kernel.setKmem km }
  else .ok s

/-- `fileclose`; `iput` takes no page and gives none back. -/
def fileclose (ld : Linkage) (s : Machine) (f : Fin nfile) : Except FilePanic Machine :=
  let ff := s.file f
  if ff.ref < 1 then .error .fileclose
  else if ff.ref - 1 > 0 then .ok (s.setFile f { ff with ref := ff.ref - 1 })
  else
    let s := s.setFile f { ff with ref := 0, type := .none }
    if ff.type = .pipe then s.pipeclose ld ff.pipe ff.writable
    else .ok s

/-- `pipealloc`, with the two files if it succeeds. -/
def pipealloc (ld : Linkage) (s : Machine) :
    Except FilePanic (Option (Fin nfile × Fin nfile) × Machine) :=
  match s.filealloc with
  | none => .ok (none, s)
  | some (f₀, s) =>
      match s.filealloc with
      | none => do
          let s ← s.fileclose ld f₀
          return (none, s)
      | some (f₁, s) =>
          match kalloc s.kernel.kmem with
          | none => do
              let s ← s.fileclose ld f₀
              let s ← s.fileclose ld f₁
              return (none, s)
          | some (page, km) =>
              let s := { s with
                kernel := s.kernel.setKmem km
                ends := Function.update s.ends page ⟨true, true⟩ }
              let s := s.setFile f₀ { s.file f₀ with
                type := .pipe, writable := false, pipe := page }
              let s := s.setFile f₁ { s.file f₁ with
                type := .pipe, writable := true, pipe := page }
              .ok (some (f₀, f₁), s)

end Machine

/-- What the machine does next. -/
inductive MachineLabel where
  | kernel (label : Label)
  | exec (p : Slot) (file : Option Readi) (name : String) (argv : List (List UInt8))
  | filealloc
  | fdInode (f : Fin nfile)
  | filedup (f : Fin nfile)
  | fileclose (f : Fin nfile)
  | pipealloc

/-- The steps of the kernel, with `exec` from its call to its return, and those of `file.c`. -/
inductive MachineStep (ld : Linkage) (s : Machine) : MachineLabel → Machine → Prop where
  | kernel {label : Label} {k : Kernel} (step : Step ld s.kernel label k)
      (other : ¬ label.TakesPages) : MachineStep ld s (.kernel label) { s with kernel := k }
  | exec {c : Fin ncpu} {p : Slot} {file : Option Readi} {name : String}
      {argv : List (List UInt8)} {value : Int} {k : Kernel} (free : Free s.kernel c p)
      (ran : exec ld file name argv s.kernel p = .ok (value, k)) :
      MachineStep ld s (.exec p file name argv) { s with kernel := k }
  | filealloc {f : Fin nfile} {t : Machine} (ran : s.filealloc = some (f, t)) :
      MachineStep ld s .filealloc t
  -- `sys_open` sets up the entry that it has allocated
  | fdInode {f : Fin nfile} (writable : Bool) (held : (s.file f).ref = 1)
      (idle : (s.file f).type = .none) : MachineStep ld s (.fdInode f)
        (s.setFile f { s.file f with type := .inode, writable := writable })
  | filedup {f : Fin nfile} {t : Machine} (ran : s.filedup f = .ok t) :
      MachineStep ld s (.filedup f) t
  | fileclose {f : Fin nfile} {t : Machine} (ran : s.fileclose ld f = .ok t) :
      MachineStep ld s (.fileclose f) t
  | pipealloc {result : Option (Fin nfile × Fin nfile)} {t : Machine}
      (ran : s.pipealloc ld = .ok (result, t)) : MachineStep ld s .pipealloc t

/-- The step is no `exec` that stores through the null pointer or faults at it. -/
def MachineLabel.Careful (ld : Linkage) (s : Machine) : MachineLabel → Prop
  | .exec p file name argv => ¬ExecStrays ld file name argv s.kernel p
  | _ => True

/-- The machine after `userinit`, with all entries of the file table zero. -/
def machineSystem (ld : Linkage) : System Machine MachineLabel where
  initial s := ∃ b others mem initcode root, bootMemory ld others mem = .ok b ∧
    userinit ld initcode root (Kernel.blank b.kmem) = .ok s.kernel ∧
    s.kpgdir = b.kpgdir ∧ s.cpuStacks = b.cpuStacks ∧
    ∀ f, (s.file f).ref = 0 ∧ (s.file f).type = .none
  step := MachineStep ld

/-- The machine as long as no `exec` stores through the null pointer or faults at it. -/
abbrev carefulSystem (ld : Linkage) : System Machine MachineLabel :=
  (machineSystem ld).guarded fun s label => label.Careful ld s

/-! ## The invariant -/

/-- All managed pages, with their owners. -/
def Machine.pages (s : Machine) : Multiset Frame :=
  s.kernel.pages + ((pipePages s.file).val + (s.kpgdir.frames + s.cpuStacks))

structure MachineOk (ld : Linkage) (s : Machine) : Prop where
  inv : Inv ld s.kernel
  pipes : PipesOk s.file s.ends
  managed : Managed ld s.pages

/-! ## Pages of no process -/

/-- A page is taken from the free list for something else than a process. -/
theorem Inv.takes {km : Kmem} {page : Frame} (inv : Inv ld s)
    (taken : kalloc s.kmem = some (page, km)) :
    Inv ld (s.setKmem km) ∧ s.pages = {page} + (s.setKmem km).pages := by
  obtain ⟨listed, mem⟩ := kalloc_eq_some_iff.mp taken
  refine ⟨inv.step (.pages (inv.memory.freeOk.rest listed) fun q frame member => ?_), ?_⟩
  · refine ⟨fun inside => inv.memory.notFree member ?_, by rw [mem]⟩
    rw [listed]
    exact List.mem_cons_of_mem _ inside
  · rw [Kernel.pages_eq, Kernel.pages_eq, listed, ← Multiset.cons_coe, ← Multiset.singleton_add,
      add_assoc]
    rfl

/-- Such a page is given back. -/
theorem Inv.gives {km : Kmem} {page : Frame} (inv : Inv ld s) (foreign : page ∉ s.pages)
    (freed : kfree ld s.kmem page = .ok km) :
    Inv ld (s.setKmem km) ∧ (s.setKmem km).pages = {page} + s.pages := by
  obtain ⟨valid, listed, untouched⟩ := kfree_eq_ok freed
  have notFree : page ∉ s.kmem.freelist := fun inside => foreign <| by
    rw [Kernel.pages_eq]
    exact Multiset.mem_add.mpr (.inl (Multiset.mem_coe.mpr inside))
  have free := inv.memory.freeOk
  refine ⟨inv.step (.pages ⟨?_, fun frame member => ?_⟩ fun q frame member => ?_), ?_⟩
  · rw [listed]
    exact List.nodup_cons.mpr ⟨notFree, free.nodup⟩
  · rw [listed] at member
    rcases List.mem_cons.mp member with rfl | member
    · exact valid
    · exact free.valid frame member
  · have apart : frame ≠ page := by
      rintro rfl
      obtain ⟨others, split⟩ := s.pages_split q
      refine foreign ?_
      rw [split]
      exact Multiset.mem_add.mpr (.inl (Multiset.mem_add.mpr (.inr member)))
    rw [listed]
    exact ⟨fun inside => inv.memory.notFree member (List.mem_of_ne_of_mem apart inside),
      untouched frame apart⟩
  · rw [Kernel.pages_eq, Kernel.pages_eq]
    change (km.freelist : Multiset Frame) + _ = _
    rw [listed, ← Multiset.cons_coe, ← Multiset.singleton_add, add_assoc]
    rfl

namespace MachineOk

variable {s t : Machine} {f : Fin nfile}

/-- A step of the kernel alone. -/
theorem ofKernel (ok : MachineOk ld s) {k : Kernel} (inv : Inv ld k)
    (pages : k.pages = s.kernel.pages) : MachineOk ld { s with kernel := k } := by
  refine ⟨inv, ok.pipes, ?_⟩
  have managed := ok.managed
  unfold Machine.pages at managed ⊢
  rw [← pages] at managed
  exact managed

/-- An entry changes without becoming or ceasing to be the end of a pipe. -/
theorem setFile (ok : MachineOk ld s) {entry : PipeFile}
    (ends_iff : ∀ page writable, entry.Ends page writable ↔ (s.file f).Ends page writable)
    (closed : entry.ref = 0 → entry.type = .none) : MachineOk ld (s.setFile f entry) := by
  obtain ⟨pipes, pages⟩ := ok.pipes.same ends_iff closed
  refine ⟨ok.inv, pipes, ?_⟩
  have managed := ok.managed
  unfold Machine.pages at managed ⊢
  change Managed ld (_ + ((pipePages (Function.update s.file f entry)).val + _))
  rw [pages]
  exact managed

theorem filealloc (ok : MachineOk ld s) (ran : s.filealloc = some (f, t)) :
    MachineOk ld t ∧ (s.file f).ref = 0 ∧ t = s.setFile f { s.file f with ref := 1 } := by
  obtain ⟨g, found, made⟩ := Option.map_eq_some_iff.mp ran
  cases made
  have zero : (s.file f).ref = 0 := by
    have passed := List.find?_some found
    simpa using passed
  exact ⟨ok.setFile (fun _ _ => Iff.rfl) (fun impossible => absurd impossible Nat.one_ne_zero),
    zero, rfl⟩

theorem filedup (ok : MachineOk ld s) (ran : s.filedup f = .ok t) : MachineOk ld t := by
  unfold Machine.filedup at ran
  split at ran
  · cases ran
  · cases ran
    exact ok.setFile (fun _ _ => Iff.rfl) (fun impossible => absurd impossible (Nat.succ_ne_zero _))

/-- The last reference to one end of a pipe is dropped. -/
theorem pipeclose (ok : MachineOk ld s) {entry : PipeFile} {page : Frame} {writable : Bool}
    (here : (s.file f).Ends page writable) (gone : entry.type = .none)
    (ran : (s.setFile f entry).pipeclose ld page writable = .ok t) : MachineOk ld t := by
  obtain ⟨pipes, pages⟩ := ok.pipes.close here gone
  have member : page ∈ pipePages s.file := mem_pipePages.mpr ⟨f, writable, here⟩
  unfold Machine.pipeclose at ran
  dsimp only at ran
  generalize (if writable then nreadChan page.kva else nwriteChan page.kva) = chan at ran
  have woken : Inv ld (wakeup s.kernel (some (.other chan))) := ok.inv.step (.wakeup chan)
  have same : (wakeup s.kernel (some (.other chan))).pages = s.kernel.pages :=
    (wakeup_nudges ok.inv.bounded _).pages
  have managed := ok.managed
  unfold Machine.pages at managed
  rw [← same] at managed
  change (if ((s.ends page).close writable).Unused then _ else _) = _ at ran
  split at ran
  · next unused =>
      rw [if_pos unused] at pages
      have split : (pipePages s.file).val =
          {page} + (pipePages (Function.update s.file f entry)).val := by
        rw [pages, Finset.erase_val, Multiset.singleton_add, Multiset.cons_erase member]
      have foreign : page ∉ (wakeup s.kernel (some (.other chan))).pages := fun inside =>
        Multiset.disjoint_left.mp (Multiset.nodup_add.mp managed.nodup).2.2 inside
          (Multiset.mem_add.mpr (.inl member))
      cases freed : kfree ld (wakeup s.kernel (some (.other chan))).kmem page with
      | error reason =>
          rw [Machine.setFile_kernel, freed] at ran
          cases ran
      | ok km =>
          rw [Machine.setFile_kernel, freed] at ran
          cases ran
          obtain ⟨inv, total⟩ := woken.gives foreign freed
          refine ⟨inv, pipes, ?_⟩
          unfold Machine.pages
          change Managed ld (((wakeup s.kernel (some (.other chan))).setKmem km).pages +
            ((pipePages (Function.update s.file f entry)).val + (s.kpgdir.frames + s.cpuStacks)))
          rw [split, add_assoc, add_left_comm, ← add_assoc, ← total] at managed
          exact managed
  · next used =>
      rw [if_neg used] at pages
      cases ran
      refine ⟨woken, pipes, ?_⟩
      unfold Machine.pages
      change Managed ld ((wakeup s.kernel (some (.other chan))).pages +
        ((pipePages (Function.update s.file f entry)).val + (s.kpgdir.frames + s.cpuStacks)))
      rw [pages]
      exact managed

theorem fileclose (ok : MachineOk ld s) (ran : s.fileclose ld f = .ok t) : MachineOk ld t := by
  unfold Machine.fileclose at ran
  dsimp only at ran
  split at ran
  · cases ran
  · split at ran
    · next more =>
        cases ran
        exact ok.setFile (fun _ _ => Iff.rfl) fun zero => absurd zero (Nat.ne_of_gt more)
    · split at ran
      · next pipe => exact ok.pipeclose ⟨pipe, rfl, rfl⟩ rfl ran
      · next other =>
          cases ran
          refine ok.setFile (fun page writable => ?_) fun _ => rfl
          exact iff_of_false (fun ends => by cases ends.1) fun ends => other ends.1

/-- Two entries that stand for nothing become the ends of a pipe in a new page. -/
theorem openPipe (ok : MachineOk ld s) {page : Frame} {km : Kmem} {f₀ f₁ : Fin nfile}
    {r w : PipeFile} (taken : kalloc s.kernel.kmem = some (page, km)) (apart : f₁ ≠ f₀)
    (idle₀ : (s.file f₀).type ≠ .pipe) (idle₁ : (s.file f₁).type ≠ .pipe)
    (reads : r.Ends page false) (writes : w.Ends page true) (held₀ : r.ref ≠ 0)
    (held₁ : w.ref ≠ 0) :
    MachineOk ld { s with
      kernel := s.kernel.setKmem km
      file := Function.update (Function.update s.file f₀ r) f₁ w
      ends := Function.update s.ends page ⟨true, true⟩ } := by
  obtain ⟨inv, total⟩ := ok.inv.takes taken
  have managed := ok.managed
  unfold Machine.pages at managed
  rw [total] at managed
  have unused : page ∉ pipePages s.file := fun inside => by
    have disjoint := (Multiset.nodup_add.mp managed.nodup).2.2
    refine Multiset.disjoint_left.mp disjoint ?_ (Multiset.mem_add.mpr (.inl inside))
    exact Multiset.mem_add.mpr (.inl (Multiset.mem_singleton_self page))
  obtain ⟨pipes, pages⟩ := ok.pipes.open_pipe apart idle₀ idle₁ unused reads writes held₀ held₁
  refine ⟨inv, pipes, ?_⟩
  unfold Machine.pages
  dsimp only
  rw [pages, Finset.insert_val_of_notMem unused, ← Multiset.singleton_add,
    add_assoc ({page} : Multiset Frame), add_left_comm, ← add_assoc ({page} : Multiset Frame)]
  exact managed

theorem pipealloc (ok : MachineOk ld s) {result : Option (Fin nfile × Fin nfile)}
    (ran : s.pipealloc ld = .ok (result, t)) : MachineOk ld t := by
  unfold Machine.pipealloc at ran
  cases first : s.filealloc with
  | none =>
      rw [first] at ran
      cases ran
      exact ok
  | some pair =>
      obtain ⟨f₀, s₁⟩ := pair
      rw [first] at ran
      dsimp only at ran
      obtain ⟨ok₁, zero₀, made₁⟩ := ok.filealloc first
      cases second : s₁.filealloc with
      | none =>
          rw [second] at ran
          obtain ⟨u, closed, ran⟩ := bind_eq_ok.mp ran
          cases ran
          exact ok₁.fileclose closed
      | some pair =>
          obtain ⟨f₁, s₂⟩ := pair
          rw [second] at ran
          dsimp only at ran
          obtain ⟨ok₂, zero₁, made₂⟩ := ok₁.filealloc second
          cases taken : kalloc s₂.kernel.kmem with
          | none =>
              rw [taken] at ran
              obtain ⟨u, closed, ran⟩ := bind_eq_ok.mp ran
              obtain ⟨v, closed', ran⟩ := bind_eq_ok.mp ran
              cases ran
              exact (ok₂.fileclose closed).fileclose closed'
          | some pair =>
              obtain ⟨page, km⟩ := pair
              rw [taken] at ran
              cases ran
              have apart : f₁ ≠ f₀ := by
                rintro rfl
                rw [made₁] at zero₁
                change (Function.update s.file f₁ _ f₁).ref = 0 at zero₁
                rw [Function.update_self] at zero₁
                cases zero₁
              have here₁ : s₂.file f₁ = { s₁.file f₁ with ref := 1 } := by
                rw [made₂]
                exact Function.update_self ..
              have here₀ : s₂.file f₀ = { s.file f₀ with ref := 1 } := by
                rw [made₂, made₁]
                exact (Function.update_of_ne apart.symm _ _).trans (Function.update_self ..)
              have idle₀ : (s₂.file f₀).type ≠ .pipe := by
                rw [here₀]
                exact fun pipe => by cases (ok.pipes.closed f₀ zero₀).symm.trans pipe
              have idle₁ : (s₂.file f₁).type ≠ .pipe := by
                rw [here₁]
                exact fun pipe => by cases (ok₁.pipes.closed f₁ zero₁).symm.trans pipe
              have held₀ : (s₂.file f₀).ref ≠ 0 := by
                rw [here₀]
                exact Nat.one_ne_zero
              have held₁ (r : PipeFile) : (Function.update s₂.file f₀ r f₁).ref ≠ 0 := by
                rw [Function.update_of_ne apart, here₁]
                exact Nat.one_ne_zero
              exact ok₂.openPipe taken apart idle₀ idle₁ ⟨rfl, rfl, rfl⟩ ⟨rfl, rfl, rfl⟩ held₀
                (held₁ _)

theorem step {label : MachineLabel} (ok : MachineOk ld s) (careful : label.Careful ld s)
    (step : MachineStep ld s label t) : MachineOk ld t := by
  cases step with
  | kernel step other => exact ok.ofKernel (ok.inv.step step) (step.pages_kept ok.inv other)
  | exec free ran =>
      obtain ⟨⟨label, _, step⟩, pages⟩ := exec_step ok.inv free careful ran
      exact ok.ofKernel (ok.inv.step step) pages
  | filealloc ran => exact (ok.filealloc ran).1
  | fdInode writable held idle =>
      refine ok.setFile (fun page writable => ?_) fun zero => ?_
      · exact iff_of_false (fun ends => by cases ends.1) fun ends => by cases idle.symm.trans ends.1
      · cases held.symm.trans zero
  | filedup ran => exact ok.filedup ran
  | fileclose ran => exact ok.fileclose ran
  | pipealloc ran => exact ok.pipealloc ran

theorem start (first : (machineSystem ld).initial s) : MachineOk ld s := by
  obtain ⟨b, others, mem, initcode, root, boot, init, kpgdir, cpuStacks, files⟩ := first
  obtain ⟨managed, many⟩ := bootMemory_ok boot
  have free := managed.freeOk
  have pages := userinit_pages free (Nat.le_trans (by decide) many) init
  obtain ⟨_, _, booted⟩ := userinit_booted free init
  have none : ∀ page f writable, ¬ (s.file f).Ends page writable := fun page f writable ends => by
    cases (files f).2.symm.trans ends.1
  have empty : pipePages s.file = ∅ := by
    refine Finset.eq_empty_of_forall_notMem fun page member => ?_
    obtain ⟨f, writable, ends⟩ := mem_pipePages.mp member
    exact none page f writable ends
  refine ⟨booted.inv free, ⟨fun f _ => (files f).2, fun {page} member => ?_,
    fun {f g page writable} left => absurd left (none page f writable)⟩, ?_⟩
  · rw [empty] at member
    exact absurd member (Finset.notMem_empty page)
  · unfold Machine.pages
    rw [pages, empty, kpgdir, cpuStacks, Finset.empty_val, zero_add]
    exact managed

theorem ofReachable (reached : (carefulSystem ld).Reachable s) : MachineOk ld s := by
  obtain ⟨first, labels, begins, run⟩ := reached
  refine run.preserves (fun {state label after} ok next => ?_) (start begins)
  obtain ⟨careful, step⟩ := next
  exact ok.step careful step

end MachineOk

end SlabStudy.Xv6
