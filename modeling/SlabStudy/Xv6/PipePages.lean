import SlabStudy.Xv6.OpenCall
import SlabStudy.Xv6.Pipe

/-!
# Open files and the pages of pipes

A pipe lives in a page of its own as long as one of its two files is open.
The flags in the page say which of them are, and the page may be freed when
both are clear.
-/

namespace SlabStudy.Xv6

/-! ## Open files and pipes -/

/-- `struct file`, as far as pipes are concerned. -/
structure PipeFile where
  type : FileType
  ref : Nat
  writable : Bool
  pipe : Frame

/-- The flags of a `struct pipe`. -/
structure PipeEnds where
  readopen : Bool
  writeopen : Bool

namespace PipeEnds

/-- The flag of one end. -/
def isOpen (e : PipeEnds) (writable : Bool) : Bool :=
  if writable then e.writeopen else e.readopen

/-- Clear the flag of one end. -/
def close (e : PipeEnds) (writable : Bool) : PipeEnds :=
  if writable then { e with writeopen := false } else { e with readopen := false }

/-- The test of `pipeclose` behind that. -/
def Unused (e : PipeEnds) : Prop := e.readopen = false ∧ e.writeopen = false

instance (e : PipeEnds) : Decidable e.Unused := inferInstanceAs (Decidable (_ ∧ _))

theorem isOpen_close (e : PipeEnds) (writable other : Bool) :
    (e.close writable).isOpen other = (e.isOpen other && other != writable) := by
  cases writable <;> cases other <;> simp [close, isOpen]

theorem unused_iff (e : PipeEnds) : e.Unused ↔ ∀ writable, e.isOpen writable = false := by
  simp [Unused, isOpen]

end PipeEnds

/-- An entry of the file table stands for one end of a pipe. -/
def PipeFile.Ends (f : PipeFile) (page : Frame) (writable : Bool) : Prop :=
  f.type = .pipe ∧ f.pipe = page ∧ f.writable = writable

namespace PipeFile.Ends

variable {f : PipeFile} {page : Frame} {writable : Bool}

/-- An entry stands for one end only. -/
theorem iff (ends : f.Ends page writable) (q : Frame) (v : Bool) :
    f.Ends q v ↔ q = page ∧ v = writable := by
  obtain ⟨type, rfl, rfl⟩ := ends
  exact ⟨fun other => ⟨other.2.1.symm, other.2.2.symm⟩,
    fun same => ⟨type, same.1.symm, same.2.symm⟩⟩

end PipeFile.Ends

/-- The pages of the pipes to which a file refers. -/
def pipePages (file : Fin nfile → PipeFile) : Finset Frame :=
  (Finset.univ.filter fun f => (file f).type = .pipe).image fun f => (file f).pipe

theorem mem_pipePages {file : Fin nfile → PipeFile} {page : Frame} :
    page ∈ pipePages file ↔ ∃ f writable, (file f).Ends page writable := by
  unfold pipePages PipeFile.Ends
  rw [Finset.mem_image]
  constructor
  · rintro ⟨f, member, here⟩
    exact ⟨f, _, (Finset.mem_filter.mp member).2, here, rfl⟩
  · rintro ⟨f, _, type, here, _⟩
    exact ⟨f, Finset.mem_filter.mpr ⟨Finset.mem_univ f, type⟩, here⟩

/-- Each end of a pipe has at most one entry, and the flags say which ends have one. -/
structure PipesOk (file : Fin nfile → PipeFile) (ends : Frame → PipeEnds) : Prop where
  closed : ∀ f, (file f).ref = 0 → (file f).type = .none
  flags : ∀ {page}, page ∈ pipePages file → ∀ writable,
    (ends page).isOpen writable = true ↔ ∃ f, (file f).Ends page writable
  unique : ∀ {f g page writable}, (file f).Ends page writable → (file g).Ends page writable → f = g

namespace PipesOk

variable {file : Fin nfile → PipeFile} {ends : Frame → PipeEnds} {f : Fin nfile} {entry : PipeFile}

/-- An entry changes without becoming or ceasing to be the end of a pipe. -/
theorem same (ok : PipesOk file ends)
    (ends_iff : ∀ page writable, entry.Ends page writable ↔ (file f).Ends page writable)
    (closed : entry.ref = 0 → entry.type = .none) :
    PipesOk (Function.update file f entry) ends ∧
      pipePages (Function.update file f entry) = pipePages file := by
  have all (g : Fin nfile) (page : Frame) (writable : Bool) :
      (Function.update file f entry g).Ends page writable ↔ (file g).Ends page writable := by
    by_cases here : g = f
    · subst here
      rw [Function.update_self]
      exact ends_iff page writable
    · rw [Function.update_of_ne here]
  have pages : pipePages (Function.update file f entry) = pipePages file := by
    ext page
    rw [mem_pipePages, mem_pipePages]
    exact exists_congr fun g => exists_congr fun writable => all g page writable
  refine ⟨⟨fun g zero => ?_, fun {page} member writable => ?_,
    fun {g h page writable} left right => ?_⟩, pages⟩
  · by_cases here : g = f
    · subst here
      rw [Function.update_self] at zero ⊢
      exact closed zero
    · rw [Function.update_of_ne here] at zero ⊢
      exact ok.closed g zero
  · rw [pages] at member
    rw [ok.flags member]
    exact exists_congr fun g => (all g page writable).symm
  · exact ok.unique ((all g page writable).mp left) ((all h page writable).mp right)

/-- The last reference to one end of a pipe is dropped. -/
theorem close (ok : PipesOk file ends) {page : Frame} {writable : Bool}
    (here : (file f).Ends page writable) (gone : entry.type = .none) :
    PipesOk (Function.update file f entry)
        (Function.update ends page ((ends page).close writable)) ∧
      pipePages (Function.update file f entry) =
        if ((ends page).close writable).Unused then (pipePages file).erase page
        else pipePages file := by
  have all (g : Fin nfile) (q : Frame) (v : Bool) :
      (Function.update file f entry g).Ends q v ↔ (file g).Ends q v ∧ g ≠ f := by
    by_cases same : g = f
    · subst same
      rw [Function.update_self]
      exact ⟨fun ends => absurd (gone.symm.trans ends.1) (by decide), fun both => absurd rfl both.2⟩
    · rw [Function.update_of_ne same]
      exact ⟨fun ends => ⟨ends, same⟩, And.left⟩
  have member : page ∈ pipePages file := mem_pipePages.mpr ⟨f, writable, here⟩
  -- the flags that are left say which of the other entries is there
  have left (v : Bool) : ((ends page).close writable).isOpen v = true ↔
      ∃ g, (Function.update file f entry g).Ends page v := by
    rw [PipeEnds.isOpen_close, Bool.and_eq_true, bne_iff_ne, ok.flags member]
    constructor
    · rintro ⟨⟨g, other⟩, apart⟩
      refine ⟨g, (all g page v).mpr ⟨other, ?_⟩⟩
      rintro rfl
      exact apart (other.2.2.symm.trans here.2.2)
    · rintro ⟨g, other⟩
      obtain ⟨other, apart⟩ := (all g page v).mp other
      refine ⟨⟨g, other⟩, ?_⟩
      rintro rfl
      exact apart (ok.unique other here)
  have rest {q : Frame} (apart : q ≠ page) :
      q ∈ pipePages (Function.update file f entry) ↔ q ∈ pipePages file := by
    rw [mem_pipePages, mem_pipePages]
    refine exists_congr fun g => exists_congr fun v => (all g q v).trans ?_
    refine ⟨And.left, fun ends => ⟨ends, ?_⟩⟩
    rintro rfl
    exact apart (ends.2.1.symm.trans here.2.1)
  have kept : page ∈ pipePages (Function.update file f entry) ↔
      ¬ ((ends page).close writable).Unused := by
    rw [mem_pipePages, exists_comm, PipeEnds.unused_iff, not_forall]
    exact exists_congr fun v => by rw [← left v, Bool.not_eq_false]
  refine ⟨⟨fun g zero => ?_, fun {q} inside v => ?_, fun {g h q v} first second => ?_⟩, ?_⟩
  · by_cases same : g = f
    · subst same
      rw [Function.update_self]
      exact gone
    · rw [Function.update_of_ne same] at zero ⊢
      exact ok.closed g zero
  · by_cases same : q = page
    · subst same
      rw [Function.update_self]
      exact left v
    · rw [Function.update_of_ne same, ok.flags ((rest same).mp inside)]
      refine exists_congr fun g => (Iff.trans (all g q v) ?_).symm
      refine ⟨And.left, fun ends => ⟨ends, ?_⟩⟩
      rintro rfl
      exact same (ends.2.1.symm.trans here.2.1)
  · exact ok.unique ((all g q v).mp first).1 ((all h q v).mp second).1
  · ext q
    by_cases same : q = page
    · subst same
      rw [kept]
      split
      · next unused => simp [unused]
      · next used => simp [used, member]
    · rw [rest same]
      split
      · exact (Finset.mem_erase.trans (and_iff_right same)).symm
      · rfl

/-- Two entries that stand for nothing become the ends of a new pipe. -/
theorem open_pipe (ok : PipesOk file ends) {f₀ f₁ : Fin nfile} {page : Frame} {r w : PipeFile}
    (apart : f₁ ≠ f₀) (idle₀ : (file f₀).type ≠ .pipe) (idle₁ : (file f₁).type ≠ .pipe)
    (unused : page ∉ pipePages file) (reads : r.Ends page false) (writes : w.Ends page true)
    (held₀ : r.ref ≠ 0) (held₁ : w.ref ≠ 0) :
    PipesOk (Function.update (Function.update file f₀ r) f₁ w)
        (Function.update ends page ⟨true, true⟩) ∧
      pipePages (Function.update (Function.update file f₀ r) f₁ w) =
        insert page (pipePages file) := by
  have here₀ : Function.update (Function.update file f₀ r) f₁ w f₀ = r := by
    rw [Function.update_of_ne apart.symm, Function.update_self]
  have here₁ : Function.update (Function.update file f₀ r) f₁ w f₁ = w := Function.update_self ..
  have others {g : Fin nfile} (left : g ≠ f₀) (right : g ≠ f₁) :
      Function.update (Function.update file f₀ r) f₁ w g = file g := by
    rw [Function.update_of_ne right, Function.update_of_ne left]
  have all (g : Fin nfile) (q : Frame) (v : Bool) :
      (Function.update (Function.update file f₀ r) f₁ w g).Ends q v ↔
        (file g).Ends q v ∨ (q = page ∧ g = if v then f₁ else f₀) := by
    by_cases first : g = f₀
    · subst first
      rw [here₀, reads.iff]
      have none : ¬ (file g).Ends q v := fun ends => idle₀ ends.1
      cases v <;> simp [none, apart.symm]
    · by_cases second : g = f₁
      · subst second
        rw [here₁, writes.iff]
        have none : ¬ (file g).Ends q v := fun ends => idle₁ ends.1
        cases v <;> simp [none, apart]
      · rw [others first second]
        cases v <;> simp [first, second]
  have absent (g : Fin nfile) (v : Bool) : ¬ (file g).Ends page v := fun ends =>
    unused (mem_pipePages.mpr ⟨g, v, ends⟩)
  have pages : pipePages (Function.update (Function.update file f₀ r) f₁ w) =
      insert page (pipePages file) := by
    ext q
    rw [mem_pipePages, Finset.mem_insert, mem_pipePages]
    constructor
    · rintro ⟨g, v, ends⟩
      rcases (all g q v).mp ends with old | ⟨rfl, _⟩
      · exact .inr ⟨g, v, old⟩
      · exact .inl rfl
    · rintro (rfl | ⟨g, v, old⟩)
      · exact ⟨f₀, false, (all f₀ q false).mpr (.inr ⟨rfl, rfl⟩)⟩
      · exact ⟨g, v, (all g q v).mpr (.inl old)⟩
  refine ⟨⟨fun g zero => ?_, fun {q} inside v => ?_, fun {g h q v} left right => ?_⟩, pages⟩
  · by_cases first : g = f₀
    · rw [first, here₀] at zero
      exact absurd zero held₀
    · by_cases second : g = f₁
      · rw [second, here₁] at zero
        exact absurd zero held₁
      · rw [others first second] at zero ⊢
        exact ok.closed g zero
  · by_cases same : q = page
    · subst same
      rw [Function.update_self]
      refine iff_of_true (by cases v <;> rfl) ⟨if v then f₁ else f₀, ?_⟩
      exact (all _ q v).mpr (.inr ⟨rfl, rfl⟩)
    · rw [pages] at inside
      rw [Function.update_of_ne same, ok.flags (Finset.mem_of_mem_insert_of_ne inside same)]
      refine exists_congr fun g => (Iff.trans (all g q v) ?_).symm
      exact or_iff_left fun new => same new.1
  · rcases (all g q v).mp left with old | ⟨rfl, rfl⟩
    · rcases (all h q v).mp right with old' | ⟨rfl, _⟩
      · exact ok.unique old old'
      · exact absurd old (absent g v)
    · rcases (all h q v).mp right with old' | ⟨_, rfl⟩
      · exact absurd old' (absent h v)
      · rfl

end PipesOk

end SlabStudy.Xv6
