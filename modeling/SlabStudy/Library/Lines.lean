import Mathlib.Data.List.Basic
import Mathlib.Data.List.Flatten

/-!
# Lines

A text is a row of lines, each ended by a mark that occurs nowhere else.
-/

namespace SlabStudy.Library

variable {α : Type} {mark : α} {line rest more : List α} {lines first : List (List α)}

/-- The text of these lines. -/
def unlines (mark : α) (lines : List (List α)) : List α := lines.flatMap (· ++ [mark])

theorem unlines_cons : unlines mark (line :: lines) = line ++ mark :: unlines mark lines := by
  rw [unlines, List.flatMap_cons, List.append_assoc]
  rfl

theorem unlines_append (first second : List (List α)) :
    unlines mark (first ++ second) = unlines mark first ++ unlines mark second :=
  List.flatMap_append

theorem length_unlines_filter (p : List α → Bool) (lines : List (List α)) :
    (unlines mark (lines.filter p)).length ≤ (unlines mark lines).length :=
  (List.filter_sublist.flatMap _).length_le

/-- Any text is a row of lines and the start of another one. -/
theorem exists_unlines [DecidableEq α] (mark : α) (text : List α) : ∃ lines rest,
    text = unlines mark lines ++ rest ∧ (∀ line ∈ lines, mark ∉ line) ∧ mark ∉ rest := by
  induction text with
  | nil => exact ⟨[], [], rfl, nofun, nofun⟩
  | cons x text ih =>
      obtain ⟨lines, rest, rfl, clean, last⟩ := ih
      by_cases ended : x = mark
      · subst ended
        refine ⟨[] :: lines, rest, by rw [unlines_cons]; rfl, ?_, last⟩
        exact List.forall_mem_cons.mpr ⟨nofun, clean⟩
      · cases lines with
        | nil =>
            exact ⟨[], x :: rest, rfl, nofun, List.not_mem_cons_of_ne_of_not_mem (Ne.symm ended) last⟩
        | cons line lines =>
            refine ⟨(x :: line) :: lines, rest, by rw [unlines_cons, unlines_cons]; rfl, ?_, last⟩
            obtain ⟨head, tail⟩ := List.forall_mem_cons.mp clean
            refine List.forall_mem_cons.mpr ⟨?_, tail⟩
            exact List.not_mem_cons_of_ne_of_not_mem (Ne.symm ended) head

theorem mark_mem_unlines (some : lines ≠ []) : mark ∈ unlines mark lines := by
  cases lines with
  | nil => exact absurd rfl some
  | cons line lines =>
      rw [unlines_cons]
      exact List.mem_append_right _ List.mem_cons_self

/-- What stands before the first mark, and what behind it. -/
theorem first_mark {other behind : List α} (clean : mark ∉ line) (front : mark ∉ other)
    (same : line ++ mark :: rest = other ++ mark :: behind) : line = other ∧ rest = behind := by
  induction line generalizing other with
  | nil =>
      cases other with
      | nil => exact ⟨rfl, (List.cons.inj same).2⟩
      | cons x other => exact absurd ((List.cons.inj same).1 ▸ List.mem_cons_self) front
  | cons x line ih =>
      cases other with
      | nil => exact absurd ((List.cons.inj same).1 ▸ List.mem_cons_self) clean
      | cons y other =>
          obtain ⟨rfl, tails⟩ := List.cons.inj same
          obtain ⟨rfl, ends⟩ := ih (fun member => clean (.tail _ member))
            (fun member => front (.tail _ member)) tails
          exact ⟨rfl, ends⟩

/-- The lines at the front of a text are its first lines. -/
theorem unlines_cut (clean : ∀ line ∈ lines, mark ∉ line) (front : ∀ line ∈ first, mark ∉ line)
    (same : unlines mark lines = unlines mark first ++ more) :
    ∃ others, lines = first ++ others ∧ more = unlines mark others := by
  induction first generalizing lines with
  | nil => exact ⟨lines, rfl, same.symm⟩
  | cons line first ih =>
      cases lines with
      | nil =>
          rw [unlines_cons, List.append_assoc] at same
          exact absurd (congrArg List.length same) (by simp [unlines])
      | cons line' lines =>
          rw [unlines_cons, unlines_cons, List.append_assoc, List.cons_append] at same
          obtain ⟨rfl, rest⟩ :=
            first_mark (clean line' List.mem_cons_self) (front line List.mem_cons_self) same
          obtain ⟨others, rfl, tail⟩ := ih (fun line member => clean line (.tail _ member))
            (fun line member => front line (.tail _ member)) rest
          exact ⟨others, rfl, tail⟩

end SlabStudy.Library
