import Mathlib.Computability.Language

/-!
# Patterns of letters and stars

A pattern is a row of items, each one letter of a class or a star of such
letters, that may be anchored at either end.  What an item stands for is a
language; a text is searched for a word of the product.
-/

namespace SlabStudy.Library

open Language Computability

variable {α : Type}

/-- The words of one letter of a class. -/
def letterOf (p : α → Prop) : Language α := {word | ∃ letter, word = [letter] ∧ p letter}

inductive Item (σ : Type) where
  | one (c : σ)
  | star (c : σ)
  deriving DecidableEq

structure Pattern (σ : Type) where
  atStart : Bool
  items : List (Item σ)
  atEnd : Bool
  deriving DecidableEq

variable {σ : Type} (accepts : σ → α → Prop)

def Item.language : Item σ → Language α
  | .one c => letterOf (accepts c)
  | .star c => (letterOf (accepts c))∗

/-- What a row of items matches. -/
def rowLanguage : List (Item σ) → Language α
  | [] => 1
  | item :: items => item.language accepts * rowLanguage items

/-- What may stand on a side of the matched part: nothing where it is anchored. -/
def besides : Bool → Language α
  | true => 1
  | false => ⊤

/-- Some part of the text is matched, and nothing is before it or behind it where it is anchored. -/
def Pattern.Finds (pattern : Pattern σ) (text : List α) : Prop :=
  ∃ before found after, text = before ++ found ++ after ∧
    found ∈ rowLanguage accepts pattern.items ∧
    (pattern.atStart = true → before = []) ∧ (pattern.atEnd = true → after = [])

section

variable {accepts} {p : α → Prop} {L : Language α} {letter : α} {text : List α}

theorem nil_notMem_letterOf_mul : [] ∉ letterOf p * L := by
  rw [Language.mem_mul]
  rintro ⟨word, ⟨letter, rfl, -⟩, rest, -, empty⟩
  cases empty

theorem cons_mem_letterOf_mul : letter :: text ∈ letterOf p * L ↔ p letter ∧ text ∈ L := by
  rw [Language.mem_mul]
  constructor
  · rintro ⟨word, ⟨first, rfl, accepted⟩, rest, member, same⟩
    cases same
    exact ⟨accepted, member⟩
  · rintro ⟨accepted, member⟩
    exact ⟨[letter], ⟨letter, rfl, accepted⟩, text, member, rfl⟩

/-- A star is nothing, or a letter and the star again. -/
theorem star_mul : (letterOf p)∗ * L = L + letterOf p * ((letterOf p)∗ * L) := by
  have unfolded := Language.one_add_self_mul_kstar_eq_kstar (letterOf p)
  calc (letterOf p)∗ * L = (1 + letterOf p * (letterOf p)∗) * L := by rw [unfolded]
    _ = L + letterOf p * ((letterOf p)∗ * L) := by rw [add_mul, one_mul, mul_assoc]

theorem nil_mem_star_mul : [] ∈ (letterOf p)∗ * L ↔ [] ∈ L := by
  rw [star_mul, Language.mem_add]
  exact or_iff_left nil_notMem_letterOf_mul

theorem cons_mem_star_mul : letter :: text ∈ (letterOf p)∗ * L ↔
    letter :: text ∈ L ∨ p letter ∧ text ∈ (letterOf p)∗ * L := by
  conv_lhs => rw [star_mul]
  rw [Language.mem_add, cons_mem_letterOf_mul]

theorem mem_besides {anchored : Bool} {word : List α} :
    word ∈ (besides anchored : Language α) ↔ (anchored = true → word = []) := by
  cases anchored with
  | true => exact ⟨fun empty _ => empty, fun empty => empty rfl⟩
  | false => exact ⟨fun _ => nofun, fun _ => trivial⟩

/-- A search is membership in a product. -/
theorem Pattern.finds_iff {pattern : Pattern σ} :
    pattern.Finds accepts text ↔
      text ∈ besides pattern.atStart *
        (rowLanguage accepts pattern.items * besides pattern.atEnd) := by
  rw [Language.mem_mul]
  constructor
  · rintro ⟨before, found, after, rfl, member, first, last⟩
    refine ⟨before, mem_besides.mpr first, found ++ after, ?_, (List.append_assoc ..).symm⟩
    exact Language.append_mem_mul member (mem_besides.mpr last)
  · rintro ⟨before, first, rest, member, rfl⟩
    obtain ⟨found, matched, after, last, rfl⟩ := Language.mem_mul.mp member
    exact ⟨before, found, after, (List.append_assoc ..).symm, matched,
      mem_besides.mp first, mem_besides.mp last⟩

/-- With no anchor a search goes on behind each letter. -/
theorem cons_mem_top_mul : letter :: text ∈ (⊤ : Language α) * L ↔
    letter :: text ∈ L ∨ text ∈ (⊤ : Language α) * L := by
  simp only [Language.mem_mul]
  constructor
  · rintro ⟨before, -, rest, member, same⟩
    cases before with
    | nil => exact .inl (same ▸ member)
    | cons first before =>
        cases same
        exact .inr ⟨before, trivial, rest, member, rfl⟩
  · rintro (member | ⟨before, -, rest, member, rfl⟩)
    · exact ⟨[], trivial, letter :: text, member, rfl⟩
    · exact ⟨letter :: before, trivial, rest, member, rfl⟩

theorem nil_mem_top_mul : [] ∈ (⊤ : Language α) * L ↔ [] ∈ L := by
  simp only [Language.mem_mul]
  constructor
  · rintro ⟨before, -, rest, member, empty⟩
    obtain ⟨rfl, rfl⟩ := List.append_eq_nil_iff.mp empty
    exact member
  · exact fun member => ⟨[], trivial, [], member, rfl⟩

end

end SlabStudy.Library
