import SlabStudy.Library.Pattern

/-!
# The matcher of grep

`match`, `matchhere` and `matchstar` over strings, each the list of its
characters before the NUL, so that `[]` is a pointer to the NUL.
-/

namespace SlabStudy.Xv6.Grep

open Library

def caret : UInt8 := 94
def dollar : UInt8 := 36
def star : UInt8 := 42
def dot : UInt8 := 46

mutual

/-- `matchhere: search for re at beginning of text`. -/
def matchhere (re text : List UInt8) : Bool :=
  match re with
  | [] => true
  | c :: re =>
      if re.head? = some star then matchstar c re.tail text
      else if c = dollar ∧ re = [] then text.isEmpty
      else match text with
        | [] => false
        | t :: text => if c = dot ∨ c = t then matchhere re text else false
termination_by (re.length, text.length, 0)
decreasing_by
  · exact Prod.Lex.left _ _ (by simp only [List.length_tail, List.length_cons]; omega)
  · exact Prod.Lex.left _ _ (by simp only [List.length_cons]; omega)

/-- `matchstar: search for c*re at beginning of text`. -/
def matchstar (c : UInt8) (re text : List UInt8) : Bool :=
  if matchhere re text then true
  else match text with
    | [] => false
    | t :: text => if t = c ∨ c = dot then matchstar c re text else false
termination_by (re.length, text.length, 1)
decreasing_by
  · exact Prod.Lex.right _ (Prod.Lex.right _ Nat.zero_lt_one)
  · exact Prod.Lex.right _ (Prod.Lex.left _ _ (by simp only [List.length_cons]; omega))

end

/-- The loop of `match`, which must look at the empty string. -/
def matchFrom (re : List UInt8) : List UInt8 → Bool
  | [] => matchhere re []
  | t :: text => if matchhere re (t :: text) then true else matchFrom re text

/-- `match`. -/
def matchLine (re text : List UInt8) : Bool :=
  if re.head? = some caret then matchhere re.tail text else matchFrom re text

/-! ## The language of a pattern -/

/-- A letter of the pattern accepts itself, and `.` any character. -/
def Accepts (c t : UInt8) : Prop := c = dot ∨ c = t

/-- The items of a pattern behind its `^`, and whether a final `$` ends it. -/
def items : List UInt8 → List (Item UInt8) × Bool
  | [] => ([], false)
  | [c] => if c = dollar then ([], true) else ([.one c], false)
  | c :: next :: re =>
      if next = star then ((items re).map (List.cons (.star c)) id)
      else ((items (next :: re)).map (List.cons (.one c)) id)

/-- What a pattern means: a leading `^` anchors it, and so does a final `$`. -/
def meaning (re : List UInt8) : Pattern UInt8 :=
  if re.head? = some caret then ⟨true, (items re.tail).1, (items re.tail).2⟩
  else ⟨false, (items re).1, (items re).2⟩

-- A star behind the anchor is a letter, which the next one may repeat.
example : meaning [caret, star, star, dot, dollar] = ⟨true, [.star star, .one dot], true⟩ := by
  decide

/-! ## Their equations -/

theorem matchhere_nil (text : List UInt8) : matchhere [] text = true := by
  rw [matchhere]

theorem matchhere_star (c : UInt8) (re text : List UInt8) :
    matchhere (c :: star :: re) text = matchstar c re text := by
  unfold matchhere
  exact if_pos rfl

theorem matchhere_dollar (text : List UInt8) :
    matchhere [dollar] text = text.isEmpty := by
  unfold matchhere
  rfl

variable {c t : UInt8} {re text : List UInt8}

theorem matchhere_letter_nil (literal : re.head? ≠ some star) (inner : ¬ (c = dollar ∧ re = [])) :
    matchhere (c :: re) [] = false := by
  rw [matchhere, if_neg literal, if_neg inner]

theorem matchhere_letter (literal : re.head? ≠ some star) (inner : ¬ (c = dollar ∧ re = [])) :
    matchhere (c :: re) (t :: text) = true ↔ Accepts c t ∧ matchhere re text = true := by
  rw [matchhere, if_neg literal, if_neg inner]
  by_cases accepted : c = dot ∨ c = t
  · simp [Accepts, accepted]
  · simp [Accepts, accepted]

theorem matchstar_nil : matchstar c re [] = matchhere re [] := by
  rw [matchstar]
  cases matchhere re [] <;> rfl

theorem matchstar_cons : matchstar c re (t :: text) = true ↔
    matchhere re (t :: text) = true ∨ Accepts c t ∧ matchstar c re text = true := by
  have accepted_iff : (t = c ∨ c = dot) ↔ Accepts c t := by
    rw [Accepts, or_comm, eq_comm (a := t)]
  rw [matchstar]
  cases matchhere re (t :: text) with
  | true => simp
  | false => by_cases accepted : Accepts c t <;> simp [accepted_iff, accepted]

/-! ## What they accept -/

/-- `matchstar` is the star of its letter before what `matchhere` accepts. -/
theorem matchstar_iff {rest : Language UInt8}
    (here : ∀ text, matchhere re text = true ↔ text ∈ rest) :
    matchstar c re text = true ↔ text ∈ (Item.star c).language Accepts * rest := by
  induction text with
  | nil =>
      rw [matchstar_nil, here]
      exact nil_mem_star_mul.symm
  | cons t text ih =>
      rw [matchstar_cons, here, ih]
      exact cons_mem_star_mul.symm

theorem matchhere_one (rest : Language UInt8) (literal : re.head? ≠ some star)
    (inner : ¬ (c = dollar ∧ re = []))
    (here : ∀ text, matchhere re text = true ↔ text ∈ rest) :
    matchhere (c :: re) text = true ↔ text ∈ (Item.one c).language Accepts * rest := by
  cases text with
  | nil =>
      rw [matchhere_letter_nil literal inner]
      exact iff_of_false Bool.false_ne_true nil_notMem_letterOf_mul
  | cons t text =>
      rw [matchhere_letter literal inner, here]
      exact cons_mem_letterOf_mul.symm

theorem matchhere_iff (re text : List UInt8) :
    matchhere re text = true ↔
      text ∈ rowLanguage Accepts (items re).1 * besides (items re).2 := by
  induction re using items.induct generalizing text with
  | case1 =>
      rw [matchhere_nil, items, rowLanguage, one_mul, mem_besides]
      exact iff_of_true rfl nofun
  | case2 =>
      rw [matchhere_dollar, List.isEmpty_iff, items, if_pos rfl, rowLanguage, one_mul,
        mem_besides]
      exact ⟨fun empty _ => empty, fun empty => empty rfl⟩
  | case3 c plain =>
      have step : matchhere [c] text = true ↔ _ :=
        matchhere_one (besides false) nofun (fun h => plain h.1)
          fun text => iff_of_true (matchhere_nil text) trivial
      rw [step, items, if_neg plain, rowLanguage, rowLanguage, mul_one]
  | case4 c re ih =>
      rw [matchhere_star, matchstar_iff ih, items, if_pos rfl]
      simp only [Prod.map_fst, Prod.map_snd, id, rowLanguage, mul_assoc]
  | case5 c next re plain ih =>
      have literal : (next :: re).head? ≠ some star := fun h => plain (Option.some.inj h)
      rw [matchhere_one _ literal (fun h => nomatch h.2) ih, items, if_neg plain]
      simp only [Prod.map_fst, Prod.map_snd, id, rowLanguage, mul_assoc]

theorem matchFrom_iff {here : Language UInt8}
    (same : ∀ text, matchhere re text = true ↔ text ∈ here) :
    matchFrom re text = true ↔ text ∈ (⊤ : Language UInt8) * here := by
  induction text with
  | nil =>
      rw [matchFrom, same]
      exact nil_mem_top_mul.symm
  | cons t text ih =>
      rw [matchFrom, cons_mem_top_mul, ← ih, ← same]
      cases matchhere re (t :: text) <;> simp

/-- The matcher accepts a text exactly when the meaning of the pattern is found in it. -/
theorem matchLine_iff (re text : List UInt8) :
    matchLine re text = true ↔ (meaning re).Finds Accepts text := by
  rw [Pattern.finds_iff, matchLine, meaning]
  by_cases anchored : re.head? = some caret
  · simp only [if_pos anchored]
    rw [matchhere_iff, besides, one_mul]
  · simp only [if_neg anchored]
    exact matchFrom_iff (matchhere_iff re)

end SlabStudy.Xv6.Grep
