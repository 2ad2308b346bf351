import Mathlib.Data.List.TakeWhile
import SlabStudy.Xv6.Shell

/-!
# The tokens of a command line

`gettoken` cuts a command line into tokens, and the position of the parser is
known by the tokens that are left.  `peek` looks at the first of them.
-/

namespace SlabStudy.Xv6.Shell

variable {s : List Char} {p : Nat} {test : Char → Bool} {t : Token} {ts : List Token}

/-! ## Scanning -/

theorem charAt_eq (s : List Char) (p : Nat) : charAt s p = (s.drop p).head?.getD nul := by
  rw [List.head?_drop]
  rfl

theorem drop_scan (test : Char → Bool) (s : List Char) (p : Nat) :
    s.drop (scan test s p) = (s.drop p).dropWhile test := by
  unfold scan
  rw [← List.drop_drop]
  generalize s.drop p = rest
  induction rest with
  | nil => rfl
  | cons c rest ih =>
      by_cases passes : test c = true
      · rw [List.takeWhile_cons_of_pos passes, List.dropWhile_cons_of_pos passes]
        exact ih
      · rw [List.takeWhile_cons_of_neg passes, List.dropWhile_cons_of_neg passes]
        rfl

theorem le_scan (test : Char → Bool) (s : List Char) (p : Nat) : p ≤ scan test s p :=
  Nat.le_add_right ..

theorem scan_le (test : Char → Bool) (inside : p ≤ s.length) : scan test s p ≤ s.length := by
  have short := (List.takeWhile_sublist test (l := s.drop p)).length_le
  rw [List.length_drop] at short
  unfold scan
  omega

/-- A scan that begins where one ended does not move. -/
theorem scan_scan (test : Char → Bool) (s : List Char) (p : Nat) :
    scan test s (scan test s p) = scan test s p := by
  have stays : (s.drop (scan test s p)).takeWhile test = [] := by
    rw [drop_scan]
    cases left : (s.drop p).dropWhile test with
    | nil => rfl
    | cons c rest =>
        refine List.takeWhile_cons_of_neg ?_
        have head := List.head?_dropWhile_not test (s.drop p)
        rw [left] at head
        simpa using head
  change scan test s p + _ = _
  rw [stays]
  rfl

/-- The characters that a scan has passed. -/
theorem scan_passed {i : Nat} (low : p ≤ i) (high : i < scan test s p) :
    test (charAt s i) = true := by
  have inside : i - p < ((s.drop p).takeWhile test).length := by
    unfold scan at high
    omega
  have here : charAt s i = ((s.drop p).takeWhile test)[i - p] := by
    have below : i < s.length := by
      have short := (List.takeWhile_sublist test (l := s.drop p)).length_le
      rw [List.length_drop] at short
      omega
    rw [(List.takeWhile_prefix test).getElem inside, List.getElem_drop, charAt,
      List.getElem?_eq_getElem below, Option.getD_some]
    simp only [Nat.add_sub_cancel' low]
  rw [here]
  exact List.mem_takeWhile_imp (List.getElem_mem inside)

/-- The character at which a scan stops. -/
theorem scan_stopped (inside : scan test s p < s.length) :
    test (charAt s (scan test s p)) = false := by
  rw [charAt_eq, drop_scan]
  cases left : (s.drop p).dropWhile test with
  | nil =>
      have all := congrArg List.length (drop_scan test s p)
      rw [left, List.length_drop, List.length_nil] at all
      omega
  | cons c rest =>
      have head := List.head?_dropWhile_not test (s.drop p)
      rw [left] at head
      simpa using head

/-! ## Tokens -/

/-- From position `p` on, `gettoken` cuts the string into the tokens `ts`. -/
inductive Tokens (s : List Char) : Nat → List Token → Prop where
  | stop {p : Nat} (inside : p ≤ s.length) (last : (gettoken s p).1.ret = nul) : Tokens s p []
  | token {p : Nat} {ts : List Token} (more : (gettoken s p).1.ret ≠ nul)
      (rest : Tokens s (gettoken s p).2 ts) : Tokens s p ((gettoken s p).1 :: ts)

/-- White space in front of a token is no part of it. -/
theorem gettoken_scan (s : List Char) (p : Nat) : gettoken s (scan isSpace s p) = gettoken s p := by
  unfold gettoken
  rw [scan_scan]

theorem Tokens.scan (tokens : Tokens s p ts) : Tokens s (scan isSpace s p) ts := by
  cases tokens with
  | stop inside last => exact .stop (scan_le _ inside) (by rw [gettoken_scan]; exact last)
  | token more rest =>
      rw [← gettoken_scan] at more rest ⊢
      exact .token more rest

theorem Tokens.uncons (tokens : Tokens s p (t :: ts)) :
    (gettoken s p).1 = t ∧ t.ret ≠ nul ∧ Tokens s (gettoken s p).2 ts := by
  cases tokens with
  | token more rest => exact ⟨rfl, more, rest⟩

theorem Tokens.ends (tokens : Tokens s p []) : (gettoken s p).1.ret = nul := by
  cases tokens with
  | stop _ last => exact last

/-- The string is cut into tokens in one way. -/
theorem Tokens.unique {us : List Token} (left : Tokens s p ts) (right : Tokens s p us) : ts = us := by
  induction left generalizing us with
  | stop _ last =>
      cases right with
      | stop => rfl
      | token more => exact absurd last more
  | token more rest ih =>
      cases right with
      | stop _ last => exact absurd last more
      | token _ rest' => rw [ih rest']

/-- Behind the end of a string there is only its NUL. -/
theorem charAt_inside (some : charAt s p ≠ nul) : p < s.length := by
  by_contra outside
  refine some ?_
  rw [charAt, List.getElem?_eq_none (Nat.le_of_not_lt outside)]
  rfl

/-- The tokens, by the character they start with. -/
theorem gettoken_cases (s : List Char) (p : Nat) :
    let t := (gettoken s p).1
    let c := charAt s t.q
    (c = nul ∧ t.ret = nul ∧ t.eq = t.q) ∨
    (c ∈ ['|', '(', ')', ';', '&', '<'] ∧ t.ret = c ∧ t.eq = t.q + 1) ∨
    (c = '>' ∧ t.ret = '>' ∧ t.eq = t.q + 1) ∨
    (c = '>' ∧ t.ret = '+' ∧ t.eq = t.q + 2 ∧ charAt s (t.q + 1) = '>') ∨
    (c ≠ nul ∧ isWord c = true ∧ t.ret = 'a' ∧ t.eq = Shell.scan isWord s t.q) := by
  intro t c
  have shape : (t.ret, t.eq) = if c = nul then (c, t.q)
      else if c ∈ ['|', '(', ')', ';', '&', '<'] then (c, t.q + 1)
      else if c = '>' then if charAt s (t.q + 1) = '>' then ('+', t.q + 2) else (c, t.q + 1)
      else ('a', Shell.scan isWord s t.q) := rfl
  by_cases none : c = nul
  · rw [if_pos none, Prod.mk.injEq] at shape
    exact .inl ⟨none, shape.1.trans none, shape.2⟩
  · rw [if_neg none] at shape
    by_cases single : c ∈ ['|', '(', ')', ';', '&', '<']
    · rw [if_pos single, Prod.mk.injEq] at shape
      exact .inr (.inl ⟨single, shape⟩)
    · rw [if_neg single] at shape
      by_cases greater : c = '>'
      · rw [if_pos greater] at shape
        by_cases twice : charAt s (t.q + 1) = '>'
        · rw [if_pos twice, Prod.mk.injEq] at shape
          exact .inr (.inr (.inr (.inl ⟨greater, shape.1, shape.2, twice⟩)))
        · rw [if_neg twice, Prod.mk.injEq, greater] at shape
          exact .inr (.inr (.inl ⟨greater, shape⟩))
      · rw [if_neg greater, Prod.mk.injEq] at shape
        refine .inr (.inr (.inr (.inr ⟨none, ?_, shape⟩)))
        have stop : isSpace c = false := scan_stopped (charAt_inside none)
        have other : symbols.contains c = false := by
          rw [← Bool.not_eq_true, List.contains_iff_mem]
          intro member
          simp only [symbols, List.mem_cons, List.not_mem_nil, or_false] at member single
          tauto
        change (!isSpace c && !symbols.contains c) = true
        rw [stop, other]
        rfl

/-- The token ends behind its start and within the string. -/
theorem gettoken_inside (some : (gettoken s p).1.ret ≠ nul) :
    p ≤ (gettoken s p).1.q ∧ (gettoken s p).1.q < (gettoken s p).1.eq ∧
      (gettoken s p).1.eq ≤ s.length ∧ (gettoken s p).1.eq ≤ (gettoken s p).2 ∧
      (gettoken s p).2 ≤ s.length := by
  have first : p ≤ (gettoken s p).1.q := le_scan ..
  have last : (gettoken s p).1.eq ≤ (gettoken s p).2 := le_scan ..
  suffices both : (gettoken s p).1.q < (gettoken s p).1.eq ∧ (gettoken s p).1.eq ≤ s.length from
    ⟨first, both.1, both.2, last, scan_le _ both.2⟩
  rcases gettoken_cases s p with ⟨_, none, _⟩ | ⟨single, same, ends⟩ | ⟨greater, _, ends⟩ |
    ⟨greater, _, ends, twice⟩ | ⟨word, passes, _, ends⟩
  · exact absurd none some
  · have inside : (gettoken s p).1.q < s.length := charAt_inside (same ▸ some)
    omega
  · have inside : (gettoken s p).1.q < s.length :=
      charAt_inside (by rw [greater]; decide)
    omega
  · have inside : (gettoken s p).1.q + 1 < s.length :=
      charAt_inside (by rw [twice]; decide)
    omega
  · have inside := charAt_inside word
    rw [ends]
    refine ⟨?_, scan_le _ inside.le⟩
    by_contra stays
    have here : Shell.scan isWord s (gettoken s p).1.q = (gettoken s p).1.q :=
      Nat.le_antisymm (Nat.le_of_not_lt stays) (le_scan ..)
    have within : Shell.scan isWord s (gettoken s p).1.q < s.length := here.symm ▸ inside
    have stopped := scan_stopped within
    rw [here, passes] at stopped
    cases stopped

/-- Every string is cut into tokens, and there are no more of them than characters. -/
theorem Tokens.exists (inside : p ≤ s.length) :
    ∃ ts, Tokens s p ts ∧ ts.length ≤ s.length - p := by
  generalize left : s.length - p = n
  induction n using Nat.strong_induction_on generalizing p with
  | _ n ih =>
      by_cases last : (gettoken s p).1.ret = nul
      · exact ⟨[], .stop inside last, Nat.zero_le _⟩
      · obtain ⟨first, some, _, next, within⟩ := gettoken_inside last
        obtain ⟨ts, rest, short⟩ := ih (s.length - (gettoken s p).2) (by omega) within rfl
        exact ⟨_, .token last rest, by rw [List.length_cons]; omega⟩

/-- The character that a token starts with, for a word any that is no symbol. -/
def Token.lead (t : Token) : Char := if t.ret = '+' then '>' else t.ret

/-- The first token starts with one of `toks`. -/
def starts (toks : List Char) (ts : List Token) : Bool := ts.head?.any fun t => toks.contains t.lead

/-- All of these symbols are among those. -/
def within (toks toks' : List Char) : Bool := toks.all toks'.contains

/-- None of these symbols is among those. -/
def apart (toks toks' : List Char) : Bool := toks.all fun c => !toks'.contains c

theorem within_mem {toks toks' : List Char} (all : within toks toks' = true) {c : Char}
    (member : c ∈ toks) : c ∈ toks' :=
  List.contains_iff_mem.mp (List.all_eq_true.mp all c member)

theorem apart_not_mem {toks toks' : List Char} (none : apart toks toks' = true) {c : Char}
    (member : c ∈ toks) : c ∉ toks' := by
  have absent := List.all_eq_true.mp none c member
  rw [Bool.not_eq_true', ← Bool.not_eq_true, List.contains_iff_mem] at absent
  exact absent

/-- `peek` tells what the first token starts with. -/
theorem Tokens.peek (tokens : Tokens s p ts) {toks : List Char} (only : within toks symbols = true) :
    Shell.peek s p toks = (starts toks ts, Shell.scan isSpace s p) := by
  have word : 'a' ∉ toks := fun member => absurd (within_mem only member) (by decide)
  refine Prod.ext ?_ rfl
  change (charAt s (gettoken s p).1.q ≠ nul && toks.contains (charAt s (gettoken s p).1.q)) = _
  cases tokens with
  | stop _ last =>
      have none : charAt s (gettoken s p).1.q = nul := by
        rcases gettoken_cases s p with ⟨none, _⟩ | ⟨_, same, _⟩ | ⟨_, same, _⟩ | ⟨_, same, _⟩ |
          ⟨_, _, same, _⟩
        · exact none
        · exact same.symm.trans last
        · exact absurd (same.symm.trans last) (by decide)
        · exact absurd (same.symm.trans last) (by decide)
        · exact absurd (same.symm.trans last) (by decide)
      rw [none]
      rfl
  | token more rest =>
      change _ = toks.contains (gettoken s p).1.lead
      unfold Token.lead
      rcases gettoken_cases s p with ⟨_, none, _⟩ | ⟨single, same, _⟩ | ⟨greater, same, _⟩ |
        ⟨greater, same, _⟩ | ⟨some, passes, same, _⟩
      · exact absurd none more
      · have plain : charAt s (gettoken s p).1.q ≠ '+' := by
          intro plus
          rw [plus] at single
          exact absurd single (by decide)
        rw [same] at more ⊢
        rw [if_neg plain, decide_eq_true more, Bool.true_and]
      · rw [same, greater]
        rfl
      · rw [same, greater]
        rfl
      · have other : toks.contains (charAt s (gettoken s p).1.q) = false := by
          rw [← Bool.not_eq_true, List.contains_iff_mem]
          intro member
          have symbol := within_mem only member
          unfold isWord at passes
          rw [List.contains_iff_mem.mpr symbol] at passes
          simp at passes
        have none : toks.contains 'a' = false := by
          rw [← Bool.not_eq_true, List.contains_iff_mem]
          exact word
        rw [same, other, Bool.and_false]
        exact none.symm

end SlabStudy.Xv6.Shell
