import Mathlib

/-!
# The screen as a window on a sheet of paper

`cgaputc` moves the contents of the CGA memory when the cursor leaves the
screen.  What it shows is a part of an endless sheet on which nothing moves.
-/

namespace SlabStudy.Xv6.Screen

/-- The CGA memory, and the cursor position in the registers 14 and 15. -/
structure Cga where
  crt : Nat → BitVec 16
  pos : Nat

/-- `'\n'` and `BACKSPACE` -/
abbrev newline : Nat := 10

abbrev backspace : Nat := 0x100

/-- Black on white. -/
def cell (c : Nat) : BitVec 16 := BitVec.ofNat 16 (c % 256) ||| 0x0700

/-- The stores of the first part, and the cursor behind it. -/
def advance (c : Nat) (s : Cga) : Cga :=
  if c = newline then { s with pos := s.pos + (80 - s.pos % 80) }
  else if c = backspace then { s with pos := s.pos - 1 }
  else ⟨Function.update s.crt s.pos (cell c), s.pos + 1⟩

/-- Scroll up: `memmove` of 23 rows, and `memset` from the cursor to the end of 24 rows. -/
def scroll (s : Cga) : Cga where
  crt i :=
    if s.pos - 80 ≤ i ∧ i < 24 * 80 then 0 else if i < 23 * 80 then s.crt (i + 80) else s.crt i
  pos := s.pos - 80

/-- `cgaputc`; `none` is its panic. -/
def cgaputc (s : Cga) (c : Nat) : Option Cga :=
  let s := advance c s
  if 25 * 80 < s.pos then none
  else
    let s := if 24 ≤ s.pos / 80 then scroll s else s
    some ⟨Function.update s.crt s.pos (cell 32), s.pos % 2 ^ 16⟩

/-- The characters one after the other. -/
def cgaputs (s : Cga) (text : List Nat) : Option Cga := text.foldlM cgaputc s

/-! ## The sheet -/

/-- A sheet that is 80 wide and has no end; `top` is where the visible part begins. -/
structure Paper where
  cells : Nat → BitVec 16
  top : Nat
  cursor : Nat

/-- A character is written, and the visible part goes down when the cursor leaves it. -/
def Paper.write (p : Paper) (cells : Nat → BitVec 16) (cursor : Nat) : Paper where
  cells := Function.update cells cursor (cell 32)
  top := if cursor < p.top + 24 * 80 then p.top else p.top + 80
  cursor := cursor

@[simp] theorem Paper.write_cells (p : Paper) (cells : Nat → BitVec 16) (cursor : Nat) :
    (p.write cells cursor).cells = Function.update cells cursor (cell 32) := rfl

@[simp] theorem Paper.write_cursor (p : Paper) (cells : Nat → BitVec 16) (cursor : Nat) :
    (p.write cells cursor).cursor = cursor := rfl

def Paper.put (p : Paper) (c : Nat) : Paper :=
  if c = newline then p.write p.cells (p.cursor + (80 - p.cursor % 80))
  else if c = backspace then
    p.write p.cells (if p.top < p.cursor then p.cursor - 1 else p.cursor)
  else p.write (Function.update p.cells p.cursor (cell c)) (p.cursor + 1)

def Paper.puts (p : Paper) (text : List Nat) : Paper := text.foldl Paper.put p

/-- The sheet that begins with the screen. -/
def Cga.paper (s : Cga) : Paper where
  cells i := if i < 24 * 80 then s.crt i else 0
  top := 0
  cursor := s.pos

/-- The screen is the visible part, and below it the sheet is empty. -/
structure Shows (s : Cga) (p : Paper) : Prop where
  rows : p.top % 80 = 0
  cursor : p.cursor = p.top + s.pos
  inside : s.pos < 24 * 80
  cells : ∀ i, i < 24 * 80 → s.crt i = p.cells (p.top + i)
  below : ∀ i, p.top + 24 * 80 ≤ i → p.cells i = 0

variable {s s' : Cga} {p : Paper} {c : Nat}

theorem Cga.shows (inside : s.pos < 24 * 80) : Shows s s.paper := by
  refine ⟨rfl, (Nat.zero_add s.pos).symm, inside, fun i less => ?_, fun i high => ?_⟩
  · rw [paper, Nat.zero_add]
    exact (if_pos less).symm
  · rw [paper, Nat.zero_add] at high
    exact if_neg (by omega)

/-- What the first part leaves: the cursor may be at the start of the next row. -/
structure Moved (s : Cga) (top : Nat) (sheet : Nat → BitVec 16) (place : Nat) : Prop where
  rows : top % 80 = 0
  cursor : place = top + s.pos
  inside : s.pos ≤ 24 * 80
  cells : ∀ i, i < 24 * 80 → s.crt i = sheet (top + i)
  below : ∀ i, top + 24 * 80 ≤ i → sheet i = 0

/-- The second part: the screen scrolls, or does not. -/
theorem Moved.shows {cells : Nat → BitVec 16} {cursor : Nat}
    (moved : Moved s p.top cells cursor) : ∃ s',
      (if 25 * 80 < s.pos then none
        else
          let s := if 24 ≤ s.pos / 80 then scroll s else s
          some ⟨Function.update s.crt s.pos (cell 32), s.pos % 2 ^ 16⟩) = some s' ∧
        Shows s' (p.write cells cursor) := by
  obtain ⟨rows, place, inside, same, below⟩ := moved
  have fine : ¬ 25 * 80 < s.pos := by omega
  rw [if_neg fine]
  by_cases out : s.pos = 24 * 80
  · -- The cursor is at the start of the row behind the last one.
    have scrolls : 24 ≤ s.pos / 80 := by omega
    have leaves : ¬ cursor < p.top + 24 * 80 := by omega
    have top : (p.write cells cursor).top = p.top + 80 := if_neg leaves
    refine ⟨_, rfl, ?_, ?_, ?_, fun i less => ?_, fun i high => ?_⟩
    · rw [top]
      omega
    · rw [top]
      simp only [if_pos scrolls, scroll, Paper.write]
      omega
    · simp only [if_pos scrolls, scroll]
      omega
    · simp only [if_pos scrolls, Paper.write, if_neg leaves]
      have shift : (scroll s).pos = 23 * 80 := by
        simp only [scroll, out]
      rw [shift]
      by_cases own : i = 23 * 80
      · have here : p.top + 80 + i = cursor := by omega
        rw [own, Function.update_self, ← own, here, Function.update_self]
      · rw [Function.update_of_ne own, Function.update_of_ne (by omega)]
        simp only [scroll, out]
        by_cases last : 23 * 80 ≤ i
        · rw [if_pos ⟨last, less⟩, below _ (by omega)]
        · rw [if_neg (by omega), if_pos (by omega), same _ (by omega)]
          congr 1
          omega
    · rw [top] at high
      rw [Paper.write_cells, Function.update_of_ne (by omega)]
      exact below i (by omega)
  · have stays : ¬ 24 ≤ s.pos / 80 := by omega
    have holds : cursor < p.top + 24 * 80 := by omega
    have top : (p.write cells cursor).top = p.top := if_pos holds
    refine ⟨_, rfl, ?_, ?_, ?_, fun i less => ?_, fun i high => ?_⟩
    · rw [top]
      exact rows
    · rw [top]
      simp only [if_neg stays, Paper.write]
      omega
    · simp only [if_neg stays]
      omega
    · simp only [if_neg stays, Paper.write, if_pos holds]
      by_cases own : i = s.pos
      · rw [own, Function.update_self, ← place, Function.update_self]
      · rw [Function.update_of_ne own, Function.update_of_ne (by omega)]
        exact same i less
    · rw [top] at high
      rw [Paper.write_cells, Function.update_of_ne (by omega)]
      exact below i high

/-- One character. -/
theorem Shows.put (shows' : Shows s p) (c : Nat) :
    ∃ s', cgaputc s c = some s' ∧ Shows s' (p.put c) := by
  obtain ⟨rows, cursor, inside, cells, below⟩ := shows'
  unfold cgaputc advance Paper.put
  split
  · refine Moved.shows ⟨rows, ?_, ?_, cells, below⟩
    · dsimp only
      omega
    · dsimp only
      omega
  · split
    · refine Moved.shows ⟨rows, ?_, ?_, cells, below⟩
      · dsimp only
        split <;> omega
      · dsimp only
        omega
    · refine Moved.shows ⟨rows, ?_, ?_, fun i less => ?_, fun i high => ?_⟩
      · dsimp only
        omega
      · dsimp only
        omega
      · dsimp only
        by_cases own : i = s.pos
        · rw [own, Function.update_self, ← cursor, Function.update_self]
        · rw [Function.update_of_ne own, Function.update_of_ne (by omega)]
          exact cells i less
      · rw [Function.update_of_ne (by omega)]
        exact below i high

theorem Shows.puts (shows' : Shows s p) (text : List Nat) :
    ∃ s', cgaputs s text = some s' ∧ Shows s' (p.puts text) := by
  induction text generalizing s p with
  | nil => exact ⟨s, rfl, shows'⟩
  | cons c text ih =>
      obtain ⟨s₁, first, shows₁⟩ := shows'.put c
      obtain ⟨s₂, rest, shows₂⟩ := ih shows₁
      refine ⟨s₂, ?_, shows₂⟩
      rw [cgaputs, List.foldlM_cons, first]
      exact rest

/-- A character that is neither a newline nor a backspace. -/
def Plain (c : Nat) : Prop := c ≠ newline ∧ c ≠ backspace

instance (c : Nat) : Decidable (Plain c) := inferInstanceAs (Decidable (_ ∧ _))

theorem Paper.put_plain (plain : Plain c) :
    p.put c = p.write (Function.update p.cells p.cursor (cell c)) (p.cursor + 1) := by
  rw [put, if_neg plain.1, if_neg plain.2]

/-- Plain text is on the sheet, behind what was there. -/
theorem Paper.puts_plain {text : List Nat} (plain : ∀ c ∈ text, Plain c) :
    (p.puts text).cursor = p.cursor + text.length ∧
      (∀ i, i < p.cursor → (p.puts text).cells i = p.cells i) ∧
      ∀ k (less : k < text.length), (p.puts text).cells (p.cursor + k) = cell text[k] := by
  induction text generalizing p with
  | nil => exact ⟨rfl, fun _ _ => rfl, fun k less => absurd less (Nat.not_lt_zero k)⟩
  | cons c text ih =>
      have first := Paper.put_plain (p := p) (plain c List.mem_cons_self)
      obtain ⟨cursor, before, cells⟩ :=
        ih (p := p.put c) fun d member => plain d (List.mem_cons_of_mem c member)
      have place : (p.put c).cursor = p.cursor + 1 := by
        rw [first, write_cursor]
      have held {i : Nat} (less : i < p.cursor) : (p.put c).cells i = p.cells i := by
        rw [first, write_cells, Function.update_of_ne (by omega),
          Function.update_of_ne (by omega)]
      have own : (p.put c).cells p.cursor = cell c := by
        rw [first, write_cells, Function.update_of_ne (by omega), Function.update_self]
      have whole : p.puts (c :: text) = (p.put c).puts text := rfl
      rw [whole]
      refine ⟨?_, fun i less => ?_, fun k less => ?_⟩
      · rw [cursor, place, List.length_cons]
        omega
      · rw [before i (by omega)]
        exact held less
      · cases k with
        | zero =>
            rw [Nat.add_zero, before _ (by omega)]
            exact own
        | succ k =>
            have moved : p.cursor + (k + 1) = (p.put c).cursor + k := by omega
            rw [moved]
            exact cells k (Nat.lt_of_succ_lt_succ less)

/-- Whatever is put out, the cursor never leaves the screen and `cgaputc` does not
panic; the screen is always the visible part of the sheet, and plain text that
comes last is on the sheet as it was put out. -/
theorem cgaputs_shows (text plain : List Nat) (inside : s.pos < 24 * 80)
    (ordinary : ∀ c ∈ plain, Plain c) : ∃ s₁ s₂, cgaputs s text = some s₁ ∧
      Shows s₁ (s.paper.puts text) ∧ cgaputs s₁ plain = some s₂ ∧
      Shows s₂ (s.paper.puts (text ++ plain)) ∧
      ∀ k (less : k < plain.length), (s.paper.puts (text ++ plain)).cells
        ((s.paper.puts text).cursor + k) = cell plain[k] := by
  obtain ⟨s₁, first, shows₁⟩ := (Cga.shows inside).puts text
  obtain ⟨s₂, second, shows₂⟩ := shows₁.puts plain
  have whole : s.paper.puts (text ++ plain) = (s.paper.puts text).puts plain :=
    List.foldl_append
  rw [whole]
  exact ⟨s₁, s₂, first, shows₁, second, shows₂, (Paper.puts_plain ordinary).2.2⟩

/-- A newline in the last row scrolls, and an `A` is put out behind it. -/
theorem cgaputs_shows_last : ∃ s₁ s₂, cgaputs ⟨fun _ => 0, 1900⟩ [newline] = some s₁ ∧
    cgaputs s₁ [65] = some s₂ ∧ s₂.crt 1840 = cell 65 := by
  obtain ⟨s₁, s₂, first, _, second, shows₂, own⟩ :=
    cgaputs_shows (s := ⟨fun _ => 0, 1900⟩) [newline] [65] (by decide) (by decide)
  refine ⟨s₁, s₂, first, second, ?_⟩
  rw [shows₂.cells 1840 (by decide)]
  exact own 0 (by decide)

end SlabStudy.Xv6.Screen
