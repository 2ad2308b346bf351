import SlabStudy.Library.CString
import SlabStudy.Library.Lines
import SlabStudy.Library.WriteAt
import SlabStudy.Xv6.GrepMatch

/-!
# The buffer of grep

The loop of `grep`: what a read returns goes behind the `m` bytes carried in
`buf`, the complete lines are matched, and the rest is moved to the front.
-/

namespace SlabStudy.Xv6.Grep

open Library

def newline : UInt8 := 10

/-- `sizeof(buf)`. -/
abbrev bufSize : Nat := 1024

/-- The distance to the first `c` before the NUL. -/
def strchr (c : UInt8) : List UInt8 → Option Nat
  | [] => none
  | byte :: bytes =>
      if byte = 0 then none
      else if byte = c then some 0
      else (strchr c bytes).map (· + 1)

theorem strchr_lt {c : UInt8} {bytes : List UInt8} {i : Nat} (found : strchr c bytes = some i) :
    i < bytes.length := by
  induction bytes generalizing i with
  | nil => cases found
  | cons byte bytes ih =>
      unfold strchr at found
      split at found
      · cases found
      · split at found
        · cases found
          exact Nat.succ_pos _
        · obtain ⟨j, rest, rfl⟩ := Option.map_eq_some_iff.mp found
          exact Nat.succ_lt_succ (ih rest)

/-- The inner loop from `p` on, with what has been written. -/
def scan (pattern buf : List UInt8) (p : Nat) (out : List UInt8) :
    List UInt8 × Nat × List UInt8 :=
  match found : strchr newline (buf.drop p) with
  | none => (buf, p, out)
  | some i =>
      let q := p + i
      let ended := buf.set q 0
      if matchLine pattern (cstring (ended.drop p)) then
        let whole := ended.set q newline
        scan pattern whole (q + 1) (out ++ (whole.drop p).take (q + 1 - p))
      else scan pattern ended (q + 1) out
termination_by buf.length - p
decreasing_by
  all_goals
    have inside := strchr_lt found
    simp only [List.length_drop, List.length_set] at *
    omega

/-- The variables of `grep` before a read, and what it has written. -/
structure Reading where
  buf : List UInt8
  m : Nat
  out : List UInt8

/-- The body of the loop, for a read that returned `piece`. -/
def Reading.round (pattern : List UInt8) (s : Reading) (piece : List UInt8) : Reading :=
  let m := s.m + piece.length
  let buf := (splice s.buf s.m piece).set m 0
  let (buf, p, out) := scan pattern buf 0 s.out
  let m := if p = 0 then 0 else m
  if 0 < m then
    let m := m - p
    ⟨splice buf 0 ((buf.drop p).take m), m, out⟩
  else ⟨buf, m, out⟩

/-- What successive reads can return: at least a byte, and what has room behind the carried ones. -/
def Reads (pattern : List UInt8) : Reading → List (List UInt8) → Prop
  | _, [] => True
  | s, piece :: pieces =>
      (piece ≠ [] ∧ piece.length ≤ bufSize - s.m - 1) ∧ Reads pattern (s.round pattern piece) pieces

/-- `grep`, where the reads return these pieces and then nothing. -/
def grep (pattern buf : List UInt8) (pieces : List (List UInt8)) : Reading :=
  pieces.foldl (Reading.round pattern) ⟨buf, 0, []⟩

/-- The matching lines of a text. -/
def matching (pattern : List UInt8) (lines : List (List UInt8)) : List UInt8 :=
  unlines newline (lines.filter (matchLine pattern))

/-! ## The inner loop -/

variable {pattern buf tail line rest out : List UInt8} {p : Nat} {lines : List (List UInt8)}

/-- `strchr` passes over bytes that are neither a newline nor the end. -/
theorem strchr_append (clean : newline ∉ line) (string : 0 ∉ line) :
    strchr newline (line ++ tail) = (strchr newline tail).map (line.length + ·) := by
  induction line with
  | nil => simp
  | cons byte line ih =>
      have inner := ih (fun member => clean (.tail _ member)) (fun member => string (.tail _ member))
      have here : byte ≠ newline := fun same => clean (same ▸ List.mem_cons_self)
      have some : byte ≠ 0 := fun same => string (same ▸ List.mem_cons_self)
      rw [List.cons_append, strchr, if_neg some, if_neg here, inner, Option.map_map]
      refine congrArg (Option.map · _) (funext fun n => ?_)
      rw [List.length_cons]
      exact Nat.add_right_comm _ _ _

theorem strchr_line (clean : newline ∉ line) (string : 0 ∉ line) :
    strchr newline (line ++ newline :: tail) = some line.length :=
  strchr_append clean string

theorem strchr_rest (clean : newline ∉ rest) (string : 0 ∉ rest) :
    strchr newline (rest ++ 0 :: tail) = none :=
  strchr_append clean string

theorem drop_set_end (x y : UInt8) (here : buf.drop p = line ++ x :: tail) :
    (buf.set (p + line.length) y).drop p = line ++ y :: tail := by
  rw [List.drop_set, if_neg (by omega), here, Nat.add_sub_cancel_left,
    List.set_append_right _ _ (Nat.le_refl _), Nat.sub_self, List.set_cons_zero]

theorem drop_behind (x : UInt8) (here : buf.drop p = line ++ x :: tail) :
    buf.drop (p + line.length + 1) = tail := by
  rw [Nat.add_assoc, ← List.drop_drop, here, ← List.drop_drop, List.drop_left]
  rfl

/-- One line of the inner loop: it is written if it matches. -/
theorem scan_line (pattern out : List UInt8) (here : buf.drop p = line ++ newline :: tail) (clean : newline ∉ line)
    (string : 0 ∉ line) : ∃ buf',
    scan pattern buf p out =
      scan pattern buf' (p + line.length + 1) (out ++ matching pattern [line]) ∧
    buf'.length = buf.length ∧ buf'.drop (p + line.length + 1) = tail := by
  have ended := drop_set_end newline 0 here
  have whole := drop_set_end 0 newline ended
  have named : cstring ((buf.set (p + line.length) 0).drop p) = line := by
    rw [ended, cstring_nul string]
  rw [scan]
  split
  next none =>
    rw [here, strchr_line clean string] at none
    cases none
  next i found =>
    rw [here, strchr_line clean string] at found
    cases found
    dsimp only
    rw [named]
    by_cases matched : matchLine pattern line = true
    · refine ⟨(buf.set (p + line.length) 0).set (p + line.length) newline, ?_, ?_, ?_⟩
      · have written : (line ++ newline :: tail).take (p + line.length + 1 - p) =
            matching pattern [line] := by
          rw [matching, List.filter_cons_of_pos matched, List.filter_nil, unlines_cons,
            Nat.add_assoc, Nat.add_sub_cancel_left, List.take_length_add_append]
          rfl
        rw [if_pos matched, whole, written]
      · rw [List.length_set, List.length_set]
      · exact drop_behind newline whole
    · refine ⟨buf.set (p + line.length) 0, ?_, List.length_set, drop_behind 0 ended⟩
      rw [if_neg matched, matching, List.filter_cons_of_neg matched]
      exact congrArg _ (List.append_nil out).symm

theorem matching_cons : matching pattern (line :: lines) =
    matching pattern [line] ++ matching pattern lines := by
  rw [matching, matching, matching, ← unlines_append, ← List.filter_append]
  rfl

/-- The inner loop writes the matching ones of the complete lines, and stops behind them. -/
theorem scan_lines (pattern out : List UInt8) (here : buf.drop p = unlines newline lines ++ rest ++ 0 :: tail)
    (clean : ∀ line ∈ lines, newline ∉ line) (string : 0 ∉ unlines newline lines ++ rest)
    (last : newline ∉ rest) : ∃ buf',
    scan pattern buf p out =
      (buf', p + (unlines newline lines).length, out ++ matching pattern lines) ∧
    buf'.length = buf.length ∧
    buf'.drop (p + (unlines newline lines).length) = rest ++ 0 :: tail := by
  induction lines generalizing buf p out with
  | nil =>
      refine ⟨buf, ?_, rfl, here⟩
      change buf.drop p = rest ++ 0 :: tail at here
      rw [scan]
      split
      next => exact congrArg _ (congrArg _ (List.append_nil out).symm)
      next i found =>
        rw [here, strchr_rest last string] at found
        cases found
  | cons line lines ih =>
      rw [unlines_cons, List.append_assoc, List.cons_append] at string
      have front : 0 ∉ line := fun member => string (List.mem_append_left _ member)
      have behind : 0 ∉ unlines newline lines ++ rest :=
        fun member => string (List.mem_append_right _ (.tail _ member))
      rw [unlines_cons, List.append_assoc, List.append_assoc, List.cons_append] at here
      obtain ⟨buf', same, sized, next⟩ := scan_line pattern out here
        (clean line List.mem_cons_self) front
      rw [← List.append_assoc] at next
      obtain ⟨buf'', same', sized', next'⟩ := ih (out ++ matching pattern [line]) next
        (fun line member => clean line (.tail _ member)) behind
      have far : p + (unlines newline (line :: lines)).length =
          p + line.length + 1 + (unlines newline lines).length := by
        rw [unlines_cons, List.length_append, List.length_cons]
        omega
      rw [far, matching_cons]
      refine ⟨buf'', ?_, sized'.trans sized, next'⟩
      rw [same, same', List.append_assoc]

/-! ## One read -/

/-- These bytes are carried at the front of the buffer. -/
structure Carries (s : Reading) (carried : List UInt8) : Prop where
  sized : s.buf.length = bufSize
  count : s.m = carried.length
  bytes : s.buf.take s.m = carried

variable {s : Reading} {carried piece : List UInt8}

/-- What the buffer has after a read and the NUL behind it. -/
theorem Carries.received (carries : Carries s carried) (some : piece ≠ [])
    (room : piece.length ≤ bufSize - s.m - 1) : ∃ tail,
    (splice s.buf s.m piece).set (s.m + piece.length) 0 = carried ++ piece ++ 0 :: tail ∧
    (carried ++ piece ++ 0 :: tail).length = bufSize := by
  have read : 0 < piece.length := List.length_pos_iff.mpr some
  have total : (carried ++ piece).length = s.m + piece.length := by
    rw [List.length_append, carries.count]
  have left : (s.buf.drop (s.m + piece.length)).length = bufSize - (s.m + piece.length) := by
    rw [List.length_drop, carries.sized]
  obtain ⟨byte, tail, behind⟩ :=
    List.exists_cons_of_length_pos (l := s.buf.drop (s.m + piece.length)) (by omega)
  have spliced : (splice s.buf s.m piece).drop 0 = carried ++ piece ++ byte :: tail := by
    rw [List.drop_zero, splice, carries.bytes, behind]
  have ended := drop_set_end byte 0 spliced
  rw [Nat.zero_add, total, List.drop_zero] at ended
  refine ⟨tail, ended, ?_⟩
  rw [behind, List.length_cons] at left
  rw [List.length_append, List.length_cons, total]
  omega

/-- A read writes the matching ones of the complete lines.  What follows them is carried,
unless there is no complete line: then `p == buf`, and what was read is forgotten. -/
theorem Carries.round (pattern : List UInt8) (carries : Carries s carried) (some : piece ≠ [])
    (room : piece.length ≤ bufSize - s.m - 1) (string : 0 ∉ carried ++ piece)
    (data : carried ++ piece = unlines newline lines ++ rest)
    (clean : ∀ line ∈ lines, newline ∉ line) (last : newline ∉ rest) :
    (s.round pattern piece).out = s.out ++ matching pattern lines ∧
    Carries (s.round pattern piece) (if lines = [] then [] else rest) := by
  obtain ⟨tail, received, sized⟩ := carries.received some room
  have total : s.m + piece.length = (unlines newline lines).length + rest.length := by
    rw [carries.count, ← List.length_append, data, List.length_append]
  rw [data] at received sized string
  obtain ⟨buf, scanned, sameSize, behind⟩ := scan_lines pattern s.out
    (@List.drop_zero _ (unlines newline lines ++ rest ++ 0 :: tail)) clean string last
  rw [sized] at sameSize
  rw [Nat.zero_add] at scanned behind
  unfold Reading.round
  simp only [received, scanned]
  cases lines with
  | nil => exact ⟨rfl, sameSize, rfl, rfl⟩
  | cons line lines =>
      have moved : 0 < (unlines newline (line :: lines)).length := by
        rw [unlines_cons, List.length_append, List.length_cons]
        omega
      rw [if_neg (Nat.ne_of_gt moved), if_pos (by omega), if_neg (List.cons_ne_nil _ _), total,
        Nat.add_sub_cancel_left, behind, List.take_left]
      refine ⟨rfl, ?_, rfl, ?_⟩
      · rw [length_splice, sameSize]
        rw [List.length_append, List.length_append] at sized
        omega
      · rw [splice, List.take_zero, List.nil_append]
        exact List.take_left

/-! ## All reads -/

variable {pieces : List (List UInt8)}

theorem carried_clean (last : newline ∉ rest) : newline ∉ if lines = [] then [] else rest := by
  split
  · exact List.not_mem_nil
  · exact last

theorem carried_string (data : carried ++ piece = unlines newline lines ++ rest)
    (string : 0 ∉ carried ++ piece ++ out) : 0 ∉ (if lines = [] then [] else rest) ++ out := by
  rw [data, List.append_assoc] at string
  intro member
  refine string (List.mem_append_right _ ?_)
  split at member
  · exact List.mem_append_right _ member
  · exact member

/-- Where every read brings a newline, nothing is forgotten. -/
theorem reads_lines (carries : Carries s carried) (start : newline ∉ carried)
    (reads : Reads pattern s pieces) (each : ∀ piece ∈ pieces, newline ∈ piece)
    (string : 0 ∉ carried ++ pieces.flatten) (clean : ∀ line ∈ lines, newline ∉ line)
    (whole : unlines newline lines = carried ++ pieces.flatten) :
    (pieces.foldl (Reading.round pattern) s).out = s.out ++ matching pattern lines := by
  induction pieces generalizing s carried lines with
  | nil =>
      have none : lines = [] := by
        by_contra some
        rw [List.flatten_nil, List.append_nil] at whole
        exact start (whole ▸ mark_mem_unlines some)
      subst none
      exact (List.append_nil _).symm
  | cons piece pieces ih =>
      rw [List.flatten_cons, ← List.append_assoc] at string whole
      obtain ⟨first, rest, data, front, last⟩ := exists_unlines newline (carried ++ piece)
      have some : first ≠ [] := by
        rintro rfl
        refine last ?_
        rw [← List.nil_append rest]
        exact data ▸ List.mem_append_right _ (each piece List.mem_cons_self)
      obtain ⟨written, next⟩ := carries.round pattern reads.1.1 reads.1.2
        (fun member => string (List.mem_append_left _ member)) data front last
      rw [data, List.append_assoc] at whole string
      obtain ⟨others, rfl, more⟩ := unlines_cut clean front whole
      rw [if_neg some] at next
      rw [List.foldl_cons, ih next last reads.2 (fun piece member => each piece (.tail _ member))
        (fun member => string (List.mem_append_right _ member))
        (fun line member => clean line (List.mem_append_right _ member)) more.symm,
        written, matching, matching, matching, List.filter_append, unlines_append,
        List.append_assoc]

/-- Each read without a newline costs at least one byte. -/
theorem reads_lost (carries : Carries s carried) (start : newline ∉ carried)
    (reads : Reads pattern s pieces) (string : 0 ∉ carried ++ pieces.flatten) :
    (pieces.foldl (Reading.round pattern) s).out.length + pieces.countP (newline ∉ ·) ≤
      s.out.length + (carried ++ pieces.flatten).length := by
  induction pieces generalizing s carried with
  | nil => simp
  | cons piece pieces ih =>
      rw [List.flatten_cons, ← List.append_assoc] at string ⊢
      obtain ⟨first, rest, data, front, last⟩ := exists_unlines newline (carried ++ piece)
      obtain ⟨written, next⟩ := carries.round pattern reads.1.1 reads.1.2
        (fun member => string (List.mem_append_left _ member)) data front last
      have later := ih next (carried_clean last) reads.2 (carried_string data string)
      have some : 0 < piece.length := List.length_pos_iff.mpr reads.1.1
      have size := congrArg List.length data
      have fewer : (matching pattern first).length ≤ (unlines newline first).length :=
        length_unlines_filter (matchLine pattern) first
      rw [written, List.length_append, List.length_append] at later
      rw [List.length_append, List.length_append] at size
      rw [List.foldl_cons, List.countP_cons, List.length_append, List.length_append]
      by_cases none : first = []
      · rw [if_pos none, List.length_nil] at later
        subst none
        have nothing : (matching pattern []).length = 0 := rfl
        split <;> omega
      · have brought : newline ∈ piece := by
          have member : newline ∈ carried ++ piece :=
            data ▸ List.mem_append_left _ (mark_mem_unlines none)
          exact (List.mem_append.mp member).resolve_left start
        rw [if_neg none] at later
        rw [if_neg (by simpa using brought)]
        omega

theorem match_empty (text : List UInt8) : matchLine [] text = true := by
  change matchFrom [] text = true
  cases text with
  | nil => exact matchhere_nil []
  | cons t text => rw [matchFrom, if_pos (matchhere_nil _)]

theorem matching_empty (lines : List (List UInt8)) : matching [] lines = unlines newline lines := by
  rw [matching, List.filter_eq_self.mpr fun line _ => match_empty line]

theorem start_carries {buf : List UInt8} (sized : buf.length = bufSize) : Carries ⟨buf, 0, []⟩ [] :=
  ⟨sized, rfl, List.take_zero⟩

/-- There is always room for a read, so that one returns 0 at the end of the input only. -/
theorem reads_room (carries : Carries s carried) (start : newline ∉ carried)
    (reads : Reads pattern s pieces) (string : 0 ∉ carried ++ pieces.flatten)
    (room : 0 < bufSize - s.m - 1) :
    0 < bufSize - (pieces.foldl (Reading.round pattern) s).m - 1 := by
  induction pieces generalizing s carried with
  | nil => exact room
  | cons piece pieces ih =>
      rw [List.flatten_cons, ← List.append_assoc] at string
      obtain ⟨first, rest, data, front, last⟩ := exists_unlines newline (carried ++ piece)
      obtain ⟨-, next⟩ := carries.round pattern reads.1.1 reads.1.2
        (fun member => string (List.mem_append_left _ member)) data front last
      refine ih next (carried_clean last) reads.2 (carried_string data string) ?_
      have size := congrArg List.length data
      rw [List.length_append, List.length_append, ← carries.count] at size
      rw [next.count]
      split
      · exact Nat.succ_pos _
      · next some =>
          have moved := List.length_pos_of_mem (@mark_mem_unlines _ newline _ some)
          have fits := reads.1.2
          omega

/-- `grep` writes the matching lines, for every pattern, exactly when each read brings a
newline; and there is always room for a read. -/
theorem grep_matching_iff (sized : buf.length = bufSize)
    (clean : ∀ line ∈ lines, newline ∉ line ∧ 0 ∉ line)
    (whole : pieces.flatten = unlines newline lines)
    (reads : ∀ pattern, Reads pattern ⟨buf, 0, []⟩ pieces) :
    ((∀ pattern, (grep pattern buf pieces).out = matching pattern lines) ↔
      ∀ piece ∈ pieces, newline ∈ piece) ∧
    ∀ pattern, 0 < bufSize - (grep pattern buf pieces).m - 1 := by
  have string : 0 ∉ [] ++ pieces.flatten := by
    intro member
    rw [List.nil_append, whole, unlines, List.mem_flatMap] at member
    obtain ⟨line, found, byte⟩ := member
    obtain inside | ended := List.mem_append.mp byte
    · exact (clean line found).2 inside
    · exact absurd (List.mem_singleton.mp ended) (by decide)
  refine ⟨⟨?_, ?_⟩, fun pattern =>
    reads_room (start_carries sized) List.not_mem_nil (reads pattern) string
      (by decide : 0 < bufSize - 0 - 1)⟩
  · intro right piece member
    have lost := reads_lost (start_carries sized) List.not_mem_nil (reads []) string
    have written := congrArg List.length (right [])
    rw [matching_empty, ← whole] at written
    have none : pieces.countP (newline ∉ ·) = 0 := by
      unfold grep at written
      rw [List.nil_append] at lost
      simp only [List.length_nil] at lost
      omega
    simpa using List.countP_eq_zero.mp none piece member
  · intro each pattern
    exact reads_lines (start_carries sized) List.not_mem_nil (reads pattern) each string
      (fun line member => (clean line member).1) whole.symm

/-- Two reads, the first of which ends in the middle of a line: `grep` writes what matches. -/
theorem grep_matching_iff_two_reads :
    [[97, newline, 98], [99, newline]].flatten = unlines newline [[97], [98, 99]] ∧
    ∀ pattern, (grep pattern (List.replicate bufSize 0) [[97, newline, 98], [99, newline]]).out =
      matching pattern [[97], [98, 99]] := by
  have read (pattern : List UInt8) : Reads pattern ⟨List.replicate bufSize 0, 0, []⟩
      [[97, newline, 98], [99, newline]] := by
    have start := @start_carries (List.replicate bufSize 0) List.length_replicate
    obtain ⟨_, carries⟩ := @Carries.round [98] [[97]] _ [] [97, newline, 98] pattern start
      (by decide) (by decide) (by decide) rfl (by decide) (by decide)
    refine ⟨⟨by decide, by decide⟩, ⟨by decide, ?_⟩, trivial⟩
    rw [carries.count]
    decide
  have lines : ∀ line ∈ [[97], [98, 99]], newline ∉ line ∧ 0 ∉ line := by decide
  have whole : [[97, newline, 98], [99, newline]].flatten = unlines newline [[97], [98, 99]] := rfl
  have each : ∀ piece ∈ [[97, newline, 98], [99, newline]], newline ∈ piece := by decide
  exact ⟨whole, (grep_matching_iff List.length_replicate lines whole read).1.mpr each⟩

/-- The pattern `ab`. -/
def patternAb : List UInt8 := [97, 98]

theorem match_ab : matchLine patternAb patternAb = true := by
  simp [matchLine, matchFrom, matchhere, patternAb, caret, star, dollar, dot]

theorem match_b : matchLine patternAb [98] = false := by
  simp [matchLine, matchFrom, matchhere, patternAb, caret, star, dollar, dot]

/-- The line `ab` in two reads: nothing is written, where one read of it writes the line. -/
theorem split_line_forgotten :
    Reads patternAb ⟨List.replicate bufSize 0, 0, []⟩ [[97], [98, newline]] ∧
    [[97], [98, newline]].flatten = unlines newline [patternAb] ∧
    (grep patternAb (List.replicate bufSize 0) [[97], [98, newline]]).out = [] ∧
    (grep patternAb (List.replicate bufSize 0) [[97, 98, newline]]).out = [97, 98, newline] ∧
    matching patternAb [patternAb] = [97, 98, newline] := by
  have start := @start_carries (List.replicate bufSize 0) List.length_replicate
  have written : matching patternAb [patternAb] = [97, 98, newline] := by
    rw [matching, List.filter_cons_of_pos match_ab]
    rfl
  have forgotten : matching patternAb [[98]] = [] := by
    rw [matching, List.filter_cons_of_neg (by rw [match_b]; exact Bool.false_ne_true)]
    rfl
  obtain ⟨first, carries⟩ := @Carries.round [97] [] _ [] [97] patternAb start (by decide)
    (by decide) (by decide) rfl nofun (by decide)
  rw [if_pos rfl] at carries
  have second := @Carries.round [] [[98]] _ [] [98, newline] patternAb carries (by decide)
    (by rw [carries.count]; decide) (by decide) rfl (by decide) (by decide)
  have once := @Carries.round [] [patternAb] _ [] [97, 98, newline] patternAb start (by decide)
    (by decide) (by decide) rfl (by decide) (by decide)
  refine ⟨?_, rfl, ?_, ?_, written⟩
  · exact ⟨⟨by decide, by decide⟩, ⟨by decide, by rw [carries.count]; decide⟩, trivial⟩
  · exact second.1.trans (by rw [first, forgotten]; rfl)
  · exact once.1.trans (by rw [written]; rfl)

end SlabStudy.Xv6.Grep
