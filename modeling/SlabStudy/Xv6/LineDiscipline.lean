import SlabStudy.Xv6.Console

/-!
# The line discipline of the console

The three indices of the console never stop counting.  At any time the buffer
holds the end of everything that was ever committed, and behind it the line
that is being edited.
-/

namespace SlabStudy.Xv6

open Library

namespace Input

/-- The buffer as a ring of the characters that are not read. -/
def ring (i : Input) : Ring inputBuf UInt8 := ⟨i.buf, i.r.toNat, i.e.toNat⟩

/-- `taken` of the committed characters are read, and `line` is being edited. -/
structure Holds (i : Input) (committed line : List UInt8) (taken : Nat) : Prop where
  ring : i.ring.Holds (2 ^ 32) (committed ++ line) taken
  write : i.w.toNat = committed.length % 2 ^ 32
  order : taken ≤ committed.length

variable {i : Input} {committed line : List UInt8} {taken : Nat}

theorem inputBuf_lt : inputBuf < 2 ^ 32 := by decide

theorem inputBuf_dvd : inputBuf ∣ 2 ^ 32 := by decide

theorem sub_one_toNat {x : UInt32} {k : Nat} (counts : x.toNat = (k + 1) % 2 ^ 32) :
    (x - 1).toNat = k % 2 ^ 32 := by
  rw [UInt32.toNat_sub, counts]
  change (2 ^ 32 - 1 + (k + 1) % 2 ^ 32) % 2 ^ 32 = _
  omega

theorem add_one_toNat {x : UInt32} {k : Nat} (counts : x.toNat = k % 2 ^ 32) :
    (x + 1).toNat = (k + 1) % 2 ^ 32 := by
  rw [UInt32.toNat_add, counts]
  change (k % 2 ^ 32 + 1) % 2 ^ 32 = _
  omega

/-- The difference of two indices as it is computed. -/
theorem between_count (i : Input) (a b : UInt32) :
    (b - a).toNat = Ring.count (2 ^ 32) (⟨i.buf, a.toNat, b.toNat⟩ : Ring inputBuf UInt8) := by
  have small := a.toNat_lt
  rw [UInt32.toNat_sub, Ring.count]
  change (2 ^ 32 - a.toNat + b.toNat) % 2 ^ 32 = (b.toNat + 2 ^ 32 - a.toNat) % 2 ^ 32
  congr 1
  omega

theorem between_eq (i : Input) (a b : UInt32) :
    i.between a b = Ring.contents (2 ^ 32) (⟨i.buf, a.toNat, b.toNat⟩ : Ring inputBuf UInt8) := by
  rw [between, Ring.contents, between_count i]
  refine List.map_congr_left fun k _ => ?_
  rw [char, UInt32.toNat_add, UInt32.toNat_ofNat', Nat.add_mod_mod]

namespace Holds

/-- A part of the buffer between two counters. -/
theorem window (holds : i.Holds committed line taken) {a b : Nat} {x y : UInt32}
    (first : taken ≤ a) (order : a ≤ b) (last : b ≤ (committed ++ line).length)
    (low : x.toNat = a % 2 ^ 32) (high : y.toNat = b % 2 ^ 32) :
    (⟨i.buf, x.toNat, y.toNat⟩ : Ring inputBuf UInt8).Holds (2 ^ 32)
      ((committed ++ line).take b) a := by
  rw [low, high]
  exact holds.ring.window first order last

theorem between (holds : i.Holds committed line taken) {a b : Nat} {x y : UInt32}
    (first : taken ≤ a) (order : a ≤ b) (last : b ≤ (committed ++ line).length)
    (low : x.toNat = a % 2 ^ 32) (high : y.toNat = b % 2 ^ 32) :
    i.between x y = ((committed ++ line).take b).drop a := by
  rw [between_eq, (holds.window first order last low high).contents_eq inputBuf_lt inputBuf_dvd]

theorem pending (holds : i.Holds committed line taken) : i.pending = committed.drop taken := by
  have all := holds.between (Nat.le_refl _) holds.order
    (by rw [List.length_append]; omega) holds.ring.head holds.write
  rw [List.take_left] at all
  exact all

/-- The unsigned differences of the indices. -/
theorem counts (holds : i.Holds committed line taken) :
    (i.w - i.r).toNat = committed.length - taken ∧
      (i.e - i.r).toNat = (committed ++ line).length - taken := by
  have order := holds.order
  have total : committed.length ≤ (committed ++ line).length := by
    rw [List.length_append]
    exact Nat.le_add_right _ _
  have first := holds.window (Nat.le_refl taken) order total holds.ring.head holds.write
  constructor
  · rw [between_count i, first.count_eq inputBuf_lt, List.take_left]
  · rw [between_count i]
    exact holds.ring.count_eq inputBuf_lt

theorem empty_iff (holds : i.Holds committed line taken) : i.r = i.w ↔ committed.length = taken := by
  have first := holds.window (Nat.le_refl taken) holds.order
    (by rw [List.length_append]; exact Nat.le_add_right _ _) holds.ring.head holds.write
  rw [List.take_left] at first
  rw [← UInt32.toNat_inj]
  exact first.empty_iff inputBuf_lt

theorem unedited_iff (holds : i.Holds committed line taken) : i.e = i.w ↔ line = [] := by
  have last := holds.window holds.order
    (by rw [List.length_append]; exact Nat.le_add_right _ _) (Nat.le_refl _) holds.write
    holds.ring.tail
  rw [List.take_length] at last
  rw [eq_comm, ← UInt32.toNat_inj]
  refine (last.empty_iff inputBuf_lt).trans ?_
  rw [List.length_append, Nat.add_eq_left, List.length_eq_zero_iff]

theorem full_iff (holds : i.Holds committed line taken) :
    i.e = i.r + 128 ↔ (committed ++ line).length = taken + inputBuf := by
  have full := holds.ring.full_iff inputBuf_lt
  rw [← UInt32.toNat_inj, UInt32.toNat_add]
  exact full

theorem room_iff (holds : i.Holds committed line taken) :
    i.e - i.r < 128 ↔ (committed ++ line).length < taken + inputBuf := by
  have order := holds.ring.order
  rw [UInt32.lt_iff_toNat_lt, holds.counts.2]
  change _ < inputBuf ↔ _
  omega

/-- The next character of a read. -/
theorem front (holds : i.Holds committed line taken) (some : taken < committed.length) :
    i.char i.r = committed[taken] := by
  have inside : taken < (committed ++ line).length := by
    rw [List.length_append]
    omega
  have cell := holds.ring.cells taken inside (Nat.le_refl _)
  rw [List.getElem_append_left some] at cell
  rw [← cell, char, ← Ring.ofNat_mod inputBuf_dvd taken]
  exact congrArg (fun k => i.buf (Fin.ofNat inputBuf k)) holds.ring.head

/-- Taking back the last character of the line. -/
theorem erase (holds : i.Holds committed line taken) (some : line ≠ []) :
    ({ i with e := i.e - 1 } : Input).Holds committed line.dropLast taken := by
  have length := List.length_pos_iff.mpr some
  have order := holds.order
  have total := @List.length_append _ committed line
  have back : (i.e - 1).toNat = (committed ++ line.dropLast).length % 2 ^ 32 := by
    refine sub_one_toNat ?_
    rw [List.length_append, List.length_dropLast, show committed.length + (line.length - 1) + 1 =
      (committed ++ line).length by omega]
    exact holds.ring.tail
  have shorter : (committed ++ line.dropLast).length = committed.length + (line.length - 1) := by
    rw [List.length_append, List.length_dropLast]
  have window := holds.window (Nat.le_refl taken) (b := (committed ++ line.dropLast).length)
    (by omega) (by omega) holds.ring.head back
  have same : (committed ++ line).take (committed ++ line.dropLast).length =
      committed ++ line.dropLast := by
    rw [shorter, List.take_append, List.dropLast_eq_take, List.take_of_length_le (by omega)]
    congr 2
    omega
  rw [same] at window
  exact ⟨window, holds.write, order⟩

/-- Typing a character at the end of the line. -/
theorem store (holds : i.Holds committed line taken)
    (room : (committed ++ line).length < taken + inputBuf) (c : UInt8) :
    (i.store c).Holds committed (line ++ [c]) taken := by
  have notFull : i.ring.tail ≠ (i.ring.head + inputBuf) % 2 ^ 32 := fun full =>
    Nat.ne_of_lt room ((holds.ring.full_iff inputBuf_lt).mp full)
  have put := holds.ring.put inputBuf_lt inputBuf_dvd notFull c
  rw [List.append_assoc] at put
  refine ⟨?_, holds.write, holds.order⟩
  have same : (i.store c).ring = i.ring.put (2 ^ 32) c := by
    rw [Input.ring, Input.store, Ring.put, UInt32.toNat_add]
    rfl
  rw [same]
  exact put

/-- Committing the line. -/
theorem commit (holds : i.Holds committed line taken) :
    ({ i with w := i.e } : Input).Holds (committed ++ line) [] taken := by
  refine ⟨?_, holds.ring.tail, holds.ring.order⟩
  rw [List.append_nil]
  exact holds.ring

/-- Reading a committed character. -/
theorem take (holds : i.Holds committed line taken) (some : taken < committed.length) :
    ({ i with r := i.r + 1 } : Input).Holds committed line (taken + 1) := by
  have total := @List.length_append _ committed line
  have window := holds.window (a := taken + 1) (Nat.le_succ taken) (by omega) (Nat.le_refl _)
    (add_one_toNat holds.ring.head) holds.ring.tail
  rw [List.take_length] at window
  exact ⟨window, holds.write, some⟩

end Holds

/-! ## The keys -/

/-- Kill line only shortens the line. -/
theorem killLine_spec (holds : i.Holds committed line taken) :
    ∃ rest, i.killLine.Holds committed rest taken ∧ rest <+: line ∧
      i.killLine.r = i.r ∧ i.killLine.w = i.w := by
  induction i using Input.killLine.induct generalizing line with
  | case1 i more ih =>
    have some := mt holds.unedited_iff.mpr more.1
    obtain ⟨rest, after, before, r, w⟩ := ih (holds.erase some)
    rw [Input.killLine, dif_pos more]
    exact ⟨rest, after, before.trans (List.dropLast_prefix line), r, w⟩
  | case2 i stops =>
    rw [Input.killLine, dif_neg stops]
    exact ⟨line, holds, List.prefix_refl line, rfl, rfl⟩

/-- The characters that only edit the line. -/
def edits (c : UInt8) : Prop := c = control 'U' ∨ c = control 'H' ∨ c = delete

theorem key_edits (holds : i.Holds committed line taken) {c : UInt8} (edits : edits c) :
    ∃ rest, (i.key c).1.Holds committed rest taken ∧ rest <+: line ∧
      (i.key c).1.r = i.r ∧ (i.key c).1.w = i.w := by
  unfold key
  rw [if_neg (by rcases edits with rfl | rfl | rfl <;> decide)]
  split
  · exact killLine_spec holds
  · next other =>
    rw [if_pos (edits.resolve_left other)]
    split
    · next more =>
      have some := mt holds.unedited_iff.mpr more
      exact ⟨line.dropLast, holds.erase some, List.dropLast_prefix line, rfl, rfl⟩
    · exact ⟨line, holds, List.prefix_refl line, rfl, rfl⟩

theorem key_spec (holds : i.Holds committed line taken) (c : UInt8) :
    ∃ more rest, (i.key c).1.Holds (committed ++ more) rest taken := by
  have same (rest : List UInt8) {j : Input} (after : j.Holds committed rest taken) :
      ∃ more rest, j.Holds (committed ++ more) rest taken :=
    ⟨[], rest, by rw [List.append_nil]; exact after⟩
  by_cases edit : edits c
  · obtain ⟨rest, after, _⟩ := key_edits holds edit
    exact same rest after
  · have notKill : c ≠ control 'U' := fun is => edit (.inl is)
    have notBack : ¬ (c = control 'H' ∨ c = delete) := fun is => edit (.inr is)
    unfold key
    rw [if_neg notKill, if_neg notBack]
    split
    · exact same line holds
    · split
      · next typed =>
        have stored := holds.store (holds.room_iff.mp typed.2)
          (if c = carriageReturn then newline else c)
        dsimp only
        generalize (if c = carriageReturn then newline else c) = typed at stored ⊢
        split
        · exact ⟨_, [], stored.commit⟩
        · exact same _ stored
      · exact same line holds

theorem intr_spec (holds : i.Holds committed line taken) (chars : List UInt8) :
    ∃ more rest, (i.intr chars).1.Holds (committed ++ more) rest taken := by
  induction chars generalizing i committed line with
  | nil => exact ⟨[], line, by rw [List.append_nil]; exact holds⟩
  | cons c chars ih =>
    obtain ⟨first, edited, after⟩ := key_spec holds c
    obtain ⟨more, rest, last⟩ := ih after
    refine ⟨first ++ more, rest, ?_⟩
    rw [← List.append_assoc]
    exact last

/-! ## Reading -/

/-- What is left of some characters without the control-D. -/
def text (chars : List UInt8) : List UInt8 := chars.filter (· ≠ control 'D')

theorem text_append (first second : List UInt8) : text (first ++ second) = text first ++ text second :=
  List.filter_append ..

/-- The next character of what is taken. -/
theorem window_cons {taken last : Nat} (some : taken < committed.length) (later : taken + 1 ≤ last) :
    (committed.take last).drop taken = committed[taken] :: (committed.take last).drop (taken + 1) := by
  have inside : taken < (committed.take last).length := by
    rw [List.length_take]
    omega
  rw [List.drop_eq_getElem_cons inside, List.getElem_take]

/--
The loop stores what it takes, but for a control-D; and where it stops at one
behind something else, this is the next character still.
-/
theorem readLoop_spec (holds : i.Holds committed line taken) (target n : Nat) :
    ∃ last, taken ≤ last ∧ (i.readLoop target n).input.Holds committed line last ∧
      (i.readLoop target n).bytes = text ((committed.take last).drop taken) ∧
      (i.readLoop target n).bytes.length ≤ n ∧
      ((i.readLoop target n).how = .eof → (i.readLoop target n).bytes.length < n ∧
        (n - (i.readLoop target n).bytes.length < target →
          committed[last]? = some (control 'D'))) := by
  have nothing (last : Nat) : text ((committed.take last).drop last) = [] := by
    rw [List.drop_take, Nat.sub_self, List.take_zero]
    rfl
  induction n generalizing i taken with
  | zero => exact ⟨taken, Nat.le_refl _, holds, (nothing taken).symm, Nat.le_refl _, nofun⟩
  | succ n ih =>
    unfold readLoop
    split
    · exact ⟨taken, Nat.le_refl _, holds, (nothing taken).symm, Nat.zero_le _, nofun⟩
    · next more =>
      have some : taken < committed.length := by
        have order := holds.order
        have apart := mt holds.empty_iff.mpr more
        omega
      have next := holds.take some
      rw [holds.front some]
      have one : (committed.take (taken + 1)).drop taken = [committed[taken]] := by
        rw [window_cons some (Nat.le_refl _), List.drop_take, Nat.sub_self, List.take_zero]
      dsimp only
      split
      · next eof =>
        split
        · refine ⟨taken, Nat.le_refl _, ?_, (nothing taken).symm, Nat.zero_le _, fun _ =>
            ⟨Nat.succ_pos n, fun _ => ?_⟩⟩
          · have back : i.r + 1 - 1 = i.r := UInt32.add_sub_cancel ..
            rw [back]
            exact holds
          · rw [List.getElem?_eq_getElem some, eof]
        · next start =>
          refine ⟨taken + 1, Nat.le_succ _, next, ?_, Nat.zero_le _, fun _ =>
            ⟨Nat.succ_pos n, fun less => absurd less start⟩⟩
          rw [one, eof]
          rfl
      · next plain =>
        have kept : text [committed[taken]] = [committed[taken]] :=
          List.filter_eq_self.mpr fun c member => by
            rw [List.mem_singleton.mp member]
            exact decide_eq_true plain
        split
        · refine ⟨taken + 1, Nat.le_succ _, next, ?_, ?_, nofun⟩
          · rw [one, kept]
          · exact Nat.succ_le_succ (Nat.zero_le n)
        · obtain ⟨last, later, after, bytes, short, stops⟩ := ih next
          refine ⟨last, by omega, after, ?_, Nat.succ_le_succ short, fun eof => ?_⟩
          · have split := text_append [committed[taken]] ((committed.take last).drop (taken + 1))
            rw [kept] at split
            rw [window_cons some later]
            dsimp only
            rw [bytes]
            exact split.symm
          · obtain ⟨shorter, left⟩ := stops eof
            refine ⟨Nat.succ_lt_succ shorter, fun less => left ?_⟩
            rw [List.length_cons] at less
            omega

/-- A read at a control-D. -/
theorem readLoop_eof (holds : i.Holds committed line taken) (target n : Nat)
    (next : committed[taken]? = some (control 'D')) :
    (i.readLoop target (n + 1)).how = .eof ∧ (i.readLoop target (n + 1)).bytes = [] := by
  obtain ⟨some, is⟩ := List.getElem?_eq_some_iff.mp next
  have more : i.r ≠ i.w := fun same => Nat.ne_of_gt some (holds.empty_iff.mp same)
  unfold readLoop
  rw [if_neg more, holds.front some, if_pos is]
  split
  · exact ⟨rfl, rfl⟩
  · exact ⟨rfl, rfl⟩

end Input

/-! ## Runs -/

section Runs

variable {P : Type}

namespace ConsoleLabel

/-- The characters that a step commits. -/
def committed : ConsoleLabel P → List UInt8
  | .intr _ committed => committed
  | .reads _ _ _ _ _ => []

/-- The bytes that a step stores for a reader. -/
def stored : ConsoleLabel P → List UInt8
  | .intr _ _ => []
  | .reads _ _ bytes _ _ => bytes

/-- A read returns this. -/
def result : ConsoleLabel P → Option (List UInt8)
  | .intr _ _ => none
  | .reads _ _ _ how dst => if how = .sleeps then none else some dst

/-- A read stops at a control-D behind other bytes. -/
def leavesEof : ConsoleLabel P → Prop
  | .reads _ _ _ how dst => how = .eof ∧ dst ≠ []
  | _ => False

/-- A read meets a control-D before anything else. -/
def takesEof : ConsoleLabel P → Prop
  | .reads _ _ _ how dst => how = .eof ∧ dst = []
  | _ => False

/-- A read with room for something starts. -/
def starts : ConsoleLabel P → Prop
  | .reads _ (some n) _ _ _ => 0 < n
  | _ => False

variable [DecidableEq P]

/-- What a step stores for one process. -/
def storedFor (p : P) : ConsoleLabel P → List UInt8
  | .intr _ _ => []
  | .reads q _ bytes _ _ => if q = p then bytes else []

/-- What a step returns to one process. -/
def returned (p : P) : ConsoleLabel P → List UInt8
  | .intr _ _ => []
  | .reads q _ _ how dst => if q = p ∧ how ≠ .sleeps then dst else []

end ConsoleLabel

variable [DecidableEq P] {s t : ConsoleState P}

/-- What the read that a process is in has stored. -/
def ConsoleState.current (s : ConsoleState P) (p : P) : List UInt8 := (s.call p).elim [] Reading.dst

/-- How a state follows from what has been committed and read. -/
structure ConsoleInv (committed stored : List UInt8) (s : ConsoleState P) : Prop where
  input : ∃ line taken, s.input.Holds committed line taken ∧
    stored = Input.text (committed.take taken)
  reading : ∀ p c, s.call p = some c → c.dst.length ≤ c.target

/-- A section of a read. -/
theorem ConsoleInv.read {committed stored : List UInt8} (inv : ConsoleInv committed stored s)
    {p : P} {c : Reading} (fits : c.dst.length ≤ c.target) :
    ConsoleInv committed (stored ++ (s.input.readLoop c.target (c.target - c.dst.length)).bytes)
      (s.read p c (s.input.readLoop c.target (c.target - c.dst.length))) := by
  obtain ⟨⟨line, taken, holds, was⟩, reading⟩ := inv
  obtain ⟨last, later, after, bytes, short, _⟩ :=
    Input.readLoop_spec holds c.target (c.target - c.dst.length)
  refine ⟨⟨line, last, after, ?_⟩, fun q d call => ?_⟩
  · rw [bytes, was, ← Input.text_append]
    congr 1
    have split := List.take_append_drop taken (committed.take last)
    rw [List.take_take, Nat.min_eq_left later] at split
    exact split
  · by_cases same : q = p
    · rw [same] at call
      simp only [ConsoleState.read, Function.update_self] at call
      obtain ⟨_, call⟩ := Option.ite_none_right_eq_some.mp call
      cases call
      change (c.dst ++ (s.input.readLoop c.target (c.target - c.dst.length)).bytes).length ≤ c.target
      rw [List.length_append]
      omega
    · simp only [ConsoleState.read, Function.update_of_ne same] at call
      exact reading q d call

omit [DecidableEq P] in
theorem ConsoleInv.intr {committed stored : List UInt8} (inv : ConsoleInv committed stored s)
    (chars : List UInt8) :
    ConsoleInv (committed ++ (s.intr chars).input.between s.input.w (s.intr chars).input.w) stored
      (s.intr chars) := by
  obtain ⟨⟨line, taken, holds, was⟩, reading⟩ := inv
  obtain ⟨more, rest, after⟩ := Input.intr_spec holds chars
  have window := after.between holds.order (b := (committed ++ more).length)
    (by rw [List.length_append]; omega) (by simp only [List.length_append]; omega) holds.write
    after.write
  rw [List.take_left, List.drop_left] at window
  refine ⟨⟨rest, taken, ?_, ?_⟩, fun p c call => ?_⟩
  · rw [show (s.intr chars).input.between s.input.w (s.intr chars).input.w = more from window]
    exact after
  · rw [List.take_append_of_le_length holds.order]
    exact was
  · dsimp only [ConsoleState.intr] at call
    split at call
    · obtain ⟨d, before, is⟩ := Option.map_eq_some_iff.mp call
      cases is
      exact reading p d before
    · exact reading p c call

theorem ConsoleInv.step {committed stored : List UInt8} {label : ConsoleLabel P}
    (inv : ConsoleInv committed stored s) (step : ConsoleStep s label t) :
    ConsoleInv (committed ++ label.committed) (stored ++ label.stored) t := by
  cases step with
  | intr chars =>
    change ConsoleInv _ (stored ++ []) _
    rw [List.append_nil]
    exact inv.intr chars
  | @start p n ran idle runs =>
    change ConsoleInv (committed ++ []) _ _
    rw [List.append_nil, ← runs]
    exact inv.read (c := ⟨n, [], false⟩) (Nat.zero_le n)
  | @resume p c ran call woken runs =>
    change ConsoleInv (committed ++ []) _ _
    rw [List.append_nil, ← runs]
    exact inv.read (inv.reading p c call)

theorem ConsoleInv.run {labels : List (ConsoleLabel P)} (start : s.Initial)
    (run : (consoleSystem P).Run s labels t) :
    ConsoleInv (labels.flatMap ConsoleLabel.committed) (labels.flatMap ConsoleLabel.stored) t := by
  refine run.preservesHistory (P := fun labels s => ConsoleInv
    (labels.flatMap ConsoleLabel.committed) (labels.flatMap ConsoleLabel.stored) s)
    (fun inv step => ?_) ?_
  · rw [List.flatMap_append, List.flatMap_append, List.flatMap_singleton, List.flatMap_singleton]
    exact inv.step step
  · obtain ⟨input, idle⟩ := start
    refine ⟨⟨[], 0, ?_, rfl⟩, fun p c call => ?_⟩
    · rw [input]
      exact ⟨.empty rfl rfl, rfl, Nat.le_refl _⟩
    · cases (idle p).symm.trans call

/-- Each process is returned what has been stored for it. -/
theorem current_step {label : ConsoleLabel P} (step : ConsoleStep s label t) (p : P) :
    label.returned p ++ t.current p = s.current p ++ label.storedFor p := by
  have section' {q : P} {c : Reading} {ran : Section} (call : s.current q = c.dst) :
      (if q = p ∧ ran.how ≠ .sleeps then c.dst ++ ran.bytes else []) ++ (s.read q c ran).current p =
        s.current p ++ if q = p then ran.bytes else [] := by
    by_cases same : q = p
    · rw [← same, call]
      simp only [ConsoleState.current, ConsoleState.read, Function.update_self]
      by_cases sleeps : ran.how = .sleeps
      · simp [sleeps]
      · simp [sleeps]
    · have apart : p ≠ q := fun is => same is.symm
      simp [same, ConsoleState.current, ConsoleState.read, Function.update_of_ne apart]
  cases step with
  | intr chars =>
    simp only [ConsoleLabel.returned, ConsoleLabel.storedFor, ConsoleState.current,
      ConsoleState.intr, List.nil_append, List.append_nil]
    split
    · cases s.call p <;> rfl
    · rfl
  | @start q n ran idle runs =>
    refine section' (c := ⟨n, [], false⟩) ?_
    simp [ConsoleState.current, idle]
  | @resume q c ran call woken runs =>
    refine section' ?_
    simp [ConsoleState.current, call]

theorem returned_run {labels : List (ConsoleLabel P)} (start : s.Initial)
    (run : (consoleSystem P).Run s labels t) (p : P) :
    labels.flatMap (ConsoleLabel.returned p) ++ t.current p =
      labels.flatMap (ConsoleLabel.storedFor p) := by
  refine run.preservesHistory (P := fun labels s =>
    labels.flatMap (ConsoleLabel.returned p) ++ s.current p =
      labels.flatMap (ConsoleLabel.storedFor p)) (fun {labels s label t} before step => ?_) ?_
  · rw [List.flatMap_append, List.flatMap_append, List.flatMap_singleton, List.flatMap_singleton,
      List.append_assoc, current_step step p, ← List.append_assoc, before]
  · simp [ConsoleState.current, start.2 p]

/-! ## Control-D -/

/-- The next character for a reader is a control-D. -/
def ConsoleState.EofNext (s : ConsoleState P) : Prop := s.input.pending.head? = some (control 'D')

section Eof

variable {committed stored : List UInt8} {label : ConsoleLabel P}

theorem ConsoleInv.leaves (inv : ConsoleInv committed stored s) (step : ConsoleStep s label t)
    (left : label.leavesEof) : t.EofNext := by
  obtain ⟨⟨line, taken, holds, _⟩, reading⟩ := inv
  have section' (c : Reading) (fits : c.dst.length ≤ c.target)
      (how : (s.input.readLoop c.target (c.target - c.dst.length)).how = .eof)
      (some : c.dst ++ (s.input.readLoop c.target (c.target - c.dst.length)).bytes ≠ []) :
      (s.input.readLoop c.target (c.target - c.dst.length)).input.pending.head? =
        Option.some (control 'D') := by
    obtain ⟨last, _, after, _, _, stops⟩ :=
      Input.readLoop_spec holds c.target (c.target - c.dst.length)
    have length := List.length_pos_iff.mpr some
    rw [List.length_append] at length
    obtain ⟨less, next⟩ := stops how
    rw [after.pending, List.head?_drop]
    exact next (by omega)
  cases step with
  | intr chars => cases left
  | @start p n ran idle runs =>
    cases runs
    exact section' ⟨n, [], false⟩ (Nat.zero_le n) left.1 left.2
  | @resume p c ran call woken runs =>
    cases runs
    exact section' c (reading p c call) left.1 left.2

omit [DecidableEq P] in
/-- A section of a read where a control-D comes next. -/
theorem ConsoleInv.at_eof (inv : ConsoleInv committed stored s) (next : s.EofNext)
    (target n : Nat) :
    n = 0 ∧ (s.input.readLoop target n).input = s.input ∨ 0 < n ∧
      (s.input.readLoop target n).how = .eof ∧ (s.input.readLoop target n).bytes = [] := by
  obtain ⟨⟨line, taken, holds, _⟩, _⟩ := inv
  rw [ConsoleState.EofNext, holds.pending, List.head?_drop] at next
  cases n with
  | zero => exact .inl ⟨rfl, rfl⟩
  | succ n => exact .inr ⟨Nat.succ_pos n, Input.readLoop_eof holds target n next⟩

theorem ConsoleInv.keeps (inv : ConsoleInv committed stored s) (next : s.EofNext)
    (step : ConsoleStep s label t) (kept : ¬ label.takesEof) : t.EofNext := by
  have section' {p : P} {starts : Option Nat} {c : Reading} {n : Nat}
      (step : ConsoleStep s (.reads p starts (s.input.readLoop c.target n).bytes
        (s.input.readLoop c.target n).how (c.dst ++ (s.input.readLoop c.target n).bytes))
        (s.read p c (s.input.readLoop c.target n)))
      (kept : ¬ ((s.input.readLoop c.target n).how = .eof ∧
        c.dst ++ (s.input.readLoop c.target n).bytes = [])) :
      (s.read p c (s.input.readLoop c.target n)).EofNext := by
    rcases inv.at_eof next c.target n with ⟨_, same⟩ | ⟨_, how, _⟩
    · change (s.input.readLoop c.target n).input.pending.head? = _
      rw [same]
      exact next
    · exact inv.leaves step ⟨how, fun none => kept ⟨how, none⟩⟩
  cases step with
  | intr chars =>
    obtain ⟨⟨line, taken, holds, _⟩, _⟩ := inv
    obtain ⟨more, rest, after⟩ := Input.intr_spec holds chars
    rw [ConsoleState.EofNext, holds.pending, List.head?_drop] at next
    obtain ⟨some, is⟩ := List.getElem?_eq_some_iff.mp next
    change (s.input.intr chars).1.pending.head? = _
    rw [after.pending, List.head?_drop, List.getElem?_append_left some]
    exact next
  | @start p n ran idle runs =>
    cases runs
    exact section' (c := ⟨n, [], false⟩) (.start idle rfl) kept
  | @resume p c ran call woken runs =>
    cases runs
    exact section' (.resume call woken rfl) kept

theorem ConsoleInv.takes (inv : ConsoleInv committed stored s) (next : s.EofNext)
    (step : ConsoleStep s label t) (starts : label.starts) : label.takesEof := by
  cases step with
  | intr chars => cases starts
  | @start p n ran idle runs =>
    cases runs
    rcases inv.at_eof next n n with ⟨none, _⟩ | ⟨_, how, bytes⟩
    · exact absurd none (Nat.ne_of_gt starts)
    · exact ⟨how, bytes⟩
  | @resume p c ran call woken runs => cases starts

/-- A control-D that is left is there until a read takes it. -/
theorem eof_waits {before between : List (ConsoleLabel P)} (start : s.Initial)
    (run : (consoleSystem P).Run s (before ++ label :: between) t) (left : label.leavesEof)
    (kept : ∀ l ∈ between, ¬ l.takesEof) : t.EofNext := by
  induction between using List.reverseRecOn generalizing t with
  | nil =>
    obtain ⟨middle, earlier, step⟩ := run.unsnoc
    exact (ConsoleInv.run start earlier).leaves step left
  | append_singleton between last ih =>
    rw [← List.cons_append, ← List.append_assoc] at run
    obtain ⟨middle, earlier, step⟩ := run.unsnoc
    have next := ih earlier fun l member => kept l (List.mem_append_left _ member)
    exact (ConsoleInv.run start earlier).keeps next step (kept last (by simp))

end Eof

/--
The line discipline: the indices keep their distances; the editing keys change
no committed character; the bytes are read in the order in which they were
committed, without the control-Ds; every read returns what was stored for it;
and a control-D behind other bytes is left for the next read, which returns nothing.
-/
theorem console_line_discipline {labels : List (ConsoleLabel P)} (start : s.Initial)
    (run : (consoleSystem P).Run s labels t) :
    (t.input.w - t.input.r ≤ t.input.e - t.input.r ∧ t.input.e - t.input.r ≤ 128) ∧
    (∀ c, Input.edits c → (t.input.key c).1.w = t.input.w ∧ (t.input.key c).1.r = t.input.r ∧
      (t.input.key c).1.pending = t.input.pending) ∧
    (∃ consumed, labels.flatMap ConsoleLabel.committed = consumed ++ t.input.pending ∧
      labels.flatMap ConsoleLabel.stored = Input.text consumed) ∧
    (∀ p, labels.flatMap (ConsoleLabel.returned p) ++ t.current p =
      labels.flatMap (ConsoleLabel.storedFor p)) ∧
    ∀ before left between next after, labels = before ++ left :: (between ++ next :: after) →
      left.leavesEof → (∀ l ∈ between, ¬ l.takesEof) → next.starts → next.takesEof := by
  obtain ⟨⟨line, taken, holds, stored⟩, _⟩ := ConsoleInv.run start run
  refine ⟨?_, fun c edits => ?_, ⟨_, ?_, stored⟩, returned_run start run, ?_⟩
  · obtain ⟨written, edited⟩ := holds.counts
    have room := holds.ring.room
    rw [UInt32.le_iff_toNat_le, UInt32.le_iff_toNat_le, written, edited]
    rw [List.length_append] at room ⊢
    change _ ∧ _ ≤ inputBuf
    omega
  · obtain ⟨rest, after, _, r, w⟩ := Input.key_edits holds edits
    exact ⟨w, r, after.pending.trans holds.pending.symm⟩
  · rw [holds.pending]
    exact (List.take_append_drop taken _).symm
  · intro before left between next after cut leaves kept starts
    rw [cut, ← List.cons_append, ← List.append_assoc] at run
    obtain ⟨middle, earlier, rest⟩ := run.split
    obtain ⟨_, step, _⟩ := rest.uncons
    exact (ConsoleInv.run start earlier).takes (eof_waits start earlier leaves kept) step starts

end Runs

/-- The console after boot, with two readers. -/
def quietConsole : ConsoleState Bool := ⟨⟨fun _ => 0, 0, 0, 0⟩, fun _ => none⟩

/-- Two characters and a control-D are typed, and two reads follow. -/
theorem two_reads_of_a_line : ∃ t, quietConsole.Initial ∧
    (consoleSystem Bool).Run quietConsole [.intr [104, 105, 4] [104, 105, 4],
      .reads true (some 10) [104, 105] .eof [104, 105], .reads false (some 10) [] .eof []] t ∧
    t.input.e - t.input.r ≤ 128 ∧
    (ConsoleLabel.reads false (some 10) [] .eof []).takesEof := by
  have start : quietConsole.Initial := ⟨rfl, fun _ => rfl⟩
  have first : ConsoleStep quietConsole (.intr [104, 105, 4] [104, 105, 4])
      (quietConsole.intr [104, 105, 4]) := .intr [104, 105, 4]
  have second := ConsoleStep.start (s := quietConsole.intr [104, 105, 4]) (p := true) (n := 10) rfl rfl
  have third := ConsoleStep.start (s := (quietConsole.intr [104, 105, 4]).read true ⟨10, [], false⟩
    ((quietConsole.intr [104, 105, 4]).input.readLoop 10 10)) (p := false) (n := 10) rfl rfl
  have empty : (consoleSystem Bool).Run quietConsole [] quietConsole := .nil _
  have run := ((empty.snoc first).snoc second).snoc third
  obtain ⟨bounds, _, _, _, eof⟩ := console_line_discipline start run
  exact ⟨_, start, run, bounds.2,
    eof [_] (.reads true (some 10) [104, 105] .eof [104, 105]) [] _ [] rfl (by simp [ConsoleLabel.leavesEof])
      nofun (by simp [ConsoleLabel.starts])⟩

end SlabStudy.Xv6
