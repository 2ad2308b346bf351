import Mathlib.Data.List.Basic
import Mathlib.Tactic.Common

/-!
# The loops that send a file

`get` of the file server and `send_put_data` of its client read four bytes at a
time until `feof`, and send the whole of what they read into.  The copies they
collect in `buf` and `big_buf` are never sent, and are left out.
-/

namespace SlabStudy.FileSharing

/-- How many of the bytes offered to it one `send` after the other takes. -/
structure Sends where
  took : Nat → Nat
  moves : ∀ len, 0 < len → 0 < took len ∧ took len ≤ len

/-- What `send_mes` puts on the connection. -/
def sendMes (send : Sends) (message : List UInt8) : List UInt8 :=
  if _more : 0 < message.length then
    let s := send.took message.length
    message.take s ++ sendMes send (message.drop s)
  else []
termination_by message.length
decreasing_by
  have taken := send.moves message.length ‹_›
  rw [List.length_drop]
  omega

/-- A loop that reads four bytes into `buffer` and sends four bytes of it, until a read has
come to the end of the file.  `left` is what the file has left. -/
def sendBlocks (send : Nat → Sends) (round : Nat) (buffer left : List UInt8) : List UInt8 :=
  let count := min 4 left.length
  let buffer := left.take count ++ buffer.drop count
  let sent := sendMes (send round) (buffer.take 4)
  if 4 ≤ left.length then sent ++ sendBlocks send (round + 1) buffer (left.drop 4) else sent
termination_by left.length
decreasing_by
  rw [List.length_drop]
  omega

/-- What `get` of the server sends for a file; `buffer` is on the stack and not initialised. -/
def get (send : Nat → Sends) (buffer content : List UInt8) : List UInt8 :=
  sendBlocks send 0 buffer content

/-- What `send_put_data` of the client sends for a file. -/
def sendPutData (send : Nat → Sends) (buffer content : List UInt8) : List UInt8 :=
  sendBlocks send 0 buffer content

variable {send : Nat → Sends} {round : Nat} {buffer left content : List UInt8}

theorem sendMes_eq (send : Sends) (message : List UInt8) : sendMes send message = message := by
  fun_induction sendMes send message with
  | case1 message more s ih => rw [ih, List.take_append_drop]
  | case2 message none => exact (List.length_eq_zero_iff.mp (Nat.eq_zero_of_not_pos none)).symm

/-- What a round has read into `buffer`. -/
def filled (buffer left : List UInt8) : List UInt8 :=
  left.take (min 4 left.length) ++ buffer.drop (min 4 left.length)

theorem filled_length (left : List UInt8) (sized : buffer.length = 8) :
    (filled buffer left).length = 8 := by
  rw [filled, List.length_append, List.length_take, List.length_drop, sized]
  omega

/-- A full read fills the four bytes that are sent. -/
theorem filled_full (full : 4 ≤ left.length) : (filled buffer left).take 4 = left.take 4 := by
  have four : (left.take 4).length = 4 := List.length_take_of_le full
  rw [filled, Nat.min_eq_left full, List.take_left' four]

/-- A read at the end leaves the bytes of the read before in place. -/
theorem filled_short (left : List UInt8) (sized : buffer.length = 8) (short : left.length < 4) :
    ∃ extra, (filled buffer left).take 4 = left ++ extra ∧ extra.length = 4 - left.length := by
  refine ⟨(buffer.drop left.length).take (4 - left.length), ?_, ?_⟩
  · rw [filled, Nat.min_eq_right (Nat.le_of_lt short), List.take_length, List.take_append,
      List.take_of_length_le (Nat.le_of_lt short)]
  · rw [List.length_take, List.length_drop, sized]
    omega

/-- Nothing of the file is dropped or changed, but bytes of the buffer follow it. -/
theorem sendBlocks_eq (send : Nat → Sends) (round : Nat) (left : List UInt8)
    (sized : buffer.length = 8) : ∃ extra,
    sendBlocks send round buffer left = left ++ extra ∧ extra.length = 4 - left.length % 4 := by
  induction size : left.length using Nat.strongRecOn generalizing left buffer round with
  | ind n ih =>
      subst size
      rw [sendBlocks]
      change ∃ extra, (if 4 ≤ left.length then
        sendMes (send round) ((filled buffer left).take 4) ++
          sendBlocks send (round + 1) (filled buffer left) (left.drop 4)
        else sendMes (send round) ((filled buffer left).take 4)) = left ++ extra ∧ _
      rw [sendMes_eq]
      by_cases full : 4 ≤ left.length
      · have fewer : (left.drop 4).length = left.length - 4 := List.length_drop
        obtain ⟨extra, rest, size⟩ := ih (left.drop 4).length (by omega)
          (round + 1) (left.drop 4) (filled_length left sized) rfl
        refine ⟨extra, ?_, ?_⟩
        · rw [if_pos full, filled_full full, rest, ← List.append_assoc, List.take_append_drop]
        · rw [size, fewer]
          omega
      · obtain ⟨extra, rest, size⟩ := filled_short left sized (Nat.not_le.mp full)
        refine ⟨extra, ?_, ?_⟩
        · rw [if_neg full, rest]
        · rw [size, Nat.mod_eq_of_lt (Nat.not_le.mp full)]

theorem sendBlocks_ne (sized : buffer.length = 8) :
    sendBlocks send round buffer content ≠ content := by
  obtain ⟨extra, sent, size⟩ := sendBlocks_eq send round content sized
  intro same
  have none := congrArg List.length (sent.symm.trans same)
  rw [List.length_append] at none
  omega

/-- No file is sent exactly, by neither program. -/
theorem file_sent_never (send : Nat → Sends) (buffer content : List UInt8)
    (sized : buffer.length = 8) :
    get send buffer content ≠ content ∧ sendPutData send buffer content ≠ content :=
  ⟨sendBlocks_ne sized, sendBlocks_ne sized⟩

/-- A connection on which each `send` takes all it is offered. -/
def wholeSends : Nat → Sends := fun _ => ⟨id, fun _ some => ⟨some, Nat.le_refl _⟩⟩

theorem file_sent_never_hello :
    get wholeSends (List.replicate 8 0) [104, 101, 108, 108, 111] ≠ [104, 101, 108, 108, 111] ∧
    sendPutData wholeSends (List.replicate 8 0) [104, 101, 108, 108, 111] ≠
      [104, 101, 108, 108, 111] :=
  file_sent_never wholeSends (List.replicate 8 0) [104, 101, 108, 108, 111] List.length_replicate

/-- Behind the five bytes of `hello` the last three of its first four are sent again. -/
theorem hello_sent :
    get wholeSends (List.replicate 8 0) [104, 101, 108, 108, 111] =
      [104, 101, 108, 108, 111, 101, 108, 108] ∧
    sendPutData wholeSends (List.replicate 8 0) [104, 101, 108, 108, 111] =
      [104, 101, 108, 108, 111, 101, 108, 108] := by
  simp [get, sendPutData, sendBlocks, sendMes_eq]

end SlabStudy.FileSharing
