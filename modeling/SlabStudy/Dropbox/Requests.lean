import Mathlib.Algebra.Ring.Nat
import SlabStudy.Dropbox.Transfer

/-!
# The requests of the dropbox

`get_send` and `put_send` of the client against `child_proc` of the server,
which takes the type, the length and the name with one `recv` each, into
variables that are not initialised.
-/

namespace SlabStudy.Dropbox

open Library

inductive Request where
  | list
  | get (name : CString)
  | put (name : CString) (data : List UInt8)
  deriving DecidableEq

/-- The messages of `get_send`. -/
def getMessages (name : List UInt8) : List (List UInt8) :=
  [intBytes 2, intBytes (name.length + 1), name ++ [0]]

/-- What the client sends. -/
def Request.bytes : Request → List UInt8
  | .list => intBytes 1
  | .get name => (getMessages name.1).flatten
  | .put name data => (putMessages name.1 data).flatten

/-- What a client can send: there is no file without a name, and `put_send` exits where it cannot
open the file. -/
def Request.Sendable : Request → Prop
  | .put name _ => name.1 ≠ []
  | _ => True

/-- What stands in memory that is not initialised. -/
structure Uninit where
  type : List UInt8
  length : List UInt8
  /-- In `buf` and behind it. -/
  buf : List UInt8
  heap : Nat → Nat → UInt8

/-- `recv` into an `int`. -/
def recvInt (before : List UInt8) (pieces : Pieces UInt8) : Nat × Pieces UInt8 :=
  (intOf (pieces.recv 4).1 before, (pieces.recv 4).2)

/-- `recv` of this many bytes into `buf`; `none` where more come than there is room for. -/
def recvName (before : List UInt8) (len : Nat) (pieces : Pieces UInt8) :
    Option (CString × Pieces UInt8) :=
  if (pieces.recv len).1.length ≤ bufSize then
    some (.read ((pieces.recv len).1 ++ before.drop (pieces.recv len).1.length),
      (pieces.recv len).2)
  else none

/-- The length, and the name. -/
def recvString (u : Uninit) (pieces : Pieces UInt8) : Option (CString × Pieces UInt8) :=
  recvName u.buf (recvInt u.length pieces).1 (recvInt u.length pieces).2

def slash : UInt8 := 47

/-- `child_proc`: the request that it answers; `none` where it exits, fails or does nothing. -/
def childProc (u : Uninit) (pieces : Pieces UInt8) : Option Request :=
  let command := recvInt u.type pieces
  if command.1 = 1 then some .list
  else if command.1 = 2 then
    (recvString u command.2).bind fun (name, _) =>
      if slash ∈ name.1 then none else some (.get name)
  else if command.1 = 3 then
    (recvString u command.2).bind fun (name, rest) =>
      (serverPutData u.heap rest).map (.put name)
  else none

/-! ## Ints -/

variable {pieces : Pieces UInt8} {name : CString} {got before data more : List UInt8} {n : Nat}

theorem intOf_intBytes (n : Nat) (before : List UInt8) :
    intOf (intBytes n) before = n % 4294967296 := by
  unfold intOf
  rw [List.take_left' (intBytes_length n)]
  simp [intBytes]
  omega

/-- What a last byte is worth. -/
theorem pow_le_foldr (bytes : List UInt8) : 256 ^ bytes.length ≤
    (bytes ++ [1]).foldr (fun (byte : UInt8) n => byte.toNat + 256 * n) 0 := by
  induction bytes with
  | nil => exact Nat.le_refl 1
  | cons byte bytes ih =>
      rw [List.cons_append, List.foldr_cons, List.length_cons, Nat.pow_succ, Nat.mul_comm]
      exact Nat.le_add_left_of_le (Nat.mul_le_mul_left 256 ih)

/-- The bytes that have not been received can be anything. -/
theorem lt_intOf (short : got.length < 4) : 3 < intOf got [0, 0, 0, 1] := by
  have bytes : ([0, 0, 0, 1] : List UInt8).drop got.length =
      List.replicate (3 - got.length) 0 ++ [1] := by
    obtain size | size | size | size : got.length = 0 ∨ got.length = 1 ∨ got.length = 2 ∨
        got.length = 3 := by omega
    all_goals
      rw [size]
      rfl
  have three : (got ++ List.replicate (3 - got.length) 0).length = 3 := by
    rw [List.length_append, List.length_replicate]
    omega
  have worth := pow_le_foldr (got ++ List.replicate (3 - got.length) 0)
  rw [three] at worth
  unfold intOf
  rw [bytes, ← List.append_assoc, List.take_of_length_le]
  · exact Nat.lt_of_lt_of_le (by decide : 3 < 256 ^ 3) worth
  · rw [List.length_append, three]
    exact Nat.le_refl 4

theorem le_intOf (byte : UInt8) (got before : List UInt8) :
    byte.toNat ≤ intOf (byte :: got) before :=
  Nat.le_add_right ..

/-- All of an `int` has come. -/
theorem recvInt_uncut (sent : pieces.all = intBytes n ++ more) (uncut : pieces.Uncut 0 4)
    (before : List UInt8) :
    (recvInt before pieces).1 = n % 4294967296 ∧ (recvInt before pieces).2.all = more := by
  obtain ⟨got, left⟩ := Pieces.recv_front sent uncut
  exact ⟨(congrArg (intOf · before) got).trans (intOf_intBytes n before), left⟩

theorem recvInt_cuts (there : 4 ≤ pieces.all.length) (uncut : pieces.Uncut 0 4)
    (before : List UInt8) (start stop : Nat) : (recvInt before pieces).2.Uncut start stop ↔
      pieces.Uncut (4 + start) (4 + stop) := by
  have whole := (pieces.length_recv_iff there).mpr uncut
  have cuts := pieces.recv_uncut 4 start stop
  rwa [whole] at cuts

/-! ## Names -/

/-- A name that does not depend on what was in `buf` has come with its NUL. -/
theorem exists_nul (fixed : ∀ before : List UInt8,
    CString.read (got ++ before.drop got.length) = name) : 0 ∈ got ∧ cstring got = name.1 := by
  have behind : ∀ rest : List UInt8, cstring (got ++ rest) = name.1 := by
    intro rest
    have read := fixed (List.replicate got.length 0 ++ rest)
    rw [List.drop_left' List.length_replicate] at read
    exact congrArg Subtype.val read
  have same : cstring got = name.1 := by
    have alone := behind []
    rwa [List.append_nil] at alone
  refine ⟨?_, same⟩
  by_contra clean
  have one := behind [1, 0]
  rw [cstring_append clean, ← same, cstring_of_clean clean] at one
  have size := congrArg List.length one
  rw [List.length_append] at size
  exact Nat.succ_ne_self _ size

/-- What has come contains the name and its NUL. -/
theorem length_name_lt (front : got <+: name.1 ++ 0 :: data) (ended : 0 ∈ got) :
    name.1.length < got.length := by
  obtain ⟨rest, same⟩ := front
  by_contra short
  have inside : got <+: name.1 := List.prefix_of_prefix_length_le ⟨rest, same⟩
    (List.prefix_append _ _) (Nat.not_lt.mp short)
  exact name.2 (inside.subset ended)

/-- The length and the name come uncut from `start` on, and there is room for the name. -/
def NameWhole (pieces : Pieces UInt8) (start : Nat) (name : CString) : Prop :=
  pieces.Uncut start (start + 4) ∧
    pieces.Uncut (start + 4) (start + 4 + (name.1.length + 1)) ∧ name.1.length < bufSize

theorem four_le (sent : pieces.all = intBytes n ++ more) : 4 ≤ pieces.all.length := by
  rw [sent, List.length_append]
  exact Nat.le_add_right ..

theorem NameWhole.recvString (whole : NameWhole pieces 0 name)
    (sent : pieces.all = intBytes (name.1.length + 1) ++ (name.1 ++ 0 :: data)) (u : Uninit) :
    ∃ rest, recvString u pieces = some (name, rest) ∧ rest.all = data := by
  obtain ⟨length, uncut, room⟩ := whole
  obtain ⟨len, left⟩ := recvInt_uncut sent length u.length
  have cuts := (recvInt_cuts (four_le sent) length u.length 0 (name.1.length + 1)).mpr uncut
  have small : (name.1.length + 1) % 4294967296 = name.1.length + 1 := by
    unfold bufSize at room
    omega
  have ended : (name.1 ++ [0]).length = name.1.length + 1 := List.length_append
  rw [← ended] at cuts
  rw [List.append_cons] at left
  obtain ⟨got, rest⟩ := Pieces.recv_front left cuts
  refine ⟨_, ?_, rest⟩
  rw [Dropbox.recvString, len, small, ← ended, recvName, got, ended,
    if_pos (Nat.succ_le_of_lt room), List.append_assoc, List.singleton_append, CString.read_nul]

theorem intBytes_small (small : n < 256) : intBytes n = [UInt8.ofNat n, 0, 0, 0] := by
  have first : n / 256 = 0 := Nat.div_eq_of_lt small
  have second : n / 65536 = 0 := Nat.div_eq_of_lt (by omega)
  have third : n / 16777216 = 0 := Nat.div_eq_of_lt (by omega)
  rw [intBytes, first, second, third]
  rfl

/-- A name that is read where the last bytes of its length stand is empty. -/
theorem name_of_length {front high : List UInt8} (bytes : front ++ high = intBytes (n + 1))
    (come : front ≠ []) (left : high ≠ []) (size : n = name.1.length)
    (same : cstring (high ++ (name.1 ++ 0 :: data)) = name.1) : name.1 = [] := by
  by_cases zero : 0 ∈ high
  · rw [cstring_append_of_mem zero] at same
    have lengths := congrArg List.length bytes
    rw [List.length_append, intBytes_length] at lengths
    have before := List.length_pos_iff.mpr come
    have short := length_cstring_lt zero
    rw [same] at short
    rw [intBytes_small (by omega)] at bytes
    cases front with
    | nil => exact absurd rfl come
    | cons byte front =>
        have rest : front ++ high = [0, 0, 0] := (List.cons.inj bytes).2
        have zeros : ∀ byte ∈ high, byte = 0 := by
          intro byte member
          have inside : byte ∈ front ++ high := List.mem_append_right front member
          rw [rest] at inside
          simpa using inside
        cases high with
        | nil => exact absurd rfl left
        | cons byte high =>
            obtain rfl := zeros byte List.mem_cons_self
            exact same.symm
  · rw [cstring_append zero, cstring_nul name.2] at same
    exact absurd (List.append_left_eq_self.mp same) left

/-- If the name comes whatever was in memory, it comes whole, or it is empty. -/
theorem nameWhole_of_recvString
    (sent : pieces.all = intBytes (name.1.length + 1) ++ (name.1 ++ 0 :: data))
    (read : ∀ u, ∃ rest, recvString u pieces = some (name, rest)) :
    name.1 = [] ∨ NameWhole pieces 0 name := by
  let len := intOf (pieces.recv 4).1 []
  let got := ((pieces.recv 4).2.recv len).1
  have fixed : ∀ before : List UInt8,
      got.length ≤ bufSize ∧ CString.read (got ++ before.drop got.length) = name := by
    intro before
    obtain ⟨rest, came⟩ := read ⟨[], [], before, fun _ _ => 0⟩
    obtain ⟨room, came⟩ := Option.ite_none_right_eq_some.mp came
    exact ⟨room, (Prod.mk.inj (Option.some.inj came)).1⟩
  obtain ⟨ended, same⟩ := exists_nul fun before => (fixed before).2
  have room := (fixed []).1
  have parts := (pieces.recv 4).2.recv_all len
  by_cases uncut : pieces.Uncut 0 4
  · right
    obtain ⟨value, left⟩ := recvInt_uncut sent uncut []
    have front : got <+: name.1 ++ 0 :: data := ⟨_, parts.trans left⟩
    have long := length_name_lt front ended
    have short : got.length ≤ len := Pieces.length_recv_le _ len
    have small : len = name.1.length + 1 := by
      refine value.trans (Nat.mod_eq_of_lt ?_)
      unfold bufSize at room
      omega
    have whole : got.length = len := by omega
    refine ⟨uncut, ?_, by omega⟩
    rw [← small]
    refine (recvInt_cuts (four_le sent) uncut [] 0 len).mp ((Pieces.length_recv_iff ?_).mp whole)
    rw [left, small, List.length_append, List.length_cons]
    omega
  · left
    have there := four_le sent
    have short : (pieces.recv 4).1.length < 4 :=
      Nat.lt_of_le_of_ne (pieces.length_recv_le 4) ((pieces.length_recv_iff there).not.mpr uncut)
    have come : (pieces.recv 4).1 ≠ [] := by
      refine (Pieces.recv_eq_nil (by decide)).not.mpr fun none => ?_
      rw [none] at there
      cases there
    have stream := (pieces.recv_all 4).trans sent
    obtain ⟨high, bytes, rest⟩ | ⟨more, bytes, -⟩ := List.append_eq_append_iff.mp stream
    · refine @name_of_length name data _ _ high bytes.symm come ?_ rfl ?_
      · rintro rfl
        have size := congrArg List.length bytes
        rw [intBytes_length, List.append_nil] at size
        omega
      · rw [← rest, ← parts, cstring_append_of_mem ended, same]
    · have size := congrArg List.length bytes
      rw [List.length_append, intBytes_length] at size
      omega

/-- Where only NULs are left of a stream, an empty name comes. -/
theorem recvName_nul {len : Nat} (empty : name.1 = []) (some : pieces.all ≠ [])
    (nuls : ∀ byte ∈ pieces.all, byte = 0) (few : pieces.all.length ≤ bufSize) (asks : 0 < len) :
    ∃ rest, recvName before len pieces = Option.some (name, rest) := by
  have parts := pieces.recv_all len
  have more := (Pieces.recv_eq_nil asks).not.mpr some
  obtain ⟨byte, got, come⟩ := List.exists_cons_of_ne_nil more
  have room : (pieces.recv len).1.length ≤ bufSize := by
    have size := congrArg List.length parts
    rw [List.length_append] at size
    omega
  have nul : byte = 0 := by
    apply nuls byte
    rw [← parts, come]
    exact List.mem_cons_self
  refine ⟨(pieces.recv len).2, ?_⟩
  rw [recvName, if_pos room, come, nul]
  exact congrArg (fun name => Option.some (name, (pieces.recv len).2)) (Subtype.ext empty.symm)

/-- An empty name comes with anything: its NUL looks like the bytes of its length. -/
theorem recvString_empty (empty : name.1 = []) (sent : pieces.all = intBytes 1 ++ [0])
    (u : Uninit) : ∃ rest, recvString u pieces = some (name, rest) := by
  have few := pieces.length_recv_le 4
  have stream := pieces.recv_all 4
  rw [sent] at stream
  have come : (pieces.recv 4).1 ≠ [] :=
    (Pieces.recv_eq_nil (by decide)).not.mpr (by rw [sent]; decide)
  obtain ⟨byte, first, same⟩ := List.exists_cons_of_ne_nil come
  rw [same] at stream few
  have bytes : byte = 1 := (List.cons.inj stream).1
  have zeros : first ++ (pieces.recv 4).2.all = List.replicate 4 0 := (List.cons.inj stream).2
  have size := congrArg List.length zeros
  rw [List.length_append, List.length_replicate] at size
  rw [List.length_cons] at few
  apply @recvName_nul (pieces.recv 4).2 _ _ _ empty
  · intro none
    rw [none, List.length_nil] at size
    omega
  · intro byte member
    refine List.eq_of_mem_replicate (n := 4) ?_
    rw [← zeros]
    exact List.mem_append_right _ member
  · unfold bufSize
    omega
  · rw [recvInt, same, bytes]
    exact Nat.lt_of_lt_of_le Nat.one_pos (le_intOf 1 first u.length)

/-! ## Requests -/

theorem serverPutData_iff {memory : Nat → Nat → UInt8} :
    serverPutData memory pieces = some pieces.all ↔ Transferable pieces.all := by
  refine written_iff.trans (and_congr_right fun _ => and_congr_right fun _ => ?_)
  exact ⟨fun same => same ▸ nul_notMem_cstring, cstring_of_clean⟩

/-- The request arrives uncut, a get with a name that is no path (or an empty one, which has only to
follow its type), a put with contents that arrive. -/
def Legible (pieces : Pieces UInt8) : Request → Prop
  | .list => pieces.Uncut 0 4
  | .get name => pieces.Uncut 0 4 ∧ slash ∉ name.1 ∧ (name.1 = [] ∨ NameWhole pieces 4 name)
  | .put name data => pieces.Uncut 0 4 ∧ NameWhole pieces 4 name ∧ Transferable data

/-- A type that has come in parts can be anything. -/
theorem uncut_of_childProc {request : Request} (there : 4 ≤ pieces.all.length)
    (decoded : ∀ u, childProc u pieces = some request) : pieces.Uncut 0 4 := by
  by_contra cut
  have short : (pieces.recv 4).1.length < 4 :=
    Nat.lt_of_le_of_ne (pieces.length_recv_le 4) ((pieces.length_recv_iff there).not.mpr cut)
  have large := lt_intOf short
  have nothing : childProc ⟨[0, 0, 0, 1], [], [], fun _ _ => 0⟩ pieces = none := by
    unfold childProc
    dsimp only [recvInt]
    rw [if_neg (by omega), if_neg (by omega), if_neg (by omega)]
  rw [decoded] at nothing
  cases nothing

/-- Behind the type the cuts are those of what it leaves. -/
theorem nameWhole_iff (there : 4 ≤ pieces.all.length) (uncut : pieces.Uncut 0 4) :
    NameWhole (pieces.recv 4).2 0 name ↔ NameWhole pieces 4 name := by
  have name_cuts := recvInt_cuts there uncut [] 4 (4 + (name.1.length + 1))
  rw [← Nat.add_assoc 4 4] at name_cuts
  exact and_congr (recvInt_cuts there uncut [] 0 4) (and_congr_left fun _ => name_cuts)

theorem childProc_get {u : Uninit} (command : (recvInt u.type pieces).1 = 2) :
    childProc u pieces = some (.get name) ↔
      (∃ rest, recvString u (pieces.recv 4).2 = some (name, rest)) ∧ slash ∉ name.1 := by
  unfold childProc
  dsimp only
  rw [command, if_neg (by decide), if_pos rfl, Option.bind_eq_some_iff]
  constructor
  · rintro ⟨⟨other, rest⟩, come, answer⟩
    obtain ⟨plain, answer⟩ := Option.ite_none_left_eq_some.mp answer
    obtain rfl := Request.get.inj (Option.some.inj answer)
    exact ⟨⟨rest, come⟩, plain⟩
  · rintro ⟨⟨rest, come⟩, plain⟩
    exact ⟨_, come, if_neg plain⟩

theorem childProc_put {u : Uninit} (command : (recvInt u.type pieces).1 = 3) :
    childProc u pieces = some (.put name data) ↔
      ∃ rest, recvString u (pieces.recv 4).2 = some (name, rest) ∧
        serverPutData u.heap rest = some data := by
  unfold childProc
  dsimp only
  rw [command, if_neg (by decide), if_neg (by decide), if_pos rfl, Option.bind_eq_some_iff]
  constructor
  · rintro ⟨⟨other, rest⟩, come, answer⟩
    obtain ⟨written, put, answer⟩ := Option.map_eq_some_iff.mp answer
    obtain ⟨rfl, rfl⟩ := Request.put.inj answer
    exact ⟨rest, come, put⟩
  · rintro ⟨rest, come, put⟩
    exact ⟨_, come, Option.map_eq_some_iff.mpr ⟨_, put, rfl⟩⟩

/-- Whatever stands in memory, `child_proc` decodes what has been sent exactly where it is legible. -/
theorem decoded_iff (request : Request) (pieces : Pieces UInt8) (sent : pieces.all = request.bytes)
    (sendable : request.Sendable) :
    (∀ u, childProc u pieces = some request) ↔ Legible pieces request := by
  cases request with
  | list =>
      have bytes : pieces.all = intBytes 1 ++ [] := sent
      refine ⟨uncut_of_childProc (four_le bytes), fun uncut u => ?_⟩
      exact if_pos (recvInt_uncut bytes uncut u.type).1
  | get name =>
      have bytes : pieces.all = intBytes 2 ++
          (intBytes (name.1.length + 1) ++ (name.1 ++ [0])) := by
        rw [sent]
        simp [Request.bytes, getMessages]
      have there := four_le bytes
      constructor
      · intro decoded
        have uncut := uncut_of_childProc there decoded
        obtain ⟨-, left⟩ := recvInt_uncut bytes uncut []
        have parts u := (childProc_get (recvInt_uncut bytes uncut u.type).1).mp (decoded u)
        refine ⟨uncut, (parts ⟨[], [], [], fun _ _ => 0⟩).2, ?_⟩
        rw [← nameWhole_iff there uncut]
        exact nameWhole_of_recvString left fun u => (parts u).1
      · rintro ⟨uncut, plain, whole⟩ u
        obtain ⟨command, left⟩ := recvInt_uncut bytes uncut u.type
        refine (childProc_get command).mpr ⟨?_, plain⟩
        obtain empty | whole := whole
        · rw [empty] at left
          exact recvString_empty empty left u
        · obtain ⟨rest, come, -⟩ := ((nameWhole_iff there uncut).mpr whole).recvString left u
          exact ⟨rest, come⟩
  | put name data =>
      have bytes : pieces.all = intBytes 3 ++
          (intBytes (name.1.length + 1) ++ (name.1 ++ 0 :: data)) := by
        rw [sent]
        simp [Request.bytes, putMessages]
      have there := four_le bytes
      constructor
      · intro decoded
        have uncut := uncut_of_childProc there decoded
        obtain ⟨-, left⟩ := recvInt_uncut bytes uncut []
        have parts u := (childProc_put (recvInt_uncut bytes uncut u.type).1).mp (decoded u)
        have whole : NameWhole (pieces.recv 4).2 0 name := by
          refine (nameWhole_of_recvString left fun u => ?_).resolve_left sendable
          obtain ⟨rest, come, -⟩ := parts u
          exact ⟨rest, come⟩
        refine ⟨uncut, (nameWhole_iff there uncut).mp whole, ?_⟩
        let u : Uninit := ⟨[], [], [], fun _ _ => 0⟩
        obtain ⟨rest, come, put⟩ := parts u
        obtain ⟨rest', come', rfl⟩ := whole.recvString left u
        obtain ⟨-, rfl⟩ := Prod.mk.inj (Option.some.inj (come.symm.trans come'))
        exact serverPutData_iff.mp put
      · rintro ⟨uncut, whole, transferable⟩ u
        obtain ⟨command, left⟩ := recvInt_uncut bytes uncut u.type
        obtain ⟨rest, come, rfl⟩ := ((nameWhole_iff there uncut).mpr whole).recvString left u
        exact (childProc_put command).mpr ⟨rest, come, serverPutData_iff.mpr transferable⟩

/-- A put of `ab` whose contents come in two pieces, the first of them with the name. -/
def putPieces : Pieces UInt8 := ⟨[[3, 0, 0, 0], [3, 0, 0, 0], [97, 98, 0, 120], [121]], by decide⟩

theorem decoded_iff_put :
    putPieces.all = (Request.put ⟨[97, 98], by decide⟩ [120, 121]).bytes ∧
    ∀ u, childProc u putPieces = some (.put ⟨[97, 98], by decide⟩ [120, 121]) := by
  have sent : putPieces.all = (Request.put ⟨[97, 98], by decide⟩ [120, 121]).bytes := by decide
  refine ⟨sent, (decoded_iff _ _ sent (List.cons_ne_nil _ _)).mpr ⟨?_, ⟨?_, ?_, ?_⟩, ?_⟩⟩
  · decide
  · decide
  · decide
  · decide
  · exact ⟨List.cons_ne_nil _ _, by decide, by decide⟩

/-- A get of `ab` is decoded as one of `a` where the stream is cut between the two. -/
theorem name_cut :
    let cut : Pieces UInt8 := ⟨[[2, 0, 0, 0], [3, 0, 0, 0], [97], [98, 0]], by decide⟩
    let u : Uninit := ⟨[], [], [0], fun _ _ => 0⟩
    cut.all = (Request.get ⟨[97, 98], by decide⟩).bytes ∧
    childProc u cut = some (.get ⟨[97], by decide⟩) ∧
    childProc u (.whole cut.all) = some (.get ⟨[97, 98], by decide⟩) := by
  decide +kernel

end SlabStudy.Dropbox
