import SlabStudy.Dropbox.PutExchange
import SlabStudy.Library.CString
import SlabStudy.Library.Pieces
import SlabStudy.Library.WriteAt

/-!
# The contents of a file on its way

Both sides read the whole of a file and send it; `recv_mes` of the client and
`server_put` collect what arrives in a block of memory, and `get_file` and
`put_file` write the string that stands there.
-/

namespace SlabStudy.Dropbox

open Library

def intMax : Nat := 2147483647

/-- `int size = ftell(fp)` at the end of a file. -/
def fileSize (length : Nat) : Int := Int.bmod length 4294967296

/-- What is in the buffer of this size; `none` where `malloc` of a negative size gives NULL, through
which `strcpy` writes. -/
def readFile (content : List UInt8) : Option (List UInt8) :=
  if fileSize content.length < 0 then none
  else some (content.take (fileSize content.length).toNat)

/-- What `send_put_data` of the client sends. -/
def sendPutData (content : List UInt8) : Option (List UInt8) := readFile content

/-- What `get` of the server sends. -/
def get (version : Nat) (content : List UInt8) : Option (List UInt8) :=
  (readFile content).map (intBytes version ++ ·)

/-- `strdup`. -/
def strdup (buf : List UInt8) : List UInt8 := cstring buf ++ [0]

/-- `realloc`, with what there is in the memory that comes in addition. -/
def realloc (memory : Nat → UInt8) (data : List UInt8) (size : Nat) : List UInt8 :=
  data.take size ++ (List.range' data.length (size - data.length)).map memory

/-- What `strncpy` of all of `buf` writes. -/
def strncpy (buf : List UInt8) : List UInt8 :=
  cstring buf ++ List.replicate (buf.length - (cstring buf).length) 0

/-- `data`, a block of memory or NULL, and `len`. -/
structure Received where
  data : Option (List UInt8)
  len : Nat
  deriving DecidableEq

/-- A round of the loop that collects the pieces; `none` where the size is no longer an `int`. -/
def Received.add (memory : Nat → Nat → UInt8) (s : Received) (buf : List UInt8) :
    Option Received :=
  match s.data with
  | none => some ⟨some (strdup buf), buf.length⟩
  | some data =>
      if s.len + buf.length + 1 ≤ intMax then
        let data := realloc (memory s.len) data (s.len + buf.length + 1)
        let data := splice data s.len (strncpy buf)
        some ⟨some (splice data (s.len + buf.length) [0]), s.len + buf.length⟩
      else none

def recvAll (memory : Nat → Nat → UInt8) (pieces : Pieces UInt8) : Option Received :=
  pieces.receive (bufSize - 1) (Received.add memory) ⟨none, 0⟩

/-- `recv_mes` of the client. -/
def recvMes (memory : Nat → Nat → UInt8) (pieces : Pieces UInt8) : Option (Option (List UInt8)) :=
  (recvAll memory pieces).map Received.data

/-- `get_file`: what it writes; `none` where `strlen` reads through NULL. -/
def getFile (data : Option (List UInt8)) : Option (List UInt8) := data.map cstring

/-- `put_file`. -/
def putFile (data : Option (List UInt8)) : Option (List UInt8) := data.map cstring

/-- `local_update` for one file: what it writes. -/
def localUpdate (memory : Nat → Nat → UInt8) (pieces : Pieces UInt8) : Option (List UInt8) :=
  (recvMes memory (pieces.recvFixed 4).2).bind getFile

/-- `server_put`: what it writes. -/
def serverPutData (memory : Nat → Nat → UInt8) (pieces : Pieces UInt8) : Option (List UInt8) :=
  (recvAll memory pieces).bind fun s => putFile s.data

/-- The file of the client after a `get`. -/
def gotFile (memory : Nat → Nat → UInt8) (cut : Segmentation UInt8) (version : Nat)
    (content : List UInt8) : Option (List UInt8) :=
  (get version content).bind fun sent => localUpdate memory (cut.split sent)

/-- The file of the server after a put. -/
def putFileAfter (memory : Nat → Nat → UInt8) (cut : Segmentation UInt8) (content : List UInt8) :
    Option (List UInt8) :=
  (sendPutData content).bind fun sent => serverPutData memory (cut.split sent)

/-! ## What is collected -/

variable {memory : Nat → Nat → UInt8} {buf done content sent : List UInt8} {s t : Received}

/-- The block holds the string that has been received, terminated, and is no longer than what has
been received with a NUL behind it. -/
inductive Collected : List UInt8 → Received → Prop where
  | nothing : Collected [] ⟨none, 0⟩
  | string {done rest} : done ≠ [] → (cstring done).length + rest.length ≤ done.length →
      Collected done ⟨some (cstring done ++ 0 :: rest), done.length⟩

theorem length_strncpy (buf : List UInt8) : (strncpy buf).length = buf.length := by
  have short := length_cstring_le buf
  rw [strncpy, List.length_append, List.length_replicate]
  omega

theorem strncpy_nul (buf : List UInt8) : strncpy buf ++ [0] =
    cstring buf ++ 0 :: List.replicate (buf.length - (cstring buf).length) 0 := by
  rw [strncpy, List.append_assoc, ← List.replicate_succ', List.replicate_succ]

/-- The block in which the next piece is collected: what was in it up to `len`, and the piece. -/
theorem exists_block {memory : Nat → UInt8} {data : List UInt8} {len : Nat}
    (fits : data.length ≤ len + 1) : ∃ more,
    splice (splice (realloc memory data (len + buf.length + 1)) len (strncpy buf))
      (len + buf.length) [0] = (data ++ more).take len ++ (strncpy buf ++ [0]) := by
  obtain ⟨more, same, size⟩ : ∃ more, realloc memory data (len + buf.length + 1) = data ++ more ∧
      (data ++ more).length = len + buf.length + 1 := by
    refine ⟨_, congrArg (· ++ _) (List.take_of_length_le (by omega)), ?_⟩
    rw [List.length_append, List.length_map, List.length_range']
    omega
  refine ⟨more, ?_⟩
  rw [same]
  have inside : len ≤ (data ++ more).length := by omega
  have pieces := splice_splice inside (strncpy buf) [0]
  rw [length_strncpy] at pieces
  rw [pieces, splice, List.length_append, length_strncpy, List.drop_of_length_le (by rw [size]; rfl),
    List.append_nil]

/-- The piece is collected behind what has been. -/
theorem Collected.add (collected : Collected done s) (some : buf ≠ [])
    (added : s.add memory buf = Option.some t) : Collected (done ++ buf) t := by
  have short := length_cstring_le buf
  cases collected with
  | nothing =>
      obtain rfl := Option.some.inj added
      exact @Collected.string buf [] some short
  | @string done rest full fits =>
      obtain ⟨-, added⟩ := Option.ite_none_right_eq_some.mp added
      obtain ⟨more, block⟩ := @exists_block buf (memory done.length)
        (cstring done ++ 0 :: rest) done.length (by
          rw [List.length_append, List.length_cons]
          omega)
      rw [block] at added
      obtain rfl := Option.some.inj added
      have both : (done ++ buf).length = done.length + buf.length := List.length_append
      suffices string : ∃ rest', (cstring done ++ 0 :: rest ++ more).take done.length ++
          (strncpy buf ++ [0]) = cstring (done ++ buf) ++ 0 :: rest' ∧
          (cstring (done ++ buf)).length + rest'.length ≤ (done ++ buf).length by
        obtain ⟨rest', same, fits'⟩ := string
        rw [same, ← both]
        exact .string (List.append_ne_nil_of_left_ne_nil full _) fits'
      rw [both]
      by_cases ended : 0 ∈ done
      · -- the string has ended before this piece
        have before := length_cstring_lt ended
        have whole : cstring done ++ 0 :: rest ++ more = (cstring done ++ [0]) ++ (rest ++ more) := by
          simp
        have front : (cstring done ++ [0]).length ≤ done.length := by
          rw [List.length_append]
          exact before
        refine ⟨(rest ++ more).take (done.length - (cstring done ++ [0]).length) ++
          (strncpy buf ++ [0]), ?_, ?_⟩
        · rw [whole, List.take_append, List.take_of_length_le front, cstring_append_of_mem ended]
          simp
        · have taken := List.length_take_le (done.length - (cstring done ++ [0]).length)
            (rest ++ more)
          simp only [List.length_append, List.length_singleton, length_strncpy] at taken front ⊢
          rw [cstring_append_of_mem ended]
          omega
      · rw [cstring_of_clean ended] at fits ⊢
        refine ⟨List.replicate (buf.length - (cstring buf).length) 0, ?_, ?_⟩
        · rw [List.append_assoc, List.take_left, strncpy_nul, cstring_append ended,
            List.append_assoc]
        · rw [cstring_append ended, List.length_append, List.length_replicate]
          omega

/-! ## When a file arrives -/

/-- A round does not fail as long as there is room, and takes no more of it than the piece. -/
theorem Received.exists_add (memory : Nat → Nat → UInt8) (s : Received) (buf : List UInt8)
    (room : s.len + buf.length < intMax) :
    ∃ t, s.add memory buf = some t ∧ t.len ≤ s.len + buf.length := by
  unfold add
  split
  · exact ⟨_, rfl, Nat.le_add_left ..⟩
  · exact ⟨_, if_pos room, Nat.le_refl _⟩

/-- What the loop leaves. -/
theorem recvAll_collected {pieces : Pieces UInt8} (ran : recvAll memory pieces = some s) :
    Collected pieces.all s ∧ pieces.all.length < intMax := by
  suffices collected : Collected ([] ++ pieces.all) s ∧ ([] ++ pieces.all).length < intMax from
    collected
  refine Pieces.receive_preserves (n := bufSize - 1)
    (P := fun done s => Collected done s ∧ done.length < intMax) (by decide)
    (fun {done s got next} before some short added => ?_) ⟨.nothing, by decide⟩ ran
  refine ⟨before.1.add some added, ?_⟩
  have few : bufSize - 1 < intMax := by decide
  rw [List.length_append]
  cases before.1 with
  | nothing =>
      rw [List.length_nil]
      omega
  | string =>
      obtain ⟨small, -⟩ := Option.ite_none_right_eq_some.mp added
      exact small

/-- The loop comes to its end for what is short enough. -/
theorem exists_recvAll {pieces : Pieces UInt8} (small : pieces.all.length < intMax) :
    ∃ s, recvAll memory pieces = some s := by
  refine Pieces.exists_receive (Q := fun left s => s.len + left.length < intMax)
    (fun {left s got} room _ => ?_) (by rw [Nat.zero_add]; exact small)
  rw [List.length_append] at room
  obtain ⟨t, added, took⟩ := s.exists_add memory got (by omega)
  exact ⟨t, added, by omega⟩

/-- What is written of the string that has been received. -/
theorem Collected.written (collected : Collected done s) :
    s.data.map cstring = if done = [] then none else some (cstring done) := by
  cases collected with
  | nothing => rfl
  | string full =>
      rw [if_neg full, Option.map_some, cstring_nul nul_notMem_cstring]

/-- What the receivers write of what is sent. -/
theorem written_iff {pieces : Pieces UInt8} {file : List UInt8} :
    ((recvAll memory pieces).bind fun s => s.data.map cstring) = some file ↔
      pieces.all ≠ [] ∧ pieces.all.length < intMax ∧ cstring pieces.all = file := by
  constructor
  · intro written
    obtain ⟨s, ran, written⟩ := Option.bind_eq_some_iff.mp written
    obtain ⟨collected, small⟩ := recvAll_collected ran
    rw [collected.written] at written
    obtain ⟨some, written⟩ := Option.ite_none_left_eq_some.mp written
    exact ⟨some, small, Option.some.inj written⟩
  · rintro ⟨some, small, rfl⟩
    obtain ⟨s, ran⟩ := @exists_recvAll memory pieces small
    rw [ran, Option.bind_some, (recvAll_collected ran).1.written, if_neg some]

theorem readFile_take (read : readFile content = some sent) : ∃ k, sent = content.take k := by
  unfold readFile at read
  obtain ⟨_, read⟩ := Option.ite_none_left_eq_some.mp read
  exact ⟨_, (Option.some.inj read).symm⟩

theorem fileSize_small {length : Nat} (small : length ≤ intMax) : fileSize length = length := by
  unfold intMax at small
  apply Int.bmod_eq_of_le <;> omega

theorem readFile_small (small : content.length ≤ intMax) : readFile content = some content := by
  rw [readFile, fileSize_small small, if_neg (by omega), Int.toNat_natCast, List.take_length]

/-- The file of the client is the string that the server has sent. -/
theorem gotFile_iff {cut : Segmentation UInt8} {version : Nat} {file : List UInt8} :
    gotFile memory cut version content = some file ↔ ∃ sent, readFile content = some sent ∧
      sent ≠ [] ∧ sent.length < intMax ∧ cstring sent = file := by
  rw [gotFile, get, Option.bind_map, Option.bind_eq_some_iff]
  refine exists_congr fun sent => and_congr_right fun _ => ?_
  have arrived := @written_iff memory ((cut.split (intBytes version ++ sent)).recvFixed 4).2 file
  rw [(Pieces.recvFixed_eq _ 4).2, cut.all_split, List.drop_left' (intBytes_length version)]
    at arrived
  rw [← arrived, Function.comp_apply, localUpdate, recvMes, Option.bind_map]
  rfl

/-- The file of the server is the string that the client has sent. -/
theorem putFileAfter_iff {cut : Segmentation UInt8} {file : List UInt8} :
    putFileAfter memory cut content = some file ↔ ∃ sent, readFile content = some sent ∧
      sent ≠ [] ∧ sent.length < intMax ∧ cstring sent = file := by
  rw [putFileAfter, sendPutData, Option.bind_eq_some_iff]
  refine exists_congr fun sent => and_congr_right fun _ => ?_
  have arrived := @written_iff memory (cut.split sent) file
  rw [cut.all_split] at arrived
  exact arrived

/-- The files that arrive as they are. -/
def Transferable (content : List UInt8) : Prop :=
  content ≠ [] ∧ content.length < intMax ∧ 0 ∉ content

/-- A file of which a string is written that has been sent. -/
theorem transferable_iff : (∃ sent, readFile content = some sent ∧
      sent ≠ [] ∧ sent.length < intMax ∧ cstring sent = content) ↔ Transferable content := by
  constructor
  · rintro ⟨sent, read, some, small, same⟩
    obtain ⟨k, rfl⟩ := readFile_take read
    have all : content.take k = content := by
      apply List.take_of_length_le
      have short := length_cstring_le (content.take k)
      rw [same, List.length_take] at short
      omega
    rw [all] at some small same
    exact ⟨some, small, same ▸ nul_notMem_cstring⟩
  · rintro ⟨some, small, clean⟩
    exact ⟨content, readFile_small (Nat.le_of_lt small), some, small, cstring_of_clean clean⟩

/-- However the streams are cut, a file arrives as it is in either direction exactly where it is not
empty, has no NUL in it and is short enough. -/
theorem transfer_iff (memory : Nat → Nat → UInt8) (cut : Segmentation UInt8) (version : Nat)
    (content : List UInt8) :
    (gotFile memory cut version content = some content ↔ Transferable content) ∧
    (putFileAfter memory cut content = some content ↔ Transferable content) :=
  ⟨gotFile_iff.trans transferable_iff, putFileAfter_iff.trans transferable_iff⟩

/-- Of a file with `a`, NUL and `b` only the `a` arrives, and an empty one does not arrive. -/
theorem nul_ends_file :
    gotFile (fun _ _ => 0) (.whole UInt8) 0 [97, 0, 98] = some [97] ∧
    putFileAfter (fun _ _ => 0) (.whole UInt8) [97, 0, 98] = some [97] ∧
    putFileAfter (fun _ _ => 0) (.whole UInt8) [] ≠ some [] := by
  have read : readFile [97, 0, 98] = some [97, 0, 98] := readFile_small (by decide)
  refine ⟨gotFile_iff.mpr ⟨_, read, by decide, by decide, rfl⟩,
    putFileAfter_iff.mpr ⟨_, read, by decide, by decide, rfl⟩, fun arrives => ?_⟩
  exact (transferable_iff.mp (putFileAfter_iff.mp arrives)).1 rfl

end SlabStudy.Dropbox
