import SlabStudy.Library.Runs

/-!
# The put exchange of the dropbox

`inotify_send` of the client against `child_proc` of the server.  The connection
is a reliable byte stream in each direction; a `send` takes and a `recv` returns
any number of bytes from one to what is asked for, so a label carries that number.
-/

namespace SlabStudy.Dropbox

open Library

/-- One direction of the connection. -/
structure Stream where
  bytes : List UInt8
  closed : Bool
  deriving DecidableEq

namespace Stream

def send (s : Stream) (data : List UInt8) : Stream := { s with bytes := s.bytes ++ data }

/-- `shutdown(fd, SHUT_WR)` at the writing end. -/
def shutdown (s : Stream) : Stream := { s with closed := true }

/-- `recv` of at most `len` bytes that returns `k` of them; `none` while it blocks. -/
def recv (s : Stream) (len k : Nat) : Option (List UInt8 × Stream) :=
  if len = 0 then some ([], s)
  else if s.bytes = [] then if s.closed then some ([], s) else none
  else if 0 < k ∧ k ≤ len ∧ k ≤ s.bytes.length then
    some (s.bytes.take k, { s with bytes := s.bytes.drop k })
  else none

end Stream

/-- The four bytes of an `int`. -/
def intBytes (n : Nat) : List UInt8 :=
  [n, n / 256, n / 65536, n / 16777216].map UInt8.ofNat

/-- The `int` whose first bytes are received, and whose other bytes are as they were. -/
def intOf (received before : List UInt8) : Nat :=
  ((received ++ before.drop received.length).take 4).foldr (fun byte n => byte.toNat + 256 * n) 0

inductive ClientPc where
  /-- In `put_send`, with these messages still to be sent. -/
  | sending (messages : List (List UInt8))
  /-- In `recv_fixed_len`, with these bytes of the version. -/
  | receiving (version : List UInt8)
  | closing (version : List UInt8)
  | done (version : List UInt8)
  deriving DecidableEq

inductive ServerPc where
  | command
  | getLength
  | getName (len : Nat)
  | putLength
  | putName (len : Nat)
  /-- In the loop of `server_put`, with what it has received. -/
  | putting (name data : List UInt8)
  /-- In `send_mes`, with these bytes left. -/
  | replying (rest : List UInt8)
  | closing
  | done
  deriving DecidableEq

/-- What the rest of the server program contributes to an exchange. -/
structure ServerData where
  /-- An `int` on the stack before it is received into. -/
  garbage : List UInt8
  metadata : List UInt8
  /-- What `get` sends; `none` where it exits. -/
  get : List UInt8 → Option (List UInt8)
  version : List UInt8 → List UInt8

structure Exchange where
  client : ClientPc
  server : ServerPc
  toServer : Stream
  toClient : Stream
  deriving DecidableEq

inductive Side where
  | client
  | server
  deriving DecidableEq

/-- `char buf[1024]` of `child_proc`. -/
abbrev bufSize : Nat := 1024

/-- The messages of `put_send`. -/
def putMessages (name content : List UInt8) : List (List UInt8) :=
  [intBytes 3, intBytes (name.length + 1), name ++ [0], content]

namespace Exchange

def clientStep (s : Exchange) (k : Nat) : Option Exchange :=
  match s.client with
  | .sending [] => some { s with client := .receiving [] }
  | .sending ([] :: rest) => some { s with client := .sending rest }
  | .sending (message :: rest) =>
      if 0 < k ∧ k ≤ message.length then
        some { s with
          client := .sending (message.drop k :: rest)
          toServer := s.toServer.send (message.take k) }
      else none
  | .receiving version =>
      if version.length < 4 then
        match s.toClient.recv (4 - version.length) k with
        | none => none
        | some ([], toClient) => some { s with client := .closing version, toClient := toClient }
        | some (bytes, toClient) =>
            some { s with client := .receiving (version ++ bytes), toClient := toClient }
      else some { s with client := .closing version }
  | .closing version => some { s with client := .done version, toServer := s.toServer.shutdown }
  | .done _ => none

/-- The step of `child_proc`; a `recv` that would overflow `buf` is not taken. -/
def serverStep (data : ServerData) (s : Exchange) (k : Nat) : Option Exchange :=
  match s.server with
  | .command => (s.toServer.recv 4 k).map fun (bytes, toServer) =>
      let server : ServerPc := match intOf bytes data.garbage with
        | 1 => .replying data.metadata
        | 2 => .getLength
        | 3 => .putLength
        | _ => .closing
      { s with server := server, toServer := toServer }
  | .getLength => (s.toServer.recv 4 k).map fun (bytes, toServer) =>
      { s with server := .getName (intOf bytes data.garbage), toServer := toServer }
  | .getName len =>
      if k ≤ bufSize then
        (s.toServer.recv len k).map fun (name, toServer) =>
          match data.get name with
          | some file => { s with server := .replying file, toServer := toServer }
          | none => { s with server := .closing, toServer := toServer }
      else none
  | .putLength => (s.toServer.recv 4 k).map fun (bytes, toServer) =>
      { s with server := .putName (intOf bytes data.garbage), toServer := toServer }
  | .putName len =>
      if k ≤ bufSize then
        (s.toServer.recv len k).map fun (name, toServer) =>
          { s with server := .putting name [], toServer := toServer }
      else none
  | .putting name received =>
      match s.toServer.recv (bufSize - 1) k with
      | none => none
      | some ([], toServer) =>
          some { s with server := .replying (data.version name), toServer := toServer }
      | some (bytes, toServer) =>
          some { s with server := .putting name (received ++ bytes), toServer := toServer }
  | .replying [] => some { s with server := .closing }
  | .replying rest =>
      if 0 < k ∧ k ≤ rest.length then
        some { s with
          server := .replying (rest.drop k)
          toClient := s.toClient.send (rest.take k) }
      else none
  | .closing => some { s with server := .done, toClient := s.toClient.shutdown }
  | .done => none

def step (data : ServerData) (s : Exchange) : Side × Nat → Option Exchange
  | (.client, k) => s.clientStep k
  | (.server, k) => s.serverStep data k

/-- The connection has just been accepted. -/
def start (name content : List UInt8) : Exchange :=
  ⟨.sending (putMessages name content), .command, ⟨[], false⟩, ⟨[], false⟩⟩

def ClientReceives (s : Exchange) : Prop :=
  ∃ version, s.client = .receiving version ∧ version.length < 4

def ServerReceives (s : Exchange) : Prop :=
  match s.server with
  | .command | .getLength | .putLength | .putting _ _ => True
  | .getName len | .putName len => 0 < len
  | _ => False

/-- Both sides are in `recv`, and there is nothing to come. -/
def Deadlock (s : Exchange) : Prop :=
  s.ClientReceives ∧ s.ServerReceives ∧ s.toServer = ⟨[], false⟩ ∧ s.toClient = ⟨[], false⟩

end Exchange

/-- The exchange in which a file is put. -/
def putExchange (data : ServerData) (name content : List UInt8) : System Exchange (Side × Nat) where
  initial s := s = .start name content
  step s label t := s.step data label = some t

/-! ## The exchange gets stuck -/

section Stuck

variable {data : ServerData} {name content : List UInt8} {s t : Exchange}

namespace Stream

theorem recv_closed {s t : Stream} {len k : Nat} {bytes : List UInt8}
    (got : s.recv len k = some (bytes, t)) : t.closed = s.closed := by
  unfold recv at got
  split at got
  · cases got
    rfl
  · split at got
    · obtain ⟨_, got⟩ := Option.ite_none_right_eq_some.mp got
      cases got
      rfl
    · obtain ⟨_, got⟩ := Option.ite_none_right_eq_some.mp got
      cases got
      rfl

/-- From an open stream `recv` does not return an end. -/
theorem recv_some {s t : Stream} {len k : Nat} {bytes : List UInt8} (unmarked : s.closed = false)
    (positive : 0 < len) (got : s.recv len k = some (bytes, t)) : bytes ≠ [] := by
  unfold recv at got
  rw [if_neg (Nat.ne_of_gt positive)] at got
  split at got
  · rw [unmarked] at got
    cases got
  · next full =>
    obtain ⟨⟨some, _⟩, got⟩ := Option.ite_none_right_eq_some.mp got
    cases got
    exact fun none => (List.take_eq_nil_iff.mp none).elim (Nat.ne_of_gt some) full

theorem recv_all {rest : List UInt8} {len : Nat} (bytes : List UInt8) (closed : Bool) (some : bytes ≠ [])
    (fits : bytes.length ≤ len) :
    recv ⟨bytes ++ rest, closed⟩ len bytes.length = Option.some (bytes, ⟨rest, closed⟩) := by
  have positive : 0 < bytes.length := List.length_pos_iff.mpr some
  unfold recv
  rw [if_neg (by omega), if_neg fun none => some (List.append_eq_nil_iff.mp none).1,
    if_pos ⟨positive, fits, by simp⟩]
  simp

end Stream

/-- From a deadlock there is no step. -/
theorem Exchange.Deadlock.stuck (deadlock : s.Deadlock) (label : Side × Nat) :
    s.step data label = none := by
  obtain ⟨⟨version, client, short⟩, server, toServer, toClient⟩ := deadlock
  obtain ⟨side, k⟩ := label
  have blocked : ∀ len, 0 < len → Stream.recv ⟨[], false⟩ len k = none := fun len positive => by
    simp [Stream.recv, Nat.ne_of_gt positive]
  cases side with
  | client =>
    show s.clientStep k = none
    rw [Exchange.clientStep, client]
    simp only [if_pos short, toClient, blocked (4 - version.length) (by omega)]
  | server =>
    show s.serverStep data k = none
    unfold Exchange.ServerReceives at server
    unfold Exchange.serverStep
    rw [toServer]
    cases place : s.server with
    | command => simp only [blocked 4 (by decide), Option.map_none]
    | getLength => simp only [blocked 4 (by decide), Option.map_none]
    | putLength => simp only [blocked 4 (by decide), Option.map_none]
    | getName len =>
      rw [place] at server
      simp only [blocked len server, Option.map_none, ite_self]
    | putName len =>
      rw [place] at server
      simp only [blocked len server, Option.map_none, ite_self]
    | putting name received => simp only [blocked (bufSize - 1) (by decide)]
    | replying _ | closing | done => simp only [place] at server

/-- The client can send everything it has. -/
theorem client_sends {messages : List (List UInt8)} (reached : (putExchange data name content).Reachable s)
    (sends : s.client = .sending messages) : (putExchange data name content).Reachable
      { s with client := .receiving [], toServer := s.toServer.send messages.flatten } := by
  induction messages generalizing s with
  | nil =>
    have ends : (putExchange data name content).step s (.client, 0)
        { s with client := .receiving [], toServer := s.toServer.send [] } := by
      simp [putExchange, Exchange.step, Exchange.clientStep, sends, Stream.send]
    exact reached.step ends
  | cons message rest ih =>
    cases message with
    | nil =>
      have skips : (putExchange data name content).step s (.client, 0)
          { s with client := .sending rest } := by
        simp [putExchange, Exchange.step, Exchange.clientStep, sends]
      exact ih (s := { s with client := .sending rest }) (reached.step skips) rfl
    | cons byte bytes =>
      have sent : (putExchange data name content).step s (.client, bytes.length + 1)
          { s with client := .sending ([] :: rest), toServer := s.toServer.send (byte :: bytes) } := by
        simp [putExchange, Exchange.step, Exchange.clientStep, sends]
      have ends : (putExchange data name content).step
          { s with client := .sending ([] :: rest), toServer := s.toServer.send (byte :: bytes) }
          (.client, 0)
          { s with client := .sending rest, toServer := s.toServer.send (byte :: bytes) } := rfl
      have done := ih (s := { s with
        client := .sending rest, toServer := s.toServer.send (byte :: bytes) })
        ((reached.step sent).step ends) rfl
      simpa [Stream.send] using done

/-- `server_put` can receive everything that has been sent. -/
theorem server_receives {bytes received file : List UInt8}
    (reached : (putExchange data name content).Reachable s)
    (puts : s.server = .putting file received) (sent : s.toServer = ⟨bytes, false⟩) :
    ∃ all, (putExchange data name content).Reachable
      { s with server := .putting file all, toServer := ⟨[], false⟩ } := by
  induction bytes generalizing s received with
  | nil =>
    refine ⟨received, ?_⟩
    rw [← puts, ← sent]
    exact reached
  | cons byte bytes ih =>
    have takes : (putExchange data name content).step s (.server, 1)
        { s with server := .putting file (received ++ [byte]), toServer := ⟨bytes, false⟩ } := by
      simp [putExchange, Exchange.step, Exchange.serverStep, puts, sent, Stream.recv]
    exact ih (s := { s with
      server := .putting file (received ++ [byte]), toServer := ⟨bytes, false⟩ })
      (reached.step takes) rfl rfl

theorem intBytes_length (n : Nat) : (intBytes n).length = 4 := rfl

theorem recv_int (n : Nat) (left : List UInt8) :
    Stream.recv ⟨intBytes n ++ left, false⟩ 4 4 = some (intBytes n, ⟨left, false⟩) :=
  Stream.recv_all (intBytes n) false (by simp [intBytes]) (Nat.le_refl 4)

theorem intOf_intBytes_three (garbage : List UInt8) : intOf (intBytes 3) garbage = 3 := by
  unfold intOf
  rw [List.take_left' (intBytes_length 3)]
  rfl

/-- The server takes the three messages in front of the content. -/
theorem server_puts {byte : UInt8} {left : List UInt8}
    (reached : (putExchange data name content).Reachable s)
    (waits : s.server = .command)
    (sent : s.toServer = ⟨intBytes 3 ++ (intBytes (name.length + 1) ++ (byte :: left)), false⟩) :
    ∃ file rest, (putExchange data name content).Reachable
      { s with server := .putting file [], toServer := ⟨rest, false⟩ } := by
  let len := intOf (intBytes (name.length + 1)) data.garbage
  have put : (putExchange data name content).step s (.server, 4)
      { s with server := .putLength, toServer := ⟨intBytes (name.length + 1) ++ (byte :: left), false⟩ } := by
    simp [putExchange, Exchange.step, Exchange.serverStep, waits, sent, recv_int,
      intOf_intBytes_three]
  have named : (putExchange data name content).step
      { s with server := .putLength, toServer := ⟨intBytes (name.length + 1) ++ (byte :: left), false⟩ }
      (.server, 4) { s with server := .putName len, toServer := ⟨byte :: left, false⟩ } := by
    simp [putExchange, Exchange.step, Exchange.serverStep, recv_int, len]
  have reached := (reached.step put).step named
  by_cases none : len = 0
  · have takes : (putExchange data name content).step
        { s with server := .putName len, toServer := ⟨byte :: left, false⟩ } (.server, 1)
        { s with server := .putting [] [], toServer := ⟨byte :: left, false⟩ } := by
      simp [putExchange, Exchange.step, Exchange.serverStep, Stream.recv, none]
    exact ⟨[], byte :: left, reached.step takes⟩
  · have room : 1 ≤ len := Nat.pos_of_ne_zero none
    have takes : (putExchange data name content).step
        { s with server := .putName len, toServer := ⟨byte :: left, false⟩ } (.server, 1)
        { s with server := .putting [byte] [], toServer := ⟨left, false⟩ } := by
      simp [putExchange, Exchange.step, Exchange.serverStep, Stream.recv, none, room]
    exact ⟨[byte], left, reached.step takes⟩

/--
For every file there is a run in which the client waits for the version, and
the server for the end of the stream, which the client only marks afterwards.
-/
theorem put_reaches_deadlock (data : ServerData) (name content : List UInt8) :
    ∃ s, (putExchange data name content).Reachable s ∧ s.Deadlock := by
  have begun : (putExchange data name content).Reachable (.start name content) := .start rfl
  have reached := client_sends begun rfl
  obtain ⟨byte, left, first⟩ : ∃ byte left, name ++ 0 :: content = byte :: left :=
    List.exists_cons_of_ne_nil (by simp)
  have sent : (Exchange.start name content).toServer.send (putMessages name content).flatten =
      ⟨intBytes 3 ++ (intBytes (name.length + 1) ++ (byte :: left)), false⟩ := by
    simp [Exchange.start, putMessages, Stream.send, ← first]
  obtain ⟨file, rest, puts⟩ := server_puts reached rfl sent
  obtain ⟨all, stuck⟩ := server_receives puts rfl rfl
  exact ⟨_, stuck, ⟨[], rfl, by decide⟩, trivial, rfl, rfl⟩

/-! ## No put ends once the server has taken the command -/

/-- The server is in the part of `child_proc` that puts a file. -/
def ServerPc.puts : ServerPc → Prop
  | .putLength | .putName _ | .putting _ _ => True
  | _ => False

/-- Nobody has marked the end of a stream, and the client has not got a version. -/
structure Exchange.Waits (s : Exchange) : Prop where
  client : s.client = .receiving [] ∨ ∃ messages, s.client = .sending messages
  toServer : s.toServer.closed = false
  toClient : s.toClient = ⟨[], false⟩

theorem Exchange.Waits.client_step (waits : s.Waits) {k : Nat} (ran : s.clientStep k = some t) :
    t.Waits := by
  obtain ⟨client | ⟨messages, client⟩, toServer, toClient⟩ := waits
  · -- there is nothing to receive, and the stream is open
    simp [Exchange.clientStep, client, toClient, Stream.recv] at ran
  · match messages with
    | [] =>
      simp only [Exchange.clientStep, client] at ran
      cases ran
      exact ⟨.inl rfl, toServer, toClient⟩
    | [] :: rest =>
      simp only [Exchange.clientStep, client] at ran
      cases ran
      exact ⟨.inr ⟨_, rfl⟩, toServer, toClient⟩
    | (byte :: bytes) :: rest =>
      simp only [Exchange.clientStep, client] at ran
      obtain ⟨_, ran⟩ := Option.ite_none_right_eq_some.mp ran
      cases ran
      exact ⟨.inr ⟨_, rfl⟩, toServer, toClient⟩

theorem Exchange.Waits.server_step (waits : s.Waits) {k : Nat}
    (here : s.server = .command ∨ s.server.puts) (ran : s.serverStep data k = some t) :
    t.Waits ∧ (s.server.puts → t.server.puts) := by
  obtain ⟨client, toServer, toClient⟩ := waits
  unfold Exchange.serverStep at ran
  cases place : s.server with
  | command =>
      rw [place] at ran
      obtain ⟨⟨bytes, left⟩, got, ran⟩ := Option.map_eq_some_iff.mp ran
      cases ran
      exact ⟨⟨client, (Stream.recv_closed got).trans toServer, toClient⟩, False.elim⟩
  | putLength =>
      rw [place] at ran
      obtain ⟨⟨bytes, left⟩, got, ran⟩ := Option.map_eq_some_iff.mp ran
      cases ran
      exact ⟨⟨client, (Stream.recv_closed got).trans toServer, toClient⟩, fun _ => trivial⟩
  | putName len =>
      rw [place] at ran
      obtain ⟨_, ran⟩ := Option.ite_none_right_eq_some.mp ran
      obtain ⟨⟨bytes, left⟩, got, ran⟩ := Option.map_eq_some_iff.mp ran
      cases ran
      exact ⟨⟨client, (Stream.recv_closed got).trans toServer, toClient⟩, fun _ => trivial⟩
  | putting name received =>
      rw [place] at ran
      dsimp only at ran
      cases got : s.toServer.recv (bufSize - 1) k with
      | none =>
          rw [got] at ran
          cases ran
      | some result =>
          obtain ⟨bytes, left⟩ := result
          rw [got] at ran
          cases bytes with
          | nil => exact absurd rfl (Stream.recv_some toServer (by decide) got)
          | cons byte bytes =>
              cases ran
              exact ⟨⟨client, (Stream.recv_closed got).trans toServer, toClient⟩, fun _ => trivial⟩
  | getLength | getName | replying | closing | done =>
      rw [place] at here
      exact here.elim nofun False.elim

theorem Exchange.clientStep_server {k : Nat} (ran : s.clientStep k = some t) :
    t.server = s.server := by
  unfold Exchange.clientStep at ran
  split at ran
  · cases ran
    rfl
  · cases ran
    rfl
  · obtain ⟨_, ran⟩ := Option.ite_none_right_eq_some.mp ran
    cases ran
    rfl
  · split at ran
    · split at ran
      · cases ran
      · cases ran
        rfl
      · cases ran
        rfl
    · cases ran
      rfl
  · cases ran
    rfl
  · cases ran

/-- A put is entered from the command only. -/
theorem Exchange.serverStep_puts {k : Nat} (ran : s.serverStep data k = some t)
    (after : t.server = .command ∨ t.server.puts) : s.server = .command ∨ s.server.puts := by
  unfold Exchange.serverStep at ran
  cases place : s.server with
  | command => exact .inl rfl
  | putLength | putName | putting => exact .inr trivial
  | getLength =>
      rw [place] at ran
      obtain ⟨_, _, ran⟩ := Option.map_eq_some_iff.mp ran
      cases ran
      exact after.elim nofun False.elim
  | getName len =>
      rw [place] at ran
      obtain ⟨_, ran⟩ := Option.ite_none_right_eq_some.mp ran
      obtain ⟨⟨name, left⟩, _, ran⟩ := Option.map_eq_some_iff.mp ran
      dsimp only at ran
      split at ran
      · cases ran
        exact after.elim nofun False.elim
      · cases ran
        exact after.elim nofun False.elim
  | replying rest =>
      rw [place] at ran
      cases rest with
      | nil =>
          cases ran
          exact after.elim nofun False.elim
      | cons byte rest =>
          obtain ⟨_, ran⟩ := Option.ite_none_right_eq_some.mp ran
          cases ran
          exact after.elim nofun False.elim
  | closing =>
      rw [place] at ran
      cases ran
      exact after.elim nofun False.elim
  | done =>
      rw [place] at ran
      cases ran

/-- Up to the put the client is still sending, or it waits for an answer. -/
theorem waits_before_put (reached : (putExchange data name content).Reachable s)
    (here : s.server = .command ∨ s.server.puts) : s.Waits := by
  obtain ⟨first, labels, rfl, run⟩ := reached
  refine run.preserves (P := fun s => s.server = .command ∨ s.server.puts → s.Waits)
    (fun {s label t} waits ran here => ?_) (fun _ => ⟨.inr ⟨_, rfl⟩, rfl, rfl⟩) here
  obtain ⟨side, k⟩ := label
  cases side with
  | client =>
    rw [Exchange.clientStep_server ran] at here
    exact (waits here).client_step ran
  | server =>
    have before := Exchange.serverStep_puts ran here
    exact ((waits before).server_step before ran).1

/-- Once the server puts a file, neither side gets to its end. -/
theorem put_never_ends (reached : (putExchange data name content).Reachable s)
    (puts : s.server.puts) {labels : List (Side × Nat)}
    (run : (putExchange data name content).Run s labels t) : t.server.puts ∧ t.Waits := by
  refine run.preserves (P := fun s => s.server.puts ∧ s.Waits) (fun {s label t} both ran => ?_)
    ⟨puts, waits_before_put reached (.inr puts)⟩
  obtain ⟨puts, waits⟩ := both
  obtain ⟨side, k⟩ := label
  cases side with
  | client => exact ⟨(Exchange.clientStep_server ran).symm ▸ puts, waits.client_step ran⟩
  | server =>
    obtain ⟨after, kept⟩ := waits.server_step (.inr puts) ran
    exact ⟨kept puts, after⟩

/--
There is no file whose exchange cannot deadlock; and once the server puts the
file, neither side gets to its end.
-/
theorem put_deadlocks (data : ServerData) (name content : List UInt8) :
    (¬ ∀ s, (putExchange data name content).Reachable s → ¬ s.Deadlock) ∧
    ∀ s labels t, (putExchange data name content).Reachable s → s.server.puts →
      (putExchange data name content).Run s labels t → t.server.puts ∧ t.Waits := by
  refine ⟨fun safe => ?_, fun s labels t reached puts run => put_never_ends reached puts run⟩
  obtain ⟨s, reached, stuck⟩ := put_reaches_deadlock data name content
  exact safe s reached stuck

end Stuck

/-- A server that stores nothing but versions. -/
def sampleServer : ServerData := ⟨intBytes 0, intBytes 0, fun _ => none, fun _ => intBytes 0⟩

/-- The exchange of a file `a` with two bytes. -/
theorem small_put_deadlocks :
    ¬ ∀ s, (putExchange sampleServer [97] [104, 105]).Reachable s → ¬ s.Deadlock := by
  intro safe
  let labels : List (Side × Nat) := [(.client, 4), (.client, 0), (.client, 4), (.client, 0),
    (.client, 2), (.client, 0), (.client, 2), (.client, 0), (.client, 0),
    (.server, 4), (.server, 4), (.server, 2), (.server, 2)]
  have ran : labels.foldlM (Exchange.step sampleServer) (.start [97] [104, 105]) =
      some ⟨.receiving [], .putting [97, 0] [104, 105], ⟨[], false⟩, ⟨[], false⟩⟩ := by
    decide +kernel
  have run : (putExchange sampleServer [97] [104, 105]).Run _ labels _ :=
    System.Run.of_fold (fun _ _ _ ran => ran) ran
  exact safe _ ⟨_, _, rfl, run⟩ ⟨⟨[], rfl, by decide⟩, trivial, rfl, rfl⟩

end SlabStudy.Dropbox
