import SlabStudy.Dropbox.PutExchange
import SlabStudy.Dropbox.Versions
import SlabStudy.Library.WriteAt

/-!
# Batches of inotify events

`inotify` of the client gathers the names of a batch in `local_modify`, and
then finds each in the metadata list and puts the file.  While `inotify_send`
is at work, the client is one side of an exchange with the server.
-/

namespace SlabStudy.Dropbox

open Library

/-- `regular_file_check`; before an empty name stands the last byte of its length, which is 0. -/
def regularFileCheck (name : CString) : Bool :=
  name.1.head? ≠ some 46 && name.1 ≠ [52, 57, 49, 51] && name.1.getLast? ≠ some 126

/-- What is read of a `struct inotify_event`. -/
structure Event where
  name : CString
  mask : UInt32
  deriving DecidableEq

/-- `IN_MODIFY` and `IN_CREATE`. -/
abbrev inModify : UInt32 := 0x2
abbrev inCreate : UInt32 := 0x100

def Event.changes (event : Event) : Bool :=
  regularFileCheck event.name && (event.mask &&& inCreate ≠ 0 || event.mask &&& inModify ≠ 0)

/-- `add_local_modify`.  There is room for one name in `local_modify`; what a second one overwrites
is left out. -/
def addLocalModify (localModify : List CString) (name : CString) (len : Nat) :
    List CString × Nat :=
  if name ∈ localModify.take len then (localModify, len)
  else (writeAt localModify len name, len + 1)

/-- What surrounds the client: the server in each exchange, the files of the directory, and the
bytes of `version` before it is received. -/
structure Surroundings where
  server : Nat → ServerData
  files : CString → Option (List UInt8)
  garbage : Nat → List UInt8

inductive InotifyPc where
  /-- In the loop over the buffer, with these events left. -/
  | gathering (events : List Event)
  /-- At the loop over `j`. -/
  | looping (j : Nat)
  /-- In the loop of `list_find`. -/
  | finding (j : Nat) (name : CString)
  /-- In `inotify_send`, or in `child_proc` on the other side. -/
  | sending (j : Nat) (name : CString) (exchange : Exchange)
  | exited
  /-- In `read`, for the next batch. -/
  | reading
  deriving DecidableEq

/-- The client in `inotify`, with the names it has passed to `inotify_send` in this batch. -/
structure Watcher where
  client : Client
  localModify : List CString
  localChangeN : Nat
  prev : Nat
  pc : InotifyPc
  sent : List CString
  deriving DecidableEq

/-- The `int` that is in `version` when these bytes of it have been received. -/
def receivedVersion (bytes garbage : List UInt8) : Int := (BitVec.ofNat 32 (intOf bytes garbage)).toInt

/-- A connection for `put_send`, which sends three messages before it opens the file. -/
def Exchange.connected (name : CString) : Option (List UInt8) → Exchange
  | some content => .start name.1 content
  | none => { Exchange.start name.1 [] with client := .sending ((putMessages name.1 []).take 3) }

namespace Watcher

variable (around : Surroundings)

def event (w : Watcher) (event : Event) : Watcher :=
  if event.changes then
    let added := addLocalModify w.localModify event.name w.localChangeN
    { w with localModify := added.1, localChangeN := added.2 }
  else w

/-- The call of `inotify_send`, with `local_modify[i]`; `i` is 0. -/
def send (w : Watcher) (j : Nat) : Option Watcher := do
  let name ← w.localModify[0]?
  some { w with
    pc := .sending j name (.connected name (around.files name))
    sent := w.sent ++ [name] }

/-- The end of the batch. -/
def finish (w : Watcher) : Watcher := { w with prev := w.localChangeN, pc := .reading }

/-- A step of `inotify` itself. -/
def ownStep (w : Watcher) : Option Watcher :=
  match w.pc with
  | .gathering (event :: events) => some { w.event event with pc := .gathering events }
  | .gathering [] =>
      if w.prev < w.localChangeN then some { w with pc := .looping 0 } else some w.finish
  | .looping j =>
      if j < w.localChangeN then
        w.localModify[j]?.map fun name => { w with pc := .finding j name }
      else some w.finish
  | .finding j name =>
      match w.client.list.head? with
      | none => { w with client := w.client.newList name 0 }.send around j
      -- `c` is not moved on
      | some first => if first.name = name then w.send around j else some w
  | .sending j name exchange =>
      match exchange.client with
      | .sending [] => if around.files name = none then some { w with pc := .exited } else none
      | .done bytes => some { w with
          client := { w.client with
            list := updateVersion w.client.list name (receivedVersion bytes (around.garbage j)) }
          localChangeN := 0
          pc := .looping (j + 1) }
      | _ => none
  | .exited => none
  | .reading => none

/-- A step of one side of the exchange; without its file the client does not receive. -/
def exchangeStep (w : Watcher) (label : Side × Nat) : Option Watcher :=
  match w.pc with
  | .sending j name exchange =>
      if label.1 = .client ∧ exchange.client = .sending [] ∧ around.files name = none then none
      else (exchange.step (around.server j) label).map fun exchange =>
        { w with pc := .sending j name exchange }
  | _ => none

def step (w : Watcher) : Option (Side × Nat) → Option Watcher
  | none => w.ownStep around
  | some label => w.exchangeStep around label

/-- Between two batches the client has counted nothing. -/
def Idle (w : Watcher) : Prop := w.localChangeN = 0 ∧ w.prev = 0

end Watcher

/-- The processing of the events of one `read`. -/
def batchSystem (around : Surroundings) (w : Watcher) (events : List Event) :
    System Watcher (Option (Side × Nat)) where
  initial s := s = { w with pc := .gathering events, sent := [] }
  step s label t := s.step around label = some t

/-- The regular names that occur in a batch. -/
def regularNames (events : List Event) : List CString :=
  (events.filter Event.changes).map Event.name

/-- The batch comes to its end whatever the order of steps: there is a bound on its runs, and they
stop in the next `read` only.  Each regular name of the batch is in the list then and has been put
once, and no other has. -/
structure Uploaded (around : Surroundings) (w : Watcher) (events : List Event) : Prop where
  bounded : ∃ bound, ∀ s labels t, (batchSystem around w events).initial s →
    (batchSystem around w events).Run s labels t → labels.length ≤ bound
  ends : ∀ s, (batchSystem around w events).Reachable s → (∀ label, s.step around label = none) →
    s.pc = .reading
  listed : ∀ s, (batchSystem around w events).Reachable s → s.pc = .reading →
    ∀ name ∈ regularNames events, name ∈ s.client.list.map MetaData.name
  once : ∀ s, (batchSystem around w events).Reachable s → s.pc = .reading →
    ∀ name, s.sent.count name = if name ∈ regularNames events then 1 else 0

/-! ## What a batch does -/

variable {around : Surroundings} {w s t : Watcher} {events : List Event} {name : CString}

/-- The first regular name, if there has been one, is at the front of `local_modify`. -/
def Gathered : Option CString → Watcher → Prop
  | none, w => w.localChangeN = 0
  | some name, w => 0 < w.localChangeN ∧ w.localModify[0]? = some name

/-- A name that is added later leaves the one at the front. -/
theorem addLocalModify_front {localModify : List CString} {len : Nat} (some : 0 < len)
    (front : localModify[0]? = Option.some name) (other : CString) :
    0 < (addLocalModify localModify other len).2 ∧
      (addLocalModify localModify other len).1[0]? = Option.some name := by
  unfold addLocalModify
  split
  · exact ⟨some, front⟩
  · refine ⟨Nat.succ_pos _, ?_⟩
    obtain ⟨n, rfl⟩ := Nat.exists_eq_succ_of_ne_zero (Nat.ne_of_gt some)
    cases localModify with
    | nil => cases front
    | cons first rest => exact front

theorem Gathered.event {first : Option CString} (gathered : Gathered first w) (event : Event) :
    Gathered (first.or (if event.changes then some event.name else none)) (w.event event) := by
  unfold Watcher.event
  by_cases changes : event.changes
  · rw [if_pos changes, if_pos changes]
    cases first with
    | none =>
        have empty : w.localChangeN = 0 := gathered
        have added : addLocalModify w.localModify event.name 0 =
            (writeAt w.localModify 0 event.name, 1) := if_neg List.not_mem_nil
        rw [empty, added]
        exact ⟨Nat.one_pos, rfl⟩
    | some name => exact addLocalModify_front gathered.1 gathered.2 event.name
  · rw [if_neg changes, if_neg changes, Option.or_none]
    exact gathered

theorem event_sent (w : Watcher) (event : Event) : (w.event event).sent = w.sent := by
  unfold Watcher.event
  split
  · rfl
  · rfl

theorem event_prev (w : Watcher) (event : Event) : (w.event event).prev = w.prev := by
  unfold Watcher.event
  split
  · rfl
  · rfl

theorem event_client (w : Watcher) (event : Event) : (w.event event).client = w.client := by
  unfold Watcher.event
  split
  · rfl
  · rfl

theorem Gathered.move {first : Option CString} (gathered : Gathered first w) (pc : InotifyPc) :
    Gathered first { w with pc := pc } := by
  cases first with
  | none => exact gathered
  | some name => exact gathered

theorem regularNames_snoc (events : List Event) (event : Event) :
    (regularNames (events ++ [event])).head? =
      (regularNames events).head?.or (if event.changes then some event.name else none) := by
  rw [regularNames, List.filter_append, List.map_append, List.head?_append, ← regularNames]
  by_cases changes : event.changes
  · rw [List.filter_cons_of_pos changes, if_pos changes]
    rfl
  · rw [List.filter_cons_of_neg changes, if_neg changes]
    rfl

/-- Where the processing of a batch can be: only the first regular name is ever put. -/
def Batch (events : List Event) (s : Watcher) : Prop :=
  match s.pc with
  | .gathering rest => s.sent = [] ∧ s.prev = 0 ∧
      ∃ before, events = before ++ rest ∧ Gathered (regularNames before).head? s
  | .looping 0 => s.sent = [] ∧ ∃ name, (regularNames events).head? = some name ∧
      Gathered (some name) s
  | .looping (_ + 1) => s.sent = (regularNames events).take 1 ∧ s.localChangeN = 0
  | .finding j name => s.sent = [] ∧ j = 0 ∧ (regularNames events).head? = some name ∧
      Gathered (some name) s
  | .sending _ _ _ | .exited => s.sent = (regularNames events).take 1
  | .reading => s.sent = (regularNames events).take 1 ∧ s.Idle

theorem take_one_of_head? {α : Type} {xs : List α} {x : α} (front : xs.head? = some x) :
    xs.take 1 = [x] := by
  cases xs with
  | nil => cases front
  | cons y xs =>
      cases front
      rfl

/-- The name that is passed to `inotify_send`. -/
theorem Batch.send {j : Nat} (front : (regularNames events).head? = some name)
    (gathered : Gathered (some name) s) (nothing : s.sent = []) (ran : s.send around j = some t) :
    Batch events t := by
  rw [Watcher.send, gathered.2] at ran
  cases ran
  show s.sent ++ [name] = _
  rw [nothing, take_one_of_head? front]
  rfl

/-- A step of `inotify`, place by place. -/
theorem Batch.ownStep (batch : Batch events s) (ran : s.ownStep around = some t) :
    Batch events t := by
  obtain ⟨client, localModify, localChangeN, prev, pc, sent⟩ := s
  unfold Watcher.ownStep at ran
  cases pc with
  | gathering rest =>
      obtain ⟨nothing, first, before, rfl, gathered⟩ := batch
      cases rest with
      | cons event rest =>
          cases ran
          refine ⟨?_, ?_, before ++ [event], by rw [List.append_assoc, List.singleton_append], ?_⟩
          · rw [← nothing]
            exact event_sent _ event
          · rw [← first]
            exact event_prev _ event
          · rw [regularNames_snoc]
            exact (gathered.event event).move _
      | nil =>
          rw [List.append_nil]
          cases names : (regularNames before).head? with
          | none =>
              rw [names] at gathered
              obtain rfl : localChangeN = 0 := gathered
              rw [if_neg (Nat.not_lt_zero _)] at ran
              cases ran
              refine ⟨?_, rfl, rfl⟩
              rw [List.head?_eq_none_iff.mp names]
              exact nothing
          | some name =>
              rw [names] at gathered
              have some : prev < localChangeN := by
                rw [show prev = 0 from first]
                exact gathered.1
              rw [if_pos some] at ran
              cases ran
              exact ⟨nothing, name, names, gathered⟩
  | looping j =>
      cases j with
      | zero =>
          obtain ⟨nothing, name, front, gathered⟩ := batch
          dsimp only at ran
          rw [if_pos gathered.1, show localModify[0]? = some name from gathered.2] at ran
          cases ran
          exact ⟨nothing, rfl, front, gathered⟩
      | succ j =>
          obtain ⟨one, none⟩ := batch
          dsimp only at ran
          obtain rfl : localChangeN = 0 := none
          rw [if_neg (Nat.not_lt_zero _)] at ran
          cases ran
          exact ⟨one, rfl, rfl⟩
  | finding j name =>
      obtain ⟨nothing, rfl, front, gathered⟩ := batch
      dsimp only at ran
      split at ran
      · -- `new_list` changes nothing that the batch is about
        exact Batch.send (s := ⟨client.newList name 0, localModify, localChangeN, prev,
          .finding 0 name, sent⟩) front gathered nothing ran
      · split at ran
        · exact Batch.send front gathered nothing ran
        · cases ran
          exact ⟨nothing, rfl, front, gathered⟩
  | sending j name exchange =>
      have one : sent = (regularNames events).take 1 := batch
      dsimp only at ran
      split at ran
      · obtain ⟨_, ran⟩ := Option.ite_none_right_eq_some.mp ran
        cases ran
        exact one
      · cases ran
        exact ⟨one, rfl⟩
      · cases ran
  | exited => cases ran
  | reading => cases ran

theorem Batch.step {label : Option (Side × Nat)} (batch : Batch events s)
    (ran : s.step around label = some t) : Batch events t := by
  cases label with
  | none => exact batch.ownStep ran
  | some label =>
      change s.exchangeStep around label = some t at ran
      unfold Watcher.exchangeStep at ran
      split at ran
      · next j name exchange place =>
        unfold Batch at batch
        rw [place] at batch
        obtain ⟨_, ran⟩ := Option.ite_none_left_eq_some.mp ran
        obtain ⟨exchange, _, rfl⟩ := Option.map_eq_some_iff.mp ran
        exact batch
      · cases ran

theorem Batch.start (idle : w.Idle) :
    Batch events { w with pc := .gathering events, sent := [] } :=
  ⟨rfl, idle.2, [], rfl, idle.1⟩

theorem batch_reached (idle : w.Idle) (reached : (batchSystem around w events).Reachable s) :
    Batch events s :=
  reached.invariant (fun first => first ▸ Batch.start idle) fun batch ran => batch.step ran

/-- Between the batches the client has counted nothing. -/
theorem idle_after (idle : w.Idle) (reached : (batchSystem around w events).Reachable s)
    (reads : s.pc = .reading) : s.Idle := by
  have batch := batch_reached idle reached
  unfold Batch at batch
  rw [reads] at batch
  exact batch.2

/-- No other name than the first regular one is put. -/
theorem sent_prefix (idle : w.Idle) (reached : (batchSystem around w events).Reachable s) :
    s.sent <+: (regularNames events).take 1 := by
  have batch := batch_reached idle reached
  unfold Batch at batch
  split at batch
  · exact batch.1 ▸ List.nil_prefix
  · exact batch.1 ▸ List.nil_prefix
  · exact batch.1 ▸ List.prefix_rfl
  · exact batch.1 ▸ List.nil_prefix
  · exact batch ▸ List.prefix_rfl
  · exact batch ▸ List.prefix_rfl
  · exact batch.1 ▸ List.prefix_rfl

/-! ## A batch with a regular name -/

theorem reaches_own (reached : (batchSystem around w events).Reachable s)
    (ran : s.ownStep around = some t) : (batchSystem around w events).Reachable t := by
  have next : (batchSystem around w events).step s none t := ran
  exact reached.step next

theorem reaches_exchange {label : Side × Nat} (reached : (batchSystem around w events).Reachable s)
    (ran : s.exchangeStep around label = some t) : (batchSystem around w events).Reachable t := by
  have next : (batchSystem around w events).step s (some label) t := ran
  exact reached.step next

theorem gathers {rest : List Event} (reached : (batchSystem around w events).Reachable s)
    (gathers : s.pc = .gathering rest) : ∃ t, (batchSystem around w events).Reachable t ∧
      t.pc = .gathering [] ∧ t.client = s.client := by
  induction rest generalizing s with
  | nil => exact ⟨s, reached, gathers, rfl⟩
  | cons event rest ih =>
      have took : s.ownStep around = some { s.event event with pc := .gathering rest } := by
        rw [Watcher.ownStep, gathers]
      obtain ⟨t, later, place, same⟩ := ih (reaches_own reached took) rfl
      exact ⟨t, later, place, same.trans (event_client s event)⟩

/-- With a regular name in the batch the client comes into `list_find`. -/
theorem finds (around : Surroundings) (idle : w.Idle)
    (front : (regularNames events).head? = some name) :
    ∃ s, (batchSystem around w events).Reachable s ∧ s.pc = .finding 0 name ∧
      s.client = w.client := by
  have first : (batchSystem around w events).Reachable
      { w with pc := .gathering events, sent := [] } := .start rfl
  obtain ⟨s, reached, place, same⟩ := gathers first rfl
  have batch := batch_reached idle reached
  unfold Batch at batch
  rw [place] at batch
  obtain ⟨-, none, before, rfl, gathered⟩ := batch
  rw [List.append_nil] at front
  rw [front] at gathered
  have loops : s.ownStep around = some { s with pc := .looping 0 } := by
    rw [Watcher.ownStep, place]
    exact if_pos (none.symm ▸ gathered.1)
  have looks : Watcher.ownStep around { s with pc := .looping 0 } =
      some { s with pc := .finding 0 name } := by
    unfold Watcher.ownStep
    dsimp only
    rw [if_pos gathered.1, gathered.2]
    rfl
  exact ⟨_, reaches_own (reaches_own reached loops) looks, rfl, same⟩

/-- In `list_find` the client stays where it is if the list begins with another name. -/
theorem finds_for_ever (around : Surroundings) {j : Nat} {first : MetaData} (place : s.pc = .finding j name)
    (front : s.client.list.head? = some first) (other : first.name ≠ name) (rounds : Nat) :
    (batchSystem around w events).Run s (List.replicate rounds none) s := by
  induction rounds with
  | zero => exact .nil s
  | succ rounds ih =>
      rw [List.replicate_succ']
      refine ih.snoc ?_
      show s.ownStep around = _
      rw [Watcher.ownStep, place]
      dsimp only
      rw [front]
      exact if_neg other

/-- Otherwise it goes on to `inotify_send`. -/
theorem sends {j : Nat} (reached : (batchSystem around w events).Reachable s)
    (place : s.pc = .finding j name) (front : s.localModify[0]? = some name)
    (here : ∀ first ∈ s.client.list.head?, first.name = name) :
    ∃ t, (batchSystem around w events).Reachable t ∧
      t.pc = .sending j name (.connected name (around.files name)) := by
  have found : ∃ client, s.ownStep around = Watcher.send around { s with client := client } j := by
    rw [Watcher.ownStep, place]
    dsimp only
    cases list : s.client.list.head? with
    | none => exact ⟨_, rfl⟩
    | some first => exact ⟨s.client, if_pos (here first list)⟩
  obtain ⟨client, found⟩ := found
  rw [Watcher.send, front] at found
  exact ⟨_, reaches_own reached found, rfl⟩

/-- A step of the exchange, except where the client has no file. -/
theorem exchangeStep_eq {j : Nat} {before after : Exchange} {label : Side × Nat}
    (place : s.pc = .sending j name before)
    (goes : before.client ≠ .sending [] ∨ around.files name ≠ none)
    (ran : before.step (around.server j) label = some after) :
    s.exchangeStep around label = some { s with pc := .sending j name after } := by
  rw [Watcher.exchangeStep, place]
  dsimp only
  rw [if_neg fun missing => goes.elim (· missing.2.1) (· missing.2.2), ran]
  rfl

/-- The client goes through an exchange as the exchange does. -/
theorem exchanges {j : Nat} {content : List UInt8} {before after : Exchange}
    {labels : List (Side × Nat)} (file : around.files name = some content)
    (reached : (batchSystem around w events).Reachable s) (place : s.pc = .sending j name before)
    (run : (putExchange (around.server j) name.1 content).Run before labels after) :
    (batchSystem around w events).Reachable { s with pc := .sending j name after } := by
  induction run with
  | nil =>
      rw [← place]
      exact reached
  | snoc earlier next ih =>
      exact reaches_exchange ih
        (exchangeStep_eq rfl (.inr fun none => Option.some_ne_none _ (file.symm.trans none)) next)

/-- A client that has no file to send exits. -/
theorem exits {j : Nat} {exchange : Exchange} {messages : List (List UInt8)}
    (missing : around.files name = none) (reached : (batchSystem around w events).Reachable s)
    (place : s.pc = .sending j name exchange) (sends : exchange.client = .sending messages) :
    ∃ t, (batchSystem around w events).Reachable t ∧ t.pc = .exited := by
  induction messages generalizing s exchange with
  | nil =>
      refine ⟨{ s with pc := .exited }, reaches_own reached ?_, rfl⟩
      rw [Watcher.ownStep, place]
      dsimp only
      rw [sends]
      exact if_pos missing
  | cons message rest ih =>
      -- what is left of the first message is sent whole
      have sent : ∃ after, (batchSystem around w events).Reachable
          { s with pc := .sending j name after } ∧ after.client = .sending ([] :: rest) := by
        cases message with
        | nil =>
            refine ⟨exchange, ?_, sends⟩
            rw [← place]
            exact reached
        | cons byte bytes =>
            have ran : exchange.step (around.server j) (.client, bytes.length + 1) = some
                { exchange with
                  client := .sending ([] :: rest)
                  toServer := exchange.toServer.send (byte :: bytes) } := by
              simp [Exchange.step, Exchange.clientStep, sends]
            have here : exchange.client ≠ .sending [] := by simp [sends]
            exact ⟨_, reaches_exchange reached (exchangeStep_eq place (.inl here) ran), rfl⟩
      obtain ⟨after, later, empty⟩ := sent
      have ran : after.step (around.server j) (.client, 0) =
          some { after with client := .sending rest } := by
        simp [Exchange.step, Exchange.clientStep, empty]
      have here : after.client ≠ .sending [] := by simp [empty]
      exact ih (reaches_exchange later (exchangeStep_eq rfl (.inl here) ran)) rfl rfl

/-- No batch with a regular name is uploaded: the client stays in `list_find`, or exits without the
file, or stays in an exchange that does not end. -/
theorem not_uploaded (idle : w.Idle) (front : (regularNames events).head? = some name) :
    ¬ Uploaded around w events := by
  intro uploaded
  obtain ⟨s, reached, place, same⟩ := finds around idle front
  by_cases here : ∀ first ∈ s.client.list.head?, first.name = name
  · have batch := batch_reached idle reached
    unfold Batch at batch
    rw [place] at batch
    obtain ⟨-, -, -, gathered⟩ := batch
    obtain ⟨t, sending, puts⟩ := sends reached place gathered.2 here
    cases file : around.files name with
    | none =>
        rw [file] at puts
        obtain ⟨last, exited, at_⟩ := exits file sending puts rfl
        have stuck : ∀ label, last.step around label = none := by
          rintro (_ | label)
          · show last.ownStep around = none
            rw [Watcher.ownStep, at_]
          · show last.exchangeStep around label = none
            rw [Watcher.exchangeStep, at_]
        exact nomatch at_.symm.trans (uploaded.ends last exited stuck)
    | some content =>
        rw [file] at puts
        obtain ⟨stuck, ⟨_, labels, rfl, run⟩, deadlock⟩ :=
          put_reaches_deadlock (around.server 0) name.1 content
        have blocked : ∀ label, Watcher.step around { t with pc := .sending 0 name stuck } label =
            none := by
          rintro (_ | label)
          · -- the client is in `recv_fixed_len`
            obtain ⟨version, receives, -⟩ := deadlock.1
            simp only [Watcher.step, Watcher.ownStep, receives]
          · simp only [Watcher.step, Watcher.exchangeStep, deadlock.stuck label, Option.map_none,
              ite_self]
        exact nomatch uploaded.ends _ (exchanges file sending puts run) blocked
  · obtain ⟨first, front, other⟩ : ∃ first, s.client.list.head? = some first ∧
        first.name ≠ name := by
      simpa using here
    obtain ⟨bound, bounded⟩ := uploaded.bounded
    obtain ⟨start, labels, initial, run⟩ := reached
    have long := bounded start _ _ initial
      (run.append (finds_for_ever around place front other (bound + 1)))
    rw [List.length_append, List.length_replicate] at long
    omega

/-! ## A batch without one -/

/-- The only run of a batch without regular names. -/
theorem quiet_run (idle : w.Idle) (names : regularNames events = []) {labels : List (Option (Side × Nat))}
    (run : (batchSystem around w events).Run { w with pc := .gathering events, sent := [] } labels s) :
    Batch events s ∧ ((s.pc = .gathering (events.drop labels.length) ∧
      labels.length ≤ events.length) ∨ s.pc = .reading ∧ labels.length = events.length + 1) := by
  refine run.preservesHistory (P := fun labels s => Batch events s ∧
    ((s.pc = .gathering (events.drop labels.length) ∧ labels.length ≤ events.length) ∨
      s.pc = .reading ∧ labels.length = events.length + 1)) ?_
    ⟨Batch.start idle, .inl ⟨rfl, Nat.zero_le _⟩⟩
  rintro labels s label t ⟨batch, place⟩ ran
  refine ⟨batch.step ran, ?_⟩
  rw [List.length_append, List.length_singleton]
  rcases place with ⟨place, within⟩ | ⟨place, _⟩
  · cases label with
    | some label =>
        have ran : s.exchangeStep around label = some t := ran
        rw [Watcher.exchangeStep, place] at ran
        cases ran
    | none =>
        have ran : s.ownStep around = some t := ran
        rw [Watcher.ownStep, place] at ran
        rcases Nat.lt_or_ge labels.length events.length with more | all
        · rw [List.drop_eq_getElem_cons more] at ran
          cases ran
          exact .inl ⟨rfl, more⟩
        · -- all events are gathered, and there has been no regular name
          unfold Batch at batch
          rw [place] at batch
          obtain ⟨-, -, before, whole, gathered⟩ := batch
          rw [List.drop_of_length_le all, List.append_nil] at whole
          rw [← whole, names] at gathered
          have nothing : s.localChangeN = 0 := gathered
          rw [List.drop_of_length_le all, nothing] at ran
          cases ran
          exact .inr ⟨rfl, by omega⟩
  · cases label with
    | some label =>
        have ran : s.exchangeStep around label = some t := ran
        rw [Watcher.exchangeStep, place] at ran
        cases ran
    | none =>
        have ran : s.ownStep around = some t := ran
        rw [Watcher.ownStep, place] at ran
        cases ran

theorem quiet_uploaded (idle : w.Idle) (names : regularNames events = []) :
    Uploaded around w events where
  bounded := by
    refine ⟨events.length + 1, ?_⟩
    rintro _ labels t rfl run
    obtain ⟨-, ⟨-, within⟩ | ⟨-, all⟩⟩ := quiet_run idle names run
    · exact Nat.le_succ_of_le within
    · exact Nat.le_of_eq all
  ends := by
    rintro s ⟨_, labels, rfl, run⟩ stuck
    obtain ⟨-, ⟨place, -⟩ | ⟨place, -⟩⟩ := quiet_run idle names run
    · have blocked : s.ownStep around = none := stuck none
      rw [Watcher.ownStep, place] at blocked
      cases left : events.drop labels.length with
      | nil =>
          rw [left] at blocked
          dsimp only at blocked
          split at blocked
          · cases blocked
          · cases blocked
      | cons event rest =>
          rw [left] at blocked
          cases blocked
    · exact place
  listed := by
    rw [names]
    exact fun _ _ _ _ member => absurd member List.not_mem_nil
  once := by
    intro s reached _ name
    have none := sent_prefix idle reached
    rw [names, List.take_nil, List.prefix_nil] at none
    rw [none, names, if_neg List.not_mem_nil, List.count_nil]

/-- A batch is uploaded exactly if it has no regular name. -/
theorem uploaded_iff (around : Surroundings) (w : Watcher) (events : List Event) (idle : w.Idle) :
    Uploaded around w events ↔ regularNames events = [] := by
  refine ⟨fun uploaded => ?_, quiet_uploaded idle⟩
  by_contra some
  obtain ⟨name, rest, names⟩ := List.exists_cons_of_ne_nil some
  exact not_uploaded idle (by rw [names]; rfl) uploaded

/-- Every file has two bytes, and the server stores nothing but versions. -/
def sampleSurroundings : Surroundings := ⟨fun _ => sampleServer, fun _ => some [104, 105], fun _ => []⟩

/-- A client that knows these files, in `read`. -/
def Watcher.knowing (files : List MetaData) : Watcher := ⟨.idle files, [], 0, 0, .reading, []⟩

/-- An editor's backup and swap file, and a known file of which a mode was changed, are not put;
with a new file the batch does not end. -/
theorem uploaded_iff_editor :
    Uploaded sampleSurroundings (.knowing [⟨nameA, 0⟩])
      [⟨⟨[97, 126], by decide⟩, inCreate⟩, ⟨⟨[46, 97], by decide⟩, inModify⟩, ⟨nameA, 0x4⟩] ∧
    ¬ Uploaded sampleSurroundings (.knowing [⟨nameA, 0⟩])
      [⟨⟨[97, 126], by decide⟩, inCreate⟩, ⟨nameB, inCreate⟩] :=
  ⟨(uploaded_iff sampleSurroundings (.knowing [⟨nameA, 0⟩]) _ ⟨rfl, rfl⟩).mpr (by decide),
    fun uploaded => absurd
      ((uploaded_iff sampleSurroundings (.knowing [⟨nameA, 0⟩]) _ ⟨rfl, rfl⟩).mp uploaded)
      (by decide)⟩

/-- A new file `b` is not uploaded next to a known file `a`, where `list_find` does not come past
`a`, and not into an empty list; and of two new files the second is never put. -/
theorem second_file_not_uploaded :
    ¬ Uploaded sampleSurroundings (.knowing [⟨nameA, 0⟩]) [⟨nameB, inCreate⟩] ∧
    ¬ Uploaded sampleSurroundings (.knowing []) [⟨nameB, inCreate⟩] ∧
    ∀ s, (batchSystem sampleSurroundings (.knowing [])
      [⟨nameA, inCreate⟩, ⟨nameB, inCreate⟩]).Reachable s → nameB ∉ s.sent := by
  refine ⟨not_uploaded ⟨rfl, rfl⟩ (by decide : _ = some nameB),
    not_uploaded ⟨rfl, rfl⟩ (by decide : _ = some nameB), fun s reached put => ?_⟩
  have only := sent_prefix ⟨rfl, rfl⟩ reached
  have first : (regularNames [⟨nameA, inCreate⟩, ⟨nameB, inCreate⟩]).take 1 = [nameA] := by decide
  rw [first] at only
  exact absurd (List.mem_singleton.mp (only.subset put)) (by decide)

end SlabStudy.Dropbox
