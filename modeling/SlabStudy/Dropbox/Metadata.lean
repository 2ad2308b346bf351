import SlabStudy.Library.CString

/-!
# The metadata lists of the dropbox

The client polls: `recv_metadata_check` walks its own list in step with the
entries that the server sends.  A name arrives without its NUL, so what stands
in memory behind it belongs to the string that is read.
-/

namespace SlabStudy.Dropbox

open Library

/-- `struct meta_data`. -/
structure MetaData where
  name : CString
  version : Int
  deriving DecidableEq

/-- The globals of the client; `checker` is a place in the list, or NULL. -/
structure Client where
  list : List MetaData
  checker : Option Nat
  theNumberOf : Nat
  deriving DecidableEq

/-- The place of a node, or NULL behind the last one. -/
def node (list : List MetaData) (i : Nat) : Option Nat := if i < list.length then some i else none

/-- A client that is not in a poll. -/
def Client.idle (list : List MetaData) : Client := ⟨list, node list 0, list.length⟩

/-- `new_list` of the client. -/
def Client.newList (c : Client) (name : CString) (version : Int) : Client where
  list := c.list ++ [⟨name, version⟩]
  checker := if c.list = [] then some 0 else c.checker
  theNumberOf := c.theNumberOf + 1

/-- The client in `recv_metadata_check`, with what it has put into `modify_array`. -/
structure Poll where
  client : Client
  modified : List CString
  deriving DecidableEq

/-- The loop body for the `i`-th entry, whose name has `behind` in memory behind it. -/
def Poll.receive (behind : List UInt8) (s : Poll) (i : Nat) (given : MetaData) : Option Poll :=
  let name := CString.read (given.name.1 ++ behind)
  if i < s.client.theNumberOf then do
    let checker ← s.client.checker
    let local_ ← s.client.list[checker]?
    let modified := if local_.version ≠ given.version then s.modified ++ [name] else s.modified
    some ⟨{ s.client with checker := node s.client.list (checker + 1) }, modified⟩
  else
    some ⟨s.client.newList name given.version, s.modified ++ [name]⟩

def Poll.receiveFrom (behind : Nat → List UInt8) : Nat → Poll → List MetaData → Option Poll
  | _, s, [] => some s
  | i, s, given :: entries => do
      let s ← s.receive (behind i) i given
      receiveFrom behind (i + 1) s entries

/-- `recv_metadata_check` for the entries of `send_metadata`: what is in `modify_array` and the
client afterwards; `none` where it follows a NULL pointer. -/
def recvMetadataCheck (behind : Nat → List UInt8) (c : Client) (entries : List MetaData) :
    Option Poll :=
  (Poll.receiveFrom behind 0 ⟨c, []⟩ entries).map fun s =>
    { s with client := { s.client with checker := node s.client.list 0 } }

/-- `malloc(sizeof(char*)*theNumberOf)` at the start of a poll. -/
def Client.capacity (c : Client) : Nat := c.theNumberOf

/-! ## What a poll does -/

variable {behind : Nat → List UInt8} {i : Nat} {given : MetaData} {name : CString}
  {done nodes entries list : List MetaData} {modified : List CString}

/-- The entry as the client reads it. -/
def readEntry (behind : List UInt8) (given : MetaData) : MetaData :=
  ⟨CString.read (given.name.1 ++ behind), given.version⟩

/-- The entries, the first of them the `i`-th, as the client reads them. -/
def received (behind : Nat → List UInt8) : Nat → List MetaData → List MetaData
  | _, [] => []
  | i, given :: entries => readEntry (behind i) given :: received behind (i + 1) entries

/-- An entry is put into `modify_array` unless the node at its own place has its version. -/
def Marked (node : Option MetaData) (given : MetaData) : Prop :=
  ∀ node' ∈ node, node'.version ≠ given.version

instance (node : Option MetaData) (given : MetaData) : Decidable (Marked node given) :=
  inferInstanceAs (Decidable (∀ node' ∈ node, node'.version ≠ given.version))

/-- The names put into `modify_array`, with the nodes from the `i`-th on. -/
def marked (behind : Nat → List UInt8) : Nat → List MetaData → List MetaData → List CString
  | _, _, [] => []
  | i, nodes, given :: entries =>
      if Marked nodes.head? given then
        (readEntry (behind i) given).name :: marked behind (i + 1) nodes.tail entries
      else marked behind (i + 1) nodes.tail entries

/-- An entry for which there is a node at its place. -/
theorem Poll.receive_early {s : Poll} {bytes : List UInt8} {mine : MetaData}
    (early : i < s.client.theNumberOf) (checks : s.client.checker = some i)
    (here : s.client.list[i]? = some mine) :
    s.receive bytes i given = some ⟨{ s.client with checker := node s.client.list (i + 1) },
      if Marked (some mine) given then s.modified ++ [(readEntry bytes given).name]
      else s.modified⟩ := by
  have versions : Marked (some mine) given ↔ mine.version ≠ given.version :=
    ⟨fun marked => marked mine rfl, fun differ _ same => Option.some.inj same ▸ differ⟩
  simp only [receive, if_pos early, checks, here, Option.bind_eq_bind, Option.bind_some, versions]
  rfl

/-- An entry behind the last node. -/
theorem Poll.receive_late {s : Poll} {bytes : List UInt8} (late : s.client.theNumberOf ≤ i) :
    s.receive bytes i given = some ⟨s.client.newList (readEntry bytes given).name given.version,
      s.modified ++ [(readEntry bytes given).name]⟩ := by
  rw [receive, if_neg (Nat.not_lt.mpr late)]
  rfl

/-- The loop, when it has come past the nodes `done`. -/
theorem receiveFrom_eq {checker : Option Nat} (place : done.length = i)
    (checks : nodes ≠ [] → checker = some i) : ∃ checker',
    Poll.receiveFrom behind i ⟨⟨done ++ nodes, checker, (done ++ nodes).length⟩, modified⟩ entries =
      some ⟨⟨done ++ nodes ++ received behind (i + nodes.length) (entries.drop nodes.length),
        checker', (done ++ nodes).length + (entries.drop nodes.length).length⟩,
        modified ++ marked behind i nodes entries⟩ := by
  induction entries generalizing i done nodes checker modified with
  | nil =>
      refine ⟨checker, ?_⟩
      rw [List.drop_nil, received, marked, List.append_nil, List.append_nil]
      rfl
  | cons given entries ih =>
      rw [Poll.receiveFrom]
      cases nodes with
      | nil =>
          obtain ⟨checker', rest⟩ := @ih (i + 1) (done ++ [readEntry (behind i) given]) []
            (modified ++ [(readEntry (behind i) given).name])
            (if done = [] then some 0 else checker)
            (by rw [List.length_append, place]; rfl) (absurd rfl)
          refine ⟨checker', ?_⟩
          simp only [List.append_nil, List.length_nil, List.drop_zero, Nat.add_zero] at rest ⊢
          rw [Poll.receive_late (Nat.le_of_eq place), Option.bind_eq_bind, Option.bind_some, marked,
            List.head?_nil, if_pos nofun, received]
          have size : done.length + (given :: entries).length =
              (done ++ [readEntry (behind i) given]).length + entries.length := by
            rw [List.length_append, List.length_cons, List.length_singleton]
            omega
          have one : done.length + 1 = (done ++ [readEntry (behind i) given]).length := by
            rw [List.length_append]
            rfl
          rw [size, List.append_cons done, List.append_cons modified (readEntry (behind i) given).name
            (marked behind (i + 1) _ entries), Client.newList, one]
          exact rest
      | cons mine nodes =>
          have order : done ++ mine :: nodes = done ++ [mine] ++ nodes := List.append_cons ..
          have early : i < (done ++ mine :: nodes).length := by
            rw [List.length_append, List.length_cons, place]
            omega
          have here : (done ++ mine :: nodes)[i]? = some mine := by
            rw [List.getElem?_append_right (Nat.le_of_eq place), place, Nat.sub_self]
            rfl
          obtain ⟨checker', rest⟩ := @ih (i + 1) (done ++ [mine]) nodes
            (if Marked (some mine) given then
              modified ++ [(readEntry (behind i) given).name] else modified)
            (node (done ++ mine :: nodes) (i + 1)) (by rw [List.length_append, place]; rfl) (by
              intro more
              have some := List.length_pos_iff.mpr more
              rw [node, if_pos]
              rw [List.length_append, List.length_cons]
              omega)
          refine ⟨checker', ?_⟩
          rw [Poll.receive_early early (checks (List.cons_ne_nil _ _)) here, Option.bind_eq_bind,
            Option.bind_some, marked, List.head?_cons, List.tail_cons, List.length_cons,
            List.drop_succ_cons, order]
          rw [order] at rest
          have far : i + (nodes.length + 1) = i + 1 + nodes.length := by omega
          rw [far]
          refine rest.trans (congrArg (fun names => some (Poll.mk _ names)) ?_)
          split
          · exact List.append_assoc ..
          · rfl

theorem length_received (behind : Nat → List UInt8) (i : Nat) (entries : List MetaData) :
    (received behind i entries).length = entries.length := by
  induction entries generalizing i with
  | nil => rfl
  | cons given entries ih => exact congrArg Nat.succ (ih (i + 1))

theorem recvMetadataCheck_eq (behind : Nat → List UInt8) (list entries : List MetaData) :
    recvMetadataCheck behind (.idle list) entries =
      some ⟨.idle (list ++ received behind list.length (entries.drop list.length)),
        marked behind 0 list entries⟩ := by
  obtain ⟨checker, walked⟩ := @receiveFrom_eq behind 0 [] list entries [] (node list 0) rfl (by
    intro some
    rw [node, if_pos (List.length_pos_iff.mpr some)])
  rw [List.nil_append, Nat.zero_add] at walked
  rw [recvMetadataCheck, Client.idle, walked, Option.map_some, Client.idle, List.length_append,
    length_received, List.nil_append]

theorem mem_marked : name ∈ marked behind i nodes entries ↔ ∃ k given,
    entries[k]? = some given ∧ Marked nodes[k]? given ∧
    (readEntry (behind (i + k)) given).name = name := by
  induction entries generalizing i nodes with
  | nil => exact iff_of_false List.not_mem_nil fun ⟨_, _, found, _⟩ => nomatch found
  | cons given entries ih =>
      have later : (∃ k other, entries[k]? = some other ∧ Marked nodes.tail[k]? other ∧
          (readEntry (behind (i + 1 + k)) other).name = name) ↔
          ∃ k other, (given :: entries)[k + 1]? = some other ∧ Marked nodes[k + 1]? other ∧
            (readEntry (behind (i + (k + 1))) other).name = name := by
        refine exists_congr fun k => exists_congr fun other => ?_
        rw [List.getElem?_cons_succ, List.getElem?_tail, Nat.add_assoc, Nat.add_comm 1 k]
      have split : (∃ k other, (given :: entries)[k]? = some other ∧ Marked nodes[k]? other ∧
          (readEntry (behind (i + k)) other).name = name) ↔
          (Marked nodes.head? given ∧ (readEntry (behind i) given).name = name) ∨
            name ∈ marked behind (i + 1) nodes.tail entries := by
        rw [ih, later, List.head?_eq_getElem?]
        constructor
        · rintro ⟨k, other, found, differs, same⟩
          cases k with
          | zero =>
              obtain rfl := Option.some.inj found
              exact .inl ⟨differs, same⟩
          | succ k => exact .inr ⟨k, other, found, differs, same⟩
        · rintro (⟨differs, same⟩ | ⟨k, other, found, differs, same⟩)
          · exact ⟨0, given, rfl, differs, same⟩
          · exact ⟨k + 1, other, found, differs, same⟩
      rw [split, marked]
      by_cases differs : Marked nodes.head? given
      · rw [if_pos differs, List.mem_cons, eq_comm]
        exact or_congr_left (and_iff_right differs).symm
      · rw [if_neg differs]
        exact (or_iff_right fun both => differs both.1).symm

/-! ## When it is exact -/

/-- The poll returns in `modify_array` the names of the server that the client has not, or not in
this version, each once and within the capacity, and the client has each of them once. -/
def Exact (list entries : List MetaData) (result : Option Poll) : Prop :=
  ∃ s, result = some s ∧ s.modified.Nodup ∧
    (∀ name, name ∈ s.modified ↔ ∃ given ∈ entries, given.name = name ∧ given ∉ list) ∧
    s.modified.length ≤ (Client.idle list).capacity ∧
    ∀ given ∈ entries, (s.client.list.map MetaData.name).count given.name = 1

/-- The client knows the names at the places of its nodes, and no other; at each of these places
the version of its node is the one sent exactly when the version it has for the name is; and it has
room for what is new or changed. -/
def Aligned (list entries : List MetaData) : Prop :=
  (∀ i given, entries[i]? = some given →
    (i < list.length ↔ given.name ∈ list.map MetaData.name) ∧
    (i < list.length →
      ((∃ mine : MetaData, list[i]? = some mine ∧ mine.version = given.version) ↔ given ∈ list))) ∧
  (entries.filter (· ∉ list)).length ≤ list.length

/-- The client is up to date, and also place by place. -/
def UpToDate (list entries : List MetaData) : Prop :=
  ∀ (i : Nat) (given : MetaData), entries[i]? = some given →
    given ∈ list ∧ ∃ mine : MetaData, list[i]? = some mine ∧ mine.version = given.version

/-- A name is sent once. -/
theorem entry_unique {k : Nat} {other : MetaData} (distinct : (entries.map MetaData.name).Nodup)
    (found : entries[i]? = some given) (found' : entries[k]? = some other)
    (same : other.name = given.name) : k = i ∧ other = given := by
  have first : (entries.map MetaData.name)[i]? = some given.name := by
    rw [List.getElem?_map, found]
    rfl
  have second : (entries.map MetaData.name)[k]? = some given.name := by
    rw [List.getElem?_map, found', ← same]
    rfl
  have places : i = k := by
    refine (List.getElem?_inj ?_ distinct).mp (first.trans second.symm)
    exact (List.getElem?_eq_some_iff.mp first).1
  subst places
  exact ⟨rfl, Option.some.inj (found'.symm.trans found)⟩

/-- Whether an entry comes behind the first ones. -/
theorem mem_drop_iff (distinct : (entries.map MetaData.name).Nodup)
    (found : entries[i]? = some given) (n : Nat) :
    given.name ∈ (entries.drop n).map MetaData.name ↔ n ≤ i := by
  constructor
  · intro member
    obtain ⟨other, inside, same⟩ := List.mem_map.mp member
    obtain ⟨k, found'⟩ := List.mem_iff_getElem?.mp inside
    rw [List.getElem?_drop] at found'
    have place := (entry_unique distinct found found' same).1
    omega
  · intro late
    refine List.mem_map_of_mem (List.mem_iff_getElem?.mpr ⟨i - n, ?_⟩)
    rw [List.getElem?_drop, Nat.add_sub_cancel' late]
    exact found

/-- The client has each name once if it has the first names and none of the others. -/
theorem count_iff (known : (list.map MetaData.name).Nodup)
    (distinct : (entries.map MetaData.name).Nodup) (found : entries[i]? = some given) :
    ((list ++ entries.drop list.length).map MetaData.name).count given.name = 1 ↔
      (i < list.length ↔ given.name ∈ list.map MetaData.name) := by
  have late := mem_drop_iff distinct found list.length
  have rest : ((entries.drop list.length).map MetaData.name).Nodup := by
    rw [List.map_drop]
    exact distinct.sublist (List.drop_sublist ..)
  rw [List.map_append, List.count_append, known.count, rest.count]
  by_cases has : given.name ∈ list.map MetaData.name
  · by_cases before : i < list.length
    · rw [if_pos has, if_neg (by rw [late]; omega)]
      exact iff_of_true rfl (iff_of_true before has)
    · rw [if_pos has, if_pos (late.mpr (by omega))]
      exact iff_of_false (by omega) fun both => before (both.mpr has)
  · by_cases before : i < list.length
    · rw [if_neg has, if_neg (by rw [late]; omega)]
      exact iff_of_false (by omega) fun both => has (both.mp before)
    · rw [if_neg has, if_pos (late.mpr (by omega))]
      exact iff_of_true rfl (iff_of_false before has)

/-! ### With a NUL behind every name -/

/-- There is a NUL in memory behind every name received. -/
def Terminated (behind : Nat → List UInt8) : Prop := ∀ i, ∃ rest, behind i = 0 :: rest

theorem Terminated.readEntry (ends : Terminated behind) (i : Nat) (given : MetaData) :
    readEntry (behind i) given = given := by
  obtain ⟨rest, ended⟩ := ends i
  rw [Dropbox.readEntry, ended, CString.read_nul]

theorem Terminated.received (ends : Terminated behind) (i : Nat) (entries : List MetaData) :
    received behind i entries = entries := by
  induction entries generalizing i with
  | nil => rfl
  | cons given entries ih => rw [Dropbox.received, ends.readEntry, ih]

theorem Terminated.marked_sublist (ends : Terminated behind) :
    (marked behind i nodes entries).Sublist (entries.map MetaData.name) := by
  induction entries generalizing i nodes with
  | nil => exact .slnil
  | cons given entries ih =>
      rw [marked, ends.readEntry, List.map_cons]
      split
      · exact (ih).cons_cons _
      · exact (ih).cons _

theorem Terminated.mem_marked (ends : Terminated behind)
    (distinct : (entries.map MetaData.name).Nodup) (found : entries[i]? = some given) :
    given.name ∈ marked behind 0 list entries ↔ Marked list[i]? given := by
  rw [Dropbox.mem_marked]
  constructor
  · rintro ⟨k, other, found', differs, same⟩
    rw [ends.readEntry] at same
    obtain ⟨rfl, rfl⟩ := entry_unique distinct found found' same
    exact differs
  · exact fun differs => ⟨i, given, found, differs, by rw [ends.readEntry]⟩

/-- The names returned are the right ones if each entry is marked exactly when the client has not
got it. -/
theorem Terminated.names_iff (ends : Terminated behind)
    (distinct : (entries.map MetaData.name).Nodup) :
    (∀ name, name ∈ marked behind 0 list entries ↔
      ∃ given ∈ entries, given.name = name ∧ given ∉ list) ↔
    ∀ (i : Nat) (given : MetaData), entries[i]? = some given →
      (Marked list[i]? given ↔ given ∉ list) := by
  constructor
  · intro right i given found
    rw [← ends.mem_marked distinct found, right]
    constructor
    · rintro ⟨other, inside, same, absent⟩
      obtain ⟨k, found'⟩ := List.mem_iff_getElem?.mp inside
      obtain ⟨-, rfl⟩ := entry_unique distinct found found' same
      exact absent
    · exact fun absent => ⟨given, List.mem_of_getElem? found, rfl, absent⟩
  · intro right name
    constructor
    · intro member
      obtain ⟨given, inside, rfl⟩ := List.mem_map.mp (ends.marked_sublist.mem member)
      obtain ⟨i, found⟩ := List.mem_iff_getElem?.mp inside
      refine ⟨given, inside, rfl, (right i given found).mp ?_⟩
      exact (ends.mem_marked distinct found).mp member
    · rintro ⟨given, inside, rfl, absent⟩
      obtain ⟨i, found⟩ := List.mem_iff_getElem?.mp inside
      exact (ends.mem_marked distinct found).mpr ((right i given found).mpr absent)

theorem marked_or (mine : Option MetaData) (given : MetaData) :
    ¬ Marked mine given ↔ ∃ mine', mine = some mine' ∧ mine'.version = given.version := by
  simp [Marked]

/-- The room that is needed, when the names returned are the right ones. -/
theorem Terminated.length_marked (ends : Terminated behind)
    (distinct : (entries.map MetaData.name).Nodup)
    (right : ∀ name, name ∈ marked behind 0 list entries ↔
      ∃ given ∈ entries, given.name = name ∧ given ∉ list) :
    (marked behind 0 list entries).length = (entries.filter (· ∉ list)).length := by
  have same : (marked behind 0 list entries).Perm
      ((entries.filter (· ∉ list)).map MetaData.name) := by
    refine (List.perm_ext_iff_of_nodup (distinct.sublist ends.marked_sublist) ?_).mpr fun name => ?_
    · exact distinct.sublist (List.filter_sublist.map _)
    · rw [right, List.mem_map]
      simp only [List.mem_filter, decide_eq_true_eq]
      exact exists_congr fun given => (and_congr_right fun _ => and_comm).trans and_assoc.symm
  rw [same.length_eq, List.length_map]

theorem Terminated.exact_iff (ends : Terminated behind) (known : (list.map MetaData.name).Nodup)
    (distinct : (entries.map MetaData.name).Nodup) :
    Exact list entries (recvMetadataCheck behind (.idle list) entries) ↔ Aligned list entries := by
  rw [recvMetadataCheck_eq, ends.received]
  have counts : (∀ given ∈ entries,
      ((list ++ entries.drop list.length).map MetaData.name).count given.name = 1) ↔
      ∀ (i : Nat) (given : MetaData), entries[i]? = some given →
        (i < list.length ↔ given.name ∈ list.map MetaData.name) := by
    constructor
    · intro once i given found
      exact (count_iff known distinct found).mp (once given (List.mem_of_getElem? found))
    · intro places given member
      obtain ⟨i, found⟩ := List.mem_iff_getElem?.mp member
      exact (count_iff known distinct found).mpr (places i given found)
  constructor
  · rintro ⟨s, same, -, right, room, once⟩
    obtain rfl := Option.some.inj same
    refine ⟨fun i given found => ⟨counts.mp once i given found, fun before => ?_⟩, ?_⟩
    · have marks := (ends.names_iff distinct).mp right i given found
      rw [← marked_or, marks, Decidable.not_not]
    · rw [← ends.length_marked distinct right]
      exact room
  · rintro ⟨places, room⟩
    have right := (ends.names_iff distinct).mpr fun i given found =>
        show Marked list[i]? given ↔ given ∉ list by
      obtain ⟨place, version⟩ := places i given found
      by_cases before : i < list.length
      · rw [← not_iff_not, marked_or, version before, Decidable.not_not]
      · have gone : list[i]? = none := List.getElem?_eq_none (Nat.not_lt.mp before)
        rw [gone]
        refine iff_of_true nofun fun member => before (place.mpr ?_)
        exact List.mem_map_of_mem member
    refine ⟨_, rfl, distinct.sublist ends.marked_sublist, right, ?_,
      counts.mpr fun i given found => (places i given found).1⟩
    rw [ends.length_marked distinct right]
    exact room

/-! ### With anything behind the names -/

/-- Enough of something else behind a name makes it no name of the server. -/
theorem exists_long (entries : List MetaData) : ∃ rest : List UInt8, 0 ∉ rest ∧
    ∀ given ∈ entries, given.name.1.length < rest.length := by
  induction entries with
  | nil => exact ⟨[], List.not_mem_nil, nofun⟩
  | cons given entries ih =>
      obtain ⟨rest, clean, long⟩ := ih
      refine ⟨rest ++ List.replicate (given.name.1.length + 1) 1, ?_, ?_⟩
      · rw [List.mem_append, List.mem_replicate]
        rintro (member | ⟨-, one⟩)
        · exact clean member
        · cases one
      · rw [List.length_append, List.length_replicate]
        refine List.forall_mem_cons.mpr ⟨by omega, fun other member => ?_⟩
        have fits := long other member
        omega

/-- Nothing is marked for a client that is up to date. -/
theorem UpToDate.marked (current : UpToDate list entries) (behind : Nat → List UInt8) :
    marked behind 0 list entries = [] := by
  refine List.eq_nil_iff_forall_not_mem.mpr fun name member => ?_
  obtain ⟨k, given, found, marks, -⟩ := mem_marked.mp member
  exact (marked_or _ _).mpr (current k given found).2 marks

theorem exact_always_iff (known : (list.map MetaData.name).Nodup)
    (distinct : (entries.map MetaData.name).Nodup) :
    (∀ behind, Exact list entries (recvMetadataCheck behind (.idle list) entries)) ↔
      UpToDate list entries := by
  constructor
  · intro always i given found
    obtain ⟨rest, clean, long⟩ := exists_long entries
    obtain ⟨s, same, -, right, -, -⟩ := always fun _ => rest
    rw [recvMetadataCheck_eq] at same
    obtain rfl := Option.some.inj same
    have none : ∀ name, name ∉ marked (fun _ => rest) 0 list entries := by
      intro name member
      obtain ⟨k, other, found', -, read⟩ := mem_marked.mp member
      obtain ⟨sent, inside, rfl, -⟩ := (right name).mp member
      have size := congrArg (fun name : CString => name.1.length) read
      have fits := long sent inside
      rw [readEntry, CString.read_append, cstring_of_clean clean, List.length_append] at size
      omega
    constructor
    · by_contra absent
      exact none _ ((right given.name).mpr ⟨given, List.mem_of_getElem? found, rfl, absent⟩)
    · rw [← marked_or]
      intro marks
      exact none _ (mem_marked.mpr ⟨i, given, found, marks, rfl⟩)
  · intro current behind
    have places : ∀ (i : Nat) (given : MetaData), entries[i]? = some given → i < list.length := by
      intro i given found
      obtain ⟨mine, here, -⟩ := (current i given found).2
      exact (List.getElem?_eq_some_iff.mp here).1
    have short : entries.drop list.length = [] := by
      refine List.drop_eq_nil_of_le (Nat.not_lt.mp fun longer => ?_)
      exact Nat.lt_irrefl _ (places list.length _ (List.getElem?_eq_getElem longer))
    rw [recvMetadataCheck_eq, current.marked behind, short]
    refine ⟨_, rfl, List.nodup_nil, fun name => iff_of_false List.not_mem_nil ?_, Nat.zero_le _,
      fun given member => ?_⟩
    · rintro ⟨given, member, -, absent⟩
      obtain ⟨i, found⟩ := List.mem_iff_getElem?.mp member
      exact absent (current i given found).1
    · obtain ⟨i, found⟩ := List.mem_iff_getElem?.mp member
      have has := List.mem_map_of_mem (f := MetaData.name) (current i given found).1
      have once := (count_iff known distinct found).mpr (iff_of_true (places i given found) has)
      rw [short] at once
      exact once

/-- A poll is exact where the lists are aligned, if a NUL happens to stand behind every name; and it
is exact whatever stands there only where it has nothing to report. -/
theorem poll_exact_iff (list entries : List MetaData) (known : (list.map MetaData.name).Nodup)
    (distinct : (entries.map MetaData.name).Nodup) :
    (∀ behind, Terminated behind →
      (Exact list entries (recvMetadataCheck behind (.idle list) entries) ↔ Aligned list entries)) ∧
    ((∀ behind, Exact list entries (recvMetadataCheck behind (.idle list) entries)) ↔
      UpToDate list entries) :=
  ⟨fun _ ends => ends.exact_iff known distinct, exact_always_iff known distinct⟩

/-- The file names `a` and `b`. -/
def nameA : CString := ⟨[97], by decide⟩
def nameB : CString := ⟨[98], by decide⟩

/-- The server has a new version of `a` and a new file `d`. -/
def known : List MetaData := [⟨nameA, 0⟩, ⟨nameB, 5⟩, ⟨⟨[99], by decide⟩, 2⟩]
def served : List MetaData :=
  [⟨nameA, 1⟩, ⟨nameB, 5⟩, ⟨⟨[99], by decide⟩, 2⟩, ⟨⟨[100], by decide⟩, 0⟩]

/-- The poll is exact with a NUL behind every name, but not whatever stands there. -/
theorem poll_exact_iff_four_files :
    (∀ behind, Terminated behind →
      Exact known served (recvMetadataCheck behind (.idle known) served)) ∧
    ¬∀ behind, Exact known served (recvMetadataCheck behind (.idle known) served) := by
  obtain ⟨ended, always⟩ := poll_exact_iff known served (by decide) (by decide)
  refine ⟨fun behind ends => (ended behind ends).mpr ⟨fun i given found => ?_, by decide⟩,
    fun all => ?_⟩
  · obtain rfl | rfl | rfl | rfl | above : i = 0 ∨ i = 1 ∨ i = 2 ∨ i = 3 ∨ 4 ≤ i := by omega
    · cases found
      exact ⟨by decide, fun _ => iff_of_false (fun ⟨_, here, same⟩ => by
        cases here
        cases same) (by decide)⟩
    · cases found
      exact ⟨by decide, fun _ => iff_of_true ⟨_, rfl, rfl⟩ (by decide)⟩
    · cases found
      exact ⟨by decide, fun _ => iff_of_true ⟨_, rfl, rfl⟩ (by decide)⟩
    · cases found
      exact ⟨by decide, fun inside => absurd inside (by decide)⟩
    · cases (List.getElem?_eq_none above).symm.trans found
  · exact absurd (always.mp all 0 ⟨nameA, 1⟩ rfl).1 (by decide)

/-- The client has `b`, the server `a` and `b`, with a NUL behind every name: `b` is returned as
changed and has two nodes, and `a` is not noticed. -/
theorem poll_by_place :
    recvMetadataCheck (fun _ => [0]) (.idle [⟨nameB, 0⟩]) [⟨nameA, 0⟩, ⟨nameB, 0⟩] =
      some ⟨.idle [⟨nameB, 0⟩, ⟨nameB, 0⟩], [nameB]⟩ ∧
    ¬ Exact [⟨nameB, 0⟩] [⟨nameA, 0⟩, ⟨nameB, 0⟩]
      (recvMetadataCheck (fun _ => [0]) (.idle [⟨nameB, 0⟩]) [⟨nameA, 0⟩, ⟨nameB, 0⟩]) := by
  have polled : recvMetadataCheck (fun _ => [0]) (.idle [⟨nameB, 0⟩]) [⟨nameA, 0⟩, ⟨nameB, 0⟩] =
      some ⟨.idle [⟨nameB, 0⟩, ⟨nameB, 0⟩], [nameB]⟩ := by decide
  refine ⟨polled, ?_⟩
  rw [polled]
  rintro ⟨s, same, -, right, -, -⟩
  obtain rfl := Option.some.inj same
  have noticed := (right nameA).mpr ⟨⟨nameA, 0⟩, by decide, rfl, by decide⟩
  exact absurd noticed (by decide)

end SlabStudy.Dropbox
