import Mathlib.Data.List.Induction
import Mathlib.Data.List.Nodup
import SlabStudy.Dropbox.Metadata

/-!
# The versions of a put

`server_put` answers a put with the version that `find_version` returns before
`new_list` counts the put; `inotify_send` of the client records the answer.
-/

namespace SlabStudy.Dropbox

open Library

/-- `find_version`, which falls off its end for a name that is not in the list: what its caller
gets then is `garbage`. -/
def findVersion (garbage : Int) : List MetaData → CString → Int
  | [], _ => garbage
  | c :: list, name => if c.name = name then c.version else findVersion garbage list name

/-- `new_list` of the server: a known name gets its next version, a new one is appended. -/
def serverNewList : List MetaData → CString → List MetaData
  | [], name => [⟨name, 0⟩]
  | cur :: list, name =>
      if cur.name = name then { cur with version := cur.version + 1 } :: list
      else cur :: serverNewList list name

/-- `server_put`: the version it sends, and its list. -/
def serverPut (garbage : Int) (list : List MetaData) (name : CString) : Int × List MetaData :=
  (findVersion garbage list name, serverNewList list name)

/-- `update_version`. -/
def updateVersion : List MetaData → CString → Int → List MetaData
  | [], _, _ => []
  | c :: list, name, version =>
      if c.name = name then { c with version := version } :: list
      else c :: updateVersion list name version

/-- A call of `inotify_send`, with what `find_version` returns if it falls off its end. -/
structure Put where
  name : CString
  garbage : Int
  deriving DecidableEq

/-- The metadata lists of the two sides. -/
structure Sides where
  client : List MetaData
  server : List MetaData
  deriving DecidableEq

/-- The put of one file: what `server_put` does to the list once `put_file` has returned, and
`update_version` when the answer has come. -/
def inotifySend (s : Sides) (put : Put) : Sides :=
  let (version, server) := serverPut put.garbage s.server put.name
  ⟨updateVersion s.client put.name version, server⟩

def inotifySends (s : Sides) (puts : List Put) : Sides := puts.foldl inotifySend s

/-- The version of a name in a list. -/
def versionOf (list : List MetaData) (name : CString) : Option Int :=
  (list.find? (·.name = name)).map MetaData.version

/-- The list with a node for this name, as `list_find` is to leave it. -/
def withName (list : List MetaData) (name : CString) : List MetaData :=
  if name ∈ list.map MetaData.name then list else list ++ [⟨name, 0⟩]

/-- Every put is answered with the version the server has for the name after it; the client has
the versions of the server for all that it has put; and if it had the list of the server with the
files it puts in it, the next poll reports nothing. -/
structure Agree (s : Sides) (puts : List Put) : Prop where
  answers : ∀ before put after, puts = before ++ put :: after →
    versionOf (inotifySends s (before ++ [put])).server put.name =
      some (serverPut put.garbage (inotifySends s before).server put.name).1
  recorded : ∀ put ∈ puts, versionOf (inotifySends s puts).client put.name =
    versionOf (inotifySends s puts).server put.name
  quiet : s.client = puts.foldl (fun list put => withName list put.name) s.server → ∀ behind,
    (recvMetadataCheck behind (.idle (inotifySends s puts).client)
      (inotifySends s puts).server).map Poll.modified = some []

variable {list : List MetaData} {name other : CString} {version garbage : Int} {s : Sides}
  {puts : List Put} {put : Put}

theorem versionOf_cons (c : MetaData) : versionOf (c :: list) name =
    if c.name = name then some c.version else versionOf list name := by
  unfold versionOf
  by_cases same : c.name = name
  · rw [if_pos same, List.find?_cons_of_pos (by simpa using same)]
    rfl
  · rw [if_neg same, List.find?_cons_of_neg (by simpa using same)]

theorem findVersion_eq : findVersion garbage list name = (versionOf list name).getD garbage := by
  induction list with
  | nil => rfl
  | cons c list ih =>
      rw [findVersion, versionOf_cons, ih]
      split <;> rfl

theorem versionOf_eq_none : versionOf list name = none ↔ name ∉ list.map MetaData.name := by
  induction list with
  | nil => exact iff_of_true rfl List.not_mem_nil
  | cons c list ih =>
      rw [versionOf_cons, List.map_cons, List.mem_cons, not_or, eq_comm (a := name)]
      by_cases same : c.name = name
      · rw [if_pos same]
        exact iff_of_false nofun fun both => both.1 same
      · rw [if_neg same, ih]
        exact (and_iff_right same).symm

/-- What a put does to the versions. -/
theorem versionOf_serverNewList : versionOf (serverNewList list name) other =
    if other = name then some ((versionOf list name).elim 0 (· + 1)) else versionOf list other := by
  induction list with
  | nil =>
      rw [serverNewList, versionOf_cons]
      exact if_congr eq_comm rfl rfl
  | cons c list ih =>
      rw [serverNewList]
      by_cases same : c.name = name
      · rw [if_pos same, versionOf_cons, versionOf_cons, versionOf_cons]
        subst same
        by_cases mine : other = c.name
        · subst mine
          simp
        · simp [mine, Ne.symm mine]
      · rw [if_neg same, versionOf_cons, ih, versionOf_cons, versionOf_cons, if_neg same]
        by_cases mine : other = name
        · subst mine
          simp [same]
        · simp [mine]

theorem versionOf_updateVersion (has : name ∈ list.map MetaData.name) :
    versionOf (updateVersion list name version) other =
      if other = name then some version else versionOf list other := by
  induction list with
  | nil => cases has
  | cons c list ih =>
      rw [updateVersion]
      by_cases same : c.name = name
      · subst same
        rw [if_pos rfl, versionOf_cons, versionOf_cons]
        by_cases mine : other = c.name
        · subst mine
          simp
        · simp [mine, Ne.symm mine]
      · have later := (List.mem_cons.mp has).resolve_left (Ne.symm same)
        rw [if_neg same, versionOf_cons, ih later, versionOf_cons]
        by_cases mine : other = name
        · subst mine
          simp [same]
        · simp [mine]

/-- A put is answered rightly only if its name is a new one, and nothing falls out of
`find_version` for it. -/
theorem serverPut_answer_iff : versionOf (serverPut garbage list name).2 name =
      some (serverPut garbage list name).1 ↔
    name ∉ list.map MetaData.name ∧ garbage = 0 := by
  rw [serverPut, versionOf_serverNewList, if_pos rfl, findVersion_eq, ← versionOf_eq_none,
    Option.some_inj]
  cases versionOf list name with
  | none =>
      rw [and_iff_right rfl, eq_comm]
      rfl
  | some version =>
      refine iff_of_false (fun same => ?_) nofun
      change version + 1 = version at same
      omega

/-! ## Sequences of puts -/

theorem inotifySends_snoc (s : Sides) (puts : List Put) (put : Put) :
    inotifySends s (puts ++ [put]) = inotifySend (inotifySends s puts) put :=
  List.foldl_append

/-- The server knows what it knew and what has been put. -/
theorem notMem_server (s : Sides) (puts : List Put) (name : CString) :
    name ∉ (inotifySends s puts).server.map MetaData.name ↔
      name ∉ s.server.map MetaData.name ∧ name ∉ puts.map Put.name := by
  induction puts generalizing s with
  | nil => exact (and_iff_left List.not_mem_nil).symm
  | cons put puts ih =>
      refine (ih (inotifySend s put)).trans ?_
      rw [List.map_cons, List.mem_cons, not_or, ← and_assoc]
      refine and_congr_left fun _ => ?_
      rw [← versionOf_eq_none, ← versionOf_eq_none, inotifySend, serverPut, versionOf_serverNewList]
      by_cases mine : name = put.name
      · rw [if_pos mine]
        exact iff_of_false nofun fun both => both.2 mine
      · rw [if_neg mine]
        exact (and_iff_left mine).symm

/-- The names put are new ones, each put once, and nothing falls out of `find_version`. -/
def Fresh (server : List MetaData) (puts : List Put) : Prop :=
  (puts.map Put.name).Nodup ∧
    ∀ put ∈ puts, put.name ∉ server.map MetaData.name ∧ put.garbage = 0

theorem nodup_names (new : ∀ before put after, puts = before ++ put :: after →
    put.name ∉ before.map Put.name) : (puts.map Put.name).Nodup := by
  induction puts using List.reverseRecOn with
  | nil => exact List.nodup_nil
  | append_singleton puts put ih =>
      rw [List.map_append, List.nodup_append]
      refine ⟨ih fun before other after split => ?_, List.nodup_singleton _, ?_⟩
      · apply new before other (after ++ [put])
        rw [split, List.append_assoc, List.cons_append]
      · rintro name member _ last rfl
        obtain rfl := List.mem_singleton.mp last
        exact new puts put [] rfl member

theorem answers_iff : (∀ before put after, puts = before ++ put :: after →
      versionOf (inotifySends s (before ++ [put])).server put.name =
        some (serverPut put.garbage (inotifySends s before).server put.name).1) ↔
    Fresh s.server puts := by
  have each : ∀ before put, (versionOf (inotifySends s (before ++ [put])).server put.name =
      some (serverPut put.garbage (inotifySends s before).server put.name).1) ↔
      (put.name ∉ s.server.map MetaData.name ∧ put.name ∉ before.map Put.name) ∧
        put.garbage = 0 := by
    intro before put
    rw [inotifySends_snoc, ← notMem_server]
    exact serverPut_answer_iff
  constructor
  · intro answers
    constructor
    · exact nodup_names fun before put after split =>
        ((each before put).mp (answers before put after split)).1.2
    · intro put member
      obtain ⟨before, after, rfl⟩ := List.append_of_mem member
      obtain ⟨⟨fresh, -⟩, nothing⟩ := (each before put).mp (answers before put after rfl)
      exact ⟨fresh, nothing⟩
  · rintro ⟨nodup, fresh⟩ before put after rfl
    obtain ⟨new, nothing⟩ := fresh put (List.mem_append_right _ List.mem_cons_self)
    refine (each before put).mpr ⟨⟨new, fun member => ?_⟩, nothing⟩
    rw [List.map_append, List.map_cons, List.nodup_append] at nodup
    exact nodup.2.2 _ member _ List.mem_cons_self rfl

/-! ## Puts of new files -/

theorem serverNewList_new (new : name ∉ list.map MetaData.name) :
    serverNewList list name = list ++ [⟨name, 0⟩] := by
  induction list with
  | nil => rfl
  | cons c list ih =>
      obtain ⟨other, new⟩ := not_or.mp (List.mem_cons.not.mp new)
      rw [serverNewList, if_neg (Ne.symm other), ih new]
      rfl

/-- A version that is recorded already. -/
theorem updateVersion_same (recorded : versionOf list name = some version) :
    updateVersion list name version = list := by
  induction list with
  | nil => rfl
  | cons c list ih =>
      rw [versionOf_cons] at recorded
      rw [updateVersion]
      split at recorded
      · next same =>
        obtain rfl := Option.some.inj recorded
        exact if_pos same
      · next other => rw [if_neg other, ih recorded]

theorem versionOf_append (list list' : List MetaData) (name : CString) :
    versionOf (list ++ list') name = (versionOf list name).or (versionOf list' name) := by
  rw [versionOf, List.find?_append, Option.map_or]
  rfl

/-- A put of a new file. -/
theorem Fresh.send (fresh : Fresh s.server (put :: puts)) :
    inotifySend s put = ⟨updateVersion s.client put.name 0, s.server ++ [⟨put.name, 0⟩]⟩ ∧
      Fresh (s.server ++ [⟨put.name, 0⟩]) puts := by
  obtain ⟨nodup, fresh⟩ := fresh
  obtain ⟨different, nodup⟩ := List.nodup_cons.mp nodup
  obtain ⟨new, nothing⟩ := fresh put List.mem_cons_self
  constructor
  · rw [inotifySend, serverPut, findVersion_eq, versionOf_eq_none.mpr new, serverNewList_new new,
      nothing]
    rfl
  · refine ⟨nodup, fun other member => ?_⟩
    obtain ⟨unknown, zero⟩ := fresh other (List.mem_cons_of_mem _ member)
    refine ⟨?_, zero⟩
    rw [List.map_append, List.mem_append, not_or]
    refine ⟨unknown, fun same => different ?_⟩
    have same : other.name = put.name := List.mem_singleton.mp same
    exact same ▸ List.mem_map_of_mem member

theorem Fresh.server (fresh : Fresh s.server puts) :
    (inotifySends s puts).server = s.server ++ puts.map (⟨·.name, 0⟩) := by
  induction puts generalizing s with
  | nil => exact (List.append_nil _).symm
  | cons put puts ih =>
      obtain ⟨sent, rest⟩ := fresh.send
      rw [inotifySends, List.foldl_cons, sent]
      refine (ih (s := ⟨_, _⟩) rest).trans ?_
      rw [List.map_cons, List.append_assoc, List.singleton_append]

theorem Fresh.client (fresh : Fresh s.server puts)
    (found : ∀ put ∈ puts, put.name ∈ s.client.map MetaData.name) :
    versionOf (inotifySends s puts).client name =
      if name ∈ puts.map Put.name then some 0 else versionOf s.client name := by
  induction puts generalizing s with
  | nil => rfl
  | cons put puts ih =>
      obtain ⟨sent, rest⟩ := fresh.send
      obtain ⟨has, found⟩ := List.forall_mem_cons.mp found
      have first : ∀ name, versionOf (updateVersion s.client put.name 0) name =
          if name = put.name then some 0 else versionOf s.client name :=
        fun name => versionOf_updateVersion has
      rw [inotifySends, List.foldl_cons, sent]
      refine (ih (s := ⟨_, _⟩) rest fun other member => ?_).trans ?_
      · by_contra absent
        rw [← versionOf_eq_none, first] at absent
        split at absent
        · cases absent
        · exact versionOf_eq_none.mp absent (found other member)
      · rw [first, List.map_cons]
        by_cases later : name ∈ puts.map Put.name
        · rw [if_pos later, if_pos (List.mem_cons_of_mem _ later)]
        · rw [if_neg later]
          exact if_congr (by rw [List.mem_cons, or_iff_left later]) rfl rfl

/-- A client that has version 0 of every new file already. -/
theorem Fresh.client_same (fresh : Fresh s.server puts)
    (recorded : ∀ put ∈ puts, versionOf s.client put.name = some 0) :
    (inotifySends s puts).client = s.client := by
  induction puts generalizing s with
  | nil => rfl
  | cons put puts ih =>
      obtain ⟨sent, rest⟩ := fresh.send
      obtain ⟨zero, recorded⟩ := List.forall_mem_cons.mp recorded
      rw [inotifySends, List.foldl_cons, sent, updateVersion_same zero]
      exact ih (s := ⟨_, _⟩) rest recorded

theorem Fresh.withNames (fresh : Fresh s.server puts) :
    puts.foldl (fun list put => withName list put.name) s.server =
      s.server ++ puts.map (⟨·.name, 0⟩) := by
  induction puts generalizing s with
  | nil => exact (List.append_nil _).symm
  | cons put puts ih =>
      obtain ⟨-, rest⟩ := fresh.send
      rw [List.foldl_cons, withName, if_neg (fresh.2 put List.mem_cons_self).1]
      refine (ih (s := ⟨[], _⟩) rest).trans ?_
      rw [List.map_cons, List.append_assoc, List.singleton_append]

/-- The server answers version 0 to every one of them. -/
theorem Fresh.versionOf_server (fresh : Fresh s.server puts) (member : put ∈ puts) :
    versionOf (s.server ++ puts.map (⟨·.name, 0⟩)) put.name = some 0 := by
  have first : ∀ puts : List Put, put ∈ puts →
      versionOf (puts.map (⟨·.name, 0⟩)) put.name = some 0 := by
    intro puts member
    induction puts with
    | nil => cases member
    | cons other puts ih =>
        rw [List.map_cons, versionOf_cons]
        split
        · rfl
        · next differs =>
          refine ih ((List.mem_cons.mp member).resolve_left ?_)
          rintro rfl
          exact differs rfl
  rw [versionOf_append, versionOf_eq_none.mpr (fresh.2 put member).1, first puts member]
  rfl

/-- A list against itself. -/
theorem UpToDate.refl (list : List MetaData) : UpToDate list list :=
  fun _ given found => ⟨List.mem_of_getElem? found, given, found, rfl⟩

/-- The two sides agree about what the client puts, if `list_find` has been there, exactly where
all of it is new to the server, no name comes twice and `find_version` happens to leave 0. -/
theorem versions_agree_iff (s : Sides) (puts : List Put)
    (found : ∀ put ∈ puts, put.name ∈ s.client.map MetaData.name) :
    Agree s puts ↔ Fresh s.server puts := by
  constructor
  · exact fun agree => answers_iff.mp agree.answers
  · intro fresh
    refine ⟨answers_iff.mpr fresh, fun put member => ?_, fun same behind => ?_⟩
    · rw [fresh.client found, fresh.server, fresh.versionOf_server member,
        if_pos (List.mem_map_of_mem member)]
    · rw [fresh.withNames] at same
      have recorded : ∀ put ∈ puts, versionOf s.client put.name = some 0 := by
        intro put member
        rw [same]
        exact fresh.versionOf_server member
      rw [fresh.client_same recorded, fresh.server, same, recvMetadataCheck_eq,
        (UpToDate.refl _).marked behind]
      rfl

theorem versions_agree_iff_one_file :
    Agree ⟨[⟨nameA, 0⟩, ⟨nameB, 0⟩], [⟨nameA, 0⟩]⟩ [⟨nameB, 0⟩] ↔
      Fresh [⟨nameA, 0⟩] [⟨nameB, 0⟩] :=
  versions_agree_iff ⟨[⟨nameA, 0⟩, ⟨nameB, 0⟩], [⟨nameA, 0⟩]⟩ [⟨nameB, 0⟩] (by decide)

/-- The server has version 0 of `a`: the put of a changed `a` is answered with 0, and counted. -/
theorem put_answered_too_early :
    inotifySend ⟨[⟨nameA, 0⟩], [⟨nameA, 0⟩]⟩ ⟨nameA, 0⟩ = ⟨[⟨nameA, 0⟩], [⟨nameA, 1⟩]⟩ ∧
    ¬ Agree ⟨[⟨nameA, 0⟩], [⟨nameA, 0⟩]⟩ [⟨nameA, 0⟩] := by
  refine ⟨by decide, fun agree => ?_⟩
  have recorded := agree.recorded ⟨nameA, 0⟩ List.mem_cons_self
  revert recorded
  decide

end SlabStudy.Dropbox
