import Mathlib.Data.List.Induction
import SlabStudy.Library.Doubly

/-!
# The socket list of the chat server

`newSocket`, `echoAll` and `delete_socket` over a heap of nodes.  What `malloc`
returns is not initialised, a freed node is gone, and reading through a pointer
that leads to no node is undefined.
-/

namespace SlabStudy.Chat

open Library

/-- `struct socket_list`: its `value` is `conn`. -/
abbrev Socket := Cell Nat Nat

/-- A block that `malloc` returns, with what stands in its links. -/
structure Block where
  address : Nat
  prev : Option Nat
  next : Option Nat
  deriving DecidableEq

structure Server where
  front : Option Nat
  theNumberOf : Int
  heap : Nat → Option Socket
  /-- How many blocks `malloc` has returned: a walk through more nodes goes in a circle. -/
  blocks : Nat

def Server.start : Server := ⟨none, 0, fun _ => none, 0⟩

/-- The loop of `newSocket` from `cur` on. -/
def lastNode (heap : Nat → Option Socket) : Nat → Nat → Option Nat
  | 0, _ => none
  | fuel + 1, cur =>
      match heap cur with
      | none => none
      | some node =>
          match node.next with
          | none => some cur
          | some next => lastNode heap fuel next

/-- `newSocket`; `none` where it is undefined or does not return. -/
def newSocket (s : Server) (c : Nat) (block : Option Block) : Option Server := do
  let new ← block
  let heap := Function.update s.heap new.address (some ⟨new.prev, c, new.next⟩)
  let blocks := s.blocks + 1
  if s.theNumberOf = 0 then
    some ⟨some new.address, s.theNumberOf + 1, heap, blocks⟩
  else
    let front ← s.front
    let cur ← lastNode heap blocks front
    let node ← heap cur
    let heap := Function.update heap cur (some { node with next := some new.address })
    let node ← heap new.address
    let heap := Function.update heap new.address (some { node with prev := some cur })
    some ⟨s.front, s.theNumberOf + 1, heap, blocks⟩

/-- The loop of `echoAll`: the sockets it sends to. -/
def echoFrom (heap : Nat → Option Socket) : Nat → Option Nat → Option (List Nat)
  | _, none => some []
  | 0, some _ => none
  | fuel + 1, some cur => do
      let node ← heap cur
      let rest ← echoFrom heap fuel node.next
      some (node.value :: rest)

def echoAll (s : Server) : Option (List Nat) := echoFrom s.heap s.blocks s.front

/-- The loop of `delete_socket` up to the node of `dead`, or to NULL. -/
def findSocket (heap : Nat → Option Socket) (dead : Nat) : Nat → Option Nat → Option (Option Nat)
  | _, none => some none
  | 0, some _ => none
  | fuel + 1, some cur => do
      let node ← heap cur
      if node.value = dead then some (some cur) else findSocket heap dead fuel node.next

/-- Take the node `cur` out of the links: at the front, at the end, or in the middle. -/
def unlink (s : Server) (cur : Nat) : Option Server := do
  let node ← s.heap cur
  if s.front = some cur then
    match node.next with
    | none => some s
    | some next =>
        let after ← s.heap next
        some { s with
          front := some next
          heap := Function.update s.heap next (some { after with prev := none }) }
  else
    match node.next with
    | none =>
        let prev ← node.prev
        let before ← s.heap prev
        some { s with heap := Function.update s.heap prev (some { before with next := none }) }
    | some next =>
        let prev ← node.prev
        let before ← s.heap prev
        let heap := Function.update s.heap prev (some { before with next := some next })
        -- `cur->next->prev = cur->prev` reads `cur` again
        let node ← heap cur
        let next ← node.next
        let after ← heap next
        some { s with heap := Function.update heap next (some { after with prev := node.prev }) }

/-- `delete_socket`. -/
def deleteSocket (s : Server) (dead : Nat) : Option Server := do
  match ← findSocket s.heap dead s.blocks s.front with
  | none => some s
  | some cur =>
      let s ← unlink s cur
      some { s with
        heap := Function.update s.heap cur none
        theNumberOf := s.theNumberOf - 1 }

inductive Call where
  | newSocket (c : Nat) (block : Option Block)
  | deleteSocket (dead : Nat)
  deriving DecidableEq

def Server.step (s : Server) : Call → Option Server
  | .newSocket c block => newSocket s c block
  | .deleteSocket dead => deleteSocket s dead

/-- The state after these calls; `none` where one of them is undefined or does not return. -/
def Server.run (calls : List Call) : Option Server := calls.foldlM Server.step Server.start

/-! ## The connected sockets -/

/-- The sockets after a call: a new one is the last, a dead one is gone. -/
def connect (sockets : List Nat) : Call → List Nat
  | .newSocket c _ => sockets ++ [c]
  | .deleteSocket dead => sockets.erase dead

/-- The sockets added and not yet deleted, in order of insertion. -/
def connected (calls : List Call) : List Nat := calls.foldl connect []

/-- The list is the connected sockets: linked in both directions from `front` to NULL through
allocated nodes, counted by `theNumberOf`, and what `echoAll` sends to. -/
structure Mirrors (s : Server) (sockets : List Nat) : Prop where
  listed : ∃ nodes, Doubly s.heap s.front nodes ∧ nodes.map Prod.snd = sockets
  counted : s.theNumberOf = sockets.length
  echoed : echoAll s = some sockets

/-! ## The loops -/

variable {heap : Nat → Option Socket} {last prev cur : Option Nat} {nodes : List (Nat × Nat)}
  {fuel a dead : Nat}

theorem lastNode_eq (segment : Segment heap last none prev (some a) nodes)
    (enough : nodes.length ≤ fuel) : lastNode heap fuel a = last := by
  induction nodes generalizing fuel prev a with
  | nil => cases segment.2
  | cons node nodes ih =>
      obtain ⟨here, next, found, rest⟩ := segment
      obtain rfl := Option.some.inj here
      obtain ⟨fuel, rfl⟩ := Nat.exists_eq_add_of_lt enough
      rw [lastNode, found]
      cases next with
      | none =>
          cases nodes with
          | nil => exact rest.1
          | cons second nodes => cases rest.1
      | some next => exact ih rest (by omega)

theorem echoFrom_eq (segment : Segment heap last none prev cur nodes)
    (enough : nodes.length ≤ fuel) : echoFrom heap fuel cur = some (nodes.map Prod.snd) := by
  induction nodes generalizing fuel prev cur with
  | nil =>
      cases segment.2
      cases fuel <;> rfl
  | cons node nodes ih =>
      obtain ⟨rfl, next, found, rest⟩ := segment
      obtain ⟨fuel, rfl⟩ := Nat.exists_eq_add_of_lt enough
      rw [echoFrom, found, Option.bind_eq_bind, Option.bind_some, ih rest (by omega)]
      rfl

theorem findSocket_eq (dead fuel : Nat) (segment : Segment heap last none prev cur nodes)
    (enough : nodes.length ≤ fuel) :
    findSocket heap dead fuel cur = some ((nodes.find? (·.2 = dead)).map Prod.fst) := by
  induction nodes generalizing fuel prev cur with
  | nil =>
      cases segment.2
      cases fuel <;> rfl
  | cons node nodes ih =>
      obtain ⟨rfl, next, found, rest⟩ := segment
      obtain ⟨fuel, rfl⟩ := Nat.exists_eq_add_of_lt enough
      rw [findSocket, found, Option.bind_eq_bind, Option.bind_some]
      by_cases same : node.2 = dead
      · rw [if_pos same, List.find?_cons, decide_eq_true same]
        rfl
      · rw [if_neg same, List.find?_cons, decide_eq_false same]
        exact ih _ rest (by omega)

/-! ## One call -/

variable {s s' : Server} {c : Nat} {new : Block} {sockets : List Nat} {call : Call}

/-- There are no more nodes than blocks. -/
theorem mirrors_of_listed (doubly : Doubly s.heap s.front nodes)
    (values : nodes.map Prod.snd = sockets) (counted : s.theNumberOf = sockets.length)
    (bounded : s.theNumberOf ≤ s.blocks) : Mirrors s sockets := by
  refine ⟨⟨nodes, doubly, values⟩, counted, ?_⟩
  obtain ⟨-, last, segment⟩ := doubly
  have size := congrArg List.length values
  rw [List.length_map] at size
  rw [echoAll, echoFrom_eq segment (by omega), values]

/-- The first socket: its node keeps what `malloc` left in both links. -/
theorem newSocket_first (c : Nat) (new : Block) (empty : s.theNumberOf = 0) : ∃ s',
    newSocket s c (some new) = some s' ∧ s'.theNumberOf = s.theNumberOf + 1 ∧
    s'.blocks = s.blocks + 1 ∧
    Segment s'.heap (some new.address) new.next new.prev s'.front [(new.address, c)] := by
  refine ⟨⟨some new.address, s.theNumberOf + 1,
    Function.update s.heap new.address (some ⟨new.prev, c, new.next⟩), s.blocks + 1⟩, ?_, rfl, rfl,
    rfl, new.next, Function.update_self .., rfl, rfl⟩
  rw [newSocket, Option.bind_eq_bind, Option.bind_some, if_pos empty]

/-- A later socket: its node is linked to the last one, and keeps what `malloc` left in `next`. -/
theorem newSocket_later (doubly : Doubly s.heap s.front nodes) (filled : nodes ≠ [])
    (nonzero : s.theNumberOf ≠ 0) (enough : nodes.length ≤ s.blocks)
    (fresh : s.heap new.address = none) : ∃ s',
    newSocket s c (some new) = some s' ∧ s'.theNumberOf = s.theNumberOf + 1 ∧
    s'.blocks = s.blocks + 1 ∧
    Segment s'.heap (some new.address) new.next none s'.front (nodes ++ [(new.address, c)]) ∧
    ((nodes ++ [(new.address, c)]).map Prod.fst).Nodup := by
  obtain ⟨nodup, last, segment⟩ := doubly
  have other : new.address ∉ nodes.map Prod.fst := by
    intro member
    obtain ⟨node, inside, same⟩ := List.mem_map.mp member
    obtain ⟨cell, found, -⟩ := segment.alive node inside
    rw [same, fresh] at found
    cases found
  obtain ⟨init, ⟨b, d⟩, rfl⟩ := (List.eq_nil_or_concat nodes).resolve_left filled
  rw [List.concat_eq_append] at *
  have apart : new.address ≠ b := by
    rintro rfl
    exact other (List.mem_map_of_mem (List.mem_append_right _ List.mem_cons_self))
  have begun := segment.update_other (some ⟨new.prev, c, new.next⟩) other
  obtain ⟨cell, found, -⟩ := begun.alive (b, d) (List.mem_append_right _ List.mem_cons_self)
  obtain ⟨rfl, -, linked⟩ := begun.turn_next nodup found (some new.address)
  obtain ⟨first, entered⟩ : ∃ first, s.front = some first := by
    rw [segment.front_eq]
    cases init with
    | nil => exact ⟨b, rfl⟩
    | cons node init => exact ⟨node.1, rfl⟩
  have walked := lastNode_eq (entered ▸ begun) (Nat.le_succ_of_le enough)
  have whole := linked.update_other (some ⟨some b, c, new.next⟩) other
  refine ⟨⟨s.front, s.theNumberOf + 1, Function.update (Function.update (Function.update s.heap
      new.address (some ⟨new.prev, c, new.next⟩)) b (some { cell with next := some new.address }))
      new.address (some ⟨some b, c, new.next⟩), s.blocks + 1⟩, ?_, rfl, rfl,
    Segment.append.mpr ⟨some b, some new.address, whole, rfl, new.next,
      Function.update_self .., rfl, rfl⟩, ?_⟩
  · rw [newSocket]
    simp only [Option.bind_eq_bind, Option.bind_some, if_neg nonzero, entered, walked, found,
      Function.update_of_ne apart, Function.update_self]
  · rw [List.map_append, List.nodup_append]
    refine ⟨nodup, List.nodup_singleton _, fun a member a' member' same => other ?_⟩
    have here : a = new.address := same.trans (List.mem_singleton.mp member')
    exact here ▸ member

/-- At the front. -/
theorem unlink_front {node : Nat × Nat} {behind : List (Nat × Nat)}
    (doubly : Doubly s.heap s.front ((a, dead) :: node :: behind)) : ∃ s' last,
    unlink s a = some s' ∧ s'.theNumberOf = s.theNumberOf ∧ s'.blocks = s.blocks ∧
    Segment s'.heap last none none s'.front (node :: behind) := by
  obtain ⟨nodup, last, entered, next, found, segment⟩ := doubly
  obtain ⟨-, rest⟩ := List.nodup_cons.mp nodup
  obtain ⟨after, follows, -⟩ := segment.alive node List.mem_cons_self
  obtain ⟨rfl, -, turned⟩ := segment.turn_prev rest follows none
  refine ⟨{ s with
    front := some node.1
    heap := Function.update s.heap node.1 (some { after with prev := none }) }, last, ?_, rfl, rfl,
    turned⟩
  rw [unlink, found, Option.bind_eq_bind, Option.bind_some, if_pos entered]
  simp only [follows, Option.bind_some]

/-- At the end, behind a node `b`. -/
theorem unlink_last {b d : Nat} {before : List (Nat × Nat)}
    (doubly : Doubly s.heap s.front (before ++ [(b, d)] ++ [(a, dead)])) : ∃ s' last,
    unlink s a = some s' ∧ s'.theNumberOf = s.theNumberOf ∧ s'.blocks = s.blocks ∧
    Segment s'.heap last none none s'.front (before ++ [(b, d)]) := by
  have entered := doubly.front_ne (List.append_ne_nil_of_right_ne_nil _ (List.cons_ne_nil _ _))
  obtain ⟨prev, next, last, left, found, right, nodup, -, -⟩ := doubly.around
  rw [List.append_nil] at nodup
  obtain ⟨cell, follows, -⟩ := left.alive (b, d) (List.mem_append_right _ List.mem_cons_self)
  obtain ⟨rfl, -, turned⟩ := left.turn_next nodup follows none
  cases right.2
  refine ⟨{ s with heap := Function.update s.heap b (some { cell with next := none }) }, some b, ?_,
    rfl, rfl, turned⟩
  rw [unlink, found, Option.bind_eq_bind, Option.bind_some, if_neg entered]
  simp only [follows, Option.bind_eq_bind, Option.bind_some]

/-- In the middle, between `b` and another node. -/
theorem unlink_middle {b d : Nat} {node : Nat × Nat} {before behind : List (Nat × Nat)}
    (doubly : Doubly s.heap s.front (before ++ [(b, d)] ++ (a, dead) :: node :: behind)) :
    ∃ s' last,
    unlink s a = some s' ∧ s'.theNumberOf = s.theNumberOf ∧ s'.blocks = s.blocks ∧
    Segment s'.heap last none none s'.front (before ++ [(b, d)] ++ node :: behind) := by
  have entered := doubly.front_ne (List.append_ne_nil_of_right_ne_nil _ (List.cons_ne_nil _ _))
  obtain ⟨prev, next, last, left, found, right, nodup, aBefore, -⟩ := doubly.around
  rw [List.map_append, List.nodup_append] at nodup
  obtain ⟨leftNodup, rightNodup, apart⟩ := nodup
  have bMember : (b, d) ∈ before ++ [(b, d)] := List.mem_append_right _ List.mem_cons_self
  have bAddress : b ∈ (before ++ [(b, d)]).map Prod.fst := List.mem_map.mpr ⟨_, bMember, rfl⟩
  have aOther : a ≠ b := by
    rintro rfl
    exact aBefore bAddress
  have bBehind : b ∉ (node :: behind).map Prod.fst := fun member => apart b bAddress b member rfl
  have nodeBefore : node.1 ∉ (before ++ [(b, d)]).map Prod.fst :=
    fun member => apart node.1 member node.1 List.mem_cons_self rfl
  -- `cur->prev->next = cur->next`
  obtain ⟨cell, follows, -⟩ := left.alive (b, d) bMember
  obtain ⟨rfl, -, forth⟩ := left.turn_next leftNodup follows next
  -- `cur->next->prev = cur->prev`
  have kept := right.update_other (some { cell with next := next }) bBehind
  obtain ⟨after, follows', -⟩ := kept.alive node List.mem_cons_self
  obtain ⟨rfl, -, back⟩ := kept.turn_prev rightNodup follows' (some b)
  refine ⟨{ s with heap := Function.update (Function.update s.heap b
      (some { cell with next := some node.1 })) node.1 (some { after with prev := some b }) },
    last, ?_, rfl, rfl, Segment.append.mpr ⟨some b, some node.1,
      forth.update_other (some { after with prev := some b }) nodeBefore, back⟩⟩
  rw [unlink, found, Option.bind_eq_bind, Option.bind_some, if_neg entered]
  simp only [follows, Option.bind_eq_bind, Option.bind_some, Function.update_of_ne aOther, found,
    follows']

/-- The pointers of a list that is not `[a]` alone lead past `a` once it is unlinked. -/
theorem unlink_eq {before behind : List (Nat × Nat)}
    (doubly : Doubly s.heap s.front (before ++ (a, dead) :: behind))
    (others : before ++ behind ≠ []) : ∃ s' last,
    unlink s a = some s' ∧ s'.theNumberOf = s.theNumberOf ∧ s'.blocks = s.blocks ∧
    Segment s'.heap last none none s'.front (before ++ behind) := by
  obtain rfl | ⟨before, ⟨b, d⟩, rfl⟩ := List.eq_nil_or_concat before
  · cases behind with
    | nil => exact absurd rfl others
    | cons node behind => exact unlink_front doubly
  · rw [List.concat_eq_append] at *
    cases behind with
    | nil =>
        rw [List.append_nil]
        exact unlink_last doubly
    | cons node behind => exact unlink_middle doubly

/-! ## The calls that keep the list -/

/-- What a call needs: `malloc` returns a block with NULL in `next`, and in `prev` when there is
no socket; the only socket is not deleted. -/
def Fine (sockets : List Nat) : Call → Prop
  | .newSocket _ block =>
      ∃ new, block = some new ∧ new.next = none ∧ (sockets = [] → new.prev = none)
  | .deleteSocket dead => sockets ≠ [dead]

theorem newSocket_mirrors (mirrors : Mirrors s sockets) (bounded : s.theNumberOf ≤ s.blocks)
    (fresh : s.heap new.address = none) :
    (∃ s', newSocket s c (some new) = some s' ∧ Mirrors s' (sockets ++ [c])) ↔
      new.next = none ∧ (sockets = [] → new.prev = none) := by
  obtain ⟨⟨nodes, doubly, rfl⟩, counted, -⟩ := mirrors
  obtain ⟨s', called, number, blocks, segment, nodup⟩ : ∃ s', newSocket s c (some new) = some s' ∧
      s'.theNumberOf = s.theNumberOf + 1 ∧ s'.blocks = s.blocks + 1 ∧
      Segment s'.heap (some new.address) new.next (if nodes = [] then new.prev else none) s'.front
        (nodes ++ [(new.address, c)]) ∧ ((nodes ++ [(new.address, c)]).map Prod.fst).Nodup := by
    rw [List.length_map] at counted
    cases nodes with
    | nil =>
        obtain ⟨s', called, number, blocks, segment⟩ := newSocket_first c new counted
        exact ⟨s', called, number, blocks, segment, List.nodup_singleton _⟩
    | cons node nodes =>
        exact newSocket_later doubly (List.cons_ne_nil _ _) (by rw [counted]; exact nofun)
          (by omega) fresh
  have filled : nodes ++ [(new.address, c)] ≠ [] :=
    List.append_ne_nil_of_right_ne_nil _ (List.cons_ne_nil _ _)
  rw [List.map_eq_nil_iff]
  constructor
  · rintro ⟨other, same, ⟨nodes', ⟨-, last, segment'⟩, values⟩, -, -⟩
    cases Option.some.inj (called.symm.trans same)
    have size := congrArg List.length values
    rw [List.length_append, List.length_map, List.length_map] at size
    have ends := segment.unique segment' (by rw [List.length_append]; exact size) filled
    refine ⟨ends.2.symm, fun none => ?_⟩
    rw [if_pos none] at ends
    exact ends.1.symm
  · rintro ⟨next, prev⟩
    have back : (if nodes = [] then new.prev else none) = none := by
      split
      · exact prev ‹_›
      · rfl
    rw [next, back] at segment
    refine ⟨s', called, mirrors_of_listed ⟨nodup, _, segment⟩ (List.map_append ..) ?_ (by omega)⟩
    rw [number, counted, List.length_append]
    rfl

/-- The node that `delete_socket` finds is the first one of the socket. -/
theorem findSocket_mem (fuel : Nat) (segment : Segment heap last none prev cur nodes)
    (enough : nodes.length ≤ fuel) (member : dead ∈ nodes.map Prod.snd) :
    ∃ before a behind, nodes = before ++ (a, dead) :: behind ∧
      (nodes.map Prod.snd).erase dead = (before ++ behind).map Prod.snd ∧
      findSocket heap dead fuel cur = some (some a) := by
  obtain ⟨values, _, same, other⟩ := List.eq_append_cons_of_mem member
  obtain ⟨before, _, rfl, rfl, rest⟩ := List.map_eq_append_iff.mp same
  obtain ⟨⟨a, value⟩, behind, rfl, here, rfl⟩ := List.map_eq_cons_iff.mp rest
  obtain rfl : dead = value := here.symm
  refine ⟨before, a, behind, rfl, ?_, ?_⟩
  · rw [same, List.erase_append_right _ other, List.erase_cons_head, List.map_append]
  · have none : before.find? (·.2 = dead) = none := by
      refine List.find?_eq_none.mpr fun node inside here => other ?_
      exact List.mem_map.mpr ⟨node, inside, of_decide_eq_true here⟩
    rw [findSocket_eq dead fuel segment enough, List.find?_append, none, Option.none_or, List.find?_cons,
      decide_eq_true rfl]
    rfl

/-- The only socket: `front` still leads to its node, which is freed. -/
theorem deleteSocket_only (doubly : Doubly s.heap s.front [(a, dead)])
    (found : findSocket s.heap dead s.blocks s.front = some (some a))
    (deleted : deleteSocket s dead = some s') : ¬ Mirrors s' [] := by
  obtain ⟨-, last, entered, next, here, -, rfl⟩ := doubly
  have unlinked : unlink s a = some s := by
    rw [unlink, here, Option.bind_eq_bind, Option.bind_some, if_pos entered]
  rw [deleteSocket, found, Option.bind_eq_bind, Option.bind_some] at deleted
  dsimp only at deleted
  rw [unlinked] at deleted
  obtain rfl := Option.some.inj deleted
  rintro ⟨⟨nodes, ⟨-, last, segment⟩, values⟩, -, -⟩
  obtain rfl := List.map_eq_nil_iff.mp values
  exact nomatch entered.symm.trans segment.2

theorem deleteSocket_mirrors (mirrors : Mirrors s sockets) (bounded : s.theNumberOf ≤ s.blocks) :
    (∃ s', deleteSocket s dead = some s' ∧ Mirrors s' (sockets.erase dead)) ↔ sockets ≠ [dead] := by
  obtain ⟨⟨nodes, doubly, rfl⟩, counted, echoed⟩ := mirrors
  have size := counted
  rw [List.length_map] at size
  obtain ⟨-, last, segment⟩ := id doubly
  by_cases member : dead ∈ nodes.map Prod.snd
  · obtain ⟨before, a, behind, rfl, erased, found⟩ :=
      findSocket_mem s.blocks segment (by omega) member
    rw [erased]
    by_cases others : before ++ behind = []
    · obtain ⟨rfl, rfl⟩ := List.append_eq_nil_iff.mp others
      refine iff_of_false ?_ fun different => different rfl
      rintro ⟨s', deleted, mirrors⟩
      exact deleteSocket_only doubly found deleted mirrors
    · obtain ⟨s', last', unlinked, number, blocks, segment'⟩ := unlink_eq doubly others
      obtain ⟨-, -, -, -, -, -, nodup, aBefore, aBehind⟩ := doubly.around
      have gone : a ∉ (before ++ behind).map Prod.fst := by
        rw [List.map_append, List.mem_append]
        exact not_or.mpr ⟨aBefore, aBehind⟩
      rw [List.length_append, List.length_cons] at size
      have left : (before ++ behind).length = before.length + behind.length := List.length_append
      refine iff_of_true ⟨{ s' with
          heap := Function.update s'.heap a none
          theNumberOf := s'.theNumberOf - 1 }, ?_,
        mirrors_of_listed ⟨nodup, last', segment'.update_other none gone⟩ rfl ?_ ?_⟩ ?_
      · rw [deleteSocket, found, Option.bind_eq_bind, Option.bind_some]
        dsimp only
        rw [unlinked]
        rfl
      · change s'.theNumberOf - 1 = _
        rw [List.length_map, number]
        omega
      · change s'.theNumberOf - 1 ≤ _
        rw [number, blocks]
        omega
      · intro only
        refine others (List.length_eq_zero_iff.mp ?_)
        have one := congrArg List.length only
        rw [List.length_map, List.length_append, List.length_cons, List.length_singleton] at one
        omega
  · have none : nodes.find? (·.2 = dead) = none := by
      refine List.find?_eq_none.mpr fun node inside here => member ?_
      exact List.mem_map.mpr ⟨node, inside, of_decide_eq_true here⟩
    have found := findSocket_eq dead s.blocks segment (by omega)
    rw [none] at found
    rw [List.erase_of_not_mem member]
    refine iff_of_true ⟨s, ?_, ⟨⟨nodes, doubly, rfl⟩, counted, echoed⟩⟩ ?_
    · rw [deleteSocket, found]
      rfl
    · rintro only
      exact member (only ▸ List.mem_cons_self)

theorem step_mirrors (mirrors : Mirrors s sockets) (bounded : s.theNumberOf ≤ s.blocks)
    (fresh : ∀ c new, call = .newSocket c (some new) → s.heap new.address = none) :
    (∃ s', s.step call = some s' ∧ Mirrors s' (connect sockets call)) ↔ Fine sockets call := by
  cases call with
  | newSocket c block =>
      cases block with
      | none =>
          exact iff_of_false (fun ⟨_, called, _⟩ => nomatch called) fun ⟨_, got, _⟩ => nomatch got
      | some new =>
          refine (newSocket_mirrors mirrors bounded (fresh c new rfl)).trans ?_
          exact ⟨fun fine => ⟨new, rfl, fine⟩, fun ⟨_, same, fine⟩ => Option.some.inj same ▸ fine⟩
  | deleteSocket dead => exact deleteSocket_mirrors mirrors bounded

/-! ## All calls -/

theorem newSocket_counts {block : Option Block} (called : newSocket s c block = some s') :
    s'.theNumberOf = s.theNumberOf + 1 ∧ s'.blocks = s.blocks + 1 := by
  unfold newSocket at called
  simp only [Option.bind_eq_bind, Option.bind_eq_some_iff] at called
  obtain ⟨new, -, called⟩ := called
  split at called
  · cases called
    exact ⟨rfl, rfl⟩
  · simp only [Option.bind_eq_some_iff] at called
    obtain ⟨front, -, cur, -, node, -, node', -, called⟩ := called
    cases called
    exact ⟨rfl, rfl⟩

theorem unlink_counts (unlinked : unlink s a = some s') :
    s'.theNumberOf = s.theNumberOf ∧ s'.blocks = s.blocks := by
  unfold unlink at unlinked
  simp only [Option.bind_eq_bind, Option.bind_eq_some_iff] at unlinked
  obtain ⟨node, -, unlinked⟩ := unlinked
  split at unlinked
  · split at unlinked
    · cases unlinked
      exact ⟨rfl, rfl⟩
    · obtain ⟨after, -, unlinked⟩ := Option.bind_eq_some_iff.mp unlinked
      cases unlinked
      exact ⟨rfl, rfl⟩
  · split at unlinked
    · simp only [Option.bind_eq_some_iff] at unlinked
      obtain ⟨prev, -, before, -, unlinked⟩ := unlinked
      cases unlinked
      exact ⟨rfl, rfl⟩
    · simp only [Option.bind_eq_some_iff] at unlinked
      obtain ⟨prev, -, before, -, node', -, next', -, after, -, unlinked⟩ := unlinked
      cases unlinked
      exact ⟨rfl, rfl⟩

/-- A call never counts more sockets than blocks. -/
theorem step_bounded (stepped : s.step call = some s') (bounded : s.theNumberOf ≤ s.blocks) :
    s'.theNumberOf ≤ s'.blocks := by
  cases call with
  | newSocket c block =>
      obtain ⟨number, blocks⟩ := newSocket_counts stepped
      omega
  | deleteSocket dead =>
      obtain ⟨found, -, stepped⟩ := Option.bind_eq_some_iff.mp stepped
      cases found with
      | none =>
          cases stepped
          exact bounded
      | some cur =>
          obtain ⟨middle, unlinked, stepped⟩ := Option.bind_eq_some_iff.mp stepped
          cases stepped
          obtain ⟨number, blocks⟩ := unlink_counts unlinked
          change middle.theNumberOf - 1 ≤ middle.blocks
          omega

theorem run_snoc (calls : List Call) (call : Call) :
    Server.run (calls ++ [call]) = (Server.run calls).bind fun s => s.step call := by
  rw [Server.run, List.foldlM_append]
  refine congrArg _ (funext fun s => ?_)
  rw [List.foldlM_cons]
  exact Option.bind_fun_some _

theorem run_bounded {calls : List Call} (ran : Server.run calls = some s) :
    s.theNumberOf ≤ s.blocks := by
  induction calls using List.reverseRec generalizing s with
  | nil =>
      cases ran
      exact Int.le_refl 0
  | append_singleton calls call ih =>
      rw [run_snoc] at ran
      obtain ⟨middle, ran, stepped⟩ := Option.bind_eq_some_iff.mp ran
      exact step_bounded stepped (ih ran)

theorem connected_snoc (calls : List Call) (call : Call) :
    connected (calls ++ [call]) = connect (connected calls) call :=
  List.foldl_append

/-- The list mirrors the connected sockets after each call of a sequence exactly when each call is
fine.  A block that `malloc` returns is not one of the nodes. -/
theorem chat_mirrors_iff (calls : List Call)
    (allocated : ∀ before c new s, before ++ [.newSocket c (some new)] <+: calls →
      Server.run before = some s → s.heap new.address = none) :
    (∀ before, before <+: calls → ∃ s, Server.run before = some s ∧ Mirrors s (connected before)) ↔
      ∀ before call, before ++ [call] <+: calls → Fine (connected before) call := by
  induction calls using List.reverseRec with
  | nil =>
      refine iff_of_true ?_ ?_
      · intro before front
        obtain rfl := List.prefix_nil.mp front
        exact ⟨Server.start, rfl, ⟨[], ⟨List.nodup_nil, none, rfl, rfl⟩, rfl⟩, rfl, rfl⟩
      · intro before call front
        exact absurd (List.prefix_nil.mp front) (List.append_ne_nil_of_right_ne_nil _ nofun)
  | append_singleton calls call ih =>
      have earlier := ih fun before c new s front => allocated before c new s
        (front.trans (List.prefix_append _ _))
      have step : ∀ s, Server.run calls = some s → Mirrors s (connected calls) →
          ((∃ s', Server.run (calls ++ [call]) = some s' ∧
            Mirrors s' (connected (calls ++ [call]))) ↔ Fine (connected calls) call) := by
        intro s ran mirrors
        rw [run_snoc, ran, connected_snoc]
        refine step_mirrors mirrors (run_bounded ran) fun c new same => ?_
        exact allocated calls c new s (same ▸ List.prefix_rfl) ran
      constructor
      · intro holds before call' front
        have all := earlier.mp fun before front => holds before
          (front.trans (List.prefix_append _ _))
        obtain whole | inside := List.prefix_concat_iff.mp front
        · obtain ⟨rfl, same⟩ := List.append_inj' whole rfl
          obtain rfl := List.singleton_inj.mp same
          obtain ⟨s, ran, mirrors⟩ := holds before (List.prefix_append _ _)
          exact (step s ran mirrors).mp (holds _ List.prefix_rfl)
        · exact all before call' inside
      · intro fine before front
        have all := earlier.mpr fun before call' front => fine before call'
          (front.trans (List.prefix_append _ _))
        obtain rfl | inside := List.prefix_concat_iff.mp front
        · obtain ⟨s, ran, mirrors⟩ := all calls List.prefix_rfl
          exact (step s ran mirrors).mpr (fine calls call List.prefix_rfl)
        · exact all before inside

theorem prefix_call {calls before : List Call} (front : before ++ [call] <+: calls) :
    ∃ i, i < calls.length ∧ before = calls.take i ∧ calls[i]? = some call := by
  obtain ⟨rest, rfl⟩ := front
  exact ⟨before.length, by simp, by simp, by simp⟩

/-- Three sockets, and the second is gone. -/
def threeSockets : List Call :=
  [.newSocket 4 (some ⟨1, none, none⟩), .newSocket 5 (some ⟨2, some 7, none⟩),
    .newSocket 6 (some ⟨3, none, none⟩), .deleteSocket 5]

/-- The list mirrors the sockets after each of the calls. -/
theorem chat_mirrors_iff_three_sockets : connected threeSockets = [4, 6] ∧
    ∀ before, before <+: threeSockets →
      ∃ s, Server.run before = some s ∧ Mirrors s (connected before) := by
  refine ⟨rfl, (chat_mirrors_iff threeSockets fun before c new s front ran => ?_).mpr
    fun before call front => ?_⟩
  · obtain ⟨i, bound, rfl, here⟩ := prefix_call front
    change i < 4 at bound
    obtain rfl | rfl | rfl | rfl : i = 0 ∨ i = 1 ∨ i = 2 ∨ i = 3 := by omega
    · cases here
      cases ran
      rfl
    · cases here
      cases ran
      rfl
    · cases here
      cases ran
      rfl
    · cases here
  · obtain ⟨i, bound, rfl, here⟩ := prefix_call front
    change i < 4 at bound
    obtain rfl | rfl | rfl | rfl : i = 0 ∨ i = 1 ∨ i = 2 ∨ i = 3 := by omega
    · cases here
      exact ⟨_, rfl, rfl, fun _ => rfl⟩
    · cases here
      exact ⟨_, rfl, rfl, fun none => absurd none (List.cons_ne_nil 4 [])⟩
    · cases here
      exact ⟨_, rfl, rfl, fun _ => rfl⟩
    · cases here
      exact fun only : [4, 5, 6] = [5] => absurd only (by decide)

/-- The only socket is deleted: `front` leads to the freed node, and `echoAll` reads it. -/
theorem only_socket_deleted :
    connected [.newSocket 4 (some ⟨1, none, none⟩), .deleteSocket 4] = [] ∧
    (Server.run [.newSocket 4 (some ⟨1, none, none⟩), .deleteSocket 4]).map
      (fun s => (s.front, s.heap 1, s.theNumberOf, echoAll s)) = some (some 1, none, 0, none) ∧
    ¬ ∃ s, Server.run [.newSocket 4 (some ⟨1, none, none⟩), .deleteSocket 4] = some s ∧
      Mirrors s (connected [.newSocket 4 (some ⟨1, none, none⟩), .deleteSocket 4]) := by
  refine ⟨rfl, rfl, ?_⟩
  rintro ⟨s, ran, mirrors⟩
  have echoed := mirrors.echoed
  cases ran
  cases echoed

end SlabStudy.Chat
