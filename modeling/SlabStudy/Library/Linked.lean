import Mathlib.Data.List.Nodup
import Mathlib.Logic.Function.Basic
import Mathlib.Tactic.Common

/-!
# Circular doubly linked lists

Nodes are linked in both directions in a circle through a head, which is
`none`.  A circle has an order, the nodes from the head on; taking a node out
and putting a node behind the head are a few assignments to the links, and
change the order as expected.
-/

namespace SlabStudy.Library

/-- The links of the nodes `some x` and of the head `none`. -/
structure Links (β : Type) where
  next : Option β → Option β
  prev : Option β → Option β

namespace Links

variable {β : Type}

/-- Two nodes that follow each other. -/
def Joined (k : Links β) (x y : Option β) : Prop := k.next x = y ∧ k.prev y = x

/-- From `a` through the nodes of a list to `z`. -/
def Path (k : Links β) : Option β → List β → Option β → Prop
  | a, [], z => k.Joined a z
  | a, x :: l, z => k.Joined a (some x) ∧ k.Path (some x) l z

/-- The circle through the head visits the nodes of `l` in order, each of them once. -/
structure Circular (k : Links β) (l : List β) : Prop where
  path : k.Path none l none
  nodup : l.Nodup

variable {k k' : Links β} {a z : Option β} {l front back : List β} {b x : β}

/-- A path only depends on the links that it follows. -/
theorem Path.congr (path : k.Path a l z) (first : k'.next a = k.next a)
    (next : ∀ x ∈ l, k'.next (some x) = k.next (some x))
    (prev : ∀ x ∈ l, k'.prev (some x) = k.prev (some x)) (last : k'.prev z = k.prev z) :
    k'.Path a l z := by
  induction l generalizing a with
  | nil => exact ⟨first.trans path.1, last.trans path.2⟩
  | cons x l ih =>
      obtain ⟨⟨left, right⟩, rest⟩ := path
      refine ⟨⟨first.trans left, (prev x List.mem_cons_self).trans right⟩, ?_⟩
      exact ih rest (next x List.mem_cons_self)
        (fun y member => next y (List.mem_cons_of_mem _ member))
        (fun y member => prev y (List.mem_cons_of_mem _ member))

theorem path_append : k.Path a (front ++ b :: back) z ↔
    k.Path a front (some b) ∧ k.Path (some b) back z := by
  induction front generalizing a with
  | nil => exact Iff.rfl
  | cons x front ih =>
      change _ ∧ k.Path (some x) (front ++ b :: back) z ↔ (_ ∧ k.Path (some x) front (some b)) ∧ _
      rw [ih, and_assoc]

/-- The node in front of the end of a path. -/
theorem Path.prev_mem (path : k.Path a (x :: l) z) : ∃ y ∈ x :: l, k.prev z = some y := by
  induction l generalizing a x with
  | nil => exact ⟨x, List.mem_cons_self, path.2.2⟩
  | cons y l ih =>
      obtain ⟨w, member, here⟩ := ih path.2
      exact ⟨w, List.mem_cons_of_mem _ member, here⟩

/-- The node behind the start of a path. -/
theorem Path.next_mem (path : k.Path a l z) : (∃ y ∈ l, k.next a = some y) ∨ k.next a = z := by
  cases l with
  | nil => exact .inr path.1
  | cons x l => exact .inl ⟨x, List.mem_cons_self, path.1.1⟩

/-! ## Scanning -/

/-- Follow links until a node passes the test; `some none` if the head is reached. -/
def scan (step : Option β → Option β) (test : β → Bool) : Nat → Option β → Option (Option β)
  | 0, _ => none
  | _ + 1, none => some none
  | n + 1, some x => if test x then some (some x) else scan step test n (step (some x))

/-- Following `next`, a scan finds the first node of the list that passes the test. -/
theorem Path.scan_next {test : β → Bool} {n : Nat} (path : k.Path a l none) (fuel : l.length < n) :
    scan k.next test n (k.next a) = some (l.find? test) := by
  induction l generalizing a n with
  | nil =>
      obtain ⟨n, rfl⟩ := Nat.exists_eq_succ_of_ne_zero (Nat.ne_of_gt fuel)
      rw [path.1]
      rfl
  | cons x l ih =>
      rw [List.length_cons] at fuel
      obtain ⟨n, rfl⟩ := Nat.exists_eq_succ_of_ne_zero (Nat.ne_of_gt (Nat.zero_lt_of_lt fuel))
      rw [path.1.1, scan, List.find?_cons]
      cases passes : test x with
      | true => rfl
      | false => exact ih path.2 (Nat.lt_of_succ_lt_succ fuel)

/-- The path in the other direction. -/
theorem Path.reverse (path : k.Path a l z) : Path ⟨k.prev, k.next⟩ z l.reverse a := by
  induction l generalizing a with
  | nil => exact ⟨path.2, path.1⟩
  | cons x l ih =>
      rw [List.reverse_cons, path_append]
      exact ⟨ih path.2, path.1.2, path.1.1⟩

/-- Following `prev`, a scan finds the last node of the list that passes the test. -/
theorem Path.scan_prev {test : β → Bool} {n : Nat} (path : k.Path none l z) (fuel : l.length < n) :
    scan k.prev test n (k.prev z) = some (l.reverse.find? test) :=
  path.reverse.scan_next (by rw [List.length_reverse]; exact fuel)

/-! ## Taking a node out -/

variable [DecidableEq β]

/-- `b->next->prev = b->prev; b->prev->next = b->next`. -/
def unlink (k : Links β) (b : β) : Links β :=
  let k := { k with prev := Function.update k.prev (k.next (some b)) (k.prev (some b)) }
  { k with next := Function.update k.next (k.prev (some b)) (k.next (some b)) }

/-- A node that comes neither first nor last in its own links. -/
theorem unlink_eq (loop : k.next (some b) ≠ some b) : k.unlink b =
    ⟨Function.update k.next (k.prev (some b)) (k.next (some b)),
      Function.update k.prev (k.next (some b)) (k.prev (some b))⟩ := by
  unfold unlink
  simp only [Function.update_of_ne (Ne.symm loop)]

theorem Path.unlink (before : k.Path a front (some b)) (after : k.Path (some b) back z)
    (loop : k.next (some b) ≠ some b) (first : a ∉ (front ++ back).map some)
    (last : z ∉ (front ++ back).map some) (nodup : (front ++ back).Nodup) :
    (k.unlink b).Path a (front ++ back) z := by
  rw [unlink_eq loop]
  induction front generalizing a with
  | nil =>
      cases back with
      | nil =>
          refine ⟨?_, ?_⟩
          · change Function.update k.next _ _ a = z
            rw [before.2, Function.update_self]
            exact after.1
          · change Function.update k.prev _ _ z = a
            rw [after.1, Function.update_self]
            exact before.2
      | cons y back =>
          obtain ⟨⟨left, right⟩, rest⟩ := after
          refine ⟨⟨?_, ?_⟩, ?_⟩
          · change Function.update k.next _ _ a = some y
            rw [before.2, Function.update_self]
            exact left
          · change Function.update k.prev _ _ (some y) = a
            rw [left, Function.update_self]
            exact before.2
          · have fresh : y ∉ back := (List.nodup_cons.mp nodup).1
            refine rest.congr ?_ (fun x member => ?_) (fun x member => ?_) ?_
            · refine Function.update_of_ne ?_ _ _
              rw [before.2]
              rintro rfl
              exact first (List.mem_map_of_mem List.mem_cons_self)
            · refine Function.update_of_ne ?_ _ _
              rw [before.2]
              rintro rfl
              exact first (List.mem_map_of_mem (List.mem_cons_of_mem _ member))
            · refine Function.update_of_ne ?_ _ _
              rw [left]
              rintro same
              cases same
              exact fresh member
            · refine Function.update_of_ne ?_ _ _
              rw [left]
              rintro rfl
              exact last (List.mem_map_of_mem List.mem_cons_self)
  | cons x front ih =>
      obtain ⟨fresh, nodup⟩ := List.nodup_cons.mp nodup
      obtain ⟨y, member, here⟩ := before.prev_mem
      refine ⟨⟨?_, ?_⟩, ih before.2 (fun member => ?_) (fun member => ?_) nodup⟩
      · refine (Function.update_of_ne ?_ _ _).trans before.1.1
        rw [here]
        rintro rfl
        exact first (List.mem_map_of_mem (List.mem_append_left _ member))
      · refine (Function.update_of_ne ?_ _ _).trans before.1.2
        rcases after.next_mem with ⟨w, listed, there⟩ | there
        · rw [there]
          rintro same
          cases same
          exact fresh (List.mem_append_right _ listed)
        · rw [there]
          rintro rfl
          exact last (List.mem_map_of_mem List.mem_cons_self)
      · obtain ⟨w, listed, same⟩ := List.mem_map.mp member
        cases same
        exact fresh listed
      · exact last (List.mem_map.mpr (by
          obtain ⟨w, listed, same⟩ := List.mem_map.mp member
          exact ⟨w, List.mem_cons_of_mem _ listed, same⟩))

/-- The circle without a node. -/
theorem Circular.unlink (circular : k.Circular (front ++ b :: back)) :
    (k.unlink b).Circular (front ++ back) := by
  obtain ⟨path, nodup⟩ := circular
  obtain ⟨before, after⟩ := path_append.mp path
  have head (l : List β) : (none : Option β) ∉ l.map some := by simp
  have loop : k.next (some b) ≠ some b := by
    intro same
    rcases after.next_mem with ⟨w, listed, there⟩ | there
    · rw [same] at there
      cases there
      exact (List.nodup_cons.mp (List.nodup_append.mp nodup).2.1).1 listed
    · rw [same] at there
      cases there
  have short : (front ++ back).Nodup :=
    nodup.sublist (List.Sublist.append (List.Sublist.refl _) (List.sublist_cons_self _ _))
  exact ⟨before.unlink after loop (head _) (head _) short, short⟩

/-! ## Putting a node behind the head -/

/-- `b->next = head.next; b->prev = &head; head.next->prev = b; head.next = b`. -/
def insert (k : Links β) (b : β) : Links β :=
  let k := { k with next := Function.update k.next (some b) (k.next none) }
  let k := { k with prev := Function.update k.prev (some b) none }
  let k := { k with prev := Function.update k.prev (k.next none) (some b) }
  { k with next := Function.update k.next none (some b) }

theorem insert_eq (k : Links β) (b : β) : k.insert b =
    ⟨Function.update (Function.update k.next (some b) (k.next none)) none (some b),
      Function.update (Function.update k.prev (some b) none) (k.next none) (some b)⟩ := by
  unfold insert
  simp only [Function.update_of_ne (Option.some_ne_none b).symm]

/-- The circle with another node in the first place. -/
theorem Circular.insert (circular : k.Circular l) (fresh : b ∉ l) :
    (k.insert b).Circular (b :: l) := by
  obtain ⟨path, nodup⟩ := circular
  have apart : ∀ x ∈ l, some x ≠ some b := by
    rintro x member same
    cases same
    exact fresh member
  have other : k.next none ≠ some b := by
    rcases path.next_mem with ⟨x, member, here⟩ | here
    · rw [here]
      exact apart x member
    · rw [here]
      exact (Option.some_ne_none b).symm
  rw [insert_eq]
  refine ⟨⟨⟨?_, ?_⟩, ?_⟩, List.nodup_cons.mpr ⟨fresh, nodup⟩⟩
  · simp only [Function.update_self]
  · change Function.update (Function.update k.prev _ _) _ _ (some b) = none
    rw [Function.update_of_ne (Ne.symm other), Function.update_self]
  · cases l with
    | nil =>
        have empty : k.next none = none := path.1
        refine ⟨?_, ?_⟩
        · dsimp only
          rw [Function.update_of_ne (Option.some_ne_none b), Function.update_self, empty]
        · change Function.update (Function.update k.prev _ _) _ _ none = some b
          rw [empty, Function.update_self]
    | cons x l =>
        obtain ⟨⟨left, right⟩, rest⟩ := path
        have distinct : x ∉ l := (List.nodup_cons.mp nodup).1
        have next (y : β) (member : y ∈ x :: l) : Function.update (Function.update k.next (some b)
            (k.next none)) none (some b) (some y) = k.next (some y) := by
          rw [Function.update_of_ne (Option.some_ne_none y),
            Function.update_of_ne (apart y member)]
        refine ⟨⟨?_, ?_⟩, rest.congr (next x List.mem_cons_self)
          (fun y member => next y (List.mem_cons_of_mem _ member)) (fun y member => ?_) ?_⟩
        · dsimp only
          rw [Function.update_of_ne (Option.some_ne_none b), Function.update_self, left]
        · change Function.update (Function.update k.prev _ _) _ _ (some x) = some b
          rw [left, Function.update_self]
        · change Function.update (Function.update k.prev _ _) _ _ (some y) = _
          rw [left, Function.update_of_ne, Function.update_of_ne]
          · exact apart y (List.mem_cons_of_mem _ member)
          · intro same
            cases same
            exact distinct member
        · change Function.update (Function.update k.prev _ _) _ _ none = _
          rw [left, Function.update_of_ne (Option.some_ne_none x).symm,
            Function.update_of_ne (Option.some_ne_none b).symm]

/-- Nodes that are put behind the head one after the other. -/
theorem Circular.foldl_insert {nodes : List β} (circular : k.Circular l) (distinct : nodes.Nodup)
    (fresh : ∀ x ∈ nodes, x ∉ l) : (nodes.foldl Links.insert k).Circular (nodes.reverse ++ l) := by
  induction nodes generalizing k l with
  | nil => exact circular
  | cons x nodes ih =>
      obtain ⟨first, distinct⟩ := List.nodup_cons.mp distinct
      rw [List.reverse_cons, List.append_assoc]
      refine ih (circular.insert (fresh x List.mem_cons_self)) distinct fun y member => ?_
      rw [List.singleton_append, List.mem_cons, not_or]
      refine ⟨?_, fresh y (List.mem_cons_of_mem _ member)⟩
      rintro rfl
      exact first member

end Links

end SlabStudy.Library
