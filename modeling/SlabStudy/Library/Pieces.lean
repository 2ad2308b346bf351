import Mathlib.Data.List.Infix

/-!
# Streams in pieces

A stream may be cut anywhere.  A call that asks for `n` elements of it gets what
there is of the piece at the front, or `n` of that; it gets nothing at the end.
-/

namespace SlabStudy.Library

/-- What is left of a stream, in pieces of which none is empty. -/
structure Pieces (α : Type) where
  list : List (List α)
  full : ∀ piece ∈ list, piece ≠ []

namespace Pieces

variable {α σ : Type} {n : Nat} {s : Pieces α}

/-- The stream. -/
def all (s : Pieces α) : List α := s.list.flatten

/-- The call that asks for `n` elements. -/
def recv (s : Pieces α) (n : Nat) : List α × Pieces α :=
  match s with
  | ⟨[], full⟩ => ([], ⟨[], full⟩)
  | ⟨piece :: rest, full⟩ =>
      if long : n < piece.length then
        (piece.take n, ⟨piece.drop n :: rest, List.forall_mem_cons.mpr
          ⟨fun none => Nat.not_le.mpr long (List.drop_eq_nil_iff.mp none),
            (List.forall_mem_cons.mp full).2⟩⟩)
      else (piece, ⟨rest, (List.forall_mem_cons.mp full).2⟩)

/-- What a call gets, and what it leaves. -/
inductive Recv (n : Nat) : List (List α) → List α → List (List α) → Prop where
  | ends : Recv n [] [] []
  | whole {piece rest} : piece ≠ [] → piece.length ≤ n → Recv n (piece :: rest) piece rest
  | part {piece rest} : n < piece.length →
      Recv n (piece :: rest) (piece.take n) (piece.drop n :: rest)

theorem recv_cases (s : Pieces α) (n : Nat) :
    Recv n s.list (s.recv n).1 (s.recv n).2.list := by
  obtain ⟨list, full⟩ := s
  cases list with
  | nil => exact .ends
  | cons piece rest =>
      by_cases long : n < piece.length
      · rw [recv, dif_pos long]
        exact .part long
      · rw [recv, dif_neg long]
        exact .whole (full piece List.mem_cons_self) (Nat.not_lt.mp long)

theorem recv_all (s : Pieces α) (n : Nat) : (s.recv n).1 ++ (s.recv n).2.all = s.all := by
  unfold all
  have came := s.recv_cases n
  generalize (s.recv n).1 = got, (s.recv n).2.list = left, s.list = list at came ⊢
  cases came with
  | ends => rfl
  | whole => rfl
  | part =>
      rw [List.flatten_cons, List.flatten_cons, ← List.append_assoc, List.take_append_drop]

theorem length_recv_le (s : Pieces α) (n : Nat) : (s.recv n).1.length ≤ n := by
  have came := s.recv_cases n
  generalize (s.recv n).1 = got, (s.recv n).2.list = left, s.list = list at came ⊢
  cases came with
  | ends => exact Nat.zero_le n
  | whole _ short => exact short
  | part => exact List.length_take_le ..

/-- Only at the end of the stream there is nothing to get. -/
theorem recv_eq_nil (asks : 0 < n) : (s.recv n).1 = [] ↔ s.all = [] := by
  unfold all
  have came := s.recv_cases n
  generalize (s.recv n).1 = got, (s.recv n).2.list = left, s.list = list at came ⊢
  cases came with
  | ends => exact iff_of_true rfl rfl
  | whole some _ =>
      rw [List.flatten_cons]
      exact iff_of_false some (List.append_ne_nil_of_left_ne_nil some _)
  | part long =>
      refine iff_of_false (fun none => ?_) (fun none => ?_)
      · have size := congrArg List.length none
        rw [List.length_take_of_le (Nat.le_of_lt long), List.length_nil] at size
        omega
      · have size := congrArg List.length none
        rw [List.flatten_cons, List.length_append, List.length_nil] at size
        omega

theorem length_recv_lt (some : (s.recv n).1 ≠ []) : (s.recv n).2.all.length < s.all.length := by
  have size := List.length_pos_iff.mpr some
  rw [← recv_all s n, List.length_append]
  omega

/-! ## Loops -/

/-- A loop that asks for `n` elements until there is nothing to get. -/
def receive (n : Nat) (body : σ → List α → Option σ) (state : σ) (s : Pieces α) : Option σ :=
  if _ends : (s.recv n).1 = [] then some state
  else (body state (s.recv n).1).bind fun state => receive n body state (s.recv n).2
termination_by s.all.length
decreasing_by exact length_recv_lt _ends

section Receive

variable {body : σ → List α → Option σ} {P : List α → σ → Prop} {done : List α} {state last : σ}

/-- What one round preserves holds of what the loop leaves. -/
theorem receive_preserves (asks : 0 < n)
    (round : ∀ {done state got next}, P done state → got ≠ [] → got.length ≤ n →
      body state got = some next → P (done ++ got) next)
    (start : P done state) (ran : s.receive n body state = some last) : P (done ++ s.all) last := by
  fun_induction receive n body state s generalizing done with
  | case1 state s ends =>
      obtain rfl := Option.some.inj ran
      rw [(recv_eq_nil asks).mp ends, List.append_nil]
      exact start
  | case2 state s more ih =>
      obtain ⟨next, stepped, ran⟩ := Option.bind_eq_some_iff.mp ran
      rw [← recv_all s n, ← List.append_assoc]
      exact ih next (round start more (length_recv_le s n) stepped) ran

/-- A loop no round of which fails comes to its end. -/
theorem exists_receive {Q : List α → σ → Prop}
    (round : ∀ {left state got}, Q (got ++ left) state → got ≠ [] →
      ∃ next, body state got = some next ∧ Q left next)
    (start : Q s.all state) : ∃ last, s.receive n body state = some last := by
  fun_induction receive n body state s with
  | case1 state s ends => exact ⟨state, rfl⟩
  | case2 state s more ih =>
      rw [← recv_all s n] at start
      obtain ⟨next, stepped, kept⟩ := round start more
      rw [stepped]
      exact ih next kept

end Receive

/-- A loop that asks for what it has not got yet of `n` elements. -/
def recvFixed (s : Pieces α) (n : Nat) : List α × Pieces α :=
  if _more : 0 < n ∧ (s.recv n).1 ≠ [] then
    let rest := recvFixed (s.recv n).2 (n - (s.recv n).1.length)
    ((s.recv n).1 ++ rest.1, rest.2)
  else ([], s)
termination_by n
decreasing_by
  have size := List.length_pos_iff.mpr _more.2
  omega

theorem recvFixed_eq (s : Pieces α) (n : Nat) :
    (s.recvFixed n).1 = s.all.take n ∧ (s.recvFixed n).2.all = s.all.drop n := by
  fun_induction recvFixed s n with
  | case1 s n more rest ih =>
      have size := length_recv_le s n
      rw [ih.1, ih.2, ← recv_all s n, List.take_append, List.drop_append, List.take_of_length_le size,
        List.drop_of_length_le size, List.nil_append]
      exact ⟨rfl, rfl⟩
  | case2 s n ends =>
      obtain zero | positive := Nat.eq_zero_or_pos n
      · rw [zero]
        exact ⟨rfl, rfl⟩
      · have none : s.all = [] := by
          by_contra some
          exact ends ⟨positive, (recv_eq_nil positive).not.mpr some⟩
        rw [none, List.take_nil, List.drop_nil]
        exact ⟨rfl, rfl⟩

/-! ## Where a stream is cut -/

/-- The stream is not cut between these places. -/
def Uncut (s : Pieces α) (start stop : Nat) : Prop :=
  ∀ front ∈ s.list.inits, front.flatten.length ≤ start ∨ stop ≤ front.flatten.length

instance (s : Pieces α) (start stop : Nat) : Decidable (s.Uncut start stop) :=
  inferInstanceAs (Decidable (∀ front ∈ s.list.inits,
    front.flatten.length ≤ start ∨ stop ≤ front.flatten.length))

theorem forall_inits {p : List (List α) → Prop} {piece : List α} {rest : List (List α)} :
    (∀ front ∈ (piece :: rest).inits, p front) ↔ p [] ∧ ∀ front ∈ rest.inits, p (piece :: front) := by
  rw [List.inits_cons, List.forall_mem_cons, List.forall_mem_map]

/-- A call gets all it asks for if the stream is not cut before. -/
theorem length_recv_iff (there : n ≤ s.all.length) :
    (s.recv n).1.length = n ↔ s.Uncut 0 n := by
  unfold Uncut
  unfold all at there
  have came := s.recv_cases n
  generalize (s.recv n).1 = got, (s.recv n).2.list = left, s.list = list at came there ⊢
  cases came with
  | ends =>
      obtain rfl := Nat.le_zero.mp there
      exact iff_of_true rfl fun front _ => .inr (Nat.zero_le _)
  | whole some short =>
      have size := List.length_pos_iff.mpr some
      rw [forall_inits]
      constructor
      · intro same
        refine ⟨.inl (Nat.zero_le _), fun front _ => .inr ?_⟩
        rw [List.flatten_cons, List.length_append, same]
        exact Nat.le_add_right ..
      · rintro ⟨-, later⟩
        have first := later [] ((List.mem_inits _ _).mpr List.nil_prefix)
        rw [List.flatten_cons, List.flatten_nil, List.append_nil] at first
        omega
  | part long =>
      rw [forall_inits]
      refine iff_of_true (List.length_take_of_le (Nat.le_of_lt long)) ⟨.inl (Nat.zero_le _), ?_⟩
      intro front _
      right
      rw [List.flatten_cons, List.length_append]
      omega

/-- What is at the front of a stream comes whole if the stream is not cut in it. -/
theorem recv_front {front more : List α} (sent : s.all = front ++ more)
    (uncut : s.Uncut 0 front.length) :
    (s.recv front.length).1 = front ∧ (s.recv front.length).2.all = more := by
  have there : front.length ≤ s.all.length := by
    rw [sent, List.length_append]
    exact Nat.le_add_right ..
  rw [← recv_all s front.length] at sent
  exact List.append_inj sent ((length_recv_iff there).mpr uncut)

/-- The cuts of what a call leaves. -/
theorem recv_uncut (s : Pieces α) (n start stop : Nat) : (s.recv n).2.Uncut start stop ↔
    s.Uncut ((s.recv n).1.length + start) ((s.recv n).1.length + stop) := by
  unfold Uncut
  have came := s.recv_cases n
  generalize (s.recv n).1 = got, (s.recv n).2.list = left, s.list = list at came ⊢
  cases came with
  | ends => simp
  | whole some short =>
      rw [forall_inits]
      simp only [List.flatten_nil, List.length_nil, List.flatten_cons, List.length_append]
      rw [and_iff_right (.inl (Nat.zero_le _))]
      exact forall₂_congr fun front _ => by omega
  | part long =>
      rw [forall_inits, forall_inits, List.length_take_of_le (Nat.le_of_lt long)]
      simp only [List.flatten_nil, List.length_nil, List.flatten_cons, List.length_append,
        List.length_drop]
      refine and_congr (iff_of_true (.inl (Nat.zero_le _)) (.inl (Nat.zero_le _))) ?_
      exact forall₂_congr fun front _ => by omega

end Pieces

/-- A stream that is not cut. -/
def Pieces.whole {α : Type} : List α → Pieces α
  | [] => ⟨[], nofun⟩
  | x :: stream => ⟨[x :: stream], List.forall_mem_singleton.mpr (List.cons_ne_nil _ _)⟩

theorem Pieces.all_whole {α : Type} (stream : List α) : (whole stream).all = stream := by
  cases stream with
  | nil => rfl
  | cons x stream => exact List.append_nil _

/-- A way to cut every stream. -/
structure Segmentation (α : Type) where
  split : List α → Pieces α
  all_split : ∀ stream, (split stream).all = stream

def Segmentation.whole (α : Type) : Segmentation α := ⟨Pieces.whole, Pieces.all_whole⟩

end SlabStudy.Library
