import SlabStudy.Xv6.ShellGrammar

/-!
# The command of a line

`parsecmd` accepts the lines that the grammar derives, and the strings of the
command are the words of the line.
-/

namespace SlabStudy.Xv6.Shell

variable {s : List Char} {p fuel : Nat} {t : Token} {ts front rest : List Token} {cmd : Cmd}

/-! ## Phrases are parsed -/

/-- Behind a pipe may stand signs `&` and what stands behind the line. -/
theorem follows_amps {amps : List Token} (all : ∀ t ∈ amps, t.ret = '&')
    (follows : Follows .pipe rest) : Follows .pipe (amps ++ rest) := by
  cases amps with
  | nil => exact follows
  | cons t amps =>
      have amp : t.ret = '&' := all t List.mem_cons_self
      refine Follows.of_ret ?_ ?_
      · rw [amp]
        decide
      · rw [amp]
        decide

/-- A simple command does not begin with a parenthesis. -/
theorem simple_not_paren {middle : List Token} {argv : List (Nat × Nat)}
    {rs rs' : List (Token × Token)} (redirs : Redirs front rs) (words : Words middle argv rs')
    (follows : Follows .exec rest) : starts ['('] (front ++ (middle ++ rest)) = false := by
  cases redirs with
  | nil =>
      cases words with
      | nil => exact follows.not_starts (by decide)
      | cons word =>
          rw [List.nil_append, List.cons_append, ← Bool.not_eq_true, starts_iff, Token.lead, word]
          decide
  | cons operator =>
      have none : apart ['<', '>'] ['('] = true := by decide
      exact starts_disjoint (starts_iff.mpr (lead_redir.mpr operator)) none

/-- A phrase of the grammar is parsed to its tree. -/
theorem parse_complete {x : Nonterminal} (derives : Derives x front cmd)
    (tokens : Tokens s p (front ++ rest)) (follows : Follows x rest)
    (enough : 4 * front.length + x.depth ≤ fuel) :
    ∃ p', parse s x fuel p = .ok (cmd, p') ∧ Tokens s p' rest := by
  induction derives generalizing p rest fuel with
  | @line front amps cmd pipe back ih =>
      rw [List.append_assoc] at tokens
      simp only [List.length_append, Nonterminal.depth] at enough ih
      obtain ⟨fuel, rfl⟩ := Nat.exists_eq_succ_of_ne_zero (n := fuel) (by omega)
      obtain ⟨q, ran, left⟩ := ih tokens (follows_amps back (follows.mono (by decide)))
        (show _ ≤ fuel by omega)
      obtain ⟨q', ran', left⟩ := parseback_complete cmd back left
        (follows.not_starts (by decide)) (show amps.length < fuel by omega)
      exact ⟨_, parseline_stop ran ran' left (follows.not_starts (by decide)), left.scan⟩
  | @list front amps later tok cmd right pipe back semi line ih ih' =>
      simp only [List.append_assoc, List.cons_append] at tokens
      simp only [List.length_append, List.length_cons, Nonterminal.depth] at enough ih ih'
      obtain ⟨fuel, rfl⟩ := Nat.exists_eq_succ_of_ne_zero (n := fuel) (by omega)
      have behind : Follows .pipe (tok :: (later ++ rest)) := by
        refine Follows.of_ret ?_ ?_
        · rw [semi]
          decide
        · rw [semi]
          decide
      obtain ⟨q, ran, left⟩ := ih tokens (follows_amps back behind) (show _ ≤ fuel by omega)
      have other : starts ['&'] (tok :: (later ++ rest)) = false := by
        rw [← Bool.not_eq_true, lead_mem (by decide), semi]
        decide
      obtain ⟨q', ran', left⟩ := parseback_complete cmd back left other
        (show amps.length < fuel by omega)
      obtain ⟨p', after, step⟩ := parseline_step ran ran' left semi
      obtain ⟨r, ran, left⟩ := ih' after follows (show _ ≤ fuel by omega)
      refine ⟨r, step.trans ?_, left⟩
      rw [show parseline s fuel p' = _ from ran]
      rfl
  | @single front cmd exec ih =>
      simp only [Nonterminal.depth] at enough ih
      obtain ⟨fuel, rfl⟩ := Nat.exists_eq_succ_of_ne_zero (n := fuel) (by omega)
      obtain ⟨q, ran, left⟩ := ih tokens (follows.mono (by decide)) (show _ ≤ fuel by omega)
      exact ⟨_, parsepipe_stop ran left (follows.not_starts (by decide)), left.scan⟩
  | @pipe front later tok cmd right exec bar pipe ih ih' =>
      rw [List.append_assoc, List.cons_append] at tokens
      simp only [List.length_append, List.length_cons, Nonterminal.depth] at enough ih ih'
      obtain ⟨fuel, rfl⟩ := Nat.exists_eq_succ_of_ne_zero (n := fuel) (by omega)
      have behind : Follows .exec (tok :: (later ++ rest)) := by
        refine Follows.of_ret ?_ ?_
        · rw [bar]
          decide
        · rw [bar]
          decide
      obtain ⟨q, ran, left⟩ := ih tokens behind (show _ ≤ fuel by omega)
      obtain ⟨p', after, step⟩ := parsepipe_step ran left bar
      obtain ⟨r, ran, left⟩ := ih' after follows (show _ ≤ fuel by omega)
      refine ⟨r, step.trans ?_, left⟩
      rw [show parsepipe s fuel p' = _ from ran]
      rfl
  | @block inner later paren close cmd rs opens line closes redirs ih =>
      simp only [List.append_assoc, List.cons_append] at tokens
      simp only [List.length_append, List.length_cons, Nonterminal.depth] at enough ih
      obtain ⟨fuel, rfl⟩ := Nat.exists_eq_add_of_le' (show 2 ≤ fuel by omega)
      have behind : Follows .line (close :: (later ++ rest)) := by
        refine Follows.of_ret ?_ ?_
        · rw [closes]
          decide
        · rw [closes]
          decide
      obtain ⟨p', after, step⟩ := parseexec_block tokens opens
      obtain ⟨q, ran, left⟩ := ih after behind (show _ ≤ fuel by omega)
      obtain ⟨q', _, next, last⟩ := left.next
      obtain ⟨r, wrapped, left'⟩ := parseredirs_complete cmd redirs last
        (follows.not_starts (by decide)) (show later.length < fuel by omega)
      refine ⟨r, (step fuel).trans ?_, left'⟩
      rw [show parseline s fuel p' = _ from ran]
      dsimp only [Bind.bind, Except.bind]
      rw [left.peek (by decide), (lead_mem (by decide)).mpr closes]
      dsimp only
      rw [next, if_pos rfl]
      exact wrapped
  | @simple front middle argv rs rs' redirs words few =>
      rw [List.append_assoc] at tokens
      simp only [List.length_append, Nonterminal.depth] at enough
      obtain ⟨fuel, rfl⟩ := Nat.exists_eq_succ_of_ne_zero (n := fuel) (by omega)
      have step := parseexec_simple fuel tokens (simple_not_paren redirs words follows)
      obtain ⟨q, ran, left⟩ := parseredirs_complete (.exec []) redirs tokens.scan
        (words.not_redir follows) (show front.length < fuel by omega)
      obtain ⟨q', ran', left'⟩ := parseargs_complete rs [] words left follows few
        (show middle.length < fuel by omega)
      refine ⟨q', step.trans ?_, left'⟩
      rw [ran]
      exact ran'

/-! ## The end of a line -/

/-- No token is left at the end of the line, and only there. -/
theorem Tokens.nil_iff (plain : nul ∉ s) (tokens : Tokens s p ts) :
    ts = [] ↔ Shell.scan isSpace s p = s.length := by
  cases tokens with
  | stop inside last =>
      refine iff_of_true rfl (Nat.le_antisymm (scan_le _ inside) ?_)
      by_contra within
      have below : Shell.scan isSpace s p < s.length := Nat.lt_of_not_le within
      have char : charAt s (Shell.scan isSpace s p) ∈ s := by
        rw [charAt, List.getElem?_eq_getElem below]
        exact List.getElem_mem below
      rcases gettoken_cases s p with ⟨none, _⟩ | ⟨single, same, _⟩ | ⟨_, same, _⟩ | ⟨_, same, _⟩ |
        ⟨_, _, same, _⟩
      · exact plain (none ▸ char)
      · rw [← same, last] at single
        exact absurd single (by decide)
      · exact absurd (same.symm.trans last) (by decide)
      · exact absurd (same.symm.trans last) (by decide)
      · exact absurd (same.symm.trans last) (by decide)
  | token more rest =>
      refine iff_of_false (List.cons_ne_nil _ _) fun finish => ?_
      obtain ⟨_, behind, within, _⟩ := gettoken_inside more
      change (gettoken s p).1.q = _ at finish
      omega

theorem parsecmd_eq (plain : nul ∉ s) (ran : parseline s fuel 0 = .ok (cmd, p))
    (tokens : Tokens s p ts) : parsecmd s fuel =
      if ts = [] then .ok (cmd, nulterminate cmd (charAt s)) else .error (.panic .leftovers) := by
  rw [parsecmd, ran]
  dsimp only [Bind.bind, Except.bind]
  rw [tokens.peek (by decide)]
  dsimp only
  by_cases none : ts = []
  · rw [if_pos none, if_neg (not_not.mpr ((tokens.nil_iff plain).mp none))]
  · rw [if_neg none, if_pos (mt (tokens.nil_iff plain).mpr none)]

/-- The calls that suffice for a line. -/
theorem parsecmd_iff (plain : nul ∉ s) (tokens : Tokens s 0 ts) (enough : 4 * ts.length + 4 ≤ fuel) :
    (∀ cmd, parsecmd s fuel = .ok (cmd, nulterminate cmd (charAt s)) ↔ Derives .line ts cmd) ∧
      ((∀ cmd, ¬ Derives .line ts cmd) → ∃ reason, parsecmd s fuel = .error (.panic reason)) := by
  have complete : ∀ cmd, Derives .line ts cmd →
      parsecmd s fuel = .ok (cmd, nulterminate cmd (charAt s)) := by
    intro cmd derives
    rw [← List.append_nil ts] at tokens
    obtain ⟨p', ran, left⟩ := parse_complete derives tokens (.inl rfl) enough
    exact (parsecmd_eq plain ran left).trans (if_pos rfl)
  rcases parse_sound .line tokens enough with
    ⟨front, rest, cmd, p', rfl, derives, left, ran⟩ | ⟨reason, stopped⟩
  · have result := parsecmd_eq plain ran left
    by_cases none : rest = []
    · subst none
      rw [List.append_nil] at complete ⊢
      refine ⟨fun other => ⟨fun parsed => ?_, complete other⟩, fun never => absurd derives (never cmd)⟩
      rw [result, if_pos rfl] at parsed
      cases parsed
      exact derives
    · rw [if_neg none] at result
      refine ⟨fun other => ⟨fun parsed => ?_, complete other⟩, fun _ => ⟨_, result⟩⟩
      rw [result] at parsed
      cases parsed
  · have result : parsecmd s fuel = .error (.panic reason) := by
      rw [parsecmd, show parseline s fuel 0 = _ from stopped]
      rfl
    refine ⟨fun other => ⟨fun parsed => ?_, complete other⟩, fun _ => ⟨_, result⟩⟩
    rw [result] at parsed
    cases parsed

/-! ## The strings of a command -/

/-- The counted strings of a command. -/
def Cmd.strings : Cmd → List (Nat × Nat)
  | .exec argv => argv
  | .redir cmd file efile _ _ => cmd.strings ++ [(file, efile)]
  | .pipe left right => left.strings ++ right.strings
  | .list left right => left.strings ++ right.strings
  | .back cmd => cmd.strings

/-- The text of a token. -/
def Token.text (s : List Char) (t : Token) : List Char := (s.drop t.q).take (t.eq - t.q)

/-- What a string is that is read from `q` up to its NUL. -/
inductive Reads (buf : Nat → Char) : Nat → List Char → Prop where
  | stop {q : Nat} (last : buf q = nul) : Reads buf q []
  | char {q : Nat} {rest : List Char} (more : buf q ≠ nul) (read : Reads buf (q + 1) rest) :
      Reads buf q (buf q :: rest)

/-- `nulterminate` writes the end of each string and nothing else. -/
theorem nulterminate_at (cmd : Cmd) (buf : Nat → Char) (i : Nat) :
    nulterminate cmd buf i = if i ∈ cmd.strings.map Prod.snd then nul else buf i := by
  induction cmd generalizing buf with
  | exec argv =>
      change argv.foldl (fun buf arg => Function.update buf arg.2 nul) buf i =
        if i ∈ argv.map Prod.snd then nul else buf i
      induction argv generalizing buf with
      | nil => rfl
      | cons arg argv ih =>
          rw [List.foldl_cons, ih, List.map_cons, Function.update_apply]
          simp only [List.mem_cons]
          by_cases later : i ∈ argv.map Prod.snd
          · rw [if_pos later, if_pos (.inr later)]
          · simp only [later, or_false, if_false]
  | redir cmd file efile mode fd ih =>
      change Function.update (nulterminate cmd buf) efile nul i = _
      rw [Function.update_apply, ih, Cmd.strings, List.map_append]
      simp only [List.map_cons, List.map_nil, List.mem_append, List.mem_singleton]
      by_cases last : i = efile
      · rw [if_pos last, if_pos (.inr last)]
      · simp only [last, or_false, if_false]
  | pipe left right ih ih' | list left right ih ih' =>
      change nulterminate right (nulterminate left buf) i = _
      rw [ih', ih, Cmd.strings, List.map_append]
      simp only [List.mem_append]
      by_cases later : i ∈ right.strings.map Prod.snd
      · rw [if_pos later, if_pos (.inr later)]
      · simp only [later, or_false, if_false]
  | back cmd ih => exact ih buf

/-- The strings of a command are words among these tokens. -/
def Cmd.From (ts : List Token) (cmd : Cmd) : Prop :=
  ∀ str ∈ cmd.strings, ∃ t ∈ ts, t.ret = 'a' ∧ str = (t.q, t.eq)

theorem Cmd.From.mono {us : List Token} (source : cmd.From ts) (more : ∀ t ∈ ts, t ∈ us) :
    cmd.From us := by
  intro str member
  obtain ⟨t, listed, word⟩ := source str member
  exact ⟨t, more t listed, word⟩

theorem Cmd.From.backs (source : cmd.From ts) (n : Nat) : (Shell.backs n cmd).From ts := by
  induction n with
  | zero => exact source
  | succ n ih =>
      rw [Shell.backs, Function.iterate_succ_apply']
      exact ih

theorem Cmd.From.redirected {tok : Char} {file : Token} (source : cmd.From ts) (listed : file ∈ ts)
    (word : file.ret = 'a') : (Shell.redirected cmd tok file).From ts := by
  have wrapped : ∀ mode fd, (Cmd.redir cmd file.q file.eq mode fd).From ts := by
    intro mode fd str member
    rcases List.mem_append.mp member with inner | same
    · exact source str inner
    · exact ⟨file, listed, word, List.mem_singleton.mp same⟩
  unfold Shell.redirected
  split
  · exact wrapped _ _
  · split
    · exact wrapped _ _
    · exact source

theorem Cmd.From.wraps {rs : List (Token × Token)} (source : cmd.From ts)
    (words : ∀ r ∈ rs, r.2 ∈ ts ∧ r.2.ret = 'a') : (Shell.wraps rs cmd).From ts := by
  induction rs generalizing cmd with
  | nil => exact source
  | cons r rs ih =>
      obtain ⟨first, later⟩ := List.forall_mem_cons.mp words
      exact ih (source.redirected first.1 first.2) later

/-- The files of redirections are words. -/
theorem Redirs.words {rs : List (Token × Token)} (redirs : Redirs ts rs) :
    ∀ r ∈ rs, r.2 ∈ ts ∧ r.2.ret = 'a' := by
  induction redirs with
  | nil => exact nofun
  | cons operator word rest ih =>
      refine List.forall_mem_cons.mpr ⟨⟨by simp, word⟩, fun r member => ?_⟩
      exact (ih r member).imp_left fun listed => List.mem_cons_of_mem _ (List.mem_cons_of_mem _ listed)

theorem Words.words {argv : List (Nat × Nat)} {rs : List (Token × Token)} (words : Words ts argv rs) :
    (Cmd.exec argv).From ts ∧ ∀ r ∈ rs, r.2 ∈ ts ∧ r.2.ret = 'a' := by
  induction words with
  | nil => exact ⟨nofun, nofun⟩
  | @cons tok front rest rs rs' argv word redirs more ih =>
      refine ⟨fun str member => ?_, fun r member => ?_⟩
      · rcases List.mem_cons.mp member with rfl | later
        · exact ⟨tok, List.mem_cons_self, word, rfl⟩
        · exact ih.1.mono (fun t listed => by simp [listed]) str later
      · rcases List.mem_append.mp member with early | late
        · exact (redirs.words r early).imp_left fun listed => by simp [listed]
        · exact (ih.2 r late).imp_left fun listed => by simp [listed]

/-- The strings of the tree of a phrase are words of the phrase. -/
theorem Derives.from {x : Nonterminal} (derives : Derives x ts cmd) : cmd.From ts := by
  induction derives with
  | line pipe back ih => exact (ih.mono fun t listed => by simp [listed]).backs _
  | @list front amps rest tok cmd right pipe back semi line ih ih' =>
      intro str member
      rcases List.mem_append.mp member with early | late
      · exact (ih.backs amps.length).mono (fun t listed => by simp [listed]) str early
      · exact ih'.mono (fun t listed => by simp [listed]) str late
  | single exec ih => exact ih
  | @pipe front rest tok cmd right exec bar pipe ih ih' =>
      intro str member
      rcases List.mem_append.mp member with early | late
      · exact ih.mono (fun t listed => by simp [listed]) str early
      · exact ih'.mono (fun t listed => by simp [listed]) str late
  | block opens line closes redirs ih =>
      exact (ih.mono fun t listed => by simp [listed]).wraps fun r member =>
        (redirs.words r member).imp_left fun listed => by simp [listed]
  | simple redirs words few =>
      refine Cmd.From.wraps (words.words.1.mono fun t listed => by simp [listed]) fun r member => ?_
      rcases List.mem_append.mp member with early | late
      · exact (redirs.words r early).imp_left fun listed => by simp [listed]
      · exact (words.words.2 r late).imp_left fun listed => by simp [listed]

/-- A token is cut from the line somewhere. -/
theorem Tokens.cut (tokens : Tokens s p ts) (listed : t ∈ ts) :
    ∃ p', (gettoken s p').1 = t ∧ t.ret ≠ nul := by
  induction tokens with
  | stop => cases listed
  | @token p ts more rest ih =>
      rcases List.mem_cons.mp listed with rfl | later
      · exact ⟨p, rfl, more⟩
      · exact ih later

/-- A word takes all the characters of words up to where it ends. -/
theorem Tokens.word (tokens : Tokens s p ts) (listed : t ∈ ts) (word : t.ret = 'a') :
    t.q < t.eq ∧ t.eq ≤ s.length ∧ (∀ i, t.q ≤ i → i < t.eq → isWord (charAt s i) = true) ∧
      (t.eq < s.length → isWord (charAt s t.eq) = false) := by
  obtain ⟨p', rfl, some⟩ := tokens.cut listed
  obtain ⟨_, nonempty, within, _⟩ := gettoken_inside some
  refine ⟨nonempty, within, ?_⟩
  rcases gettoken_cases s p' with ⟨_, none, _⟩ | ⟨single, same, _⟩ | ⟨_, same, _⟩ | ⟨_, same, _⟩ |
    ⟨_, _, _, ends⟩
  · exact absurd none some
  · rw [← same, word] at single
    exact absurd single (by decide)
  · exact absurd (same.symm.trans word) (by decide)
  · exact absurd (same.symm.trans word) (by decide)
  · rw [ends]
    exact ⟨fun i low high => scan_passed low high, scan_stopped⟩

/-- Up to where it is terminated a string reads as in the line. -/
theorem reads_line {buf : Nat → Char} {q e : Nat} (order : q ≤ e) (inside : e ≤ s.length)
    (same : ∀ i, q ≤ i → i < e → buf i = charAt s i ∧ charAt s i ≠ nul) (last : buf e = nul) :
    Reads buf q ((s.drop q).take (e - q)) := by
  obtain ⟨n, rfl⟩ := Nat.exists_eq_add_of_le order
  induction n generalizing q with
  | zero =>
      rw [Nat.add_zero, Nat.sub_self, List.take_zero]
      exact .stop last
  | succ n ih =>
      have below : q < s.length := by omega
      obtain ⟨here, some⟩ := same q (Nat.le_refl _) (by omega)
      have first : buf q = s[q] := by
        rw [here, charAt, List.getElem?_eq_getElem below]
        rfl
      have behind : q + 1 + n = q + (n + 1) := by omega
      rw [List.drop_eq_getElem_cons below, Nat.add_sub_cancel_left, List.take_succ_cons, ← first]
      refine .char (here ▸ some) ?_
      have later := ih (q := q + 1) (by omega) (by omega)
        (fun i low high => same i (by omega) (by omega)) (by rw [behind]; exact last)
      rwa [Nat.add_sub_cancel_left] at later

/-- Every string of a command reads as its word in the line. -/
theorem nulterminate_reads (plain : nul ∉ s) (tokens : Tokens s p ts) (words : cmd.From ts)
    {str : Nat × Nat} (member : str ∈ cmd.strings) :
    ∃ t ∈ ts, t.ret = 'a' ∧ str = (t.q, t.eq) ∧
      Reads (nulterminate cmd (charAt s)) t.q (t.text s) := by
  obtain ⟨t, listed, word, rfl⟩ := words str member
  refine ⟨t, listed, word, rfl, ?_⟩
  obtain ⟨nonempty, within, inner, _⟩ := tokens.word listed word
  refine reads_line nonempty.le within (fun i low high => ?_) ?_
  · have below : i < s.length := Nat.lt_of_lt_of_le high within
    have char : charAt s i ∈ s := by
      rw [charAt, List.getElem?_eq_getElem below]
      exact List.getElem_mem below
    refine ⟨?_, fun none => plain (none ▸ char)⟩
    -- the ends of the words are no characters of words
    have apart : i ∉ cmd.strings.map Prod.snd := by
      intro ending
      obtain ⟨other, member', ends⟩ := List.mem_map.mp ending
      obtain ⟨t', listed', word', rfl⟩ := words other member'
      have outer := (tokens.word listed' word').2.2.2
      change t'.eq = i at ends
      rw [ends] at outer
      exact Bool.false_ne_true ((outer below).symm.trans (inner i low high))
    rw [nulterminate_at, if_neg apart]
  · rw [nulterminate_at, if_pos (List.mem_map.mpr ⟨_, member, rfl⟩)]

/-- `parsecmd` accepts the lines that the grammar derives, gives the tree of the
derivation with its strings terminated, and reports an error for every other line. -/
theorem parsecmd_grammar (s : List Char) (fuel : Nat) (plain : nul ∉ s)
    (enough : 4 * s.length + 4 ≤ fuel) : ∃ ts, Tokens s 0 ts ∧
      (∀ cmd, (∃ buf, parsecmd s fuel = .ok (cmd, buf)) ↔ Derives .line ts cmd) ∧
      (∀ cmd buf, parsecmd s fuel = .ok (cmd, buf) → ∀ str ∈ cmd.strings,
        ∃ t ∈ ts, t.ret = 'a' ∧ str = (t.q, t.eq) ∧ Reads buf t.q (t.text s)) ∧
      ((∀ cmd, ¬ Derives .line ts cmd) → ∃ reason, parsecmd s fuel = .error (.panic reason)) := by
  obtain ⟨ts, tokens, short⟩ := Tokens.exists (s := s) (Nat.zero_le s.length)
  obtain ⟨accepts, rejects⟩ := parsecmd_iff plain tokens (show _ ≤ fuel by omega)
  have buffer : ∀ {cmd buf}, parsecmd s fuel = .ok (cmd, buf) →
      buf = nulterminate cmd (charAt s) := by
    intro cmd buf parsed
    rw [parsecmd] at parsed
    cases line : parseline s fuel 0 with
    | error stop =>
        rw [line] at parsed
        cases parsed
    | ok result =>
        rw [line] at parsed
        dsimp only [Bind.bind, Except.bind] at parsed
        split at parsed
        · cases parsed
        · cases parsed
          rfl
  refine ⟨ts, tokens, fun cmd => ⟨?_, ?_⟩, ?_, rejects⟩
  · rintro ⟨buf, parsed⟩
    refine (accepts cmd).mp ?_
    rw [parsed, buffer parsed]
  · exact fun derives => ⟨_, (accepts cmd).mpr derives⟩
  · intro cmd buf parsed str member
    obtain rfl := buffer parsed
    exact nulterminate_reads plain tokens ((accepts cmd).mp parsed).from member

/-- A line with redirections between words and around a block is derived with its tree. -/
theorem parsecmd_grammar_block : ∃ ts, Tokens "a>f b|(c;d&) >> g".toList 0 ts ∧
    Derives .line ts (.pipe
      (.redir (.exec [(0, 1), (4, 5)]) 2 3 (oWronly ||| oCreate) 1)
      (.redir (.list (.exec [(7, 8)]) (.back (.exec [(9, 10)]))) 16 17 (oWronly ||| oCreate) 1)) := by
  obtain ⟨ts, tokens, accepts, _⟩ :=
    parsecmd_grammar "a>f b|(c;d&) >> g".toList 72 (by decide) (by decide)
  refine ⟨ts, tokens, (accepts _).mp ?_⟩
  have ran : parseline "a>f b|(c;d&) >> g".toList 72 0 = .ok (.pipe
      (.redir (.exec [(0, 1), (4, 5)]) 2 3 (oWronly ||| oCreate) 1)
      (.redir (.list (.exec [(7, 8)]) (.back (.exec [(9, 10)]))) 16 17 (oWronly ||| oCreate) 1),
      17) := by decide +kernel
  exact ⟨_, by rw [parsecmd, ran]; rfl⟩

end SlabStudy.Xv6.Shell
