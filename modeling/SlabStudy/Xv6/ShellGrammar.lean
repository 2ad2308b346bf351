import Mathlib.Logic.Function.Iterate
import SlabStudy.Xv6.ShellTokens

/-!
# The grammar of the shell

The parser of the shell takes as many tokens as a rule of its grammar can have,
so a command line that the grammar derives is parsed to its tree, and the tree
of a line that is parsed is one the grammar derives.
-/

namespace SlabStudy.Xv6.Shell

/-! ## Derivations -/

/-- `redir*`, where `redir ::= ('<' | '>' | '>>') word`: the operators and the files. -/
inductive Redirs : List Token → List (Token × Token) → Prop where
  | nil : Redirs [] []
  | cons {tok file : Token} {ts : List Token} {rs : List (Token × Token)}
      (operator : tok.ret ∈ ['<', '>', '+']) (word : file.ret = 'a') (rest : Redirs ts rs) :
      Redirs (tok :: file :: ts) ((tok, file) :: rs)

/-- `(word redir*)*`: the words, and the redirections between them. -/
inductive Words : List Token → List (Nat × Nat) → List (Token × Token) → Prop where
  | nil : Words [] [] []
  | cons {tok : Token} {front rest : List Token} {rs rs' : List (Token × Token)}
      {argv : List (Nat × Nat)} (word : tok.ret = 'a') (redirs : Redirs front rs)
      (more : Words rest argv rs') : Words (tok :: (front ++ rest)) ((tok.q, tok.eq) :: argv) (rs ++ rs')

/-- A command with its redirections, of which the first is the innermost. -/
def wraps (rs : List (Token × Token)) (cmd : Cmd) : Cmd :=
  rs.foldl (fun cmd r => redirected cmd r.1.ret r.2) cmd

/-- A command behind which stand `n` signs `&`. -/
def backs (n : Nat) (cmd : Cmd) : Cmd := Cmd.back^[n] cmd

inductive Nonterminal where
  | line
  | pipe
  | exec

/-- The rules of the grammar, with the tree of each. -/
inductive Derives : Nonterminal → List Token → Cmd → Prop where
  /-- `line ::= pipe '&'*` -/
  | line {front amps : List Token} {cmd : Cmd} (pipe : Derives .pipe front cmd)
      (back : ∀ t ∈ amps, t.ret = '&') : Derives .line (front ++ amps) (backs amps.length cmd)
  /-- `line ::= pipe '&'* ';' line` -/
  | list {front amps rest : List Token} {tok : Token} {cmd right : Cmd}
      (pipe : Derives .pipe front cmd) (back : ∀ t ∈ amps, t.ret = '&') (semi : tok.ret = ';')
      (line : Derives .line rest right) :
      Derives .line (front ++ (amps ++ tok :: rest)) (.list (backs amps.length cmd) right)
  /-- `pipe ::= exec` -/
  | single {ts : List Token} {cmd : Cmd} (exec : Derives .exec ts cmd) : Derives .pipe ts cmd
  /-- `pipe ::= exec '|' pipe` -/
  | pipe {front rest : List Token} {tok : Token} {cmd right : Cmd} (exec : Derives .exec front cmd)
      (bar : tok.ret = '|') (pipe : Derives .pipe rest right) :
      Derives .pipe (front ++ tok :: rest) (.pipe cmd right)
  /-- `exec ::= '(' line ')' redir*` -/
  | block {inner rest : List Token} {paren close : Token} {cmd : Cmd} {rs : List (Token × Token)}
      (opens : paren.ret = '(') (line : Derives .line inner cmd) (closes : close.ret = ')')
      (redirs : Redirs rest rs) : Derives .exec (paren :: (inner ++ close :: rest)) (wraps rs cmd)
  /-- `exec ::= redir* (word redir*)*` -/
  | simple {front rest : List Token} {argv : List (Nat × Nat)} {rs rs' : List (Token × Token)}
      (redirs : Redirs front rs) (words : Words rest argv rs') (few : argv.length ≤ maxargs - 1) :
      Derives .exec (front ++ rest) (wraps (rs ++ rs') (.exec argv))

variable {s : List Char} {p fuel : Nat} {t : Token} {ts front rest : List Token} {cmd : Cmd}

/-! ## Steps of the parser -/

/-- A token is taken. -/
theorem Tokens.next (tokens : Tokens s p (t :: ts)) :
    ∃ p', gettoken s p = (t, p') ∧ gettoken s (Shell.scan isSpace s p) = (t, p') ∧
      Tokens s p' ts := by
  obtain ⟨rfl, _, rest⟩ := tokens.uncons
  exact ⟨_, rfl, gettoken_scan s p, rest⟩

/-- The first token, where there is one that starts with one of `toks`. -/
theorem starts_cons {toks : List Char} (some : starts toks ts = true) :
    ∃ t rest, ts = t :: rest ∧ t.lead ∈ toks := by
  cases ts with
  | nil => cases some
  | cons t rest => exact ⟨t, rest, rfl, List.contains_iff_mem.mp some⟩

theorem starts_iff {toks : List Char} : starts toks (t :: ts) = true ↔ t.lead ∈ toks :=
  List.contains_iff_mem

theorem lead_redir : t.lead ∈ ['<', '>'] ↔ t.ret ∈ ['<', '>', '+'] := by
  unfold Token.lead
  simp only [List.mem_cons, List.not_mem_nil, or_false]
  split
  · next plus =>
    simp [plus]
  · next other =>
    simp [other]

/-- The other symbols are tokens of their own. -/
theorem lead_eq {c : Char} (other : c ≠ '>') (plus : c ≠ '+') : t.lead = c ↔ t.ret = c := by
  unfold Token.lead
  split
  · next same =>
    rw [same]
    exact ⟨fun eq => absurd eq.symm other, fun eq => absurd eq.symm plus⟩
  · exact Iff.rfl

theorem redir_symbols : within ['<', '>'] symbols = true := by decide

theorem parseredirs_stop (tokens : Tokens s p ts) (none : starts ['<', '>'] ts = false) :
    parseredirs s (fuel + 1) cmd p = .ok (cmd, scan isSpace s p) := by
  rw [parseredirs, tokens.peek redir_symbols, none]
  rfl

theorem parseredirs_step {tok file : Token} (tokens : Tokens s p (tok :: file :: ts))
    (operator : tok.ret ∈ ['<', '>', '+']) (word : file.ret = 'a') : ∃ p', Tokens s p' ts ∧
      ∀ fuel cmd, parseredirs s (fuel + 1) cmd p =
        parseredirs s fuel (redirected cmd tok.ret file) p' := by
  obtain ⟨middle, _, first, second⟩ := tokens.next
  obtain ⟨p', last, _, rest⟩ := second.next
  refine ⟨p', rest, fun fuel cmd => ?_⟩
  rw [parseredirs, tokens.peek redir_symbols, starts_iff.mpr (lead_redir.mpr operator)]
  dsimp only
  rw [first]
  dsimp only
  rw [last]
  dsimp only
  rw [if_pos rfl, if_neg (not_not.mpr word)]

theorem parseredirs_missing {tok : Token} (tokens : Tokens s p (tok :: ts))
    (operator : tok.ret ∈ ['<', '>', '+']) (none : ∀ file ∈ ts.head?, file.ret ≠ 'a') :
    parseredirs s (fuel + 1) cmd p = .error (.panic .missingFile) := by
  obtain ⟨middle, _, first, second⟩ := tokens.next
  rw [parseredirs, tokens.peek redir_symbols, starts_iff.mpr (lead_redir.mpr operator)]
  dsimp only
  rw [first]
  dsimp only
  have other : (gettoken s middle).1.ret ≠ 'a' := by
    cases second with
    | stop _ last =>
        rw [last]
        decide
    | token more rest => exact none _ rfl
  exact (if_pos rfl).trans (if_pos other)

/-- `parseredirs` takes redirections up to the first other token. -/
theorem parseredirs_sound (cmd : Cmd) (tokens : Tokens s p ts) (enough : ts.length < fuel) :
    (∃ front rs rest p', ts = front ++ rest ∧ Redirs front rs ∧ Tokens s p' rest ∧
      parseredirs s fuel cmd p = .ok (wraps rs cmd, p')) ∨
    ∃ reason, parseredirs s fuel cmd p = .error (.panic reason) := by
  induction fuel generalizing p ts cmd with
  | zero => exact absurd enough (Nat.not_lt_zero _)
  | succ fuel ih =>
      cases some : starts ['<', '>'] ts with
      | false => exact .inl ⟨[], [], ts, _, rfl, .nil, tokens.scan, parseredirs_stop tokens some⟩
      | true =>
          obtain ⟨tok, later, rfl, lead⟩ := starts_cons some
          have operator := lead_redir.mp lead
          by_cases word : ∃ file ts, later = file :: ts ∧ file.ret = 'a'
          · obtain ⟨file, ts, rfl, word⟩ := word
            obtain ⟨p', after, step⟩ := parseredirs_step tokens operator word
            simp only [List.length_cons] at enough
            rcases ih (redirected cmd tok.ret file) after (by omega) with
              ⟨front, rs, rest, q, rfl, redirs, left, ran⟩ | ⟨reason, stopped⟩
            · refine .inl ⟨tok :: file :: front, (tok, file) :: rs, rest, q, rfl,
                .cons operator word redirs, left, ?_⟩
              rw [step, ran]
              rfl
            · exact .inr ⟨reason, by rw [step, stopped]⟩
          · refine .inr ⟨.missingFile, parseredirs_missing tokens operator fun file head is => word ?_⟩
            cases later with
            | nil => cases head
            | cons other ts =>
                cases head
                exact ⟨_, ts, rfl, is⟩

/-- `parseredirs` takes all redirections that there are. -/
theorem parseredirs_complete (cmd : Cmd) {rs : List (Token × Token)} (redirs : Redirs front rs)
    (tokens : Tokens s p (front ++ rest)) (none : starts ['<', '>'] rest = false)
    (enough : front.length < fuel) :
    ∃ p', parseredirs s fuel cmd p = .ok (wraps rs cmd, p') ∧ Tokens s p' rest := by
  obtain ⟨fuel, rfl⟩ := Nat.exists_eq_succ_of_ne_zero (Nat.ne_of_gt (Nat.zero_lt_of_lt enough))
  induction redirs generalizing p cmd fuel with
  | nil => exact ⟨_, parseredirs_stop tokens none, tokens.scan⟩
  | cons operator word more ih =>
      obtain ⟨p', left, step⟩ := parseredirs_step tokens operator word
      simp only [List.length_cons] at enough
      obtain ⟨fuel, rfl⟩ := Nat.exists_eq_succ_of_ne_zero (n := fuel) (by omega)
      obtain ⟨q, ran, rest⟩ := ih _ left fuel (by omega)
      exact ⟨q, by rw [step, ran]; rfl, rest⟩

/-! ## Signs & behind a pipe -/

theorem parseback_stop (tokens : Tokens s p ts) (none : starts ['&'] ts = false) :
    parseback s (fuel + 1) cmd p = .ok (cmd, scan isSpace s p) := by
  rw [parseback, tokens.peek (by decide), none]
  rfl

theorem parseback_step (tokens : Tokens s p (t :: ts)) (amp : t.ret = '&') : ∃ p', Tokens s p' ts ∧
    ∀ fuel cmd, parseback s (fuel + 1) cmd p = parseback s fuel (.back cmd) p' := by
  obtain ⟨p', _, next, rest⟩ := tokens.next
  have lead : t.lead ∈ ['&'] := List.mem_singleton.mpr ((lead_eq (by decide) (by decide)).mpr amp)
  refine ⟨p', rest, fun fuel cmd => ?_⟩
  rw [parseback, tokens.peek (by decide), starts_iff.mpr lead]
  dsimp only
  rw [next, if_pos rfl]

theorem parseback_sound (cmd : Cmd) (tokens : Tokens s p ts) (enough : ts.length < fuel) :
    ∃ amps rest p', ts = amps ++ rest ∧ (∀ t ∈ amps, t.ret = '&') ∧ Tokens s p' rest ∧
      parseback s fuel cmd p = .ok (backs amps.length cmd, p') := by
  induction fuel generalizing p ts cmd with
  | zero => exact absurd enough (Nat.not_lt_zero _)
  | succ fuel ih =>
      cases some : starts ['&'] ts with
      | false => exact ⟨[], ts, _, rfl, nofun, tokens.scan, parseback_stop tokens some⟩
      | true =>
          obtain ⟨t, later, rfl, lead⟩ := starts_cons some
          have amp := (lead_eq (by decide) (by decide)).mp (List.mem_singleton.mp lead)
          obtain ⟨p', after, step⟩ := parseback_step tokens amp
          obtain ⟨amps, rest, q, rfl, all, left, ran⟩ :=
            ih (.back cmd) after (Nat.lt_of_succ_lt_succ enough)
          refine ⟨t :: amps, rest, q, rfl, List.forall_mem_cons.mpr ⟨amp, all⟩, left, ?_⟩
          rw [step, ran]
          rfl

theorem parseback_complete (cmd : Cmd) {amps : List Token} (all : ∀ t ∈ amps, t.ret = '&')
    (tokens : Tokens s p (amps ++ rest)) (none : starts ['&'] rest = false)
    (enough : amps.length < fuel) :
    ∃ p', parseback s fuel cmd p = .ok (backs amps.length cmd, p') ∧ Tokens s p' rest := by
  obtain ⟨fuel, rfl⟩ := Nat.exists_eq_succ_of_ne_zero (Nat.ne_of_gt (Nat.zero_lt_of_lt enough))
  induction amps generalizing p cmd fuel with
  | nil => exact ⟨_, parseback_stop tokens none, tokens.scan⟩
  | cons t amps ih =>
      obtain ⟨amp, all⟩ := List.forall_mem_cons.mp all
      obtain ⟨p', left, step⟩ := parseback_step tokens amp
      rw [List.length_cons] at enough
      obtain ⟨fuel, rfl⟩ := Nat.exists_eq_succ_of_ne_zero (n := fuel) (by omega)
      obtain ⟨q, ran, rest⟩ := ih _ all left fuel (by omega)
      exact ⟨q, by rw [step, ran]; rfl, rest⟩

/-! ## The words of a command -/

theorem redirected_addArg (cmd : Cmd) (tok : Char) (file : Token) (arg : Nat × Nat) :
    (redirected cmd tok file).addArg arg = redirected (cmd.addArg arg) tok file := by
  unfold redirected
  split
  · rfl
  · split <;> rfl

/-- A word goes to the command under the redirections. -/
theorem wraps_addArg (rs : List (Token × Token)) (cmd : Cmd) (arg : Nat × Nat) :
    (wraps rs cmd).addArg arg = wraps rs (cmd.addArg arg) := by
  induction rs generalizing cmd with
  | nil => rfl
  | cons r rs ih =>
      change (wraps rs (redirected cmd r.1.ret r.2)).addArg arg = _
      rw [ih, redirected_addArg]
      rfl

theorem wraps_wraps (rs rs' : List (Token × Token)) (cmd : Cmd) :
    wraps rs' (wraps rs cmd) = wraps (rs ++ rs') cmd :=
  List.foldl_append.symm

theorem Tokens.stays (tokens : Tokens s p []) : Tokens s (gettoken s p).2 [] := by
  have last := tokens.ends
  have stays : (gettoken s p).1.eq = (gettoken s p).1.q := by
    rcases gettoken_cases s p with ⟨_, _, same⟩ | ⟨single, same, _⟩ | ⟨_, same, _⟩ | ⟨_, same, _⟩ |
      ⟨_, _, same, _⟩
    · exact same
    · rw [← same, last] at single
      exact absurd single (by decide)
    · exact absurd (same.symm.trans last) (by decide)
    · exact absurd (same.symm.trans last) (by decide)
    · exact absurd (same.symm.trans last) (by decide)
  have here : (gettoken s p).2 = Shell.scan isSpace s p := by
    change Shell.scan isSpace s (gettoken s p).1.eq = _
    rw [stays]
    exact scan_scan isSpace s p
  rw [here]
  exact tokens.scan

variable {ret : Cmd} {argc : Nat}

theorem parseargs_stop (fuel : Nat) (ret : Cmd) (argc : Nat) (tokens : Tokens s p ts)
    (stops : ts = [] ∨ starts ['|', ')', '&', ';'] ts = true) :
    ∃ p', parseargs s (fuel + 1) ret argc p = .ok (ret, p') ∧ Tokens s p' ts := by
  rw [parseargs, tokens.peek (by decide)]
  rcases stops with rfl | some
  · have last := tokens.scan.ends
    have rest := tokens.scan.stays
    have none : starts ['|', ')', '&', ';'] [] = false := rfl
    rw [none]
    dsimp only
    generalize gettoken s (scan isSpace s p) = next at last rest ⊢
    refine ⟨next.2, ?_, rest⟩
    rw [if_neg Bool.false_ne_true]
    exact if_pos last
  · rw [some]
    exact ⟨_, rfl, tokens.scan⟩

/-- A word that there is room for. -/
theorem parseargs_step (tokens : Tokens s p (t :: ts)) (word : t.ret = 'a') : ∃ p', Tokens s p' ts ∧
    ∀ fuel ret argc, parseargs s (fuel + 1) ret argc p =
      if argc + 1 ≥ maxargs then .error (.panic .tooManyArgs) else
        parseredirs s fuel (ret.addArg (t.q, t.eq)) p' >>= fun r =>
          parseargs s fuel r.1 (argc + 1) r.2 := by
  obtain ⟨p', _, next, rest⟩ := tokens.next
  have other : starts ['|', ')', '&', ';'] (t :: ts) = false := by
    rw [← Bool.not_eq_true, starts_iff, Token.lead, word]
    decide
  refine ⟨p', rest, fun fuel ret argc => ?_⟩
  rw [parseargs, tokens.peek (by decide), other]
  dsimp only
  rw [next]
  dsimp only
  rw [if_neg Bool.false_ne_true, word, if_neg (by decide), if_neg (by decide)]

/-- A token that is no word and ends no command. -/
theorem parseargs_other (tokens : Tokens s p (t :: ts)) (other : t.ret ≠ 'a')
    (goes : starts ['|', ')', '&', ';'] (t :: ts) = false) :
    parseargs s (fuel + 1) ret argc p = .error (.panic .unexpected) := by
  obtain ⟨p', _, next, rest⟩ := tokens.next
  rw [parseargs, tokens.peek (by decide), goes]
  dsimp only
  rw [next]
  dsimp only
  rw [if_neg Bool.false_ne_true, if_neg tokens.uncons.2.1, if_pos other]

/-- The loop of `parseexec` takes words and redirections, of the words no more than fit. -/
theorem parseargs_sound (rs : List (Token × Token)) (argv : List (Nat × Nat))
    (tokens : Tokens s p ts) (enough : ts.length < fuel) (few : argv.length ≤ maxargs - 1) :
    (∃ front argv' rs' rest p', ts = front ++ rest ∧ Words front argv' rs' ∧ Tokens s p' rest ∧
      (argv ++ argv').length ≤ maxargs - 1 ∧
      parseargs s fuel (wraps rs (.exec argv)) argv.length p =
        .ok (wraps (rs ++ rs') (.exec (argv ++ argv')), p')) ∨
    ∃ reason, parseargs s fuel (wraps rs (.exec argv)) argv.length p = .error (.panic reason) := by
  induction fuel generalizing p ts rs argv with
  | zero => exact absurd enough (Nat.not_lt_zero _)
  | succ fuel ih =>
      by_cases stops : ts = [] ∨ starts ['|', ')', '&', ';'] ts = true
      · obtain ⟨p', ran, left⟩ := parseargs_stop fuel (wraps rs (.exec argv)) argv.length tokens stops
        refine .inl ⟨[], [], [], ts, p', rfl, .nil, left, ?_, ?_⟩
        · rw [List.append_nil]
          exact few
        · rw [List.append_nil, List.append_nil]
          exact ran
      · obtain ⟨some, goes⟩ := not_or.mp stops
        obtain ⟨t, later, rfl⟩ := List.exists_cons_of_ne_nil some
        by_cases word : t.ret = 'a'
        · obtain ⟨p', after, step⟩ := parseargs_step tokens word
          by_cases many : argv.length + 1 ≥ maxargs
          · exact .inr ⟨.tooManyArgs, by rw [step, if_pos many]⟩
          · rw [List.length_cons] at enough
            have short : later.length < fuel := Nat.lt_of_succ_lt_succ enough
            rw [step, if_neg many, wraps_addArg, Cmd.addArg]
            rcases parseredirs_sound (wraps rs (.exec (argv ++ [(t.q, t.eq)]))) after short with
              ⟨front, rs', rest, q, rfl, redirs, left, ran⟩ | ⟨reason, stopped⟩
            · rw [ran]
              change (∃ _ _ _ _ _, _ ∧ _ ∧ _ ∧ _ ∧ parseargs _ _ (wraps _ _) _ _ = _) ∨
                ∃ _, parseargs _ _ (wraps _ _) _ _ = _
              have longer : argv.length + 1 = (argv ++ [(t.q, t.eq)]).length := by
                rw [List.length_append]
                rfl
              rw [wraps_wraps, longer]
              have shorter : rest.length < fuel := by
                rw [List.length_append] at short
                omega
              rcases ih (rs ++ rs') (argv ++ [(t.q, t.eq)]) left shorter (by omega) with
                ⟨front', argv', rs'', rest', q', rfl, words, left', few', ran'⟩ | ⟨reason, stopped⟩
              · refine .inl ⟨t :: (front ++ front'), (t.q, t.eq) :: argv', rs' ++ rs'', rest', q', ?_,
                  .cons word redirs words, left', ?_, ?_⟩
                · simp
                · simpa using few'
                · rw [ran']
                  simp
              · exact .inr ⟨reason, stopped⟩
            · exact .inr ⟨reason, by rw [stopped]; rfl⟩
        · exact .inr ⟨.unexpected, parseargs_other tokens word (Bool.not_eq_true _ ▸ goes)⟩

/-! ## What may follow -/

theorem starts_mono {toks toks' : List Char} (some : starts toks ts = true)
    (more : within toks toks' = true) : starts toks' ts = true := by
  obtain ⟨t, rest, rfl, lead⟩ := starts_cons some
  exact starts_iff.mpr (within_mem more lead)

theorem starts_disjoint {toks toks' : List Char} (some : starts toks ts = true)
    (none : apart toks toks' = true) : starts toks' ts = false := by
  obtain ⟨t, rest, rfl, lead⟩ := starts_cons some
  rw [← Bool.not_eq_true, starts_iff]
  exact apart_not_mem none lead

/-- The symbols that may stand behind a phrase. -/
def Nonterminal.follow : Nonterminal → List Char
  | .line => [')']
  | .pipe => [')', '&', ';']
  | .exec => [')', '&', ';', '|']

/-- The tokens behind a phrase, none or one of these symbols in front. -/
def Follows (x : Nonterminal) (rest : List Token) : Prop := rest = [] ∨ starts x.follow rest = true

theorem Follows.not_starts {x : Nonterminal} (follows : Follows x rest) {toks : List Char}
    (none : apart x.follow toks = true) : starts toks rest = false := by
  rcases follows with rfl | some
  · rfl
  · exact starts_disjoint some none

theorem Follows.mono {x y : Nonterminal} (follows : Follows x rest)
    (more : within x.follow y.follow = true) : Follows y rest :=
  follows.imp_right fun some => starts_mono some more

/-- A symbol of its own that may stand behind a phrase. -/
theorem Follows.of_ret {x : Nonterminal} (member : t.ret ∈ x.follow) (plain : t.ret ≠ '+') :
    Follows x (t :: ts) := by
  refine .inr (starts_iff.mpr ?_)
  unfold Token.lead
  rw [if_neg plain]
  exact member

/-- Behind words there is no redirection. -/
theorem Words.not_redir {argv : List (Nat × Nat)} {rs : List (Token × Token)}
    (words : Words front argv rs) (follows : Follows .exec rest) :
    starts ['<', '>'] (front ++ rest) = false := by
  cases words with
  | nil => exact follows.not_starts (by decide)
  | cons word =>
      rw [List.cons_append, ← Bool.not_eq_true, starts_iff, Token.lead, word]
      decide

/-- The loop of `parseexec` takes all words that there are. -/
theorem parseargs_complete (rs : List (Token × Token)) {rs' : List (Token × Token)}
    (argv : List (Nat × Nat)) {argv' : List (Nat × Nat)} (words : Words front argv' rs') (tokens : Tokens s p (front ++ rest)) (follows : Follows .exec rest)
    (few : (argv ++ argv').length ≤ maxargs - 1) (enough : front.length < fuel) :
    ∃ p', parseargs s fuel (wraps rs (.exec argv)) argv.length p =
      .ok (wraps (rs ++ rs') (.exec (argv ++ argv')), p') ∧ Tokens s p' rest := by
  obtain ⟨fuel, rfl⟩ := Nat.exists_eq_succ_of_ne_zero (Nat.ne_of_gt (Nat.zero_lt_of_lt enough))
  induction words generalizing p rs argv fuel with
  | nil =>
      obtain ⟨p', ran, left⟩ := parseargs_stop fuel (wraps rs (.exec argv)) argv.length
        tokens (follows.imp_right fun some => starts_mono some (by decide))
      exact ⟨p', by rw [List.append_nil, List.append_nil]; exact ran, left⟩
  | @cons tok front more rs' rs'' argv' word redirs words ih =>
      rw [List.cons_append, List.append_assoc] at tokens
      obtain ⟨p', after, step⟩ := parseargs_step tokens word
      simp only [List.length_append, List.length_cons] at few enough
      obtain ⟨fuel, rfl⟩ := Nat.exists_eq_succ_of_ne_zero (n := fuel) (by omega)
      have room : ¬ argv.length + 1 ≥ maxargs := by
        simp only [maxargs] at few ⊢
        omega
      obtain ⟨q, ran, left⟩ := parseredirs_complete (wraps rs (.exec (argv ++ [(tok.q, tok.eq)])))
        redirs after (words.not_redir follows) (show front.length < fuel + 1 by omega)
      have longer : argv.length + 1 = (argv ++ [(tok.q, tok.eq)]).length := by
        rw [List.length_append]
        rfl
      obtain ⟨q', ran', rest⟩ := ih (rs ++ rs') (argv ++ [(tok.q, tok.eq)]) left
        (by simp only [List.length_append, List.length_cons, List.length_nil]; omega) fuel (by omega)
      refine ⟨q', ?_, rest⟩
      rw [step, if_neg room, wraps_addArg, Cmd.addArg, ran]
      change parseargs _ _ (wraps _ _) _ _ = _
      rw [wraps_wraps, longer, ran']
      simp

/-! ## Phrases -/

/-- The function that parses a phrase. -/
def parse (s : List Char) : Nonterminal → Nat → Nat → Except Stop (Cmd × Nat)
  | .line => parseline s
  | .pipe => parsepipe s
  | .exec => parseexec s

/-- The calls that a phrase needs before it takes a token. -/
def Nonterminal.depth : Nonterminal → Nat
  | .line => 4
  | .pipe => 3
  | .exec => 2

theorem lead_mem {c : Char} (plain : c ≠ '>' ∧ c ≠ '+') : starts [c] (t :: ts) = true ↔ t.ret = c := by
  rw [starts_iff, List.mem_singleton, lead_eq plain.1 plain.2]

section Steps

variable {cmd' : Cmd} {q : Nat}

theorem parseline_stop (first : parsepipe s fuel p = .ok (cmd, q)) {q' : Nat}
    (second : parseback s fuel cmd q = .ok (cmd', q')) (tokens : Tokens s q' ts)
    (none : starts [';'] ts = false) :
    parseline s (fuel + 1) p = .ok (cmd', scan isSpace s q') := by
  rw [parseline, first]
  change (parseback s fuel cmd q >>= _) = _
  rw [second]
  dsimp only [Bind.bind, Except.bind]
  rw [tokens.peek (by decide), none]
  rfl

theorem parseline_step (first : parsepipe s fuel p = .ok (cmd, q)) {q' : Nat}
    (second : parseback s fuel cmd q = .ok (cmd', q')) (tokens : Tokens s q' (t :: ts))
    (semi : t.ret = ';') : ∃ p', Tokens s p' ts ∧ parseline s (fuel + 1) p =
      parseline s fuel p' >>= fun r => .ok (.list cmd' r.1, r.2) := by
  obtain ⟨p', _, next, rest⟩ := tokens.next
  refine ⟨p', rest, ?_⟩
  rw [parseline, first]
  change (parseback s fuel cmd q >>= _) = _
  rw [second]
  dsimp only [Bind.bind, Except.bind]
  rw [tokens.peek (by decide), (lead_mem (by decide)).mpr semi]
  dsimp only
  rw [next]
  rfl

theorem parsepipe_stop (first : parseexec s fuel p = .ok (cmd, q)) (tokens : Tokens s q ts)
    (none : starts ['|'] ts = false) :
    parsepipe s (fuel + 1) p = .ok (cmd, scan isSpace s q) := by
  rw [parsepipe, first]
  dsimp only [Bind.bind, Except.bind]
  rw [tokens.peek (by decide), none]
  rfl

theorem parsepipe_step (first : parseexec s fuel p = .ok (cmd, q)) (tokens : Tokens s q (t :: ts))
    (bar : t.ret = '|') : ∃ p', Tokens s p' ts ∧ parsepipe s (fuel + 1) p =
      parsepipe s fuel p' >>= fun r => .ok (.pipe cmd r.1, r.2) := by
  obtain ⟨p', _, next, rest⟩ := tokens.next
  refine ⟨p', rest, ?_⟩
  rw [parsepipe, first]
  dsimp only [Bind.bind, Except.bind]
  rw [tokens.peek (by decide), (lead_mem (by decide)).mpr bar]
  dsimp only
  rw [next]
  rfl

theorem parseexec_simple (fuel : Nat) (tokens : Tokens s p ts) (none : starts ['('] ts = false) :
    parseexec s (fuel + 1) p = parseredirs s fuel (.exec []) (scan isSpace s p) >>= fun r =>
      parseargs s fuel r.1 0 r.2 := by
  rw [parseexec, tokens.peek (by decide), none]
  rfl

theorem parseexec_block (tokens : Tokens s p (t :: ts)) (opens : t.ret = '(') :
    ∃ p', Tokens s p' ts ∧ ∀ fuel, parseexec s (fuel + 2) p = parseline s fuel p' >>= fun r =>
      if (peek s r.2 [')']).1 = true then parseredirs s fuel r.1 (gettoken s (peek s r.2 [')']).2).2
      else .error (.panic .missingParen) := by
  obtain ⟨p', _, next, rest⟩ := tokens.next
  have paren : starts ['('] (t :: ts) = true := (lead_mem (by decide)).mpr opens
  refine ⟨p', rest, fun fuel => ?_⟩
  rw [parseexec, tokens.peek (by decide), paren]
  change parseblock s (fuel + 1) (scan isSpace s p) = _
  rw [parseblock, tokens.scan.peek (by decide), paren, scan_scan]
  change (parseline s fuel (gettoken s (scan isSpace s p)).2 >>= _) = _
  rw [next]
  refine congrArg _ (funext fun r => ?_)
  change (if (!(peek s r.2 [')']).1) = true then _ else _) = _
  cases (peek s r.2 [')']).1 <;> rfl

end Steps

/-- What is parsed is a phrase of the grammar. -/
theorem parse_sound (x : Nonterminal) (tokens : Tokens s p ts)
    (enough : 4 * ts.length + x.depth ≤ fuel) :
    (∃ front rest cmd p', ts = front ++ rest ∧ Derives x front cmd ∧ Tokens s p' rest ∧
      parse s x fuel p = .ok (cmd, p')) ∨
    ∃ reason, parse s x fuel p = .error (.panic reason) := by
  induction fuel using Nat.strong_induction_on generalizing x p ts with
  | _ fuel ih =>
      cases x with
      | line =>
          simp only [Nonterminal.depth] at enough
          obtain ⟨fuel, rfl⟩ := Nat.exists_eq_succ_of_ne_zero (n := fuel) (by omega)
          rcases ih fuel (Nat.lt_succ_self _) .pipe tokens (by
              simp only [Nonterminal.depth]
              omega) with
            ⟨front, rest, cmd, p', rfl, derives, left, ran⟩ | ⟨reason, stopped⟩
          · rw [List.length_append] at enough
            have short : rest.length < fuel := by omega
            obtain ⟨amps, rest, q, rfl, all, left, back⟩ := parseback_sound cmd left short
            rw [List.length_append] at enough
            cases semi : starts [';'] rest with
            | false =>
                refine .inl ⟨front ++ amps, rest, _, _, by rw [List.append_assoc], .line derives all,
                  left.scan, parseline_stop ran back left semi⟩
            | true =>
                obtain ⟨tok, rest, rfl, _⟩ := starts_cons semi
                have sign := (lead_mem (by decide)).mp semi
                rw [List.length_cons] at enough
                obtain ⟨p'', after, step⟩ := parseline_step ran back left sign
                rcases ih fuel (Nat.lt_succ_self _) .line after (by
                    simp only [Nonterminal.depth]
                    omega) with
                  ⟨front', rest, right, q', rfl, derives', left, ran'⟩ | ⟨reason, stopped⟩
                · refine .inl ⟨front ++ (amps ++ tok :: front'), rest, _, q', by simp,
                    .list derives all sign derives', left, ?_⟩
                  refine step.trans ?_
                  rw [show parseline s fuel p'' = _ from ran']
                  rfl
                · exact .inr ⟨reason, by
                    refine step.trans ?_
                    rw [show parseline s fuel p'' = _ from stopped]
                    rfl⟩
          · exact .inr ⟨reason, by
              rw [parse, parseline, show parsepipe s fuel p = _ from stopped]
              rfl⟩
      | pipe =>
          simp only [Nonterminal.depth] at enough
          obtain ⟨fuel, rfl⟩ := Nat.exists_eq_succ_of_ne_zero (n := fuel) (by omega)
          rcases ih fuel (Nat.lt_succ_self _) .exec tokens (by
              simp only [Nonterminal.depth]
              omega) with
            ⟨front, rest, cmd, p', rfl, derives, left, ran⟩ | ⟨reason, stopped⟩
          · cases bar : starts ['|'] rest with
            | false =>
                exact .inl ⟨front, rest, cmd, _, rfl, .single derives, left.scan,
                  parsepipe_stop ran left bar⟩
            | true =>
                obtain ⟨tok, rest, rfl, _⟩ := starts_cons bar
                have sign := (lead_mem (by decide)).mp bar
                rw [List.length_append, List.length_cons] at enough
                obtain ⟨p'', after, step⟩ := parsepipe_step ran left sign
                rcases ih fuel (Nat.lt_succ_self _) .pipe after (by
                    simp only [Nonterminal.depth]
                    omega) with
                  ⟨front', rest, right, q', rfl, derives', left, ran'⟩ | ⟨reason, stopped⟩
                · refine .inl ⟨front ++ tok :: front', rest, _, q', by simp,
                    .pipe derives sign derives', left, ?_⟩
                  refine step.trans ?_
                  rw [show parsepipe s fuel p'' = _ from ran']
                  rfl
                · exact .inr ⟨reason, by
                    refine step.trans ?_
                    rw [show parsepipe s fuel p'' = _ from stopped]
                    rfl⟩
          · exact .inr ⟨reason, by
              rw [parse, parsepipe, show parseexec s fuel p = _ from stopped]
              rfl⟩
      | exec =>
          simp only [Nonterminal.depth] at enough
          cases paren : starts ['('] ts with
          | false =>
              obtain ⟨fuel, rfl⟩ := Nat.exists_eq_succ_of_ne_zero (n := fuel) (by omega)
              have step := parseexec_simple fuel tokens paren
              rcases parseredirs_sound (.exec []) tokens.scan (show ts.length < fuel by omega) with
                ⟨front, rs, rest, q, rfl, redirs, left, ran⟩ | ⟨reason, stopped⟩
              · rw [List.length_append] at enough
                rcases parseargs_sound rs [] left (show rest.length < fuel by omega)
                    (Nat.zero_le _) with
                  ⟨front', argv, rs', rest, q', rfl, words, left, few, ran'⟩ | ⟨reason, stopped⟩
                · refine .inl ⟨front ++ front', rest, _, q', by rw [List.append_assoc],
                    .simple redirs words few, left, ?_⟩
                  refine step.trans ?_
                  rw [ran]
                  exact ran'
                · exact .inr ⟨reason, by
                    refine step.trans ?_
                    rw [ran]
                    exact stopped⟩
              · exact .inr ⟨reason, by
                  refine step.trans ?_
                  rw [stopped]
                  rfl⟩
          | true =>
              obtain ⟨fuel, rfl⟩ := Nat.exists_eq_add_of_le' (show 2 ≤ fuel by omega)
              obtain ⟨tok, rest, rfl, _⟩ := starts_cons paren
              have sign := (lead_mem (by decide)).mp paren
              rw [List.length_cons] at enough
              obtain ⟨p'', after, step⟩ := parseexec_block tokens sign
              rcases ih fuel (by omega) .line after (by
                  simp only [Nonterminal.depth]
                  omega) with
                ⟨inner, rest, cmd, q, rfl, derives, left, ran⟩ | ⟨reason, stopped⟩
              · have entered := step fuel
                rw [show parseline s fuel p'' = _ from ran] at entered
                dsimp only [Bind.bind, Except.bind] at entered
                rw [left.peek (by decide)] at entered
                dsimp only at entered
                cases shut : starts [')'] rest with
                | false =>
                    rw [shut, if_neg Bool.false_ne_true] at entered
                    exact .inr ⟨_, entered⟩
                | true =>
                    obtain ⟨close, rest, rfl, _⟩ := starts_cons shut
                    have closes := (lead_mem (by decide)).mp shut
                    obtain ⟨q', _, next, behind⟩ := left.next
                    rw [shut, if_pos rfl, next] at entered
                    rw [List.length_append, List.length_cons] at enough
                    rcases parseredirs_sound cmd behind (show rest.length < fuel by omega) with
                      ⟨front, rs, rest, r, rfl, redirs, last, wrapped⟩ | ⟨reason, stopped⟩
                    · exact .inl ⟨tok :: (inner ++ close :: front), rest, _, r, by simp,
                        .block sign derives closes redirs, last, entered.trans wrapped⟩
                    · exact .inr ⟨reason, entered.trans stopped⟩
              · exact .inr ⟨reason, by
                  refine (step fuel).trans ?_
                  rw [show parseline s fuel p'' = _ from stopped]
                  rfl⟩

end SlabStudy.Xv6.Shell
