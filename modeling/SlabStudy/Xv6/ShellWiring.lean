import Mathlib.Tactic.IntervalCases
import SlabStudy.Xv6.ShellRun

/-!
# What the commands of a session are connected to

The standard files of every command by its place, and that the shell's code
gives each of them exactly these, whatever descriptors it has used on the way.
-/

namespace SlabStudy.Xv6.Shell

open Library

/-! ## The meaning of the operators -/

/-- Standard input, output and error. -/
structure Io where
  inp : File
  out : File
  err : File
  deriving DecidableEq, Repr

/-- The descriptors of a process with these files and no others. -/
def Io.fds (io : Io) : Fds
  | 0 => some io.inp
  | 1 => some io.out
  | 2 => some io.err
  | _ + 3 => none

/-- A redirection. -/
def Io.set (io : Io) (fd : Nat) (file : File) : Io :=
  if fd = 0 then { io with inp := file }
  else if fd = 1 then { io with out := file }
  else { io with err := file }

/-- The files of the commands in a command at `place` that has the files `io`. -/
def stdio : Cmd → Io → Place → List Turn → Option Io
  | _, io, _, [] => some io
  | .redir cmd _ _ _ fd, io, place, .body :: rest =>
    stdio cmd (io.set fd (.opened place)) (place ++ [.body]) rest
  | .pipe cmd _, io, place, .left :: rest =>
    stdio cmd { io with out := .writeEnd place } (place ++ [.left]) rest
  | .pipe _ cmd, io, place, .right :: rest =>
    stdio cmd { io with inp := .readEnd place } (place ++ [.right]) rest
  | .list cmd _, io, place, .left :: rest => stdio cmd io (place ++ [.left]) rest
  | .list _ cmd, io, place, .right :: rest => stdio cmd io (place ++ [.right]) rest
  | .back cmd, io, place, .back :: rest => stdio cmd io (place ++ [.back]) rest
  | _, _, _, _ :: _ => none

/-- The command at the end of a way down. -/
def Cmd.at : Cmd → List Turn → Option Cmd
  | cmd, [] => some cmd
  | .redir cmd _ _ _ _, .body :: rest => cmd.at rest
  | .pipe cmd _, .left :: rest => cmd.at rest
  | .pipe _ cmd, .right :: rest => cmd.at rest
  | .list cmd _, .left :: rest => cmd.at rest
  | .list _ cmd, .right :: rest => cmd.at rest
  | .back cmd, .back :: rest => cmd.at rest
  | _, _ :: _ => none

/-- The command at a place of a session. -/
def cmdAt (session : List Cmd) : Place → Option Cmd
  | .line k :: rest => session[k]?.bind fun cmd => cmd.at rest
  | _ => none

/-- The files at a place of a session; the shell itself is at the empty place. -/
def stdioAt (session : List Cmd) (io : Io) : Place → Option Io
  | [] => some io
  | .line k :: rest => session[k]?.bind fun cmd => stdio cmd io [.line k] rest
  | _ :: _ => none

/-- All redirections are of standard files. -/
def Cmd.Standard : Cmd → Prop
  | .exec _ => True
  | .redir cmd _ _ _ fd => fd < 3 ∧ cmd.Standard
  | .pipe left right | .list left right => left.Standard ∧ right.Standard
  | .back cmd => cmd.Standard

/-- A command's files: those it may have by the meaning of pipes. -/
def Near (place : Place) : File → Prop
  | .other _ | .opened _ => True
  | .readEnd pipe => pipe ++ [.right] <+: place
  | .writeEnd pipe => pipe ++ [.left] <+: place

structure Io.Near (place : Place) (io : Io) : Prop where
  inp : Shell.Near place io.inp
  out : Shell.Near place io.out
  err : Shell.Near place io.err

theorem Near.down {place : Place} {file : File} (near : Near place file) (turn : Turn) :
    Near (place ++ [turn]) file := by
  cases file with
  | other n => trivial
  | opened at0 => trivial
  | readEnd pipe => exact near.trans (List.prefix_append place [turn])
  | writeEnd pipe => exact near.trans (List.prefix_append place [turn])

theorem Io.Near.down {place : Place} {io : Io} (near : io.Near place) (turn : Turn) :
    io.Near (place ++ [turn]) :=
  ⟨near.inp.down turn, near.out.down turn, near.err.down turn⟩

theorem Io.Near.set {place : Place} {io : Io} {file : File} (near : io.Near place)
    (fileNear : Shell.Near place file) (fd : Nat) : (io.set fd file).Near place := by
  unfold Io.set
  split
  · exact ⟨fileNear, near.out, near.err⟩
  · split
    · exact ⟨near.inp, fileNear, near.err⟩
    · exact ⟨near.inp, near.out, fileNear⟩

/-- By their meaning, commands have a pipe's ends on its sides only. -/
theorem stdio_near {cmd : Cmd} {io io' : Io} {place : Place} {rest : List Turn}
    (found : stdio cmd io place rest = some io') (near : io.Near place) :
    io'.Near (place ++ rest) := by
  induction rest generalizing cmd io place with
  | nil =>
      obtain rfl : io = io' := by simpa [stdio] using found
      simpa using near
  | cons turn rest ih =>
      have whole : place ++ turn :: rest = place ++ [turn] ++ rest := by simp
      rw [whole]
      cases cmd with
      | exec argv => simp [stdio] at found
      | redir cmd file efile mode fd =>
          cases turn with
          | body =>
              have opened : Shell.Near place (.opened place) := trivial
              exact ih found ((near.set opened fd).down .body)
          | _ => simp [stdio] at found
      | pipe left right =>
          cases turn with
          | left =>
              have down := near.down .left
              exact ih found ⟨down.inp, List.prefix_rfl, down.err⟩
          | right =>
              have down := near.down .right
              exact ih found ⟨List.prefix_rfl, down.out, down.err⟩
          | _ => simp [stdio] at found
      | list left right =>
          cases turn with
          | left => exact ih found (near.down .left)
          | right => exact ih found (near.down .right)
          | _ => simp [stdio] at found
      | back cmd =>
          cases turn with
          | back => exact ih found (near.down .back)
          | _ => simp [stdio] at found

/-- The files that the shell has when it starts are none of its own making. -/
def Io.Outer (io : Io) : Prop := ∀ place, io.Near place

theorem stdioAt_near {session : List Cmd} {io io' : Io} {place : Place}
    (found : stdioAt session io place = some io') (outer : io.Outer) : io'.Near place := by
  cases place with
  | nil =>
      obtain rfl : io = io' := by simpa [stdioAt] using found
      exact outer []
  | cons turn rest =>
      cases turn with
      | line k =>
          obtain ⟨cmd, _, found⟩ := Option.bind_eq_some_iff.mp found
          exact stdio_near found (outer [.line k])
      | _ => simp [stdioAt] at found

/-- Everything a process with standard files has open is near it. -/
theorem Io.Near.fds {place : Place} {io : Io} (near : io.Near place) {fd : Nat} {file : File}
    (has : io.fds fd = some file) : Shell.Near place file := by
  match fd, has with
  | 0, has =>
      obtain rfl := Option.some.inj has
      exact near.inp
  | 1, has =>
      obtain rfl := Option.some.inj has
      exact near.out
  | 2, has =>
      obtain rfl := Option.some.inj has
      exact near.err

/-! ## The descriptors on the way -/

theorem lowest_eq {fds : Fds} {k : Nat} (free : fds k = none) (small : k < nofile)
    (below : ∀ j, j < k → fds j ≠ none) : lowest fds = some k := by
  unfold lowest
  rw [List.find?_range_eq_some]
  refine ⟨by simp [free], List.mem_range.mpr small, fun j less => ?_⟩
  cases taken : fds j with
  | none => exact absurd taken (below j less)
  | some file => rfl

variable {session : List Cmd} {io io' : Io} {place : Place} {l l' : Local} {cmd : Cmd}

/-- The descriptors while the two ends of a pipe are open as well. -/
def Io.withPipe (io : Io) (place : Place) : Fds :=
  Function.update (Function.update io.fds 3 (some (.readEnd place))) 4 (some (.writeEnd place))

theorem lowest_pipe (io : Io) (place : Place) : lowest io.fds = some 3 ∧
    lowest (Function.update io.fds 3 (some (.readEnd place))) = some 4 := by
  constructor
  · refine lowest_eq rfl (by decide) fun j less => ?_
    interval_cases j <;> exact Option.some_ne_none _
  · refine lowest_eq (by simp [Io.fds]) (by decide) fun j less => ?_
    interval_cases j <;> simp [Io.fds]

/-- Once both ends are closed the standard files are left. -/
theorem withPipe_close (io : Io) (place : Place) :
    Function.update (Function.update (io.withPipe place) 3 none) 4 none = io.fds := by
  funext fd
  match fd with
  | 0 | 1 | 2 | 3 | 4 => simp [Io.withPipe, Io.fds]
  | n + 5 => simp [Io.withPipe, Io.fds]

/-- The standard file `fd` is closed: the next file takes its place. -/
theorem reopen (io : Io) {fd : Nat} (small : fd < 3) (file : File) :
    lowest (Function.update io.fds fd none) = some fd ∧
      Function.update (Function.update io.fds fd none) fd (some file) = (io.set fd file).fds := by
  constructor
  · refine lowest_eq (by simp) (small.trans (by decide)) fun j less => ?_
    rw [Function.update_of_ne (by omega)]
    have bound : j < 3 := by omega
    interval_cases j <;> exact Option.some_ne_none _
  · rw [Function.update_idem]
    funext n
    match n with
    | 0 | 1 | 2 | n + 3 => interval_cases fd <;> simp [Io.set, Io.fds]

/-- A side of a pipe: a standard file is replaced by an end, and both ends are closed. -/
theorem side (io : Io) (place : Place) {fd : Nat} (small : fd < 2) (file : File) :
    lowest (Function.update (io.withPipe place) fd none) = some fd ∧
      Function.update (Function.update (Function.update (Function.update (io.withPipe place)
        fd none) fd (some file)) 3 none) 4 none = (io.set fd file).fds := by
  constructor
  · refine lowest_eq (by simp) (small.trans (by decide)) fun j less => ?_
    have zero : j = 0 := by omega
    subst zero
    rw [Function.update_of_ne (by omega)]
    simp [Io.withPipe, Io.fds]
  · funext n
    match n with
    | 0 | 1 | 2 | 3 | 4 | n + 5 => interval_cases fd <;> simp [Io.withPipe, Io.set, Io.fds]

/-! ## What holds in front of every call -/

/-- The descriptors of a process are those of the command at its place, and no others. -/
def Wired (session : List Cmd) (io : Io) (place : Place) (fds : Fds) : Prop :=
  ∃ io', stdioAt session io place = some io' ∧ fds = io'.fds

/-- The descriptors of a process are some of those of the command at its place. -/
def Within (session : List Cmd) (io : Io) (place : Place) (fds : Fds) : Prop :=
  ∃ io', stdioAt session io place = some io' ∧ ∀ fd file, fds fd = some file → io'.fds fd = some file

theorem Wired.within (wired : Wired session io place fds) : Within session io place fds := by
  obtain ⟨io', found, rfl⟩ := wired
  exact ⟨io', found, fun _ _ => id⟩

theorem Within.close (within : Within session io place fds) (fd : Nat) :
    Within session io place (Function.update fds fd none) := by
  obtain ⟨io', found, has⟩ := within
  refine ⟨io', found, fun fd' file taken => ?_⟩
  by_cases own : fd' = fd
  · rw [own, Function.update_self] at taken
    cases taken
  · rw [Function.update_of_ne own] at taken
    exact has fd' file taken

/-- What the shell relies on, and what it promises to the programs it starts. -/
def Guard (session : List Cmd) (io : Io) : Act → Local → Prop
  | .close _, _ | .closeEnd _, _ | .dup _, _ => True
  | .open place _ _ _, l | .pipe place, l => Within session io place l.fds ∧ l.kids = []
  | .wait place, l => Wired session io place l.fds ∧ l.kids ≠ [] ∧ l.away = false
  | .exec place argv, l => Wired session io place l.fds ∧ l.kids = [] ∧
    cmdAt session place = some (.exec argv)
  | .exit place _, l => Wired session io place l.fds ∧ l.kids = []

/-- A process is at the start of a command. -/
structure Starting (session : List Cmd) (io : Io) (cmd : Cmd) (io' : Io) (place : Place) :
    Prop where
  files : ∀ rest, stdioAt session io (place ++ rest) = stdio cmd io' place rest
  commands : ∀ rest, cmdAt session (place ++ rest) = cmd.at rest

theorem Starting.wired (starting : Starting session io cmd io' place) (fds : l.fds = io'.fds) :
    Wired session io place l.fds := by
  refine ⟨io', ?_, fds⟩
  have found := starting.files []
  rw [List.append_nil] at found
  rw [found]
  cases cmd <;> rfl

/-- Down one turn. -/
theorem Starting.down {next : Cmd} {turn : Turn} {io'' : Io}
    (starting : Starting session io cmd io' place)
    (files : ∀ rest, stdio cmd io' place (turn :: rest) = stdio next io'' (place ++ [turn]) rest)
    (commands : ∀ rest, cmd.at (turn :: rest) = next.at rest) :
    Starting session io next io'' (place ++ [turn]) := by
  refine ⟨fun rest => ?_, fun rest => ?_⟩
  · rw [List.append_assoc, List.singleton_append, starting.files, files]
  · rw [List.append_assoc, List.singleton_append, starting.commands, commands]

/-- The only child has been waited for. -/
theorem erase_only {kids : List Nat} {kid kid' : Nat} (none : kids = [])
    (member : kid' ∈ kid :: kids) : (kid :: kids).erase kid' = [] := by
  subst none
  obtain rfl := List.mem_singleton.mp member
  exact List.erase_cons_head _ _

theorem Does.dup_eq {which : End} {file : File} {fd : Nat} (does : Does (.dup which) l l')
    (has : l.fds (l.p which) = some file) (free : lowest l.fds = some fd) :
    l' = { l with fds := Function.update l.fds fd (some file) } := by
  simp only [Does, has, free] at does
  exact does

/-- The calls of a side of a pipe before its command. -/
theorem side_meets {fd : Nat} {next : Code} (which : End) (file : File) (small : fd < 2)
    (fds : l.fds = io'.withPipe place) (p0 : l.p0 = 3) (p1 : l.p1 = 4)
    (has : io'.withPipe place (l.p which) = some file)
    (after : ∀ l' : Local, l'.fds = (io'.set fd file).fds → l'.kids = l.kids →
      l'.away = l.away → next.Meets effects (Guard session io) l') :
    (calls [.close fd, .dup which, .closeEnd .read, .closeEnd .write] next).Meets effects
      (Guard session io) l := by
  obtain ⟨free, same⟩ := side io' place small file
  have other : l.p which ≠ fd := by
    cases which <;> simp only [Local.p, p0, p1] <;> omega
  refine ⟨trivial, ?_⟩
  rintro l₁ rfl
  refine ⟨trivial, ?_⟩
  intro l₂ does
  have held : Function.update l.fds fd none (l.p which) = some file := by
    rw [Function.update_of_ne other, fds]
    exact has
  rw [← fds] at free
  obtain rfl := Does.dup_eq does held free
  refine ⟨trivial, ?_⟩
  rintro l₃ rfl
  refine ⟨trivial, ?_⟩
  rintro l₄ rfl
  refine after _ ?_ rfl rfl
  simp only [Local.p, p0, p1, fds]
  exact same

/-- Every command keeps its promises. -/
theorem runcmd_meets (starting : Starting session io cmd io' place) (standard : cmd.Standard)
    (fds : l.fds = io'.fds) (none : l.kids = []) (here : l.away = false) :
    (runcmd place cmd).Meets effects (Guard session io) l := by
  induction cmd generalizing place io' l with
  | exec argv =>
      have found := starting.commands []
      rw [List.append_nil] at found
      cases argv with
      | nil => exact ⟨⟨starting.wired fds, none⟩, fun _ no => absurd no id⟩
      | cons arg argv =>
          refine ⟨⟨starting.wired fds, none, found⟩, ?_⟩
          rintro _ rfl
          exact ⟨⟨starting.wired fds, none⟩, fun _ no => absurd no id⟩
  | redir cmd file efile mode fd ih =>
      obtain ⟨small, standard⟩ := standard
      obtain ⟨free, same⟩ := reopen io' small (.opened place)
      refine ⟨trivial, ?_⟩
      rintro _ rfl
      refine ⟨⟨(starting.wired fds).within.close fd, none⟩, ?_⟩
      rintro _ ⟨fd', found, rfl⟩
      dsimp only at found
      rw [fds] at found
      obtain rfl := Option.some.inj (free.symm.trans found)
      refine ih (starting.down (fun _ => rfl) fun _ => rfl) standard ?_ none here
      dsimp only
      rw [fds]
      exact same
  | list left right ihLeft ihRight =>
      refine ⟨?_, ?_⟩
      · rintro _ rfl
        exact ihLeft (starting.down (fun _ => rfl) fun _ => rfl) standard.1 fds rfl rfl
      · rintro _ ⟨kid, _, rfl⟩
        refine ⟨⟨starting.wired fds, List.cons_ne_nil _ _, here⟩, ?_⟩
        rintro _ ⟨kid', member, rfl⟩
        refine ihRight (starting.down (fun _ => rfl) fun _ => rfl) standard.2 fds ?_ here
        exact erase_only none member
  | pipe left right ihLeft ihRight =>
      obtain ⟨first, second⟩ := lowest_pipe io' place
      refine ⟨⟨(starting.wired fds).within, none⟩, ?_⟩
      rintro l₁ ⟨fd0, fd1, found, found', rfl⟩
      rw [fds] at found found' ⊢
      obtain rfl := Option.some.inj (first.symm.trans found)
      obtain rfl := Option.some.inj (second.symm.trans found')
      refine ⟨?_, ?_⟩
      · -- The left side writes to the pipe.
        rintro _ rfl
        refine side_meets .write (.writeEnd place) (by decide) rfl rfl rfl rfl ?_
        intro l₂ fds₂ none₂ here₂
        exact ihLeft (starting.down (fun _ => rfl) fun _ => rfl) standard.1 fds₂ none₂ here₂
      · rintro _ ⟨kid, _, rfl⟩
        refine ⟨?_, ?_⟩
        · -- The right side reads from it.
          rintro _ rfl
          refine side_meets .read (.readEnd place) (by decide) rfl rfl rfl rfl ?_
          intro l₂ fds₂ none₂ here₂
          exact ihRight (starting.down (fun _ => rfl) fun _ => rfl) standard.2 fds₂ none₂ here₂
        · rintro _ ⟨kid', fresh, rfl⟩
          refine ⟨trivial, ?_⟩
          rintro _ rfl
          refine ⟨trivial, ?_⟩
          rintro _ rfl
          have closed := starting.wired (l := { l with fds := io'.fds }) rfl
          rw [← withPipe_close io' place] at closed
          refine ⟨⟨closed, List.cons_ne_nil _ _, here⟩, ?_⟩
          rintro _ ⟨first', member, rfl⟩
          have one : ((kid' :: kid :: l.kids).erase first').length = 1 := by
            rw [List.length_erase_of_mem member, none]
            rfl
          refine ⟨⟨closed, ?_, here⟩, ?_⟩
          · intro no
            dsimp only at no
            rw [no] at one
            cases one
          · rintro _ ⟨second', member', rfl⟩
            refine ⟨⟨closed, ?_⟩, fun _ no => absurd no id⟩
            refine List.eq_nil_of_length_eq_zero ?_
            rw [List.length_erase_of_mem member', one]
  | back cmd ih =>
      refine ⟨?_, ?_⟩
      · rintro _ rfl
        exact ih (starting.down (fun _ => rfl) fun _ => rfl) standard fds rfl rfl
      · rintro _ rfl
        exact ⟨⟨starting.wired fds, none⟩, fun _ no => absurd no id⟩

/-- So does the loop of the shell itself. -/
theorem mainLoop_meets {lines : List Cmd} {k : Nat} (rest : session.drop k = lines)
    (standard : ∀ cmd ∈ session, cmd.Standard) (fds : l.fds = io.fds) (none : l.kids = [])
    (here : l.away = false) : (mainLoop k lines).Meets effects (Guard session io) l := by
  induction lines generalizing k l with
  | nil => exact ⟨⟨⟨io, rfl, fds⟩, none⟩, fun _ no => absurd no id⟩
  | cons cmd lines ih =>
      have found : session[k]? = some cmd := by
        rw [← List.head?_drop, rest]
        rfl
      have member : cmd ∈ session := List.mem_of_getElem? found
      refine ⟨?_, ?_⟩
      · rintro _ rfl
        have starting : Starting session io cmd io [.line k] := by
          refine ⟨fun way => ?_, fun way => ?_⟩
          · simp [stdioAt, found]
          · simp [cmdAt, found]
        exact runcmd_meets starting (standard cmd member) fds rfl rfl
      · rintro _ ⟨kid, _, rfl⟩
        refine ⟨⟨⟨io, rfl, fds⟩, List.cons_ne_nil _ _, here⟩, ?_⟩
        rintro _ ⟨kid', member', rfl⟩
        refine ih ?_ fds (erase_only none member') here
        rw [← List.drop_drop, rest, List.drop_one, List.tail_cons]

/-! ## What the parser makes -/

theorem Cmd.Standard.addArg {arg : Nat × Nat} (standard : cmd.Standard) :
    (cmd.addArg arg).Standard := by
  induction cmd with
  | redir cmd file efile mode fd ih => exact ⟨standard.1, ih standard.2⟩
  | _ => exact standard

theorem redirected_standard {tok : Char} {file : Token} (standard : cmd.Standard) :
    (redirected cmd tok file).Standard := by
  unfold redirected
  split
  · exact ⟨by decide, standard⟩
  · split
    · exact ⟨by decide, standard⟩
    · exact standard

/-- The parse has no command or a standard one. -/
def Makes (result : Except Stop (Cmd × Nat)) : Prop := ∀ x, result = .ok x → x.1.Standard

theorem Makes.error (reason : Stop) : Makes (.error reason) := fun _ no => by cases no

theorem Makes.ok {p : Nat} (standard : cmd.Standard) : Makes (.ok (cmd, p)) := by
  intro x same
  cases same
  exact standard

theorem Makes.bind {first : Except Stop (Cmd × Nat)}
    {then' : Cmd × Nat → Except Stop (Cmd × Nat)} (makes : Makes first)
    (after : ∀ x, x.1.Standard → Makes (then' x)) : Makes (first >>= then') := by
  cases first with
  | error reason => exact .error reason
  | ok x => exact after x (makes x rfl)

theorem Makes.ite {test : Prop} [Decidable test] {first second : Except Stop (Cmd × Nat)}
    (yes : Makes first) (no : Makes second) : Makes (if test then first else second) := by
  split
  · exact yes
  · exact no

section Parser

variable (s : List Char)

theorem parseredirs_standard (fuel ps : Nat) (standard : cmd.Standard) :
    Makes (parseredirs s fuel cmd ps) := by
  induction fuel generalizing cmd ps with
  | zero => exact .error _
  | succ fuel ih =>
      rw [parseredirs]
      exact .ite (.ite (.error _) (ih _ (redirected_standard standard))) (.ok standard)

theorem parseargs_standard (fuel argc ps : Nat) (standard : cmd.Standard) :
    Makes (parseargs s fuel cmd argc ps) := by
  induction fuel generalizing cmd argc ps with
  | zero => exact .error _
  | succ fuel ih =>
      rw [parseargs]
      refine .ite (.ok standard) (.ite (.ok standard) (.ite (.error _) (.ite (.error _) ?_)))
      exact .bind (parseredirs_standard s fuel _ standard.addArg) fun x made => ih _ _ made

theorem parseback_standard (fuel ps : Nat) (standard : cmd.Standard) :
    Makes (parseback s fuel cmd ps) := by
  induction fuel generalizing cmd ps with
  | zero => exact .error _
  | succ fuel ih =>
      rw [parseback]
      exact .ite (ih _ standard) (.ok standard)

/-- What the parser makes redirects standard files only. -/
theorem parse_standard (fuel : Nat) : (∀ ps, Makes (parseline s fuel ps)) ∧
    (∀ ps, Makes (parsepipe s fuel ps)) ∧ (∀ ps, Makes (parseexec s fuel ps)) ∧
      ∀ ps, Makes (parseblock s fuel ps) := by
  induction fuel with
  | zero =>
      refine ⟨fun ps => ?_, fun ps => ?_, fun ps => ?_, fun ps => ?_⟩
      · rw [parseline]
        exact .error _
      · rw [parsepipe]
        exact .error _
      · rw [parseexec]
        exact .error _
      · rw [parseblock]
        exact .error _
  | succ fuel ih =>
      obtain ⟨line, pipe, exec, block⟩ := ih
      refine ⟨fun ps => ?_, fun ps => ?_, fun ps => ?_, fun ps => ?_⟩
      · rw [parseline]
        refine (pipe ps).bind fun x made => ?_
        refine (parseback_standard s fuel _ made).bind fun y made' => ?_
        exact .ite ((line _).bind fun z right => .ok ⟨made', right⟩) (.ok made')
      · rw [parsepipe]
        refine (exec ps).bind fun x made => ?_
        exact .ite ((pipe _).bind fun y right => .ok ⟨made, right⟩) (.ok made)
      · rw [parseexec]
        refine .ite (block _) ?_
        have empty : (Cmd.exec []).Standard := trivial
        exact (parseredirs_standard s fuel _ empty).bind fun x made =>
          parseargs_standard s fuel _ _ made
      · rw [parseblock]
        refine .ite (.error _) ((line _).bind fun x made => ?_)
        exact .ite (.error _) (parseredirs_standard s fuel _ made)

end Parser

theorem parsecmd_standard {s : List Char} {fuel : Nat} {buf : Nat → Char}
    (parsed : parsecmd s fuel = .ok (cmd, buf)) : cmd.Standard := by
  unfold parsecmd at parsed
  cases line : parseline s fuel 0 with
  | error reason =>
      rw [line] at parsed
      cases parsed
  | ok x =>
      rw [line] at parsed
      dsimp only [Bind.bind, Except.bind] at parsed
      split at parsed
      · cases parsed
      · cases parsed
        exact (parse_standard s fuel).1 0 x line

end SlabStudy.Xv6.Shell
