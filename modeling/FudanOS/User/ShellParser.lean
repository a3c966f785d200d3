import FudanOS.User.ShellTokens
import Mathlib.Data.List.DropRight

/-!
# The parser of the shell follows its grammar

Each function which parses gets a position in the line, and is described by the
tokens from there on.  What it returns is derived from the tokens which it has
passed; and when some of the tokens derive a command, and the next token may
follow it, the function returns that command.
-/

namespace FudanOS.User.ShellParser

open FudanOS.User.Shell
open FudanOS.User.ShellGrammar
open FudanOS.User.ShellTokens

/-! ## What a function may do -/

/-- The function returns a command and a position with `post`, or panics. -/
def Ends (result : Parsed) (post : Cmd Span → List UInt8 → Prop) : Prop :=
  match result with
  | .ok (cmd, after) => post cmd after
  | .error stop => stop ≠ .spins

/-- The function returns a command and a position with `post`. -/
def Returns (result : Parsed) (post : Cmd Span → List UInt8 → Prop) : Prop :=
  ∃ cmd after, result = .ok (cmd, after) ∧ post cmd after

section Results

variable
    {result : Parsed}
    {next : Cmd Span × List UInt8 → Parsed}
    {post weaker : Cmd Span → List UInt8 → Prop}

theorem Ends.bind
    (ends : Ends result fun cmd after => Ends (next (cmd, after)) post) :
    Ends (result >>= next) post := by
  unfold Ends at ends ⊢
  cases result with
  | error stop => exact ends
  | ok returned => exact ends

theorem Ends.mono
    (ends : Ends result post)
    (implies : ∀ cmd after, post cmd after → weaker cmd after) :
    Ends result weaker := by
  unfold Ends at ends ⊢
  cases result with
  | error stop => exact ends
  | ok returned => exact implies _ _ ends

theorem Ends.panic (message : String) :
    Ends (.error (.panic message)) post := by
  unfold Ends
  exact nofun

theorem Returns.bind
    (returns :
      Returns result fun cmd after => Returns (next (cmd, after)) post) :
    Returns (result >>= next) post := by
  rcases returns with ⟨cmd, after, rfl, returns⟩
  exact returns

theorem Returns.mono
    (returns : Returns result post)
    (implies : ∀ cmd after, post cmd after → weaker cmd after) :
    Returns result weaker := by
  rcases returns with ⟨cmd, after, same, holds⟩
  exact ⟨cmd, after, same, implies _ _ holds⟩

end Results

/-! ## Words of a command -/

/-- The words of the command are words of the line. -/
def Words (line : List UInt8) (cmd : Cmd Span) : Prop :=
  ∀ word ∈ cmd.words, Delimited line word

section Words

variable
    {line : List UInt8}
    {cmd : Cmd Span}
    {word : Span}

theorem map_addArg
    {Word Other : Type*}
    (read : Word → Other)
    (cmd : Cmd Word)
    (word : Word) :
    (cmd.addArg word).map read = (cmd.map read).addArg (read word) := by
  induction cmd with
  | exec argv =>
      unfold Cmd.addArg Cmd.map
      dsimp only
      rw [List.map_append]
      rfl
  | redir cmd file mode fd ih =>
      unfold Cmd.addArg Cmd.map
      dsimp only
      rw [ih]
  | pipe | list | back => rfl

/-- An argument is added under the redirections. -/
theorem addArg_wrap
    (cmd : Cmd Text)
    (redirs : List Redir)
    (word : Text) :
    (wrap cmd redirs).addArg word = wrap (cmd.addArg word) redirs := by
  unfold wrap
  induction redirs generalizing cmd with
  | nil => rfl
  | cons redir redirs ih =>
      rw [List.foldl_cons, List.foldl_cons, ih]
      congr 1
      unfold Redir.apply
      cases redir.kind <;> rfl

theorem words_addArg
    (words : Words line cmd)
    (isWord : Delimited line word) :
    Words line (cmd.addArg word) := by
  induction cmd with
  | exec argv =>
      intro other member
      rcases List.mem_append.mp member with inside | new
      · exact words other inside
      · rw [List.mem_singleton.mp new]
        exact isWord
  | redir cmd file mode fd ih =>
      intro other member
      rcases List.mem_append.mp member with inside | new
      · apply ih ?_ other inside
        intro old below
        exact words old (List.mem_append_left _ below)
      · exact words other (List.mem_append_right _ new)
  | pipe | list | back => exact words

/-- `redirect` wraps the command as the grammar does. -/
theorem map_redirect
    (redir : Redir)
    (isFile : text line word = redir.file) :
    (redirect (code redir.kind) cmd word).map (text line) =
      redir.apply (cmd.map (text line)) := by
  rcases redir with ⟨kind, file, isKind⟩
  cases isFile
  rcases isKind with rfl | rfl | rfl <;> rfl

theorem words_redirect
    (tok : UInt8)
    (words : Words line cmd)
    (isWord : Delimited line word) :
    Words line (redirect tok cmd word) := by
  have wrapped (mode : Mode) (fd : ℕ) :
      Words line (.redir cmd word mode fd) := by
    intro other member
    rcases List.mem_append.mp member with inside | new
    · exact words other inside
    · rw [List.mem_singleton.mp new]
      exact isWord
  unfold redirect
  split
  · exact wrapped _ _
  · split
    · exact wrapped _ _
    · split
      · exact wrapped _ _
      · exact words

end Words

/-! ## Peeking at tokens -/

section Peeking

variable
    {line ps set : List UInt8}
    {allowed : List Token}
    {tok : Token}
    {ts : List Token}

/-- The tokens of `allowed` are those which begin with a symbol of the set. -/
def Agree (set : List UInt8) (allowed : List Token) : Prop :=
  (∀ c ∈ set, c ∈ symbols) ∧
    ∀ tok, (∃ c ∈ first tok, c ∈ set) ↔ tok ∈ allowed

theorem agree_single
    (isPlain : tok ∈ [.bar, .left, .right, .semi, .amp]) :
    Agree [code tok] [tok] := by
  have plain :
      ∀ tok ∈ [Token.bar, .left, .right, .semi, .amp],
        code tok ∈ symbols ∧ first tok = some (code tok) ∧
          ascii '>' ≠ code tok ∧ ascii '<' ≠ code tok := by
    decide
  have apart :
      ∀ one ∈ [Token.bar, .left, .right, .semi, .amp],
        ∀ other ∈ [Token.bar, .left, .right, .semi, .amp],
          code one = code other → one = other := by
    decide
  rcases plain tok isPlain with ⟨isSymbol, isFirst, notGreater, notLess⟩
  constructor
  · intro c member
    rw [List.mem_singleton.mp member]
    exact isSymbol
  · intro other
    rw [List.mem_singleton]
    constructor
    · rintro ⟨c, begins, member⟩
      cases List.mem_singleton.mp member
      cases other with
      | word => cases begins
      | less => exact absurd (Option.some.inj begins) notLess
      | greater => exact absurd (Option.some.inj begins) notGreater
      | append => exact absurd (Option.some.inj begins) notGreater
      | bar | left | right | semi | amp =>
          exact apart _ (by decide) _ isPlain (Option.some.inj begins)
    · rintro rfl
      exact ⟨_, isFirst, List.mem_cons_self⟩

theorem agree_redirs :
    Agree (['<', '>'].map ascii) [.less, .greater, .append] := by
  constructor
  · decide +kernel
  · intro tok
    cases tok with
    | word => simp [first]
    | less | greater | append | bar | left | right | semi | amp =>
        simp only [first, code]
        decide

theorem agree_stops :
    Agree (['|', ')', '&', ';'].map ascii) [.bar, .right, .amp, .semi] := by
  constructor
  · decide +kernel
  · intro tok
    cases tok with
    | word => simp [first]
    | less | greater | append | bar | left | right | semi | amp =>
        simp only [first, code]
        decide

/-- `peek` tells whether the next token is an allowed one. -/
theorem peek_tokens
    (noNul : 0 ∉ ps)
    (agree : Agree set allowed) :
    (∃ tok ∈ allowed, ∃ ts,
        tokens ps = tok :: ts ∧ peek ps set = (true, skip ps)) ∨
      ((∀ tok ∈ allowed, (tokens ps).head? ≠ some tok) ∧
        peek ps set = (false, skip ps)) := by
  rcases peek_iff noNul agree.1 with ⟨found, position⟩
  cases result : (peek ps set).1 with
  | true =>
      rcases found.mp result with ⟨tok, isHead, begins⟩
      rcases List.head?_eq_some_iff.mp isHead with ⟨ts, isCons⟩
      exact Or.inl ⟨tok, (agree.2 tok).mp begins, ts, isCons,
        Prod.ext result position⟩
  | false =>
      refine Or.inr ⟨?_, Prod.ext result position⟩
      intro tok member isHead
      have among : Among set (tokens ps) :=
        ⟨tok, isHead, (agree.2 tok).mpr member⟩
      rw [found.mpr among] at result
      cases result

/-- Peeking for one token -/
theorem peek_single
    (noNul : 0 ∉ ps)
    (isPlain : tok ∈ [.bar, .left, .right, .semi, .amp]) :
    (∃ ts, tokens ps = tok :: ts ∧
        peek ps [code tok] = (true, skip ps)) ∨
      ((tokens ps).head? ≠ some tok ∧
        peek ps [code tok] = (false, skip ps)) := by
  rcases peek_tokens noNul (agree_single isPlain) with
    ⟨other, member, ts, isCons, found⟩ | ⟨absent, found⟩
  · cases List.mem_singleton.mp member
    exact Or.inl ⟨ts, isCons, found⟩
  · exact Or.inr ⟨absent tok List.mem_cons_self, found⟩

/-- Whitespace before a token does not matter to `gettoken`. -/
theorem gettoken_skip (es : ℕ) (ps : List UInt8) :
    gettoken es (skip ps) = gettoken es ps := by
  have again : skip (skip ps) = skip ps :=
    List.dropWhile_idempotent _ _
  unfold gettoken
  rw [again]

end Peeking

/-! ## Redirections -/

/-- A word which was got: its place in the line, and what follows it. -/
structure GotWord
    (line ps : List UInt8)
    (bytes : Text)
    (ts : List Token)
    (got : Gotten) : Prop where
  ret : got.ret = ascii 'a'
  bytes : text line ⟨got.q, got.eq⟩ = bytes
  delimited : Delimited line ⟨got.q, got.eq⟩
  rest : tokens got.ps = ts
  suffix : got.ps <:+ ps
  shorter : got.ps.length < ps.length

theorem gotWord_of_takes
    {line ps : List UInt8}
    {bytes : Text}
    {ts : List Token}
    {got : Gotten}
    (takes : Takes line ps (.word bytes) ts got) :
    GotWord line ps bytes ts got where
  ret := takes.ret
  bytes := (takes.word bytes rfl).1
  delimited := (takes.word bytes rfl).2
  rest := takes.rest
  suffix := takes.suffix
  shorter := takes.shorter

/-- Only a word has the code of a word. -/
theorem exists_word
    {tok : Token}
    (isWord : code tok = ascii 'a') :
    ∃ bytes, tok = .word bytes := by
  cases tok with
  | word bytes => exact ⟨bytes, rfl⟩
  | less | greater | append | bar | left | right | semi | amp =>
      exact absurd isWord (by decide)

section Redirections

variable
    {line ps : List UInt8}
    {cmd : Cmd Span}
    {kind : Token}
    {later ts : List Token}
    {bytes : Text}

/-- No token which starts a redirection is next. -/
def NoRedir (ts : List Token) : Prop :=
  ∀ kind ∈ [Token.less, .greater, .append], ts.head? ≠ some kind

theorem parseredirs_done
    (noNul : 0 ∉ ps)
    (noRedir : NoRedir (tokens ps))
    (es rounds : ℕ)
    (cmd : Cmd Span) :
    parseredirs es (rounds + 1) cmd ps = .ok (cmd, skip ps) := by
  unfold parseredirs
  rcases peek_tokens noNul agree_redirs with
    ⟨kind, member, ts, isCons, -⟩ | ⟨-, found⟩
  · rw [isCons] at noRedir
    exact absurd rfl (noRedir kind member)
  · rw [found]
    rfl

/-- One round of the loop with a redirection -/
theorem parseredirs_round
    (noNul : 0 ∉ line)
    (inLine : ps <:+ line)
    (isKind : kind ∈ [Token.less, .greater, .append])
    (isCons : tokens ps = kind :: .word bytes :: ts)
    (rounds : ℕ)
    (cmd : Cmd Span) :
    ∃ start got,
      GotWord line start bytes ts got ∧ start <:+ ps ∧
        parseredirs line.length (rounds + 1) cmd ps =
          parseredirs line.length rounds
            (redirect (code kind) cmd ⟨got.q, got.eq⟩) got.ps := by
  have noNulPs : 0 ∉ ps := fun member => noNul (inLine.subset member)
  have took := gettoken_takes noNul inLine isCons
  have word :=
    gotWord_of_takes
      (gettoken_takes noNul (took.suffix.trans inLine) took.rest)
  refine ⟨_, _, word, took.suffix, ?_⟩
  rw [parseredirs]
  rcases peek_tokens noNulPs agree_redirs with
    ⟨other, member, us, -, found⟩ | ⟨absent, -⟩
  · rw [found]
    dsimp only
    rw [if_pos rfl, gettoken_skip, if_neg (not_not_intro word.ret),
      took.ret]
  · rw [isCons] at absent
    exact absurd rfl (absent kind isKind)

/-- A redirection without a file -/
theorem parseredirs_panics
    (noNul : 0 ∉ line)
    (inLine : ps <:+ line)
    (isKind : kind ∈ [Token.less, .greater, .append])
    (isCons : tokens ps = kind :: ts)
    (noWord : ∀ bytes, ts.head? ≠ some (.word bytes))
    (rounds : ℕ)
    (cmd : Cmd Span) :
    parseredirs line.length (rounds + 1) cmd ps =
      .error (.panic "missing file for redirection") := by
  have noNulPs : 0 ∉ ps := fun member => noNul (inLine.subset member)
  have took := gettoken_takes noNul inLine isCons
  have inLine' := took.suffix.trans inLine
  have notWord :
      (gettoken line.length (gettoken line.length ps).ps).ret ≠
        ascii 'a' := by
    cases split : ts with
    | nil =>
        have isEnd := took.rest.trans split
        have noNulRest : 0 ∉ (gettoken line.length ps).ps :=
          fun member => noNul (inLine'.subset member)
        rw [(gettoken_end noNulRest isEnd line.length).1]
        decide
    | cons tok us =>
        have word := gettoken_takes noNul inLine' (took.rest.trans split)
        rw [word.ret]
        intro isWord
        rcases exists_word isWord with ⟨bytes, rfl⟩
        rw [split] at noWord
        exact noWord bytes rfl
  rw [parseredirs]
  rcases peek_tokens noNulPs agree_redirs with
    ⟨other, member, us, -, found⟩ | ⟨absent, -⟩
  · rw [found]
    dsimp only
    rw [if_pos rfl, gettoken_skip, if_pos notWord]
  · rw [isCons] at absent
    exact absurd rfl (absent kind isKind)

/-- The tokens start with a redirection, with or without its file, or not. -/
theorem redir_cases (ts : List Token) :
    NoRedir ts ∨
      (∃ redir : Redir, ∃ us, ts = redir.tokens ++ us) ∨
      ∃ kind ∈ [Token.less, .greater, .append], ∃ us,
        ts = kind :: us ∧ ∀ bytes, us.head? ≠ some (.word bytes) := by
  by_cases noRedir : NoRedir ts
  · exact Or.inl noRedir
  · right
    unfold NoRedir at noRedir
    push Not at noRedir
    rcases noRedir with ⟨kind, member, isHead⟩
    rcases List.head?_eq_some_iff.mp isHead with ⟨us, rfl⟩
    by_cases isWord : ∃ bytes, us.head? = some (.word bytes)
    · rcases isWord with ⟨bytes, isFile⟩
      rcases List.head?_eq_some_iff.mp isFile with ⟨rest, rfl⟩
      have isKind : kind = .less ∨ kind = .greater ∨ kind = .append := by
        simpa using member
      exact Or.inl ⟨⟨kind, bytes, isKind⟩, rest, rfl⟩
    · push Not at isWord
      exact Or.inr ⟨kind, member, us, rfl, isWord⟩

theorem Redir.mem (redir : Redir) :
    redir.kind ∈ [Token.less, .greater, .append] := by
  rcases redir with ⟨kind, file, isKind⟩
  simpa using isKind

/-- What was returned is wrapped in the redirections which were passed. -/
theorem parseredirs_ends
    (noNul : 0 ∉ line)
    (rounds : ℕ)
    (enough : ps.length < rounds)
    (inLine : ps <:+ line)
    (words : Words line cmd) :
    Ends (parseredirs line.length rounds cmd ps) fun ret after =>
      ∃ redirs : List Redir,
        tokens ps = redirs.flatMap Redir.tokens ++ tokens after ∧
          ret.map (text line) = wrap (cmd.map (text line)) redirs ∧
          Words line ret ∧ after <:+ ps := by
  induction rounds generalizing cmd ps with
  | zero => exact absurd enough (Nat.not_lt_zero _)
  | succ rounds ih =>
      have noNulPs : 0 ∉ ps := fun member => noNul (inLine.subset member)
      rcases redir_cases (tokens ps) with
        noRedir | ⟨redir, us, isCons⟩ | ⟨kind, isKind, us, isCons, noWord⟩
      · rw [parseredirs_done noNulPs noRedir]
        exact ⟨[], (tokens_skip noNulPs).symm, rfl, words, skip_suffix ps⟩
      · rcases parseredirs_round noNul inLine (Redir.mem redir) isCons
          rounds cmd with ⟨start, got, word, toStart, same⟩
        rw [same]
        have toPs : got.ps <:+ ps := word.suffix.trans toStart
        have shorter : got.ps.length < rounds := by
          have less := word.shorter
          have bound := toStart.length_le
          omega
        apply (ih shorter (toPs.trans inLine)
          (words_redirect _ words word.delimited)).mono
        rintro ret after ⟨redirs, passed, wrapped, words, later⟩
        refine ⟨redir :: redirs, ?_, ?_, words, later.trans toPs⟩
        · have rest : tokens got.ps = us := word.rest
          rw [isCons, List.flatMap_cons, List.append_assoc, ← passed, rest]
        · rw [wrapped, map_redirect redir word.bytes]
          rfl
      · rw [parseredirs_panics noNul inLine isKind isCons noWord]
        exact Ends.panic _

/-- Redirections are passed, and the command is wrapped in them. -/
theorem parseredirs_returns
    (noNul : 0 ∉ line)
    (redirs : List Redir)
    (noRedir : NoRedir later)
    (rounds : ℕ)
    (enough : ps.length < rounds)
    (inLine : ps <:+ line)
    (isRedirs : tokens ps = redirs.flatMap Redir.tokens ++ later) :
    Returns (parseredirs line.length rounds cmd ps) fun ret after =>
      ret.map (text line) = wrap (cmd.map (text line)) redirs ∧
        tokens after = later ∧ after <:+ ps := by
  have noNulPs : 0 ∉ ps := fun member => noNul (inLine.subset member)
  induction redirs generalizing rounds cmd ps with
  | nil =>
      cases rounds with
      | zero => exact absurd enough (Nat.not_lt_zero _)
      | succ rounds =>
          have isLater : tokens ps = later := isRedirs
          exact ⟨_, _,
            parseredirs_done noNulPs (isLater ▸ noRedir) _ _ _, rfl,
            (tokens_skip noNulPs).trans isLater, skip_suffix ps⟩
  | cons redir redirs ih =>
      cases rounds with
      | zero => exact absurd enough (Nat.not_lt_zero _)
      | succ rounds =>
          rw [List.flatMap_cons, List.append_assoc] at isRedirs
          rcases parseredirs_round noNul inLine (Redir.mem redir) isRedirs
            rounds cmd with ⟨start, got, word, toStart, same⟩
          rw [same]
          have toPs : got.ps <:+ ps := word.suffix.trans toStart
          have shorter : got.ps.length < rounds := by
            have less := word.shorter
            have bound := toStart.length_le
            omega
          apply (ih rounds shorter (toPs.trans inLine) word.rest
            fun member => noNulPs (toPs.subset member)).mono
          rintro ret after ⟨wrapped, isLater, later⟩
          refine ⟨?_, isLater, later.trans toPs⟩
          rw [wrapped, map_redirect redir word.bytes]
          rfl

end Redirections

/-! ## Arguments -/

section Arguments

variable
    {line ps : List UInt8}
    {cmd : Cmd Span}
    {later ts : List Token}
    {bytes : Text}
    {tok : Token}
    {argv : List Text}
    {redirs : List Redir}
    {argc : ℕ}

/-- The arguments end here. -/
def Stops (ts : List Token) : Prop :=
  ∀ tok ∈ ts.head?, tok ∈ [Token.bar, .right, .amp, .semi]

theorem parseargs_done
    (noNul : 0 ∉ ps)
    (stops : Stops (tokens ps))
    (es rounds argc : ℕ)
    (cmd : Cmd Span) :
    ∃ after,
      parseargs es (rounds + 1) argc cmd ps = .ok (cmd, after) ∧
        tokens after = tokens ps ∧ after <:+ ps := by
  rw [parseargs]
  rcases peek_tokens noNul agree_stops with
    ⟨tok, -, ts, -, found⟩ | ⟨absent, found⟩
  · rw [found]
    exact ⟨_, rfl, tokens_skip noNul, skip_suffix ps⟩
  · have isEnd : tokens ps = [] := by
      cases split : tokens ps with
      | nil => rfl
      | cons tok ts =>
          rw [split] at absent stops
          exact absurd rfl (absent tok (stops tok rfl))
    rcases gettoken_end noNul isEnd es with ⟨ret, atEnd, later⟩
    rw [found]
    dsimp only
    rw [if_neg Bool.false_ne_true, gettoken_skip, if_pos ret]
    exact ⟨_, rfl, atEnd.trans isEnd.symm, later⟩

/-- One round of the loop with a word -/
theorem parseargs_round
    (noNul : 0 ∉ line)
    (inLine : ps <:+ line)
    (isCons : tokens ps = .word bytes :: ts)
    (rounds argc : ℕ)
    (cmd : Cmd Span) :
    ∃ got,
      GotWord line ps bytes ts got ∧
        parseargs line.length (rounds + 1) argc cmd ps =
          if argc + 1 ≥ maxArgs then
            .error (.panic "too many args")
          else
            parseredirs line.length (got.ps.length + 1)
                (cmd.addArg ⟨got.q, got.eq⟩) got.ps >>=
              fun (ret, ps) =>
                parseargs line.length rounds (argc + 1) ret ps := by
  have noNulPs : 0 ∉ ps := fun member => noNul (inLine.subset member)
  have word := gotWord_of_takes (gettoken_takes noNul inLine isCons)
  have notEnd : (gettoken line.length ps).ret ≠ 0 := by
    rw [word.ret]
    decide
  refine ⟨_, word, ?_⟩
  rw [parseargs]
  rcases peek_tokens noNulPs agree_stops with
    ⟨other, member, us, isOther, -⟩ | ⟨-, found⟩
  · rw [isCons] at isOther
    cases isOther
    simp at member
  · rw [found]
    dsimp only
    rw [if_neg Bool.false_ne_true, gettoken_skip, if_neg notEnd,
      if_neg (not_not_intro word.ret)]

/-- A token which no command has here -/
theorem parseargs_panics
    (noNul : 0 ∉ line)
    (inLine : ps <:+ line)
    (isCons : tokens ps = tok :: ts)
    (noStop : tok ∉ [Token.bar, .right, .amp, .semi])
    (noWord : ∀ bytes, tok ≠ .word bytes)
    (rounds argc : ℕ)
    (cmd : Cmd Span) :
    parseargs line.length (rounds + 1) argc cmd ps =
      .error (.panic "syntax") := by
  have noNulPs : 0 ∉ ps := fun member => noNul (inLine.subset member)
  have took := gettoken_takes noNul inLine isCons
  have notEnd : (gettoken line.length ps).ret ≠ 0 := by
    rw [took.ret]
    cases tok with
    | word =>
        rw [code]
        decide
    | less | greater | append | bar | left | right | semi | amp => decide
  have notWord : (gettoken line.length ps).ret ≠ ascii 'a' := by
    rw [took.ret]
    intro isWord
    rcases exists_word isWord with ⟨bytes, same⟩
    exact noWord bytes same
  rw [parseargs]
  rcases peek_tokens noNulPs agree_stops with
    ⟨other, member, us, isOther, -⟩ | ⟨-, found⟩
  · rw [isCons] at isOther
    cases isOther
    exact absurd member noStop
  · rw [found]
    dsimp only
    rw [if_neg Bool.false_ne_true, gettoken_skip, if_neg notEnd,
      if_pos notWord]

/-- An argument is added to the command, under the redirections. -/
theorem map_argument
    {word : Span}
    (isExec : cmd.map (text line) = wrap (.exec argv) redirs)
    (isText : text line word = bytes) :
    (cmd.addArg word).map (text line) =
      wrap (.exec (argv ++ [bytes])) redirs := by
  rw [map_addArg, isExec, addArg_wrap, isText]
  rfl

theorem wrap_wrap
    (cmd : Cmd Text)
    (redirs more : List Redir) :
    wrap (wrap cmd redirs) more = wrap cmd (redirs ++ more) :=
  List.foldl_append.symm

/-- The arguments which were passed are those of the command. -/
theorem parseargs_ends
    (noNul : 0 ∉ line)
    (rounds : ℕ)
    (enough : ps.length < rounds)
    (inLine : ps <:+ line)
    (words : Words line cmd)
    (isExec : cmd.map (text line) = wrap (.exec argv) redirs)
    (few : argc < maxArgs) :
    Ends (parseargs line.length rounds argc cmd ps) fun ret after =>
      ∃ arguments : List Argument,
        tokens ps = arguments.flatMap Argument.tokens ++ tokens after ∧
          ret.map (text line) =
            wrap (.exec (argv ++ arguments.map Argument.word))
              (redirs ++ arguments.flatMap Argument.redirs) ∧
          argc + arguments.length < maxArgs ∧
          Words line ret ∧ after <:+ ps := by
  induction rounds generalizing cmd ps argv redirs argc with
  | zero => exact absurd enough (Nat.not_lt_zero _)
  | succ rounds ih =>
      have noNulPs : 0 ∉ ps := fun member => noNul (inLine.subset member)
      by_cases stops : Stops (tokens ps)
      · rcases parseargs_done noNulPs stops line.length rounds argc cmd with
          ⟨after, same, isLater, later⟩
        rw [same]
        refine ⟨[], isLater.symm, ?_, few, words, later⟩
        rw [isExec, List.map_nil, List.append_nil, List.flatMap_nil,
          List.append_nil]
      · unfold Stops at stops
        push Not at stops
        rcases stops with ⟨tok, isHead, noStop⟩
        rcases List.head?_eq_some_iff.mp isHead with ⟨ts, isCons⟩
        by_cases isWord : ∃ bytes, tok = .word bytes
        · rcases isWord with ⟨bytes, rfl⟩
          rcases parseargs_round noNul inLine isCons rounds argc cmd with
            ⟨got, word, same⟩
          rw [same]
          by_cases many : argc + 1 ≥ maxArgs
          · rw [if_pos many]
            exact Ends.panic _
          · rw [if_neg many]
            have inLine' := word.suffix.trans inLine
            have isArgument := map_argument isExec word.bytes
            apply Ends.bind
            apply (parseredirs_ends noNul _ (Nat.lt_succ_self _) inLine'
              (words_addArg words word.delimited)).mono
            rintro ret middle ⟨more, passed, wrapped, words, toGot⟩
            rw [isArgument, wrap_wrap] at wrapped
            have shorter : middle.length < rounds := by
              have bound := toGot.length_le
              have less := word.shorter
              omega
            apply (ih shorter (toGot.trans inLine') words wrapped
              (Nat.lt_of_not_le many)).mono
            rintro ret after ⟨arguments, isRest, isExec, few, words, later⟩
            refine ⟨⟨bytes, more⟩ :: arguments, ?_, ?_, ?_, words,
              later.trans (toGot.trans word.suffix)⟩
            · rw [isCons, ← word.rest, passed, isRest, List.flatMap_cons,
                List.append_assoc]
              unfold Argument.tokens
              rw [List.cons_append]
            · rw [isExec, List.map_cons, List.flatMap_cons,
                List.append_assoc, List.append_assoc, List.singleton_append]
            · rw [List.length_cons]
              omega
        · push Not at isWord
          rw [parseargs_panics noNul inLine isCons noStop isWord]
          exact Ends.panic _

/-- The redirections of a command end where its arguments start. -/
theorem noRedir_arguments
    (stops : Stops later)
    (arguments : List Argument) :
    NoRedir (arguments.flatMap Argument.tokens ++ later) := by
  intro kind member isHead
  cases arguments with
  | nil =>
      have inStops := stops kind isHead
      have apart :
          ∀ tok ∈ [Token.less, .greater, .append],
            tok ∉ [Token.bar, .right, .amp, .semi] := by
        decide
      exact apart kind member inStops
  | cons argument arguments =>
      rw [List.flatMap_cons] at isHead
      cases isHead
      simp at member

/-- The arguments are passed and added to the command. -/
theorem parseargs_returns
    (noNul : 0 ∉ line)
    (arguments : List Argument)
    (stops : Stops later)
    (rounds : ℕ)
    (enough : ps.length < rounds)
    (inLine : ps <:+ line)
    (isExec : cmd.map (text line) = wrap (.exec argv) redirs)
    (few : argc + arguments.length < maxArgs)
    (isArguments :
      tokens ps = arguments.flatMap Argument.tokens ++ later) :
    Returns (parseargs line.length rounds argc cmd ps) fun ret after =>
      ret.map (text line) =
          wrap (.exec (argv ++ arguments.map Argument.word))
            (redirs ++ arguments.flatMap Argument.redirs) ∧
        tokens after = later ∧ after <:+ ps := by
  have noNulPs : 0 ∉ ps := fun member => noNul (inLine.subset member)
  induction arguments generalizing rounds cmd ps argv redirs argc with
  | nil =>
      cases rounds with
      | zero => exact absurd enough (Nat.not_lt_zero _)
      | succ rounds =>
          have isLater : tokens ps = later := isArguments
          rcases parseargs_done noNulPs (isLater ▸ stops) line.length
            rounds argc cmd with ⟨after, same, isRest, toPs⟩
          refine ⟨cmd, after, same, ?_, isRest.trans isLater, toPs⟩
          rw [isExec, List.map_nil, List.append_nil, List.flatMap_nil,
            List.append_nil]
  | cons argument arguments ih =>
      cases rounds with
      | zero => exact absurd enough (Nat.not_lt_zero _)
      | succ rounds =>
          rw [List.flatMap_cons, List.append_assoc] at isArguments
          rw [List.length_cons] at few
          rcases parseargs_round noNul inLine isArguments rounds argc cmd with
            ⟨got, word, same⟩
          have notMany : ¬ argc + 1 ≥ maxArgs := by
            omega
          rw [same, if_neg notMany]
          have inLine' := word.suffix.trans inLine
          have isArgument := map_argument isExec word.bytes
          apply Returns.bind
          apply (parseredirs_returns noNul argument.redirs
            (noRedir_arguments stops arguments) _ (Nat.lt_succ_self _)
            inLine' word.rest).mono
          rintro ret middle ⟨wrapped, isRest, toGot⟩
          rw [isArgument, wrap_wrap] at wrapped
          have shorter : middle.length < rounds := by
            have bound := toGot.length_le
            have less := word.shorter
            omega
          have toLine := toGot.trans inLine'
          have fewer : argc + 1 + arguments.length < maxArgs := by
            omega
          apply (ih rounds shorter toLine wrapped fewer isRest
            fun member => noNul (toLine.subset member)).mono
          rintro ret after ⟨isExec, isLater, later⟩
          refine ⟨?_, isLater, later.trans (toGot.trans word.suffix)⟩
          rw [isExec, List.map_cons, List.flatMap_cons,
            List.append_assoc, List.append_assoc, List.singleton_append]

end Arguments

/-! ## Background -/

section Background

variable
    {line ps : List UInt8}
    {cmd : Cmd Span}
    {later ts : List Token}

theorem parsebacks_done
    (noNul : 0 ∉ ps)
    (noAmp : (tokens ps).head? ≠ some .amp)
    (es rounds : ℕ)
    (cmd : Cmd Span) :
    parsebacks es (rounds + 1) cmd ps = .ok (cmd, skip ps) := by
  have agree : ['&'].map ascii = [code .amp] := rfl
  rw [parsebacks, agree]
  rcases peek_single noNul (by decide : Token.amp ∈ _) with
    ⟨ts, isCons, -⟩ | ⟨-, found⟩
  · rw [isCons] at noAmp
    exact absurd rfl noAmp
  · rw [found]
    rfl

theorem parsebacks_round
    (noNul : 0 ∉ ps)
    (isCons : tokens ps = .amp :: ts)
    (es rounds : ℕ)
    (cmd : Cmd Span) :
    parsebacks es (rounds + 1) cmd ps =
      parsebacks es rounds (.back cmd) (gettoken es ps).ps := by
  have agree : ['&'].map ascii = [code .amp] := rfl
  rw [parsebacks, agree]
  rcases peek_single noNul (by decide : Token.amp ∈ _) with
    ⟨ts, -, found⟩ | ⟨absent, -⟩
  · rw [found]
    dsimp only
    rw [if_pos rfl, gettoken_skip]
  · rw [isCons] at absent
    exact absurd rfl absent

theorem parsebacks_ends
    (noNul : 0 ∉ line)
    (rounds : ℕ)
    (enough : ps.length < rounds)
    (inLine : ps <:+ line)
    (words : Words line cmd) :
    Ends (parsebacks line.length rounds cmd ps) fun ret after =>
      ∃ count,
        tokens ps = List.replicate count .amp ++ tokens after ∧
          ret.map (text line) = backs count (cmd.map (text line)) ∧
          Words line ret ∧ after <:+ ps := by
  induction rounds generalizing cmd ps with
  | zero => exact absurd enough (Nat.not_lt_zero _)
  | succ rounds ih =>
      have noNulPs : 0 ∉ ps := fun member => noNul (inLine.subset member)
      by_cases isAmp : (tokens ps).head? = some .amp
      · rcases List.head?_eq_some_iff.mp isAmp with ⟨ts, isCons⟩
        have took := gettoken_takes noNul inLine isCons
        have isBack : Words line (.back cmd) := words
        rw [parsebacks_round noNulPs isCons]
        have shorter := took.shorter
        apply (ih (by omega) (took.suffix.trans inLine) isBack).mono
        rintro ret after ⟨count, passed, wrapped, rets, later⟩
        refine ⟨count + 1, ?_, wrapped, rets, later.trans took.suffix⟩
        rw [isCons, ← took.rest, passed, List.replicate_succ,
          List.cons_append]
      · rw [parsebacks_done noNulPs isAmp]
        exact ⟨0, (tokens_skip noNulPs).symm, rfl, words, skip_suffix ps⟩

theorem parsebacks_returns
    (noNul : 0 ∉ line)
    (count : ℕ)
    (noAmp : later.head? ≠ some .amp)
    (rounds : ℕ)
    (enough : ps.length < rounds)
    (inLine : ps <:+ line)
    (isBacks : tokens ps = List.replicate count .amp ++ later) :
    Returns (parsebacks line.length rounds cmd ps) fun ret after =>
      ret.map (text line) = backs count (cmd.map (text line)) ∧
        tokens after = later ∧ after <:+ ps := by
  induction rounds generalizing count cmd ps with
  | zero => exact absurd enough (Nat.not_lt_zero _)
  | succ rounds ih =>
      have noNulPs : 0 ∉ ps := fun member => noNul (inLine.subset member)
      cases count with
      | zero =>
          have isLater : tokens ps = later := isBacks
          exact ⟨_, _, parsebacks_done noNulPs (isLater ▸ noAmp) _ _ _, rfl,
            (tokens_skip noNulPs).trans isLater, skip_suffix ps⟩
      | succ count =>
          rw [List.replicate_succ, List.cons_append] at isBacks
          have took := gettoken_takes noNul inLine isBacks
          have shorter := took.shorter
          rw [parsebacks_round noNulPs isBacks]
          apply (ih count (by omega) (took.suffix.trans inLine)
            took.rest).mono
          rintro ret after ⟨wrapped, isLater, later⟩
          exact ⟨wrapped, isLater, later.trans took.suffix⟩

end Background

/-! ## The recursion -/

/-- What was passed derives the command. -/
def Parses
    (line : List UInt8)
    (symbol : Symbol)
    (ps : List UInt8)
    (ret : Cmd Span)
    (after : List UInt8) : Prop :=
  ∃ used,
    tokens ps = used ++ tokens after ∧
      Derives symbol used (ret.map (text line)) ∧
      Words line ret ∧ after <:+ ps

/-- The function which parses a symbol -/
def parse (es : ℕ) : Symbol → ℕ → List UInt8 → Parsed
  | .line => parseline es
  | .pipe => parsepipe es
  | .exec => parseexec es

/-- Where the recursion has got to within one position. -/
def slack : Symbol → ℕ
  | .line => 4
  | .pipe => 3
  | .exec => 2

/-- The function is sound where the depth is enough. -/
def Sound (line : List UInt8) (symbol : Symbol) (depth : ℕ) : Prop :=
  ∀ ps, ps <:+ line → 4 * ps.length + slack symbol ≤ depth →
    Ends (parse line.length symbol depth ps) (Parses line symbol ps)

section Soundness

variable
    {line ps : List UInt8}
    {depth : ℕ}

theorem parsepipe_sound
    (noNul : 0 ∉ line)
    (exec : Sound line .exec depth)
    (pipe : Sound line .pipe depth) :
    Sound line .pipe (depth + 1) := by
  intro ps inLine enough
  simp only [slack] at enough
  have agree : ['|'].map ascii = [code .bar] := rfl
  change Ends (parsepipe line.length (depth + 1) ps) _
  rw [parsepipe, agree]
  apply Ends.bind
  apply (exec ps inLine (by simp only [slack]; omega)).mono
  rintro cmd middle ⟨used, passed, derives, words, toPs⟩
  have inLine' := toPs.trans inLine
  have noNulPs : 0 ∉ middle := fun member => noNul (inLine'.subset member)
  dsimp only
  rcases peek_single noNulPs (by decide : Token.bar ∈ _) with
    ⟨ts, isCons, found⟩ | ⟨-, found⟩
  · have took := gettoken_takes noNul inLine' isCons
    have bound := toPs.length_le
    have shorter := took.shorter
    rw [found]
    dsimp only
    rw [if_pos rfl, gettoken_skip]
    apply Ends.bind
    apply (pipe _ (took.suffix.trans inLine')
      (by simp only [slack]; omega)).mono
    rintro right after ⟨more, isRest, others, rights, later⟩
    refine ⟨used ++ .bar :: more, ?_, .bar derives others, ?_,
      later.trans (took.suffix.trans toPs)⟩
    · rw [passed, isCons, ← took.rest, isRest, List.append_assoc,
        List.cons_append]
    · intro word member
      rcases List.mem_append.mp member with inLeft | inRight
      · exact words word inLeft
      · exact rights word inRight
  · rw [found]
    exact ⟨used, passed.trans (by rw [tokens_skip noNulPs]),
      .pipe derives, words, (skip_suffix middle).trans toPs⟩

theorem parseline_sound
    (noNul : 0 ∉ line)
    (pipe : Sound line .pipe depth)
    (rest : Sound line .line depth) :
    Sound line .line (depth + 1) := by
  intro ps inLine enough
  simp only [slack] at enough
  have agree : [';'].map ascii = [code .semi] := rfl
  change Ends (parseline line.length (depth + 1) ps) _
  rw [parseline, agree]
  apply Ends.bind
  apply (pipe ps inLine (by simp only [slack]; omega)).mono
  rintro cmd first ⟨used, passed, derives, words, toPs⟩
  dsimp only
  apply Ends.bind
  apply (parsebacks_ends noNul _ (Nat.lt_succ_self _) (toPs.trans inLine)
    words).mono
  rintro cmd middle ⟨count, ampersands, wrapped, words, toFirst⟩
  have inLine' := toFirst.trans (toPs.trans inLine)
  have noNulPs : 0 ∉ middle := fun member => noNul (inLine'.subset member)
  dsimp only
  rcases peek_single noNulPs (by decide : Token.semi ∈ _) with
    ⟨ts, isCons, found⟩ | ⟨-, found⟩
  · have took := gettoken_takes noNul inLine' isCons
    have bound := (toFirst.trans toPs).length_le
    have shorter := took.shorter
    rw [found]
    dsimp only
    rw [if_pos rfl, gettoken_skip]
    apply Ends.bind
    apply (rest _ (took.suffix.trans inLine')
      (by simp only [slack]; omega)).mono
    rintro right after ⟨more, isRest, others, rights, later⟩
    refine ⟨used ++ List.replicate count .amp ++ .semi :: more, ?_, ?_, ?_,
      later.trans (took.suffix.trans (toFirst.trans toPs))⟩
    · rw [passed, ampersands, isCons, ← took.rest, isRest]
      simp only [List.append_assoc, List.cons_append]
    · have both := Derives.semi count derives others
      rwa [← wrapped] at both
    · intro word member
      rcases List.mem_append.mp member with inLeft | inRight
      · exact words word inLeft
      · exact rights word inRight
  · rw [found]
    refine ⟨used ++ List.replicate count .amp, ?_, ?_, words,
      (skip_suffix middle).trans (toFirst.trans toPs)⟩
    · rw [passed, ampersands, tokens_skip noNulPs, List.append_assoc]
    · rw [wrapped]
      exact .line count derives

theorem parseblock_sound
    (noNul : 0 ∉ line)
    (inside : Sound line .line depth)
    (inLine : ps <:+ line)
    (enough : 4 * ps.length ≤ depth) :
    Ends (parseblock line.length (depth + 1) ps)
      (Parses line .exec ps) := by
  have noNulPs : 0 ∉ ps := fun member => noNul (inLine.subset member)
  have agreeLeft : ['('].map ascii = [code .left] := rfl
  have agreeRight : [')'].map ascii = [code .right] := rfl
  rw [parseblock, agreeLeft, agreeRight]
  rcases peek_single noNulPs (by decide : Token.left ∈ _) with
    ⟨ts, isCons, found⟩ | ⟨-, found⟩
  · have opened := gettoken_takes noNul inLine isCons
    have shorter := opened.shorter
    rw [found]
    dsimp only
    rw [if_neg (by decide), gettoken_skip]
    apply Ends.bind
    apply (inside _ (opened.suffix.trans inLine)
      (by simp only [slack]; omega)).mono
    rintro cmd middle ⟨used, passed, derives, words, toOpened⟩
    have toPs := toOpened.trans opened.suffix
    have inLine' := toPs.trans inLine
    have noNulMiddle : 0 ∉ middle :=
      fun member => noNul (inLine'.subset member)
    dsimp only
    rcases peek_single noNulMiddle (by decide : Token.right ∈ _) with
      ⟨us, isRight, found⟩ | ⟨-, found⟩
    · have closed := gettoken_takes noNul inLine' isRight
      rw [found]
      dsimp only
      rw [if_neg (by decide), gettoken_skip]
      apply (parseredirs_ends noNul _ (Nat.lt_succ_self _)
        (closed.suffix.trans inLine') words).mono
      rintro ret after ⟨redirs, isRest, wrapped, words, later⟩
      refine ⟨.left :: (used ++ .right :: redirs.flatMap Redir.tokens), ?_,
        ?_, words, later.trans (closed.suffix.trans toPs)⟩
      · rw [isCons, ← opened.rest, passed, isRight, ← closed.rest, isRest]
        simp only [List.append_assoc, List.cons_append]
      · rw [wrapped]
        exact .block redirs derives
    · rw [found]
      exact Ends.panic _
  · rw [found]
    exact Ends.panic _

theorem parseexec_sound
    (noNul : 0 ∉ line)
    (block :
      ∀ ps, ps <:+ line → 4 * ps.length + 1 ≤ depth →
        Ends (parseblock line.length depth ps) (Parses line .exec ps)) :
    Sound line .exec (depth + 1) := by
  intro ps inLine enough
  simp only [slack] at enough
  have noNulPs : 0 ∉ ps := fun member => noNul (inLine.subset member)
  have agree : ['('].map ascii = [code .left] := rfl
  change Ends (parseexec line.length (depth + 1) ps) _
  rw [parseexec, agree]
  have inLine' := (skip_suffix ps).trans inLine
  rcases peek_single noNulPs (by decide : Token.left ∈ _) with
    ⟨ts, isCons, found⟩ | ⟨-, found⟩
  · rw [found]
    dsimp only
    rw [if_pos rfl]
    have bound := (skip_suffix ps).length_le
    apply (block (skip ps) inLine' (by omega)).mono
    rintro ret after ⟨used, passed, derives, words, later⟩
    rw [tokens_skip noNulPs] at passed
    exact ⟨used, passed, derives, words, later.trans (skip_suffix ps)⟩
  · rw [found]
    dsimp only
    rw [if_neg Bool.false_ne_true]
    have noWords : Words line (.exec []) :=
      fun word member => absurd member List.not_mem_nil
    apply Ends.bind
    apply (parseredirs_ends noNul _ (Nat.lt_succ_self _) inLine'
      noWords).mono
    rintro ret middle ⟨redirs, passed, wrapped, words, toSkip⟩
    dsimp only
    have isExec :
        ret.map (text line) = wrap (.exec []) redirs := wrapped
    apply (parseargs_ends noNul _ (Nat.lt_succ_self _)
      (toSkip.trans inLine') words isExec (by decide)).mono
    rintro ret after ⟨arguments, isRest, wrapped, few, words, later⟩
    rw [tokens_skip noNulPs] at passed
    refine ⟨redirs.flatMap Redir.tokens ++
        arguments.flatMap Argument.tokens, ?_, ?_, words,
      later.trans (toSkip.trans (skip_suffix ps))⟩
    · rw [passed, isRest, List.append_assoc]
    · rw [wrapped, List.nil_append]
      refine .exec redirs arguments ?_
      omega

/-- Each function ends, and what it returns is derived. -/
theorem sound
    (noNul : 0 ∉ line)
    (depth : ℕ) :
    (∀ symbol, Sound line symbol depth) ∧
      ∀ ps, ps <:+ line → 4 * ps.length + 1 ≤ depth →
        Ends (parseblock line.length depth ps)
          (Parses line .exec ps) := by
  induction depth with
  | zero =>
      constructor
      · intro symbol ps inLine enough
        cases symbol <;> simp only [slack] at enough <;> omega
      · intro ps inLine enough
        omega
  | succ depth ih =>
      rcases ih with ⟨functions, block⟩
      constructor
      · intro symbol
        cases symbol with
        | line => exact parseline_sound noNul (functions _) (functions _)
        | pipe => exact parsepipe_sound noNul (functions _) (functions _)
        | exec => exact parseexec_sound noNul block
      · intro ps inLine enough
        exact parseblock_sound noNul (functions _) inLine (by omega)

end Soundness

/-! ## Completeness -/

/-- The tokens which may come after a symbol -/
def follow : Symbol → List Token
  | .line => [.right]
  | .pipe => [.right, .amp, .semi]
  | .exec => [.right, .amp, .semi, .bar]

def Follows (symbol : Symbol) (later : List Token) : Prop :=
  ∀ tok ∈ later.head?, tok ∈ follow symbol

/-- The function returns the command where the depth is enough. -/
def Complete
    (line : List UInt8)
    (symbol : Symbol)
    (used : List Token)
    (cmd : Cmd Text) : Prop :=
  ∀ depth ps later,
    ps <:+ line → 4 * ps.length + slack symbol ≤ depth →
    tokens ps = used ++ later → Follows symbol later →
    Returns (parse line.length symbol depth ps) fun ret after =>
      ret.map (text line) = cmd ∧ tokens after = later ∧ after <:+ ps

section Completeness

variable
    {line ps : List UInt8}
    {used more later : List Token}
    {cmd other : Cmd Text}
    {symbol : Symbol}
    {tok : Token}

theorem Follows.cons
    (ts : List Token)
    (allowed : tok ∈ follow symbol) :
    Follows symbol (tok :: ts) := by
  intro other isHead
  cases isHead
  exact allowed

theorem Follows.mono
    {larger : Symbol}
    (follows : Follows symbol later)
    (within : ∀ tok ∈ follow symbol, tok ∈ follow larger) :
    Follows larger later :=
  fun tok isHead => within tok (follows tok isHead)

theorem Follows.ne
    (follows : Follows symbol later)
    (forbidden : tok ∉ follow symbol) :
    later.head? ≠ some tok :=
  fun isHead => forbidden (follows tok isHead)

theorem Follows.stops (follows : Follows .exec later) : Stops later := by
  intro tok isHead
  have within :
      ∀ tok ∈ follow .exec, tok ∈ [Token.bar, .right, .amp, .semi] := by
    decide
  exact within tok (follows tok isHead)

theorem parsepipe_bar
    (noNul : 0 ∉ line)
    (exec : Complete line .exec used cmd)
    (pipe : Complete line .pipe more other) :
    Complete line .pipe (used ++ .bar :: more) (.pipe cmd other) := by
  intro depth ps later inLine enough isTokens follows
  simp only [slack] at enough
  cases depth with
  | zero => omega
  | succ depth =>
      rw [List.append_assoc, List.cons_append] at isTokens
      have agree : ['|'].map ascii = [code .bar] := rfl
      change Returns (parsepipe line.length (depth + 1) ps) _
      rw [parsepipe, agree]
      apply Returns.bind
      apply (exec depth ps _ inLine (by simp only [slack]; omega) isTokens
        (Follows.cons _ (by decide))).mono
      rintro left middle ⟨isLeft, isCons, toPs⟩
      have inLine' := toPs.trans inLine
      have noNulPs : 0 ∉ middle :=
        fun member => noNul (inLine'.subset member)
      have took := gettoken_takes noNul inLine' isCons
      have bound := toPs.length_le
      have shorter := took.shorter
      dsimp only
      rcases peek_single noNulPs (by decide : Token.bar ∈ _) with
        ⟨ts, -, found⟩ | ⟨absent, -⟩
      · rw [found]
        dsimp only
        rw [if_pos rfl, gettoken_skip]
        apply Returns.bind
        apply (pipe depth _ later (took.suffix.trans inLine')
          (by simp only [slack]; omega) took.rest follows).mono
        rintro right after ⟨isRight, isLater, toRight⟩
        refine ⟨_, _, rfl, ?_, isLater,
          toRight.trans (took.suffix.trans toPs)⟩
        rw [Cmd.map, isLeft, isRight]
      · rw [isCons] at absent
        exact absurd rfl absent

theorem parsepipe_exec
    (noNul : 0 ∉ line)
    (exec : Complete line .exec used cmd) :
    Complete line .pipe used cmd := by
  intro depth ps later inLine enough isTokens follows
  simp only [slack] at enough
  cases depth with
  | zero => omega
  | succ depth =>
      have agree : ['|'].map ascii = [code .bar] := rfl
      change Returns (parsepipe line.length (depth + 1) ps) _
      rw [parsepipe, agree]
      apply Returns.bind
      apply (exec depth ps later inLine (by simp only [slack]; omega) isTokens
        (follows.mono (by decide))).mono
      rintro ret middle ⟨isCmd, isLater, toPs⟩
      have noNulPs : 0 ∉ middle :=
        fun member => noNul ((toPs.trans inLine).subset member)
      dsimp only
      rcases peek_single noNulPs (by decide : Token.bar ∈ _) with
        ⟨ts, isCons, -⟩ | ⟨-, found⟩
      · rw [isLater] at isCons
        rw [isCons] at follows
        exact absurd rfl (follows.ne (by decide))
      · rw [found]
        exact ⟨_, _, rfl, isCmd, (tokens_skip noNulPs).trans isLater,
          (skip_suffix middle).trans toPs⟩

theorem follows_replicate
    (count : ℕ)
    (follows : Follows .pipe later) :
    Follows .pipe (List.replicate count .amp ++ later) := by
  cases count with
  | zero => exact follows
  | succ count => exact Follows.cons _ (by decide)

theorem parseline_semi
    (noNul : 0 ∉ line)
    (count : ℕ)
    (pipe : Complete line .pipe used cmd)
    (rest : Complete line .line more other) :
    Complete line .line
      (used ++ List.replicate count .amp ++ .semi :: more)
      (.list (backs count cmd) other) := by
  intro depth ps later inLine enough isTokens follows
  simp only [slack] at enough
  cases depth with
  | zero => omega
  | succ depth =>
      rw [List.append_assoc, List.append_assoc, List.cons_append]
        at isTokens
      have agree : [';'].map ascii = [code .semi] := rfl
      change Returns (parseline line.length (depth + 1) ps) _
      rw [parseline, agree]
      apply Returns.bind
      apply (pipe depth ps _ inLine (by simp only [slack]; omega) isTokens
        (follows_replicate count (Follows.cons _ (by decide)))).mono
      rintro left first ⟨isLeft, isBacks, toPs⟩
      dsimp only
      apply Returns.bind
      apply (parsebacks_returns noNul count (by simp) _
        (Nat.lt_succ_self _) (toPs.trans inLine) isBacks).mono
      rintro left middle ⟨wrapped, isCons, toFirst⟩
      have inLine' := toFirst.trans (toPs.trans inLine)
      have noNulPs : 0 ∉ middle :=
        fun member => noNul (inLine'.subset member)
      have took := gettoken_takes noNul inLine' isCons
      have bound := (toFirst.trans toPs).length_le
      have shorter := took.shorter
      dsimp only
      rcases peek_single noNulPs (by decide : Token.semi ∈ _) with
        ⟨ts, -, found⟩ | ⟨absent, -⟩
      · rw [found]
        dsimp only
        rw [if_pos rfl, gettoken_skip]
        apply Returns.bind
        apply (rest depth _ later (took.suffix.trans inLine')
          (by simp only [slack]; omega) took.rest follows).mono
        rintro right after ⟨isRight, isLater, toRight⟩
        refine ⟨_, _, rfl, ?_, isLater,
          toRight.trans (took.suffix.trans (toFirst.trans toPs))⟩
        rw [Cmd.map, wrapped, isLeft, isRight]
      · rw [isCons] at absent
        exact absurd rfl absent

theorem parseline_pipe
    (noNul : 0 ∉ line)
    (count : ℕ)
    (pipe : Complete line .pipe used cmd) :
    Complete line .line (used ++ List.replicate count .amp)
      (backs count cmd) := by
  intro depth ps later inLine enough isTokens follows
  simp only [slack] at enough
  cases depth with
  | zero => omega
  | succ depth =>
      rw [List.append_assoc] at isTokens
      have agree : [';'].map ascii = [code .semi] := rfl
      change Returns (parseline line.length (depth + 1) ps) _
      rw [parseline, agree]
      apply Returns.bind
      apply (pipe depth ps _ inLine (by simp only [slack]; omega) isTokens
        (follows_replicate count (follows.mono (by decide)))).mono
      rintro left first ⟨isLeft, isBacks, toPs⟩
      dsimp only
      apply Returns.bind
      apply (parsebacks_returns noNul count (follows.ne (by decide)) _
        (Nat.lt_succ_self _) (toPs.trans inLine) isBacks).mono
      rintro left middle ⟨wrapped, isLater, toFirst⟩
      have toPs := toFirst.trans toPs
      have noNulPs : 0 ∉ middle :=
        fun member => noNul ((toPs.trans inLine).subset member)
      dsimp only
      rcases peek_single noNulPs (by decide : Token.semi ∈ _) with
        ⟨ts, isCons, -⟩ | ⟨-, found⟩
      · rw [isLater] at isCons
        rw [isCons] at follows
        exact absurd rfl (follows.ne (by decide))
      · rw [found]
        refine ⟨_, _, rfl, ?_, (tokens_skip noNulPs).trans isLater,
          (skip_suffix middle).trans toPs⟩
        rw [wrapped, isLeft]

theorem parseblock_complete
    (noNul : 0 ∉ line)
    (redirs : List Redir)
    (inside : Complete line .line used cmd)
    {depth : ℕ}
    (inLine : ps <:+ line)
    (enough : 4 * ps.length + 1 ≤ depth)
    (isTokens :
      tokens ps =
        .left :: (used ++ .right :: redirs.flatMap Redir.tokens) ++ later)
    (follows : Follows .exec later) :
    Returns (parseblock line.length depth ps) fun ret after =>
      ret.map (text line) = wrap cmd redirs ∧ tokens after = later ∧
        after <:+ ps := by
  cases depth with
  | zero => omega
  | succ depth =>
      rw [List.cons_append, List.append_assoc, List.cons_append] at isTokens
      have noNulPs : 0 ∉ ps := fun member => noNul (inLine.subset member)
      have opened := gettoken_takes noNul inLine isTokens
      have shorter := opened.shorter
      have agreeLeft : ['('].map ascii = [code .left] := rfl
      have agreeRight : [')'].map ascii = [code .right] := rfl
      rw [parseblock, agreeLeft, agreeRight]
      rcases peek_single noNulPs (by decide : Token.left ∈ _) with
        ⟨ts, -, found⟩ | ⟨absent, -⟩
      · rw [found]
        dsimp only
        rw [if_neg (by decide), gettoken_skip]
        apply Returns.bind
        apply (inside depth _ _ (opened.suffix.trans inLine)
          (by simp only [slack]; omega) opened.rest
          (Follows.cons _ (by decide))).mono
        rintro ret middle ⟨isCmd, isCons, toOpened⟩
        have toPs := toOpened.trans opened.suffix
        have inLine' := toPs.trans inLine
        have noNulMiddle : 0 ∉ middle :=
          fun member => noNul (inLine'.subset member)
        have closed := gettoken_takes noNul inLine' isCons
        dsimp only
        rcases peek_single noNulMiddle (by decide : Token.right ∈ _) with
          ⟨us, -, found⟩ | ⟨absent, -⟩
        · rw [found]
          dsimp only
          rw [if_neg (by decide), gettoken_skip]
          apply (parseredirs_returns noNul redirs
            (noRedir_arguments follows.stops []) _ (Nat.lt_succ_self _)
            (closed.suffix.trans inLine') closed.rest).mono
          rintro ret after ⟨wrapped, isLater, toClosed⟩
          refine ⟨?_, isLater, toClosed.trans (closed.suffix.trans toPs)⟩
          rw [wrapped, isCmd]
        · rw [isCons] at absent
          exact absurd rfl absent
      · rw [isTokens] at absent
        exact absurd rfl absent

theorem parseexec_block
    (noNul : 0 ∉ line)
    (redirs : List Redir)
    (inside : Complete line .line used cmd) :
    Complete line .exec
      (.left :: (used ++ .right :: redirs.flatMap Redir.tokens))
      (wrap cmd redirs) := by
  intro depth ps later inLine enough isTokens follows
  simp only [slack] at enough
  cases depth with
  | zero => omega
  | succ depth =>
      have noNulPs : 0 ∉ ps := fun member => noNul (inLine.subset member)
      have agree : ['('].map ascii = [code .left] := rfl
      change Returns (parseexec line.length (depth + 1) ps) _
      rw [parseexec, agree]
      rcases peek_single noNulPs (by decide : Token.left ∈ _) with
        ⟨ts, -, found⟩ | ⟨absent, -⟩
      · rw [found]
        dsimp only
        rw [if_pos rfl]
        have bound := (skip_suffix ps).length_le
        rw [← tokens_skip noNulPs] at isTokens
        apply (parseblock_complete noNul redirs inside
          ((skip_suffix ps).trans inLine) (by omega) isTokens follows).mono
        rintro ret after ⟨isCmd, isLater, toSkip⟩
        exact ⟨isCmd, isLater, toSkip.trans (skip_suffix ps)⟩
      · rw [isTokens] at absent
        exact absurd rfl absent

/-- No command of words starts with a parenthesis. -/
theorem noLeft
    (redirs : List Redir)
    (arguments : List Argument)
    (follows : Follows .exec later) :
    (redirs.flatMap Redir.tokens ++
        (arguments.flatMap Argument.tokens ++ later)).head? ≠
      some .left := by
  intro isHead
  cases redirs with
  | nil =>
      cases arguments with
      | nil => exact follows.ne (by decide) isHead
      | cons argument arguments =>
          rw [List.flatMap_cons] at isHead
          cases isHead
  | cons redir redirs =>
      rcases redir with ⟨kind, file, isKind⟩
      have isLeft : kind = .left := Option.some.inj isHead
      subst isLeft
      simp at isKind

theorem parseexec_words
    (noNul : 0 ∉ line)
    (redirs : List Redir)
    (arguments : List Argument)
    (few : arguments.length ≤ maxArgs - 1) :
    Complete line .exec
      (redirs.flatMap Redir.tokens ++ arguments.flatMap Argument.tokens)
      (wrap (.exec (arguments.map Argument.word))
        (redirs ++ arguments.flatMap Argument.redirs)) := by
  intro depth ps later inLine enough isTokens follows
  simp only [slack] at enough
  cases depth with
  | zero => omega
  | succ depth =>
      rw [List.append_assoc] at isTokens
      have noNulPs : 0 ∉ ps := fun member => noNul (inLine.subset member)
      have agree : ['('].map ascii = [code .left] := rfl
      change Returns (parseexec line.length (depth + 1) ps) _
      rw [parseexec, agree]
      rcases peek_single noNulPs (by decide : Token.left ∈ _) with
        ⟨ts, isCons, -⟩ | ⟨-, found⟩
      · have isHead := isTokens.symm.trans isCons
        exact absurd (congrArg List.head? isHead)
          (noLeft redirs arguments follows)
      · rw [found]
        dsimp only
        rw [if_neg Bool.false_ne_true]
        have inLine' := (skip_suffix ps).trans inLine
        rw [← tokens_skip noNulPs] at isTokens
        apply Returns.bind
        apply (parseredirs_returns noNul redirs
          (noRedir_arguments follows.stops arguments) _
          (Nat.lt_succ_self _) inLine' isTokens).mono
        rintro ret middle ⟨wrapped, isArguments, toSkip⟩
        dsimp only
        have isExec :
            ret.map (text line) = wrap (.exec []) redirs := wrapped
        have bound : maxArgs = 10 := rfl
        apply (parseargs_returns noNul arguments follows.stops _
          (Nat.lt_succ_self _) (toSkip.trans inLine') isExec
          (by omega) isArguments).mono
        rintro ret after ⟨isCmd, isLater, later⟩
        exact ⟨isCmd, isLater,
          later.trans (toSkip.trans (skip_suffix ps))⟩

/-- What derives a command is parsed as that command. -/
theorem complete
    (noNul : 0 ∉ line)
    (derives : Derives symbol used cmd) :
    Complete line symbol used cmd := by
  induction derives with
  | line count _ pipe => exact parseline_pipe noNul count pipe
  | semi count _ _ pipe line => exact parseline_semi noNul count pipe line
  | pipe _ exec => exact parsepipe_exec noNul exec
  | bar _ _ exec pipe => exact parsepipe_bar noNul exec pipe
  | block redirs _ line => exact parseexec_block noNul redirs line
  | exec redirs arguments few =>
      exact parseexec_words noNul redirs arguments few

end Completeness

/-! ## The final zeros -/

/-- The string at `q`, in the line with its final 0 -/
def readString (memory : List UInt8) (word : Span) : Text :=
  (memory.drop word.q).takeWhile (· ≠ 0)

section Strings

variable
    {line source : List UInt8}
    {word other : Span}

/-- `nulterminate` writes where the words of the command end. -/
theorem nulterminate_eq
    (cmd : Cmd Span)
    (memory : List UInt8) :
    nulterminate cmd memory =
      cmd.words.foldl (fun memory word => memory.set word.eq 0) memory := by
  induction cmd generalizing memory with
  | exec argv => rfl
  | redir cmd file mode fd ih =>
      rw [nulterminate, ih, Cmd.words, List.foldl_append]
      rfl
  | pipe left right left_ih right_ih =>
      rw [nulterminate, left_ih, right_ih, Cmd.words, List.foldl_append]
  | list left right left_ih right_ih =>
      rw [nulterminate, left_ih, right_ih, Cmd.words, List.foldl_append]
  | back cmd ih =>
      rw [nulterminate, ih, Cmd.words]

theorem terminated_same
    {index : ℕ}
    (words : List Span)
    (memory : List UInt8)
    (apart : ∀ word ∈ words, word.eq ≠ index) :
    (words.foldl (fun memory word => memory.set word.eq 0) memory)[index]? =
      memory[index]? := by
  induction words generalizing memory with
  | nil => rfl
  | cons word words ih =>
      rw [List.foldl_cons, ih _ fun other member =>
        apart other (List.mem_cons_of_mem word member)]
      exact List.getElem?_set_ne (apart word List.mem_cons_self)

theorem terminated_zero
    {index : ℕ}
    (words : List Span)
    (memory : List UInt8)
    (ends : ∃ word ∈ words, word.eq = index)
    (inside : index < memory.length) :
    (words.foldl (fun memory word => memory.set word.eq 0)
      memory)[index]? = some 0 := by
  induction words generalizing memory with
  | nil =>
      rcases ends with ⟨word, member, -⟩
      cases member
  | cons head words ih =>
      rw [List.foldl_cons]
      by_cases below : ∃ word ∈ words, word.eq = index
      · exact ih _ below (by rwa [List.length_set])
      · push Not at below
        rw [terminated_same words _ below]
        rcases ends with ⟨word, member, isIndex⟩
        rcases List.mem_cons.mp member with rfl | inWords
        · rw [isIndex]
          exact List.getElem?_set_self inside
        · exact absurd isIndex (below word inWords)

/-- No word ends within another one. -/
theorem delimited_apart
    (delimited : Delimited source word)
    (others : Delimited source other)
    {index : ℕ}
    (start : word.q ≤ index)
    (stop : index < word.eq) :
    other.eq ≠ index := by
  rintro rfl
  have inside := Nat.lt_of_lt_of_le stop delimited.inside
  have here : source[other.eq]? = some source[other.eq] :=
    List.getElem?_eq_getElem inside
  have notWord := others.ends _ here
  have member : source[other.eq] ∈ text source word := by
    unfold text
    rw [List.mem_iff_getElem?]
    refine ⟨other.eq - word.q, ?_⟩
    rw [List.getElem?_take_of_lt (by omega), List.getElem?_drop,
      Nat.add_sub_cancel' start, here]
  rw [delimited.bytes _ member] at notWord
  cases notWord

/-- Each string of the command is its word of the line. -/
theorem readString_nulterminate
    {cmd : Cmd Span}
    (noNul : 0 ∉ source)
    (words : Words source cmd)
    (member : word ∈ cmd.words) :
    readString (nulterminate cmd (source ++ [0])) word = text source word := by
  have delimited := words word member
  rw [nulterminate_eq]
  have zero := terminated_zero cmd.words (source ++ [0]) ⟨word, member, rfl⟩
    (by
      rw [List.length_append]
      exact Nat.lt_succ_of_le delimited.inside)
  have same (index : ℕ)
      (start : word.q ≤ index)
      (stop : index < word.eq) :
      (cmd.words.foldl (fun memory word => memory.set word.eq 0)
        (source ++ [0]))[index]? = source[index]? := by
    rw [terminated_same cmd.words _ fun other inWords =>
      delimited_apart delimited (words other inWords) start stop]
    exact List.getElem?_append_left
      (Nat.lt_of_lt_of_le stop delimited.inside)
  generalize
    cmd.words.foldl (fun memory word => memory.set word.eq 0)
      (source ++ [0]) = memory at zero same
  have parts :
      memory.drop word.q = text source word ++ memory.drop word.eq := by
    have isText :
        (memory.drop word.q).take (word.eq - word.q) = text source word := by
      unfold text
      apply List.ext_getElem?
      intro offset
      by_cases within : offset < word.eq - word.q
      · rw [List.getElem?_take_of_lt within, List.getElem?_take_of_lt within,
          List.getElem?_drop, List.getElem?_drop]
        exact same _ (Nat.le_add_right _ _) (by omega)
      · rw [List.getElem?_take_eq_none (Nat.le_of_not_lt within),
          List.getElem?_take_eq_none (Nat.le_of_not_lt within)]
    have isRest :
        (memory.drop word.q).drop (word.eq - word.q) =
          memory.drop word.eq := by
      rw [List.drop_drop, Nat.add_sub_cancel' delimited.ordered]
    rw [← isText, ← isRest, List.take_append_drop]
  have nonzero : ∀ c ∈ text source word, decide (c ≠ 0) = true := by
    intro c inText
    have inLine : c ∈ source :=
      List.mem_of_mem_drop (List.mem_of_mem_take inText)
    apply decide_eq_true
    rintro rfl
    exact noNul inLine
  have ended : (memory.drop word.eq).takeWhile (· ≠ 0) = [] := by
    have head : (memory.drop word.eq).head? = some 0 := by
      rw [List.head?_eq_getElem?, List.getElem?_drop, Nat.add_zero, zero]
    rcases List.head?_eq_some_iff.mp head with ⟨rest, isCons⟩
    rw [isCons]
    rfl
  unfold readString
  rw [parts, List.takeWhile_append_of_pos nonzero, ended, List.append_nil]

theorem map_congr
    {Word Other : Type*}
    {read write : Word → Other}
    (cmd : Cmd Word)
    (same : ∀ word ∈ cmd.words, read word = write word) :
    cmd.map read = cmd.map write := by
  induction cmd with
  | exec argv =>
      have mapped : argv.map read = argv.map write :=
        List.map_congr_left same
      rw [Cmd.map, Cmd.map, mapped]
  | redir cmd file mode fd ih =>
      rw [Cmd.map, Cmd.map,
        ih fun word member => same word (List.mem_append_left _ member),
        same file (List.mem_append_right _ List.mem_cons_self)]
  | pipe left right left_ih right_ih =>
      rw [Cmd.map, Cmd.map,
        left_ih fun word member =>
          same word (List.mem_append_left _ member),
        right_ih fun word member =>
          same word (List.mem_append_right _ member)]
  | list left right left_ih right_ih =>
      rw [Cmd.map, Cmd.map,
        left_ih fun word member =>
          same word (List.mem_append_left _ member),
        right_ih fun word member =>
          same word (List.mem_append_right _ member)]
  | back cmd ih =>
      rw [Cmd.map, Cmd.map, ih same]

/-- The command which is returned has the words of the line as strings. -/
theorem map_readString
    {cmd : Cmd Span}
    (noNul : 0 ∉ line)
    (words : Words line cmd) :
    cmd.map (readString (nulterminate cmd (line ++ [0]))) =
      cmd.map (text line) :=
  map_congr cmd fun _ member => readString_nulterminate noNul words member

end Strings

/-! ## The line -/

section Line

variable
    {line after : List UInt8}
    {cmd : Cmd Span}

theorem parsecmd_of_ok
    (noNul : 0 ∉ line)
    (inLine : after <:+ line)
    (parsed :
      parseline line.length (4 * line.length + 4) line = .ok (cmd, after)) :
    parsecmd line =
      if tokens after = [] then
        .ok (cmd, nulterminate cmd (line ++ [0]))
      else
        .error (.panic "syntax") := by
  have noNulAfter : 0 ∉ after := fun member => noNul (inLine.subset member)
  have position : (peek after []).2 = skip after :=
    (peek_iff noNulAfter (by simp)).2
  unfold parsecmd
  dsimp only
  rw [parsed]
  dsimp only [bind, Except.bind]
  rw [position]
  by_cases isEnd : tokens after = []
  · have empty := (tokens_eq_nil_iff noNulAfter).mp isEnd
    rw [if_pos isEnd, if_neg (not_not_intro empty)]
    rfl
  · have rest : skip after ≠ [] :=
      fun empty => isEnd ((tokens_eq_nil_iff noNulAfter).mpr empty)
    rw [if_neg isEnd, if_pos rest]
    rfl

/-- The line is not all of a command, or the command is derived from it. -/
theorem parsecmd_sound
    (noNul : 0 ∉ line) :
    (∃ cmd memory,
        parsecmd line = .ok (cmd, memory) ∧
          Means line (cmd.map (readString memory))) ∨
      ∃ message, parsecmd line = .error (.panic message) := by
  have ends : Ends (parseline line.length (4 * line.length + 4) line)
      (Parses line .line line) :=
    (sound noNul (4 * line.length + 4)).1 .line line List.suffix_rfl le_rfl
  cases parsed : parseline line.length (4 * line.length + 4) line with
  | error stop =>
      rw [parsed] at ends
      have stopped : parsecmd line = .error stop := by
        unfold parsecmd
        dsimp only
        rw [parsed]
        rfl
      cases stop with
      | panic message => exact Or.inr ⟨message, stopped⟩
      | spins => exact absurd rfl ends
  | ok returned =>
      rcases returned with ⟨cmd, after⟩
      rw [parsed] at ends
      rcases ends with ⟨used, passed, derives, words, toLine⟩
      have result := parsecmd_of_ok noNul toLine parsed
      by_cases isEnd : tokens after = []
      · rw [if_pos isEnd] at result
        rw [isEnd, List.append_nil] at passed
        refine Or.inl ⟨cmd, _, result, ?_⟩
        rw [map_readString noNul words]
        unfold Means
        rwa [passed]
      · rw [if_neg isEnd] at result
        exact Or.inr ⟨_, result⟩

/-- A command of the grammar is returned. -/
theorem parsecmd_complete
    {meaning : Cmd Text}
    (noNul : 0 ∉ line)
    (means : Means line meaning) :
    ∃ cmd memory,
      parsecmd line = .ok (cmd, memory) ∧
        cmd.map (readString memory) = meaning := by
  have ends : Ends (parseline line.length (4 * line.length + 4) line)
      (Parses line .line line) :=
    (sound noNul (4 * line.length + 4)).1 .line line List.suffix_rfl le_rfl
  have atEnd : tokens line = tokens line ++ [] :=
    (List.append_nil _).symm
  rcases complete noNul means (4 * line.length + 4) line [] List.suffix_rfl
    le_rfl atEnd nofun with ⟨cmd, after, parsed, isMeaning, isEnd, inLine⟩
  have parsed :
      parseline line.length (4 * line.length + 4) line = .ok (cmd, after) :=
    parsed
  rw [parsed] at ends
  rcases ends with ⟨-, -, -, words, -⟩
  have result := parsecmd_of_ok noNul inLine parsed
  rw [if_pos isEnd] at result
  exact ⟨cmd, _, result, (map_readString noNul words).trans isMeaning⟩

end Line

/--
For every line without a 0, the parser ends.  It returns a command exactly when
the grammar derives the line, namely the command which the line stands for,
whose strings are the words of the line after `nulterminate`; and it panics
otherwise.
-/
theorem parsecmd_grammar
    (line : List UInt8)
    (noNul : 0 ∉ line) :
    (∀ meaning,
        Means line meaning ↔
          ∃ cmd memory,
            parsecmd line = .ok (cmd, memory) ∧
              cmd.map (readString memory) = meaning) ∧
      ((∀ meaning, ¬ Means line meaning) ↔
        ∃ message, parsecmd line = .error (.panic message)) := by
  constructor
  · intro meaning
    constructor
    · exact parsecmd_complete noNul
    · rintro ⟨cmd, memory, returned, rfl⟩
      rcases parsecmd_sound noNul with
        ⟨other, others, same, means⟩ | ⟨message, panics⟩
      · rw [returned] at same
        cases same
        exact means
      · rw [returned] at panics
        cases panics
  · constructor
    · intro none
      rcases parsecmd_sound noNul with ⟨cmd, memory, -, means⟩ | panics
      · exact absurd means (none _)
      · exact panics
    · rintro ⟨message, panics⟩ meaning means
      rcases parsecmd_complete noNul means with ⟨cmd, memory, returned, -⟩
      rw [panics] at returned
      cases returned

/-- The line `(a; b>c) | d &` -/
theorem parsecmd_grammar_block :
    let line := ("(a; b>c) | d &".toList.map ascii)
    let command : Cmd Text :=
      .back (.pipe
        (.list (.exec [[ascii 'a']])
          (.redir (.exec [[ascii 'b']]) [ascii 'c'] .wronlyCreat 1))
        (.exec [[ascii 'd']]))
    Means line command := by
  intro line command
  have noNul : 0 ∉ line := by
    decide
  have returned :
      ((parsecmd line).toOption.map fun (cmd, memory) =>
        cmd.map (readString memory)) = some command := by
    decide +kernel
  apply ((parsecmd_grammar line noNul).1 command).mpr
  cases result : parsecmd line with
  | error stop =>
      rw [result] at returned
      cases returned
  | ok parsed =>
      rcases parsed with ⟨cmd, memory⟩
      rw [result] at returned
      exact ⟨cmd, memory, rfl, Option.some.inj returned⟩

end FudanOS.User.ShellParser
