import FudanOS.User.ShellGrammar

/-!
# The tokens which the shell gets

`peek` sees the first symbol of the next token, and `gettoken` passes exactly
that token.
-/

namespace FudanOS.User.ShellTokens

open FudanOS.User.Shell
open FudanOS.User.ShellGrammar

/-! ## Words in the line -/

/-- The bytes of a word -/
def text (line : List UInt8) (word : Span) : Text :=
  (line.drop word.q).take (word.eq - word.q)

/-- The word lies in the line, and ends where its bytes do. -/
structure Delimited (source : List UInt8) (word : Span) : Prop where
  ordered : word.q ≤ word.eq
  inside : word.eq ≤ source.length
  bytes : ∀ c ∈ text source word, isWord c = true
  ends : ∀ c, source[word.eq]? = some c → isWord c = false

/-! ## Bytes -/

section Bytes

variable
    {set line ps rest : List UInt8}
    {c : UInt8}

theorem strchr_eq
    (set : List UInt8)
    (nonzero : c ≠ 0) :
    strchr set c = set.contains c := by
  unfold strchr
  rw [decide_eq_false nonzero, Bool.false_or]

/-- Whitespace before a token does not matter. -/
theorem tokens_skip
    (noNul : 0 ∉ ps) :
    tokens (skip ps) = tokens ps := by
  induction ps with
  | nil => rfl
  | cons c ps ih =>
      rw [List.mem_cons, not_or] at noNul
      have nonzero : c ≠ 0 := Ne.symm noNul.1
      unfold skip
      by_cases space : whitespace.contains c
      · rw [List.dropWhile_cons_of_pos (by rw [strchr_eq _ nonzero, space])]
        rw [tokens, if_pos space]
        exact ih noNul.2
      · rw [List.dropWhile_cons_of_neg (by rwa [strchr_eq _ nonzero])]

theorem skip_suffix (ps : List UInt8) : skip ps <:+ ps :=
  List.dropWhile_suffix _

/-- What is left begins with a token. -/
theorem skip_cons
    (noNul : 0 ∉ ps)
    (isCons : skip ps = c :: rest) :
    c ≠ 0 ∧ whitespace.contains c = false := by
  have member : c ∈ ps := by
    apply (skip_suffix ps).subset
    rw [isCons]
    exact List.mem_cons_self
  have nonzero : c ≠ 0 := by
    rintro rfl
    exact noNul member
  have notSpace : strchr whitespace c = false := by
    have head := List.head?_dropWhile_not (strchr whitespace) ps
    unfold skip at isCons
    rw [isCons] at head
    exact head
  rw [strchr_eq _ nonzero] at notSpace
  exact ⟨nonzero, notSpace⟩

end Bytes

/-! ## Tokens -/

/-- What `gettoken` returns for a token -/
def code : Token → UInt8
  | .word _ => ascii 'a'
  | .less => ascii '<'
  | .greater => ascii '>'
  | .append => ascii '+'
  | .bar => ascii '|'
  | .left => ascii '('
  | .right => ascii ')'
  | .semi => ascii ';'
  | .amp => ascii '&'

/-- The symbol with which a token begins -/
def first : Token → Option UInt8
  | .word _ => none
  | .append => some (ascii '>')
  | token => some (code token)

/-- The next token begins with a symbol of the set. -/
def Among (set : List UInt8) (ts : List Token) : Prop :=
  ∃ token ∈ ts.head?, ∃ c ∈ first token, c ∈ set

section Tokens

variable
    {line ps rest set : List UInt8}
    {c : UInt8}

/-- The bytes which are symbols stand for their tokens. -/
theorem symbolToken_facts :
    ∀ c ∈ symbols,
      whitespace.contains c = false ∧
        ∃ token,
          symbolToken c = some token ∧ first token = some c ∧
            code token = c := by
  decide +kernel

theorem symbolToken_none
    (notSymbol : symbols.contains c = false) :
    symbolToken c = none := by
  have apart : ∀ d ∈ symbols, c ≠ d := by
    rintro d member rfl
    rw [List.contains_iff_mem.mpr member] at notSymbol
    cases notSymbol
  unfold symbolToken
  rw [if_neg (apart _ (by decide)), if_neg (apart _ (by decide)),
    if_neg (apart _ (by decide)), if_neg (apart _ (by decide)),
    if_neg (apart _ (by decide)), if_neg (apart _ (by decide)),
    if_neg (apart _ (by decide))]

/-- The first token of a position which is not whitespace. -/
inductive Begins (c : UInt8) (rest : List UInt8) :
    Token → List UInt8 → Prop where
  | append
      (isGreater : c = ascii '>')
      (next : rest = ascii '>' :: after) :
      Begins c rest .append after
  | symbol
      (isSymbol : c ∈ symbols)
      (alone : c = ascii '>' → rest.head? ≠ some (ascii '>'))
      (isToken : symbolToken c = some tok) :
      Begins c rest tok rest
  | word
      (isWord : isWord c = true) :
      Begins c rest (.word (c :: rest.takeWhile ShellGrammar.isWord))
        (rest.dropWhile ShellGrammar.isWord)

theorem exists_begins
    (rest : List UInt8)
    (notSpace : whitespace.contains c = false) :
    ∃ tok after,
      Begins c rest tok after ∧ tokens (c :: rest) = tok :: tokens after := by
  rw [tokens, if_neg (by rw [notSpace]; exact Bool.false_ne_true)]
  by_cases twice : c = ascii '>' ∧ rest.head? = some (ascii '>')
  · rw [if_pos twice]
    cases rest with
    | nil => cases twice.2
    | cons d rest =>
        have isGreater := Option.some.inj twice.2
        subst isGreater
        exact ⟨_, _, .append twice.1 rfl, rfl⟩
  · rw [if_neg twice]
    cases isSymbol : symbols.contains c with
    | true =>
        have member := List.contains_iff_mem.mp isSymbol
        rcases (symbolToken_facts c member).2 with ⟨tok, isToken, -⟩
        rw [isToken]
        exact ⟨tok, rest,
          .symbol member (fun same next => twice ⟨same, next⟩) isToken, rfl⟩
    | false =>
        rw [symbolToken_none isSymbol]
        refine ⟨_, _, .word ?_, rfl⟩
        unfold isWord
        rw [notSpace, isSymbol]
        rfl

/-- `peek` looks at the first symbol of the next token. -/
theorem peek_iff
    (noNul : 0 ∉ ps)
    (ofSymbols : ∀ c ∈ set, c ∈ symbols) :
    ((peek ps set).1 = true ↔ Among set (tokens ps)) ∧
      (peek ps set).2 = skip ps := by
  rw [← tokens_skip noNul]
  unfold peek
  cases split : skip ps with
  | nil =>
      refine ⟨?_, rfl⟩
      rw [tokens]
      constructor
      · intro found
        cases found
      · rintro ⟨token, impossible, -⟩
        cases impossible
  | cons c rest =>
      refine ⟨?_, rfl⟩
      rcases skip_cons noNul split with ⟨nonzero, notSpace⟩
      rcases exists_begins rest notSpace with ⟨tok, after, begins, split⟩
      have isFirst :
          ((c ≠ 0 && strchr set c) = true) ↔ c ∈ set := by
        rw [strchr_eq _ nonzero, decide_eq_true nonzero, Bool.true_and,
          List.contains_iff_mem]
      rw [split]
      dsimp only
      rw [isFirst]
      have among : Among set (tok :: tokens after) ↔
          ∃ d ∈ first tok, d ∈ set := by
        unfold Among
        rw [List.head?_cons]
        constructor
        · rintro ⟨token, same, found⟩
          cases same
          exact found
        · intro found
          exact ⟨tok, rfl, found⟩
      rw [among]
      cases begins with
      | append isGreater next =>
          subst isGreater
          constructor
          · intro member
            exact ⟨_, rfl, member⟩
          · rintro ⟨d, same, member⟩
            cases same
            exact member
      | symbol isSymbol alone isToken =>
          rcases (symbolToken_facts c isSymbol).2 with
            ⟨token, same, isFirst, -⟩
          rw [isToken] at same
          cases same
          rw [isFirst]
          constructor
          · intro member
            exact ⟨c, rfl, member⟩
          · rintro ⟨d, same, member⟩
            cases same
            exact member
      | word isWord =>
          constructor
          · intro member
            have isSymbol := List.contains_iff_mem.mpr (ofSymbols c member)
            unfold ShellGrammar.isWord at isWord
            rw [isSymbol, Bool.not_true, Bool.and_false] at isWord
            cases isWord
          · rintro ⟨d, impossible, -⟩
            cases impossible

/-- A position is at its end when no token is left. -/
theorem tokens_eq_nil_iff
    (noNul : 0 ∉ ps) :
    tokens ps = [] ↔ skip ps = [] := by
  rw [← tokens_skip noNul]
  cases split : skip ps with
  | nil => simp [tokens]
  | cons c rest =>
      rcases exists_begins rest (skip_cons noNul split).2 with
        ⟨tok, after, -, isCons⟩
      rw [isCons]
      exact iff_of_false (List.cons_ne_nil _ _) (List.cons_ne_nil _ _)

/-- What `gettoken` leaves after a token. -/
structure Takes
    (line ps : List UInt8)
    (tok : Token)
    (ts : List Token)
    (got : Gotten) : Prop where
  ret : got.ret = code tok
  rest : tokens got.ps = ts
  suffix : got.ps <:+ ps
  shorter : got.ps.length < ps.length
  word :
    ∀ bytes, tok = .word bytes →
      text line ⟨got.q, got.eq⟩ = bytes ∧ Delimited line ⟨got.q, got.eq⟩

/-- The bytes of a word end before its first byte which is none of a word. -/
theorem token_word
    (noNul : 0 ∉ c :: rest)
    (isWord : isWord c = true) :
    token (c :: rest) =
      (ascii 'a', rest.dropWhile ShellGrammar.isWord) := by
  have same : ∀ d ∈ c :: rest,
      (!strchr whitespace d && !strchr symbols d) =
        ShellGrammar.isWord d := by
    intro d member
    have nonzero : d ≠ 0 := by
      rintro rfl
      exact noNul member
    unfold ShellGrammar.isWord
    rw [strchr_eq _ nonzero, strchr_eq _ nonzero]
  have notSymbol : c ∉ symbols := by
    intro member
    unfold ShellGrammar.isWord at isWord
    rw [List.contains_iff_mem.mpr member, Bool.not_true, Bool.and_false]
      at isWord
    cases isWord
  have notSingle :
      (['|', '(', ')', ';', '&', '<'].map ascii).contains c = false := by
    rw [← Bool.not_eq_true, List.contains_iff_mem]
    intro member
    have within : ∀ d ∈ ['|', '(', ')', ';', '&', '<'].map ascii,
        d ∈ symbols := by
      decide +kernel
    exact notSymbol (within c member)
  have notGreater : c ≠ ascii '>' := by
    rintro rfl
    exact notSymbol (by decide)
  have agree (left : List UInt8) (inside : ∀ d ∈ left, d ∈ c :: rest) :
      left.dropWhile (fun c => !strchr whitespace c && !strchr symbols c) =
        left.dropWhile ShellGrammar.isWord := by
    induction left with
    | nil => rfl
    | cons d left ih =>
        rw [List.dropWhile_cons, List.dropWhile_cons,
          same d (inside d List.mem_cons_self),
          ih fun e member => inside e (List.mem_cons_of_mem d member)]
  unfold token
  dsimp only
  rw [if_neg (by rw [notSingle]; exact Bool.false_ne_true),
    if_neg notGreater, agree _ fun d member => member,
    List.dropWhile_cons_of_pos isWord]

/-- The token at a position, and what `token` leaves of it. -/
theorem token_begins
    {tok : Token}
    {after : List UInt8}
    (noNul : 0 ∉ c :: rest)
    (begins : Begins c rest tok after) :
    token (c :: rest) = (code tok, after) ∧ after <:+ rest := by
  cases begins with
  | append isGreater next =>
      subst isGreater next
      refine ⟨rfl, List.suffix_cons _ _⟩
  | symbol isSymbol alone isToken =>
      refine ⟨?_, List.suffix_rfl⟩
      rcases (symbolToken_facts c isSymbol).2 with
        ⟨other, same, -, isCode⟩
      rw [isToken] at same
      cases same
      rw [isCode]
      unfold token
      dsimp only
      by_cases single :
          (['|', '(', ')', ';', '&', '<'].map ascii).contains c = true
      · rw [if_pos single]
      · have isGreater : c = ascii '>' := by
          have others :
              ∀ d ∈ symbols,
                ¬ (['|', '(', ')', ';', '&', '<'].map ascii).contains d =
                  true → d = ascii '>' := by
            decide +kernel
          exact others c isSymbol single
        rw [if_neg single, if_pos isGreater]
        cases rest with
        | nil => rfl
        | cons d rest =>
            have different : d ≠ ascii '>' := by
              rintro rfl
              exact alone isGreater rfl
            dsimp only
            rw [if_neg different]
  | word isWord =>
      exact ⟨token_word noNul isWord, List.dropWhile_suffix _⟩

/-- The bytes from one position to a later one. -/
theorem text_between
    {left middle right : List UInt8} :
    text (left ++ (middle ++ right))
        ⟨(left ++ (middle ++ right)).length - (middle ++ right).length,
          (left ++ (middle ++ right)).length - right.length⟩ =
      middle := by
  have start :
      (left ++ (middle ++ right)).length - (middle ++ right).length =
        left.length := by
    rw [List.length_append, Nat.add_sub_cancel]
  have stop :
      (left ++ (middle ++ right)).length - right.length =
        left.length + middle.length := by
    rw [List.length_append, List.length_append, ← Nat.add_assoc,
      Nat.add_sub_cancel]
  unfold text
  dsimp only
  rw [start, stop, List.drop_left, Nat.add_sub_cancel_left,
    List.take_left]

theorem gettoken_end
    (noNul : 0 ∉ ps)
    (isEnd : tokens ps = [])
    (es : ℕ) :
    (gettoken es ps).ret = 0 ∧ tokens (gettoken es ps).ps = [] ∧
      (gettoken es ps).ps <:+ ps := by
  have empty := (tokens_eq_nil_iff noNul).mp isEnd
  unfold gettoken
  rw [empty]
  refine ⟨rfl, ?_, List.nil_suffix⟩
  change tokens [] = []
  rw [tokens]

theorem gettoken_takes
    {tok : Token}
    {ts : List Token}
    (noNul : 0 ∉ line)
    (inLine : ps <:+ line)
    (isCons : tokens ps = tok :: ts) :
    Takes line ps tok ts (gettoken line.length ps) := by
  have noNulPs : 0 ∉ ps := fun member => noNul (inLine.subset member)
  have notEnd : skip ps ≠ [] := by
    rw [Ne, ← tokens_eq_nil_iff noNulPs, isCons]
    exact List.cons_ne_nil tok ts
  cases split : skip ps with
  | nil => exact absurd split notEnd
  | cons c rest =>
      rcases skip_cons noNulPs split with ⟨-, notSpace⟩
      rcases exists_begins rest notSpace with ⟨found, after, begins, isFound⟩
      rw [← tokens_skip noNulPs, split, isFound] at isCons
      cases isCons
      have toLine : c :: rest <:+ ps := split ▸ skip_suffix ps
      have noNulRest : 0 ∉ c :: rest :=
        fun member => noNulPs (toLine.subset member)
      rcases token_begins noNulRest begins with ⟨isToken, later⟩
      have afterPs : after <:+ ps :=
        later.trans ((List.suffix_cons c rest).trans toLine)
      have noNulAfter : 0 ∉ after :=
        fun member => noNulPs (afterPs.subset member)
      have got : gettoken line.length ps =
          ⟨code tok, line.length - (c :: rest).length,
            line.length - after.length, skip after⟩ := by
        unfold gettoken
        dsimp only
        rw [split, isToken]
      rw [got]
      refine ⟨rfl, tokens_skip noNulAfter, (skip_suffix after).trans afterPs,
        ?_, ?_⟩
      · have fewer := (skip_suffix after).length_le
        have less := later.length_le
        have bound := toLine.length_le
        rw [List.length_cons] at bound
        dsimp only
        omega
      · rintro bytes rfl
        cases begins with
        | symbol isSymbol _ isWord =>
            rcases (symbolToken_facts c isSymbol).2 with
              ⟨other, same, isFirst, -⟩
            rw [isWord] at same
            cases same
            cases isFirst
        | word isWord =>
            rcases toLine.trans inLine with ⟨left, whole⟩
            have parts : c :: rest =
                (c :: rest.takeWhile ShellGrammar.isWord) ++
                  rest.dropWhile ShellGrammar.isWord := by
              rw [List.cons_append, List.takeWhile_append_dropWhile]
            rw [parts] at whole ⊢
            have isText :
                text line
                  ⟨line.length -
                      ((c :: rest.takeWhile ShellGrammar.isWord) ++
                        rest.dropWhile ShellGrammar.isWord).length,
                    line.length -
                      (rest.dropWhile ShellGrammar.isWord).length⟩ =
                  c :: rest.takeWhile ShellGrammar.isWord := by
              rw [← whole]
              exact text_between
            refine ⟨isText, ?_, Nat.sub_le _ _, ?_, ?_⟩
            · dsimp only
              rw [List.length_append]
              omega
            · rw [isText]
              intro d member
              rcases List.mem_cons.mp member with rfl | inside
              · exact isWord
              · exact List.mem_takeWhile_imp inside
            · intro d here
              have stop :
                  line.length -
                      (rest.dropWhile ShellGrammar.isWord).length =
                    (left ++
                      (c :: rest.takeWhile ShellGrammar.isWord)).length := by
                rw [← whole, ← List.append_assoc, List.length_append,
                  Nat.add_sub_cancel]
              dsimp only at here
              rw [stop, ← whole, ← List.append_assoc,
                List.getElem?_append_right le_rfl, Nat.sub_self] at here
              have head := List.head?_dropWhile_not ShellGrammar.isWord rest
              rw [← List.head?_eq_getElem?] at here
              rw [here] at head
              exact head

end Tokens

end FudanOS.User.ShellTokens
