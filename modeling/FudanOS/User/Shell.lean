import Mathlib.Data.List.Infix
import Mathlib.Data.Nat.Notation

/-!
# The parser of the shell

`gettoken`, `peek`, the functions which parse, and `nulterminate` of
`user/sh/main.c`.  A position `ps` in the line is the list of the bytes from
there to `es`, where the final 0 stands; `q` and `eq` are offsets into the line.
`malloc1` has enough memory, and a panic ends the process.
-/

namespace FudanOS.User.Shell

/-- The code of a character of ASCII -/
def ascii (letter : Char) : UInt8 :=
  UInt8.ofNat letter.toNat

def whitespace : List UInt8 :=
  [' ', '\t', '\r', '\n', '\x0b'].map ascii

def symbols : List UInt8 :=
  ['<', '|', '>', '&', ';', '(', ')'].map ascii

/-- `MAXARGS` -/
def maxArgs : ℕ := 10

/-- Whether `strchr(set, c)` is not `NULL`; it finds the final 0 as well. -/
def strchr (set : List UInt8) (c : UInt8) : Bool :=
  c = 0 || set.contains c

/-- `while (s < es && strchr(whitespace, *s)) s++` -/
def skip (s : List UInt8) : List UInt8 :=
  s.dropWhile (strchr whitespace)

/-! ## Tokens -/

/-- What `gettoken` returns, and stores through its pointers. -/
structure Gotten where
  ret : UInt8
  q : ℕ
  eq : ℕ
  ps : List UInt8

/-- The token at `s`, which is not whitespace, and what follows it. -/
def token : List UInt8 → UInt8 × List UInt8
  | [] => (0, [])
  | c :: s =>
      if (['|', '(', ')', ';', '&', '<'].map ascii).contains c then
        (c, s)
      else if c = ascii '>' then
        match s with
        | [] => (c, s)
        | d :: rest => if d = ascii '>' then (ascii '+', rest) else (c, s)
      else
        (ascii 'a',
          (c :: s).dropWhile fun c =>
            !strchr whitespace c && !strchr symbols c)

/-- `gettoken(ps, es, q, eq)` -/
def gettoken (es : ℕ) (ps : List UInt8) : Gotten :=
  let s := skip ps
  let q := es - s.length
  let (ret, s) := token s
  ⟨ret, q, es - s.length, skip s⟩

/-- `peek(ps, es, toks)` -/
def peek (ps toks : List UInt8) : Bool × List UInt8 :=
  let s := skip ps
  match s with
  | [] => (false, s)
  | c :: _ => (c ≠ 0 && strchr toks c, s)

/-! ## Commands -/

/-- The `mode` of a redirection -/
inductive Mode where
  /-- `O_RDONLY` -/
  | rdonly
  /-- `O_WRONLY | O_CREAT` -/
  | wronlyCreat
  deriving DecidableEq

/-- `struct cmd`, with words of any type -/
inductive Cmd (Word : Type*) where
  | exec (argv : List Word)
  | redir (cmd : Cmd Word) (file : Word) (mode : Mode) (fd : ℕ)
  | pipe (left right : Cmd Word)
  | list (left right : Cmd Word)
  | back (cmd : Cmd Word)
  deriving DecidableEq

/-- A word of the line: `argv` and `eargv`, or `file` and `efile` -/
structure Span where
  q : ℕ
  eq : ℕ
  deriving DecidableEq

namespace Cmd

variable {Word : Type*}

/-- The next argument of the `execcmd` under the redirections. -/
def addArg : Cmd Word → Word → Cmd Word
  | exec argv, word => exec (argv ++ [word])
  | redir cmd file mode fd, word => redir (cmd.addArg word) file mode fd
  | cmd, _ => cmd

/-- The command with each word replaced. -/
def map {Other : Type*} (read : Word → Other) : Cmd Word → Cmd Other
  | exec argv => exec (argv.map read)
  | redir cmd file mode fd => redir (cmd.map read) (read file) mode fd
  | pipe left right => pipe (left.map read) (right.map read)
  | list left right => list (left.map read) (right.map read)
  | back cmd => back (cmd.map read)

/-- The words of a command -/
def words : Cmd Word → List Word
  | exec argv => argv
  | redir cmd file _ _ => cmd.words ++ [file]
  | pipe left right => left.words ++ right.words
  | list left right => left.words ++ right.words
  | back cmd => cmd.words

end Cmd

/-! ## Parsing -/

/-- Why a function does not return. -/
inductive Stop where
  | panic (message : String)
  /-- A loop or a recursion does not end. -/
  | spins
  deriving DecidableEq

/-- What the functions return, with the new `*ps` -/
abbrev Parsed := Except Stop (Cmd Span × List UInt8)

/-- The `switch` of `parseredirs` -/
def redirect (tok : UInt8) (cmd : Cmd Span) (file : Span) : Cmd Span :=
  if tok = ascii '<' then
    .redir cmd file .rdonly 0
  else if tok = ascii '>' then
    .redir cmd file .wronlyCreat 1
  else if tok = ascii '+' then
    .redir cmd file .wronlyCreat 1
  else
    cmd

/-- `parseredirs`, with at most so many rounds of its loop -/
def parseredirs (es : ℕ) : ℕ → Cmd Span → List UInt8 → Parsed
  | 0, _, _ => .error .spins
  | rounds + 1, cmd, ps =>
      let (found, ps) := peek ps (['<', '>'].map ascii)
      if found then
        let tok := gettoken es ps
        let file := gettoken es tok.ps
        if file.ret ≠ ascii 'a' then
          .error (.panic "missing file for redirection")
        else
          parseredirs es rounds (redirect tok.ret cmd ⟨file.q, file.eq⟩)
            file.ps
      else
        .ok (cmd, ps)

/-- The loop of `parseexec` -/
def parseargs (es : ℕ) : ℕ → ℕ → Cmd Span → List UInt8 → Parsed
  | 0, _, _, _ => .error .spins
  | rounds + 1, argc, ret, ps =>
      let (found, ps) := peek ps (['|', ')', '&', ';'].map ascii)
      if found then
        .ok (ret, ps)
      else
        let tok := gettoken es ps
        if tok.ret = 0 then
          .ok (ret, tok.ps)
        else if tok.ret ≠ ascii 'a' then
          .error (.panic "syntax")
        else
          let ret := ret.addArg ⟨tok.q, tok.eq⟩
          let argc := argc + 1
          if argc ≥ maxArgs then
            .error (.panic "too many args")
          else do
            let (ret, ps) ← parseredirs es (tok.ps.length + 1) ret tok.ps
            parseargs es rounds argc ret ps

/-- The loop of `parseline` -/
def parsebacks (es : ℕ) : ℕ → Cmd Span → List UInt8 → Parsed
  | 0, _, _ => .error .spins
  | rounds + 1, cmd, ps =>
      let (found, ps) := peek ps (['&'].map ascii)
      if found then
        parsebacks es rounds (.back cmd) (gettoken es ps).ps
      else
        .ok (cmd, ps)

mutual

/-- `parseline`; the depth of the recursion is bounded. -/
def parseline (es : ℕ) : ℕ → List UInt8 → Parsed
  | 0, _ => .error .spins
  | depth + 1, ps => do
      let (cmd, ps) ← parsepipe es depth ps
      let (cmd, ps) ← parsebacks es (ps.length + 1) cmd ps
      let (found, ps) := peek ps ([';'].map ascii)
      if found then
        let (right, ps) ← parseline es depth (gettoken es ps).ps
        return (.list cmd right, ps)
      else
        return (cmd, ps)

def parsepipe (es : ℕ) : ℕ → List UInt8 → Parsed
  | 0, _ => .error .spins
  | depth + 1, ps => do
      let (cmd, ps) ← parseexec es depth ps
      let (found, ps) := peek ps (['|'].map ascii)
      if found then
        let (right, ps) ← parsepipe es depth (gettoken es ps).ps
        return (.pipe cmd right, ps)
      else
        return (cmd, ps)

def parseblock (es : ℕ) : ℕ → List UInt8 → Parsed
  | 0, _ => .error .spins
  | depth + 1, ps => do
      let (found, ps) := peek ps (['('].map ascii)
      if !found then
        throw (.panic "parseblock")
      let (cmd, ps) ← parseline es depth (gettoken es ps).ps
      let (found, ps) := peek ps ([')'].map ascii)
      if !found then
        throw (.panic "syntax - missing )")
      let ps := (gettoken es ps).ps
      parseredirs es (ps.length + 1) cmd ps

def parseexec (es : ℕ) : ℕ → List UInt8 → Parsed
  | 0, _ => .error .spins
  | depth + 1, ps => do
      let (found, ps) := peek ps (['('].map ascii)
      if found then
        parseblock es depth ps
      else do
        let (ret, ps) ← parseredirs es (ps.length + 1) (.exec []) ps
        parseargs es (ps.length + 1) 0 ret ps

end

/-- `nulterminate(cmd)`, for the line with its final 0 -/
def nulterminate : Cmd Span → List UInt8 → List UInt8
  | .exec argv, line => argv.foldl (fun line word => line.set word.eq 0) line
  | .redir cmd file _ _, line => (nulterminate cmd line).set file.eq 0
  | .pipe left right, line => nulterminate right (nulterminate left line)
  | .list left right, line => nulterminate right (nulterminate left line)
  | .back cmd, line => nulterminate cmd line

/-- `parsecmd(s)`: the command, and the bytes of the line afterwards -/
def parsecmd (s : List UInt8) : Except Stop (Cmd Span × List UInt8) := do
  let es := s.length
  let (cmd, ps) ← parseline es (4 * s.length + 4) s
  let (_, ps) := peek ps []
  if ps ≠ [] then
    throw (.panic "syntax")
  return (cmd, nulterminate cmd (s ++ [0]))

end FudanOS.User.Shell
