import FudanOS.User.Shell
import Mathlib.Data.List.TakeWhile

/-!
# The grammar of the shell

A line is a list of tokens with whitespace between them, where words and `>>`
are as long as they can be.  `Derives` has the derivations of the grammar, each
with the command which it stands for.
-/

namespace FudanOS.User.ShellGrammar

open FudanOS.User.Shell

/-! ## Tokens -/

abbrev Text := List UInt8

inductive Token where
  | word (text : Text)
  | less
  | greater
  | append
  | bar
  | left
  | right
  | semi
  | amp
  deriving DecidableEq

/-- A byte of a word -/
def isWord (c : UInt8) : Bool :=
  !whitespace.contains c && !symbols.contains c

/-- The token which a symbol stands for by itself -/
def symbolToken (c : UInt8) : Option Token :=
  if c = ascii '|' then some .bar
  else if c = ascii '(' then some .left
  else if c = ascii ')' then some .right
  else if c = ascii ';' then some .semi
  else if c = ascii '&' then some .amp
  else if c = ascii '<' then some .less
  else if c = ascii '>' then some .greater
  else none

/-- The tokens of a line -/
def tokens : List UInt8 → List Token
  | [] => []
  | c :: rest =>
      if whitespace.contains c then
        tokens rest
      else if c = ascii '>' ∧ rest.head? = some (ascii '>') then
        .append :: tokens rest.tail
      else
        match symbolToken c with
        | some token => token :: tokens rest
        | none =>
            .word (c :: rest.takeWhile isWord) ::
              tokens (rest.dropWhile isWord)
termination_by line => line.length
decreasing_by
  · simp
  · simp only [List.length_tail, List.length_cons]
    omega
  · simp
  · exact Nat.lt_succ_of_le (List.length_dropWhile_le isWord rest)

/-! ## Derivations -/

/-- `redir` -/
structure Redir where
  kind : Token
  file : Text
  isKind : kind = .less ∨ kind = .greater ∨ kind = .append

def Redir.tokens (redir : Redir) : List Token :=
  [redir.kind, .word redir.file]

def Redir.apply (cmd : Cmd Text) (redir : Redir) : Cmd Text :=
  match redir.kind with
  | .less => .redir cmd redir.file .rdonly 0
  | _ => .redir cmd redir.file .wronlyCreat 1

/-- The first redirection is the innermost one. -/
def wrap (cmd : Cmd Text) (redirs : List Redir) : Cmd Text :=
  redirs.foldl Redir.apply cmd

/-- `word redir*` -/
structure Argument where
  word : Text
  redirs : List Redir

def Argument.tokens (argument : Argument) : List Token :=
  .word argument.word :: argument.redirs.flatMap Redir.tokens

/-- `cmd` in the background so many times -/
def backs : ℕ → Cmd Text → Cmd Text
  | 0, cmd => cmd
  | count + 1, cmd => backs count (.back cmd)

inductive Symbol where
  | line
  | pipe
  | exec

/--
`line ::= pipe '&'* [';' line]`, `pipe ::= exec ['|' pipe]` and
`exec ::= '(' line ')' redir* | redir* (word redir*)*`
-/
inductive Derives : Symbol → List Token → Cmd Text → Prop where
  | line
      (count : ℕ)
      (pipe : Derives .pipe ts cmd) :
      Derives .line (ts ++ List.replicate count .amp) (backs count cmd)
  | semi
      (count : ℕ)
      (pipe : Derives .pipe ts cmd)
      (line : Derives .line us other) :
      Derives .line (ts ++ List.replicate count .amp ++ .semi :: us)
        (.list (backs count cmd) other)
  | pipe
      (exec : Derives .exec ts cmd) :
      Derives .pipe ts cmd
  | bar
      (exec : Derives .exec ts cmd)
      (pipe : Derives .pipe us other) :
      Derives .pipe (ts ++ .bar :: us) (.pipe cmd other)
  | block
      (redirs : List Redir)
      (line : Derives .line ts cmd) :
      Derives .exec
        (.left :: (ts ++ .right :: redirs.flatMap Redir.tokens))
        (wrap cmd redirs)
  | exec
      (redirs : List Redir)
      (arguments : List Argument)
      (few : arguments.length ≤ maxArgs - 1) :
      Derives .exec
        (redirs.flatMap Redir.tokens ++
          arguments.flatMap Argument.tokens)
        (wrap (.exec (arguments.map Argument.word))
          (redirs ++ arguments.flatMap Argument.redirs))

/-- The command which a line stands for. -/
def Means (line : List UInt8) (cmd : Cmd Text) : Prop :=
  Derives .line (tokens line) cmd

end FudanOS.User.ShellGrammar
