import Mathlib.Data.BitVec
import Mathlib.Data.List.Infix
import Mathlib.Data.Nat.Digits.Lemmas

/-!
# Formatted output

`vformat` of `common/format.c`, with `strncmp` of `common/string.c`.  A text in
memory is the list of its bytes up to and with the final 0, so that a read
behind the 0 is a fault.  What `put_char` gets is collected in `ctx`.
-/

namespace FudanOS.Common.Format

/-- The code of a character of ASCII -/
def ascii (letter : Char) : UInt8 :=
  UInt8.ofNat letter.toNat

/-- What a call of `vformat` may run into. -/
inductive Fault where
  /-- A read behind the final 0 of a text -/
  | past
  /-- A write behind the end of `buf` -/
  | overrun
  /-- The next argument is missing, or has another type. -/
  | argument
  /-- A loop does not end. -/
  | spins
  deriving DecidableEq

/-! ## Integers -/

/-- The types which the conversions of integers have. -/
inductive IntType where
  | u32
  | i32
  /-- `u64` and `usize` -/
  | u64
  /-- `i64` and `isize` -/
  | i64
  deriving DecidableEq

inductive Arg where
  /-- `u32`, `i32` and `int` -/
  | word (value : BitVec 32)
  /-- `u64`, `i64`, `usize` and `isize` -/
  | long (value : BitVec 64)
  /-- `const char *`, with what is in memory from there on; `none` is `NULL` -/
  | text (bytes : Option (List UInt8))

/-- `(i64)va_arg(arg, type)` -/
def vaArg (type : IntType) :
    List Arg → Except Fault (BitVec 64 × List Arg)
  | .word value :: args =>
      match type with
      | .u32 => .ok (value.setWidth 64, args)
      | .i32 => .ok (value.signExtend 64, args)
      | .u64 => .error .argument
      | .i64 => .error .argument
  | .long value :: args =>
      match type with
      | .u32 => .error .argument
      | .i32 => .error .argument
      | .u64 => .ok (value, args)
      | .i64 => .ok (value, args)
  | _ => .error .argument

/-- `digit`, without its final 0 -/
def digits : List UInt8 :=
  ['0', '1', '2', '3', '4', '5', '6', '7', '8', '9', 'a', 'b', 'c', 'd', 'e',
    'f'].map ascii

def digit (index : Nat) : UInt8 :=
  digits.getD index 0

/--
The first loop of `_print_int`, with the bytes which are left in `buf`.  What
has been written to `buf` is listed from `pos - 1` down.
-/
def writeDigits (base : BitVec 64) :
    Nat → BitVec 64 → List UInt8 → Except Fault (List UInt8)
  | 0, _, _ => .error .overrun
  | room + 1, v, buf =>
      let buf := digit (v % base).toNat :: buf
      let v := v / base
      if v = 0 then .ok buf else writeDigits base room v buf

/-- `_print_int(put_char, ctx, u, _base, is_signed)` -/
def printInt (ctx : List UInt8) (u : BitVec 64) (base : Nat)
    (isSigned : Bool) : Except Fault (List UInt8) :=
  let negative := isSigned && u.slt 0
  let v := if negative then -u else u
  let ctx := if negative then ctx ++ [ascii '-'] else ctx
  -- The second loop takes the bytes of `buf` from `pos - 1` down.
  (writeDigits (BitVec.ofNat 64 base) 64 v []).map (ctx ++ ·)

/-! ## Conversions -/

/-- The first `n` bytes of both texts are compared. -/
def strncmp : List UInt8 → List UInt8 → Nat → Except Fault Int
  | _, _, 0 => .ok 0
  | c1 :: s1, c2 :: s2, n + 1 =>
      if c1 ≠ c2 then
        .ok ((c1.toNat : Int) - c2.toNat)
      else if c1 = 0 ∨ c2 = 0 then
        .ok 0
      else
        strncmp s1 s2 n
  | _, _, _ => .error .past

/-- The arguments of `_INT_CASE` -/
structure IntCase where
  ident : List UInt8
  type : IntType
  base : Nat
  sign : Bool
  deriving DecidableEq

def intCases : List IntCase :=
  [⟨['u'].map ascii, .u32, 10, false⟩,
    ⟨['l', 'l', 'u'].map ascii, .u64, 10, false⟩,
    ⟨['d'].map ascii, .i32, 10, true⟩,
    ⟨['l', 'l', 'd'].map ascii, .i64, 10, true⟩,
    ⟨['x'].map ascii, .u32, 16, false⟩,
    ⟨['l', 'l', 'x'].map ascii, .u64, 16, false⟩,
    ⟨['p'].map ascii, .u64, 16, false⟩,
    ⟨['z', 'u'].map ascii, .u64, 10, false⟩,
    ⟨['z', 'd'].map ascii, .i64, 10, true⟩]

/-- The first case whose `ident` is at `pos` -/
def findCase (pos : List UInt8) :
    List IntCase → Except Fault (Option IntCase)
  | [] => .ok none
  | intCase :: later => do
      let order ← strncmp pos (intCase.ident ++ [0]) intCase.ident.length
      if order = 0 then
        return some intCase
      else
        findCase pos later

/-- `while (*s != '\0') put_char(ctx, *s++)` -/
def printText (ctx : List UInt8) : List UInt8 → Except Fault (List UInt8)
  | [] => .error .past
  | c :: s => if c = 0 then .ok ctx else printText (ctx ++ [c]) s

/-- `"(null)"` -/
def nullText : List UInt8 :=
  ['(', 'n', 'u', 'l', 'l', ')'].map ascii ++ [0]

/-- `pos`, `arg` and `ctx` -/
structure State where
  pos : List UInt8
  args : List Arg
  ctx : List UInt8

/-- What follows a `%`; `none` when `special` becomes 0. -/
def convert (state : State) : Except Fault (Option State) :=
  match state.pos with
  | [] => .error .past
  | next :: rest =>
      if next = ascii '%' then
        .ok (some ⟨rest, state.args, state.ctx ++ [ascii '%']⟩)
      else if next = ascii 'c' then
        match state.args with
        | .word value :: args =>
            .ok (some ⟨rest, args, state.ctx ++ [⟨value.setWidth 8⟩]⟩)
        | _ => .error .argument
      else if next = ascii 's' then
        match state.args with
        | .text bytes :: args => do
            let ctx ← printText state.ctx (bytes.getD nullText)
            return some ⟨rest, args, ctx⟩
        | _ => .error .argument
      else do
        match ← findCase state.pos intCases with
        | none => return none
        | some intCase =>
            let (u, args) ← vaArg intCase.type state.args
            let ctx ← printInt state.ctx u intCase.base intCase.sign
            return some ⟨state.pos.drop intCase.ident.length, args, ctx⟩

/-- The loop of `vformat`, which takes at most so many rounds. -/
def vformatLoop : Nat → State → Except Fault (List UInt8)
  | 0, _ => .error .spins
  | rounds + 1, state =>
      match state.pos with
      | [] => .error .past
      | c :: pos =>
          let state := { state with pos := pos }
          if c = 0 then
            .ok state.ctx
          else if c = ascii '%' then do
            match ← convert state with
            | some state => vformatLoop rounds state
            | none =>
                vformatLoop rounds { state with ctx := state.ctx ++ [c] }
          else
            vformatLoop rounds { state with ctx := state.ctx ++ [c] }

/-- `vformat(put_char, ctx, fmt, arg)`; each round takes a byte of `fmt`. -/
def vformat (fmt : List UInt8) (args : List Arg) :
    Except Fault (List UInt8) :=
  vformatLoop fmt.length ⟨fmt, args, []⟩

/-! ## What the callers may expect -/

/-- The text has digits of the base, whose value is the number. -/
def Denotes (base : Nat) (text : List UInt8) (value : Nat) : Prop :=
  ∃ numbers : List Nat,
    numbers ≠ [] ∧ (∀ number ∈ numbers, number < base) ∧
      text = (numbers.map digit).reverse ∧
      Nat.ofDigits base numbers = value

/-- A minus stands in front of the digits exactly if the value is negative. -/
def Reads (base : Nat) (text : List UInt8) (value : Int) : Prop :=
  (0 ≤ value ∧ Denotes base text value.toNat) ∨
    (value < 0 ∧
      ∃ rest, text = ascii '-' :: rest ∧ Denotes base rest (-value).toNat)

/-- No shorter text reads as the value. -/
structure Numeral (base : Nat) (text : List UInt8) (value : Int) : Prop where
  reads : Reads base text value
  shortest : ∀ other, Reads base other value → text.length ≤ other.length

/-- The value which an argument has at a type. -/
def Arg.value : IntType → Arg → Option Int
  | .u32, .word value => some value.toNat
  | .i32, .word value => some value.toInt
  | .u64, .long value => some value.toNat
  | .i64, .long value => some value.toInt
  | _, _ => none

inductive Piece where
  /-- A byte which stands for itself -/
  | letter (c : UInt8)
  | percent
  | char
  | text
  | int (intCase : IntCase)

/-- No conversion starts here. -/
structure Unknown (fmt : List UInt8) : Prop where
  letters :
    ∀ c rest, fmt = c :: rest →
      c ≠ ascii '%' ∧ c ≠ ascii 'c' ∧ c ≠ ascii 's'
  cases_ : ∀ intCase ∈ intCases, ¬ intCase.ident <+: fmt

/-- How a format is read; an unknown conversion is read as its letters. -/
inductive Parses : List UInt8 → List Piece → Prop where
  | nil : Parses [] []
  | letter
      (c : UInt8)
      (plain : c ≠ ascii '%')
      (later : Parses fmt pieces) :
      Parses (c :: fmt) (.letter c :: pieces)
  | percent
      (later : Parses fmt pieces) :
      Parses (ascii '%' :: ascii '%' :: fmt) (.percent :: pieces)
  | char
      (later : Parses fmt pieces) :
      Parses (ascii '%' :: ascii 'c' :: fmt) (.char :: pieces)
  | text
      (later : Parses fmt pieces) :
      Parses (ascii '%' :: ascii 's' :: fmt) (.text :: pieces)
  | int
      (intCase : IntCase)
      (known : intCase ∈ intCases)
      (later : Parses fmt pieces) :
      Parses (ascii '%' :: (intCase.ident ++ fmt)) (.int intCase :: pieces)
  | unknown
      (isUnknown : Unknown fmt)
      (later : Parses fmt pieces) :
      Parses (ascii '%' :: fmt) (.letter (ascii '%') :: pieces)

/-- The arguments have the types of the conversions, in their order. -/
def Fits : List Piece → List Arg → Prop
  | [], _ => True
  | .letter _ :: pieces, args => Fits pieces args
  | .percent :: pieces, args => Fits pieces args
  | .char :: pieces, .word _ :: args => Fits pieces args
  | .text :: pieces, .text bytes :: args =>
      (∀ text, bytes = some text → 0 ∈ text) ∧ Fits pieces args
  | .int intCase :: pieces, arg :: args =>
      arg.value intCase.type ≠ none ∧ Fits pieces args
  | _, _ => False

/-- What is written for the pieces. -/
def Renders : List Piece → List Arg → List UInt8 → Prop
  | [], _, out => out = []
  | .letter c :: pieces, args, out =>
      ∃ rest, out = c :: rest ∧ Renders pieces args rest
  | .percent :: pieces, args, out =>
      ∃ rest, out = ascii '%' :: rest ∧ Renders pieces args rest
  | .char :: pieces, .word value :: args, out =>
      ∃ rest, out = ⟨value.setWidth 8⟩ :: rest ∧ Renders pieces args rest
  | .text :: pieces, .text bytes :: args, out =>
      ∃ rest,
        out = (bytes.getD nullText).takeWhile (· ≠ 0) ++ rest ∧
          Renders pieces args rest
  | .int intCase :: pieces, arg :: args, out =>
      ∃ value text rest,
        arg.value intCase.type = some value ∧
          Numeral intCase.base text value ∧ out = text ++ rest ∧
          Renders pieces args rest
  | _, _, _ => False

/-! ## Numerals -/

section Numerals

variable {base : Nat}

/-- The digits of a number without zeros in front, the last one first. -/
def shortDigits (base value : Nat) : List Nat :=
  if value = 0 then [0] else Nat.digits base value

theorem denotes_shortDigits
    (large : 1 < base)
    (value : Nat) :
    Denotes base ((shortDigits base value).map digit).reverse value := by
  unfold shortDigits
  split_ifs with zero
  · refine ⟨[0], List.cons_ne_nil 0 [], ?_, rfl, ?_⟩
    · intro number member
      rw [List.mem_singleton.mp member]
      omega
    · rw [zero, Nat.ofDigits_singleton]
  · exact ⟨Nat.digits base value, Nat.digits_ne_nil_iff_ne_zero.mpr zero,
      fun _ member => Nat.digits_lt_base large member, rfl,
      Nat.ofDigits_digits base value⟩

theorem length_shortDigits_le
    (large : 1 < base)
    {value : Nat}
    {text : List UInt8}
    (denotes : Denotes base text value) :
    (shortDigits base value).length ≤ text.length := by
  rcases denotes with ⟨numbers, some_, below, rfl, rfl⟩
  rw [List.length_reverse, List.length_map]
  unfold shortDigits
  split_ifs with zero
  · exact List.length_pos_iff.mpr some_
  · rw [Nat.digits_length_le_iff large]
    exact Nat.ofDigits_lt_base_pow_length large below

theorem numeral_nonnegative
    (large : 1 < base)
    (value : Nat) :
    Numeral base ((shortDigits base value).map digit).reverse value := by
  constructor
  · exact Or.inl ⟨Int.natCast_nonneg value, denotes_shortDigits large value⟩
  · rintro other (⟨-, denotes⟩ | ⟨negative, -⟩)
    · rw [List.length_reverse, List.length_map]
      exact length_shortDigits_le large denotes
    · omega

theorem numeral_negative
    (large : 1 < base)
    {value : Int}
    (negative : value < 0) :
    Numeral base
      (ascii '-' ::
        ((shortDigits base (-value).toNat).map digit).reverse) value := by
  constructor
  · exact Or.inr ⟨negative, _, rfl, denotes_shortDigits large _⟩
  · rintro other (⟨nonnegative, -⟩ | ⟨-, rest, rfl, denotes⟩)
    · omega
    · rw [List.length_cons, List.length_cons, List.length_reverse,
        List.length_map]
      exact Nat.succ_le_succ (length_shortDigits_le large denotes)

/-- The first loop of `_print_int` has enough room, and finds the digits. -/
theorem writeDigits_eq
    (large : 1 < base)
    (small : base < 2 ^ 64)
    {room : Nat}
    {v : BitVec 64}
    (fits : v.toNat < base ^ (room + 1))
    (buf : List UInt8) :
    writeDigits (BitVec.ofNat 64 base) (room + 1) v buf =
      .ok (((shortDigits base v.toNat).map digit).reverse ++ buf) := by
  have isBase : (BitVec.ofNat 64 base).toNat = base := by
    rw [BitVec.toNat_ofNat, Nat.mod_eq_of_lt small]
  have quotient (v : BitVec 64) :
      (v / BitVec.ofNat 64 base).toNat = v.toNat / base := by
    rw [BitVec.toNat_udiv, isBase]
  have remainder (v : BitVec 64) :
      (v % BitVec.ofNat 64 base).toNat = v.toNat % base := by
    rw [BitVec.toNat_umod, isBase]
  have isLast {v : BitVec 64} :
      v / BitVec.ofNat 64 base = 0 ↔ v.toNat / base = 0 := by
    rw [← quotient]
    exact BitVec.toNat_eq.trans Iff.rfl
  induction room generalizing v buf with
  | zero =>
      have below : v.toNat < base := by
        rw [Nat.zero_add, pow_one] at fits
        exact fits
      have last := isLast.mpr (Nat.div_eq_of_lt below)
      unfold writeDigits
      dsimp only
      rw [if_pos last, remainder, Nat.mod_eq_of_lt below]
      unfold shortDigits
      split_ifs with zero
      · rw [zero]
        rfl
      · rw [Nat.digits_of_lt base v.toNat zero below]
        rfl
  | succ room ih =>
      unfold writeDigits
      dsimp only
      rw [remainder]
      by_cases last : v.toNat / base = 0
      · have below : v.toNat < base :=
          (Nat.div_eq_zero_iff_lt (by omega)).mp last
        rw [if_pos (isLast.mpr last), Nat.mod_eq_of_lt below]
        unfold shortDigits
        split_ifs with zero
        · rw [zero]
          rfl
        · rw [Nat.digits_of_lt base v.toNat zero below]
          rfl
      · have positive : 0 < v.toNat := by
          apply Nat.pos_of_ne_zero
          intro zero
          rw [zero, Nat.zero_div] at last
          exact last rfl
        have smaller :
            (v / BitVec.ofNat 64 base).toNat < base ^ (room + 1) := by
          rw [quotient]
          rw [pow_succ, Nat.mul_comm] at fits
          exact Nat.div_lt_of_lt_mul fits
        rw [if_neg fun zero => last (isLast.mp zero), ih smaller, quotient]
        unfold shortDigits
        rw [if_neg last, if_neg positive.ne',
          Nat.digits_def' large positive, List.map_cons, List.reverse_cons,
          List.append_assoc]
        rfl

/-- The types whose values may be negative -/
def IntType.signed : IntType → Bool
  | .u32 => false
  | .i32 => true
  | .u64 => false
  | .i64 => true

/-- An argument is widened to 64 bits, and keeps its value. -/
theorem vaArg_value
    {type : IntType}
    {arg : Arg}
    {value : Int}
    (isValue : arg.value type = some value)
    (args : List Arg) :
    ∃ u,
      vaArg type (arg :: args) = .ok (u, args) ∧
        (if type.signed then u.toInt else u.toNat) = value := by
  cases arg with
  | word word =>
      cases type with
      | u32 =>
          cases isValue
          refine ⟨_, rfl, ?_⟩
          change ((word.setWidth 64).toNat : Int) = word.toNat
          rw [BitVec.toNat_setWidth_of_le (by decide)]
      | i32 =>
          cases isValue
          refine ⟨_, rfl, ?_⟩
          exact BitVec.toInt_signExtend_of_le (by decide)
      | u64 => cases isValue
      | i64 => cases isValue
  | long long =>
      cases type with
      | u32 => cases isValue
      | i32 => cases isValue
      | u64 =>
          cases isValue
          exact ⟨_, rfl, rfl⟩
      | i64 =>
          cases isValue
          exact ⟨_, rfl, rfl⟩
  | text bytes => cases type <;> cases isValue

/-- `_print_int` writes the numeral of the value. -/
theorem printInt_numeral
    {intCase : IntCase}
    (known : intCase ∈ intCases)
    (ctx : List UInt8)
    (u : BitVec 64) :
    ∃ text,
      printInt ctx u intCase.base intCase.sign = .ok (ctx ++ text) ∧
        Numeral intCase.base text
          (if intCase.type.signed then u.toInt else u.toNat) := by
  have facts :
      ∀ intCase ∈ intCases,
        1 < intCase.base ∧ intCase.base < 2 ^ 64 ∧
          2 ^ 64 ≤ intCase.base ^ 64 ∧
          intCase.sign = intCase.type.signed := by
    decide
  rcases facts intCase known with ⟨large, small, room, sign⟩
  have digits (v : BitVec 64) :
      writeDigits (BitVec.ofNat 64 intCase.base) 64 v [] =
        .ok ((shortDigits intCase.base v.toNat).map digit).reverse := by
    have fits : v.toNat < intCase.base ^ (63 + 1) :=
      v.isLt.trans_le room
    rw [writeDigits_eq large small fits, List.append_nil]
  have negative : u.slt 0 = decide (u.toInt < 0) := rfl
  unfold printInt
  dsimp only
  rw [← sign, negative]
  cases intCase.sign with
  | false =>
      rw [Bool.false_and, if_neg Bool.false_ne_true,
        if_neg Bool.false_ne_true, if_neg Bool.false_ne_true, digits]
      exact ⟨_, rfl, numeral_nonnegative large u.toNat⟩
  | true =>
      rw [Bool.true_and, if_pos rfl]
      by_cases below : u.toInt < 0
      · rw [decide_eq_true below, if_pos rfl, if_pos rfl, digits]
        refine ⟨ascii '-' ::
          ((shortDigits intCase.base (-u).toNat).map digit).reverse, ?_, ?_⟩
        · change Except.ok (ctx ++ [ascii '-'] ++ _) = _
          rw [List.append_assoc, List.singleton_append]
        · have image : (-u).toNat = (-u.toInt).toNat := by
            rw [BitVec.toNat_neg]
            rw [BitVec.toInt_eq_toNat_cond] at below ⊢
            split_ifs at below ⊢ <;> omega
          rw [image]
          exact numeral_negative large below
      · rw [decide_eq_false below, if_neg Bool.false_ne_true,
          if_neg Bool.false_ne_true, digits]
        refine ⟨_, rfl, ?_⟩
        have image : u.toInt = (u.toNat : Int) := by
          rw [BitVec.toInt_eq_toNat_cond] at below ⊢
          split_ifs at below ⊢ <;> omega
        rw [image]
        exact numeral_nonnegative large u.toNat

end Numerals

/-! ## Conversions which are found -/

section Cases

variable
    {ident text fmt : List UInt8}
    {intCase : IntCase}

/-- The comparison stops at the end of the text. -/
theorem strncmp_prefix
    (identified : 0 ∉ ident)
    (ends : 0 ∉ text)
    (behind : List UInt8) :
    ∃ order,
      strncmp (text ++ 0 :: behind) (ident ++ [0]) ident.length =
          .ok order ∧
        (order = 0 ↔ ident <+: text) := by
  induction ident generalizing text with
  | nil =>
      refine ⟨0, ?_, fun _ => List.nil_prefix, fun _ => rfl⟩
      cases text <;> rfl
  | cons c2 ident ih =>
      rw [List.mem_cons, not_or] at identified
      cases text with
      | nil =>
          refine ⟨((0 : UInt8).toNat : Int) - c2.toNat, ?_, ?_⟩
          · exact if_pos identified.1
          · constructor
            · intro zero
              have same : (0 : UInt8).toNat = c2.toNat := by omega
              exact absurd (UInt8.toNat_inj.mp same) identified.1
            · intro isPrefix
              exact absurd (List.prefix_nil.mp isPrefix)
                (List.cons_ne_nil c2 ident)
      | cons c1 text =>
          rw [List.mem_cons, not_or] at ends
          by_cases same : c1 = c2
          · subst same
            rcases ih identified.2 ends.2 with ⟨order, compared, isPrefix⟩
            refine ⟨order, ?_, ?_⟩
            · change (if c1 ≠ c1 then _ else _) = _
              rw [if_neg (not_not.mpr rfl), if_neg]
              · exact compared
              · rintro (zero | zero)
                · exact identified.1 zero.symm
                · exact identified.1 zero.symm
            · rw [isPrefix, List.cons_prefix_cons]
              exact (and_iff_right rfl).symm
          · refine ⟨(c1.toNat : Int) - c2.toNat, if_pos same, ?_⟩
            constructor
            · intro zero
              have equal : c1.toNat = c2.toNat := by omega
              exact absurd (UInt8.toNat_inj.mp equal) same
            · intro isPrefix
              exact absurd (List.cons_prefix_cons.mp isPrefix).1.symm same

/-- The `ident` of the case is at the start of the text. -/
def startsAt (text : List UInt8) (intCase : IntCase) : Bool :=
  intCase.ident.isPrefixOf text

theorem startsAt_iff :
    startsAt text intCase = true ↔ intCase.ident <+: text :=
  List.isPrefixOf_iff_prefix

theorem findCase_eq
    (ends : 0 ∉ fmt)
    {cases_ : List IntCase}
    (identified : ∀ intCase ∈ cases_, 0 ∉ intCase.ident) :
    findCase (fmt ++ [0]) cases_ =
      .ok (cases_.find? (startsAt fmt)) := by
  induction cases_ with
  | nil => rfl
  | cons intCase later ih =>
      rcases strncmp_prefix (identified intCase List.mem_cons_self) ends []
        with ⟨order, compared, isPrefix⟩
      have rest := ih fun other member =>
        identified other (List.mem_cons_of_mem _ member)
      unfold findCase
      rw [compared]
      change (if order = 0 then _ else _) = _
      by_cases found : intCase.ident <+: fmt
      · rw [if_pos (isPrefix.mpr found),
          List.find?_cons_of_pos (startsAt_iff.mpr found)]
        rfl
      · rw [if_neg fun zero => found (isPrefix.mp zero), rest,
          List.find?_cons_of_neg fun isHere =>
            found (startsAt_iff.mp isHere)]

theorem identified :
    ∀ intCase ∈ intCases, 0 ∉ intCase.ident := by
  decide

/-- No `ident` starts with another one. -/
theorem find_case
    (known : intCase ∈ intCases)
    (fmt : List UInt8) :
    intCases.find? (startsAt (intCase.ident ++ fmt)) = some intCase := by
  have apart :
      ∀ first ∈ intCases, ∀ second ∈ intCases,
        first.ident <+: second.ident → first = second := by
    decide
  have only :
      ∀ other ∈ intCases,
        other.ident <+: intCase.ident ++ fmt → other = intCase := by
    intro other member isPrefix
    rcases List.prefix_or_prefix_of_prefix isPrefix
      (List.prefix_append intCase.ident fmt) with first | second
    · exact apart other member intCase known first
    · exact (apart intCase known other member second).symm
  cases found : intCases.find? (startsAt (intCase.ident ++ fmt)) with
  | none =>
      have absent := List.find?_eq_none.mp found intCase known
      exact absurd (startsAt_iff.mpr (List.prefix_append _ _)) absent
  | some other =>
      have isPrefix := List.find?_some found
      have member := List.mem_of_find?_eq_some found
      rw [only other member (startsAt_iff.mp isPrefix)]

theorem findCase_unknown
    (isUnknown : Unknown fmt) :
    intCases.find? (startsAt fmt) = none := by
  rw [List.find?_eq_none]
  intro other member isPrefix
  exact isUnknown.cases_ other member (startsAt_iff.mp isPrefix)

end Cases

/-! ## The loop -/

section Loop

variable
    {fmt bytes : List UInt8}
    {pieces : List Piece}
    {args : List Arg}
    {intCase : IntCase}

theorem printText_eq
    (ends : 0 ∈ bytes)
    (ctx : List UInt8) :
    printText ctx bytes = .ok (ctx ++ bytes.takeWhile (· ≠ 0)) := by
  induction bytes generalizing ctx with
  | nil => exact absurd ends List.not_mem_nil
  | cons c bytes ih =>
      unfold printText
      by_cases zero : c = 0
      · rw [if_pos zero, List.takeWhile_cons_of_neg (by simp [zero]),
          List.append_nil]
      · have later : 0 ∈ bytes := by
          rcases List.mem_cons.mp ends with same | later
          · exact absurd same.symm zero
          · exact later
        rw [if_neg zero, ih later,
          List.takeWhile_cons_of_pos (by simp [zero]), List.append_assoc,
          List.singleton_append]

theorem convert_text
    (pos : List UInt8)
    {text : Option (List UInt8)}
    (ends : ∀ bytes, text = some bytes → 0 ∈ bytes)
    (args : List Arg)
    (ctx : List UInt8) :
    convert ⟨ascii 's' :: pos, .text text :: args, ctx⟩ =
      .ok (some
        ⟨pos, args,
          ctx ++ (text.getD nullText).takeWhile (· ≠ 0)⟩) := by
  have terminated : 0 ∈ text.getD nullText := by
    cases text with
    | none => decide
    | some bytes => exact ends bytes rfl
  unfold convert
  dsimp only
  rw [if_neg (by decide), if_neg (by decide), if_pos rfl,
    printText_eq terminated]
  rfl

/-- The letters after a `%` are none of the three which are tested first. -/
theorem convert_findCase
    {state : State}
    (tested :
      ∀ c rest, fmt = c :: rest →
        c ≠ ascii '%' ∧ c ≠ ascii 'c' ∧ c ≠ ascii 's')
    (isPos : state.pos = fmt ++ [0]) :
    convert state = do
      match ← findCase state.pos intCases with
      | none => return none
      | some intCase =>
          let (u, args) ← vaArg intCase.type state.args
          let ctx ← printInt state.ctx u intCase.base intCase.sign
          return some ⟨state.pos.drop intCase.ident.length, args, ctx⟩ := by
  unfold convert
  cases fmt with
  | nil =>
      rw [isPos]
      dsimp only [List.nil_append]
      rw [if_neg (by decide), if_neg (by decide), if_neg (by decide)]
  | cons c rest =>
      rcases tested c rest rfl with ⟨percent, char, text⟩
      rw [isPos]
      dsimp only [List.cons_append]
      rw [if_neg percent, if_neg char, if_neg text]

theorem convert_int
    (known : intCase ∈ intCases)
    (ends : 0 ∉ fmt)
    {arg : Arg}
    {value : Int}
    (isValue : arg.value intCase.type = some value)
    (args : List Arg)
    (ctx : List UInt8) :
    ∃ text,
      convert ⟨intCase.ident ++ fmt ++ [0], arg :: args, ctx⟩ =
          .ok (some ⟨fmt ++ [0], args, ctx ++ text⟩) ∧
        Numeral intCase.base text value := by
  have letters :
      ∀ intCase ∈ intCases,
        ∀ c ∈ intCase.ident.head?,
          c ≠ ascii '%' ∧ c ≠ ascii 'c' ∧ c ≠ ascii 's' := by
    decide +kernel
  have some_ : ∀ intCase ∈ intCases, intCase.ident ≠ [] := by
    decide
  have tested :
      ∀ c rest, intCase.ident ++ fmt = c :: rest →
        c ≠ ascii '%' ∧ c ≠ ascii 'c' ∧ c ≠ ascii 's' := by
    intro c rest same
    apply letters intCase known
    cases split : intCase.ident with
    | nil => exact absurd split (some_ intCase known)
    | cons first others =>
        rw [split] at same
        cases same
        rfl
  have noNul : 0 ∉ intCase.ident ++ fmt := by
    rw [List.mem_append, not_or]
    exact ⟨identified intCase known, ends⟩
  rcases vaArg_value isValue args with ⟨u, taken, isInt⟩
  rcases printInt_numeral known ctx u with ⟨text, printed, numeral⟩
  rw [isInt] at numeral
  refine ⟨text, ?_, numeral⟩
  rw [convert_findCase tested rfl]
  dsimp only
  rw [findCase_eq noNul identified, find_case known]
  change (vaArg intCase.type (arg :: args) >>= _) = _
  rw [taken]
  change (printInt ctx u intCase.base intCase.sign >>= _) = _
  rw [printed, List.append_assoc]
  change Except.ok (some (State.mk
    ((intCase.ident ++ (fmt ++ [0])).drop intCase.ident.length) args
      (ctx ++ text))) = _
  rw [List.drop_left]

theorem convert_unknown
    (isUnknown : Unknown fmt)
    (ends : 0 ∉ fmt)
    (args : List Arg)
    (ctx : List UInt8) :
    convert ⟨fmt ++ [0], args, ctx⟩ = .ok none := by
  rw [convert_findCase isUnknown.letters rfl]
  dsimp only
  rw [findCase_eq ends identified, findCase_unknown isUnknown]
  rfl

/-- A round which starts with a `%` -/
theorem vformatLoop_percent
    (rounds : Nat)
    (pos : List UInt8)
    (args : List Arg)
    (ctx : List UInt8)
    {converted : Option State}
    (called : convert ⟨pos, args, ctx⟩ = .ok converted) :
    vformatLoop (rounds + 1) ⟨ascii '%' :: pos, args, ctx⟩ =
      vformatLoop rounds
        (converted.getD ⟨pos, args, ctx ++ [ascii '%']⟩) := by
  rw [vformatLoop]
  dsimp only
  rw [if_neg (by decide), if_pos rfl, called]
  cases converted with
  | none => rfl
  | some state => rfl

/-- The loop renders the pieces of what is left of the format. -/
theorem vformatLoop_renders
    (parses : Parses fmt pieces)
    (noNul : 0 ∉ fmt)
    (fits : Fits pieces args)
    {rounds : Nat}
    (enough : fmt.length < rounds)
    (ctx : List UInt8) :
    ∃ out,
      vformatLoop rounds ⟨fmt ++ [0], args, ctx⟩ = .ok (ctx ++ out) ∧
        Renders pieces args out := by
  induction parses generalizing args rounds ctx with
  | nil =>
      cases rounds with
      | zero => exact absurd enough (Nat.not_lt_zero _)
      | succ rounds =>
          refine ⟨[], ?_, rfl⟩
          rw [List.append_nil]
          rfl
  | @letter fmt pieces c plain later ih =>
      rw [List.mem_cons, not_or] at noNul
      cases rounds with
      | zero => exact absurd enough (Nat.not_lt_zero _)
      | succ rounds =>
          rcases ih noNul.2 fits (Nat.lt_of_succ_lt_succ enough)
            (ctx ++ [c]) with ⟨out, run, renders⟩
          refine ⟨c :: out, ?_, out, rfl, renders⟩
          rw [List.cons_append, vformatLoop]
          dsimp only
          rw [if_neg (Ne.symm noNul.1), if_neg plain, run, List.append_assoc]
          rfl
  | @percent fmt pieces later ih =>
      simp only [List.mem_cons, not_or] at noNul
      simp only [List.length_cons] at enough
      cases rounds with
      | zero => exact absurd enough (Nat.not_lt_zero _)
      | succ rounds =>
          have fewer : fmt.length < rounds := by omega
          rcases ih noNul.2.2 fits fewer (ctx ++ [ascii '%']) with
            ⟨out, run, renders⟩
          have converted :
              convert ⟨ascii '%' :: (fmt ++ [0]), args, ctx⟩ =
                .ok (some ⟨fmt ++ [0], args, ctx ++ [ascii '%']⟩) :=
            rfl
          refine ⟨ascii '%' :: out, ?_, out, rfl, renders⟩
          rw [List.cons_append, List.cons_append,
            vformatLoop_percent rounds _ args ctx converted,
            Option.getD_some, run, List.append_assoc]
          rfl
  | @char fmt pieces later ih =>
      simp only [List.mem_cons, not_or] at noNul
      simp only [List.length_cons] at enough
      cases rounds with
      | zero => exact absurd enough (Nat.not_lt_zero _)
      | succ rounds =>
          match args, fits with
          | .word value :: args, fits =>
              have fewer : fmt.length < rounds := by omega
              rcases ih noNul.2.2 fits fewer
                (ctx ++ [⟨value.setWidth 8⟩]) with ⟨out, run, renders⟩
              have converted :
                  convert ⟨ascii 'c' :: (fmt ++ [0]), .word value :: args,
                      ctx⟩ =
                    .ok (some
                      ⟨fmt ++ [0], args, ctx ++ [⟨value.setWidth 8⟩]⟩) :=
                rfl
              refine ⟨⟨value.setWidth 8⟩ :: out, ?_, out, rfl, renders⟩
              rw [List.cons_append, List.cons_append,
                vformatLoop_percent rounds _ _ ctx converted,
                Option.getD_some, run, List.append_assoc]
              rfl
  | @text fmt pieces later ih =>
      simp only [List.mem_cons, not_or] at noNul
      simp only [List.length_cons] at enough
      cases rounds with
      | zero => exact absurd enough (Nat.not_lt_zero _)
      | succ rounds =>
          match args, fits with
          | .text bytes :: args, ⟨ends, fits⟩ =>
              have fewer : fmt.length < rounds := by omega
              rcases ih noNul.2.2 fits fewer
                (ctx ++ (bytes.getD nullText).takeWhile (· ≠ 0)) with
                ⟨out, run, renders⟩
              refine ⟨_, ?_, out, rfl, renders⟩
              rw [List.cons_append, List.cons_append,
                vformatLoop_percent rounds _ _ ctx
                  (convert_text (fmt ++ [0]) ends args ctx),
                Option.getD_some, run, List.append_assoc]
  | @int fmt pieces intCase known later ih =>
      rw [List.mem_cons, List.mem_append, not_or, not_or] at noNul
      simp only [List.length_cons, List.length_append] at enough
      cases rounds with
      | zero => exact absurd enough (Nat.not_lt_zero _)
      | succ rounds =>
          match args, fits with
          | arg :: args, ⟨typed, fits⟩ =>
              rcases Option.ne_none_iff_exists'.mp typed with
                ⟨value, isValue⟩
              rcases convert_int known noNul.2.2 isValue args ctx with
                ⟨text, converted, numeral⟩
              have fewer : fmt.length < rounds := by omega
              rcases ih noNul.2.2 fits fewer (ctx ++ text) with
                ⟨out, run, renders⟩
              refine ⟨text ++ out, ?_, value, text, out, isValue, numeral,
                rfl, renders⟩
              rw [List.cons_append, vformatLoop_percent rounds _ _ ctx
                converted, Option.getD_some, run, List.append_assoc]
  | @unknown fmt pieces isUnknown later ih =>
      rw [List.mem_cons, not_or] at noNul
      cases rounds with
      | zero => exact absurd enough (Nat.not_lt_zero _)
      | succ rounds =>
          rcases ih noNul.2 fits (Nat.lt_of_succ_lt_succ enough)
            (ctx ++ [ascii '%']) with ⟨out, run, renders⟩
          refine ⟨ascii '%' :: out, ?_, out, rfl, renders⟩
          rw [List.cons_append, vformatLoop_percent rounds _ args ctx
            (convert_unknown isUnknown noNul.2 args ctx)]
          rw [Option.getD_none, run, List.append_assoc]
          rfl

end Loop

/-- Every format can be read. -/
theorem exists_parses (fmt : List UInt8) : ∃ pieces, Parses fmt pieces := by
  induction length : fmt.length using Nat.strong_induction_on
    generalizing fmt with
  | _ size ih =>
      subst length
      cases fmt with
      | nil => exact ⟨[], .nil⟩
      | cons c rest =>
          have shorter (fmt : List UInt8) (less : fmt.length ≤ rest.length) :
              ∃ pieces, Parses fmt pieces :=
            ih fmt.length (Nat.lt_succ_of_le less) fmt rfl
          by_cases percent : c = ascii '%'
          · subst percent
            by_cases known : ∃ intCase ∈ intCases, intCase.ident <+: rest
            · rcases known with ⟨intCase, known, later, rfl⟩
              rcases shorter later (by simp) with ⟨pieces, parses⟩
              exact ⟨_, .int intCase known parses⟩
            · by_cases tested :
                  ∀ c later, rest = c :: later →
                    c ≠ ascii '%' ∧ c ≠ ascii 'c' ∧ c ≠ ascii 's'
              · rcases shorter rest le_rfl with ⟨pieces, parses⟩
                refine ⟨_, .unknown ⟨tested, ?_⟩ parses⟩
                intro intCase member isPrefix
                exact known ⟨intCase, member, isPrefix⟩
              · push Not at tested
                rcases tested with ⟨c, later, rfl, isLetter⟩
                rcases shorter later (by simp) with ⟨pieces, parses⟩
                by_cases first : c = ascii '%'
                · subst first
                  exact ⟨_, .percent parses⟩
                · by_cases second : c = ascii 'c'
                  · subst second
                    exact ⟨_, .char parses⟩
                  · have third := isLetter first second
                    subst third
                    exact ⟨_, .text parses⟩
          · rcases shorter rest le_rfl with ⟨pieces, parses⟩
            exact ⟨_, .letter c percent parses⟩

/--
A format without a 0 inside is read in some way, and with arguments which fit
`vformat` ends without a fault and writes what the pieces are rendered to.
-/
theorem vformat_renders
    {fmt : List UInt8}
    (noNul : 0 ∉ fmt) :
    (∃ pieces, Parses fmt pieces) ∧
      ∀ pieces args,
        Parses fmt pieces → Fits pieces args →
          ∃ out,
            vformat (fmt ++ [0]) args = .ok out ∧
              Renders pieces args out := by
  refine ⟨exists_parses fmt, ?_⟩
  intro pieces args parses fits
  have enough : fmt.length < (fmt ++ [0]).length := by
    rw [List.length_append]
    exact Nat.lt_succ_self _
  exact vformatLoop_renders parses noNul fits enough []

/-- The most negative `int` between letters, and a `%` at the end. -/
theorem vformat_renders_minimum :
    ∃ out,
      vformat (['a', '%', 'd', '%'].map ascii ++ [0]) [.word 0x80000000] =
          .ok out ∧
        out =
          ['a', '-', '2', '1', '4', '7', '4', '8', '3', '6', '4', '8',
            '%'].map ascii ∧
        Renders
          [.letter (ascii 'a'),
            .int ⟨['d'].map ascii, .i32, 10, true⟩, .letter (ascii '%')]
          [.word 0x80000000] out := by
  have parses :
      Parses (['a', '%', 'd', '%'].map ascii)
        [.letter (ascii 'a'),
          .int ⟨['d'].map ascii, .i32, 10, true⟩, .letter (ascii '%')] := by
    refine .letter (ascii 'a') (by decide)
      (.int ⟨['d'].map ascii, .i32, 10, true⟩ (by decide)
        (.unknown ⟨?_, ?_⟩ .nil))
    · intro c rest impossible
      cases impossible
    · decide
  rcases (vformat_renders (by decide)).2 _ [.word 0x80000000] parses
      ⟨Option.some_ne_none _, trivial⟩ with ⟨out, run, renders⟩
  have computed :
      vformat (['a', '%', 'd', '%'].map ascii ++ [0]) [.word 0x80000000] =
        .ok
          (['a', '-', '2', '1', '4', '7', '4', '8', '3', '6', '4', '8',
            '%'].map ascii) := by
    decide +kernel
  refine ⟨out, run, ?_, renders⟩
  rw [computed] at run
  exact (Except.ok.inj run).symm

end FudanOS.Common.Format
