import FudanOS.Kernel.Copyout
import FudanOS.Library.LittleEndian
import Mathlib.Data.List.Forall2

/-!
# The initial stack of a program

The part of `execve` of `kernel/exec.c` which builds the stack: the strings of
`argv` and `envp` are pushed below `USERTOP`, and the two arrays of pointers
are filled while the strings are found again from below.  The strings are read
before the new page directory is written, as lists of bytes.
-/

namespace FudanOS.Kernel.ExecStack

open FudanOS.Aarch64.Mmu
open FudanOS.Library.LittleEndian
open FudanOS.Library.Views
open FudanOS.Kernel.UserMemory
open FudanOS.Kernel.Copyout

/-! ## The functions -/

/-- `MAXARG` -/
def maxArg : Nat := 10

/-- A string of C, without the `NUL` at its end. -/
structure CString where
  bytes : List UInt8
  noNul : 0 ∉ bytes

/-- The string as it stands in memory. -/
def CString.terminated (string : CString) : List UInt8 :=
  string.bytes ++ [0]

/-- Why the code does not go on. -/
inductive Halt where
  /-- `kalloc_page` has no page. -/
  | noPage
  /-- An address is accessed which is not mapped. -/
  | fault
  /-- The scan for a `NUL` does not end. -/
  | spins
  | assertion
  deriving DecidableEq

def copyoutOr (memory : Memory) (va : Word) (p : Option (Nat → UInt8))
    (len : Word) : Except Halt Memory :=
  match copyout memory va p len with
  | .error _ => .error .noPage
  -- What `copyout` returns is not looked at.
  | .ok (_, memory) => .ok memory

/-- The loops which push the strings of `argv` and `envp` -/
def pushStrings :
    List CString → Nat → Memory → Word → Except Halt (Nat × Memory × Word)
  | [], count, memory, sp => .ok (count, memory, sp)
  | string :: rest, count, memory, sp =>
      if count < maxArg then do
        let len := BitVec.ofNat 64 (string.bytes.length + 1)
        let sp := sp - len
        let memory ←
          copyoutOr memory sp (some (contents string.terminated)) len
        pushStrings rest (count + 1) memory sp
      else
        .ok (count, memory, sp)

/-- `for (; *sp; sp++);` -/
def scan (memory : Memory) : Nat → Word → Except Halt Word
  | 0, _ => .error .spins
  | fuel + 1, sp =>
      match view memory sp.toNat with
      | none => .error .fault
      | some byte =>
          if byte ≠ 0 then scan memory fuel (sp + 1) else .ok sp

/-- The bytes of a word in memory. -/
def wordBytes (word : Word) : List UInt8 :=
  (List.range 8).map (byte word.toNat)

/-- `*(u64 *)address = word` -/
def storeWord (memory : Memory) (address word : Word) :
    Except Halt Memory :=
  match storeBytes memory address.toNat (wordBytes word) with
  | none => .error .fault
  | some memory => .ok memory

/-- The loops which fill `newenvp` and `newargv`, from the last entry down -/
def setPointers (array : Word) :
    Nat → Memory → Word → Except Halt (Memory × Word)
  | 0, memory, sp => .ok (memory, sp)
  | i + 1, memory, sp => do
      let memory ← storeWord memory (array + BitVec.ofNat 64 (i * 8)) sp
      let sp ← scan memory userTop.toNat sp
      setPointers array i memory (sp + 1)

/-- `argv` and `envp` are on the stack, and `sp` is `newsp`. -/
def pushArguments (memory : Memory) (argv envp : Option (List CString)) :
    Except Halt (Memory × Word) := do
  let sp := userTop
  let (argc, memory, sp) ← pushStrings (argv.getD []) 0 memory sp
  let (envc, memory, sp) ← pushStrings (envp.getD []) 0 memory sp
  let newsp := (sp - BitVec.ofNat 64 ((envc + argc + 4) * 8)) / 16 * 16
  let memory ← copyoutOr memory newsp none (sp - newsp)
  let newargv := newsp + 8
  let newenvp := newargv + BitVec.ofNat 64 ((argc + 1) * 8)
  let (memory, sp) ← setPointers newenvp envc memory sp
  let (memory, _) ← setPointers newargv argc memory sp
  let memory ← storeWord memory newsp (BitVec.ofNat 64 argc)
  return (memory, newsp)

/-- `10 * PAGE_SIZE` -/
def stackUnit : Word := 40960

/-- The end of the stack is mapped, a multiple of ten pages below `USERTOP`. -/
def mapStack (memory : Memory) (sp : Word) :
    Except Halt (Memory × Word) := do
  let stksz := (userTop - sp + stackUnit - 1) / stackUnit * stackUnit
  let memory ←
    copyoutOr memory (userTop - stksz) none (stksz - (userTop - sp))
  if userTop - stksz < sp then
    return (memory, stksz)
  else
    throw .assertion

/-- The stack as `execve` leaves it, with `sp` and `stksz`. -/
def setUpStack (memory : Memory) (argv envp : Option (List CString)) :
    Except Halt (Memory × Word × Word) := do
  let (memory, sp) ← pushArguments memory argv envp
  let (memory, stksz) ← mapStack memory sp
  return (memory, sp, stksz)

/-! ## What the stack says -/

/-- The bytes which the strings take. -/
def sizeOf (strings : List CString) : Nat :=
  (strings.map fun string => string.bytes.length + 1).sum

/-- The strings as they are pushed, the last one first. -/
def stacked (strings : List CString) (above : List UInt8) : List UInt8 :=
  strings.foldl (fun above string => string.terminated ++ above) above

/-- The strings which are pushed. -/
def taken (strings : Option (List CString)) : List CString :=
  (strings.getD []).take maxArg

/-- A pointer to the string, which lies in `[low, USERTOP)`. -/
structure IsString
    (bytes : View UInt8)
    (low : Nat)
    (pointer : Word)
    (string : CString) : Prop where
  above : low ≤ pointer.toNat
  below : pointer.toNat + string.terminated.length ≤ userTop.toNat
  lies : Lies bytes pointer.toNat string.terminated

/--
The stack at `sp` decodes to the arguments: their number, the pointers to them
and a null word, and the same for the environment.  The strings are above the
words.
-/
structure Decodes
    (bytes : View UInt8)
    (sp : Nat)
    (argv envp : List CString) : Prop where
  aligned : sp % 16 = 0
  pointers :
    ∃ arguments environment : List Word,
      Lies bytes sp
          ((BitVec.ofNat 64 argv.length ::
            (arguments ++ 0 :: (environment ++ [0]))).flatMap wordBytes) ∧
        List.Forall₂
          (IsString bytes (sp + 8 * (argv.length + envp.length + 3)))
          arguments argv ∧
        List.Forall₂
          (IsString bytes (sp + 8 * (argv.length + envp.length + 3)))
          environment envp

/-! ## Strings on the stack -/

section Sizes

variable {string : CString} {strings : List CString} {above : List UInt8}

@[simp]
theorem length_terminated (string : CString) :
    string.terminated.length = string.bytes.length + 1 := by
  unfold CString.terminated
  rw [List.length_append]
  rfl

@[simp]
theorem sizeOf_cons :
    sizeOf (string :: strings) =
      string.bytes.length + 1 + sizeOf strings := by
  rfl

@[simp]
theorem sizeOf_append_singleton :
    sizeOf (strings ++ [string]) =
      sizeOf strings + (string.bytes.length + 1) := by
  unfold sizeOf
  rw [List.map_append, List.sum_append]
  rfl

@[simp]
theorem stacked_append_singleton :
    stacked (strings ++ [string]) above =
      string.terminated ++ stacked strings above := by
  unfold stacked
  rw [List.foldl_append]
  rfl

theorem length_stacked :
    (stacked strings above).length = sizeOf strings + above.length := by
  induction strings using List.reverseRecOn with
  | nil => exact (Nat.zero_add _).symm
  | append_singleton strings string ih =>
      rw [stacked_append_singleton, List.length_append, ih,
        length_terminated, sizeOf_append_singleton]
      omega

end Sizes

section Words

@[simp]
theorem length_wordBytes (word : Word) : (wordBytes word).length = 8 := by
  unfold wordBytes
  rw [List.length_map, List.length_range]

theorem length_words (words : List Word) :
    (words.flatMap wordBytes).length = 8 * words.length := by
  induction words with
  | nil => rfl
  | cons word words ih =>
      rw [List.flatMap_cons, List.length_append, ih, length_wordBytes,
        List.length_cons]
      omega

end Words

section Steps

variable
    {memory : Memory}
    {va len sp : Word}
    {p : Option (Nat → UInt8)}

theorem copyoutOr_writes
    (distinct : Distinct memory)
    (inside : va.toNat + len.toNat ≤ userTop.toNat)
    (enough : 4 * pagesOf va.toNat len.toNat ≤ memory.table.supply.length) :
    ∃ after,
      copyoutOr memory va p len = .ok after ∧ Distinct after ∧
        Writes memory va.toNat len.toNat (source p) after ∧
        memory.table.supply.length ≤
          after.table.supply.length + 4 * pagesOf va.toNat len.toNat := by
  rcases (copyout_writes memory distinct va p len).1 inside enough with
    ⟨after, ran, result⟩
  refine ⟨after, ?_, result⟩
  unfold copyoutOr
  rw [ran]

theorem pagesOf_le (start length : Nat) :
    pagesOf start length ≤ length / 4096 + 2 := by
  unfold pagesOf
  split_ifs <;> omega

/-- The scan ends at the `NUL` of a string. -/
theorem scan_eq
    {bytes : List UInt8}
    {fuel : Nat}
    (noNul : 0 ∉ bytes)
    (lies : Lies (view memory) sp.toNat (bytes ++ [0]))
    (fits : sp.toNat + bytes.length < 2 ^ 64)
    (rounds : bytes.length < fuel) :
    scan memory fuel sp = .ok (sp + BitVec.ofNat 64 bytes.length) := by
  induction bytes generalizing sp fuel with
  | nil =>
      rcases Nat.exists_eq_succ_of_ne_zero (Nat.ne_of_gt rounds) with
        ⟨fuel, rfl⟩
      have first := (lies_cons.mp lies).1
      unfold scan
      rw [first]
      exact congrArg Except.ok (BitVec.add_zero sp).symm
  | cons byte bytes ih =>
      rcases Nat.exists_eq_succ_of_ne_zero
        (Nat.ne_of_gt (Nat.zero_lt_of_lt rounds)) with ⟨fuel, rfl⟩
      rcases lies_cons.mp lies with ⟨first, rest⟩
      rw [List.length_cons] at fits rounds
      have next : (sp + 1).toNat = sp.toNat + 1 := by
        rw [BitVec.toNat_add]
        change (sp.toNat + 1) % 2 ^ 64 = _
        omega
      rw [← next] at rest
      rw [List.mem_cons, not_or] at noNul
      unfold scan
      rw [first]
      dsimp only
      rw [if_pos (Ne.symm noNul.1),
        ih noNul.2 rest (by omega) (by omega), List.length_cons]
      congr 1
      rw [BitVec.add_assoc, Nat.add_comm bytes.length, BitVec.ofNat_add]
      rfl

theorem storeWord_writes
    {address : Word}
    (word : Word)
    (distinct : Distinct memory)
    (mapped :
      ∀ other, InRange address.toNat 8 other → Mapped memory other) :
    ∃ after,
      storeWord memory address word = .ok after ∧ Distinct after ∧
        after.table = memory.table ∧ Keeps memory address.toNat 8 after ∧
        Lies (view after) address.toNat (wordBytes word) := by
  rcases storeBytes_writes (wordBytes word) distinct (by
      rw [length_wordBytes]
      exact mapped) with
    ⟨after, ran, distinct, table, writes⟩
  refine ⟨after, ?_, distinct, table, ?_, writes.lies⟩
  · unfold storeWord
    rw [ran]
  · rw [length_wordBytes] at writes
    exact writes.keeps

end Steps

/-! ## The strings are pushed -/

/-- The strings stand from `sp` on, above what was there. -/
structure Pushes
    (memory : Memory)
    (strings : List CString)
    (top : Nat)
    (above : List UInt8)
    (after : Memory)
    (sp : Word) : Prop where
  distinct : Distinct after
  address : sp.toNat + sizeOf strings = top
  lies : Lies (view after) sp.toNat (stacked strings above)
  keeps : Keeps memory sp.toNat (sizeOf strings) after
  spent :
    memory.table.supply.length ≤
      after.table.supply.length +
        4 * (sizeOf strings / 4096 + 2 * strings.length)

theorem pushStrings_pushes
    (strings : List CString)
    {memory : Memory}
    {count : Nat}
    {sp : Word}
    {above : List UInt8}
    (distinct : Distinct memory)
    (few : count + strings.length ≤ maxArg)
    (lies : Lies (view memory) sp.toNat above)
    (below : sp.toNat ≤ userTop.toNat)
    (room : sizeOf strings ≤ sp.toNat)
    (enough :
      4 * (sizeOf strings / 4096 + 2 * strings.length) ≤
        memory.table.supply.length) :
    ∃ after next,
      pushStrings strings count memory sp =
          .ok (count + strings.length, after, next) ∧
        Pushes memory strings sp.toNat above after next := by
  have top : userTop.toNat = 2 ^ 48 := rfl
  induction strings generalizing memory count sp above with
  | nil =>
      refine ⟨memory, sp, rfl, distinct, rfl, lies, Keeps.refl _ _ _, ?_⟩
      exact Nat.le_add_right _ _
  | cons string strings ih =>
      rw [List.length_cons] at few enough
      rw [sizeOf_cons] at room enough
      generalize size : string.bytes.length + 1 = length at room enough
      have len : (BitVec.ofNat 64 length).toNat = length := by
        rw [BitVec.toNat_ofNat]
        omega
      have next : (sp - BitVec.ofNat 64 length).toNat = sp.toNat - length := by
        rw [BitVec.toNat_sub_of_le, len]
        rw [BitVec.le_def, len]
        omega
      have pages := pagesOf_le (sp.toNat - length) length
      rcases @copyoutOr_writes memory (sp - BitVec.ofNat 64 length)
        (BitVec.ofNat 64 length) (some (contents string.terminated))
        distinct
        (by
          rw [next, len]
          omega)
        (by
          rw [next, len]
          omega) with
        ⟨middle, copied, distinct, writes, spent⟩
      rw [len] at writes spent
      rw [next] at spent
      have whole : string.terminated.length = length := by
        rw [length_terminated, size]
      have pushed :
          Lies (view middle) (sp - BitVec.ofNat 64 length).toNat
            (string.terminated ++ above) := by
        rw [lies_append]
        refine ⟨?_, writes.keeps.lies ?_ (Or.inr (by rw [whole]))⟩
        · apply Writes.lies
          rw [whole]
          exact writes
        · rw [whole, next, Nat.sub_add_cancel (by omega)]
          exact lies
      rcases
        @ih middle (count + 1) (sp - BitVec.ofNat 64 length)
          (string.terminated ++ above) distinct (by omega) pushed
          (by
            rw [next]
            omega)
          (by
            rw [next]
            omega)
          (by omega) with
        ⟨after, bottom, ran, pushes⟩
      have address := pushes.address
      rw [next] at address
      have spentLater := pushes.spent
      refine ⟨after, bottom, ?_, pushes.distinct, ?_, pushes.lies, ?_, ?_⟩
      · unfold pushStrings
        rw [if_pos (by omega), size]
        dsimp only
        rw [copied, List.length_cons, Nat.add_comm strings.length,
          ← Nat.add_assoc]
        exact ran
      · rw [sizeOf_cons, size]
        omega
      · rw [sizeOf_cons, size]
        apply (writes.keeps.mono _ _).trans (pushes.keeps.mono _ _) <;> omega
      · rw [sizeOf_cons, size, List.length_cons]
        omega

/-! ## The pointers are set -/

/-- The pointers to the strings from `sp` on stand in the array. -/
structure Points
    (memory : Memory)
    (array sp : Word)
    (strings : List CString)
    (after : Memory)
    (pointers : List Word) : Prop where
  distinct : Distinct after
  table : after.table = memory.table
  keeps : Keeps memory array.toNat (8 * strings.length) after
  lies : Lies (view after) array.toNat (pointers.flatMap wordBytes)
  strings :
    List.Forall₂ (IsString (view after) sp.toNat) pointers strings

theorem setPointers_points
    (strings : List CString)
    {memory : Memory}
    {array sp : Word}
    {above : List UInt8}
    (distinct : Distinct memory)
    (lies : Lies (view memory) sp.toNat (stacked strings above))
    (below :
      sp.toNat + (stacked strings above).length ≤ userTop.toNat)
    (apart : array.toNat + 8 * strings.length ≤ sp.toNat)
    (mapped :
      ∀ address, InRange array.toNat (8 * strings.length) address →
        Mapped memory address) :
    ∃ after next pointers,
      setPointers array strings.length memory sp = .ok (after, next) ∧
        next.toNat = sp.toNat + sizeOf strings ∧
        Points memory array sp strings after pointers := by
  have top : userTop.toNat = 2 ^ 48 := rfl
  induction strings using List.reverseRecOn generalizing memory sp above with
  | nil =>
      exact ⟨memory, sp, [], rfl, rfl, distinct, rfl, Keeps.refl _ _ _,
        lies_nil _ _, .nil⟩
  | append_singleton strings string ih =>
      rw [stacked_append_singleton] at lies below
      rw [List.length_append, List.length_singleton] at apart mapped
      rw [List.length_append, length_terminated] at below
      have place :
          (array + BitVec.ofNat 64 (strings.length * 8)).toNat =
            array.toNat + 8 * strings.length := by
        rw [BitVec.toNat_add, BitVec.toNat_ofNat]
        omega
      rcases @storeWord_writes memory
        (array + BitVec.ofNat 64 (strings.length * 8)) sp distinct (by
          intro other inside
          rw [place] at inside
          apply mapped
          unfold InRange at inside ⊢
          omega) with
        ⟨middle, stored, distinct, table, keeps, word⟩
      rw [place] at keeps word
      have there := keeps.lies lies (Or.inr (by omega))
      rw [lies_append] at there
      have scanned :=
        @scan_eq middle sp string.bytes userTop.toNat string.noNul there.1
          (by omega) (by omega)
      have start :
          (sp + BitVec.ofNat 64 string.bytes.length + 1).toNat =
            sp.toNat + (string.bytes.length + 1) := by
        rw [BitVec.toNat_add, BitVec.toNat_add, BitVec.toNat_ofNat]
        change ((sp.toNat + string.bytes.length % 2 ^ 64) % 2 ^ 64 + 1) %
          2 ^ 64 = _
        omega
      rw [← length_terminated] at start
      have higher := there.2
      rw [← start] at higher
      rcases
        @ih middle (sp + BitVec.ofNat 64 string.bytes.length + 1) above
          distinct higher
          (by
            rw [start, length_terminated]
            omega)
          (by
            rw [start]
            omega)
          (by
            intro address inside
            apply keeps.mapped
            apply mapped
            unfold InRange at inside ⊢
            omega) with
        ⟨after, next, pointers, ran, finish, points⟩
      have count := points.strings.length_eq
      refine ⟨after, next, pointers ++ [sp], ?_, ?_, points.distinct,
        points.table.trans table, ?_, ?_, ?_⟩
      · rw [List.length_append, List.length_singleton]
        unfold setPointers
        rw [stored]
        change (scan middle userTop.toNat sp >>= _) = _
        rw [scanned]
        exact ran
      · rw [finish, start, sizeOf_append_singleton, length_terminated]
        omega
      · rw [List.length_append, List.length_singleton]
        apply (keeps.mono _ _).trans (points.keeps.mono _ _) <;> omega
      · rw [List.flatMap_append, lies_append]
        refine ⟨points.lies, ?_⟩
        rw [length_words, count, List.flatMap_singleton]
        apply points.keeps.lies word
        exact Or.inr (Nat.le_refl _)
      · apply List.rel_append
        · apply points.strings.imp
          intro pointer string isString
          refine ⟨?_, isString.below, isString.lies⟩
          exact le_trans (by omega) isString.above
        · refine .cons ⟨Nat.le_refl _, ?_, ?_⟩ .nil
          · rw [length_terminated]
            omega
          · exact points.keeps.lies there.1 (Or.inr (by omega))

/-! ## The arguments are on the stack -/

/-- At most `MAXARG` strings are looked at. -/
theorem pushStrings_take
    (strings : List CString)
    (count : Nat)
    (memory : Memory)
    (sp : Word) :
    pushStrings strings count memory sp =
      pushStrings (strings.take (maxArg - count)) count memory sp := by
  induction strings generalizing count memory sp with
  | nil => rw [List.take_nil]
  | cons string strings ih =>
      by_cases few : count < maxArg
      · rw [← Nat.succ_pred_eq_of_pos (Nat.sub_pos_of_lt few),
          List.take_succ_cons]
        unfold pushStrings
        rw [if_pos few, if_pos few]
        dsimp only
        congr 1
        funext copied
        exact ih (count + 1) copied _
      · rw [Nat.sub_eq_zero_of_le (Nat.le_of_not_lt few), List.take_zero]
        unfold pushStrings
        rw [if_neg few]

theorem length_taken_le (strings : Option (List CString)) :
    (taken strings).length ≤ maxArg :=
  List.length_take_le _ _

/-- The bytes of the strings and of the words, as the code counts them. -/
def blockSize (argv envp : Option (List CString)) : Nat :=
  sizeOf (taken argv) + sizeOf (taken envp) +
    8 * ((taken argv).length + (taken envp).length + 4)

/-- `newsp` -/
def stackPointer (argv envp : Option (List CString)) : Nat :=
  (userTop.toNat - blockSize argv envp) / 16 * 16

/-- What `execve` has made when `sp` is `newsp`. -/
structure Builds
    (memory : Memory)
    (argv envp : Option (List CString))
    (after : Memory)
    (sp : Word) : Prop where
  distinct : Distinct after
  address : sp.toNat = stackPointer argv envp
  decodes : Decodes (view after) sp.toNat (taken argv) (taken envp)
  keeps : Keeps memory sp.toNat (userTop.toNat - sp.toNat) after
  mapped :
    ∀ other, InRange sp.toNat (userTop.toNat - sp.toNat) other →
      Mapped after other
  spent :
    memory.table.supply.length ≤
      after.table.supply.length + 4 * (blockSize argv envp / 4096 + 42)

/-- The pieces of the block, one above the other. -/
theorem lies_block
    {bytes : View UInt8}
    {sp argc : Word}
    {arguments environment : List Word}
    (count : Lies bytes sp.toNat (wordBytes argc))
    (first : Lies bytes (sp.toNat + 8) (arguments.flatMap wordBytes))
    (stop :
      Lies bytes (sp.toNat + 8 + 8 * arguments.length) (wordBytes 0))
    (second :
      Lies bytes (sp.toNat + 16 + 8 * arguments.length)
        (environment.flatMap wordBytes))
    (last :
      Lies bytes
        (sp.toNat + 16 + 8 * arguments.length + 8 * environment.length)
        (wordBytes 0)) :
    Lies bytes sp.toNat
      ((argc :: (arguments ++ 0 :: (environment ++ [0]))).flatMap
        wordBytes) := by
  have after :
      sp.toNat + 8 + 8 * arguments.length + 8 =
        sp.toNat + 16 + 8 * arguments.length := by
    omega
  rw [List.flatMap_cons, lies_append, length_wordBytes]
  refine ⟨count, ?_⟩
  rw [List.flatMap_append, lies_append, length_words]
  refine ⟨first, ?_⟩
  rw [List.flatMap_cons, lies_append, length_wordBytes, after]
  refine ⟨stop, ?_⟩
  rw [List.flatMap_append, lies_append, length_words]
  refine ⟨second, ?_⟩
  rw [List.flatMap_singleton]
  exact last

theorem wordBytes_zero : wordBytes 0 = List.replicate 8 0 := by
  decide

/-- Zeros which have been written are zeros in every part. -/
theorem lies_zeros
    {bytes : View UInt8}
    {start length other count : Nat}
    (lies : Lies bytes start (List.replicate length 0))
    (left : start ≤ other)
    (right : other + count ≤ start + length) :
    Lies bytes other (List.replicate count 0) := by
  intro offset inside
  rw [List.length_replicate] at inside
  have there := lies (other - start + offset) (by
    rw [List.length_replicate]
    omega)
  rw [List.getElem?_replicate_of_lt (by omega)] at there
  rw [List.getElem?_replicate_of_lt inside, ← there]
  congr 1
  omega

/-- Below the strings is what they were pushed on. -/
theorem lies_of_stacked
    {bytes : View UInt8}
    (strings : List CString)
    {start : Nat}
    {above : List UInt8}
    (lies : Lies bytes start (stacked strings above)) :
    Lies bytes (start + sizeOf strings) above := by
  induction strings using List.reverseRecOn generalizing start with
  | nil => exact lies
  | append_singleton strings string ih =>
      rw [stacked_append_singleton, lies_append, length_terminated] at lies
      rw [sizeOf_append_singleton, Nat.add_comm (sizeOf strings),
        ← Nat.add_assoc]
      exact ih lies.2

/-- A string above a change stays. -/
theorem IsString.kept
    {memory after : Memory}
    {start length low other : Nat}
    {pointer : Word}
    {string : CString}
    (isString : IsString (view memory) low pointer string)
    (keeps : Keeps memory start length after)
    (lower : other ≤ low)
    (apart : start + length ≤ low) :
    IsString (view after) other pointer string :=
  ⟨lower.trans isString.above, isString.below,
    keeps.lies isString.lies (Or.inr (apart.trans isString.above))⟩

/-- The two arrays are filled, and the number of arguments is stored. -/
theorem block_decodes
    {memory : Memory}
    {newsp sp : Word}
    {argv envp : List CString}
    (distinct : Distinct memory)
    (aligned : newsp.toNat % 16 = 0)
    (fits :
      newsp.toNat + 8 * (argv.length + envp.length + 4) ≤ sp.toNat)
    (clear :
      Lies (view memory) newsp.toNat
        (List.replicate (sp.toNat - newsp.toNat) 0))
    (strings : Lies (view memory) sp.toNat (stacked envp (stacked argv [])))
    (top : sp.toNat + sizeOf envp + sizeOf argv ≤ userTop.toNat) :
    ∃ fourth high fifth last after,
      setPointers (newsp + 8 + BitVec.ofNat 64 ((argv.length + 1) * 8))
          envp.length memory sp = .ok (fourth, high) ∧
        setPointers (newsp + 8) argv.length fourth high =
          .ok (fifth, last) ∧
        storeWord fifth newsp (BitVec.ofNat 64 argv.length) = .ok after ∧
        Distinct after ∧ Decodes (view after) newsp.toNat argv envp ∧
        after.table = memory.table ∧
        Keeps memory newsp.toNat (sp.toNat - newsp.toNat) after := by
  have limit : userTop.toNat = 2 ^ 48 := rfl
  have mapped :
      ∀ other, newsp.toNat ≤ other → other < sp.toNat →
        Mapped memory other := by
    intro other left right
    apply clear.readable
    rw [List.length_replicate]
    unfold InRange
    omega
  have newargv : (newsp + 8).toNat = newsp.toNat + 8 := by
    rw [BitVec.toNat_add]
    change (newsp.toNat + 8) % 2 ^ 64 = _
    omega
  have newenvp :
      (newsp + 8 + BitVec.ofNat 64 ((argv.length + 1) * 8)).toNat =
        newsp.toNat + 16 + 8 * argv.length := by
    rw [BitVec.toNat_add, newargv, BitVec.toNat_ofNat]
    omega
  rcases
    @setPointers_points envp memory
      (newsp + 8 + BitVec.ofNat 64 ((argv.length + 1) * 8)) sp
      (stacked argv []) distinct strings
      (by
        rw [length_stacked, length_stacked, List.length_nil]
        omega)
      (by omega)
      (by
        rw [newenvp]
        unfold InRange
        intro other inside
        exact mapped other (by omega) (by omega)) with
    ⟨fourth, high, environment, ranE, highAddress, pointsE⟩
  have keepsE := pointsE.keeps
  rw [newenvp] at keepsE
  have argStrings : Lies (view fourth) high.toNat (stacked argv []) := by
    rw [highAddress]
    apply keepsE.lies (lies_of_stacked envp strings)
    exact Or.inr (by omega)
  rcases
    @setPointers_points argv fourth (newsp + 8) high [] pointsE.distinct
      argStrings
      (by
        rw [length_stacked, List.length_nil]
        omega)
      (by omega)
      (by
        rw [newargv]
        unfold InRange
        intro other inside
        exact keepsE.mapped _ (mapped other (by omega) (by omega))) with
    ⟨fifth, last, arguments, ranA, -, pointsA⟩
  have keepsA := pointsA.keeps
  rw [newargv] at keepsA
  rcases
    @storeWord_writes fifth newsp (BitVec.ofNat 64 argv.length)
      pointsA.distinct (by
        unfold InRange
        intro other inside
        exact keepsA.mapped _ (keepsE.mapped _
          (mapped other (by omega) (by omega)))) with
    ⟨after, stored, distinctAfter, table, keeps, count⟩
  have argCount := pointsA.strings.length_eq
  have envCount := pointsE.strings.length_eq
  refine ⟨fourth, high, fifth, last, after, ranE, ranA, stored,
    distinctAfter, ⟨aligned, arguments, environment, ?_, ?_, ?_⟩,
    table.trans (pointsA.table.trans pointsE.table), ?_⟩
  · apply lies_block count
    · have words := pointsA.lies
      rw [newargv] at words
      exact keeps.lies words (Or.inr (Nat.le_refl _))
    · rw [argCount, wordBytes_zero]
      have zeros :
          Lies (view memory) (newsp.toNat + 8 + 8 * argv.length)
            (List.replicate 8 0) :=
        lies_zeros clear (by omega) (by omega)
      refine keeps.lies (keepsA.lies (keepsE.lies zeros ?_) ?_) ?_ <;>
        rw [List.length_replicate] <;>
        omega
    · have words := pointsE.lies
      rw [newenvp] at words
      rw [argCount]
      refine keeps.lies (keepsA.lies words ?_) ?_ <;> omega
    · rw [argCount, envCount, wordBytes_zero]
      have zeros :
          Lies (view memory)
            (newsp.toNat + 16 + 8 * argv.length + 8 * envp.length)
            (List.replicate 8 0) :=
        lies_zeros clear (by omega) (by omega)
      refine keeps.lies (keepsA.lies (keepsE.lies zeros ?_) ?_) ?_ <;>
        rw [List.length_replicate] <;>
        omega
  · apply pointsA.strings.imp
    intro pointer string isString
    exact isString.kept keeps (by omega) (by omega)
  · apply pointsE.strings.imp
    intro pointer string isString
    exact (isString.kept keepsA (Nat.le_refl _) (by omega)).kept keeps
      (by omega) (by omega)
  · apply ((keepsE.mono _ _).trans (keepsA.mono _ _)).trans
      (keeps.mono _ _) <;> omega

/-- Both lists of strings are pushed. -/
structure PushesBoth
    (memory : Memory)
    (argv envp : List CString)
    (after : Memory)
    (sp : Word) : Prop where
  distinct : Distinct after
  address : sp.toNat + (sizeOf argv + sizeOf envp) = userTop.toNat
  lies : Lies (view after) sp.toNat (stacked envp (stacked argv []))
  keeps : Keeps memory sp.toNat (userTop.toNat - sp.toNat) after
  spent :
    memory.table.supply.length ≤
      after.table.supply.length +
        4 * ((sizeOf argv + sizeOf envp) / 4096 + 40)

theorem pushBoth
    {memory : Memory}
    {argv envp : List CString}
    (distinct : Distinct memory)
    (fewA : argv.length ≤ maxArg)
    (fewE : envp.length ≤ maxArg)
    (room : sizeOf argv + sizeOf envp ≤ userTop.toNat)
    (enough :
      4 * ((sizeOf argv + sizeOf envp) / 4096 + 40) ≤
        memory.table.supply.length) :
    ∃ first high after sp,
      pushStrings argv 0 memory userTop =
          .ok (argv.length, first, high) ∧
        pushStrings envp 0 first high = .ok (envp.length, after, sp) ∧
        PushesBoth memory argv envp after sp := by
  have few : maxArg = 10 := rfl
  have ranges : argv.length ≤ 10 ∧ envp.length ≤ 10 :=
    ⟨few ▸ fewA, few ▸ fewE⟩
  rcases pushStrings_pushes argv distinct ((Nat.zero_add _).trans_le fewA)
    (lies_nil _ userTop.toNat) (Nat.le_refl _) (by omega) (by omega) with
    ⟨first, high, ranA, pushA⟩
  have spA := pushA.address
  have spentA := pushA.spent
  rcases pushStrings_pushes envp pushA.distinct
    ((Nat.zero_add _).trans_le fewE) pushA.lies (by omega) (by omega)
    (by omega) with
    ⟨after, sp, ranE, pushE⟩
  have spE := pushE.address
  have spentE := pushE.spent
  rw [Nat.zero_add] at ranA ranE
  refine ⟨first, high, after, sp, ranA, ranE, pushE.distinct, by omega,
    pushE.lies, ?_, by omega⟩
  apply (pushA.keeps.mono _ _).trans (pushE.keeps.mono _ _) <;> omega

/-- The address of the block, as the code computes it. -/
theorem toNat_newsp
    {sp : Word}
    {words : Nat}
    (room : words * 8 ≤ sp.toNat) :
    ((sp - BitVec.ofNat 64 (words * 8)) / 16 * 16).toNat =
      (sp.toNat - words * 8) / 16 * 16 := by
  have low :
      (sp - BitVec.ofNat 64 (words * 8)).toNat = sp.toNat - words * 8 := by
    rw [BitVec.toNat_sub_of_le]
    · rw [BitVec.toNat_ofNat]
      omega
    · rw [BitVec.le_def, BitVec.toNat_ofNat]
      omega
  rw [BitVec.toNat_mul, BitVec.toNat_udiv, low]
  change (sp.toNat - words * 8) / 16 * 16 % 2 ^ 64 = _
  omega

/-- The block below the strings is filled with zeros. -/
theorem clearBlock
    {memory : Memory}
    {newsp sp : Word}
    (distinct : Distinct memory)
    (below : newsp.toNat ≤ sp.toNat)
    (small : sp.toNat - newsp.toNat < 4096)
    (inside : sp.toNat ≤ userTop.toNat)
    (enough : 8 ≤ memory.table.supply.length) :
    ∃ after,
      copyoutOr memory newsp none (sp - newsp) = .ok after ∧
        Distinct after ∧
        Lies (view after) newsp.toNat
          (List.replicate (sp.toNat - newsp.toNat) 0) ∧
        Keeps memory newsp.toNat (sp.toNat - newsp.toNat) after ∧
        memory.table.supply.length ≤ after.table.supply.length + 8 := by
  have gap : (sp - newsp).toNat = sp.toNat - newsp.toNat := by
    rw [BitVec.toNat_sub_of_le]
    rw [BitVec.le_def]
    exact below
  have pages := pagesOf_le newsp.toNat (sp.toNat - newsp.toNat)
  rw [Nat.div_eq_of_lt small] at pages
  rcases
    @copyoutOr_writes memory newsp (sp - newsp) none distinct
      (by
        rw [gap]
        omega)
      (by
        rw [gap]
        exact (Nat.mul_le_mul_left 4 pages).trans enough) with
    ⟨after, ran, distinct, writes, spent⟩
  rw [gap] at writes spent
  refine ⟨after, ran, distinct, ?_, writes.keeps, by omega⟩
  intro offset inside
  rw [List.length_replicate] at inside
  rw [writes.stores.written offset inside,
    List.getElem?_replicate_of_lt inside]
  rfl

/-- The steps of `pushArguments`, one after the other. -/
theorem pushArguments_eq
    {memory first second third fourth fifth after : Memory}
    {argv envp : Option (List CString)}
    {argc envc : Nat}
    {high sp newsp next last : Word}
    (pushA :
      pushStrings (taken argv) 0 memory userTop = .ok (argc, first, high))
    (pushE :
      pushStrings (taken envp) 0 first high = .ok (envc, second, sp))
    (address :
      (sp - BitVec.ofNat 64 ((envc + argc + 4) * 8)) / 16 * 16 = newsp)
    (cleared : copyoutOr second newsp none (sp - newsp) = .ok third)
    (setE :
      setPointers (newsp + 8 + BitVec.ofNat 64 ((argc + 1) * 8)) envc third
        sp = .ok (fourth, next))
    (setA :
      setPointers (newsp + 8) argc fourth next = .ok (fifth, last))
    (stored : storeWord fifth newsp (BitVec.ofNat 64 argc) = .ok after) :
    pushArguments memory argv envp = .ok (after, newsp) := by
  have all (strings : Option (List CString)) (start : Memory) (top : Word) :
      pushStrings (strings.getD []) 0 start top =
        pushStrings (taken strings) 0 start top :=
    pushStrings_take _ 0 start top
  simp only [pushArguments, bind, Except.bind, all, pushA, pushE, address,
    cleared, setE, setA, stored, pure, Except.pure]

theorem pushArguments_builds
    {memory : Memory}
    (distinct : Distinct memory)
    (argv envp : Option (List CString))
    (room : blockSize argv envp ≤ userTop.toNat)
    (enough :
      4 * (blockSize argv envp / 4096 + 42) ≤
        memory.table.supply.length) :
    ∃ after sp,
      pushArguments memory argv envp = .ok (after, sp) ∧
        Builds memory argv envp after sp := by
  have block :
      blockSize argv envp =
        sizeOf (taken argv) + sizeOf (taken envp) +
          8 * ((taken argv).length + (taken envp).length + 4) :=
    rfl
  have fewA : (taken argv).length ≤ 10 := length_taken_le argv
  have fewE : (taken envp).length ≤ 10 := length_taken_le envp
  rcases pushBoth distinct (length_taken_le argv) (length_taken_le envp)
    (by omega) (by omega) with
    ⟨first, high, second, sp, ranA, ranE, pushes⟩
  have spAddress := pushes.address
  have spent := pushes.spent
  have address :=
    @toNat_newsp sp ((taken envp).length + (taken argv).length + 4)
      (by omega)
  generalize bottom :
    (sp - BitVec.ofNat 64
      (((taken envp).length + (taken argv).length + 4) * 8)) / 16 * 16 =
        newsp at address
  rcases @clearBlock second newsp sp pushes.distinct (by omega) (by omega)
    (by omega) (by omega) with
    ⟨third, cleared, distinct, clear, kept, left⟩
  rcases block_decodes distinct (by omega) (by omega) clear
    (kept.lies pushes.lies (Or.inr (by omega))) (by omega) with
    ⟨fourth, next, fifth, last, after, setE, setA, stored, distinct,
      decodes, table, keeps⟩
  refine ⟨after, newsp,
    pushArguments_eq ranA ranE bottom cleared setE setA stored,
    distinct, ?_, decodes, ?_, ?_, ?_⟩
  · unfold stackPointer
    omega
  · apply ((pushes.keeps.mono _ _).trans (kept.mono _ _)).trans
      (keeps.mono _ _) <;> omega
  · intro other inside
    unfold InRange at inside
    by_cases word : other < sp.toNat
    · apply keeps.mapped
      apply clear.readable
      rw [List.length_replicate]
      unfold InRange
      omega
    · apply keeps.mapped
      apply kept.mapped
      apply pushes.lies.readable
      rw [length_stacked, length_stacked, List.length_nil]
      unfold InRange
      omega
  · rw [table]
    omega

/--
Whatever strings `execve` is called with, what it has built when `sp` is
`newsp` decodes to them, and nothing below `newsp` has changed.
-/
theorem arguments_decode
    (memory : Memory)
    (argv envp : Option (List CString))
    (distinct : Distinct memory)
    (room : blockSize argv envp ≤ userTop.toNat)
    (enough :
      4 * (blockSize argv envp / 4096 + 42) ≤
        memory.table.supply.length) :
    ∃ after sp,
      pushArguments memory argv envp = .ok (after, sp) ∧
        Builds memory argv envp after sp :=
  pushArguments_builds distinct argv envp room enough

/-- The string `ls` -/
def ls : CString :=
  ⟨[108, 115], by decide⟩

theorem arguments_decode_ls :
    ∃ table after sp,
      PageTable.initPgdir (fun _ => 0x55) (freePages 256) = .ok table ∧
        pushArguments { table := table, bytes := fun _ => 0xAA } (some [ls])
            none =
          .ok (after, sp) ∧
        sp.toNat = userTop.toNat - 48 ∧
        Decodes (view after) sp.toNat [ls] [] := by
  rcases @exists_new 256 (by decide) (by decide) (fun _ => 0x55)
    (fun _ => 0xAA) with ⟨table, made, length, distinct, -⟩
  rcases
    arguments_decode { table := table, bytes := fun _ => 0xAA } (some [ls])
      none distinct (by decide) (by
        change 168 ≤ table.supply.length
        omega) with
    ⟨after, sp, ran, builds⟩
  exact ⟨table, after, sp, made, ran, builds.address, builds.decodes⟩

end FudanOS.Kernel.ExecStack
