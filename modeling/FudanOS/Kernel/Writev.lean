import FudanOS.Kernel.FileCalls
import Mathlib.Algebra.BigOperators.Group.List.Basic
import Mathlib.Algebra.Order.BigOperators.Group.List

/-!
# `writev` as one write

`writev` calls `file_write` on every segment and adds what the calls return,
`-1` included, in a `usize`.
-/

namespace FudanOS.Kernel.Writev

open FudanOS.Library.Programs
open FudanOS.Fs
open FudanOS.Fs.Defines
open FudanOS.Fs.InodeLayout
open FudanOS.Fs.InodeRuns (emptyDisk smallDisk)
open FudanOS.Fs.Names
open FudanOS.Fs.PipeCalls
  (Waits bytesAt length_bytesAt pipeWrite whileFull writeLoop)
open FudanOS.Kernel.SysFile
open FudanOS.Kernel.FileRuns (plainEnv unbooted)
open FudanOS.Kernel.FileCalls

/-- What a call of `file_write` has returned and stored. -/
abbrev Wrote := Int × List UInt8

/-- The bytes of a segment. -/
def Iovec.bytes (p : Iovec) : List UInt8 :=
  bytesAt p.iovBase p.iovLen

/-- A segment which can be read lies in the lower half of the addresses. -/
def Readable (p : Iovec) : Prop :=
  p.iovLen ≤ 2 ^ 48

/-- The number of bytes which have been stored. -/
def totalStored (wrotes : List Wrote) : Nat :=
  (wrotes.map fun wrote => wrote.2.length).sum

/-- The sum of what the calls have returned. -/
def totalReturned (wrotes : List Wrote) : Int :=
  (wrotes.map Prod.fst).sum

/--
The segments before the first one which fails are stored, and none of those
after it.
-/
def StoredUpToFailure : List (List UInt8) → List Wrote → Prop
  | bytes :: rest, wrote :: wrotes =>
      if wrote.1 < 0 then
        ∀ later ∈ wrotes, later.2 = []
      else
        wrote.2 = bytes ∧ StoredUpToFailure rest wrotes
  | _, _ => True

/-- What `writev` should do and return. -/
structure AsOneWrite
    (segments : List (List UInt8))
    (wrotes : List Wrote)
    (result : Int) : Prop where
  effect : StoredUpToFailure segments wrotes
  returned :
    result =
      if (∃ wrote ∈ wrotes, wrote.1 < 0) ∧ totalStored wrotes = 0 then -1
      else (totalStored wrotes : Int)

/-- No segment fails, and the number of bytes is an `isize`. -/
structure NoneFails
    (segments : List (List UInt8))
    (wrotes : List Wrote) : Prop where
  positive : ∀ wrote ∈ wrotes, 0 ≤ wrote.1
  stored : wrotes.map Prod.snd = segments
  fits : totalStored wrotes < 2 ^ 63

/-- One segment fails with nothing stored, and there is nothing to store else. -/
def OnlyOneFails
    (segments : List (List UInt8))
    (wrotes : List Wrote) : Prop :=
  ∃ before after : List Wrote,
    wrotes = before ++ (-1, []) :: after ∧
      (∀ wrote ∈ before, wrote = (0, [])) ∧
      (∀ bytes ∈ segments.take before.length, bytes = []) ∧
      ∀ wrote ∈ after, wrote = (0, [])

/-! ## Sums of outcomes -/

/-- What every call of `file_write` keeps to. -/
structure Outcome (wrote : Wrote) : Prop where
  counted : 0 ≤ wrote.1 → wrote.1 = wrote.2.length
  low : -2 ^ 31 ≤ wrote.1
  short : wrote.1 < 0 → wrote.2.length < 2 ^ 31

section Sums

variable
    {wrotes before after : List Wrote}
    {wrote : Wrote}
    {segments : List (List UInt8)}

@[simp]
theorem totalStored_append :
    totalStored (before ++ after) =
      totalStored before + totalStored after := by
  simp [totalStored]

@[simp]
theorem totalStored_cons :
    totalStored (wrote :: after) = wrote.2.length + totalStored after := by
  simp [totalStored]

@[simp]
theorem totalReturned_append :
    totalReturned (before ++ after) =
      totalReturned before + totalReturned after := by
  simp [totalReturned]

@[simp]
theorem totalReturned_cons :
    totalReturned (wrote :: after) = wrote.1 + totalReturned after := by
  simp [totalReturned]

/-- Where no call fails, the sum of the results is the number of bytes. -/
theorem totalReturned_eq_totalStored
    (outcomes : ∀ wrote ∈ wrotes, Outcome wrote)
    (positive : ∀ wrote ∈ wrotes, 0 ≤ wrote.1) :
    totalReturned wrotes = totalStored wrotes := by
  induction wrotes with
  | nil => rfl
  | cons wrote rest ih =>
      rw [List.forall_mem_cons] at outcomes positive
      have later := ih outcomes.2 positive.2
      have first := outcomes.1.counted positive.1
      rw [totalReturned_cons, totalStored_cons, later, first]
      omega

theorem totalStored_eq_zero_iff :
    totalStored wrotes = 0 ↔ ∀ wrote ∈ wrotes, wrote.2 = [] := by
  induction wrotes with
  | nil => exact iff_of_true rfl nofun
  | cons wrote rest ih =>
      rw [totalStored_cons, List.forall_mem_cons, ← ih,
        ← List.length_eq_zero_iff]
      omega

/-- Calls which store nothing return nothing positive. -/
theorem totalReturned_nonpos
    (outcomes : ∀ wrote ∈ wrotes, Outcome wrote)
    (nothing : ∀ wrote ∈ wrotes, wrote.2 = []) :
    -2 ^ 31 * (wrotes.length : Int) ≤ totalReturned wrotes ∧
      totalReturned wrotes ≤ 0 ∧
      (totalReturned wrotes = 0 → ∀ wrote ∈ wrotes, wrote = (0, [])) := by
  induction wrotes with
  | nil => exact ⟨by decide, by decide, nofun⟩
  | cons wrote rest ih =>
      rw [List.forall_mem_cons] at outcomes nothing
      rcases ih outcomes.2 nothing.2 with ⟨low, high, zero⟩
      have least := outcomes.1.low
      have most : wrote.1 ≤ 0 := by
        by_contra positive
        have counted := outcomes.1.counted (by omega)
        rw [nothing.1, List.length_nil] at counted
        omega
      rw [totalReturned_cons, List.length_cons]
      refine ⟨by omega, by omega, ?_⟩
      intro none
      rw [List.forall_mem_cons]
      exact ⟨Prod.ext (by dsimp only; omega) nothing.1, zero (by omega)⟩

/-- Some call is the first one which fails, or none fails. -/
theorem exists_first_failure (wrotes : List Wrote) :
    (∀ wrote ∈ wrotes, 0 ≤ wrote.1) ∨
      ∃ before wrote after,
        wrotes = before ++ wrote :: after ∧
          (∀ earlier ∈ before, 0 ≤ earlier.1) ∧ wrote.1 < 0 := by
  induction wrotes with
  | nil => exact Or.inl nofun
  | cons wrote rest ih =>
      by_cases fails : wrote.1 < 0
      · exact Or.inr ⟨[], wrote, rest, rfl, nofun, fails⟩
      · have succeeds : 0 ≤ wrote.1 := by omega
        rcases ih with all | ⟨before, first, after, same, earlier, fails⟩
        · exact Or.inl (List.forall_mem_cons.mpr ⟨succeeds, all⟩)
        · refine Or.inr ⟨wrote :: before, first, after, ?_, ?_, fails⟩
          · rw [same, List.cons_append]
          · exact List.forall_mem_cons.mpr ⟨succeeds, earlier⟩

theorem storedUpToFailure_of_none
    (positive : ∀ wrote ∈ wrotes, 0 ≤ wrote.1)
    (same : wrotes.length = segments.length) :
    StoredUpToFailure segments wrotes ↔ wrotes.map Prod.snd = segments := by
  induction wrotes generalizing segments with
  | nil =>
      have none : segments = [] := List.eq_nil_of_length_eq_zero same.symm
      subst none
      exact iff_of_true trivial rfl
  | cons wrote rest ih =>
      cases segments with
      | nil => cases same
      | cons bytes later =>
          rw [List.forall_mem_cons] at positive
          rw [StoredUpToFailure, if_neg (by omega),
            ih positive.2 (Nat.succ_injective same), List.map_cons,
            List.cons.injEq]

theorem storedUpToFailure_of_first
    (earlier : ∀ wrote ∈ before, 0 ≤ wrote.1)
    (fails : wrote.1 < 0)
    (same : before.length < segments.length) :
    StoredUpToFailure segments (before ++ wrote :: after) ↔
      before.map Prod.snd = segments.take before.length ∧
        ∀ later ∈ after, later.2 = [] := by
  induction before generalizing segments with
  | nil =>
      cases segments with
      | nil => cases same
      | cons bytes rest =>
          rw [List.nil_append, StoredUpToFailure, if_pos fails]
          simp
  | cons first rest ih =>
      cases segments with
      | nil => cases same
      | cons bytes others =>
          rw [List.forall_mem_cons] at earlier
          rw [List.cons_append, StoredUpToFailure, if_neg (by omega),
            ih earlier.2 (Nat.lt_of_succ_lt_succ same), List.map_cons,
            List.length_cons, List.take_succ_cons, List.cons.injEq,
            and_assoc]

end Sums

section Exact

variable
    {wrotes : List Wrote}
    {segments : List (List UInt8)}

/-- Without a failure, the bytes are counted as long as they fit. -/
theorem asOneWrite_of_none
    (outcomes : ∀ wrote ∈ wrotes, Outcome wrote)
    (same : wrotes.length = segments.length)
    (positive : ∀ wrote ∈ wrotes, 0 ≤ wrote.1) :
    AsOneWrite segments wrotes
        ((totalReturned wrotes).bmod usizeModulus) ↔
      NoneFails segments wrotes := by
  have sums := totalReturned_eq_totalStored outcomes positive
  have noFailure :
      ¬ ((∃ wrote ∈ wrotes, wrote.1 < 0) ∧ totalStored wrotes = 0) := by
    rintro ⟨⟨wrote, member, fails⟩, -⟩
    exact absurd fails (Int.not_lt.mpr (positive wrote member))
  rw [sums]
  constructor
  · rintro ⟨effect, returned⟩
    rw [if_neg noFailure] at returned
    refine ⟨positive, (storedUpToFailure_of_none positive same).mp effect, ?_⟩
    have below : (totalStored wrotes : Int).bmod usizeModulus < 2 ^ 63 :=
      Int.bmod_lt (by decide)
    rw [returned] at below
    exact_mod_cast below
  · rintro ⟨-, stored, fits⟩
    refine ⟨(storedUpToFailure_of_none positive same).mpr stored, ?_⟩
    rw [if_neg noFailure]
    have modulus : usizeModulus = 2 ^ 64 := rfl
    exact Int.bmod_eq_of_le (by omega) (by omega)

/--
A failure among other results makes a sum which is neither -1 nor the number
of bytes: the two are closer to each other than the modulus.
-/
theorem failure_returned_iff
    {stored more : Nat}
    {failed later : Int}
    (negative : failed < 0)
    (low : -2 ^ 31 ≤ failed)
    (short : more < 2 ^ 31)
    (laterLow : -2 ^ 62 ≤ later)
    (laterHigh : later ≤ 0) :
    ((stored : Int) + (failed + later)).bmod usizeModulus =
        (if stored + more = 0 then -1 else ((stored + more : Nat) : Int)) ↔
      stored = 0 ∧ more = 0 ∧ failed = -1 ∧ later = 0 := by
  have modulus : ((usizeModulus : Nat) : Int) = 2 ^ 64 := rfl
  constructor
  · intro returned
    rw [Int.bmod_eq_self_sub_mul_bdiv, modulus] at returned
    generalize
      ((stored : Int) + (failed + later)).bdiv usizeModulus = turns
      at returned
    split_ifs at returned with nothing
    · omega
    · omega
  · rintro ⟨rfl, rfl, rfl, rfl⟩
    rfl

/-- A failure is returned when it is the only result which is not 0. -/
theorem asOneWrite_of_first
    {before after : List Wrote}
    {wrote : Wrote}
    (outcomes : ∀ other ∈ before ++ wrote :: after, Outcome other)
    (same : (before ++ wrote :: after).length = segments.length)
    (few : (before ++ wrote :: after).length < 2 ^ 31)
    (earlier : ∀ other ∈ before, 0 ≤ other.1)
    (fails : wrote.1 < 0) :
    AsOneWrite segments (before ++ wrote :: after)
        ((totalReturned (before ++ wrote :: after)).bmod usizeModulus) ↔
      wrote = (-1, []) ∧ (∀ other ∈ before, other = (0, [])) ∧
        (∀ bytes ∈ segments.take before.length, bytes = []) ∧
        ∀ other ∈ after, other = (0, []) := by
  rw [List.length_append, List.length_cons] at few same
  rw [List.forall_mem_append, List.forall_mem_cons] at outcomes
  rcases outcomes with ⟨outcomesBefore, outcomeWrote, outcomesAfter⟩
  have shorter : before.length < segments.length := by omega
  have failure :
      ∃ other ∈ before ++ wrote :: after, other.1 < 0 :=
    ⟨wrote, List.mem_append_right _ List.mem_cons_self, fails⟩
  have sumBefore := totalReturned_eq_totalStored outcomesBefore earlier
  have effectIff :
      StoredUpToFailure segments (before ++ wrote :: after) ↔
        before.map Prod.snd = segments.take before.length ∧
          ∀ later ∈ after, later.2 = [] :=
    storedUpToFailure_of_first earlier fails shorter
  rw [totalReturned_append, totalReturned_cons, sumBefore]
  constructor
  · rintro ⟨effect, returned⟩
    rcases effectIff.mp effect with ⟨storedBefore, nothingAfter⟩
    have noneAfter : totalStored after = 0 :=
      totalStored_eq_zero_iff.mpr nothingAfter
    rcases totalReturned_nonpos outcomesAfter nothingAfter with
      ⟨lowAfter, highAfter, zeroAfter⟩
    simp only [failure, true_and, totalStored_append, totalStored_cons,
      noneAfter, Nat.add_zero] at returned
    rcases
      (failure_returned_iff fails outcomeWrote.low
        (outcomeWrote.short fails) (by omega) highAfter).mp returned
      with ⟨noneBefore, noneStored, isFailure, noneReturned⟩
    have emptyBefore := totalStored_eq_zero_iff.mp noneBefore
    refine ⟨?_, ?_, ?_, zeroAfter noneReturned⟩
    · exact Prod.ext isFailure (List.length_eq_zero_iff.mp noneStored)
    · intro other member
      have counted :=
        (outcomesBefore other member).counted (earlier other member)
      have empty := emptyBefore other member
      rw [empty] at counted
      exact Prod.ext counted empty
    · intro bytes member
      rw [← storedBefore] at member
      rcases List.mem_map.mp member with ⟨other, isBefore, rfl⟩
      exact emptyBefore other isBefore
  · rintro ⟨rfl, nothingBefore, emptyBefore, nothingAfter⟩
    have noneBefore : totalStored before = 0 :=
      totalStored_eq_zero_iff.mpr fun other member => by
        rw [nothingBefore other member]
    have noneAfter : totalStored after = 0 :=
      totalStored_eq_zero_iff.mpr fun other member => by
        rw [nothingAfter other member]
    have returnedAfter : totalReturned after = 0 := by
      have positive : ∀ other ∈ after, 0 ≤ other.1 := fun other member => by
        rw [nothingAfter other member]
      rw [totalReturned_eq_totalStored outcomesAfter positive, noneAfter]
      rfl
    refine ⟨effectIff.mpr ⟨?_, ?_⟩, ?_⟩
    · refine List.ext_getElem ?_ ?_
      · rw [List.length_map, List.length_take]
        omega
      · intro index inside outside
        rw [emptyBefore _ (List.getElem_mem outside), List.getElem_map,
          nothingBefore _ (List.getElem_mem _)]
    · intro other member
      rw [nothingAfter other member]
    · simp only [failure, true_and, totalStored_append, totalStored_cons,
        noneBefore, noneAfter, returnedAfter]
      rfl

/-- When the results of the segments add up to what one write returns. -/
theorem asOneWrite_iff
    (outcomes : ∀ wrote ∈ wrotes, Outcome wrote)
    (same : wrotes.length = segments.length)
    (few : wrotes.length < 2 ^ 31) :
    AsOneWrite segments wrotes
        ((totalReturned wrotes).bmod usizeModulus) ↔
      NoneFails segments wrotes ∨ OnlyOneFails segments wrotes := by
  constructor
  · intro asOne
    rcases exists_first_failure wrotes with
      positive | ⟨before, wrote, after, rfl, earlier, fails⟩
    · exact Or.inl ((asOneWrite_of_none outcomes same positive).mp asOne)
    · rcases (asOneWrite_of_first outcomes same few earlier fails).mp asOne
        with ⟨rfl, nothingBefore, emptyBefore, nothingAfter⟩
      exact Or.inr
        ⟨before, after, rfl, nothingBefore, emptyBefore, nothingAfter⟩
  · rintro (none | ⟨before, after, rfl, nothingBefore, rest⟩)
    · exact (asOneWrite_of_none outcomes same none.positive).mpr none
    · have earlier : ∀ other ∈ before, 0 ≤ other.1 := fun other member => by
        rw [nothingBefore other member]
      exact (asOneWrite_of_first outcomes same few earlier
        (by decide)).mpr ⟨rfl, nothingBefore, rest⟩

end Exact

/-! ## The calls of `file_write` -/

section Calls

variable
    {sblock : SuperBlock}
    {env : Env}
    {this : Nat}
    {killed : Bool}
    {waits : Waits}

/-- A call on a pipe stores everything, or returns -1. -/
theorem writeLoop_outcome
    {n result : Int}
    {bytes stored : List UInt8}
    {pi target : PipeCalls.Pipe}
    (wrote :
      writeLoop killed n bytes waits pi = .ok (result, stored, target)) :
    result = n ∧ stored = bytes ∨
      result = -1 ∧ stored.length ≤ bytes.length := by
  induction bytes generalizing waits pi stored with
  | nil =>
      unfold writeLoop at wrote
      cases wrote
      exact Or.inl ⟨rfl, rfl⟩
  | cons byte rest ih =>
      unfold writeLoop at wrote
      split at wrote
      · cases wrote
      · cases wrote
        exact Or.inr ⟨rfl, Nat.zero_le _⟩
      · split at wrote
        · cases wrote
        · rename_i later wroteRest
          cases wrote
          rcases ih wroteRest with ⟨whole, rfl⟩ | ⟨failed, shorter⟩
          · exact Or.inl ⟨whole, rfl⟩
          · exact Or.inr ⟨failed, Nat.succ_le_succ shorter⟩

theorem int_bounds (n : Int) : -2 ^ 31 ≤ int n ∧ int n < 2 ^ 31 :=
  ⟨Int.le_bmod (by decide), Int.bmod_lt (by decide)⟩

theorem pipeWrite_outcome
    {addr : Nat → UInt8}
    {n result : Int}
    {stored : List UInt8}
    {pi target : PipeCalls.Pipe}
    (wrote :
      pipeWrite waits pi killed addr (int n) =
        .ok (result, stored, target)) :
    Outcome (result, stored) := by
  rcases int_bounds n with ⟨low, high⟩
  unfold pipeWrite at wrote
  split at wrote
  · cases wrote
  · rcases writeLoop_outcome wrote with ⟨rfl, rfl⟩ | ⟨rfl, shorter⟩
    · refine ⟨?_, low, ?_⟩
      · intro positive
        dsimp only at positive ⊢
        rw [length_bytesAt]
        omega
      · intro negative
        dsimp only at negative ⊢
        rw [length_bytesAt]
        omega
    · rw [length_bytesAt] at shorter
      refine ⟨nofun, by dsimp only; decide, ?_⟩
      intro _
      dsimp only
      omega

theorem isize_of_readable
    {p : Iovec}
    (readable : Readable p) :
    isize p.iovLen = p.iovLen := by
  have modulus : usizeModulus = 2 ^ 64 := rfl
  unfold Readable at readable
  exact Int.bmod_eq_of_le (by omega) (by omega)

theorem writeInode_result
    {f : Nat}
    {addr : Nat → UInt8}
    {n result : Int}
    {system target : System}
    (wrote :
      (writeInode sblock env f addr n).run system = .ok (result, target)) :
    result = n ∨ result = -1 := by
  rcases exists_of_bind_eq_ok wrote with ⟨⟨done, middle⟩, -, finished⟩
  cases finished
  split
  · exact Or.inl rfl
  · exact Or.inr rfl

/-- What `file_write` of a segment returns and stores. -/
theorem fileWrite_outcome
    {f : Nat}
    {addr : Nat → UInt8}
    {length : Nat}
    {machine target : Machine}
    {wrote : Wrote}
    (returned :
      (fileWrite sblock env killed waits f addr (length : Int)).run machine =
        .ok (wrote, target)) :
    Outcome wrote := by
  change StateT.run (ite _ _ _) machine = _ at returned
  split_ifs at returned with readOnly
  · cases returned
    exact ⟨nofun, by decide, fun _ => by decide⟩
  · split at returned
    · rcases exists_of_bind_eq_ok returned with
        ⟨⟨result, middle⟩, wroteInode, done⟩
      cases done
      rcases exists_of_onSystem_ok wroteInode with ⟨system, ran, -⟩
      rcases writeInode_result ran with rfl | rfl
      · rw [if_pos rfl]
        refine ⟨?_, by dsimp only; omega, ?_⟩
        · intro _
          dsimp only
          rw [length_bytesAt, Int.toNat_natCast]
        · intro negative
          dsimp only at negative
          omega
      · rw [if_neg (by omega)]
        exact ⟨nofun, by decide, fun _ => by decide⟩
    · change onPipe _ _ machine = _ at returned
      unfold onPipe at returned
      split at returned
      · rename_i result stored pipe wrotePipe
        cases returned
        exact pipeWrite_outcome wrotePipe
      · cases returned
    · cases returned
      exact ⟨fun _ => rfl, by decide, fun _ => by decide⟩

/-- A call on a segment, and those on the rest. -/
theorem writevLoop_cons
    {f tot result : Nat}
    {p : Iovec}
    {around : Around}
    {rest : List (Iovec × Around)}
    {machine target : Machine}
    {wrotes : List Wrote}
    (returned :
      (writevLoop sblock killed f tot ((p, around) :: rest)).run machine =
        .ok ((result, wrotes), target)) :
    ∃ wrote later middle,
      wrotes = wrote :: later ∧
        (fileWrite sblock around.env killed around.waits f p.iovBase
          (isize p.iovLen)).run (around.others machine) =
            .ok (wrote, middle) ∧
        (writevLoop sblock killed f
          ((tot + usize wrote.1) % usizeModulus) rest).run middle =
            .ok ((result, later), target) := by
  unfold writevLoop at returned
  rw [StateT.run_bind] at returned
  rcases exists_of_bind_eq_ok returned with ⟨⟨_, changed⟩, modified, next⟩
  cases modified
  rw [StateT.run_bind] at next
  rcases exists_of_bind_eq_ok next with ⟨⟨wrote, middle⟩, wroteOne, more⟩
  rw [StateT.run_bind] at more
  rcases exists_of_bind_eq_ok more with
    ⟨⟨⟨sum, later⟩, finish⟩, wroteRest, finished⟩
  cases finished
  exact ⟨wrote, later, middle, rfl, wroteOne, wroteRest⟩

/-- `tot` is the sum of the results in the arithmetic of `usize`. -/
theorem isize_add_usize (tot : Nat) (first later : Int) :
    (((tot + usize first) % usizeModulus : Nat) + later).bmod usizeModulus =
      ((tot : Int) + (first + later)).bmod usizeModulus := by
  have positive : 0 ≤ first % (usizeModulus : Int) :=
    Int.emod_nonneg _ (by decide)
  have inner :
      (tot : Int) + first % (usizeModulus : Int) + later =
        first % (usizeModulus : Int) + (tot + later) := by
    omega
  have outer : (tot : Int) + (first + later) = first + (tot + later) := by
    omega
  rw [usize, Int.natCast_mod, Int.emod_add_bmod, Int.natCast_add,
    Int.toNat_of_nonneg positive, inner, Int.emod_add_bmod, outer]

theorem writevLoop_outcomes
    {f tot result : Nat}
    {iov : List (Iovec × Around)}
    {machine target : Machine}
    {wrotes : List Wrote}
    (readable : ∀ segment ∈ iov, Readable segment.1)
    (returned :
      (writevLoop sblock killed f tot iov).run machine =
        .ok ((result, wrotes), target)) :
    wrotes.length = iov.length ∧ (∀ wrote ∈ wrotes, Outcome wrote) ∧
      isize result =
        ((tot : Int) + totalReturned wrotes).bmod usizeModulus := by
  induction iov generalizing tot machine wrotes with
  | nil =>
      cases returned
      refine ⟨rfl, nofun, ?_⟩
      rw [totalReturned, List.map_nil, List.sum_nil, Int.add_zero]
      rfl
  | cons segment rest ih =>
      rcases segment with ⟨p, around⟩
      rw [List.forall_mem_cons] at readable
      rcases writevLoop_cons returned with
        ⟨wrote, later, middle, rfl, wroteOne, wroteRest⟩
      rcases ih readable.2 wroteRest with ⟨length, outcomes, sum⟩
      rw [isize_of_readable readable.1] at wroteOne
      refine ⟨?_, ?_, ?_⟩
      · rw [List.length_cons, List.length_cons, length]
      · exact List.forall_mem_cons.mpr
          ⟨fileWrite_outcome wroteOne, outcomes⟩
      · rw [sum, isize_add_usize, totalReturned_cons]

end Calls

/-! ## The system call -/

section Claim

variable
    (sblock : SuperBlock)
    (this : Nat)
    (killed : Bool)
    (fd : Int)
    (iov : List (Iovec × Around))
    (machine : Machine)

/-- The bytes of the segments. -/
def segmentsOf (iov : List (Iovec × Around)) : List (List UInt8) :=
  iov.map fun segment => Iovec.bytes segment.1

/-- `writev` returns, and it does what one write of all bytes does. -/
def WritesAsOne : Prop :=
  ∃ result wrotes target,
    (writev sblock this killed fd iov iov.length).run machine =
        .ok ((result, wrotes), target) ∧
      AsOneWrite (segmentsOf iov) wrotes result

/--
The calls of `file_write` on the segments return, and either none of them fails
or one of them fails where there is nothing else to write.
-/
def NoFailureAdded (f : Nat) : Prop :=
  ∃ tot wrotes target,
    (writevLoop sblock killed f 0 iov).run machine =
        .ok ((tot, wrotes), target) ∧
      (NoneFails (segmentsOf iov) wrotes ∨
        OnlyOneFails (segmentsOf iov) wrotes)

/-- The descriptor refers to the file. -/
def Opens (system : System) (f : Nat) : Prop :=
  ∃ inside : 0 ≤ fd ∧ fd < noFile,
    (system.procs this).openfile ⟨fd.toNat, toNat_lt_noFile inside⟩ =
      some f

end Claim

section Exact

variable
    {sblock : SuperBlock}
    {this f : Nat}
    {killed : Bool}
    {fd : Int}
    {iov : List (Iovec × Around)}
    {machine : Machine}

theorem fd2file_opens
    {system : System}
    (opens : Opens this fd system f) :
    (fd2file this fd).run system = .ok (some f, system) := by
  rcases opens with ⟨inside, found⟩
  unfold fd2file
  rw [dif_pos inside]
  change Except.ok _ = _
  rw [found]

/-- The first part of a result is converted. -/
theorem run_convert
    (convert : Nat → Int)
    (program : MachineProgram (Nat × List Wrote)) :
    ((do
      let (tot, wrotes) ← program
      return (convert tot, wrotes)) :
        MachineProgram (Int × List Wrote)).run machine =
      (program.run machine).map fun returned =>
        ((convert returned.1.1, returned.1.2), returned.2) := by
  rw [StateT.run_bind]
  cases program.run machine with
  | error halt => rfl
  | ok returned => rfl

theorem run_writev_opens
    (opens : Opens this fd machine.system f)
    (segments : iov ≠ []) :
    (writev sblock this killed fd iov iov.length).run machine =
      ((writevLoop sblock killed f 0 iov).run machine).map fun returned =>
        ((isize returned.1.1, returned.1.2), returned.2) := by
  have positive : ¬ ((iov.length : Int) ≤ 0) := by
    have := List.length_pos_iff.mpr segments
    omega
  unfold writev
  rw [StateT.run_bind, onSystem_ok (fd2file_opens opens)]
  change StateT.run (ite _ _ _) machine = _
  rw [if_neg positive]
  exact run_convert isize _

end Exact

/-- Descriptor 0 of process 0 is an end of the pipe at 9. -/
def withPipe (writable : Bool) : Machine where
  system :=
    { unbooted emptyDisk.store emptyDisk.nodes with
      files := fun _ => ⟨.pipe, 1, !writable, writable, 9, 0⟩
      pipes := fun _ => ⟨true, true⟩
      procs := fun _ =>
        { openfile := fun fd => if fd = 0 then some 0 else none
          cwd := 0 } }
  pipes := fun _ => PipeCalls.initPipe

theorem withPipe_opens (writable : Bool) :
    Opens 0 0 (withPipe writable).system 0 :=
  ⟨by decide, rfl⟩

/-- Two segments of one byte each. -/
def twoSegments : List (Iovec × Around) :=
  [(⟨fun _ => 7, 1⟩, ⟨id, [], plainEnv⟩),
    (⟨fun _ => 8, 1⟩, ⟨id, [], plainEnv⟩)]

theorem readable_twoSegments :
    ∀ segment ∈ twoSegments, Readable segment.1 := by
  intro segment member
  rcases List.mem_pair.mp member with rfl | rfl
  · exact Nat.one_le_two_pow
  · exact Nat.one_le_two_pow

end FudanOS.Kernel.Writev
