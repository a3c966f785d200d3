import FudanOS.Kernel.ExecStack

/-!
# The size of the initial stack

`execve` maps the stack down to a multiple of ten pages below `USERTOP`, and
asserts that `sp` is above the last page.  The assertion fails when the block
of the arguments ends exactly on such a multiple.
-/

namespace FudanOS.Kernel.StackSize

open FudanOS.Aarch64.Mmu
open FudanOS.Library.Views
open FudanOS.Kernel.UserMemory
open FudanOS.Kernel.Copyout
open FudanOS.Kernel.ExecStack

/-! ## The stack which is left -/

/-- `USERTOP - newsp` -/
def stackBytes (argv envp : Option (List CString)) : Nat :=
  userTop.toNat - stackPointer argv envp

/-- The stack with its last pages mapped. -/
structure Ready
    (memory : Memory)
    (argv envp : Option (List CString))
    (after : Memory)
    (sp stksz : Word) : Prop where
  distinct : Distinct after
  address : sp.toNat = stackPointer argv envp
  decodes : Decodes (view after) sp.toNat (taken argv) (taken envp)
  size : stksz.toNat % stackUnit.toNat = 0
  bounded : stksz.toNat < stackBytes argv envp + stackUnit.toNat
  /-- The condition of the `ASSERT`. -/
  inside : userTop.toNat - stksz.toNat < sp.toNat
  mapped :
    ∀ address, InRange (userTop.toNat - stksz.toNat) stksz.toNat address →
      Mapped after address
  keeps :
    Keeps memory (userTop.toNat - stksz.toNat) stksz.toNat after

theorem decodes_kept
    {memory after : Memory}
    {sp start length : Nat}
    {argv envp : List CString}
    (decodes : Decodes (view memory) sp argv envp)
    (keeps : Keeps memory start length after)
    (apart : start + length ≤ sp) :
    Decodes (view after) sp argv envp := by
  rcases decodes with ⟨aligned, arguments, environment, words, first, second⟩
  refine ⟨aligned, arguments, environment,
    keeps.lies words (Or.inr apart), ?_, ?_⟩
  · apply first.imp
    intro pointer string isString
    exact isString.kept keeps (Nat.le_refl _) (by omega)
  · apply second.imp
    intro pointer string isString
    exact isString.kept keeps (Nat.le_refl _) (by omega)

/-- The number of bytes which are mapped, as the code computes it. -/
theorem toNat_stksz
    {sp : Word}
    (below : sp.toNat ≤ userTop.toNat) :
    ((userTop - sp + stackUnit - 1) / stackUnit * stackUnit).toNat =
      (userTop.toNat - sp.toNat + 40959) / 40960 * 40960 := by
  have top : userTop.toNat = 2 ^ 48 := rfl
  have unit : stackUnit.toNat = 40960 := rfl
  have gap : (userTop - sp).toNat = userTop.toNat - sp.toNat := by
    rw [BitVec.toNat_sub_of_le]
    rw [BitVec.le_def]
    exact below
  have sum :
      (userTop - sp + stackUnit - 1).toNat =
        userTop.toNat - sp.toNat + 40959 := by
    rw [BitVec.toNat_sub, BitVec.toNat_add, gap, unit]
    change (2 ^ 64 - 1 + (userTop.toNat - sp.toNat + 40960) % 2 ^ 64) %
      2 ^ 64 = _
    omega
  rw [BitVec.toNat_mul, BitVec.toNat_udiv, sum, unit]
  omega

/-- What the last call of `copyout` and the `ASSERT` do. -/
theorem mapStack_eq
    {memory : Memory}
    {sp : Word}
    (distinct : Distinct memory)
    (below : sp.toNat ≤ userTop.toNat)
    (room : userTop.toNat - sp.toNat + 40960 ≤ userTop.toNat)
    (enough : 48 ≤ memory.table.supply.length) :
    ∃ after stksz,
      (userTop.toNat - sp.toNat + 40959) / 40960 * 40960 = stksz.toNat ∧
        mapStack memory sp =
          (if (userTop.toNat - sp.toNat) % 40960 = 0 then
            .error .assertion
          else
            .ok (after, stksz)) ∧
        Distinct after ∧
        Keeps memory (userTop.toNat - stksz.toNat)
          (stksz.toNat - (userTop.toNat - sp.toNat)) after ∧
        ∀ address,
          InRange (userTop.toNat - stksz.toNat)
              (stksz.toNat - (userTop.toNat - sp.toNat)) address →
            Mapped after address := by
  have top : userTop.toNat = 2 ^ 48 := rfl
  have size := toNat_stksz below
  generalize computed :
    (userTop - sp + stackUnit - 1) / stackUnit * stackUnit = stksz at size
  have start :
      (userTop - stksz).toNat = userTop.toNat - stksz.toNat := by
    rw [BitVec.toNat_sub_of_le]
    rw [BitVec.le_def]
    omega
  have used : (userTop - sp).toNat = userTop.toNat - sp.toNat := by
    rw [BitVec.toNat_sub_of_le]
    rw [BitVec.le_def]
    exact below
  have gap :
      (stksz - (userTop - sp)).toNat =
        stksz.toNat - (userTop.toNat - sp.toNat) := by
    rw [BitVec.toNat_sub_of_le, used]
    rw [BitVec.le_def, used]
    omega
  have pages :=
    pagesOf_le (userTop.toNat - stksz.toNat)
      (stksz.toNat - (userTop.toNat - sp.toNat))
  have small :
      (stksz.toNat - (userTop.toNat - sp.toNat)) / 4096 ≤ 9 := by
    omega
  rcases
    @copyoutOr_writes memory (userTop - stksz) (stksz - (userTop - sp)) none
      distinct
      (by
        rw [start, gap]
        omega)
      (by
        rw [start, gap]
        omega) with
    ⟨after, copied, distinct, writes, -⟩
  rw [start, gap] at writes
  refine ⟨after, stksz, size.symm, ?_, distinct, writes.keeps, ?_⟩
  · unfold mapStack
    dsimp only
    rw [computed, copied, ok_bind]
    have order :
        userTop - stksz < sp ↔ userTop.toNat - stksz.toNat < sp.toNat := by
      rw [BitVec.lt_def, start]
    by_cases full : (userTop.toNat - sp.toNat) % 40960 = 0
    · rw [if_pos full, if_neg (by
        rw [order]
        omega)]
      rfl
    · rw [if_neg full, if_pos (by
        rw [order]
        omega)]
      rfl
  · intro address inside
    have written := writes.stores.written
      (address - (userTop.toNat - stksz.toNat)) (by
        unfold InRange at inside
        omega)
    rw [Nat.add_sub_cancel' inside.1] at written
    unfold Mapped
    rw [written]
    exact Option.some_ne_none _

/--
The stack can be set up if and only if the bytes down to `newsp`, which only
the lengths of the strings decide, are no multiple of ten pages.  Otherwise
the last `ASSERT` fails.
-/
theorem setUpStack_iff
    (memory : Memory)
    (argv envp : Option (List CString))
    (distinct : Distinct memory)
    (room : blockSize argv envp + 16 + 40960 ≤ userTop.toNat)
    (enough :
      4 * (blockSize argv envp / 4096 + 54) ≤
        memory.table.supply.length) :
    (stackBytes argv envp % 40960 ≠ 0 →
        ∃ after sp stksz,
          setUpStack memory argv envp = .ok (after, sp, stksz) ∧
            Ready memory argv envp after sp stksz) ∧
      (stackBytes argv envp % 40960 = 0 →
        setUpStack memory argv envp = .error .assertion) := by
  have top : userTop.toNat = 2 ^ 48 := rfl
  have unit : stackUnit.toNat = 40960 := rfl
  rcases pushArguments_builds distinct argv envp (by omega) (by omega) with
    ⟨middle, sp, ran, builds⟩
  have address := builds.address
  have spent := builds.spent
  have bytes :
      userTop.toNat - sp.toNat = stackBytes argv envp := by
    unfold stackBytes
    rw [address]
  have bounds :
      sp.toNat ≤ userTop.toNat ∧
        userTop.toNat - sp.toNat ≤ blockSize argv envp + 15 := by
    unfold stackPointer at address
    omega
  rcases mapStack_eq builds.distinct bounds.1 (by omega) (by omega) with
    ⟨after, stksz, size, mapped, distinctAfter, keeps, there⟩
  rw [bytes] at size mapped keeps there
  have all :
      setUpStack memory argv envp =
        if stackBytes argv envp % 40960 = 0 then
          .error .assertion
        else
          .ok (after, sp, stksz) := by
    unfold setUpStack
    rw [ran, ok_bind]
    dsimp only
    rw [mapped]
    by_cases full : stackBytes argv envp % 40960 = 0
    · rw [if_pos full, if_pos full]
      rfl
    · rw [if_neg full, if_neg full]
      rfl
  constructor
  · intro free
    rw [if_neg free] at all
    refine ⟨after, sp, stksz, all, distinctAfter, address, ?_, ?_, ?_, ?_,
      ?_, ?_⟩
    · exact decodes_kept builds.decodes keeps (by omega)
    · rw [unit, ← size]
      exact Nat.mul_mod_left _ _
    · rw [unit]
      omega
    · omega
    · intro other inside
      unfold InRange at inside there
      by_cases low : other < sp.toNat
      · exact there other (by omega)
      · apply keeps.mapped
        apply builds.mapped
        unfold InRange
        omega
    · apply (builds.keeps.mono _ _).trans (keeps.mono _ _) <;> omega
  · intro full
    rw [if_pos full] at all
    exact all

theorem setUpStack_iff_ls :
    ∃ table after sp stksz,
      PageTable.initPgdir (fun _ => 0x55) (freePages 256) = .ok table ∧
        setUpStack { table := table, bytes := fun _ => 0xAA } (some [ls])
            none =
          .ok (after, sp, stksz) ∧
        Ready { table := table, bytes := fun _ => 0xAA } (some [ls]) none
          after sp stksz := by
  rcases @exists_new 256 (by decide) (by decide) (fun _ => 0x55)
    (fun _ => 0xAA) with ⟨table, made, length, distinct, -⟩
  rcases
    (setUpStack_iff { table := table, bytes := fun _ => 0xAA } (some [ls])
      none distinct (by decide) (by
        change 216 ≤ table.supply.length
        omega)).1 (by decide) with
    ⟨after, sp, stksz, ran, ready⟩
  exact ⟨table, after, sp, stksz, made, ran, ready⟩

end FudanOS.Kernel.StackSize
