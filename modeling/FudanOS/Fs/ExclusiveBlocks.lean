import FudanOS.Fs.BlockExclusion
import Mathlib.Data.Fintype.Basic

/-!
# One block, one holder, no use after free

What threads may rely on while the block cache runs, as long as no miss meets
another load of its block number and no miss evicts a handed-over block.  Both
conditions are needed: two threads can miss on the same block number at once,
and `cache_release` clears `acquired` although the next holder is waiting.
-/

namespace FudanOS.Fs.ExclusiveBlocks

open FudanOS.Fs.Defines
open FudanOS.Fs.ConcurrentCache
open FudanOS.Fs.CacheOwnership
open FudanOS.Fs.BlockExclusion
open FudanOS.Library.Runs

variable {Thread : Type} [DecidableEq Thread]

/-- Every block number has one `Block` and one holder, who sees the latest. -/
structure Exclusive (state : State Thread) : Prop where
  oneBlock :
    ∀ left right, Live state left → Live state right →
      (state.blocks left).blockNo = (state.blocks right).blockNo →
        left = right
  oneHolder :
    ∀ left ∈ state.holders, ∀ right ∈ state.holders,
      (state.blocks left.2).blockNo = (state.blocks right.2).blockNo →
        left = right
  once : state.holders.Nodup
  seen :
    ∀ holder ∈ state.holders,
      (state.blocks holder.2).data =
        state.latest (state.blocks holder.2).blockNo

/-- No `Block` which is held, awaited or pinned has been freed. -/
structure Spared (state : State Thread) : Prop where
  held : ∀ holder ∈ state.holders, holder.2 ∉ state.freed
  awaited :
    ∀ thread block,
      state.pc thread = .found block ∨ state.pc thread = .sleeping block ∨
          state.pc thread = .granted block →
        block ∉ state.freed
  pinned :
    ∀ block, (state.blocks block).pinned = true → block ∉ state.freed

omit [DecidableEq Thread] in
theorem Sound.exclusive
    {state : State Thread}
    (sound : Sound state) :
    Exclusive state := by
  rcases sound with ⟨owner, locked, -, kept⟩
  have own :
      ∀ holder ∈ state.holders,
        owner holder.2 = some (holder.1, .held) :=
    fun holder member =>
      (locked.owned.agrees _ _ _).mpr (Or.inr ⟨rfl, member⟩)
  have live : ∀ holder ∈ state.holders, Live state holder.2 :=
    fun holder member =>
      ⟨locked.bounded.held holder member,
        kept.spared_of_owner (own holder member)⟩
  constructor
  · exact kept.unique
  · intro left memberLeft right memberRight sameName
    have sameBlock :=
      kept.unique left.2 right.2 (live left memberLeft)
        (live right memberRight) sameName
    have sameOwner := own left memberLeft
    rw [sameBlock, own right memberRight] at sameOwner
    simp only [Option.some.injEq, Prod.mk.injEq, and_true] at sameOwner
    exact Prod.ext sameOwner.symm sameBlock
  · exact locked.owned.nodup
  · intro holder member
    refine kept.current holder.2 (live holder member) ?_
    simp [own holder member]

omit [DecidableEq Thread] in
theorem Sound.spared
    {state : State Thread}
    (sound : Sound state) :
    Spared state := by
  rcases sound with ⟨owner, locked, -, kept⟩
  constructor
  · intro holder member
    have own := (locked.owned.agrees _ _ _).mpr (Or.inr ⟨rfl, member⟩)
    exact kept.spared_of_owner own
  · rintro thread block (found | asleep | granted)
    · exact kept.spared_of_inUse (Or.inr ⟨thread, found⟩)
    · refine kept.spared_of_inUse (Or.inl ?_)
      intro vacant
      have member := ((locked.lock block).sleepers thread).mpr asleep
      simp [((locked.lock block).vacant vacant).2] at member
    · have own :=
        (locked.owned.agrees thread .granted block).mpr
          (Or.inl (by rw [granted]; rfl))
      exact kept.spared_of_owner own
  · intro block pinned member
    simp [(kept.freed block member).2.2] at pinned

instance decidableMissesAlone
    [Fintype Thread]
    (state : State Thread)
    (label : Label Thread) :
    Decidable (MissesAlone state label) :=
  match label with
  | .search _ blockNo =>
      inferInstanceAs
        (Decidable
          (state.lookup blockNo = none →
            ∀ other, ∀ block ∈ loads (state.pc other),
              (state.blocks block).blockNo ≠ blockNo))
  | .wait _ => inferInstanceAs (Decidable True)
  | .moveToFront _ => inferInstanceAs (Decidable True)
  | .deviceRead _ => inferInstanceAs (Decidable True)
  | .insert _ => inferInstanceAs (Decidable True)
  | .release _ _ => inferInstanceAs (Decidable True)
  | .sync _ _ => inferInstanceAs (Decidable True)
  | .modify _ _ _ => inferInstanceAs (Decidable True)

omit [DecidableEq Thread] in
instance decidableSparesHandovers
    (state : State Thread)
    (label : Label Thread) :
    Decidable (SparesHandovers state label) :=
  match label with
  | .search _ blockNo =>
      inferInstanceAs
        (Decidable
          (state.lookup blockNo = none →
            ∀ block ∈ state.head, state.handed block = true →
              (state.blocks block).pinned = true ∨
                state.blockNum <
                  evictionThreshold +
                    (Eviction.older state.head block).countP
                      state.evictable))
  | .wait _ => inferInstanceAs (Decidable True)
  | .moveToFront _ => inferInstanceAs (Decidable True)
  | .deviceRead _ => inferInstanceAs (Decidable True)
  | .insert _ => inferInstanceAs (Decidable True)
  | .release _ _ => inferInstanceAs (Decidable True)
  | .sync _ _ => inferInstanceAs (Decidable True)
  | .modify _ _ _ => inferInstanceAs (Decidable True)

omit [DecidableEq Thread] in
theorem careful_sound
    [Fintype Thread]
    (state : State Thread)
    (label : Label Thread)
    (checked :
      (decide (MissesAlone state label) &&
        decide (SparesHandovers state label)) = true) :
    Careful state label := by
  simpa [Careful] using checked

/-- A thread writes to a block for which another one waits. -/
def passOn : List (Label (Fin 2)) :=
  [.search 0 5, .deviceRead 0, .insert 0, .search 1 5, .wait 1,
    .modify 0 0 (fun _ => 7), .release 0 0, .moveToFront 1]

/-- Two threads miss on block 5 before either has inserted it. -/
def doubleMiss : List (Label (Fin 2)) :=
  [.search 0 5, .search 1 5, .deviceRead 0, .deviceRead 1, .insert 0,
    .insert 1]

/-- No block in use is freed in any state of a run of careful steps. -/
theorem blocks_in_use_spared
    {disk : Disk}
    {labels : List (Label Thread)}
    {state : State Thread}
    (run :
      Run (Takes (step disk)) Careful (State.init disk) labels state) :
    Spared state := by
  exact Sound.spared (sound_run run)

/-- A thread acquires a block, the number of which is not yet cached. -/
def load (blockNo : BlockNo) : List (Label (Fin 3)) :=
  [.search 0 blockNo, .deviceRead 0, .insert 0]

/-- Thread 0 keeps block 0 and fills the cache with idle blocks. -/
def fill : List (Label (Fin 3)) :=
  load 0 ++
    (List.range 19).flatMap fun index =>
      load (UInt64.ofNat (index + 1)) ++ [.release 0 (index + 1)]

/-- A full cache evicts the oldest idle block, and spares the held one. -/
theorem blocks_in_use_spared_full :
    ∃ state : State (Fin 3),
      Run (Takes (step fun _ _ => 0)) Careful (State.init fun _ _ => 0)
          (fill ++ [.search 2 100]) state ∧
        state.freed = [1] ∧ state.holders = [(0, 0)] ∧
        Spared state := by
  have computed :
      ((executeChecked (step fun _ _ => 0)
        (fun state label =>
          decide (MissesAlone state label) &&
            decide (SparesHandovers state label))
        (State.init fun _ _ => 0) (fill ++ [.search 2 100])).map
          fun state => (state.freed, state.holders)) =
        some ([1], [(0, 0)]) := by
    decide +kernel
  rcases Option.map_eq_some_iff.mp computed with ⟨state, executed, fields⟩
  have run := Run.of_executeChecked careful_sound executed
  simp only [Prod.mk.injEq] at fields
  exact ⟨state, run, fields.1, fields.2, blocks_in_use_spared run⟩

/-- Thread 1 waits for block 0; its holder hands it over before a miss. -/
def handover : List (Label (Fin 3)) :=
  fill ++ [.search 1 0, .wait 1, .release 0 0, .search 2 100]

/-- A miss frees the block whose lock has just been handed to a waiter. -/
theorem handover_frees_block_in_use :
    ¬ ∀ (disk : Disk) (labels : List (Label (Fin 3)))
        (state : State (Fin 3)),
        Run (Takes (step disk)) MissesAlone (State.init disk) labels
            state →
          Spared state := by
  intro claimed
  have computed :
      ((executeChecked (step fun _ _ => 0)
        (fun state label => decide (MissesAlone state label))
        (State.init fun _ _ => 0) handover).map
          fun state => (state.freed, state.pc 1)) =
        some ([0], .granted 0) := by
    decide +kernel
  rcases Option.map_eq_some_iff.mp computed with ⟨state, executed, fields⟩
  have run :=
    Run.of_executeChecked (fun _ _ => of_decide_eq_true) executed
  simp only [Prod.mk.injEq] at fields
  have spared := claimed _ _ _ run
  have kept := spared.awaited 1 0 (Or.inr (Or.inr fields.2))
  simp [fields.1] at kept

end FudanOS.Fs.ExclusiveBlocks
