import FudanOS.Fs.ConcurrentCache

/-!
# Who owns the lock of a cached block

In every reachable state of the interleaved block cache the sleep lock of a
block has at most one owner: the thread which allocated the block, the thread
to which the lock was handed, or the thread to which `cache_acquire` returned
the block.  `Locked` says this of a map from blocks to owners, and each step
moves that map.
-/

namespace FudanOS.Fs.CacheOwnership

open FudanOS.Fs.Defines
open FudanOS.Fs.Eviction
open FudanOS.Fs.ConcurrentCache
open FudanOS.Library.Runs

/-- How a thread owns the lock of a block. -/
inductive Phase where
  | granted
  | loading
  | loaded
  | held
  deriving DecidableEq

/-- The block whose lock a thread owns inside `cache_acquire`. -/
def owned : Pc → Option (Phase × Nat)
  | .granted block => some (.granted, block)
  | .loading block => some (.loading, block)
  | .loaded block => some (.loaded, block)
  | _ => none

theorem owned_ne_held
    {position : Pc}
    {phase : Phase}
    {block : Nat}
    (owns : owned position = some (phase, block)) :
    phase ≠ .held := by
  rintro rfl
  cases position <;> simp [owned] at owns

variable {Thread : Type} [DecidableEq Thread]

/-- The lock of the block belongs to the thread. -/
def Owns
    (pc : Thread → Pc)
    (holders : List (Thread × Nat))
    (thread : Thread)
    (phase : Phase)
    (block : Nat) : Prop :=
  owned (pc thread) = some (phase, block) ∨
    phase = .held ∧ (thread, block) ∈ holders

/-- Every lock has at most one owner, and `owner` is that thread. -/
structure Owned
    (pc : Thread → Pc)
    (holders : List (Thread × Nat))
    (owner : Nat → Option (Thread × Phase)) : Prop where
  agrees :
    ∀ thread phase block,
      owner block = some (thread, phase) ↔
        Owns pc holders thread phase block
  nodup : holders.Nodup

namespace Owned

variable
    {pc : Thread → Pc}
    {holders : List (Thread × Nat)}
    {owner : Nat → Option (Thread × Phase)}
    {thread : Thread}
    {phase : Phase}
    {block : Nat}
    {position : Pc}

/-- A thread without a lock in its hands moves on without one. -/
theorem neutral
    (locks : Owned pc holders owner)
    (before : owned (pc thread) = none)
    (after : owned position = none) :
    Owned (Function.update pc thread position) holders owner := by
  refine ⟨?_, locks.nodup⟩
  intro other otherPhase otherBlock
  rw [locks.agrees]
  unfold Owns
  by_cases same : other = thread
  · subst same
    rw [Function.update_self, before, after]
  · rw [Function.update_of_ne same]

/-- A thread takes a lock which nobody owns. -/
theorem acquire
    (locks : Owned pc holders owner)
    (before : owned (pc thread) = none)
    (after : owned position = some (phase, block))
    (vacant : owner block = none) :
    Owned (Function.update pc thread position) holders
      (Function.update owner block (some (thread, phase))) := by
  refine ⟨?_, locks.nodup⟩
  intro other otherPhase otherBlock
  have earlier := locks.agrees other otherPhase otherBlock
  unfold Owns at earlier ⊢
  by_cases sameBlock : otherBlock = block
  · subst sameBlock
    rw [vacant] at earlier
    rw [Function.update_self]
    by_cases same : other = thread
    · subst same
      rw [Function.update_self, after]
      grind
    · rw [Function.update_of_ne same]
      grind
  · rw [Function.update_of_ne sameBlock, earlier]
    by_cases same : other = thread
    · subst same
      rw [Function.update_self, after, before]
      grind
    · rw [Function.update_of_ne same]

/-- A thread which owns a lock inside `cache_acquire` gives it up. -/
theorem leave
    (locks : Owned pc holders owner)
    (before : owned (pc thread) = some (phase, block))
    (after : owned position = none) :
    Owned (Function.update pc thread position) holders
      (Function.update owner block none) := by
  have own : owner block = some (thread, phase) :=
    (locks.agrees _ _ _).mpr (Or.inl before)
  have inside := owned_ne_held before
  refine ⟨?_, locks.nodup⟩
  intro other otherPhase otherBlock
  have earlier := locks.agrees other otherPhase otherBlock
  unfold Owns at earlier ⊢
  by_cases sameBlock : otherBlock = block
  · subst sameBlock
    rw [own] at earlier
    rw [Function.update_self]
    by_cases same : other = thread
    · subst same
      rw [Function.update_self, after]
      grind
    · rw [Function.update_of_ne same]
      grind
  · rw [Function.update_of_ne sameBlock, earlier]
    by_cases same : other = thread
    · subst same
      rw [Function.update_self, after, before]
      grind
    · rw [Function.update_of_ne same]

omit [DecidableEq Thread] in
/-- A thread becomes the holder of a block which nobody owns. -/
theorem hold
    (locks : Owned pc holders owner)
    (vacant : owner block = none) :
    Owned pc ((thread, block) :: holders)
      (Function.update owner block (some (thread, .held))) := by
  have earlier := fun other otherPhase => locks.agrees other otherPhase block
  unfold Owns at earlier
  refine ⟨?_, ?_⟩
  · intro other otherPhase otherBlock
    have before := locks.agrees other otherPhase otherBlock
    unfold Owns at before ⊢
    by_cases sameBlock : otherBlock = block
    · subst sameBlock
      rw [Function.update_self]
      grind
    · rw [Function.update_of_ne sameBlock, before]
      grind
  · refine List.nodup_cons.mpr ⟨?_, locks.nodup⟩
    intro member
    have own := (earlier thread .held).mpr (Or.inr ⟨rfl, member⟩)
    simp [vacant] at own

/-- The holder of a block gives its lock up. -/
theorem release
    (locks : Owned pc holders owner)
    (member : (thread, block) ∈ holders) :
    Owned pc (holders.erase (thread, block))
      (Function.update owner block none) := by
  have own : owner block = some (thread, .held) :=
    (locks.agrees _ _ _).mpr (Or.inr ⟨rfl, member⟩)
  refine ⟨?_, locks.nodup.erase _⟩
  intro other otherPhase otherBlock
  have earlier := locks.agrees other otherPhase otherBlock
  unfold Owns at earlier ⊢
  rw [locks.nodup.mem_erase_iff]
  by_cases sameBlock : otherBlock = block
  · subst sameBlock
    rw [own] at earlier
    rw [Function.update_self]
    grind [owned_ne_held]
  · rw [Function.update_of_ne sameBlock, earlier]
    grind

end Owned

/-- The sleep lock of a block agrees with its owner and its sleepers. -/
structure LockOk
    (lock : Block Thread)
    (owner : Option (Thread × Phase))
    (sleeps : Thread → Prop) : Prop where
  sleepers : ∀ thread, thread ∈ lock.sleeplist ↔ sleeps thread
  nodup : lock.sleeplist.Nodup
  value : owner ≠ none → lock.val = -(lock.sleeplist.length : Int)
  vacant : owner = none → lock.val = 1 ∧ lock.sleeplist = []

/-- The block which a thread refers to inside `cache_acquire`. -/
def refers : Pc → Option Nat
  | .idle => none
  | .found block => some block
  | .sleeping block => some block
  | .granted block => some block
  | .loading block => some block
  | .loaded block => some block

/-- Nothing refers to an address which `kalloc` has not returned yet. -/
structure Bounded (state : State Thread) : Prop where
  referred :
    ∀ thread block,
      refers (state.pc thread) = some block → block < state.next
  held : ∀ holder ∈ state.holders, holder.2 < state.next
  listed : ∀ block ∈ state.head, block < state.next

/-- The locks of all blocks, with their owners. -/
structure Locked
    (state : State Thread)
    (owner : Nat → Option (Thread × Phase)) : Prop where
  owned : Owned state.pc state.holders owner
  lock :
    ∀ block,
      LockOk (state.blocks block) (owner block)
        fun thread => state.pc thread = .sleeping block
  bounded : Bounded state

namespace LockOk

variable
    {lock : Block Thread}
    {owner : Option (Thread × Phase)}
    {sleeps : Thread → Prop}

omit [DecidableEq Thread]

/-- Only the value, the sleepers and the presence of an owner matter. -/
theorem congr
    {other : Block Thread}
    {otherOwner : Option (Thread × Phase)}
    {otherSleeps : Thread → Prop}
    (ok : LockOk lock owner sleeps)
    (val : other.val = lock.val)
    (sleeplist : other.sleeplist = lock.sleeplist)
    (presence : otherOwner = none ↔ owner = none)
    (same : ∀ thread, otherSleeps thread ↔ sleeps thread) :
    LockOk other otherOwner otherSleeps := by
  refine ⟨?_, ?_, ?_, ?_⟩
  · intro thread
    rw [sleeplist, same]
    exact ok.sleepers thread
  · rw [sleeplist]
    exact ok.nodup
  · intro isOwned
    rw [val, sleeplist]
    exact ok.value fun absent => isOwned (presence.mpr absent)
  · intro absent
    rw [val, sleeplist]
    exact ok.vacant (presence.mp absent)

end LockOk

/-- A thread which neither slept nor sleeps on a block leaves its sleepers. -/
theorem sleeping_update
    {pc : Thread → Pc}
    {thread : Thread}
    {position : Pc}
    {block : Nat}
    (before : pc thread ≠ .sleeping block)
    (after : position ≠ .sleeping block)
    (other : Thread) :
    Function.update pc thread position other = .sleeping block ↔
      pc other = .sleeping block := by
  by_cases same : other = thread
  · subst same
    simp [before, after]
  · rw [Function.update_of_ne same]

section Moves

variable
    {disk : Disk}
    {state : State Thread}
    {owner : Nat → Option (Thread × Phase)}
    {thread : Thread}
    {block : Nat}

omit [DecidableEq Thread] in
theorem Locked.vacant_of_le
    (locked : Locked state owner)
    (fresh : state.next ≤ block) :
    owner block = none := by
  by_contra taken
  rcases Option.ne_none_iff_exists'.mp taken with ⟨⟨other, phase⟩, own⟩
  rcases (locked.owned.agrees _ _ _).mp own with inside | ⟨-, member⟩
  · have refersTo : refers (state.pc other) = some block := by
      cases position : state.pc other <;>
        simp_all [CacheOwnership.owned, refers]
    exact absurd (locked.bounded.referred _ _ refersTo) (Nat.not_lt.mpr fresh)
  · exact absurd (locked.bounded.held _ member) (Nat.not_lt.mpr fresh)

omit [DecidableEq Thread] in
/-- One block and its owner change; the sleepers of the others stay. -/
theorem Locked.lock_update
    (locked : Locked state owner)
    {pc : Thread → Pc}
    {lock : Block Thread}
    {newOwner : Option (Thread × Phase)}
    (ok : LockOk lock newOwner fun other => pc other = .sleeping block)
    (others :
      ∀ otherBlock, otherBlock ≠ block → ∀ other,
        (pc other = .sleeping otherBlock ↔
          state.pc other = .sleeping otherBlock))
    (otherBlock : Nat) :
    LockOk (Function.update state.blocks block lock otherBlock)
      (Function.update owner block newOwner otherBlock)
      fun other => pc other = .sleeping otherBlock := by
  by_cases same : otherBlock = block
  · subst same
    simpa using ok
  · rw [Function.update_of_ne same, Function.update_of_ne same]
    exact (locked.lock otherBlock).congr rfl rfl Iff.rfl (others _ same)

omit [DecidableEq Thread] in
/-- One block changes, the owners stay. -/
theorem Locked.lock_update_block
    (locked : Locked state owner)
    {pc : Thread → Pc}
    {lock : Block Thread}
    (ok : LockOk lock (owner block) fun other => pc other = .sleeping block)
    (others :
      ∀ otherBlock, otherBlock ≠ block → ∀ other,
        (pc other = .sleeping otherBlock ↔
          state.pc other = .sleeping otherBlock))
    (otherBlock : Nat) :
    LockOk (Function.update state.blocks block lock otherBlock)
      (owner otherBlock)
      fun other => pc other = .sleeping otherBlock := by
  have updated := locked.lock_update ok others otherBlock
  rwa [Function.update_eq_self] at updated

theorem Bounded.move
    (bounded : Bounded state)
    {position : Pc}
    {next : Nat}
    (grows : state.next ≤ next)
    (below : ∀ target, refers position = some target → target < next) :
    ∀ other target,
      refers (Function.update state.pc thread position other) =
        some target → target < next := by
  intro other target refersTo
  by_cases same : other = thread
  · subst same
    rw [Function.update_self] at refersTo
    exact below target refersTo
  · rw [Function.update_of_ne same] at refersTo
    exact Nat.lt_of_lt_of_le (bounded.referred _ _ refersTo) grows

theorem locked_hit
    (locked : Locked state owner)
    (idle : state.pc thread = .idle)
    (member : block ∈ state.head) :
    Locked (state.hit thread block) owner where
  owned := by
    exact locked.owned.neutral (by rw [idle]; rfl) rfl
  lock := by
    refine locked.lock_update_block ?_ ?_
    · refine (locked.lock block).congr rfl rfl Iff.rfl ?_
      exact sleeping_update (by simp [idle]) (by simp)
    · intro other _
      exact sleeping_update (by simp [idle]) (by simp)
  bounded := by
    refine ⟨?_, locked.bounded.held, locked.bounded.listed⟩
    refine locked.bounded.move le_rfl ?_
    intro target refersTo
    cases refersTo
    exact locked.bounded.listed _ member

theorem locked_miss
    (locked : Locked state owner)
    {blockNo : BlockNo}
    (idle : state.pc thread = .idle) :
    Locked (state.miss thread blockNo)
      (Function.update owner state.next (some (thread, .loading))) where
  owned := by
    exact locked.owned.acquire (by rw [idle]; rfl) rfl
      (locked.vacant_of_le le_rfl)
  lock := by
    refine locked.lock_update ?_ ?_
    · have nobody :
          ∀ other, state.pc other ≠ .sleeping state.next := by
        intro other asleep
        have below := locked.bounded.referred other state.next
        simp [asleep, refers] at below
      refine ⟨?_, List.nodup_nil, by simp [freshBlock], by simp⟩
      intro other
      refine Iff.trans ?_
        (sleeping_update (by simp [idle]) (by simp) other).symm
      simp [freshBlock, nobody other]
    · intro other _
      exact sleeping_update (by simp [idle]) (by simp)
  bounded := by
    have below := locked.bounded
    refine ⟨?_, ?_, ?_⟩
    · refine below.move (Nat.le_succ _) ?_
      intro target refersTo
      cases refersTo
      exact Nat.lt_succ_self _
    · intro holder member
      exact Nat.lt_succ_of_lt (below.held holder member)
    · intro other member
      have present := (evict_spec _ _ _).sublist.subset member
      exact Nat.lt_succ_of_lt (below.listed other present)

omit [DecidableEq Thread] in
theorem Locked.vacant_of_free
    (locked : Locked state owner)
    (free : 0 ≤ (state.blocks block).val - 1) :
    owner block = none := by
  by_contra taken
  have value := (locked.lock block).value taken
  omega

theorem locked_take
    (locked : Locked state owner)
    (found : state.pc thread = .found block)
    (free : 0 ≤ (state.blocks block).val - 1) :
    Locked (state.take thread block)
      (Function.update owner block (some (thread, .granted))) := by
  have lock := locked.lock block
  have vacant := locked.vacant_of_free free
  rcases lock.vacant vacant with ⟨one, empty⟩
  constructor
  · exact locked.owned.acquire (by rw [found]; rfl) rfl vacant
  · refine locked.lock_update ?_ ?_
    · refine ⟨?_, lock.nodup, ?_, by simp⟩
      · intro other
        exact (lock.sleepers other).trans
          (sleeping_update (by simp [found]) (by simp) other).symm
      · intro _
        simp [one, empty]
    · intro other _
      exact sleeping_update (by simp [found]) (by simp)
  · refine ⟨?_, locked.bounded.held, locked.bounded.listed⟩
    refine locked.bounded.move le_rfl ?_
    intro target refersTo
    cases refersTo
    exact locked.bounded.referred thread block (by rw [found]; rfl)

theorem locked_sleep
    (locked : Locked state owner)
    (found : state.pc thread = .found block)
    (taken : ¬ 0 ≤ (state.blocks block).val - 1) :
    Locked (state.sleep thread block) owner := by
  have lock := locked.lock block
  have present : owner block ≠ none := by
    intro vacant
    rcases lock.vacant vacant with ⟨one, -⟩
    omega
  have awake : thread ∉ (state.blocks block).sleeplist := by
    rw [lock.sleepers, found]
    simp
  constructor
  · exact locked.owned.neutral (by rw [found]; rfl) rfl
  · refine locked.lock_update_block ?_ ?_
    · refine ⟨?_, ?_, ?_, ?_⟩
      · intro other
        by_cases same : other = thread
        · subst same
          simp [State.sleep]
        · simp [State.sleep, same, lock.sleepers]
      · simpa [List.nodup_append, lock.nodup] using
          fun other member (same : other = thread) => awake (same ▸ member)
      · intro _
        have value := lock.value present
        simp only [List.length_append, List.length_singleton]
        omega
      · intro vacant
        exact absurd vacant present
    · intro other different
      refine sleeping_update (by simp [found]) ?_
      simpa using Ne.symm different
  · refine ⟨?_, locked.bounded.held, locked.bounded.listed⟩
    refine locked.bounded.move le_rfl ?_
    intro target refersTo
    cases refersTo
    exact locked.bounded.referred thread block (by rw [found]; rfl)

theorem locked_enter
    (locked : Locked state owner)
    {phase : Phase}
    (inside : owned (state.pc thread) = some (phase, block))
    {others : List Nat}
    (subset : ∀ other ∈ others, other ∈ state.head) :
    Locked (state.enter thread block others)
      (Function.update owner block (some (thread, .held))) := by
  have own : owner block = some (thread, phase) :=
    (locked.owned.agrees _ _ _).mpr (Or.inl inside)
  have awake : ∀ other, state.pc thread ≠ .sleeping other := by
    intro other asleep
    simp [asleep, owned] at inside
  have refersTo : refers (state.pc thread) = some block := by
    cases position : state.pc thread <;>
      simp_all [CacheOwnership.owned, refers]
  have below := locked.bounded.referred thread block refersTo
  constructor
  · have left :
        Owned (Function.update state.pc thread .idle) state.holders
          (Function.update owner block none) :=
      locked.owned.leave inside rfl
    have held :
        Owned (Function.update state.pc thread .idle)
          ((thread, block) :: state.holders)
          (Function.update (Function.update owner block none) block
            (some (thread, .held))) :=
      left.hold (Function.update_self _ _ _)
    rwa [Function.update_idem] at held
  · intro other
    by_cases same : other = block
    · subst same
      refine (locked.lock other).congr rfl rfl (by simp [own]) ?_
      exact sleeping_update (awake _) (by simp)
    · rw [Function.update_of_ne same]
      refine (locked.lock other).congr rfl rfl Iff.rfl ?_
      exact sleeping_update (awake _) (by simp)
  · refine ⟨?_, ?_, ?_⟩
    · refine locked.bounded.move le_rfl ?_
      intro target absurdity
      cases absurdity
    · intro holder member
      rcases List.mem_cons.mp member with rfl | earlier
      · exact below
      · exact locked.bounded.held holder earlier
    · intro other member
      rcases List.mem_cons.mp member with rfl | earlier
      · exact below
      · exact locked.bounded.listed other (subset other earlier)

theorem locked_read
    (locked : Locked state owner)
    (loading : state.pc thread = .loading block) :
    Locked (state.read disk thread block)
      (Function.update owner block (some (thread, .loaded))) := by
  have own : owner block = some (thread, .loading) :=
    (locked.owned.agrees _ _ _).mpr (Or.inl (by rw [loading]; rfl))
  constructor
  · have left :
        Owned (Function.update state.pc thread .idle) state.holders
          (Function.update owner block none) :=
      locked.owned.leave (by rw [loading]; rfl) rfl
    have again :
        Owned
          (Function.update (Function.update state.pc thread .idle) thread
            (.loaded block))
          state.holders
          (Function.update (Function.update owner block none) block
            (some (thread, .loaded))) :=
      left.acquire (by simp [owned]) rfl (Function.update_self _ _ _)
    rwa [Function.update_idem, Function.update_idem] at again
  · refine locked.lock_update ?_ ?_
    · refine (locked.lock block).congr rfl rfl (by simp [own]) ?_
      exact sleeping_update (by simp [loading]) (by simp)
    · intro other _
      exact sleeping_update (by simp [loading]) (by simp)
  · refine ⟨?_, locked.bounded.held, locked.bounded.listed⟩
    refine locked.bounded.move le_rfl ?_
    intro target refersTo
    cases refersTo
    exact locked.bounded.referred thread block (by rw [loading]; rfl)

theorem locked_unlock
    (locked : Locked state owner)
    (holds : (thread, block) ∈ state.holders)
    (positive : ¬ (state.blocks block).val + 1 ≤ 0) :
    Locked (state.unlock thread block)
      (Function.update owner block none) := by
  have lock := locked.lock block
  have own : owner block = some (thread, .held) :=
    (locked.owned.agrees _ _ _).mpr (Or.inr ⟨rfl, holds⟩)
  have value := lock.value (by simp [own])
  have empty : (state.blocks block).sleeplist = [] :=
    List.eq_nil_of_length_eq_zero (by omega)
  constructor
  · exact locked.owned.release holds
  · refine locked.lock_update ?_ fun _ _ _ => Iff.rfl
    refine ⟨lock.sleepers, lock.nodup, by simp, ?_⟩
    intro _
    refine ⟨?_, empty⟩
    simp [value, empty]
  · refine ⟨locked.bounded.referred, ?_, locked.bounded.listed⟩
    intro holder member
    exact locked.bounded.held holder (List.mem_of_mem_erase member)

theorem locked_wake
    (locked : Locked state owner)
    (holds : (thread, block) ∈ state.holders)
    {first : Thread}
    {rest : List Thread}
    (waiting : (state.blocks block).sleeplist = first :: rest) :
    Locked (state.wake thread block first rest)
      (Function.update owner block (some (first, .granted))) := by
  have lock := locked.lock block
  have own : owner block = some (thread, .held) :=
    (locked.owned.agrees _ _ _).mpr (Or.inr ⟨rfl, holds⟩)
  have value := lock.value (by simp [own])
  have asleep : state.pc first = .sleeping block :=
    (lock.sleepers first).mp (by simp [waiting])
  have nodup : (first :: rest).Nodup := waiting ▸ lock.nodup
  constructor
  · have left := locked.owned.release holds
    have again :
        Owned (Function.update state.pc first (.granted block))
          (state.holders.erase (thread, block))
          (Function.update (Function.update owner block none) block
            (some (first, .granted))) :=
      left.acquire (by simp [asleep, owned]) rfl
        (Function.update_self _ _ _)
    rwa [Function.update_idem] at again
  · refine locked.lock_update ?_ ?_
    · refine ⟨?_, (List.nodup_cons.mp nodup).2, ?_, by simp⟩
      · intro other
        have sleepers := lock.sleepers other
        rw [waiting, List.mem_cons] at sleepers
        by_cases same : other = first
        · subst same
          simpa [State.wake] using (List.nodup_cons.mp nodup).1
        · simpa [State.wake, same] using sleepers
      · intro _
        rw [waiting, List.length_cons] at value
        simp only
        omega
    · intro other different
      refine sleeping_update ?_ (by simp)
      simpa [asleep] using Ne.symm different
  · refine ⟨?_, ?_, locked.bounded.listed⟩
    · refine locked.bounded.move le_rfl ?_
      intro target refersTo
      cases refersTo
      exact locked.bounded.referred first block (by rw [asleep]; rfl)
    · intro holder member
      exact locked.bounded.held holder (List.mem_of_mem_erase member)

omit [DecidableEq Thread] in
theorem locked_pin
    (locked : Locked state owner) :
    Locked (state.pin block) owner := by
  refine ⟨locked.owned, ?_, ⟨locked.bounded.referred, locked.bounded.held,
    locked.bounded.listed⟩⟩
  refine locked.lock_update_block ?_ fun _ _ _ => Iff.rfl
  exact (locked.lock block).congr rfl rfl Iff.rfl fun _ => Iff.rfl

omit [DecidableEq Thread] in
theorem locked_write
    (locked : Locked state owner)
    {data : BlockData} :
    Locked (state.write block data) owner := by
  refine ⟨locked.owned, ?_, ⟨locked.bounded.referred, locked.bounded.held,
    locked.bounded.listed⟩⟩
  refine locked.lock_update_block ?_ fun _ _ _ => Iff.rfl
  exact (locked.lock block).congr rfl rfl Iff.rfl fun _ => Iff.rfl

end Moves

end FudanOS.Fs.CacheOwnership
