import FudanOS.Fs.CacheOwnership

/-!
# Exclusive use of cached blocks

`Flagged` holds in every run: a block in use has its `acquired` flag set,
unless its last release handed the lock to a thread which had found it before.
`Kept` is about the list, the freed blocks and the data.  It holds as long as
no two threads load the same block number at once and no handed-over block is
reached by the eviction loop.
-/

namespace FudanOS.Fs.BlockExclusion

open FudanOS.Fs.Defines
open FudanOS.Fs.Eviction
open FudanOS.Fs.ConcurrentCache
open FudanOS.Fs.CacheOwnership
open FudanOS.Library.Runs

variable {Thread : Type} [DecidableEq Thread]

/-- The block which a thread is about to insert into the list. -/
def loads : Pc → Option Nat
  | .loading block => some block
  | .loaded block => some block
  | _ => none

/-- A miss on a block number which no other thread is loading. -/
def MissesAlone (state : State Thread) : Label Thread → Prop
  | .search _ blockNo =>
      state.lookup blockNo = none →
        ∀ other, ∀ block ∈ loads (state.pc other),
          (state.blocks block).blockNo ≠ blockNo
  | _ => True

/--
A miss while every block which was handed from its holder to a thread that
found it earlier is pinned, or has enough idle blocks behind it in the list.
-/
def SparesHandovers (state : State Thread) : Label Thread → Prop
  | .search _ blockNo =>
      state.lookup blockNo = none →
        ∀ block ∈ state.head, state.handed block = true →
          (state.blocks block).pinned = true ∨
            state.blockNum <
              evictionThreshold +
                (older state.head block).countP state.evictable
  | _ => True

/-- The owner has not yet inserted the block into the list. -/
def fresh : Option (Thread × Phase) → Bool
  | some (_, .loading) => true
  | some (_, .loaded) => true
  | _ => false

/-- Some thread owns the lock of the block or is about to wait for it. -/
def InUse
    (pc : Thread → Pc)
    (owner : Nat → Option (Thread × Phase))
    (block : Nat) : Prop :=
  owner block ≠ none ∨ ∃ thread, pc thread = .found block

/-- What the flags of a block say about its users. -/
structure Flagged
    (state : State Thread)
    (owner : Nat → Option (Thread × Phase)) : Prop where
  entrants :
    ∀ thread block,
      state.pc thread = .found block ∨ state.pc thread = .sleeping block →
        thread ∈ state.entrants block
  flagged :
    ∀ block, InUse state.pc owner block →
      (state.blocks block).acquired = true ∨ state.handed block = true

/-- Allocated and not freed. -/
def Live (state : State Thread) (block : Nat) : Prop :=
  block < state.next ∧ block ∉ state.freed

/-- The list, the freed blocks and the data. -/
structure Kept
    (state : State Thread)
    (owner : Nat → Option (Thread × Phase)) : Prop where
  nodup : state.head.Nodup
  listed :
    ∀ block,
      block ∈ state.head ↔ Live state block ∧ fresh (owner block) = false
  freed :
    ∀ block ∈ state.freed,
      block < state.next ∧ ¬ InUse state.pc owner block ∧
        (state.blocks block).pinned = false
  unique :
    ∀ left right, Live state left → Live state right →
      (state.blocks left).blockNo = (state.blocks right).blockNo →
        left = right
  current :
    ∀ block, Live state block →
      (∀ thread, owner block ≠ some (thread, .loading)) →
        (state.blocks block).data = state.latest (state.blocks block).blockNo

/-- A step of one thread at one block brings no other block into use. -/
theorem InUse.of_update
    {pc : Thread → Pc}
    {owner : Nat → Option (Thread × Phase)}
    {thread : Thread}
    {position : Pc}
    {block other : Nat}
    {value : Option (Thread × Phase)}
    (inUse :
      InUse (Function.update pc thread position)
        (Function.update owner block value) other)
    (different : other ≠ block)
    (elsewhere : position ≠ .found other) :
    InUse pc owner other := by
  unfold InUse at inUse ⊢
  rw [Function.update_of_ne different] at inUse
  refine inUse.imp_right ?_
  rintro ⟨user, found⟩
  by_cases same : user = thread
  · subst same
    rw [Function.update_self] at found
    exact absurd found elsewhere
  · rw [Function.update_of_ne same] at found
    exact ⟨user, found⟩

section Flags

variable
    {disk : Disk}
    {state : State Thread}
    {owner : Nat → Option (Thread × Phase)}
    {thread : Thread}
    {block : Nat}

/-- A thread moves to a position, and one block and its owner change. -/
structure Touches
    (state target : State Thread)
    (owner newOwner : Nat → Option (Thread × Phase))
    (thread : Thread)
    (position : Pc)
    (block : Nat) : Prop where
  pc : target.pc = Function.update state.pc thread position
  owner :
    ∃ value, newOwner = Function.update owner block value
  elsewhere : ∀ other, other ≠ block → position ≠ .found other

theorem flagged_of_touches
    {target : State Thread}
    {newOwner : Nat → Option (Thread × Phase)}
    {position : Pc}
    (flags : Flagged state owner)
    (touches : Touches state target owner newOwner thread position block)
    (others :
      ∀ other, other ≠ block →
        (target.blocks other).acquired = (state.blocks other).acquired ∧
          target.handed other = state.handed other)
    (keeps :
      ∀ other reached, other ≠ thread →
        other ∈ state.entrants reached → other ∈ target.entrants reached)
    (enters :
      ∀ reached, position = .found reached ∨ position = .sleeping reached →
        thread ∈ target.entrants reached)
    (here :
      InUse target.pc newOwner block →
        (target.blocks block).acquired = true ∨
          target.handed block = true) :
    Flagged target newOwner := by
  rcases touches with ⟨pc, ⟨value, owners⟩, elsewhere⟩
  constructor
  · intro other reached waits
    rw [pc] at waits
    by_cases mine : other = thread
    · subst mine
      rw [Function.update_self] at waits
      exact enters reached waits
    · rw [Function.update_of_ne mine] at waits
      exact keeps other reached mine (flags.entrants other reached waits)
  · intro other inUse
    by_cases same : other = block
    · subst same
      exact here inUse
    · rw [(others other same).1, (others other same).2]
      rw [pc, owners] at inUse
      exact flags.flagged other (inUse.of_update same (elsewhere other same))

theorem touches_hit (thread : Thread) (block : Nat) :
    Touches state (state.hit thread block) owner owner thread
      (.found block) block := by
  refine ⟨rfl, ⟨owner block, (Function.update_eq_self _ _).symm⟩, ?_⟩
  intro other different
  simpa using Ne.symm different

theorem touches_sleep (thread : Thread) (block : Nat) :
    Touches state (state.sleep thread block) owner owner thread
      (.sleeping block) block := by
  exact ⟨rfl, ⟨owner block, (Function.update_eq_self _ _).symm⟩, by simp⟩

theorem flagged_hit
    (flags : Flagged state owner) :
    Flagged (state.hit thread block) owner := by
  refine flagged_of_touches flags (touches_hit thread block) ?_ ?_ ?_ ?_
  · intro other different
    simp [State.hit, different]
  · intro other reached _ member
    by_cases same : reached = block
    · subst same
      simp [State.hit, member]
    · simp [State.hit, same, member]
  · intro reached found
    have same : block = reached := by simpa using found
    subst same
    simp [State.hit]
  · intro _
    simp [State.hit]

theorem flagged_miss
    (flags : Flagged state owner)
    {blockNo : BlockNo} :
    Flagged (state.miss thread blockNo)
      (Function.update owner state.next (some (thread, .loading))) := by
  refine flagged_of_touches flags ⟨rfl, ⟨_, rfl⟩, by simp⟩ ?_ ?_ ?_ ?_
  · intro other different
    simp [State.miss, different]
  · intro other reached _ member
    exact member
  · simp
  · intro _
    simp [State.miss, freshBlock]

theorem flagged_take
    (flags : Flagged state owner)
    (found : state.pc thread = .found block) :
    Flagged (state.take thread block)
      (Function.update owner block (some (thread, .granted))) := by
  refine flagged_of_touches flags ⟨rfl, ⟨_, rfl⟩, by simp⟩ ?_ ?_ ?_ ?_
  · intro other different
    simp [State.take, different]
  · intro other reached _ member
    exact member
  · simp
  · intro _
    simpa [State.take] using flags.flagged block (Or.inr ⟨thread, found⟩)

theorem flagged_sleep
    (flags : Flagged state owner)
    (found : state.pc thread = .found block) :
    Flagged (state.sleep thread block) owner := by
  refine flagged_of_touches flags (touches_sleep thread block) ?_ ?_ ?_ ?_
  · intro other different
    simp [State.sleep, different]
  · intro other reached _ member
    exact member
  · intro reached asleep
    have same : block = reached := by simpa using asleep
    subst same
    exact flags.entrants thread block (Or.inl found)
  · intro _
    simpa [State.sleep] using flags.flagged block (Or.inr ⟨thread, found⟩)

theorem flagged_enter
    (flags : Flagged state owner)
    (present : owner block ≠ none)
    {others : List Nat} :
    Flagged (state.enter thread block others)
      (Function.update owner block (some (thread, .held))) := by
  refine flagged_of_touches flags ⟨rfl, ⟨_, rfl⟩, by simp⟩ ?_ ?_ ?_ ?_
  · intro other different
    simp [State.enter]
  · intro other reached different member
    by_cases same : reached = block
    · subst same
      simpa [State.enter] using (List.mem_erase_of_ne different).mpr member
    · simp [State.enter, same, member]
  · simp
  · intro _
    exact flags.flagged block (Or.inl present)

theorem flagged_read
    (flags : Flagged state owner)
    (present : owner block ≠ none) :
    Flagged (state.read disk thread block)
      (Function.update owner block (some (thread, .loaded))) := by
  refine flagged_of_touches flags ⟨rfl, ⟨_, rfl⟩, by simp⟩ ?_ ?_ ?_ ?_
  · intro other different
    simp [State.read, different]
  · intro other reached _ member
    exact member
  · simp
  · intro _
    simpa [State.read] using flags.flagged block (Or.inl present)

theorem flagged_unlock
    (flags : Flagged state owner)
    (idle : state.pc thread = .idle) :
    Flagged (state.unlock thread block)
      (Function.update owner block none) := by
  refine flagged_of_touches flags
    ⟨(Function.update_eq_self thread state.pc).symm, ⟨_, rfl⟩,
      by simp [idle]⟩ ?_ ?_ ?_ ?_
  · intro other different
    simp [State.unlock, different]
  · intro other reached _ member
    exact member
  · simp [idle]
  · rintro (taken | ⟨other, found⟩)
    · simp at taken
    · have member := flags.entrants other block (Or.inl found)
      simp [State.unlock, List.ne_nil_of_mem member]

theorem flagged_wake
    (flags : Flagged state owner)
    {first : Thread}
    {rest : List Thread}
    (asleep : state.pc first = .sleeping block) :
    Flagged (state.wake thread block first rest)
      (Function.update owner block (some (first, .granted))) := by
  have member := flags.entrants first block (Or.inr asleep)
  refine flagged_of_touches flags ⟨rfl, ⟨_, rfl⟩, by simp⟩ ?_ ?_ ?_ ?_
  · intro other different
    simp [State.wake, different]
  · intro other reached _ present
    exact present
  · simp
  · intro _
    simp [State.wake, List.ne_nil_of_mem member]

omit [DecidableEq Thread] in
/-- The flags look only at `acquired`. -/
theorem flagged_congr
    (flags : Flagged state owner)
    {blocks : Nat → Block Thread}
    {latest : Disk}
    (acquired :
      ∀ other, (blocks other).acquired = (state.blocks other).acquired) :
    Flagged { state with blocks := blocks, latest := latest } owner := by
  refine ⟨flags.entrants, ?_⟩
  intro other inUse
  rw [acquired]
  exact flags.flagged other inUse

end Flags

section List

variable
    {disk : Disk}
    {state target : State Thread}
    {owner newOwner : Nat → Option (Thread × Phase)}
    {thread : Thread}
    {position : Pc}
    {block : Nat}

/-- A step at a block which was not freed frees nothing in use. -/
theorem kept_of_touches
    (kept : Kept state owner)
    (touches : Touches state target owner newOwner thread position block)
    (spared : block ∉ state.freed)
    (next : target.next = state.next)
    (freed : target.freed = state.freed)
    (names :
      ∀ other,
        (target.blocks other).blockNo = (state.blocks other).blockNo)
    (pins :
      ∀ other, other ≠ block →
        (target.blocks other).pinned = (state.blocks other).pinned)
    (nodup : target.head.Nodup)
    (listed :
      ∀ other,
        other ∈ target.head ↔
          Live state other ∧ fresh (newOwner other) = false)
    (current :
      ∀ other, Live state other →
        (∀ reader, newOwner other ≠ some (reader, .loading)) →
          (target.blocks other).data =
            target.latest (state.blocks other).blockNo) :
    Kept target newOwner := by
  have live : ∀ other, Live target other ↔ Live state other := by
    intro other
    unfold Live
    rw [next, freed]
  constructor
  · exact nodup
  · intro other
    rw [live]
    exact listed other
  · intro other member
    rw [freed] at member
    have different : other ≠ block := by
      rintro rfl
      exact spared member
    rcases kept.freed other member with ⟨below, unused, unpinned⟩
    rcases touches with ⟨pc, ⟨value, owners⟩, elsewhere⟩
    refine ⟨?_, ?_, ?_⟩
    · rwa [next]
    · rw [pc, owners]
      intro inUse
      exact unused (inUse.of_update different (elsewhere other different))
    · rwa [pins other different]
  · intro left right liveLeft liveRight sameName
    rw [names, names] at sameName
    exact kept.unique left right ((live left).mp liveLeft)
      ((live right).mp liveRight) sameName
  · intro other liveOther notLoading
    rw [names]
    exact current other ((live other).mp liveOther) notLoading

/-- A step which leaves the list up to its order, and all data. -/
theorem kept_of_quiet
    (kept : Kept state owner)
    (touches : Touches state target owner newOwner thread position block)
    (spared : block ∉ state.freed)
    (next : target.next = state.next)
    (freed : target.freed = state.freed)
    (names :
      ∀ other,
        (target.blocks other).blockNo = (state.blocks other).blockNo)
    (pins :
      ∀ other, other ≠ block →
        (target.blocks other).pinned = (state.blocks other).pinned)
    (data :
      ∀ other, (target.blocks other).data = (state.blocks other).data)
    (latest : target.latest = state.latest)
    (head : target.head.Perm state.head)
    (phases :
      newOwner block = owner block ∨
        fresh (owner block) = false ∧ fresh (newOwner block) = false) :
    Kept target newOwner := by
  have sameFresh : ∀ other, fresh (newOwner other) = fresh (owner other) := by
    intro other
    by_cases same : other = block
    · subst same
      rcases phases with unchanged | ⟨before, after⟩
      · rw [unchanged]
      · rw [before, after]
    · rcases touches.owner with ⟨value, owners⟩
      rw [owners, Function.update_of_ne same]
  refine kept_of_touches kept touches spared next freed names pins
    (head.nodup_iff.mpr kept.nodup) ?_ ?_
  · intro other
    rw [head.mem_iff, kept.listed, sameFresh]
  · intro other live notLoading
    rw [data, latest]
    refine kept.current other live ?_
    intro reader
    by_cases same : other = block
    · subst same
      rcases phases with unchanged | ⟨before, -⟩
      · rw [← unchanged]
        exact notLoading reader
      · intro loading
        simp [loading, fresh] at before
    · rcases touches.owner with ⟨value, owners⟩
      have unchanged := notLoading reader
      rwa [owners, Function.update_of_ne same] at unchanged

omit [DecidableEq Thread] in
theorem Kept.spared_of_inUse
    (kept : Kept state owner)
    (inUse : InUse state.pc owner block) :
    block ∉ state.freed := by
  intro member
  exact (kept.freed block member).2.1 inUse

omit [DecidableEq Thread] in
theorem Kept.spared_of_owner
    (kept : Kept state owner)
    {phase : Phase}
    (own : owner block = some (thread, phase)) :
    block ∉ state.freed := by
  exact kept.spared_of_inUse (Or.inl (by simp [own]))

omit [DecidableEq Thread] in
/-- An update of one block keeps a field which it does not write. -/
theorem field_update
    {Field : Type}
    (field : Block Thread → Field)
    {blocks : Nat → Block Thread}
    {newBlock : Block Thread}
    (same : field newBlock = field (blocks block))
    (other : Nat) :
    field (Function.update blocks block newBlock other) =
      field (blocks other) := by
  by_cases here : other = block
  · subst here
    simpa using same
  · rw [Function.update_of_ne here]

theorem kept_hit
    (kept : Kept state owner)
    (member : block ∈ state.head) :
    Kept (state.hit thread block) owner := by
  exact kept_of_quiet kept (touches_hit thread block)
    ((kept.listed block).mp member).1.2 rfl rfl
    (field_update Block.blockNo rfl)
    (fun other _ => field_update Block.pinned (by rfl) other)
    (field_update Block.data rfl) rfl (List.Perm.refl _) (Or.inl rfl)

theorem kept_take
    (kept : Kept state owner)
    (found : state.pc thread = .found block)
    (vacant : owner block = none) :
    Kept (state.take thread block)
      (Function.update owner block (some (thread, .granted))) := by
  exact kept_of_quiet kept ⟨rfl, ⟨_, rfl⟩, by simp⟩
    (kept.spared_of_inUse (Or.inr ⟨thread, found⟩)) rfl rfl
    (field_update Block.blockNo rfl)
    (fun other _ => field_update Block.pinned (by rfl) other)
    (field_update Block.data rfl) rfl (List.Perm.refl _)
    (Or.inr (by simp [vacant, fresh]))

theorem kept_sleep
    (kept : Kept state owner)
    (found : state.pc thread = .found block) :
    Kept (state.sleep thread block) owner := by
  exact kept_of_quiet kept (touches_sleep thread block)
    (kept.spared_of_inUse (Or.inr ⟨thread, found⟩)) rfl rfl
    (field_update Block.blockNo rfl)
    (fun other _ => field_update Block.pinned (by rfl) other)
    (field_update Block.data rfl) rfl (List.Perm.refl _) (Or.inl rfl)

theorem kept_moveToFront
    (kept : Kept state owner)
    (below : block < state.next)
    (own : owner block = some (thread, .granted)) :
    Kept (state.enter thread block (state.head.erase block))
      (Function.update owner block (some (thread, .held))) := by
  have spared := kept.spared_of_owner own
  have member : block ∈ state.head :=
    (kept.listed block).mpr ⟨⟨below, spared⟩, by simp [own, fresh]⟩
  exact kept_of_quiet kept ⟨rfl, ⟨_, rfl⟩, by simp⟩ spared rfl rfl
    (fun _ => rfl) (fun _ _ => rfl) (fun _ => rfl) rfl
    (List.perm_cons_erase member).symm (Or.inr (by simp [own, fresh]))

theorem kept_insert
    (kept : Kept state owner)
    (below : block < state.next)
    (own : owner block = some (thread, .loaded)) :
    Kept (state.enter thread block state.head)
      (Function.update owner block (some (thread, .held))) := by
  have spared := kept.spared_of_owner own
  have absent : block ∉ state.head := by
    rw [kept.listed]
    simp [own, fresh]
  refine kept_of_touches kept ⟨rfl, ⟨_, rfl⟩, by simp⟩ spared rfl rfl
    (fun _ => rfl) (fun _ _ => rfl)
    (List.nodup_cons.mpr ⟨absent, kept.nodup⟩) ?_ ?_
  · intro other
    by_cases same : other = block
    · subst same
      simp [State.enter, fresh, Live, below, spared]
    · simp [State.enter, same, kept.listed]
  · intro other live notLoading
    refine kept.current other live ?_
    by_cases same : other = block
    · subst same
      simp [own]
    · simpa [same] using notLoading

theorem kept_read
    (kept : Kept state owner)
    (below : block < state.next)
    (own : owner block = some (thread, .loading)) :
    Kept (state.read disk thread block)
      (Function.update owner block (some (thread, .loaded))) := by
  have spared := kept.spared_of_owner own
  refine kept_of_touches kept ⟨rfl, ⟨_, rfl⟩, by simp⟩ spared rfl rfl
    (field_update Block.blockNo rfl)
    (fun other _ => field_update Block.pinned (by rfl) other) kept.nodup ?_ ?_
  · intro other
    rw [State.read, kept.listed]
    by_cases same : other = block
    · subst same
      simp [own, fresh]
    · simp [same]
  · intro other live notLoading
    by_cases same : other = block
    · subst same
      simp [State.read]
    · have different :
          (state.blocks other).blockNo ≠ (state.blocks block).blockNo :=
        fun sameName =>
          same (kept.unique other block live ⟨below, spared⟩ sameName)
      simp only [State.read, Function.update_of_ne same,
        Function.update_of_ne different]
      refine kept.current other live ?_
      simpa [same] using notLoading

theorem kept_unlock
    (kept : Kept state owner)
    (idle : state.pc thread = .idle)
    (own : owner block = some (thread, .held)) :
    Kept (state.unlock thread block)
      (Function.update owner block none) := by
  exact kept_of_quiet kept
    ⟨(Function.update_eq_self thread state.pc).symm, ⟨_, rfl⟩,
      by simp [idle]⟩
    (kept.spared_of_owner own) rfl rfl
    (field_update Block.blockNo rfl)
    (fun other _ => field_update Block.pinned (by rfl) other)
    (field_update Block.data rfl) rfl (List.Perm.refl _)
    (Or.inr (by simp [own, fresh]))

theorem kept_wake
    (kept : Kept state owner)
    {first : Thread}
    {rest : List Thread}
    (own : owner block = some (thread, .held)) :
    Kept (state.wake thread block first rest)
      (Function.update owner block (some (first, .granted))) := by
  exact kept_of_quiet kept ⟨rfl, ⟨_, rfl⟩, by simp⟩
    (kept.spared_of_owner own) rfl rfl
    (field_update Block.blockNo rfl)
    (fun other _ => field_update Block.pinned (by rfl) other)
    (field_update Block.data rfl) rfl (List.Perm.refl _)
    (Or.inr (by simp [own, fresh]))

theorem touches_idle
    (idle : state.pc thread = .idle)
    (samePc : target.pc = state.pc) :
    Touches state target owner owner thread .idle block := by
  refine ⟨?_, ⟨owner block, (Function.update_eq_self _ _).symm⟩, by simp⟩
  rw [samePc, ← idle, Function.update_eq_self]

theorem kept_pin
    (kept : Kept state owner)
    (idle : state.pc thread = .idle)
    (own : owner block = some (thread, .held)) :
    Kept (state.pin block) owner := by
  refine kept_of_quiet kept (touches_idle idle rfl)
    (kept.spared_of_owner own) rfl rfl
    (field_update Block.blockNo rfl) ?_
    (field_update Block.data rfl) rfl (List.Perm.refl _) (Or.inl rfl)
  intro other different
  simp [State.pin, different]

theorem kept_write
    (kept : Kept state owner)
    {data : BlockData}
    (idle : state.pc thread = .idle)
    (below : block < state.next)
    (own : owner block = some (thread, .held)) :
    Kept (state.write block data) owner := by
  have spared := kept.spared_of_owner own
  have touches :
      Touches state (state.write block data) owner owner thread .idle
        block :=
    touches_idle idle rfl
  refine kept_of_touches kept touches spared rfl rfl
    (field_update Block.blockNo rfl)
    (fun other _ => field_update Block.pinned (by rfl) other) kept.nodup
    kept.listed ?_
  intro other live notLoading
  by_cases same : other = block
  · subst same
    simp [State.write]
  · have different :
        (state.blocks other).blockNo ≠ (state.blocks block).blockNo :=
      fun sameName =>
        same (kept.unique other block live ⟨below, spared⟩ sameName)
    simp only [State.write, Function.update_of_ne same,
      Function.update_of_ne different]
    exact kept.current other live notLoading

omit [DecidableEq Thread] in
/-- A block which is not yet in the list is being loaded by its owner. -/
theorem loads_of_fresh
    (locked : Locked state owner)
    (isFresh : fresh (owner block) = true) :
    ∃ other, block ∈ loads (state.pc other) := by
  unfold fresh at isFresh
  split at isFresh
  · rename_i other own
    rcases (locked.owned.agrees _ _ _).mp own with inside | ⟨held, -⟩
    · refine ⟨other, ?_⟩
      cases position : state.pc other <;> simp_all [owned, loads]
    · simp at held
  · rename_i other own
    rcases (locked.owned.agrees _ _ _).mp own with inside | ⟨held, -⟩
    · refine ⟨other, ?_⟩
      cases position : state.pc other <;> simp_all [owned, loads]
    · simp at held
  · simp at isFresh

omit [DecidableEq Thread] in
/-- What the eviction loop drops is neither pinned nor in use. -/
theorem dropped_unused
    (flags : Flagged state owner)
    (spares :
      ∀ other ∈ state.head, state.handed other = true →
        (state.blocks other).pinned = true ∨
          state.blockNum <
            evictionThreshold +
              (older state.head other).countP state.evictable)
    (member : block ∈ state.head)
    (dropped : block ∉ state.remaining.2) :
    ¬ InUse state.pc owner block ∧ (state.blocks block).pinned = false := by
  have idle : state.evictable block = true :=
    ((evict_spec _ _ _).kept block member).resolve_left dropped
  simp only [State.evictable, Bool.and_eq_true, Bool.not_eq_true'] at idle
  refine ⟨?_, idle.2⟩
  intro inUse
  have handed : state.handed block = true :=
    (flags.flagged block inUse).resolve_left (by simp [idle.1])
  rcases spares block member handed with pinned | enough
  · simp [idle.2] at pinned
  · exact dropped (evict_keeps _ member enough)

omit [DecidableEq Thread] in
/-- No live block has the number of a miss. -/
theorem missed_absent
    (locked : Locked state owner)
    (kept : Kept state owner)
    {blockNo : BlockNo}
    (missing : state.lookup blockNo = none)
    (alone :
      ∀ other, ∀ loading ∈ loads (state.pc other),
        (state.blocks loading).blockNo ≠ blockNo)
    (live : Live state block) :
    (state.blocks block).blockNo ≠ blockNo := by
  cases isFresh : fresh (owner block) with
  | true =>
      rcases loads_of_fresh locked isFresh with ⟨other, loading⟩
      exact alone other block loading
  | false =>
      have member := (kept.listed block).mpr ⟨live, isFresh⟩
      have differs := List.find?_eq_none.mp missing block member
      simpa using differs

theorem live_miss
    (kept : Kept state owner)
    {blockNo : BlockNo} :
    Live (state.miss thread blockNo) block ↔
      block = state.next ∨
        Live state block ∧
          (block ∈ state.head → block ∈ state.remaining.2) := by
  have below : ∀ other ∈ state.head, other < state.next :=
    fun other member => ((kept.listed other).mp member).1.1
  have freedBelow : ∀ other ∈ state.freed, other < state.next :=
    fun other member => (kept.freed other member).1
  simp only [Live, State.miss, List.mem_append, List.mem_filter,
    decide_eq_true_eq, not_or, not_and, not_not]
  constructor
  · rintro ⟨bound, notFreed, notDropped⟩
    rcases Nat.lt_succ_iff_lt_or_eq.mp bound with lower | equal
    · exact Or.inr ⟨⟨lower, notFreed⟩, notDropped⟩
    · exact Or.inl equal
  · rintro (rfl | ⟨⟨bound, notFreed⟩, notDropped⟩)
    · refine ⟨Nat.lt_succ_self _, ?_, ?_⟩
      · intro member
        exact Nat.lt_irrefl _ (freedBelow _ member)
      · intro member
        exact absurd (below _ member) (Nat.lt_irrefl _)
    · exact ⟨Nat.lt_succ_of_lt bound, notFreed, notDropped⟩

theorem kept_miss
    (locked : Locked state owner)
    (flags : Flagged state owner)
    (kept : Kept state owner)
    {blockNo : BlockNo}
    (missing : state.lookup blockNo = none)
    (alone : MissesAlone state (.search thread blockNo))
    (spares : SparesHandovers state (.search thread blockNo)) :
    Kept (state.miss thread blockNo)
      (Function.update owner state.next (some (thread, .loading))) := by
  have subset : ∀ other ∈ state.remaining.2, other ∈ state.head :=
    fun other member => (evict_spec _ _ _).sublist.subset member
  have older : ∀ other, Live state other → other ≠ state.next :=
    fun other live => Nat.ne_of_lt live.1
  have unchanged :
      ∀ other, other ≠ state.next →
        (state.miss thread blockNo).blocks other = state.blocks other :=
    fun other different => Function.update_of_ne different _ _
  constructor
  · exact (evict_spec _ _ _).sublist.nodup kept.nodup
  · intro other
    rw [live_miss kept]
    constructor
    · intro member
      have present := (kept.listed other).mp (subset other member)
      refine ⟨Or.inr ⟨present.1, fun _ => member⟩, ?_⟩
      rw [Function.update_of_ne (older other present.1)]
      exact present.2
    · rintro ⟨rfl | ⟨live, stays⟩, inserted⟩
      · simp [fresh] at inserted
      · rw [Function.update_of_ne (older other live)] at inserted
        exact stays ((kept.listed other).mpr ⟨live, inserted⟩)
  · intro other member
    have source :
        other < state.next ∧ ¬ InUse state.pc owner other ∧
          (state.blocks other).pinned = false := by
      rcases List.mem_append.mp member with earlier | dropped
      · exact kept.freed other earlier
      · simp only [List.mem_filter, decide_eq_true_eq] at dropped
        refine ⟨((kept.listed other).mp dropped.1).1.1, ?_⟩
        exact dropped_unused flags (spares missing) dropped.1 dropped.2
    rcases source with ⟨bound, unused, unpinned⟩
    refine ⟨Nat.lt_succ_of_lt bound, ?_, ?_⟩
    · intro inUse
      exact unused (inUse.of_update (Nat.ne_of_lt bound) (by simp))
    · rwa [unchanged other (Nat.ne_of_lt bound)]
  · have absent : ∀ other, Live state other →
        (state.blocks other).blockNo ≠ blockNo :=
      fun other live =>
        missed_absent locked kept missing (alone missing) live
    have newName :
        ((state.miss thread blockNo).blocks state.next).blockNo =
          blockNo := by
      simp [State.miss, freshBlock]
    intro left right liveLeft liveRight sameName
    rcases (live_miss kept).mp liveLeft with rfl | ⟨oldLeft, -⟩
    · rcases (live_miss kept).mp liveRight with rfl | ⟨oldRight, -⟩
      · rfl
      · rw [newName, unchanged right (older right oldRight)] at sameName
        exact absurd sameName.symm (absent right oldRight)
    · rw [unchanged left (older left oldLeft)] at sameName
      rcases (live_miss kept).mp liveRight with rfl | ⟨oldRight, -⟩
      · rw [newName] at sameName
        exact absurd sameName (absent left oldLeft)
      · rw [unchanged right (older right oldRight)] at sameName
        exact kept.unique left right oldLeft oldRight sameName
  · intro other live notLoading
    rcases (live_miss kept).mp live with rfl | ⟨oldLive, -⟩
    · exact absurd (Function.update_self _ _ _) (notLoading thread)
    · rw [unchanged other (older other oldLive)]
      refine kept.current other oldLive ?_
      intro reader
      have same := notLoading reader
      rwa [Function.update_of_ne (older other oldLive)] at same

end List

/-- The invariant of the runs in which neither defect shows. -/
def Sound (state : State Thread) : Prop :=
  ∃ owner, Locked state owner ∧ Flagged state owner ∧ Kept state owner

omit [DecidableEq Thread] in
theorem sound_init (disk : Disk) :
    Sound (State.init disk : State Thread) := by
  refine ⟨fun _ => none, ⟨⟨?_, List.nodup_nil⟩, ?_, ?_⟩, ⟨?_, ?_⟩, ?_⟩
  · simp [Owns, owned, State.init]
  · intro block
    constructor <;> simp [State.init]
  · constructor <;> simp [State.init, refers]
  · simp [State.init]
  · simp [InUse, State.init]
  · constructor <;> simp [State.init, Live]

section Runs

variable
    {disk : Disk}
    {state target : State Thread}
    {label : Label Thread}

theorem sound_moves
    (sound : Sound state)
    (alone : MissesAlone state label)
    (spares : SparesHandovers state label)
    (moves : Moves disk state label target) :
    Sound target := by
  rcases sound with ⟨owner, locked, flags, kept⟩
  have agrees := locked.owned.agrees
  have referred := locked.bounded.referred
  cases moves with
  | @hit thread blockNo block idle found =>
      have member : block ∈ state.head := List.mem_of_find?_eq_some found
      exact ⟨_, locked_hit locked idle member, flagged_hit flags,
        kept_hit kept member⟩
  | @miss thread blockNo idle missing =>
      exact ⟨_, locked_miss locked idle, flagged_miss flags,
        kept_miss locked flags kept missing alone spares⟩
  | @take thread block found free =>
      have vacant := locked.vacant_of_free free
      exact ⟨_, locked_take locked found free, flagged_take flags found,
        kept_take kept found vacant⟩
  | @sleep thread block found taken =>
      exact ⟨_, locked_sleep locked found taken, flagged_sleep flags found,
        kept_sleep kept found⟩
  | @moveToFront thread block granted =>
      have inside : owned (state.pc thread) = some (.granted, block) := by
        rw [granted]
        rfl
      have own := (agrees _ _ _).mpr (Or.inl inside)
      have below := referred thread block (by rw [granted]; rfl)
      exact ⟨_, locked_enter locked inside (fun _ => List.mem_of_mem_erase),
        flagged_enter flags (by simp [own]),
        kept_moveToFront kept below own⟩
  | @deviceRead thread block loading =>
      have own := (agrees thread .loading block).mpr
        (Or.inl (by rw [loading]; rfl))
      have below := referred thread block (by rw [loading]; rfl)
      exact ⟨_, locked_read locked loading,
        flagged_read flags (by simp [own]), kept_read kept below own⟩
  | @insert thread block loaded =>
      have inside : owned (state.pc thread) = some (.loaded, block) := by
        rw [loaded]
        rfl
      have own := (agrees _ _ _).mpr (Or.inl inside)
      have below := referred thread block (by rw [loaded]; rfl)
      exact ⟨_, locked_enter locked inside (fun _ member => member),
        flagged_enter flags (by simp [own]), kept_insert kept below own⟩
  | @wake thread block first rest idle holds sleepers =>
      have own := (agrees _ _ _).mpr (Or.inr ⟨rfl, holds⟩)
      have asleep := ((locked.lock block).sleepers first).mp (by simp [sleepers])
      exact ⟨_, locked_wake locked holds sleepers,
        flagged_wake flags asleep, kept_wake kept own⟩
  | @unlock thread block idle holds positive =>
      have own := (agrees _ _ _).mpr (Or.inr ⟨rfl, holds⟩)
      exact ⟨_, locked_unlock locked holds positive,
        flagged_unlock flags idle, kept_unlock kept idle own⟩
  | @sync thread block idle holds =>
      have own := (agrees _ _ _).mpr (Or.inr ⟨rfl, holds⟩)
      exact ⟨_, locked_pin locked,
        flagged_congr flags (field_update Block.acquired rfl),
        kept_pin kept idle own⟩
  | @modify thread block data idle holds =>
      have own := (agrees _ _ _).mpr (Or.inr ⟨rfl, holds⟩)
      have below := locked.bounded.held _ holds
      exact ⟨_, locked_write locked,
        flagged_congr flags (field_update Block.acquired rfl),
        kept_write kept idle below own⟩

/-- Both conditions on the steps of a run. -/
def Careful (state : State Thread) (label : Label Thread) : Prop :=
  MissesAlone state label ∧ SparesHandovers state label

theorem sound_run
    {labels : List (Label Thread)}
    (run :
      Run (Takes (step disk)) Careful (State.init disk) labels state) :
    Sound state := by
  refine run.invariant (sound_init disk) ?_
  intro source label target sound careful stepped
  exact sound_moves sound careful.1 careful.2 (step_moves stepped)

end Runs

end FudanOS.Fs.BlockExclusion
