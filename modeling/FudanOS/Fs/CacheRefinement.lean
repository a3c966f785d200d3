import FudanOS.Fs.BlockCache

/-!
# What the calls of the block cache do

Callers can tell of the cache which blocks are held, which are pinned, and
the data they would see; the order of the list and the evictions stay hidden.
`Abstract` is this view together with the device and the log.  Each operation
of the cache is shown to compute its counterpart on the view, as long as every
block which may be evicted agrees with the device.
-/

namespace FudanOS.Fs.CacheRefinement

open FudanOS.Fs.Defines
open FudanOS.Fs.Eviction
open FudanOS.Fs.LogSections
open FudanOS.Fs.BlockCache

/-- What callers can tell of one block. -/
structure Status where
  held : Bool
  pinned : Bool
  data : BlockData

/-- The cache as its callers see it. -/
structure Abstract where
  held : BlockNo → Bool
  pinned : BlockNo → Bool
  current : Disk
  device : Device
  log : Log

/-- What callers can tell of one block. -/
def Abstract.status (abstract : Abstract) (blockNo : BlockNo) : Status :=
  ⟨abstract.held blockNo, abstract.pinned blockNo, abstract.current blockNo⟩

/-- The status of a block, cached or not. -/
def status (cache : Cache) (blockNo : BlockNo) : Status :=
  match lookup cache.head blockNo with
  | some block => ⟨block.acquired, block.pinned, block.data⟩
  | none => ⟨false, false, cache.device.contents blockNo⟩

/-- The view of a cache. -/
def view (cache : Cache) : Abstract where
  held := fun blockNo => (status cache blockNo).held
  pinned := fun blockNo => (status cache blockNo).pinned
  current := fun blockNo => (status cache blockNo).data
  device := cache.device
  log := cache.log

/-- Change what callers can tell of one block. -/
def Abstract.edit
    (abstract : Abstract)
    (blockNo : BlockNo)
    (status : Status) : Abstract :=
  { abstract with
    held := Function.update abstract.held blockNo status.held
    pinned := Function.update abstract.pinned blockNo status.pinned
    current := Function.update abstract.current blockNo status.data }

@[simp]
theorem Abstract.edit_status_self
    (abstract : Abstract)
    (blockNo : BlockNo)
    (status : Status) :
    (abstract.edit blockNo status).status blockNo = status := by
  simp [Abstract.edit, Abstract.status]

theorem Abstract.edit_status_of_ne
    (abstract : Abstract)
    {blockNo other : BlockNo}
    (status : Status)
    (different : other ≠ blockNo) :
    (abstract.edit blockNo status).status other = abstract.status other := by
  simp [Abstract.edit, Abstract.status, Function.update_of_ne different]

theorem Abstract.edit_held
    (abstract : Abstract)
    (blockNo : BlockNo)
    (held : Bool) :
    abstract.edit blockNo { abstract.status blockNo with held := held } =
      { abstract with
        held := Function.update abstract.held blockNo held } := by
  simp [Abstract.edit, Abstract.status]

theorem Abstract.edit_pinned
    (abstract : Abstract)
    (blockNo : BlockNo)
    (pinned : Bool) :
    abstract.edit blockNo
        { abstract.status blockNo with pinned := pinned } =
      { abstract with
        pinned := Function.update abstract.pinned blockNo pinned } := by
  simp [Abstract.edit, Abstract.status]

theorem Abstract.edit_data
    (abstract : Abstract)
    (blockNo : BlockNo)
    (data : BlockData) :
    abstract.edit blockNo { abstract.status blockNo with data := data } =
      { abstract with
        current := Function.update abstract.current blockNo data } := by
  simp [Abstract.edit, Abstract.status]

/-- Put new data into a block and onto the device. -/
def Abstract.store
    (abstract : Abstract)
    (blockNo : BlockNo)
    (data : BlockData) : Abstract :=
  { abstract with
    current := Function.update abstract.current blockNo data
    device := abstract.device.write blockNo data }

/-- Blocks which may be evicted agree with the device. -/
def Clean (abstract : Abstract) : Prop :=
  ∀ blockNo,
    abstract.held blockNo = false →
      abstract.pinned blockNo = false →
        abstract.current blockNo = abstract.device.contents blockNo

/--
The list holds no block twice and never the log header, and its locks agree
with its flags.
-/
structure Listed (sblock : SuperBlock) (cache : Cache) : Prop where
  nodup : (cache.head.map Block.blockNo).Nodup
  length : cache.head.length = cache.blockNum
  lock :
    ∀ block ∈ cache.head, block.lock = if block.acquired then 0 else 1
  header : lookup cache.head sblock.headerBlock = none

/-- A well-formed cache with the given view. -/
structure Refines
    (sblock : SuperBlock)
    (cache : Cache)
    (abstract : Abstract) : Prop where
  listed : Listed sblock cache
  seen : view cache = abstract
  clean : Clean abstract

/-! ## Searching the list -/

theorem lookup_some
    {head : List Block}
    {blockNo : BlockNo}
    {block : Block}
    (found : lookup head blockNo = some block) :
    block ∈ head ∧ block.blockNo = blockNo := by
  refine ⟨List.mem_of_find?_eq_some found, ?_⟩
  simpa using List.find?_some found

theorem lookup_none
    {head : List Block}
    {blockNo : BlockNo} :
    lookup head blockNo = none ↔ blockNo ∉ head.map Block.blockNo := by
  simp [lookup]

theorem lookup_cons
    (block : Block)
    (rest : List Block)
    (blockNo : BlockNo) :
    lookup (block :: rest) blockNo =
      if block.blockNo = blockNo then some block else lookup rest blockNo := by
  split_ifs with same
  · exact List.find?_cons_of_pos (by simpa using same)
  · exact List.find?_cons_of_neg (by simpa using same)

theorem lookup_of_mem
    {head : List Block}
    (nodup : (head.map Block.blockNo).Nodup)
    {block : Block}
    (member : block ∈ head) :
    lookup head block.blockNo = some block := by
  induction head with
  | nil => simp at member
  | cons first rest ih =>
      rw [List.map_cons, List.nodup_cons] at nodup
      rcases List.mem_cons.mp member with rfl | tail
      · rw [lookup_cons, if_pos rfl]
      · have other : first.blockNo ≠ block.blockNo := by
          intro same
          exact nodup.1 (same ▸ List.mem_map_of_mem tail)
        rw [lookup_cons, if_neg other]
        exact ih nodup.2 tail

/-- Removing a block hides its number and no other. -/
theorem lookup_erase
    {head : List Block}
    {blockNo other : BlockNo}
    (different : other ≠ blockNo) :
    lookup (head.eraseP fun block => block.blockNo == blockNo) other =
      lookup head other := by
  induction head with
  | nil => rfl
  | cons first rest ih =>
      by_cases erased : first.blockNo = blockNo
      · rw [List.eraseP_cons_of_pos (by simpa using erased), lookup_cons,
          if_neg fun same => different (same.symm.trans erased)]
      · rw [List.eraseP_cons_of_neg (by simpa using erased), lookup_cons,
          lookup_cons, ih]

/-- Writing to the fields of a block is seen under its number only. -/
theorem lookup_updateBlock
    {head : List Block}
    {blockNo : BlockNo}
    {edit : Block → Block}
    (sameNo : ∀ block, (edit block).blockNo = block.blockNo)
    (other : BlockNo) :
    lookup (updateBlock head blockNo edit) other =
      if other = blockNo then (lookup head blockNo).map edit
      else lookup head other := by
  induction head with
  | nil => simp [updateBlock, lookup]
  | cons first rest ih =>
      have tail :
          updateBlock (first :: rest) blockNo edit =
            (if first.blockNo = blockNo then edit first else first) ::
              updateBlock rest blockNo edit := rfl
      rw [tail, lookup_cons, ih, lookup_cons, lookup_cons]
      by_cases edited : first.blockNo = blockNo
      · by_cases same : other = blockNo
        · simp [edited, same, sameNo]
        · simp [edited, same, sameNo, Ne.symm same]
      · by_cases same : other = blockNo
        · simp [edited, same]
        · simp [edited, same]

theorem map_blockNo_updateBlock
    {head : List Block}
    {blockNo : BlockNo}
    {edit : Block → Block}
    (sameNo : ∀ block, (edit block).blockNo = block.blockNo) :
    (updateBlock head blockNo edit).map Block.blockNo =
      head.map Block.blockNo := by
  rw [updateBlock, List.map_map]
  apply List.map_congr_left
  intro block _
  simp only [Function.comp]
  split_ifs
  · exact sameNo block
  · rfl

/-! ## Eviction -/

/-- A block is found as before, or it was clean and is gone. -/
theorem lookup_evicted
    {blockNum : Nat}
    {head : List Block}
    {result : Nat × List Block}
    (evicted : Evicted Block.idle blockNum head result)
    (nodup : (head.map Block.blockNo).Nodup)
    (blockNo : BlockNo) :
    lookup result.2 blockNo = lookup head blockNo ∨
      (lookup result.2 blockNo = none ∧
        ∃ block,
          lookup head blockNo = some block ∧
            block.acquired = false ∧ block.pinned = false) := by
  have resultNodup : (result.2.map Block.blockNo).Nodup :=
    nodup.sublist (evicted.sublist.map _)
  cases present : lookup result.2 blockNo with
  | some block =>
      left
      rcases lookup_some present with ⟨member, rfl⟩
      exact (lookup_of_mem nodup (evicted.sublist.subset member)).symm
  | none =>
      cases before : lookup head blockNo with
      | none => exact Or.inl rfl
      | some block =>
          right
          rcases lookup_some before with ⟨member, rfl⟩
          rcases evicted.kept block member with kept | idle
          · rw [lookup_of_mem resultNodup kept] at present
            simp at present
          · have clean : block.acquired = false ∧ block.pinned = false := by
              simpa [Block.idle] using idle
            exact ⟨rfl, block, rfl, clean⟩

/-! ## The operations on the view -/

section Operations

variable
    {sblock : SuperBlock}
    {cache : Cache}
    {abstract : Abstract}
    {blockNo : BlockNo}

theorem status_some
    {block : Block}
    (found : lookup cache.head blockNo = some block) :
    status cache blockNo = ⟨block.acquired, block.pinned, block.data⟩ := by
  simp only [status, found]

theorem status_none
    (missing : lookup cache.head blockNo = none) :
    status cache blockNo =
      ⟨false, false, cache.device.contents blockNo⟩ := by
  simp only [status, missing]

theorem Refines.status
    (refines : Refines sblock cache abstract)
    (blockNo : BlockNo) :
    status cache blockNo = abstract.status blockNo := by
  rw [← refines.seen]
  rfl

theorem Listed.status_header (listed : Listed sblock cache) :
    status cache sblock.headerBlock =
      ⟨false, false, cache.device.contents sblock.headerBlock⟩ :=
  status_none listed.header

/-- A block which is not held has a free lock. -/
theorem Refines.lock_of_not_held
    (refines : Refines sblock cache abstract)
    (free : abstract.held blockNo = false)
    {block : Block}
    (found : lookup cache.head blockNo = some block) :
    block.acquired = false ∧ block.lock = 1 := by
  have acquired : block.acquired = false := by
    have seen := refines.status blockNo
    rw [status_some found] at seen
    exact (congrArg Status.held seen).trans free
  have lock := refines.listed.lock block (lookup_some found).1
  rw [acquired] at lock
  exact ⟨acquired, lock⟩

theorem Refines.cached_of_held
    (refines : Refines sblock cache abstract)
    (held : abstract.held blockNo = true) :
    ∃ block,
      lookup cache.head blockNo = some block ∧
        block.acquired = true ∧
        block.lock = 0 ∧
        abstract.status blockNo = ⟨true, block.pinned, block.data⟩ := by
  have seen := congrArg Status.held (refines.status blockNo)
  cases found : lookup cache.head blockNo with
  | none =>
      rw [status_none found] at seen
      exact absurd (seen.trans held) Bool.false_ne_true
  | some block =>
      have here := status_some found
      rw [here] at seen
      have lock := refines.listed.lock block (lookup_some found).1
      have acquired : block.acquired = true := seen.trans held
      rw [acquired] at lock here
      exact
        ⟨block, rfl, acquired, lock, (refines.status blockNo).symm.trans here⟩

/-- The view of a cache, block by block. -/
theorem view_eq
    {target : Cache}
    (statuses : ∀ blockNo, status target blockNo = abstract.status blockNo)
    (device : target.device = abstract.device)
    (log : target.log = abstract.log) :
    view target = abstract := by
  have same : status target = abstract.status := funext statuses
  cases abstract
  simp only [view, same, Abstract.status]
  simp only at device log
  rw [device, log]

/-- A held block is never evicted, so holding keeps a cache clean. -/
theorem Clean.hold
    (clean : Clean abstract)
    {status : Status}
    (held : status.held = true) :
    Clean (abstract.edit blockNo status) := by
  intro other free unpinned
  by_cases same : other = blockNo
  · subst same
    simp only [Abstract.edit, Function.update_self] at free
    rw [held] at free
    exact absurd free (by decide)
  · simp only [Abstract.edit, Function.update_of_ne same] at *
    exact clean other free unpinned

/-- The list after `cache_acquire` found its block. -/
theorem listed_hit
    (listed : Listed sblock cache)
    {block moved : Block}
    (found : lookup cache.head blockNo = some block)
    (sameNo : moved.blockNo = block.blockNo)
    (lock : moved.lock = if moved.acquired then 0 else 1)
    (notHeader : blockNo ≠ sblock.headerBlock) :
    Listed sblock
      { cache with
        head :=
          moved ::
            cache.head.eraseP fun other => other.blockNo == blockNo } := by
  rcases lookup_some found with ⟨member, here⟩
  have erased :
      (cache.head.eraseP fun other => other.blockNo == blockNo).Sublist
        cache.head := List.eraseP_sublist
  have perm :
      (moved ::
          cache.head.eraseP fun other => other.blockNo == blockNo).map
          Block.blockNo |>.Perm (cache.head.map Block.blockNo) := by
    have chosen : (block.blockNo == blockNo) = true := by
      simpa using here
    have split :=
      List.exists_of_eraseP
        (p := fun other : Block => other.blockNo == blockNo) member chosen
    rcases split with ⟨removed, front, back, _, removedHere, whole, rest⟩
    have removedNo : removed.blockNo = moved.blockNo := by
      rw [sameNo, here]
      simpa using removedHere
    rw [rest, whole]
    simp only [List.map_cons, List.map_append, removedNo]
    exact List.perm_middle.symm
  refine ⟨?_, ?_, ?_, ?_⟩
  · exact perm.nodup_iff.mpr listed.nodup
  · have length := perm.length_eq
    simp only [List.length_map] at length
    exact length.trans listed.length
  · intro other present
    rcases List.mem_cons.mp present with rfl | tail
    · exact lock
    · exact listed.lock other (erased.subset tail)
  · rw [lookup_cons, if_neg (by rw [sameNo, here]; exact notHeader),
      lookup_erase notHeader.symm]
    exact listed.header

/-- The list after `cache_acquire` loaded its block. -/
theorem listed_miss
    (listed : Listed sblock cache)
    {loaded : Block}
    (missing : lookup cache.head loaded.blockNo = none)
    (lock : loaded.lock = if loaded.acquired then 0 else 1)
    (notHeader : loaded.blockNo ≠ sblock.headerBlock) :
    Listed sblock
      { cache with
        head := loaded :: (evict Block.idle cache.blockNum cache.head).2
        blockNum := (evict Block.idle cache.blockNum cache.head).1 + 1 } := by
  have evicted := evict_spec Block.idle cache.blockNum cache.head
  refine ⟨?_, ?_, ?_, ?_⟩
  · rw [List.map_cons, List.nodup_cons]
    refine ⟨?_, listed.nodup.sublist (evicted.sublist.map _)⟩
    intro present
    exact lookup_none.mp missing ((evicted.sublist.map _).subset present)
  · have count := evicted.count
    have length := listed.length
    simp only [List.length_cons]
    omega
  · intro other present
    rcases List.mem_cons.mp present with rfl | tail
    · exact lock
    · exact listed.lock other (evicted.sublist.subset tail)
  · rw [lookup_cons, if_neg notHeader]
    rcases lookup_evicted evicted listed.nodup sblock.headerBlock with
      same | ⟨gone, _⟩
    · rw [same]
      exact listed.header
    · exact gone

/-- `cache_acquire` returns a block which is not held, as callers saw it. -/
theorem cacheAcquire_spec
    (refines : Refines sblock cache abstract)
    (notHeader : blockNo ≠ sblock.headerBlock)
    (free : abstract.held blockNo = false) :
    ∃ target,
      cacheAcquire cache blockNo = .ok target ∧
        Refines sblock target
          { abstract with
            held := Function.update abstract.held blockNo true } := by
  rw [← Abstract.edit_held]
  have listed := refines.listed
  have clean :
      Clean (abstract.edit blockNo
        { abstract.status blockNo with held := true }) :=
    refines.clean.hold rfl
  unfold cacheAcquire
  cases found : lookup cache.head blockNo with
  | some block =>
      rcases refines.lock_of_not_held free found with ⟨acquired, lock⟩
      rcases lookup_some found with ⟨member, here⟩
      simp only [lock, Nat.one_ne_zero, if_false]
      refine ⟨_, rfl, listed_hit listed found rfl rfl notHeader, ?_, clean⟩
      apply view_eq
      · intro other
        by_cases same : other = blockNo
        · subst same
          rw [status_some (by rw [lookup_cons, if_pos here])]
          rw [Abstract.edit_status_self, ← refines.status,
            status_some found]
        · have elsewhere :
              lookup
                  ({ block with acquired := true, lock := 1 - 1 } ::
                    cache.head.eraseP fun other => other.blockNo == blockNo)
                  other =
                lookup cache.head other := by
            rw [lookup_cons, if_neg (by rw [here]; exact Ne.symm same),
              lookup_erase same]
          simp only [status, elsewhere]
          rw [Abstract.edit_status_of_ne _ _ same]
          exact refines.status other
      · exact congrArg Abstract.device refines.seen
      · exact congrArg Abstract.log refines.seen
  | none =>
      have evicted := evict_spec Block.idle cache.blockNum cache.head
      refine ⟨_, rfl, listed_miss listed found rfl notHeader, ?_, clean⟩
      apply view_eq
      · intro other
        by_cases same : other = blockNo
        · subst same
          rw [status_some ((lookup_cons _ _ _).trans (if_pos rfl))]
          rw [Abstract.edit_status_self, ← refines.status,
            status_none found]
          rfl
        · have behind :
              lookup
                  (loadBlock cache.device blockNo ::
                    (evict Block.idle cache.blockNum cache.head).2)
                  other =
                lookup (evict Block.idle cache.blockNum cache.head).2 other :=
            (lookup_cons _ _ _).trans (if_neg (Ne.symm same))
          rw [Abstract.edit_status_of_ne _ _ same]
          simp only [status, behind]
          rcases lookup_evicted evicted listed.nodup other with
            kept | ⟨gone, block, before, idle, unpinned⟩
          · rw [kept]
            exact refines.status other
          · have seen := refines.status other
            rw [status_some before, idle, unpinned] at seen
            have data :=
              refines.clean other (congrArg Status.held seen).symm
                (congrArg Status.pinned seen).symm
            have device : cache.device = abstract.device :=
              congrArg Abstract.device refines.seen
            rw [gone, ← seen, device, ← data]
            exact congrArg (Status.mk false false)
              (congrArg Status.data seen).symm
      · exact congrArg Abstract.device refines.seen
      · exact congrArg Abstract.log refines.seen

/-- A held block makes `cache_acquire` sleep. -/
theorem cacheAcquire_held
    (refines : Refines sblock cache abstract)
    (held : abstract.held blockNo = true) :
    cacheAcquire cache blockNo = .error .sleep := by
  rcases refines.cached_of_held held with ⟨block, found, _, lock, _⟩
  simp only [cacheAcquire, found, lock, if_true]

/-- Writing to the fields of a block. -/
theorem change_spec
    (refines : Refines sblock cache abstract)
    (held : abstract.held blockNo = true)
    {edit : Block → Block}
    {status : Status}
    (sameNo : ∀ block, (edit block).blockNo = block.blockNo)
    (agrees :
      ∀ block, block.acquired = true → block.lock = 0 →
        (edit block).lock = (if (edit block).acquired then 0 else 1) ∧
          (abstract.status blockNo =
              ⟨true, block.pinned, block.data⟩ →
            status =
              ⟨(edit block).acquired, (edit block).pinned,
                (edit block).data⟩))
    (clean : Clean (abstract.edit blockNo status)) :
    ∃ target,
      BlockCache.change cache blockNo edit = .ok target ∧
        Refines sblock target (abstract.edit blockNo status) := by
  have listed := refines.listed
  rcases refines.cached_of_held held with
    ⟨block, found, acquired, lock, seen⟩
  have edits := agrees block acquired lock
  have elsewhere :
      ∀ other, other ≠ blockNo →
        lookup (updateBlock cache.head blockNo edit) other =
          lookup cache.head other := by
    intro other different
    rw [lookup_updateBlock sameNo, if_neg different]
  have here :
      lookup (updateBlock cache.head blockNo edit) blockNo =
        some (edit block) := by
    rw [lookup_updateBlock sameNo, if_pos rfl, found]
    rfl
  have notHeader : sblock.headerBlock ≠ blockNo := by
    intro same
    rw [← same, listed.header] at found
    simp at found
  simp only [BlockCache.change, found]
  refine ⟨_, rfl, ⟨?_, ?_, ?_, ?_⟩, ?_, clean⟩
  · rw [map_blockNo_updateBlock sameNo]
    exact listed.nodup
  · simp only [updateBlock, List.length_map]
    exact listed.length
  · intro changed present
    rcases List.mem_map.mp present with ⟨original, member, rfl⟩
    by_cases edited : original.blockNo = blockNo
    · have unique := lookup_of_mem listed.nodup member
      rw [edited, found] at unique
      cases unique
      rw [if_pos edited]
      exact edits.1
    · rw [if_neg edited]
      exact listed.lock original member
  · rw [elsewhere _ notHeader]
    exact listed.header
  · apply view_eq
    · intro other
      by_cases same : other = blockNo
      · subst same
        rw [status_some here]
        rw [Abstract.edit_status_self]
        exact (edits.2 seen).symm
      · rw [Abstract.edit_status_of_ne _ _ same, ← refines.status]
        simp only [CacheRefinement.status, elsewhere other same]
    · exact congrArg Abstract.device refines.seen
    · exact congrArg Abstract.log refines.seen

/-- `cache_release` of a held block which may be evicted afterwards. -/
theorem cacheRelease_spec
    (refines : Refines sblock cache abstract)
    (held : abstract.held blockNo = true)
    (saved :
      abstract.pinned blockNo = false →
        abstract.current blockNo = abstract.device.contents blockNo) :
    ∃ target,
      cacheRelease cache blockNo = .ok target ∧
        Refines sblock target
          { abstract with
            held := Function.update abstract.held blockNo false } := by
  rw [← Abstract.edit_held]
  apply change_spec refines held
  · exact fun _ => rfl
  · intro block _ locked
    refine ⟨by simp [locked], ?_⟩
    intro seen
    rw [seen]
  · rw [Abstract.edit_held]
    intro other free unpinned
    by_cases same : other = blockNo
    · subst same
      exact saved unpinned
    · simp only [Function.update_of_ne same] at free
      exact refines.clean other free unpinned

/-- The holder of a block writes to its data. -/
theorem setData_spec
    (refines : Refines sblock cache abstract)
    (held : abstract.held blockNo = true)
    (data : BlockData) :
    ∃ target,
      setData cache blockNo data = .ok target ∧
        Refines sblock target
          { abstract with
            current := Function.update abstract.current blockNo data } := by
  rw [← Abstract.edit_data]
  apply change_spec refines held
  · exact fun _ => rfl
  · intro block acquired locked
    refine ⟨by simp [acquired, locked], ?_⟩
    intro seen
    rw [seen]
    simp [acquired]
  · exact refines.clean.hold held

/-- The holder of a block pins or unpins it. -/
theorem setPinned_spec
    (refines : Refines sblock cache abstract)
    (held : abstract.held blockNo = true)
    (pinned : Bool) :
    ∃ target,
      setPinned cache blockNo pinned = .ok target ∧
        Refines sblock target
          { abstract with
            pinned := Function.update abstract.pinned blockNo pinned } := by
  rw [← Abstract.edit_pinned]
  apply change_spec refines held
  · exact fun _ => rfl
  · intro block acquired locked
    refine ⟨by simp [acquired, locked], ?_⟩
    intro seen
    rw [seen]
    simp [acquired]
  · exact refines.clean.hold held

/-- `cache_sync(NULL, block)` writes the data of a held block. -/
theorem cacheSyncNull_spec
    (refines : Refines sblock cache abstract)
    (held : abstract.held blockNo = true) :
    ∃ target,
      cacheSyncNull cache blockNo = .ok target ∧
        Refines sblock target
          { abstract with
            device :=
              abstract.device.write blockNo
                (abstract.current blockNo) } := by
  have listed := refines.listed
  rcases refines.cached_of_held held with ⟨block, found, _, _, seen⟩
  simp only [cacheSyncNull, found]
  refine ⟨_, rfl, ⟨listed.nodup, listed.length, listed.lock, listed.header⟩,
    ?_, ?_⟩
  · apply view_eq
    · intro other
      by_cases same : other = blockNo
      · subst same
        refine Eq.trans ?_ (refines.status other)
        simp only [status, found]
      · refine Eq.trans ?_ (refines.status other)
        simp only [status, Device.contents_write,
          Function.update_of_ne same]
    · have data : abstract.current blockNo = block.data :=
        congrArg Status.data seen
      rw [data, ← refines.seen]
      rfl
    · exact congrArg Abstract.log refines.seen
  · intro other free unpinned
    by_cases same : other = blockNo
    · subst same
      rw [held] at free
      exact absurd free (by decide)
    · rw [Device.contents_write, Function.update_of_ne same]
      exact refines.clean other free unpinned

/-- The log may change under a cache. -/
theorem Refines.withLog
    (refines : Refines sblock cache abstract)
    (log : Log) :
    Refines sblock { cache with log := log } { abstract with log := log } := by
  have listed := refines.listed
  refine ⟨⟨listed.nodup, listed.length, listed.lock, listed.header⟩, ?_,
    refines.clean⟩
  apply view_eq
  · exact refines.status
  · exact congrArg Abstract.device refines.seen
  · rfl

/-- `write_header` changes the one block which is never cached. -/
theorem writeHeader_spec
    (refines : Refines sblock cache abstract) :
    Refines sblock (writeHeader sblock cache)
      (abstract.store sblock.headerBlock abstract.log.header.encode) := by
  have listed := refines.listed
  refine ⟨⟨listed.nodup, listed.length, listed.lock, listed.header⟩, ?_, ?_⟩
  · apply view_eq
    · intro other
      have before := refines.status other
      by_cases same : other = sblock.headerBlock
      · subst same
        rw [status_none listed.header] at before
        have log : cache.log = abstract.log :=
          congrArg Abstract.log refines.seen
        have held : false = abstract.held sblock.headerBlock :=
          congrArg Status.held before
        have pinned : false = abstract.pinned sblock.headerBlock :=
          congrArg Status.pinned before
        simp only [status, writeHeader, listed.header,
          Device.contents_write, Function.update_self, Abstract.status,
          Abstract.store, log, ← held, ← pinned]
      · have seen :
            (abstract.store sblock.headerBlock
                abstract.log.header.encode).status other =
              abstract.status other := by
          simp only [Abstract.status, Abstract.store,
            Function.update_of_ne same]
        rw [seen, ← before]
        simp only [status, writeHeader, Device.contents_write,
          Function.update_of_ne same]
    · rw [← refines.seen]
      rfl
    · exact congrArg Abstract.log refines.seen
  · intro other free unpinned
    by_cases same : other = sblock.headerBlock
    · subst same
      simp [Abstract.store]
    · simp only [Abstract.store, Function.update_of_ne same,
        Device.contents_write] at *
      exact refines.clean other free unpinned

end Operations

end FudanOS.Fs.CacheRefinement
