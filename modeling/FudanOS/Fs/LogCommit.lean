import FudanOS.Fs.CacheRefinement

/-!
# The writes of a commit and of a recovery

The loops of `cache_end_op` and `init_bcache` run through the cache: they
acquire, copy, write and release block after block.  Seen from outside, a
commit appends the writes of a redo-log commit to the device and a recovery
those of a redo-log recovery, and neither changes what callers see of the
blocks outside the log.
-/

namespace FudanOS.Fs.LogCommit

open FudanOS.Fs.Defines
open FudanOS.Fs.LogSections
open FudanOS.Fs.BlockCache
open FudanOS.Fs.CacheRefinement
open FudanOS.Library.RedoLog

/-- A log area on the disk with room for the header and every copy. -/
structure Roomy (sblock : SuperBlock) : Prop where
  room : logMaxSize + 1 ≤ sblock.numLogBlocks.toNat
  onDisk :
    sblock.logStart.toNat + sblock.numLogBlocks.toNat ≤
      sblock.numBlocks.toNat

namespace Roomy

variable {sblock : SuperBlock}

theorem toNat_slot
    (roomy : Roomy sblock)
    {index : Nat}
    (below : index < logMaxSize) :
    (sblock.logBlock index).toNat = sblock.logStart.toNat + 1 + index := by
  have room := roomy.room
  have onDisk := roomy.onDisk
  have blocks := sblock.numBlocks.toNat_lt
  simp only [logMaxSize, blockSize] at *
  apply SuperBlock.toNat_logBlock
  · omega
  · omega

theorem toNat_header (sblock : SuperBlock) :
    sblock.headerBlock.toNat = sblock.logStart.toNat :=
  UInt32.toNat_toUInt64 _

/-- The log area seen as a redo log. -/
def layout (roomy : Roomy sblock) : Layout BlockNo BlockData where
  header := sblock.headerBlock
  slot := sblock.logBlock
  capacity := logMaxSize
  entries := fun data => (LogHeader.decode data).entries
  slot_ne_header := by
    intro index below same
    have position := roomy.toNat_slot below
    rw [same, toNat_header] at position
    omega
  slot_injective := by
    intro left leftBelow right rightBelow same
    have leftAt := roomy.toNat_slot leftBelow
    have rightAt := roomy.toNat_slot rightBelow
    rw [same] at leftAt
    omega

/-- Blocks outside the log area are homes of the redo log. -/
theorem home_of_not_inLog
    (roomy : Roomy sblock)
    {blockNo : BlockNo}
    (outside : ¬ sblock.InLog blockNo) :
    roomy.layout.Home blockNo := by
  have room := roomy.room
  constructor
  · intro same
    have position : blockNo.toNat = sblock.logStart.toNat :=
      (congrArg UInt64.toNat same).trans (toNat_header sblock)
    apply outside
    unfold SuperBlock.InLog
    omega
  · intro index below same
    have bound : index < logMaxSize := below
    have position : blockNo.toNat = sblock.logStart.toNat + 1 + index :=
      (congrArg UInt64.toNat same).trans (roomy.toNat_slot below)
    apply outside
    unfold SuperBlock.InLog
    omega

theorem slot_inLog
    (roomy : Roomy sblock)
    {index : Nat}
    (below : index < logMaxSize) :
    sblock.InLog (sblock.logBlock index) := by
  by_contra outside
  exact (roomy.home_of_not_inLog outside).2 index below rfl

theorem entries_encode
    (roomy : Roomy sblock)
    {header : LogHeader}
    (fits : header.numBlocks ≤ logMaxSize) :
    roomy.layout.entries header.encode = header.entries :=
  LogHeader.entries_decode_encode header fits

theorem logged_eq (roomy : Roomy sblock) (disk : Disk) :
    roomy.layout.logged disk =
      (LogHeader.decode (disk sblock.headerBlock)).entries := by
  have header : roomy.layout.header = sblock.headerBlock := rfl
  have entries :
      roomy.layout.entries =
        fun data => (LogHeader.decode data).entries := rfl
  rw [Layout.logged, header, entries]

end Roomy

/-! ## Repeating a step of the cache -/

theorem foldlM_range_succ
    (step : Cache → Nat → Except Stop Cache)
    (cache : Cache)
    (count : Nat) :
    (List.range (count + 1)).foldlM step cache =
      (List.range count).foldlM step cache >>= fun middle =>
        step middle count := by
  simp [List.range_succ]

/-- A loop of the cache, by what each of its rounds establishes. -/
theorem foldlM_range_spec
    {step : Cache → Nat → Except Stop Cache}
    {cache : Cache}
    (reached : Nat → Cache → Prop)
    {count : Nat}
    (initially : reached 0 cache)
    (round :
      ∀ index < count, ∀ source, reached index source →
        ∃ target, step source index = .ok target ∧
          reached (index + 1) target) :
    ∃ target,
      (List.range count).foldlM step cache = .ok target ∧
        reached count target := by
  induction count with
  | zero => exact ⟨cache, rfl, initially⟩
  | succ count ih =>
      rcases ih fun index below =>
          round index (Nat.lt_succ_of_lt below) with
        ⟨middle, looped, there⟩
      rcases round count (Nat.lt_succ_self count) middle there with
        ⟨target, stepped, done⟩
      refine ⟨target, ?_, done⟩
      rw [foldlM_range_succ, looped]
      exact stepped

/-! ## Copying and installing a block -/

section Rounds

variable
    {sblock : SuperBlock}
    {cache : Cache}
    {abstract : Abstract}

/-- Holding two blocks for a while leaves no trace. -/
theorem update_hold_release
    {held : BlockNo → Bool}
    {first second : BlockNo}
    (firstFree : held first = false)
    (secondFree : held second = false) :
    Function.update
        (Function.update
          (Function.update (Function.update held first true) second true)
          first false)
        second false =
      held := by
  funext other
  by_cases isSecond : other = second
  · subst isSecond
    rw [Function.update_self, secondFree]
  · rw [Function.update_of_ne isSecond]
    by_cases isFirst : other = first
    · subst isFirst
      rw [Function.update_self, firstFree]
    · rw [Function.update_of_ne isFirst, Function.update_of_ne isSecond,
        Function.update_of_ne isFirst]

/-- Copying a block leaves a trace only in the target and on the device. -/
theorem transfer_spec
    (refines : Refines sblock cache abstract)
    {source target : BlockNo}
    (different : source ≠ target)
    (sourceNotHeader : source ≠ sblock.headerBlock)
    (targetNotHeader : target ≠ sblock.headerBlock)
    (sourceFree : abstract.held source = false)
    (targetFree : abstract.held target = false) :
    ∃ result,
      transfer cache source target = .ok result ∧
        Refines sblock result
          (abstract.store target (abstract.current source)) := by
  have backwards := different.symm
  rcases cacheAcquire_spec refines sourceNotHeader sourceFree with
    ⟨first, acquireSource, refinesFirst⟩
  rcases cacheAcquire_spec refinesFirst targetNotHeader
      ((Function.update_of_ne backwards _ _).trans targetFree) with
    ⟨second, acquireTarget, refinesSecond⟩
  have sourceHeld :
      Function.update (Function.update abstract.held source true)
        target true source = true := by
    rw [Function.update_of_ne different, Function.update_self]
  have targetHeld :
      Function.update (Function.update abstract.held source true)
        target true target = true :=
    Function.update_self _ _ _
  rcases refinesSecond.cached_of_held sourceHeld with
    ⟨block, found, _, _, seen⟩
  have data : block.data = abstract.current source :=
    (congrArg Status.data seen).symm
  rcases setData_spec refinesSecond targetHeld block.data with
    ⟨third, copied, refinesThird⟩
  rcases cacheSyncNull_spec refinesThird targetHeld with
    ⟨fourth, synced, refinesFourth⟩
  -- The source is as clean as before, the target agrees with the device.
  rcases cacheRelease_spec refinesFourth sourceHeld
      (by
        intro unpinned
        simp only [Function.update_of_ne different, Device.contents_write]
        exact refines.clean source sourceFree unpinned) with
    ⟨fifth, releaseSource, refinesFifth⟩
  have stillHeld :
      Function.update
        (Function.update (Function.update abstract.held source true)
          target true)
        source false target = true := by
    rw [Function.update_of_ne backwards, Function.update_self]
  rcases cacheRelease_spec refinesFifth stillHeld
      (by
        intro _
        simp only [Device.contents_write, Function.update_self]) with
    ⟨sixth, releaseTarget, refinesSixth⟩
  refine ⟨sixth, ?_, ?_⟩
  · simp only [transfer, bind, Except.bind, acquireSource, acquireTarget,
      copyData, found, copied, synced, releaseSource, releaseTarget]
  · simp only [Function.update_self, data,
      update_hold_release sourceFree targetFree] at refinesSixth
    exact refinesSixth

/-- Installing a block writes and unpins it. -/
theorem install_spec
    (refines : Refines sblock cache abstract)
    {index : Nat}
    {blockNo : BlockNo}
    (listed : abstract.log.header.blockNo index = blockNo)
    (notHeader : blockNo ≠ sblock.headerBlock)
    (free : abstract.held blockNo = false) :
    ∃ result,
      install cache index = .ok result ∧
        Refines sblock result
          { abstract with
            pinned := Function.update abstract.pinned blockNo false
            device :=
              abstract.device.write blockNo (abstract.current blockNo) } := by
  have log : cache.log = abstract.log := congrArg Abstract.log refines.seen
  rcases cacheAcquire_spec refines notHeader free with
    ⟨first, acquired, refinesFirst⟩
  have held :
      Function.update abstract.held blockNo true blockNo = true :=
    Function.update_self _ _ _
  rcases cacheSyncNull_spec refinesFirst held with
    ⟨second, synced, refinesSecond⟩
  rcases setPinned_spec refinesSecond held false with
    ⟨third, unpinned, refinesThird⟩
  rcases cacheRelease_spec refinesThird held
      (by
        intro _
        simp only [Device.contents_write, Function.update_self]) with
    ⟨fourth, released, refinesFourth⟩
  refine ⟨fourth, ?_, ?_⟩
  · simp only [install, log, listed, bind, Except.bind, acquired, synced,
      unpinned, released]
  · have restored :
        Function.update (Function.update abstract.held blockNo true)
          blockNo false = abstract.held := by
      rw [Function.update_idem, ← free, Function.update_eq_self]
    simp only [restored] at refinesFourth
    exact refinesFourth

/-! ## The loops -/

/-- Store a list of writes. -/
def storeAll
    (abstract : Abstract)
    (writes : List (BlockNo × BlockData)) : Abstract :=
  { abstract with
    current := applyWrites abstract.current writes
    device :=
      { abstract.device with
        writes := abstract.device.writes ++ writes } }

theorem storeAll_nil (abstract : Abstract) :
    storeAll abstract [] = abstract := by
  simp [storeAll]

theorem store_storeAll
    (abstract : Abstract)
    (writes : List (BlockNo × BlockData))
    (blockNo : BlockNo)
    (data : BlockData) :
    (storeAll abstract writes).store blockNo data =
      storeAll abstract (writes ++ [(blockNo, data)]) := by
  simp [storeAll, Abstract.store, Device.write, applyWrites_append]

/-- What a run guarantees of the header: its blocks are at home. -/
structure Committable
    (roomy : Roomy sblock)
    (abstract : Abstract) : Prop where
  listable : roomy.layout.Listable abstract.log.header.entries
  slots :
    ∀ index < logMaxSize, abstract.held (sblock.logBlock index) = false

/-- No block which the header lists is held. -/
def Unheld (abstract : Abstract) : Prop :=
  ∀ blockNo ∈ abstract.log.header.entries, abstract.held blockNo = false

section Commit

variable {roomy : Roomy sblock}

theorem Committable.fits (committable : Committable roomy abstract) :
    abstract.log.header.numBlocks ≤ logMaxSize := by
  have fits := committable.listable.fits
  rw [LogHeader.length_entries] at fits
  exact fits

theorem mem_entries
    (header : LogHeader)
    {index : Nat}
    (below : index < header.numBlocks) :
    header.blockNo index ∈ header.entries :=
  List.mem_map.mpr ⟨index, List.mem_range.mpr below, rfl⟩

theorem blockNo_idxOf
    {header : LogHeader}
    {blockNo : BlockNo}
    (member : blockNo ∈ header.entries) :
    header.blockNo (header.entries.idxOf blockNo) = blockNo := by
  have below := List.idxOf_lt_length_of_mem member
  rw [← LogHeader.getElem_entries header _ below]
  exact List.getElem_idxOf below

/-- The copies which a commit writes to the log. -/
def logCopies (roomy : Roomy sblock) (abstract : Abstract) (count : Nat) :
    List (BlockNo × BlockData) :=
  copies roomy.layout
    (fun index => abstract.current (abstract.log.header.blockNo index))
    count

/-- Copying to the log does not touch the home blocks. -/
theorem applyWrites_logCopies
    (disk : Disk)
    {count : Nat}
    (fits : count ≤ logMaxSize)
    {blockNo : BlockNo}
    (home : roomy.layout.Home blockNo) :
    applyWrites disk (logCopies roomy abstract count) blockNo =
      disk blockNo := by
  apply applyWrites_of_ne
  intro write written
  rcases List.mem_map.mp written with ⟨index, member, rfl⟩
  have below : index < logMaxSize :=
    Nat.lt_of_lt_of_le (List.mem_range.mp member) fits
  exact (home.2 index below).symm

/-- The first rounds of the first loop of a commit. -/
theorem copyToLog_loop
    (refines : Refines sblock cache abstract)
    (committable : Committable roomy abstract)
    {count : Nat}
    (within : count ≤ abstract.log.header.numBlocks)
    (free :
      ∀ index < count,
        abstract.held (abstract.log.header.blockNo index) = false) :
    ∃ result,
      (List.range count).foldlM (copyToLog sblock) cache = .ok result ∧
        Refines sblock result
          (storeAll abstract (logCopies roomy abstract count)) := by
  have fits := committable.fits
  apply foldlM_range_spec fun index middle =>
    Refines sblock middle
      (storeAll abstract (logCopies roomy abstract index))
  · show Refines sblock cache (storeAll abstract [])
    rw [storeAll_nil]
    exact refines
  · intro index below middle middleRefines
    have listed := Nat.lt_of_lt_of_le below within
    have home :=
      committable.listable.home _ (mem_entries abstract.log.header listed)
    have inLog : index < logMaxSize := Nat.lt_of_lt_of_le listed fits
    have log : middle.log = abstract.log :=
      congrArg Abstract.log middleRefines.seen
    rcases transfer_spec middleRefines
        (home.2 index inLog) home.1
        (roomy.layout.slot_ne_header index inLog)
        (free index below)
        (committable.slots index inLog) with
      ⟨target, transferred, targetRefines⟩
    refine ⟨target, ?_, ?_⟩
    · rw [copyToLog, log]
      exact transferred
    · have data :
          (storeAll abstract (logCopies roomy abstract index)).current
              (abstract.log.header.blockNo index) =
            abstract.current (abstract.log.header.blockNo index) :=
        applyWrites_logCopies _ (Nat.le_of_lt inLog) home
      rw [data, store_storeAll] at targetRefines
      rw [logCopies, copies_succ]
      exact targetRefines

/-- A commit which gets through its first loop finds every block free. -/
theorem unheld_of_copyToLog_loop
    (refines : Refines sblock cache abstract)
    (committable : Committable roomy abstract)
    {count : Nat}
    (within : count ≤ abstract.log.header.numBlocks)
    {result : Cache}
    (looped :
      (List.range count).foldlM (copyToLog sblock) cache = .ok result) :
    ∀ index < count,
      abstract.held (abstract.log.header.blockNo index) = false := by
  induction count generalizing result with
  | zero =>
      intro index below
      exact absurd below (Nat.not_lt_zero index)
  | succ count ih =>
      rw [foldlM_range_succ] at looped
      cases front :
          (List.range count).foldlM (copyToLog sblock) cache with
      | error stop =>
          rw [front] at looped
          simp [bind, Except.bind] at looped
      | ok middle =>
          have earlier := ih (Nat.le_of_succ_le within) front
          rcases copyToLog_loop refines committable
              (Nat.le_of_succ_le within) earlier with
            ⟨reached, sameFront, middleRefines⟩
          rw [front] at sameFront
          cases sameFront
          intro index below
          rcases Nat.lt_succ_iff_lt_or_eq.mp below with before | rfl
          · exact earlier index before
          · by_contra taken
            have held :
                abstract.held (abstract.log.header.blockNo index) = true :=
              Bool.eq_true_of_not_eq_false taken
            have log : middle.log = abstract.log :=
              congrArg Abstract.log middleRefines.seen
            rw [front] at looped
            simp [bind, Except.bind, copyToLog, transfer, log,
              cacheAcquire_held middleRefines held] at looped

/-- Blocks written to their homes and unpinned. -/
def installAll (abstract : Abstract) (blocks : List BlockNo) : Abstract :=
  { abstract with
    pinned := fun blockNo =>
      if blockNo ∈ blocks then false else abstract.pinned blockNo
    device :=
      { abstract.device with
        writes :=
          abstract.device.writes ++ installs abstract.current blocks } }

theorem installAll_nil (abstract : Abstract) :
    installAll abstract [] = abstract := by
  simp [installAll, installs]

theorem installAll_snoc
    (abstract : Abstract)
    (blocks : List BlockNo)
    (blockNo : BlockNo) :
    { installAll abstract blocks with
        pinned :=
          Function.update (installAll abstract blocks).pinned blockNo false
        device :=
          (installAll abstract blocks).device.write blockNo
            (abstract.current blockNo) } =
      installAll abstract (blocks ++ [blockNo]) := by
  have pinned :
      Function.update (installAll abstract blocks).pinned blockNo false =
        (installAll abstract (blocks ++ [blockNo])).pinned := by
    funext other
    by_cases same : other = blockNo
    · simp [installAll, same]
    · simp [installAll, same]
  rw [pinned]
  simp [installAll, installs, Device.write]

/-- The second loop of a commit. -/
theorem install_loop
    (refines : Refines sblock cache abstract)
    (committable : Committable roomy abstract)
    (unheld : Unheld abstract) :
    ∃ result,
      (List.range abstract.log.header.numBlocks).foldlM install cache =
          .ok result ∧
        Refines sblock result
          (installAll abstract abstract.log.header.entries) := by
  apply foldlM_range_spec fun index middle =>
    Refines sblock middle
      (installAll abstract
        ((List.range index).map abstract.log.header.blockNo))
  · show Refines sblock cache (installAll abstract [])
    rw [installAll_nil]
    exact refines
  · intro index below middle middleRefines
    have member := mem_entries abstract.log.header below
    have home := committable.listable.home _ member
    rcases install_spec middleRefines rfl home.1 (unheld _ member) with
      ⟨target, installed, targetRefines⟩
    refine ⟨target, installed, ?_⟩
    rw [List.range_succ, List.map_append]
    exact installAll_snoc abstract _ _ ▸ targetRefines

/-- The device after a commit. -/
def committedDevice (roomy : Roomy sblock) (abstract : Abstract) : Device :=
  { abstract.device with
    writes :=
      abstract.device.writes ++
        commitWrites roomy.layout abstract.current
          (fun index =>
            abstract.current (abstract.log.header.blockNo index))
          abstract.log.header.encode abstract.log.header.clear.encode }

/-- What a commit changes in the eyes of the callers. -/
structure Committed
    (roomy : Roomy sblock)
    (before after : Abstract) : Prop where
  held : after.held = before.held
  pinned :
    ∀ blockNo, after.pinned blockNo =
      if blockNo ∈ before.log.header.entries then false
      else before.pinned blockNo
  current :
    ∀ blockNo, roomy.layout.Home blockNo →
      after.current blockNo = before.current blockNo
  device : after.device = committedDevice roomy before
  log : after.log = finishCommit (clearHeader before.log)

theorem commit_spec
    (refines : Refines sblock cache abstract)
    (committable : Committable roomy abstract)
    (unheld : Unheld abstract) :
    ∃ result after,
      commit sblock cache = .ok result ∧
        Refines sblock result after ∧ Committed roomy abstract after := by
  have fits := committable.fits
  have log : cache.log = abstract.log := congrArg Abstract.log refines.seen
  rcases copyToLog_loop refines committable (Nat.le_refl _)
      (fun index below =>
        unheld _ (mem_entries abstract.log.header below)) with
    ⟨copied, copying, copiedRefines⟩
  have logged := writeHeader_spec copiedRefines
  rw [store_storeAll] at logged
  rcases install_loop logged
      ⟨committable.listable, committable.slots⟩ unheld with
    ⟨installed, installing, installedRefines⟩
  have cleared :=
    writeHeader_spec
      (installedRefines.withLog (clearHeader abstract.log))
  have finished :=
    cleared.withLog (finishCommit (clearHeader abstract.log))
  have copiedLog : copied.log = abstract.log :=
    congrArg Abstract.log copiedRefines.seen
  have installedLog : installed.log = abstract.log :=
    congrArg Abstract.log installedRefines.seen
  refine ⟨_, _, ?_, finished, ?_⟩
  · simp only [commit, log, copying, bind, Except.bind]
    simp only [storeAll] at installing
    rw [installing]
    simp only [installedLog]
    rfl
  · have untouched :
        ∀ blockNo, roomy.layout.Home blockNo →
          applyWrites abstract.current
              (logCopies roomy abstract abstract.log.header.numBlocks ++
                [(sblock.headerBlock, abstract.log.header.encode)])
              blockNo =
            abstract.current blockNo := by
      intro blockNo home
      rw [applyWrites_append]
      refine Eq.trans (Function.update_of_ne home.1 _ _) ?_
      exact applyWrites_logCopies _ fits home
    have sameInstalls :
        installs
            (applyWrites abstract.current
              (logCopies roomy abstract abstract.log.header.numBlocks ++
                [(sblock.headerBlock, abstract.log.header.encode)]))
            abstract.log.header.entries =
          installs abstract.current abstract.log.header.entries := by
      apply List.map_congr_left
      intro blockNo member
      rw [untouched blockNo (committable.listable.home blockNo member)]
    refine ⟨rfl, fun _ => rfl, ?_, ?_, rfl⟩
    · intro blockNo home
      refine Eq.trans ?_ (untouched blockNo home)
      exact Function.update_of_ne home.1 _ _
    · have entries := roomy.entries_encode fits
      simp only [committedDevice, commitWrites, entries,
        LogHeader.length_entries]
      simp only [installAll, storeAll, Abstract.store, Device.write,
        List.append_assoc, List.cons_append, List.nil_append]
      rw [← sameInstalls]
      rfl

/-- A commit leaves the home blocks which it does not list alone. -/
theorem contents_committedDevice
    (committable : Committable roomy abstract)
    {blockNo : BlockNo}
    (home : roomy.layout.Home blockNo)
    (unlisted : blockNo ∉ abstract.log.header.entries) :
    (committedDevice roomy abstract).contents blockNo =
      abstract.device.contents blockNo := by
  have fits := committable.fits
  have entries := roomy.entries_encode fits
  rw [committedDevice, Device.contents, applyWrites_append]
  apply applyWrites_of_ne
  intro write written same
  rw [commitWrites, entries] at written
  rcases List.mem_append.mp written with copied | later
  · rcases List.mem_map.mp copied with ⟨index, member, rfl⟩
    rw [LogHeader.length_entries] at member
    have below : index < logMaxSize :=
      Nat.lt_of_lt_of_le (List.mem_range.mp member) fits
    exact home.2 index below same.symm
  · rcases List.mem_cons.mp later with rfl | last
    · exact home.1 same.symm
    · rcases List.mem_append.mp last with installed | cleared
      · rcases List.mem_map.mp installed with ⟨other, member, rfl⟩
        exact unlisted (same ▸ member)
      · rw [List.mem_singleton.mp cleared] at same
        exact home.1 same.symm

/-- A commit which returns found every listed block free. -/
theorem unheld_of_commit
    (refines : Refines sblock cache abstract)
    (committable : Committable roomy abstract)
    {result : Cache}
    (committed : commit sblock cache = .ok result) :
    Unheld abstract := by
  have log : cache.log = abstract.log := congrArg Abstract.log refines.seen
  cases looped :
      (List.range abstract.log.header.numBlocks).foldlM
        (copyToLog sblock) cache with
  | error stop =>
      simp [commit, log, looped, bind, Except.bind] at committed
  | ok middle =>
      intro blockNo member
      rcases List.mem_map.mp member with ⟨index, below, rfl⟩
      exact unheld_of_copyToLog_loop refines committable (Nat.le_refl _)
        looped index (List.mem_range.mp below)

/-! ## Recovery -/

theorem boot_header (sblock : SuperBlock) (disk : Disk) :
    (bootCache sblock disk).log.header =
      LogHeader.decode (disk sblock.headerBlock) :=
  rfl

theorem boot_refines (sblock : SuperBlock) (disk : Disk) :
    Refines sblock (bootCache sblock disk)
      (view (bootCache sblock disk)) := by
  refine ⟨⟨List.nodup_nil, rfl, by simp [bootCache], rfl⟩, rfl, ?_⟩
  intro blockNo _ _
  rfl

/-- The entry at a position is copied from the slot of that position. -/
theorem contents_entry
    {contents disk : Disk}
    {header : LogHeader}
    (logged : roomy.layout.logged disk = header.entries)
    (represents : roomy.layout.Represents contents disk)
    {index : Nat}
    (below : index < header.numBlocks) :
    contents (header.blockNo index) = disk (sblock.logBlock index) := by
  have member : header.blockNo index ∈ roomy.layout.logged disk := by
    rw [logged]
    exact mem_entries header below
  have view := represents.view _ (represents.listable.home _ member)
  rw [Layout.view, if_pos member, logged] at view
  have inside : index < header.entries.length := by
    rw [LogHeader.length_entries]
    exact below
  have nodup : header.entries.Nodup := logged ▸ represents.listable.nodup
  have position : header.entries.idxOf (header.blockNo index) = index := by
    rw [← LogHeader.getElem_entries header index inside]
    exact nodup.idxOf_getElem index inside
  rw [position] at view
  exact view.symm

/-- The device after a recovery. -/
def recoveredDevice
    (roomy : Roomy sblock)
    (contents disk : Disk)
    (header : LogHeader) : Device where
  initial := disk
  writes :=
    installs contents (roomy.layout.logged disk) ++
      [(sblock.headerBlock, header.encode)]

/-- What the callers find after a recovery. -/
structure Recovered
    (roomy : Roomy sblock)
    (contents disk : Disk)
    (after : Abstract) : Prop where
  held : ∀ blockNo, after.held blockNo = false
  pinned : ∀ blockNo, after.pinned blockNo = false
  log :
    after.log.header.numBlocks = 0 ∧
      after.log.iscommit = false ∧ after.log.outstanding = 0
  device :
    after.device = recoveredDevice roomy contents disk after.log.header

/-- The recovery loop of `init_bcache`. -/
theorem copyFromLog_loop
    {contents disk : Disk}
    {header : LogHeader}
    (log : (bootCache sblock disk).log.header = header)
    (logged : roomy.layout.logged disk = header.entries)
    (represents : roomy.layout.Represents contents disk) :
    ∃ result,
      (List.range header.numBlocks).foldlM (copyFromLog sblock)
          (bootCache sblock disk) = .ok result ∧
        Refines sblock result
          (storeAll (view (bootCache sblock disk))
            (installs contents header.entries)) := by
  have listable := represents.listable
  rw [logged] at listable
  have fits := listable.fits
  rw [LogHeader.length_entries] at fits
  apply foldlM_range_spec fun index middle =>
    Refines sblock middle
      (storeAll (view (bootCache sblock disk))
        (installs contents ((List.range index).map header.blockNo)))
  · show Refines sblock _ (storeAll _ [])
    rw [storeAll_nil]
    exact boot_refines sblock disk
  · intro index below middle middleRefines
    have inLog : index < logMaxSize := Nat.lt_of_lt_of_le below fits
    have home := listable.home _ (mem_entries header below)
    have middleLog : middle.log.header = header :=
      (congrArg (fun abstract => abstract.log.header)
        middleRefines.seen).trans log
    rcases transfer_spec middleRefines
        (home.2 index inLog).symm
        (roomy.layout.slot_ne_header index inLog) home.1
        rfl rfl with
      ⟨target, transferred, targetRefines⟩
    refine ⟨target, ?_, ?_⟩
    · rw [copyFromLog, if_neg (Nat.not_le_of_lt inLog), middleLog]
      exact transferred
    · have data :
          (storeAll (view (bootCache sblock disk))
              (installs contents
                ((List.range index).map header.blockNo))).current
              (roomy.layout.slot index) =
            contents (header.blockNo index) := by
        rw [contents_entry logged represents below]
        apply applyWrites_of_ne
        intro write written same
        rcases List.mem_map.mp written with ⟨blockNo, earlier, rfl⟩
        rcases List.mem_map.mp earlier with ⟨before, inRange, rfl⟩
        have listed :=
          mem_entries header
            (Nat.lt_trans (List.mem_range.mp inRange) below)
        exact (listable.home _ listed).2 index inLog same
      rw [data, store_storeAll] at targetRefines
      rw [List.range_succ, List.map_append, installs, List.map_append]
      exact targetRefines

theorem initBcache_header
    {contents disk : Disk}
    {header : LogHeader}
    (log : (bootCache sblock disk).log.header = header)
    (logged : roomy.layout.logged disk = header.entries)
    (represents : roomy.layout.Represents contents disk) :
    ∃ result after,
      initBcache sblock disk = .ok result ∧
        Refines sblock result after ∧
        Recovered roomy contents disk after := by
  rcases copyFromLog_loop log logged represents with
    ⟨middle, looped, middleRefines⟩
  have middleLog : middle.log = (bootCache sblock disk).log :=
    congrArg Abstract.log middleRefines.seen
  have written :=
    writeHeader_spec
      (middleRefines.withLog (emptyLog (bootCache sblock disk).log))
  rw [← middleLog] at written
  refine ⟨_, _, ?_, written, ?_⟩
  · rw [initBcache, log, looped]
    rfl
  · rw [middleLog]
    refine ⟨fun _ => rfl, fun _ => rfl, ⟨rfl, rfl, rfl⟩, ?_⟩
    simp [recoveredDevice, logged, storeAll, Abstract.store, Device.write,
      view, bootCache]

/-- `init_bcache` installs what the log of the disk lists. -/
theorem initBcache_spec
    {contents disk : Disk}
    (represents : roomy.layout.Represents contents disk) :
    ∃ result after,
      initBcache sblock disk = .ok result ∧
        Refines sblock result after ∧
        Recovered roomy contents disk after :=
  initBcache_header (boot_header sblock disk) (roomy.logged_eq disk)
    represents

end Commit

end Rounds

/-! ## An empty disk -/

/-- The layout of `mkfs` with one block more for the log. -/
def roomySuperBlock : SuperBlock where
  numBlocks := 1000
  numDataBlocks := 906
  numInodes := 200
  numLogBlocks := 64
  logStart := 2
  inodeStart := 66
  bitmapStart := 92

theorem roomySuperBlock_roomy : Roomy roomySuperBlock where
  room := by decide
  onDisk := by decide

def zeroDisk : Disk :=
  fun _ _ => 0

theorem zeroDisk_installed :
    roomySuperBlock_roomy.layout.Installed zeroDisk zeroDisk where
  idle := by
    have empty :
        (LogHeader.decode
          (zeroDisk roomySuperBlock.headerBlock)).numBlocks = 0 := by
      decide
    rw [Roomy.logged_eq, ← List.length_eq_zero_iff, LogHeader.length_entries,
      empty]
  home := fun _ _ => rfl

end FudanOS.Fs.LogCommit
