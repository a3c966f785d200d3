import FudanOS.Fs.InodeSpecs
import FudanOS.Fs.FileContents

/-!
# Reading and writing a file

`inode_read` and `inode_write` of `fs/inode.c` against the bytes of a file.
Both cut the range at the boundaries of the blocks; a write maps each block
before it copies into it.
-/

namespace FudanOS.Fs.FileSpecs

open FudanOS.Library.Programs
open FudanOS.Fs.Defines
open FudanOS.Fs.BlockBitmap
open FudanOS.Fs.InodeLayout
open FudanOS.Fs.InodeLayer
open FudanOS.Fs.BlockOwnership
open FudanOS.Fs.FileContents
open FudanOS.Fs.InodeSpecs

variable
    {sblock : SuperBlock}
    {accepts : Stop → Prop}
    {store : Store}
    {inode : Inode}

/-! ## Reading -/

/-- The loop of `inode_read` returns the bytes of the range. -/
theorem ensures_readLoop
    (geometry : Geometry sblock)
    (calm : Calm sblock store)
    (owned : Owned sblock (view sblock store.blocks))
    (loaded : Loaded sblock (view sblock store.blocks) inode)
    {finish : Nat}
    (present :
      ∀ index, index * blockSize < finish →
        HasBlock (view sblock store.blocks) inode.inodeNo index)
    {fuel position : Nat}
    (enough : finish - position ≤ fuel) :
    Ensures accepts (readLoop sblock inode finish fuel position) store
      fun bytes target =>
        bytes =
            (List.range (finish - position)).map
              (fun index =>
                fileByte (view sblock store.blocks) inode.inodeNo
                  (position + index)) ∧
          target = store := by
  induction fuel generalizing position with
  | zero =>
      have empty : finish - position = 0 := by omega
      simp [readLoop, empty]
  | succ fuel ih =>
      unfold readLoop
      refine ensures_ite ?_ ?_
      · intro inside
        have blockBefore : position / blockSize * blockSize < finish :=
          Nat.lt_of_le_of_lt (Nat.div_mul_le_self _ _) inside
        rcases present _ blockBefore with ⟨slot, isSlot, nonzero⟩
        have isData :
            IsData sblock
              (stored (view sblock store.blocks) inode.inodeNo slot) :=
          owned.exact.inside (inode.inodeNo, slot) loaded.allocated nonzero
        rw [ensures_bind]
        refine Ensures.mono
          (ensures_inodeMap_lookup geometry calm owned loaded isSlot) ?_
        rintro mapped middle ⟨-, blockEq, rfl⟩
        rw [ensures_bind, blockEq]
        refine ensures_acquire (calm.data_free geometry isData) ?_
        simp only [ensures_bind, ensures_release, List.erase_cons_head]
        have next :
            finish - (position / blockSize + 1) * blockSize ≤ fuel := by
          simp only [blockSize] at *
          omega
        refine Ensures.mono (ih next) ?_
        rintro rest target ⟨rfl, rfl⟩
        rw [ensures_pure]
        refine ⟨?_, rfl⟩
        have dataEq :
            (view sblock target.blocks).data
                (stored (view sblock target.blocks) inode.inodeNo slot) =
              target.blocks
                (stored (view sblock target.blocks) inode.inodeNo
                  slot) := by
          simp only [view]
          exact if_pos isData
        apply List.ext_getElem
        · simp only [List.length_append, List.length_map,
            List.length_range, blockSize]
          omega
        · intro index _ below
          simp only [List.length_map, List.length_range] at below
          rw [List.getElem_append]
          simp only [List.length_map, List.length_range, List.getElem_map,
            List.getElem_range]
          split_ifs with early
          · have sameBlock :
                (position + index) / blockSize = position / blockSize := by
              simp only [blockSize] at *
              omega
            have offset :
                (position + index) % blockSize =
                  position % blockSize + index := by
              simp only [blockSize] at *
              omega
            simp only [fileByte, sameBlock, isSlot, slotByte,
              if_neg nonzero, offset, dataEq]
          · congr 1
            simp only [blockSize] at *
            omega
      · intro outside
        have empty : finish - position = 0 := by omega
        simp [empty]

/-- What `inode_read` of a range within the file returns. -/
theorem ensures_inodeRead
    (geometry : Geometry sblock)
    (calm : Calm sblock store)
    (owned : Owned sblock (view sblock store.blocks))
    (loaded : Loaded sblock (view sblock store.blocks) inode)
    (present :
      ∀ index,
        index * blockSize <
            fileSize (view sblock store.blocks) inode.inodeNo →
          HasBlock (view sblock store.blocks) inode.inodeNo index)
    (console : ConsoleRead)
    (notDevice : inode.entry.type ≠ inodeDevice)
    {offset count : Nat}
    (inside :
      offset ≤ fileSize (view sblock store.blocks) inode.inodeNo)
    (fits : offset + count < usizeModulus) :
    Ensures accepts (inodeRead sblock console inode offset count) store
      fun result target =>
        result.1 =
            min count
              (fileSize (view sblock store.blocks) inode.inodeNo -
                offset) ∧
          result.2 =
            ((contents (view sblock store.blocks)
              inode.inodeNo).drop offset).take count ∧
          target = store := by
  have size :
      inode.entry.numBytes.toNat =
        fileSize (view sblock store.blocks) inode.inodeNo := by
    rw [fileSize, loaded.entry]
  have bound :
      fileSize (view sblock store.blocks) inode.inodeNo < usizeModulus := by
    have below := (inode.entry.numBytes).toNat_lt
    rw [size] at below
    exact Nat.lt_of_lt_of_le below (by decide)
  generalize isSize :
    fileSize (view sblock store.blocks) inode.inodeNo = numBytes at *
  unfold inodeRead
  rw [if_neg notDevice, size]
  have clamped :
      (if numBytes < (count + offset) % usizeModulus then
          (numBytes + usizeModulus - offset) % usizeModulus
        else count) = min count (numBytes - offset) := by
    rw [Nat.add_comm count offset, Nat.mod_eq_of_lt fits]
    split_ifs with beyond
    · simp only [usizeModulus] at *
      omega
    · omega
  simp only [clamped]
  have finishEq :
      (offset + min count (numBytes - offset)) % usizeModulus =
        offset + min count (numBytes - offset) := by
    apply Nat.mod_eq_of_lt
    omega
  simp only [finishEq, ensures_bind]
  refine ensures_assert (by simpa using inside) ?_
  refine ensures_assert (by simp; omega) ?_
  refine ensures_assert (by simp) ?_
  have loopPresent :
      ∀ index, index * blockSize < offset + min count (numBytes - offset) →
        HasBlock (view sblock store.blocks) inode.inodeNo index := by
    intro index before
    exact present index (by omega)
  refine Ensures.mono
    (ensures_readLoop geometry calm owned loaded loopPresent
      (Nat.le_refl _)) ?_
  rintro bytes target ⟨rfl, rfl⟩
  rw [ensures_pure]
  refine ⟨rfl, ?_, rfl⟩
  have length : (contents (view sblock target.blocks) inode.inodeNo).length =
      numBytes := by
    rw [length_contents, isSize]
  apply List.ext_getElem
  · simp [length]
  · intro index _ _
    simp [contents]

/-! ## Writing -/

/-- The bytes from `first` to `last` of one file are replaced. -/
structure Rewrites
    (sblock : SuperBlock)
    (inodeNo first last : Nat)
    (src : List UInt8)
    (start finish : View) : Prop where
  owned : Owned sblock finish
  apart : Apart sblock inodeNo start finish
  fields : SameFields (finish.entry inodeNo) (start.entry inodeNo)
  bytes :
    ∀ position,
      fileByte finish inodeNo position =
        if first ≤ position ∧ position < last then
          src.getD (position - first) 0
        else
          fileByte start inodeNo position
  kept :
    ∀ index, HasBlock start inodeNo index → HasBlock finish inodeNo index
  filled :
    ∀ position, first ≤ position → position < last →
      HasBlock finish inodeNo (position / blockSize)

theorem Rewrites.allocated
    {inodeNo first last : Nat}
    {src : List UInt8}
    {start finish : View}
    (rewrites : Rewrites sblock inodeNo first last src start finish)
    (allocated : Allocated sblock start inodeNo) :
    Allocated sblock finish inodeNo := by
  unfold Allocated
  rw [rewrites.fields.type]
  exact allocated

theorem Rewrites.empty
    {inodeNo first last : Nat}
    {src : List UInt8}
    {start : View}
    (owned : Owned sblock start)
    (nothing : last ≤ first) :
    Rewrites sblock inodeNo first last src start start := by
  refine ⟨owned, Apart.refl, ⟨rfl, rfl, rfl, rfl, rfl⟩, ?_,
    fun _ present => present, ?_⟩
  · intro position
    rw [if_neg (by omega)]
  · intro position after before
    omega

/-- A range is rewritten up to the end of a block, then from the next. -/
theorem Rewrites.append
    {inodeNo first len next last : Nat}
    {src : List UInt8}
    {start middle finish : View}
    (front : Rewrites sblock inodeNo first (first + len) src start middle)
    (rest : Rewrites sblock inodeNo next last (src.drop len) middle finish)
    (meets : first + len = min last next)
    (forward : first ≤ next) :
    Rewrites sblock inodeNo first last src start finish := by
  refine ⟨rest.owned, front.apart.trans rest.apart, ?_, ?_, ?_, ?_⟩
  · exact ⟨rest.fields.type.trans front.fields.type,
      rest.fields.major.trans front.fields.major,
      rest.fields.minor.trans front.fields.minor,
      rest.fields.numLinks.trans front.fields.numLinks,
      rest.fields.numBytes.trans front.fields.numBytes⟩
  · intro position
    rw [rest.bytes, front.bytes]
    by_cases late : next ≤ position ∧ position < last
    · rw [if_pos late, if_pos (by omega)]
      simp only [List.getD_eq_getElem?_getD, List.getElem?_drop]
      congr 2
      omega
    · rw [if_neg late]
      by_cases early : first ≤ position ∧ position < first + len
      · rw [if_pos early, if_pos (by omega)]
      · rw [if_neg early, if_neg (by omega)]
  · intro index present
    exact rest.kept index (front.kept index present)
  · intro position after before
    by_cases late : next ≤ position
    · exact rest.filled position late before
    · exact rest.kept _ (front.filled position after (by omega))

/-- A block is found or attached, and bytes are copied into it. -/
theorem rewrites_of_extends
    {start middle : View}
    {inodeNo position len : Nat}
    {slot : Slot}
    (owned : Owned sblock start)
    (startAllocated : Allocated sblock start inodeNo)
    (extended : Extends sblock inodeNo start middle)
    (isSlot : slotOf (position / blockSize) = some slot)
    (present : stored middle inodeNo slot ≠ 0)
    (fits : position % blockSize + len ≤ blockSize)
    (src : List UInt8) :
    Rewrites sblock inodeNo position (position + len) src start
      (withData middle (stored middle inodeNo slot)
        (patch (middle.data (stored middle inodeNo slot))
          (position % blockSize) len fun index => src.getD index 0)) := by
  have notIndirect : slot ≠ .indirect := by
    rintro rfl
    exact slotOf_ne_indirect isSlot
  have ownedMiddle := extended.owned owned startAllocated
  have allocated := (extended.allocated_iff inodeNo).mpr startAllocated
  have stays := extended.sameFields inodeNo
  refine ⟨owned_withData ownedMiddle allocated notIndirect, ?_, stays,
    ?_, ?_, ?_⟩
  · exact (Extends.apart extended owned startAllocated).trans
      (apart_withData ownedMiddle allocated)
  · intro other
    rw [fileByte_withData ownedMiddle allocated isSlot present fits,
      Extends.fileByte extended owned startAllocated]
  · intro index had
    rcases Extends.hasBlock extended owned startAllocated had
      with ⟨place, isPlace, nonzero⟩
    refine ⟨place, isPlace, ?_⟩
    rwa [stored_withData ownedMiddle allocated notIndirect allocated]
  · intro other after before
    have sameBlock : other / blockSize = position / blockSize := by
      simp only [blockSize] at *
      omega
    refine ⟨slot, sameBlock ▸ isSlot, ?_⟩
    rwa [stored_withData ownedMiddle allocated notIndirect allocated]

/-- One iteration of the loop of `inode_write`. -/
theorem ensures_writeBlock
    (geometry : Geometry sblock)
    (calm : Calm sblock store)
    (owned : Owned sblock (view sblock store.blocks))
    (loaded : Loaded sblock (view sblock store.blocks) inode)
    {position len : Nat}
    (inside : position / blockSize < inodeMaxBlocks)
    (fits : position % blockSize + len ≤ blockSize)
    (src : List UInt8)
    {Result : Type}
    (next : Inode → Program Store Stop Result)
    {post : Result → Store → Prop}
    (continues :
      ∀ target, target.held = store.held →
        Rewrites sblock inode.inodeNo position (position + len) src
          (view sblock store.blocks) (view sblock target.blocks) →
        Ensures Stop.Exhausted
          (next
            { inode with
              entry := (view sblock target.blocks).entry inode.inodeNo })
          target post) :
    Ensures Stop.Exhausted
      (do
        let mapped ← inodeMap sblock true inode (position / blockSize)
        let _ ← acquire mapped.blockNo
        edit mapped.blockNo fun data =>
          patch data (position % blockSize) len fun index =>
            src.getD index 0
        sync mapped.blockNo
        release mapped.blockNo
        next mapped.inode)
      store post := by
  rcases slotOf_isSome inside with ⟨slot, isSlot⟩
  simp only [ensures_bind]
  refine Ensures.mono
    (ensures_inodeMap geometry calm owned loaded isSlot) ?_
  intro mapped middle maps
  have ownedMiddle := maps.extended.owned owned loaded.allocated
  have allocated :=
    (maps.extended.allocated_iff inode.inodeNo).mpr loaded.allocated
  have present :
      stored (view sblock middle.blocks) inode.inodeNo slot ≠ 0 := by
    rw [← maps.block]
    exact maps.present
  have isData :
      IsData sblock
        (stored (view sblock middle.blocks) inode.inodeNo slot) :=
    ownedMiddle.exact.inside (inode.inodeNo, slot) allocated present
  rw [maps.block]
  refine ensures_acquire
    ((calm.of_held maps.held).data_free geometry isData) ?_
  simp only [ensures_edit]
  refine ensures_sync ?_
  intro logged rm
  rw [ensures_release, maps.reloaded]
  have dataEq :
      middle.blocks
          (stored (view sblock middle.blocks) inode.inodeNo slot) =
        (view sblock middle.blocks).data
          (stored (view sblock middle.blocks) inode.inodeNo slot) := by
    simp only [view]
    exact (if_pos isData).symm
  have viewEq :
      ∀ data,
        view sblock
            (Function.update middle.blocks
              (stored (view sblock middle.blocks) inode.inodeNo slot)
              data) =
          withData (view sblock middle.blocks)
            (stored (view sblock middle.blocks) inode.inodeNo slot)
            data := by
    intro data
    exact view_setData geometry _ isData _
  have sameEntry :
      ∀ data,
        (view sblock
            (Function.update middle.blocks
              (stored (view sblock middle.blocks) inode.inodeNo slot)
              data)).entry =
          (view sblock middle.blocks).entry := by
    intro data
    rw [viewEq]
    rfl
  have proceed :=
    continues
      { middle with
        blocks :=
          Function.update middle.blocks
            (stored (view sblock middle.blocks) inode.inodeNo slot)
            (patch
              (middle.blocks
                (stored (view sblock middle.blocks) inode.inodeNo slot))
              (position % blockSize) len fun index => src.getD index 0)
        logged := logged
        rm := rm }
      maps.held ?_
  · simpa only [sameEntry, List.erase_cons_head] using proceed
  · simp only [viewEq, dataEq]
    exact rewrites_of_extends owned loaded.allocated maps.extended isSlot
      present fits src

/-- The loop of `inode_write` rewrites the range. -/
theorem ensures_writeLoop
    (geometry : Geometry sblock)
    {finish : Nat}
    (bounded : finish ≤ inodeMaxBytes)
    {fuel position : Nat}
    (enough : finish - position ≤ fuel)
    {src : List UInt8}
    (calm : Calm sblock store)
    (owned : Owned sblock (view sblock store.blocks))
    (loaded : Loaded sblock (view sblock store.blocks) inode) :
    Ensures Stop.Exhausted
      (writeLoop sblock finish fuel inode src position) store
      fun result target =>
        result =
            { inode with
              entry := (view sblock target.blocks).entry inode.inodeNo } ∧
          target.held = store.held ∧
          Rewrites sblock inode.inodeNo position finish src
            (view sblock store.blocks) (view sblock target.blocks) := by
  have unchanged :
      finish ≤ position →
        inode =
            { inode with
              entry := (view sblock store.blocks).entry inode.inodeNo } ∧
          store.held = store.held ∧
          Rewrites sblock inode.inodeNo position finish src
            (view sblock store.blocks) (view sblock store.blocks) := by
    intro done
    refine ⟨?_, rfl, Rewrites.empty owned done⟩
    rw [← loaded.entry]
  induction fuel generalizing position src store inode with
  | zero =>
      rw [writeLoop, ensures_pure]
      exact unchanged (by omega)
  | succ fuel ih =>
      unfold writeLoop
      refine ensures_ite ?_ ?_
      · intro inside
        have blockInside : position / blockSize < inodeMaxBlocks := by
          simp only [inodeMaxBytes, inodeMaxBlocks, inodeNumDirect,
            inodeNumIndirect, blockSize] at *
          omega
        have below := Nat.mod_lt position (show 0 < blockSize by decide)
        have fits :
            position % blockSize +
                min (finish - position)
                  (blockSize - position % blockSize) ≤
              blockSize := by
          omega
        dsimp only
        refine ensures_writeBlock geometry calm owned loaded blockInside fits
          src
          (fun inode =>
            writeLoop sblock finish fuel inode
              (src.drop
                (min (finish - position)
                  (blockSize - position % blockSize)))
              ((position / blockSize + 1) * blockSize))
          ?_
        intro middle held rewrites
        have loadedMiddle :
            Loaded sblock (view sblock middle.blocks)
              { inode with
                entry :=
                  (view sblock middle.blocks).entry inode.inodeNo } :=
          ⟨loaded.valid, rfl, rewrites.allocated loaded.allocated⟩
        have next :
            finish - (position / blockSize + 1) * blockSize ≤ fuel := by
          simp only [blockSize] at *
          omega
        refine Ensures.mono
          (ih next (calm.of_held held) rewrites.owned loadedMiddle ?_) ?_
        · intro done
          exact ⟨rfl, rfl, Rewrites.empty rewrites.owned done⟩
        · rintro result target ⟨rfl, heldLate, rest⟩
          refine ⟨rfl, heldLate.trans held, rewrites.append rest ?_ ?_⟩
          · simp only [blockSize] at *
            omega
          · simp only [blockSize] at *
            omega
      · intro outside
        rw [ensures_pure]
        exact unchanged (by omega)

/-! ## The size of the file -/

/-- The addresses of an inode alone decide its bytes. -/
theorem fileByte_withEntry
    {start : View}
    {inodeNo : Nat}
    {entry : InodeEntry}
    (addrs : entry.addrs = (start.entry inodeNo).addrs)
    (indirect : entry.indirect = (start.entry inodeNo).indirect)
    (position : Nat) :
    fileByte (withEntry start inodeNo entry) inodeNo position =
      fileByte start inodeNo position := by
  have sameStored :
      ∀ place,
        stored (withEntry start inodeNo entry) inodeNo place =
          stored start inodeNo place := by
    intro place
    cases place <;> simp [stored, withEntry, addrs, indirect]
  unfold fileByte
  split
  · unfold slotByte
    rw [sameStored]
    rfl
  · rfl

theorem hasBlock_withEntry
    {start : View}
    {inodeNo : Nat}
    {entry : InodeEntry}
    (addrs : entry.addrs = (start.entry inodeNo).addrs)
    (indirect : entry.indirect = (start.entry inodeNo).indirect)
    {index : Nat}
    (present : HasBlock start inodeNo index) :
    HasBlock (withEntry start inodeNo entry) inodeNo index := by
  rcases present with ⟨slot, isSlot, nonzero⟩
  refine ⟨slot, isSlot, ?_⟩
  cases slot <;> simpa [stored, withEntry, addrs, indirect] using nonzero

/-- What `inode_write` does to the file. -/
structure Writes
    (sblock : SuperBlock)
    (inodeNo first last : Nat)
    (src : List UInt8)
    (start finish : View) : Prop where
  owned : Owned sblock finish
  apart : Apart sblock inodeNo start finish
  type : (finish.entry inodeNo).type = (start.entry inodeNo).type
  numLinks : (finish.entry inodeNo).numLinks = (start.entry inodeNo).numLinks
  size : fileSize finish inodeNo = max (fileSize start inodeNo) last
  bytes :
    ∀ position,
      fileByte finish inodeNo position =
        if first ≤ position ∧ position < last then
          src.getD (position - first) 0
        else
          fileByte start inodeNo position
  kept :
    ∀ index, HasBlock start inodeNo index → HasBlock finish inodeNo index
  filled :
    ∀ position, first ≤ position → position < last →
      HasBlock finish inodeNo (position / blockSize)

theorem Rewrites.writes
    {inodeNo first last : Nat}
    {src : List UInt8}
    {start finish : View}
    (rewrites : Rewrites sblock inodeNo first last src start finish)
    (within : last ≤ fileSize start inodeNo) :
    Writes sblock inodeNo first last src start finish := by
  refine ⟨rewrites.owned, rewrites.apart, rewrites.fields.type,
    rewrites.fields.numLinks, ?_, rewrites.bytes, rewrites.kept,
    rewrites.filled⟩
  rw [Nat.max_eq_left within, fileSize, rewrites.fields.numBytes, fileSize]

/-- The size grows first, then the bytes are written. -/
theorem Rewrites.writes_grown
    {inodeNo first last : Nat}
    {src : List UInt8}
    {start finish : View}
    {entry : InodeEntry}
    (rewrites :
      Rewrites sblock inodeNo first last src
        (withEntry start inodeNo entry) finish)
    (isEntry :
      entry =
        { start.entry inodeNo with numBytes := UInt32.ofNat last })
    (small : last < 2 ^ 32)
    (beyond : fileSize start inodeNo < last) :
    Writes sblock inodeNo first last src start finish := by
  have addrs : entry.addrs = (start.entry inodeNo).addrs := by
    rw [isEntry]
  have indirect : entry.indirect = (start.entry inodeNo).indirect := by
    rw [isEntry]
  have entryEq : (withEntry start inodeNo entry).entry inodeNo = entry := by
    simp [withEntry]
  have fields := rewrites.fields
  rw [entryEq, isEntry] at fields
  refine ⟨rewrites.owned, Apart.withEntry.trans rewrites.apart, fields.type,
    fields.numLinks, ?_, ?_, ?_, rewrites.filled⟩
  · rw [Nat.max_eq_right (Nat.le_of_lt beyond), fileSize, fields.numBytes]
    exact UInt32.toNat_ofNat_of_lt small
  · intro position
    rw [rewrites.bytes, fileByte_withEntry addrs indirect]
  · intro index present
    exact rewrites.kept index (hasBlock_withEntry addrs indirect present)

theorem ensures_assert_of
    {condition : Bool}
    {post : Unit → Store → Prop}
    (known : accepts .assertion ∨ condition = true)
    (continues : condition = true → post () store) :
    Ensures accepts (InodeLayer.assert condition) store post := by
  unfold InodeLayer.assert
  by_cases holds : condition = true
  · rw [if_pos holds, ensures_pure]
    exact continues holds
  · rw [if_neg holds, ensures_throw]
    exact known.resolve_right holds

/-- `inode_write` of a file which is not a device. -/
theorem ensures_inodeWrite
    (geometry : Geometry sblock)
    (calm : Calm sblock store)
    (owned : Owned sblock (view sblock store.blocks))
    (loaded : Loaded sblock (view sblock store.blocks) inode)
    (notDevice : inode.entry.type ≠ inodeDevice)
    (exhausted : ∀ stop : Stop, stop.Exhausted → accepts stop)
    {src : List UInt8}
    {offset : Nat}
    (asserted :
      accepts .assertion ∨
        offset ≤ fileSize (view sblock store.blocks) inode.inodeNo ∧
          offset + src.length ≤ inodeMaxBytes) :
    Ensures accepts (inodeWrite sblock inode src offset) store
      fun result target =>
        result.2 = src.length ∧
          result.1 =
            { inode with
              entry := (view sblock target.blocks).entry inode.inodeNo } ∧
          target.held = store.held ∧
          offset ≤ fileSize (view sblock store.blocks) inode.inodeNo ∧
          (offset + src.length) % usizeModulus ≤ inodeMaxBytes ∧
          offset ≤ (offset + src.length) % usizeModulus ∧
          Writes sblock inode.inodeNo offset
            ((offset + src.length) % usizeModulus) src
            (view sblock store.blocks) (view sblock target.blocks) := by
  have size :
      inode.entry.numBytes.toNat =
        fileSize (view sblock store.blocks) inode.inodeNo := by
    rw [fileSize, loaded.entry]
  have wraps :
      offset + src.length ≤ inodeMaxBytes →
        (offset + src.length) % usizeModulus = offset + src.length := by
    intro small
    exact Nat.mod_eq_of_lt (Nat.lt_of_le_of_lt small (by decide))
  unfold inodeWrite
  simp only [if_neg notDevice, size, ensures_bind]
  refine ensures_assert_of
    (asserted.imp_right fun both => decide_eq_true both.1) ?_
  intro inside
  replace inside := of_decide_eq_true inside
  refine ensures_assert_of
    (asserted.imp_right fun both =>
      decide_eq_true ((wraps both.2).trans_le both.2)) ?_
  intro bounded
  replace bounded := of_decide_eq_true bounded
  refine ensures_assert_of
    (asserted.imp_right fun both =>
      decide_eq_true (by rw [wraps both.2]; omega)) ?_
  intro ordered
  replace ordered := of_decide_eq_true ordered
  generalize (offset + src.length) % usizeModulus = finish at *
  have small : finish < 2 ^ 32 :=
    Nat.lt_of_le_of_lt bounded (by decide)
  refine Ensures.accepting ?_ exhausted
  refine ensures_ite ?_ ?_
  · intro beyond
    simp only [ensures_bind]
    refine Ensures.mono
      (ensures_inodeSync_write geometry calm.quiet ?_ ?_) ?_
    · exact loaded.valid
    · exact loaded.allocated.2.1
    rintro grown middle ⟨rfl, becomes⟩
    have entryEq := loaded.entry
    have ownedMiddle : Owned sblock (view sblock middle.blocks) := by
      rw [becomes.view]
      refine owned_withEntry owned ?_ ?_ ?_
      · simp [Inode.setNumBytes, entryEq]
      · simp [Inode.setNumBytes, entryEq]
      · simp [Inode.setNumBytes, entryEq]
    have loadedMiddle :
        Loaded sblock (view sblock middle.blocks)
          (inode.setNumBytes finish) := by
      refine ⟨loaded.valid, ?_, ?_⟩
      · rw [becomes.view]
        simp [withEntry]
      · rw [becomes.view]
        refine ⟨loaded.allocated.1, loaded.allocated.2.1, ?_⟩
        have type := loaded.allocated.2.2
        rw [← entryEq] at type
        simpa [withEntry, Inode.setNumBytes] using type
    refine Ensures.mono
      (ensures_writeLoop geometry bounded (Nat.le_refl _)
        (calm.of_held becomes.held) ownedMiddle loadedMiddle) ?_
    rintro result target ⟨rfl, held, rewrites⟩
    rw [becomes.view] at rewrites
    refine ⟨rfl, rfl, held.trans becomes.held, inside, bounded, ordered,
      ?_⟩
    refine Rewrites.writes_grown rewrites ?_ small beyond
    rw [← entryEq]
    rfl
  · intro within
    simp only [ensures_bind, ensures_pure]
    refine Ensures.mono
      (ensures_writeLoop geometry bounded (Nat.le_refl _) calm owned
        loaded) ?_
    rintro result target ⟨rfl, held, rewrites⟩
    exact ⟨trivial, rfl, held, inside, bounded, ordered,
      rewrites.writes (Nat.le_of_not_lt within)⟩

/-- The bytes which `inode_write` leaves are a splice. -/
theorem Writes.contents_eq
    {inodeNo offset : Nat}
    {src : List UInt8}
    {start finish : View}
    (writes :
      Writes sblock inodeNo offset (offset + src.length) src start finish)
    (inside : offset ≤ fileSize start inodeNo) :
    contents finish inodeNo =
      splice (contents start inodeNo) offset src := by
  have size := writes.size
  apply List.ext_getElem
  · simp only [splice, length_contents, List.length_append,
      List.length_take, List.length_drop]
    omega
  · intro position inFinish _
    rw [length_contents] at inFinish
    simp only [contents, splice, List.getElem_map, List.getElem_range,
      List.getElem_append, List.length_append, List.length_take,
      List.length_map, List.length_range, List.getElem_take,
      List.getElem_drop]
    rw [writes.bytes]
    simp only [Nat.min_eq_left inside]
    split_ifs with within before early
    · omega
    · rw [List.getD_eq_getElem?_getD, List.getElem?_eq_getElem (by omega)]
      rfl
    · omega
    · rfl
    · omega
    · congr 1
      omega

end FudanOS.Fs.FileSpecs
