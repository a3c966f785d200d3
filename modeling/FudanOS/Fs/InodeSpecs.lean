import FudanOS.Fs.InodeLayer
import FudanOS.Fs.BlockOwnership

/-!
# What the functions of the inode layer do

Each function of `fs/inode.c` is described by what it does to the view of the
disk, given that the blocks are owned exactly and that the in-memory inode
agrees with its entry on the disk.
-/

namespace FudanOS.Fs.InodeSpecs

open FudanOS.Library.Programs
open FudanOS.Fs.Defines
open FudanOS.Fs.BlockBitmap
open FudanOS.Fs.InodeLayout
open FudanOS.Fs.InodeLayer
open FudanOS.Fs.BlockOwnership

/-- The thread holds the same blocks as before and the view is known. -/
structure Becomes
    (sblock : SuperBlock)
    (store target : Store)
    (after : View) : Prop where
  held : target.held = store.held
  view : InodeLayout.view sblock target.blocks = after

/-- The in-memory inode is allocated and agrees with the disk. -/
structure Loaded
    (sblock : SuperBlock)
    (view : View)
    (inode : Inode) : Prop where
  valid : inode.valid = true
  entry : inode.entry = view.entry inode.inodeNo
  allocated : Allocated sblock view inode.inodeNo

variable
    {sblock : SuperBlock}
    {accepts : Stop → Prop}
    {store : Store}
    {inode : Inode}

@[simp]
theorem ensures_edit
    {blockNo : Nat}
    {change : BlockData → BlockData}
    {post : Unit → Store → Prop} :
    Ensures accepts (edit blockNo change) store post ↔
      post ()
        { store with
          blocks :=
            Function.update store.blocks blockNo
              (change (store.blocks blockNo)) } := by
  exact ensures_modify

theorem ensures_assert
    {condition : Bool}
    {post : Unit → Store → Prop}
    (holds : condition = true)
    (continues : post () store) :
    Ensures accepts (InodeLayer.assert condition) store post := by
  rw [InodeLayer.assert, if_pos holds, ensures_pure]
  exact continues

theorem inode_free
    (geometry : Geometry sblock)
    (quiet : Quiet sblock store)
    {inodeNo : Nat}
    (below : inodeNo < sblock.numInodes.toNat) :
    toBlockNo sblock inodeNo ∉ store.held := by
  intro held
  have bounds := toBlockNo_bounds geometry below
  have later := geometry.bitmap_before
  rcases quiet _ held with boot | ⟨data, -⟩
  · omega
  · omega

theorem Quiet.of_becomes
    {target : Store}
    {after : View}
    (quiet : Quiet sblock store)
    (becomes : Becomes sblock store target after)
    (keeps :
      ∀ held ∈ store.held,
        (view sblock store.blocks).used held = true →
          after.used held = true) :
    Quiet sblock target := by
  intro held member
  rw [becomes.held] at member
  refine (quiet held member).imp_right ?_
  rintro ⟨isData, isUsed⟩
  refine ⟨isData, ?_⟩
  have same : used sblock target.blocks = after.used :=
    congrArg View.used becomes.view
  rw [same]
  exact keeps held member isUsed

/-- The thread holds no block of the inode layer. -/
def Calm (sblock : SuperBlock) (store : Store) : Prop :=
  ∀ held ∈ store.held, held < sblock.inodeStart.toNat

theorem Calm.quiet
    (calm : Calm sblock store) :
    Quiet sblock store := by
  intro held member
  exact Or.inl (calm held member)

theorem Calm.of_held
    {target : Store}
    (calm : Calm sblock store)
    (held : target.held = store.held) :
    Calm sblock target := by
  intro blockNo member
  rw [held] at member
  exact calm blockNo member

theorem Calm.data_free
    (geometry : Geometry sblock)
    (calm : Calm sblock store)
    {blockNo : Nat}
    (isData : IsData sblock blockNo) :
    blockNo ∉ store.held := by
  intro member
  have early := calm blockNo member
  have late := isData.1
  have inodes := geometry.inodes_before
  have bitmap := geometry.bitmap_before
  omega

/-- `inode_sync` writes a valid inode to its entry. -/
theorem ensures_inodeSync_write
    (geometry : Geometry sblock)
    (quiet : Quiet sblock store)
    (valid : inode.valid = true)
    (below : inode.inodeNo < sblock.numInodes.toNat) :
    Ensures Stop.Exhausted (inodeSync sblock inode true) store
      fun result target =>
        result = inode ∧
          Becomes sblock store target
            (withEntry (view sblock store.blocks) inode.inodeNo
              inode.entry) := by
  simp only [inodeSync, valid, Bool.and_self, if_true, ensures_bind]
  refine ensures_acquire (inode_free geometry quiet below) ?_
  simp only [ensures_edit]
  refine ensures_sync ?_
  intro logged rm
  rw [ensures_release, ensures_pure]
  refine ⟨rfl, by simp, ?_⟩
  exact view_setEntry geometry store.blocks below inode.entry

/-- `inode_sync` loads an inode which is not valid. -/
theorem ensures_inodeSync_read
    (geometry : Geometry sblock)
    (quiet : Quiet sblock store)
    (invalid : inode.valid = false)
    (below : inode.inodeNo < sblock.numInodes.toNat) :
    Ensures accepts (inodeSync sblock inode false) store
      fun result target =>
        result =
            { inode with
              entry := (view sblock store.blocks).entry inode.inodeNo
              valid := true } ∧
          target = store := by
  simp only [inodeSync, invalid, Bool.and_false, Bool.not_false, if_true,
    ensures_bind, Bool.false_eq_true, if_false]
  refine ensures_acquire (inode_free geometry quiet below) ?_
  rw [ensures_release, ensures_pure]
  refine ⟨?_, ?_⟩
  · simp [view, below]
  · simp

theorem quiet_of_allocates
    (geometry : Geometry sblock)
    (quiet : Quiet sblock store)
    {target : Store}
    {blockNo : Nat}
    (allocates : Allocates sblock store target blockNo) :
    Quiet sblock target := by
  refine Quiet.of_becomes quiet
    ⟨allocates.held, view_allocates geometry allocates⟩ ?_
  intro held _ isUsed
  by_cases same : held = blockNo
  · subst same
    simp
  · simpa [same] using isUsed

theorem data_ne_zero
    (geometry : Geometry sblock)
    {blockNo : Nat}
    (isData : IsData sblock blockNo) :
    blockNo ≠ 0 := by
  have positive := geometry.boot
  have start := isData.1
  have before := geometry.bitmap_before
  have inodes := geometry.inodes_before
  omega

/-- `cache_alloc`, then `inode_sync` of an inode which stores the block. -/
theorem ensures_alloc_sync
    (geometry : Geometry sblock)
    (quiet : Quiet sblock store)
    (owned : Owned sblock (view sblock store.blocks))
    (change : Nat → Inode)
    (valid : ∀ blockNo, (change blockNo).valid = true)
    (below :
      ∀ blockNo, (change blockNo).inodeNo < sblock.numInodes.toNat)
    {Result : Type}
    {next : Inode → Program Store Stop Result}
    {post : Result → Store → Prop}
    (continues :
      ∀ blockNo target, IsData sblock blockNo →
        (view sblock store.blocks).used blockNo = false →
        Quiet sblock target →
        Becomes sblock store target
          (withEntry
            { view sblock store.blocks with
              used :=
                Function.update (view sblock store.blocks).used blockNo
                  true
              data :=
                Function.update (view sblock store.blocks).data blockNo
                  fun _ => 0 }
            (change blockNo).inodeNo (change blockNo).entry) →
        Ensures Stop.Exhausted (next (change blockNo)) target post) :
    Ensures Stop.Exhausted
      (do
        let blockNo ← cacheAlloc sblock
        let inode ← inodeSync sblock (change blockNo) true
        next inode)
      store post := by
  simp only [ensures_bind]
  refine (ensures_cacheAlloc geometry quiet owned.reserved).mono ?_
  intro blockNo middle allocates
  have afterAlloc := view_allocates geometry allocates
  have quietMiddle := quiet_of_allocates geometry quiet allocates
  refine (ensures_inodeSync_write geometry quietMiddle (valid blockNo)
    (below blockNo)).mono ?_
  rintro result target ⟨rfl, held, afterSync⟩
  rw [afterAlloc] at afterSync
  have becomes := Becomes.mk (held.trans allocates.held) afterSync
  refine continues blockNo target ⟨allocates.data, allocates.below⟩
    allocates.free ?_ becomes
  refine Quiet.of_becomes quiet becomes ?_
  intro other _ isUsed
  by_cases same : other = blockNo
  · subst same
    simp [withEntry]
  · simpa [withEntry, same] using isUsed

/-- What `inode_map` with a context leaves. -/
structure Maps
    (sblock : SuperBlock)
    (store : Store)
    (inode : Inode)
    (slot : Slot)
    (mapped : Mapped)
    (target : Store) : Prop where
  held : target.held = store.held
  extended :
    Extends sblock inode.inodeNo (view sblock store.blocks)
      (view sblock target.blocks)
  reloaded :
    mapped.inode =
      { inode with
        entry := (view sblock target.blocks).entry inode.inodeNo }
  block :
    mapped.blockNo = stored (view sblock target.blocks) inode.inodeNo slot
  present : mapped.blockNo ≠ 0

theorem ensures_mapDirect
    (geometry : Geometry sblock)
    (quiet : Quiet sblock store)
    (owned : Owned sblock (view sblock store.blocks))
    (loaded : Loaded sblock (view sblock store.blocks) inode)
    (index : Fin inodeNumDirect) :
    Ensures Stop.Exhausted (mapDirect sblock true inode index) store
      (Maps sblock store inode (.direct index)) := by
  have entryEq := loaded.entry
  unfold mapDirect
  refine ensures_ite ?_ ?_
  · intro empty
    rw [if_pos rfl]
    refine ensures_alloc_sync geometry quiet owned
      (fun blockNo => inode.setAddr index (UInt32.ofNat blockNo))
      (fun _ => loaded.valid) (fun _ => loaded.allocated.2.1) ?_
    intro blockNo target isData free _ becomes
    have emptySlot :
        stored (view sblock store.blocks) inode.inodeNo (.direct index) =
          0 := by
      simp [stored, ← entryEq, empty]
    have attached :
        view sblock target.blocks =
          attach (view sblock store.blocks) inode.inodeNo (.direct index)
            blockNo := by
      rw [becomes.view]
      simp [withEntry, attach, Inode.setAddr, ← entryEq]
    rw [ensures_pure]
    refine ⟨becomes.held, ?_, ?_, ?_, ?_⟩
    · rw [attached]
      exact Extends.refl.attach trivial emptySlot isData free
    · rw [attached]
      simp [attach, Inode.setAddr, ← entryEq]
    · rw [attached]
      simp [stored, attach, Inode.setAddr]
    · simp only [Inode.setAddr, Function.update_self,
        toNat_ofNat_of_isData isData]
      exact data_ne_zero geometry isData
  · intro present
    rw [ensures_pure]
    refine ⟨rfl, Extends.refl, ?_, ?_, ?_⟩
    · rw [← entryEq]
    · simp [stored, ← entryEq]
    · exact fun zero => present ((toNat_eq_zero_iff _).mp zero)

theorem Loaded.indirect_isData
    (owned : Owned sblock (view sblock store.blocks))
    (loaded : Loaded sblock (view sblock store.blocks) inode)
    (present : inode.entry.indirect ≠ 0) :
    IsData sblock inode.entry.indirect.toNat := by
  have nonzero :
      stored (view sblock store.blocks) inode.inodeNo .indirect ≠ 0 := by
    rw [stored, ← loaded.entry]
    exact fun zero => present ((toNat_eq_zero_iff _).mp zero)
  have inside :=
    owned.exact.inside (inode.inodeNo, .indirect) loaded.allocated nonzero
  rw [loaded.entry]
  exact inside

theorem ensures_mapThrough
    (geometry : Geometry sblock)
    (quiet : Quiet sblock store)
    (owned : Owned sblock (view sblock store.blocks))
    (loaded : Loaded sblock (view sblock store.blocks) inode)
    (present : inode.entry.indirect ≠ 0)
    (unheld : inode.entry.indirect.toNat ∉ store.held)
    (index : Fin inodeNumIndirect) :
    Ensures Stop.Exhausted (mapThrough sblock true inode index) store
      (Maps sblock store inode (.second index)) := by
  have entryEq := loaded.entry
  have tableData := Loaded.indirect_isData owned loaded present
  have tablePresent :
      ((view sblock store.blocks).entry inode.inodeNo).indirect ≠ 0 := by
    rwa [← entryEq]
  have tableUsed :
      (view sblock store.blocks).used inode.entry.indirect.toNat = true := by
    rw [entryEq]
    exact owned.used_indirect loaded.allocated tablePresent
  have dataEq :
      (view sblock store.blocks).data inode.entry.indirect.toNat =
        store.blocks inode.entry.indirect.toNat := by
    simp [view, tableData]
  have storedEq :
      stored (view sblock store.blocks) inode.inodeNo (.second index) =
        (addrAt (store.blocks inode.entry.indirect.toNat) index).toNat := by
    rw [stored, if_neg tablePresent, ← entryEq, dataEq]
  unfold mapThrough
  rw [ensures_bind]
  refine ensures_acquire unheld ?_
  rw [if_neg (Nat.not_le.mpr index.isLt)]
  refine ensures_ite ?_ ?_
  · intro empty
    simp only [if_true, ensures_bind]
    have quietHeld :
        Quiet sblock
          { store with
            held := inode.entry.indirect.toNat :: store.held } := by
      intro held member
      rcases List.mem_cons.mp member with rfl | earlier
      · exact Or.inr ⟨tableData.1, tableUsed⟩
      · exact quiet held earlier
    refine (ensures_cacheAlloc geometry quietHeld owned.reserved).mono ?_
    intro blockNo middle allocates
    have isData : IsData sblock blockNo := ⟨allocates.data, allocates.below⟩
    have afterAlloc := view_allocates geometry allocates
    simp only [ensures_edit]
    refine ensures_sync ?_
    intro logged rm
    rw [ensures_release, ensures_pure]
    have emptySlot :
        stored (view sblock store.blocks) inode.inodeNo (.second index) =
          0 := by
      rw [storedEq, empty]
      rfl
    have middleData :
        (view sblock middle.blocks).data inode.entry.indirect.toNat =
          middle.blocks inode.entry.indirect.toNat := by
      simp [view, tableData]
    have attached :
        view sblock
            (Function.update middle.blocks inode.entry.indirect.toNat
              (InodeLayout.setAddr
                (middle.blocks inode.entry.indirect.toNat) index
                (UInt32.ofNat blockNo))) =
          attach (view sblock store.blocks) inode.inodeNo (.second index)
            blockNo := by
      rw [view_setData geometry _ tableData, ← middleData, afterAlloc]
      simp [attach, ← entryEq]
    have free : (view sblock store.blocks).used blockNo = false :=
      allocates.free
    have ready :
        Ready (view sblock store.blocks) inode.inodeNo (.second index) :=
      tablePresent
    refine ⟨?_, ?_, ?_, ?_, ?_⟩
    · simp [allocates.held]
    · simp only [attached]
      exact Extends.refl.attach ready emptySlot isData free
    · simp only [attached]
      simp [attach, ← entryEq]
    · simp only [attached]
      rw [stored_attach owned loaded.allocated isData free ready
        emptySlot loaded.allocated, if_pos ⟨rfl, rfl⟩,
        toNat_ofNat_of_isData isData]
    · rw [toNat_ofNat_of_isData isData]
      exact data_ne_zero geometry isData
  · intro nonzero
    rw [ensures_bind, ensures_release, ensures_pure]
    refine ⟨by simp, Extends.refl, ?_, ?_, ?_⟩
    · simp only
      rw [← entryEq]
    · simp only
      rw [storedEq]
    · exact fun zero => nonzero ((toNat_eq_zero_iff _).mp zero)

/-- `inode_map` with a context returns the block of the file. -/
theorem ensures_inodeMap
    (geometry : Geometry sblock)
    (calm : Calm sblock store)
    (owned : Owned sblock (view sblock store.blocks))
    (loaded : Loaded sblock (view sblock store.blocks) inode)
    {offset : Nat}
    {slot : Slot}
    (isSlot : slotOf offset = some slot) :
    Ensures Stop.Exhausted (inodeMap sblock true inode offset) store
      (Maps sblock store inode slot) := by
  have entryEq := loaded.entry
  unfold slotOf at isSlot
  unfold inodeMap
  split_ifs at isSlot with direct second
  · cases isSlot
    rw [dif_pos direct]
    exact ensures_mapDirect geometry calm.quiet owned loaded ⟨offset, direct⟩
  · cases isSlot
    rw [dif_neg direct]
    refine ensures_ite ?_ ?_
    · intro empty
      rw [if_pos rfl]
      refine ensures_alloc_sync geometry calm.quiet owned
        (fun blockNo => inode.setIndirect (UInt32.ofNat blockNo))
        (fun _ => loaded.valid) (fun _ => loaded.allocated.2.1) ?_
      intro blockNo middle isData free quietMiddle becomes
      have emptySlot :
          stored (view sblock store.blocks) inode.inodeNo .indirect =
            0 := by
        simp [stored, ← entryEq, empty]
      have attached :
          view sblock middle.blocks =
            attach (view sblock store.blocks) inode.inodeNo .indirect
              blockNo := by
        rw [becomes.view]
        simp [withEntry, attach, Inode.setIndirect, ← entryEq]
      have extended :
          Extends sblock inode.inodeNo (view sblock store.blocks)
            (view sblock middle.blocks) := by
        rw [attached]
        exact Extends.refl.attach trivial emptySlot isData free
      have nonzero := data_ne_zero geometry isData
      have number := toNat_ofNat_of_isData isData
      have loadedMiddle :
          Loaded sblock (view sblock middle.blocks)
            (inode.setIndirect (UInt32.ofNat blockNo)) := by
        refine ⟨loaded.valid, ?_, ?_⟩
        · rw [attached]
          simp [attach, Inode.setIndirect, ← entryEq]
        · exact (extended.allocated_iff _).mpr loaded.allocated
      refine (ensures_mapThrough geometry quietMiddle
        (extended.owned owned loaded.allocated) loadedMiddle ?_ ?_
        ⟨offset - inodeNumDirect, second⟩).mono ?_
      · intro zero
        have noBlock := (toNat_eq_zero_iff _).mpr zero
        simp only [Inode.setIndirect, number] at noBlock
        exact nonzero noBlock
      · have unheld :=
          (calm.of_held becomes.held).data_free geometry isData
        simpa [Inode.setIndirect, number] using unheld
      · intro mapped target maps
        refine ⟨maps.held.trans becomes.held,
          extended.trans maps.extended, ?_, maps.block, maps.present⟩
        rw [maps.reloaded]
        rfl
    · intro present
      have unheld :=
        calm.data_free geometry (Loaded.indirect_isData owned loaded present)
      exact ensures_mapThrough geometry calm.quiet owned loaded present unheld
        ⟨offset - inodeNumDirect, second⟩

/-- `inode_map` without a context looks the block up. -/
theorem ensures_inodeMap_lookup
    (geometry : Geometry sblock)
    (calm : Calm sblock store)
    (owned : Owned sblock (view sblock store.blocks))
    (loaded : Loaded sblock (view sblock store.blocks) inode)
    {offset : Nat}
    {slot : Slot}
    (isSlot : slotOf offset = some slot) :
    Ensures accepts (inodeMap sblock false inode offset) store
      fun mapped target =>
        mapped.inode = inode ∧
          mapped.blockNo =
            stored (view sblock store.blocks) inode.inodeNo slot ∧
          target = store := by
  have entryEq := loaded.entry
  unfold slotOf at isSlot
  unfold inodeMap
  split_ifs at isSlot with direct second
  · cases isSlot
    rw [dif_pos direct, mapDirect]
    refine ensures_ite ?_ ?_
    · intro empty
      exact ⟨rfl, by simp [stored, ← entryEq, empty], rfl⟩
    · intro present
      exact ⟨rfl, by simp [stored, ← entryEq], rfl⟩
  · cases isSlot
    rw [dif_neg direct]
    refine ensures_ite ?_ ?_
    · intro empty
      exact ⟨rfl, by simp [stored, ← entryEq, empty], rfl⟩
    · intro present
      have isData := Loaded.indirect_isData owned loaded present
      have storedEq :
          stored (view sblock store.blocks) inode.inodeNo
              (.second ⟨offset - inodeNumDirect, second⟩) =
            (addrAt (store.blocks inode.entry.indirect.toNat)
              (offset - inodeNumDirect)).toNat := by
        rw [stored, ← entryEq, if_neg present]
        simp [view, isData]
      rw [mapThrough, ensures_bind]
      refine ensures_acquire (calm.data_free geometry isData) ?_
      rw [if_neg (Nat.not_le.mpr second)]
      refine ensures_ite ?_ ?_
      · intro empty
        rw [if_neg (by decide), ensures_bind, ensures_release, ensures_pure]
        exact ⟨rfl, by rw [storedEq, empty]; rfl, by simp⟩
      · intro nonzero
        rw [ensures_bind, ensures_release, ensures_pure]
        exact ⟨rfl, storedEq.symm, by simp⟩

/-! ## Clearing -/

section Clear

variable
    {start : View}
    {inodeNo : Nat}

/-- The view while some slots of an inode are already freed. -/
def partlyFreed (start : View) (inodeNo : Nat) (done : List Slot) : View :=
  { start with used := usedWithout start inodeNo done }

theorem ensures_free_slot
    (geometry : Geometry sblock)
    (owned : Owned sblock start)
    (allocated : Allocated sblock start inodeNo)
    {done : List Slot}
    (quiet : Quiet sblock store)
    (viewEq : view sblock store.blocks = partlyFreed start inodeNo done)
    {slot : Slot}
    (new : slot ∉ done)
    {address : Nat}
    (isStored : address = stored start inodeNo slot)
    (nonzero : address ≠ 0) :
    Ensures Stop.Exhausted (cacheFree sblock address) store
      fun _ target =>
        Becomes sblock store target
          (partlyFreed start inodeNo (done ++ [slot])) := by
  subst isStored
  have usedEq :
      used sblock store.blocks = usedWithout start inodeNo done :=
    congrArg View.used viewEq
  have isUsed :
      used sblock store.blocks (stored start inodeNo slot) = true := by
    rw [usedEq]
    exact usedWithout_stored owned allocated new nonzero
  refine (ensures_cacheFree geometry quiet isUsed).mono ?_
  rintro _ target ⟨held, others, bitmap⟩
  refine ⟨held, ?_⟩
  rw [view_frees geometry bitmap others, viewEq, usedEq,
    usedWithout_append nonzero]
  rfl

theorem partlyFreed_append_empty
    {done : List Slot}
    {slot : Slot}
    (empty : stored start inodeNo slot = 0) :
    partlyFreed start inodeNo (done ++ [slot]) =
      partlyFreed start inodeNo done := by
  unfold partlyFreed
  rw [usedWithout_append_empty empty]

theorem partlyFreed_of_empty
    {done : List Slot}
    (empty : ∀ slot ∈ done, stored start inodeNo slot = 0) :
    partlyFreed start inodeNo done = start := by
  have absent :
      ∀ blockNo, storedIn start inodeNo done blockNo = false := by
    intro blockNo
    rw [← Bool.not_eq_true, storedIn_iff]
    rintro ⟨slot, member, present, -⟩
    exact present (empty slot member)
  ext1
  · funext blockNo
    simp [partlyFreed, usedWithout, absent]
  · rfl
  · rfl

/-- The loop of `inode_clear` over the indirect block. -/
theorem ensures_freeIndirect_loop
    (geometry : Geometry sblock)
    (owned : Owned sblock start)
    (allocated : Allocated sblock start inodeNo)
    (present : (start.entry inodeNo).indirect ≠ 0)
    (onlyTable :
      ∀ held ∈ store.held,
        held < sblock.inodeStart.toNat ∨
          held = (start.entry inodeNo).indirect.toNat)
    (viewEq : view sblock store.blocks = start) :
    Ensures Stop.Exhausted
      ((List.finRange inodeNumIndirect).foldlM
        (fun (_ : Unit) index =>
          freeIndirect sblock (start.entry inodeNo).indirect.toNat index)
        ())
      store
      fun _ target =>
        Becomes sblock store target
          (partlyFreed start inodeNo
            ((List.finRange inodeNumIndirect).map .second)) := by
  have tablePresent : stored start inodeNo .indirect ≠ 0 :=
    fun zero => present ((toNat_eq_zero_iff _).mp zero)
  have tableData : IsData sblock (start.entry inodeNo).indirect.toNat :=
    owned.exact.inside (inodeNo, .indirect) allocated tablePresent
  have loop :
      Ensures Stop.Exhausted
        ((List.finRange inodeNumIndirect).foldlM
          (fun (_ : Unit) index =>
            freeIndirect sblock (start.entry inodeNo).indirect.toNat index)
          ())
        store
        fun _ target =>
          ∃ done,
            List.finRange inodeNumIndirect = done ++ [] ∧
              Becomes sblock store target
                (partlyFreed start inodeNo (done.map .second)) := by
    refine ensures_foldlM
      (fun rest _ middle =>
        ∃ done,
          List.finRange inodeNumIndirect = done ++ rest ∧
            Becomes sblock store middle
              (partlyFreed start inodeNo (done.map .second))) ?_ ?_
    · rintro index rest _ middle ⟨done, split, becomes⟩
      have nodup := List.nodup_finRange inodeNumIndirect
      rw [split] at nodup
      have new : Slot.second index ∉ done.map Slot.second := by
        intro member
        rcases List.mem_map.mp member with ⟨other, present, same⟩
        cases same
        exact (List.nodup_append.mp nodup).2.2 index present index
          List.mem_cons_self rfl
      have quietMiddle : Quiet sblock middle := by
        intro held member
        rw [becomes.held] at member
        refine (onlyTable held member).imp_right ?_
        rintro rfl
        refine ⟨tableData.1, ?_⟩
        have usedEq := congrArg View.used becomes.view
        have here := congrFun usedEq (start.entry inodeNo).indirect.toNat
        have kept :=
          usedWithout_stored owned allocated
            (show Slot.indirect ∉ done.map Slot.second by simp) tablePresent
        exact here.trans kept
      have dataEq :
          middle.blocks (start.entry inodeNo).indirect.toNat =
            start.data (start.entry inodeNo).indirect.toNat := by
        have same := congrArg View.data becomes.view
        have here := congrFun same (start.entry inodeNo).indirect.toNat
        simpa [view, tableData, partlyFreed] using here
      have storedEq :
          (addrAt (middle.blocks (start.entry inodeNo).indirect.toNat)
              index).toNat =
            stored start inodeNo (.second index) := by
        rw [stored, if_neg present, dataEq]
      have nextSplit :
          List.finRange inodeNumIndirect = (done ++ [index]) ++ rest := by
        rw [split]
        simp
      simp only [freeIndirect, ensures_bind, ensures_get]
      refine ensures_ite ?_ ?_
      · intro zero
        rw [ensures_pure]
        refine ⟨done ++ [index], nextSplit, ?_⟩
        rw [List.map_append, List.map_singleton, partlyFreed_append_empty]
        · exact becomes
        · rw [← storedEq, zero]
          rfl
      · intro nonzero
        refine (ensures_free_slot geometry owned allocated quietMiddle
          becomes.view new storedEq
          (fun zero => nonzero ((toNat_eq_zero_iff _).mp zero))).mono ?_
        intro _ target freed
        refine ⟨done ++ [index], nextSplit,
          ⟨freed.held.trans becomes.held, ?_⟩⟩
        rw [freed.view]
        simp
    · refine ⟨[], by simp, rfl, ?_⟩
      rw [viewEq, partlyFreed_of_empty (by simp)]
  refine loop.mono ?_
  rintro _ target ⟨done, split, becomes⟩
  rw [List.append_nil] at split
  rwa [split]

/-- What `inode_clear` makes of the entry. -/
def clearEntry (entry : InodeEntry) : InodeEntry :=
  { entry with addrs := fun _ => 0, indirect := 0, numBytes := 0 }

theorem ensures_clearIndirect
    (geometry : Geometry sblock)
    (calm : Calm sblock store)
    (owned : Owned sblock (view sblock store.blocks))
    (allocated : Allocated sblock (view sblock store.blocks) inode.inodeNo)
    (indirect :
      inode.entry.indirect =
        ((view sblock store.blocks).entry inode.inodeNo).indirect) :
    Ensures Stop.Exhausted (clearIndirect sblock inode) store
      fun result target =>
        result = inode.setIndirect 0 ∧
          Becomes sblock store target
            (partlyFreed (view sblock store.blocks) inode.inodeNo
              ((List.finRange inodeNumIndirect).map .second ++
                [.indirect])) := by
  unfold clearIndirect
  refine ensures_ite ?_ ?_
  · intro empty
    rw [ensures_pure]
    refine ⟨?_, rfl, ?_⟩
    · simp [Inode.setIndirect, ← empty]
    · rw [partlyFreed_of_empty]
      intro slot member
      have noTable :
          ((view sblock store.blocks).entry inode.inodeNo).indirect = 0 :=
        indirect.symm.trans empty
      rcases List.mem_append.mp member with second | table
      · rcases List.mem_map.mp second with ⟨index, -, rfl⟩
        simp [stored, noTable]
      · rw [List.mem_singleton.mp table]
        simp [stored, noTable]
  · intro present
    have tablePresent :
        ((view sblock store.blocks).entry inode.inodeNo).indirect ≠ 0 :=
      fun zero => present (indirect.trans zero)
    have storedTable :
        stored (view sblock store.blocks) inode.inodeNo .indirect ≠ 0 :=
      fun zero => tablePresent ((toNat_eq_zero_iff _).mp zero)
    have isData :
        IsData sblock
          ((view sblock store.blocks).entry
            inode.inodeNo).indirect.toNat :=
      owned.exact.inside (inode.inodeNo, .indirect) allocated storedTable
    rw [indirect]
    simp only [ensures_bind]
    refine ensures_acquire (calm.data_free geometry isData) ?_
    refine (ensures_freeIndirect_loop geometry owned allocated tablePresent
      ?_ ?_).mono ?_
    · intro held member
      rcases List.mem_cons.mp member with rfl | earlier
      · exact Or.inr rfl
      · exact Or.inl (calm held earlier)
    · rfl
    · intro _ middle becomes
      rw [ensures_release]
      have heldEq :
          middle.held.erase
              ((view sblock store.blocks).entry
                inode.inodeNo).indirect.toNat =
            store.held := by
        rw [becomes.held]
        simp
      have new :
          Slot.indirect ∉
            (List.finRange inodeNumIndirect).map Slot.second := by
        simp
      refine Ensures.mono
        (ensures_free_slot geometry owned allocated ?_ ?_ new ?_
          storedTable) ?_
      · intro held member
        simp only [heldEq] at member
        exact Or.inl (calm held member)
      · exact becomes.view
      · rfl
      · intro _ target freed
        rw [ensures_pure]
        exact ⟨rfl, freed.held.trans heldEq, freed.view⟩

/-- The loop of `inode_clear` over the direct addresses. -/
theorem ensures_freeDirect_loop
    (geometry : Geometry sblock)
    (owned : Owned sblock start)
    (allocated : Allocated sblock start inode.inodeNo)
    (calm : Calm sblock store)
    {before : List Slot}
    (notDirect : ∀ index, Slot.direct index ∉ before)
    (viewEq :
      view sblock store.blocks = partlyFreed start inode.inodeNo before)
    (addrs : inode.entry.addrs = (start.entry inode.inodeNo).addrs) :
    Ensures Stop.Exhausted
      ((List.finRange inodeNumDirect).foldlM (freeDirect sblock) inode)
      store
      fun result target =>
        result =
            { inode with
              entry := { inode.entry with addrs := fun _ => 0 } } ∧
          Becomes sblock store target
            (partlyFreed start inode.inodeNo
              (before ++ (List.finRange inodeNumDirect).map .direct)) := by
  have loop :
      Ensures Stop.Exhausted
        ((List.finRange inodeNumDirect).foldlM (freeDirect sblock) inode)
        store
        fun result target =>
          ∃ done,
            List.finRange inodeNumDirect = done ++ [] ∧
              result =
                { inode with
                  entry :=
                    { inode.entry with
                      addrs := fun index =>
                        if index ∈ done then 0
                        else inode.entry.addrs index } } ∧
              Becomes sblock store target
                (partlyFreed start inode.inodeNo
                  (before ++ done.map .direct)) := by
    refine ensures_foldlM
      (fun rest current middle =>
        ∃ done,
          List.finRange inodeNumDirect = done ++ rest ∧
            current =
              { inode with
                entry :=
                  { inode.entry with
                    addrs := fun index =>
                      if index ∈ done then 0
                      else inode.entry.addrs index } } ∧
            Becomes sblock store middle
              (partlyFreed start inode.inodeNo
                (before ++ done.map .direct))) ?_ ?_
    · rintro index rest current middle ⟨done, split, rfl, becomes⟩
      have nodup := List.nodup_finRange inodeNumDirect
      rw [split] at nodup
      have newIndex : index ∉ done := by
        intro present
        exact (List.nodup_append.mp nodup).2.2 index present index
          List.mem_cons_self rfl
      have new : Slot.direct index ∉ before ++ done.map Slot.direct := by
        intro member
        rcases List.mem_append.mp member with early | late
        · exact notDirect index early
        · rcases List.mem_map.mp late with ⟨other, present, same⟩
          cases same
          exact newIndex present
      have storedEq :
          (inode.entry.addrs index).toNat =
            stored start inode.inodeNo (.direct index) := by
        rw [stored, addrs]
      have nextSplit :
          List.finRange inodeNumDirect = (done ++ [index]) ++ rest := by
        rw [split]
        simp
      have addrsNext :
          (fun other =>
            if other ∈ done ++ [index] then 0
            else inode.entry.addrs other) =
          Function.update
            (fun other =>
              if other ∈ done then 0 else inode.entry.addrs other)
            index 0 := by
        funext other
        by_cases same : other = index
        · subst same
          simp
        · simp [same]
      unfold freeDirect
      simp only [if_neg newIndex]
      refine ensures_ite ?_ ?_
      · intro zero
        rw [ensures_pure]
        refine ⟨done ++ [index], nextSplit, ?_, ?_⟩
        · rw [addrsNext, Function.update_eq_self_iff.mpr]
          simp [newIndex, zero]
        · rw [List.map_append, List.map_singleton, ← List.append_assoc,
            partlyFreed_append_empty]
          · exact becomes
          · rw [← storedEq, zero]
            rfl
      · intro nonzero
        rw [ensures_bind]
        refine (ensures_free_slot geometry owned allocated
          (calm.of_held becomes.held).quiet becomes.view new storedEq
          (fun zero => nonzero ((toNat_eq_zero_iff _).mp zero))).mono ?_
        intro _ target freed
        rw [ensures_pure]
        refine ⟨done ++ [index], nextSplit, ?_,
          ⟨freed.held.trans becomes.held, ?_⟩⟩
        · rw [addrsNext]
          rfl
        · rw [freed.view]
          simp
    · refine ⟨[], by simp, by simp, rfl, ?_⟩
      simpa using viewEq
  refine loop.mono ?_
  rintro result target ⟨done, split, rfl, becomes⟩
  rw [List.append_nil] at split
  rw [← split] at becomes ⊢
  refine ⟨?_, becomes⟩
  simp

/-- `inode_clear` frees exactly the blocks which the inode stored. -/
theorem ensures_inodeClear
    (geometry : Geometry sblock)
    (calm : Calm sblock store)
    (owned : Owned sblock (view sblock store.blocks))
    (allocated : Allocated sblock (view sblock store.blocks) inode.inodeNo)
    (valid : inode.valid = true)
    (addrs :
      inode.entry.addrs =
        ((view sblock store.blocks).entry inode.inodeNo).addrs)
    (indirect :
      inode.entry.indirect =
        ((view sblock store.blocks).entry inode.inodeNo).indirect) :
    Ensures Stop.Exhausted (inodeClear sblock inode) store
      fun result target =>
        result = { inode with entry := clearEntry inode.entry } ∧
          Becomes sblock store target
            (cleared (view sblock store.blocks) inode.inodeNo
              (clearEntry inode.entry)) := by
  simp only [inodeClear, ensures_bind]
  refine (ensures_clearIndirect geometry calm owned allocated
    indirect).mono ?_
  rintro second middle ⟨rfl, becomes⟩
  have noDirect :
      ∀ index,
        Slot.direct index ∉
          (List.finRange inodeNumIndirect).map Slot.second ++
            [Slot.indirect] := by
    simp
  refine Ensures.mono
    (ensures_freeDirect_loop geometry owned ?_ ?_ noDirect ?_ ?_) ?_
  · exact allocated
  · exact calm.of_held becomes.held
  · exact becomes.view
  · exact addrs
  rintro third late ⟨rfl, lateBecomes⟩
  have heldLate := lateBecomes.held.trans becomes.held
  refine (ensures_inodeSync_write geometry (calm.of_held heldLate).quiet
    ?_ ?_).mono ?_
  · exact valid
  · exact allocated.2.1
  · rintro result target ⟨rfl, held, viewEq⟩
    refine ⟨rfl, held.trans heldLate, ?_⟩
    rw [viewEq, lateBecomes.view]
    simp only [cleared, partlyFreed, slots, List.append_assoc,
      List.singleton_append]
    rfl

end Clear

end FudanOS.Fs.InodeSpecs
