import FudanOS.Fs.InodeRuns

/-!
# Directories as finite maps

A directory is an array of slots of 16 bytes.  A slot is live when its inode
number is not 0; the name of a slot which is not live is what was left behind.
The names of the live slots are different, end within their arrays, and are
what `inode_lookup` and `inode_insert` compare with.
-/

namespace FudanOS.Fs.DirectoryMap

open FudanOS.Library
open FudanOS.Library.Programs
open FudanOS.Library.Runs
open FudanOS.Fs.Defines
open FudanOS.Fs.BlockBitmap
open FudanOS.Fs.InodeLayout
open FudanOS.Fs.InodeLayer
open FudanOS.Fs.BlockOwnership
open FudanOS.Fs.FileContents
open FudanOS.Fs.InodeSpecs
open FudanOS.Fs.FileSpecs
open FudanOS.Fs.Directory

/-! ## Names -/

/-- The characters of a name, of which there are 1 to 13. -/
structure GoodName (name : List UInt8) : Prop where
  nonempty : name ≠ []
  short : name.length < fileNameMaxLength
  noNul : 0 ∉ name

/-- The name in a slot. -/
def nameOf (slot : List UInt8) : List UInt8 :=
  (direntName slot).takeWhile (· != 0)

section Names

variable {name other : List UInt8}

theorem takeWhile_append_zero
    (noNul : 0 ∉ name)
    (rest : List UInt8) :
    (name ++ 0 :: rest).takeWhile (· != 0) = name := by
  have all : ∀ byte ∈ name, (byte != 0) = true := by
    intro byte member
    rw [bne_iff_ne]
    rintro rfl
    exact noNul member
  rw [List.takeWhile_append_of_pos all]
  simp

theorem strlen_append_zero
    (noNul : 0 ∉ name)
    (rest : List UInt8) :
    strlen (name ++ 0 :: rest) = some name.length := by
  unfold strlen
  rw [List.findIdx?_append]
  have none : name.findIdx? (· == 0) = none := by
    rw [List.findIdx?_eq_none_iff]
    intro byte member
    rw [beq_eq_false_iff_ne]
    rintro rfl
    exact noNul member
  rw [none]
  simp [List.findIdx?_cons]

theorem strncpy_eq
    (good : GoodName name) :
    strncpy name fileNameMaxLength =
      name ++ List.replicate (fileNameMaxLength - name.length) 0 := by
  have all : name.takeWhile (· != 0) = name := by
    rw [List.takeWhile_eq_self_iff]
    intro byte member
    rw [bne_iff_ne]
    rintro rfl
    exact good.noNul member
  unfold strncpy
  rw [all, List.take_of_length_le (Nat.le_of_lt good.short)]

/-- A copied name ends with a zero. -/
theorem strncpy_eq_cons
    (good : GoodName name) :
    ∃ rest, strncpy name fileNameMaxLength = name ++ 0 :: rest := by
  have short := good.short
  rw [strncpy_eq good]
  refine ⟨List.replicate (fileNameMaxLength - name.length - 1) 0, ?_⟩
  rw [← List.replicate_succ]
  congr 2
  omega

theorem length_strncpy
    (good : GoodName name) :
    (strncpy name fileNameMaxLength).length = fileNameMaxLength := by
  have short := good.short
  rw [strncpy_eq good, List.length_append, List.length_replicate]
  omega

theorem memcmp_eq_zero_iff
    {left right : List UInt8}
    {count index : Nat} :
    memcmp left right count index = 0 ↔
      ∀ offset < count,
        left.getD (index + offset) 0 = right.getD (index + offset) 0 := by
  induction count generalizing index with
  | zero =>
      constructor
      · intro _ offset below
        exact absurd below (Nat.not_lt_zero offset)
      · intro _
        rfl
  | succ count ih =>
      unfold memcmp
      dsimp only
      by_cases same : left.getD index 0 = right.getD index 0
      · rw [if_neg (by rw [same]; exact not_not.mpr rfl), ih]
        constructor
        · intro rest offset below
          cases offset with
          | zero => exact same
          | succ offset =>
              have later := rest offset (Nat.lt_of_succ_lt_succ below)
              rwa [Nat.add_right_comm, Nat.add_assoc] at later
        · intro all offset below
          have later := all (offset + 1) (Nat.succ_lt_succ below)
          rwa [← Nat.add_assoc, Nat.add_right_comm] at later
      · have different :
            (left.getD index 0).toNat ≠ (right.getD index 0).toNat := by
          intro equal
          exact same (UInt8.toNat_inj.mp equal)
        rw [if_pos different]
        constructor
        · intro zero
          omega
        · intro all
          exact absurd (all 0 (Nat.succ_pos count)) same

/-- Two strings which agree up to the end of the longer one are equal. -/
theorem agree_iff
    (noNul : 0 ∉ name)
    (otherNoNul : 0 ∉ other)
    (rest later : List UInt8) :
    (∀ offset < max name.length other.length,
      (name ++ 0 :: rest).getD offset 0 =
        (other ++ 0 :: later).getD offset 0) ↔
      other = name := by
  induction name generalizing other with
  | nil =>
      cases other with
      | nil => simp
      | cons second others =>
          constructor
          · intro all
            have first := all 0 (Nat.lt_of_lt_of_le (Nat.succ_pos _)
              (Nat.le_max_right _ _))
            have zero : 0 = second := first
            exact absurd (zero ▸ List.mem_cons_self) otherNoNul
          · intro same
            exact nomatch same
  | cons first names ih =>
      cases other with
      | nil =>
          constructor
          · intro all
            have head := all 0 (Nat.lt_of_lt_of_le (Nat.succ_pos _)
              (Nat.le_max_left _ _))
            have zero : first = 0 := head
            exact absurd (zero ▸ List.mem_cons_self) noNul
          · intro same
            exact nomatch same
      | cons second others =>
          have tails :=
            ih (fun member => noNul (List.mem_cons_of_mem _ member))
              (fun member => otherNoNul (List.mem_cons_of_mem _ member))
          rw [List.length_cons, List.length_cons, Nat.succ_max_succ,
            List.cons.injEq, ← tails]
          constructor
          · intro all
            refine ⟨(all 0 (Nat.succ_pos _)).symm, ?_⟩
            intro offset below
            exact all (offset + 1) (Nat.succ_lt_succ below)
          · rintro ⟨rfl, all⟩ offset below
            cases offset with
            | zero => rfl
            | succ offset => exact all offset (Nat.lt_of_succ_lt_succ below)

/-- A slot whose name ends within its array. -/
structure Ends (slot : List UInt8) : Prop where
  length : slot.length = direntSize
  copied :
    ∃ name, GoodName name ∧
      direntName slot = strncpy name fileNameMaxLength

theorem nameOf_of_copied
    {slot : List UInt8}
    (good : GoodName name)
    (copied : direntName slot = strncpy name fileNameMaxLength) :
    nameOf slot = name := by
  rcases strncpy_eq_cons good with ⟨rest, isCopy⟩
  unfold nameOf
  rw [copied, isCopy, takeWhile_append_zero good.noNul]

/-- The comparison of the source decides whether two strings are equal. -/
theorem sameName_of_string
    {slot after later : List UInt8}
    (good : GoodName name)
    (noNul : 0 ∉ other)
    (string : direntName slot ++ after = other ++ 0 :: later) :
    sameName name slot after = some (decide (other = name)) := by
  unfold sameName
  rw [string, strlen_append_zero good.noNul [], strlen_append_zero noNul]
  change some (memcmp (name ++ 0 :: []) (other ++ 0 :: later)
    (max name.length other.length) 0 == 0) = _
  have zero :
      memcmp (name ++ 0 :: []) (other ++ 0 :: later)
          (max name.length other.length) 0 = 0 ↔
        other = name := by
    rw [memcmp_eq_zero_iff]
    simp only [Nat.zero_add]
    exact agree_iff good.noNul noNul [] later
  rw [Option.some.injEq, Bool.eq_iff_iff, beq_iff_eq, decide_eq_true_eq]
  exact zero

/-- A slot whose name ends within its array. -/
theorem sameName_eq
    {slot : List UInt8}
    (good : GoodName name)
    (ends_ : Ends slot)
    (after : List UInt8) :
    sameName name slot after = some (decide (nameOf slot = name)) := by
  rcases ends_.copied with ⟨other, otherGood, copied⟩
  rcases strncpy_eq_cons otherGood with ⟨rest, isCopy⟩
  rw [nameOf_of_copied otherGood copied]
  have string : direntName slot ++ after = other ++ 0 :: (rest ++ after) := by
    rw [copied, isCopy, List.append_assoc, List.cons_append]
  exact sameName_of_string good otherGood.noNul string

theorem noNul_takeWhile (bytes : List UInt8) :
    0 ∉ bytes.takeWhile (· != 0) := by
  intro member
  have nonzero := List.mem_takeWhile_imp member
  exact absurd rfl (bne_iff_ne.mp nonzero)

theorem exists_takeWhile_append
    {bytes : List UInt8}
    (ends_ : 0 ∈ bytes) :
    ∃ rest, bytes = bytes.takeWhile (· != 0) ++ 0 :: rest := by
  induction bytes with
  | nil => cases ends_
  | cons byte bytes ih =>
      by_cases zero : byte = 0
      · subst zero
        exact ⟨bytes, rfl⟩
      · have later : 0 ∈ bytes :=
          (List.mem_cons.mp ends_).resolve_left fun same => zero same.symm
        rcases ih later with ⟨rest, split⟩
        refine ⟨rest, ?_⟩
        have taken :
            (byte :: bytes).takeWhile (· != 0) =
              byte :: bytes.takeWhile (· != 0) :=
          List.takeWhile_cons_of_pos (bne_iff_ne.mpr zero)
        rw [taken, List.cons_append, ← split]

/-- A name which fills its array is longer than every name looked for. -/
theorem sameName_of_length
    {slot after : List UInt8}
    (good : GoodName name)
    (length : slot.length = direntSize)
    (ends_ : 0 ∈ direntName slot ++ after) :
    sameName name slot after = some (decide (nameOf slot = name)) := by
  by_cases inside : 0 ∈ direntName slot
  · rcases exists_takeWhile_append inside with ⟨rest, split⟩
    have string :
        direntName slot ++ after = nameOf slot ++ 0 :: (rest ++ after) := by
      rw [← List.cons_append, ← List.append_assoc, nameOf, ← split]
    exact sameName_of_string good (noNul_takeWhile (direntName slot)) string
  · have behind : 0 ∈ after :=
      (List.mem_append.mp ends_).resolve_left inside
    rcases exists_takeWhile_append behind with ⟨rest, split⟩
    have whole : nameOf slot = direntName slot := by
      unfold nameOf
      rw [List.takeWhile_eq_self_iff]
      intro byte member
      rw [bne_iff_ne]
      rintro rfl
      exact inside member
    have long : (direntName slot).length = fileNameMaxLength := by
      rw [direntName, List.length_drop, length]
      rfl
    have noNul : 0 ∉ direntName slot ++ after.takeWhile (· != 0) := by
      rw [List.mem_append, not_or]
      exact ⟨inside, noNul_takeWhile after⟩
    have short := good.short
    rw [sameName_of_string good noNul
      (by rw [List.append_assoc, ← split]), whole]
    rw [decide_eq_false, decide_eq_false]
    · rintro rfl
      omega
    · rintro rfl
      rw [List.length_append] at short
      omega

end Names

/-! ## Entries -/

section Entries

theorem direntInodeNo_dirent
    {inodeNo : Nat}
    (small : inodeNo < 2 ^ 16)
    (name : List UInt8) :
    direntInodeNo (dirent inodeNo name) = inodeNo := by
  have value : (UInt16.ofNat inodeNo).toNat = inodeNo :=
    UInt16.toNat_ofNat_of_lt small
  have field :
      InodeEntry.field16
          (fun index => (dirent inodeNo name).getD index 0) 0 =
        UInt16.ofNat inodeNo := by
    apply InodeEntry.field16_of_bytes
    intro index below
    rw [value]
    match index, below with
    | 0, _ => rfl
    | 1, _ => rfl
  unfold direntInodeNo
  rw [field, value]

theorem direntName_dirent (inodeNo : Nat) (name : List UInt8) :
    direntName (dirent inodeNo name) = name :=
  rfl

theorem length_dirent (inodeNo : Nat) (name : List UInt8) :
    (dirent inodeNo name).length = 2 + name.length := by
  unfold dirent
  rw [List.length_cons, List.length_cons]
  omega

end Entries

/-! ## Slots -/

/-- The slot with an index. -/
def slotAt (bytes : List UInt8) (index : Nat) : List UInt8 :=
  (bytes.drop (direntSize * index)).take direntSize

def Live (slot : List UInt8) : Prop :=
  direntInodeNo slot ≠ 0

instance (slot : List UInt8) : Decidable (Live slot) :=
  inferInstanceAs (Decidable (_ ≠ _))

/-- The bytes of a directory with `count` slots. -/
structure Tidy (bytes : List UInt8) (count : Nat) : Prop where
  length : bytes.length = direntSize * count
  ends_ : ∀ index < count, Live (slotAt bytes index) →
    Ends (slotAt bytes index)
  distinct :
    ∀ index < count, ∀ other < count, Live (slotAt bytes index) →
      Live (slotAt bytes other) →
        nameOf (slotAt bytes index) = nameOf (slotAt bytes other) →
          index = other

/-- A live slot has the name. -/
def HasName (bytes name : List UInt8) (index : Nat) : Prop :=
  Live (slotAt bytes index) ∧ nameOf (slotAt bytes index) = name

instance (bytes name : List UInt8) (index : Nat) :
    Decidable (HasName bytes name index) :=
  inferInstanceAs (Decidable (_ ∧ _))

section Slots

variable
    {bytes src : List UInt8}
    {count index : Nat}

theorem length_slotAt
    (length : bytes.length = direntSize * count)
    (below : index < count) :
    (slotAt bytes index).length = direntSize := by
  unfold slotAt
  rw [List.length_take, List.length_drop, length]
  have room : direntSize * (index + 1) ≤ direntSize * count :=
    Nat.mul_le_mul_left direntSize below
  simp only [direntSize, fileNameMaxLength] at room ⊢
  omega

/-- A slot is written, or a new one behind the last. -/
theorem slotAt_splice
    (length : bytes.length = direntSize * count)
    (inside : index ≤ count)
    (srcLength : src.length = direntSize)
    (other : Nat) :
    slotAt (splice bytes (direntSize * index) src) other =
      if other = index then src else slotAt bytes other := by
  have taken :
      (bytes.take (direntSize * index)).length = direntSize * index := by
    rw [List.length_take, length]
    exact Nat.min_eq_left (Nat.mul_le_mul_left direntSize inside)
  unfold slotAt splice
  rcases Nat.lt_trichotomy other index with before | rfl | behind
  · have room : direntSize * (other + 1) ≤ direntSize * index :=
      Nat.mul_le_mul_left direntSize before
    rw [if_neg (Nat.ne_of_lt before), List.append_assoc,
      List.drop_append_of_le_length (by
        rw [taken]
        exact Nat.mul_le_mul_left direntSize (Nat.le_of_lt before)),
      List.take_append_of_le_length, List.drop_take, List.take_take]
    · congr 1
      simp only [direntSize, fileNameMaxLength] at room ⊢
      omega
    · rw [List.length_drop, taken]
      simp only [direntSize, fileNameMaxLength] at room ⊢
      omega
  · rw [if_pos rfl, List.append_assoc, List.drop_left' taken,
      List.take_left' srcLength]
  · have room : direntSize * (index + 1) ≤ direntSize * other :=
      Nat.mul_le_mul_left direntSize behind
    rw [if_neg (Nat.ne_of_gt behind), List.drop_append, List.drop_eq_nil_of_le,
      List.nil_append, List.length_append, taken, srcLength, List.drop_drop]
    · congr 2
      simp only [direntSize, fileNameMaxLength] at room ⊢
      omega
    · rw [List.length_append, taken, srcLength]
      simp only [direntSize, fileNameMaxLength] at room ⊢
      omega

theorem length_splice
    (length : bytes.length = direntSize * count)
    (inside : index ≤ count)
    (srcLength : src.length = direntSize) :
    (splice bytes (direntSize * index) src).length =
      direntSize * max count (index + 1) := by
  unfold splice
  rw [List.length_append, List.length_append, List.length_take,
    List.length_drop, length, srcLength]
  simp only [direntSize, fileNameMaxLength]
  omega

end Slots

/-! ## The functions -/

/-- A directory which the functions may be called with. -/
structure Open
    (sblock : SuperBlock)
    (store : Store)
    (inode : Inode) : Prop where
  calm : Calm sblock store
  owned : Owned sblock (view sblock store.blocks)
  loaded : Loaded sblock (view sblock store.blocks) inode
  present :
    ∀ index,
      index * blockSize < fileSize (view sblock store.blocks) inode.inodeNo →
        HasBlock (view sblock store.blocks) inode.inodeNo index
  directory : inode.entry.type = inodeDirectory

/-- The bytes of the directory. -/
def bytesOf (sblock : SuperBlock) (store : Store) (inode : Inode) :
    List UInt8 :=
  contents (view sblock store.blocks) inode.inodeNo

section Functions

variable
    {sblock : SuperBlock}
    {console : ConsoleRead}
    {store : Store}
    {inode : Inode}
    {accepts : Stop → Prop}
    {count : Nat}

theorem Open.notDevice
    (opened : Open sblock store inode) :
    inode.entry.type ≠ inodeDevice := by
  rw [opened.directory]
  decide

theorem Open.size
    (opened : Open sblock store inode)
    (length : (bytesOf sblock store inode).length = direntSize * count) :
    inode.entry.numBytes.toNat = direntSize * count := by
  rw [← length, bytesOf, length_contents, fileSize, opened.loaded.entry]

theorem ensures_readSlot
    (geometry : Geometry sblock)
    (opened : Open sblock store inode)
    (length : (bytesOf sblock store inode).length = direntSize * count)
    {index : Nat}
    (below : index < count) :
    Ensures accepts
      (inodeRead sblock console inode (index * direntSize) direntSize) store
      fun result target =>
        result.2 = slotAt (bytesOf sblock store inode) index ∧
          target = store := by
  have size : fileSize (view sblock store.blocks) inode.inodeNo =
      direntSize * count := by
    rw [← length, bytesOf, length_contents]
  have room : direntSize * (index + 1) ≤ direntSize * count :=
    Nat.mul_le_mul_left direntSize below
  have bound : inode.entry.numBytes.toNat < 2 ^ 32 :=
    inode.entry.numBytes.toNat_lt
  rw [opened.size length] at bound
  refine Ensures.mono
    (ensures_inodeRead geometry opened.calm opened.owned opened.loaded
      opened.present console opened.notDevice ?_ ?_) ?_
  · rw [size, Nat.mul_comm]
    exact Nat.mul_le_mul_left direntSize (Nat.le_of_lt below)
  · simp only [direntSize, fileNameMaxLength, usizeModulus] at room bound ⊢
    omega
  · rintro result target ⟨_, read, same⟩
    refine ⟨?_, same⟩
    rw [read, Nat.mul_comm]
    rfl

theorem readInto_slot
    {curr slot : List UInt8}
    (length : slot.length = direntSize)
    (currLength : curr.length = direntSize) :
    readInto curr slot = slot := by
  unfold readInto
  rw [length, ← currLength, List.drop_length, List.append_nil]

/-- The first of the slots which is live and has the name. -/
def findName (bytes name : List UInt8) : List Nat → Option (Nat × Nat)
  | [] => none
  | index :: rest =>
      if HasName bytes name index then
        some (direntInodeNo (slotAt bytes index), index * direntSize)
      else
        findName bytes name rest

/-- `inode_lookup` from a slot on. -/
theorem ensures_lookupFrom
    (geometry : Geometry sblock)
    (opened : Open sblock store inode)
    (length : (bytesOf sblock store inode).length = direntSize * count)
    {name after curr : List UInt8}
    (compares :
      ∀ index < count, Live (slotAt (bytesOf sblock store inode) index) →
        sameName name (slotAt (bytesOf sblock store inode) index) after =
          some (decide
            (nameOf (slotAt (bytesOf sblock store inode) index) = name)))
    (currLength : curr.length = direntSize)
    {first rounds : Nat}
    (whole : first + rounds = count) :
    Ensures accepts
      (lookupFrom sblock console inode name after
        ((List.range' first rounds).map (· * direntSize)) curr) store
      fun result target =>
        target = store ∧
          result =
            findName (bytesOf sblock store inode) name
              (List.range' first rounds) := by
  induction rounds generalizing first curr with
  | zero =>
      rw [List.range'_zero, List.map_nil, lookupFrom, ensures_pure]
      exact ⟨rfl, rfl⟩
  | succ rounds ih =>
      have below : first < count := by omega
      have slotLength := length_slotAt length below
      rw [List.range'_succ, List.map_cons, lookupFrom, ensures_bind]
      refine (ensures_readSlot geometry opened length below).mono ?_
      rintro read target ⟨isSlot, same⟩
      subst same
      dsimp only
      rw [isSlot, readInto_slot slotLength currLength, findName]
      have rest := @ih (slotAt (bytesOf sblock target inode) first)
        slotLength (first + 1) (by omega)
      by_cases live : Live (slotAt (bytesOf sblock target inode) first)
      · rw [if_neg live, compares first below live]
        by_cases named :
            nameOf (slotAt (bytesOf sblock target inode) first) = name
        · rw [decide_eq_true named, if_pos ⟨live, named⟩]
          dsimp only
          rw [ensures_pure]
          exact ⟨rfl, rfl⟩
        · rw [decide_eq_false named, if_neg fun has => named has.2]
          exact rest
      · rw [if_pos (not_not.mp live), if_neg fun has => live has.1]
        exact rest

/-- The slots are numbered from 0. -/
theorem positions_eq
    (opened : Open sblock store inode)
    (length : (bytesOf sblock store inode).length = direntSize * count) :
    positions inode.entry.numBytes.toNat =
      (List.range' 0 count).map (· * direntSize) := by
  have rounds : (direntSize * count + direntSize - 1) / direntSize = count := by
    simp only [direntSize, fileNameMaxLength]
    omega
  unfold positions
  rw [opened.size length, rounds, List.range_eq_range']

/-- `inode_lookup` returns the first slot which has the name. -/
theorem ensures_inodeLookup
    (geometry : Geometry sblock)
    (opened : Open sblock store inode)
    (length : (bytesOf sblock store inode).length = direntSize * count)
    {name : List UInt8}
    {frame : Frame}
    (compares :
      ∀ index < count, Live (slotAt (bytesOf sblock store inode) index) →
        sameName name (slotAt (bytesOf sblock store inode) index)
            frame.after =
          some (decide
            (nameOf (slotAt (bytesOf sblock store inode) index) = name)))
    (frameLength : frame.curr.length = direntSize) :
    Ensures accepts (inodeLookup sblock console frame inode name) store
      fun result target =>
        target = store ∧
          result =
            findName (bytesOf sblock store inode) name
              (List.range' 0 count) := by
  unfold inodeLookup
  rw [ensures_bind, positions_eq opened length]
  refine ensures_assert_of (Or.inr ?_) ?_
  · rw [opened.directory]
    rfl
  · intro _
    exact ensures_lookupFrom geometry opened length compares frameLength
      (Nat.zero_add count)

/-- What a search for a name from slot `first` on may return. -/
def FoundFrom (bytes name : List UInt8) (count first : Nat) :
    Option (Nat × Nat) → Prop
  | some (inodeNo, position) =>
      ∃ index < count, position = index * direntSize ∧
        HasName bytes name index ∧
          inodeNo = direntInodeNo (slotAt bytes index)
  | none =>
      ∀ index, first ≤ index → index < count → ¬ HasName bytes name index

theorem foundFrom_findName
    {bytes name : List UInt8}
    {first rounds : Nat}
    (whole : first + rounds = count) :
    FoundFrom bytes name count first
      (findName bytes name (List.range' first rounds)) := by
  induction rounds generalizing first with
  | zero =>
      intro index low high
      omega
  | succ rounds ih =>
      rw [List.range'_succ, findName]
      by_cases has : HasName bytes name first
      · rw [if_pos has]
        exact ⟨first, by omega, rfl, has, rfl⟩
      · rw [if_neg has]
        have later := @ih (first + 1) (by omega)
        revert later
        cases findName bytes name (List.range' (first + 1) rounds) with
        | some hit => exact id
        | none =>
            intro later index low high
            rcases Nat.lt_or_ge first index with above | here
            · exact later index above high
            · rwa [Nat.le_antisymm here low]

/-- `inode_lookup` of a directory whose names end. -/
theorem ensures_lookup_tidy
    (geometry : Geometry sblock)
    (opened : Open sblock store inode)
    (tidy : Tidy (bytesOf sblock store inode) count)
    {name : List UInt8}
    (good : GoodName name)
    {frame : Frame}
    (frameLength : frame.curr.length = direntSize) :
    Ensures accepts (inodeLookup sblock console frame inode name) store
      fun result target =>
        target = store ∧
          FoundFrom (bytesOf sblock store inode) name count 0 result := by
  refine (ensures_inodeLookup geometry opened tidy.length ?_
    frameLength).mono ?_
  · intro index below live
    exact sameName_eq good (tidy.ends_ index below live) frame.after
  · rintro result target ⟨same, rfl⟩
    exact ⟨same, foundFrom_findName (Nat.zero_add count)⟩

/-! ## `inode_insert` -/

/-- The first slot from `first` on which is not live, or a new one. -/
def FirstFree (bytes : List UInt8) (count first index : Nat) : Prop :=
  first ≤ index ∧ index ≤ count ∧
    (∀ other, first ≤ other → other < index → Live (slotAt bytes other)) ∧
      (index < count → ¬ Live (slotAt bytes index))

/-- What the loop of `inode_insert` from slot `first` on may return. -/
def SlotFrom (bytes name : List UInt8) (count first offset : Nat) :
    Option Nat → Prop
  | some result =>
      (∀ index, first ≤ index → index < count →
        ¬ HasName bytes name index) ∧
        if offset = direntSize * count then
          ∃ index, result = index * direntSize ∧
            FirstFree bytes count first index
        else
          result = offset
  | none => ∃ index < count, HasName bytes name index

theorem SlotFrom.earlier
    {bytes name : List UInt8}
    {first offset : Nat}
    {result : Option Nat}
    (found : SlotFrom bytes name count (first + 1) offset result)
    (miss : ¬ HasName bytes name first)
    (taken : offset = direntSize * count → Live (slotAt bytes first)) :
    SlotFrom bytes name count first offset result := by
  cases result with
  | none => exact found
  | some position =>
      rcases found with ⟨absent, place⟩
      constructor
      · intro index low high
        rcases Nat.lt_or_ge first index with later | here
        · exact absent index later high
        · rwa [Nat.le_antisymm here low]
      · by_cases unset : offset = direntSize * count
        · rw [if_pos unset] at place ⊢
          rcases place with ⟨index, isIndex, low, high, lives, free⟩
          refine ⟨index, isIndex, Nat.le_of_succ_le low, high, ?_, free⟩
          intro other otherLow otherHigh
          rcases Nat.lt_or_ge first other with later | here
          · exact lives other later otherHigh
          · rw [Nat.le_antisymm here otherLow]
            exact taken unset
        · rw [if_neg unset] at place ⊢
          exact place

/-- The first free slot is kept while the rest is searched for the name. -/
theorem SlotFrom.take
    {bytes name : List UInt8}
    {first : Nat}
    {result : Option Nat}
    (found :
      SlotFrom bytes name count (first + 1) (first * direntSize) result)
    (below : first < count)
    (free : ¬ Live (slotAt bytes first)) :
    SlotFrom bytes name count first (direntSize * count) result := by
  have different : first * direntSize ≠ direntSize * count := by
    simp only [direntSize, fileNameMaxLength]
    omega
  cases result with
  | none => exact found
  | some position =>
      rcases found with ⟨absent, place⟩
      rw [if_neg different] at place
      constructor
      · intro index low high
        rcases Nat.lt_or_ge first index with later | here
        · exact absent index later high
        · rw [Nat.le_antisymm here low]
          exact fun has => free has.1
      · rw [if_pos rfl]
        refine ⟨first, place, le_rfl, Nat.le_of_lt below, ?_, fun _ => free⟩
        intro other low high
        omega

theorem ensures_insertFrom
    (geometry : Geometry sblock)
    (opened : Open sblock store inode)
    (tidy : Tidy (bytesOf sblock store inode) count)
    {name after curr : List UInt8}
    (good : GoodName name)
    (currLength : curr.length = direntSize)
    {first rounds offset : Nat}
    (whole : first + rounds = count) :
    Ensures accepts
      (insertFrom sblock console inode name after
        ((List.range' first rounds).map (· * direntSize)) offset curr) store
      fun result target =>
        target = store ∧
          SlotFrom (bytesOf sblock store inode) name count first offset
            result := by
  induction rounds generalizing first offset curr with
  | zero =>
      rw [List.range'_zero, List.map_nil, insertFrom, ensures_pure]
      refine ⟨rfl, ?_, ?_⟩
      · intro index low high
        omega
      · by_cases unset : offset = direntSize * count
        · rw [if_pos unset]
          refine ⟨count, ?_, by omega, le_rfl, ?_, ?_⟩
          · rw [unset, Nat.mul_comm]
          · intro other low high
            omega
          · intro below
            omega
        · rw [if_neg unset]
  | succ rounds ih =>
      have below : first < count := by omega
      have slotLength := length_slotAt tidy.length below
      rw [List.range'_succ, List.map_cons, insertFrom, ensures_bind]
      refine (ensures_readSlot geometry opened tidy.length below).mono ?_
      rintro read target ⟨isSlot, same⟩
      subst same
      dsimp only
      rw [isSlot, readInto_slot slotLength currLength, opened.size tidy.length]
      by_cases live : Live (slotAt (bytesOf sblock target inode) first)
      · rw [if_neg live, sameName_eq good (tidy.ends_ first below live)]
        by_cases named :
            nameOf (slotAt (bytesOf sblock target inode) first) = name
        · rw [decide_eq_true named]
          dsimp only
          rw [ensures_pure]
          exact ⟨rfl, first, below, live, named⟩
        · rw [decide_eq_false named]
          dsimp only
          refine (ih slotLength (by omega)).mono ?_
          rintro result finish ⟨same, found⟩
          exact ⟨same, found.earlier (fun has => named has.2) fun _ => live⟩
      · rw [if_pos (not_not.mp live)]
        by_cases unset : offset = direntSize * count
        · rw [if_pos unset]
          refine (ih slotLength (by omega)).mono ?_
          rintro result finish ⟨same, found⟩
          rw [unset]
          exact ⟨same, found.take below live⟩
        · rw [if_neg unset]
          refine (ih slotLength (by omega)).mono ?_
          rintro result finish ⟨same, found⟩
          exact ⟨same, found.earlier (fun has => live has.1)
            fun isUnset => absurd isUnset unset⟩

/-- A slot of a directory is written, or a new one behind the last. -/
theorem ensures_writeSlot
    (geometry : Geometry sblock)
    (opened : Open sblock store inode)
    {index : Nat}
    {src : List UInt8}
    (srcLength : src.length = direntSize)
    (inside :
      index * direntSize ≤
        fileSize (view sblock store.blocks) inode.inodeNo)
    (fits : index * direntSize + direntSize ≤ inodeMaxBytes) :
    Ensures Stop.Exhausted
      (inodeWrite sblock inode src (index * direntSize)) store
      fun result target =>
        Open sblock target result.1 ∧
          bytesOf sblock target result.1 =
            splice (bytesOf sblock store inode) (direntSize * index) src := by
  refine Ensures.mono
    (ensures_inodeWrite geometry opened.calm opened.owned opened.loaded
      opened.notDevice (fun _ => id)
      (Or.inr ⟨inside, srcLength ▸ fits⟩)) ?_
  rintro result target ⟨_, reloaded, held, _, _, _, writes⟩
  have last :
      (index * direntSize + src.length) % usizeModulus =
        index * direntSize + src.length := by
    apply Nat.mod_eq_of_lt
    rw [srcLength]
    exact Nat.lt_of_le_of_lt fits (by decide)
  rw [last] at writes
  have operates := Operates.of_writes writes inside
  have number : result.1.inodeNo = inode.inodeNo := by
    rw [reloaded]
  constructor
  · constructor
    · exact opened.calm.of_held held
    · exact writes.owned
    · rw [reloaded]
      refine ⟨opened.loaded.valid, rfl, ?_⟩
      exact (operates.allocated_iff inode.inodeNo).mpr opened.loaded.allocated
    · rw [number]
      intro block below
      rw [writes.size] at below
      by_cases had :
          block * blockSize <
            fileSize (view sblock store.blocks) inode.inodeNo
      · exact writes.kept block (opened.present block had)
      · have filled := writes.filled (block * blockSize) (by omega) (by omega)
        rwa [Nat.mul_div_cancel _ (by decide : 0 < blockSize)] at filled
    · rw [reloaded]
      dsimp only
      rw [writes.type, ← opened.loaded.entry]
      exact opened.directory
  · unfold bytesOf
    rw [number, Nat.mul_comm direntSize]
    exact writes.contents_eq inside

/-- The directory after a slot was written. -/
theorem Tidy.write
    {bytes src : List UInt8}
    {index : Nat}
    (tidy : Tidy bytes count)
    (inside : index ≤ count)
    (srcLength : src.length = direntSize)
    (ends_ : Live src → Ends src)
    (fresh :
      ∀ other < count, other ≠ index → Live (slotAt bytes other) →
        Live src → nameOf (slotAt bytes other) ≠ nameOf src) :
    Tidy (splice bytes (direntSize * index) src) (max count (index + 1)) := by
  have older : ∀ other < max count (index + 1), other ≠ index →
      other < count := by
    intro other below different
    omega
  constructor
  · exact length_splice tidy.length inside srcLength
  · intro other below
    rw [slotAt_splice tidy.length inside srcLength]
    by_cases same : other = index
    · rw [if_pos same]
      exact ends_
    · rw [if_neg same]
      exact tidy.ends_ other (older other below same)
  · intro first firstBelow second secondBelow
    rw [slotAt_splice tidy.length inside srcLength,
      slotAt_splice tidy.length inside srcLength]
    by_cases firstHere : first = index
    · by_cases secondHere : second = index
      · intro _ _ _
        exact firstHere.trans secondHere.symm
      · rw [if_pos firstHere, if_neg secondHere]
        intro live otherLive same
        exact absurd same.symm
          (fresh second (older second secondBelow secondHere) secondHere
            otherLive live)
    · by_cases secondHere : second = index
      · rw [if_neg firstHere, if_pos secondHere]
        intro live otherLive same
        exact absurd same
          (fresh first (older first firstBelow firstHere) firstHere live
            otherLive)
      · rw [if_neg firstHere, if_neg secondHere]
        exact tidy.distinct first (older first firstBelow firstHere) second
          (older second secondBelow secondHere)

/-- `inode_insert` when the name is there. -/
theorem ensures_inodeInsert_present
    (geometry : Geometry sblock)
    (opened : Open sblock store inode)
    (tidy : Tidy (bytesOf sblock store inode) count)
    {frame : Frame}
    {name : List UInt8}
    (frameLength : frame.curr.length = direntSize)
    (good : GoodName name)
    (inodeNo : Nat)
    {index : Nat}
    (below : index < count)
    (has : HasName (bytesOf sblock store inode) name index) :
    Ensures accepts (inodeInsert sblock console frame inode name inodeNo)
      store fun result target =>
        result = (inode, usizeModulus - 1) ∧ target = store := by
  unfold inodeInsert
  rw [ensures_bind, positions_eq opened tidy.length]
  refine ensures_assert_of (Or.inr ?_) ?_
  · rw [opened.directory]
    rfl
  · intro _
    rw [ensures_bind]
    refine (ensures_insertFrom geometry opened tidy good frameLength
      (Nat.zero_add count)).mono ?_
    rintro result target ⟨same, found⟩
    cases result with
    | none => exact ⟨rfl, same⟩
    | some position =>
        exact absurd has (found.1 index (Nat.zero_le index) below)

/-- `inode_insert` of a name which is not there. -/
theorem ensures_inodeInsert_absent
    (geometry : Geometry sblock)
    (opened : Open sblock store inode)
    (tidy : Tidy (bytesOf sblock store inode) count)
    {frame : Frame}
    {name : List UInt8}
    (frameLength : frame.curr.length = direntSize)
    (good : GoodName name)
    (inodeNo : Nat)
    (missing :
      ∀ index < count, ¬ HasName (bytesOf sblock store inode) name index)
    (room :
      (∃ index < count, ¬ Live (slotAt (bytesOf sblock store inode) index)) ∨
        count * direntSize + direntSize ≤ inodeMaxBytes)
    (bounded : count * direntSize ≤ inodeMaxBytes) :
    Ensures Stop.Exhausted
      (inodeInsert sblock console frame inode name inodeNo) store
      fun result target =>
        ∃ index, result.2 = index * direntSize ∧
          index * direntSize + direntSize ≤ inodeMaxBytes ∧
            FirstFree (bytesOf sblock store inode) count 0 index ∧
              Open sblock target result.1 ∧
                bytesOf sblock target result.1 =
                  splice (bytesOf sblock store inode) (direntSize * index)
                    (dirent inodeNo
                      (strncpy name fileNameMaxLength)) := by
  have size : fileSize (view sblock store.blocks) inode.inodeNo =
      direntSize * count := by
    rw [← tidy.length, bytesOf, length_contents]
  unfold inodeInsert
  rw [ensures_bind, positions_eq opened tidy.length]
  refine ensures_assert_of (Or.inr ?_) ?_
  · rw [opened.directory]
    rfl
  · intro _
    rw [ensures_bind, opened.size tidy.length]
    refine (ensures_insertFrom geometry opened tidy good frameLength
      (Nat.zero_add count)).mono ?_
    rintro result middle ⟨rfl, found⟩
    cases result with
    | none =>
        rcases found with ⟨index, below, has⟩
        exact absurd has (missing index below)
    | some position =>
        have place := found.2
        rw [if_pos rfl] at place
        rcases place with ⟨index, rfl, first⟩
        have fits : index * direntSize + direntSize ≤ inodeMaxBytes := by
          rcases Nat.lt_or_ge index count with below | beyond
          · have step : (index + 1) * direntSize ≤ count * direntSize :=
              Nat.mul_le_mul_right direntSize below
            rw [Nat.succ_mul] at step
            exact step.trans bounded
          · have last : index = count := Nat.le_antisymm first.2.1 beyond
            rcases room with ⟨free, freeBelow, isFree⟩ | room
            · exact absurd
                (first.2.2.1 free (Nat.zero_le free) (last ▸ freeBelow))
                isFree
            · rw [last]
              exact room
        have srcLength :
            (dirent inodeNo (strncpy name fileNameMaxLength)).length =
              direntSize := by
          rw [length_dirent, length_strncpy good]
        have inside :
            index * direntSize ≤
              fileSize (view sblock middle.blocks) inode.inodeNo := by
          rw [size, Nat.mul_comm]
          exact Nat.mul_le_mul_left direntSize first.2.1
        dsimp only
        rw [ensures_bind]
        refine (ensures_writeSlot geometry opened srcLength inside fits).mono
          ?_
        rintro written target ⟨reopened, bytes⟩
        exact ⟨index, rfl, fits, first, reopened, bytes⟩

theorem length_freed
    {bytes : List UInt8}
    (tidy : Tidy bytes count)
    {index : Nat}
    (below : index < count) :
    (dirent 0 (direntName (slotAt bytes index))).length = direntSize := by
  rw [length_dirent, direntName, List.length_drop,
    length_slotAt tidy.length below]
  rfl

/-- `inode_remove` of a slot. -/
theorem ensures_inodeRemove
    (geometry : Geometry sblock)
    (opened : Open sblock store inode)
    (tidy : Tidy (bytesOf sblock store inode) count)
    {frame : Frame}
    (frameLength : frame.curr.length = direntSize)
    {index : Nat}
    (below : index < count)
    (bounded : count * direntSize ≤ inodeMaxBytes) :
    Ensures Stop.Exhausted
      (inodeRemove sblock console frame inode (index * direntSize)) store
      fun result target =>
        Open sblock target result ∧
          bytesOf sblock target result =
            splice (bytesOf sblock store inode) (direntSize * index)
              (dirent 0
                (direntName
                  (slotAt (bytesOf sblock store inode) index))) := by
  have size : fileSize (view sblock store.blocks) inode.inodeNo =
      direntSize * count := by
    rw [← tidy.length, bytesOf, length_contents]
  have slotLength := length_slotAt tidy.length below
  unfold inodeRemove
  rw [ensures_bind]
  refine (ensures_readSlot geometry opened tidy.length below).mono ?_
  rintro read middle ⟨isSlot, rfl⟩
  dsimp only
  rw [isSlot, readInto_slot slotLength frameLength, ensures_bind]
  have srcLength :
      (dirent 0
        (direntName (slotAt (bytesOf sblock middle inode) index))).length =
          direntSize :=
    length_freed tidy below
  have inside :
      index * direntSize ≤
        fileSize (view sblock middle.blocks) inode.inodeNo := by
    rw [size, Nat.mul_comm]
    exact Nat.mul_le_mul_left direntSize (Nat.le_of_lt below)
  have fits : index * direntSize + direntSize ≤ inodeMaxBytes := by
    have step : (index + 1) * direntSize ≤ count * direntSize :=
      Nat.mul_le_mul_right direntSize below
    rw [Nat.succ_mul] at step
    exact step.trans bounded
  refine (ensures_writeSlot geometry opened srcLength inside fits).mono ?_
  rintro written target written
  exact written

end Functions

/-! ## Runs -/

/-- A directory, with the map from names which it should be. -/
structure System where
  store : Store
  inode : Inode
  /-- The inode number and the position of the slot of every name. -/
  names : List UInt8 → Option (Nat × Nat)

inductive Call where
  | insert (frame : Frame) (name : List UInt8) (inodeNo : Nat)
  | remove (frame : Frame) (index : Nat)
  | lookup (frame : Frame) (name : List UInt8)
  /-- The next calls belong to another operation. -/
  | operation (logged : List Nat) (rm : Nat)

/-- The names whose slot is not at `index`. -/
def without (names : List UInt8 → Option (Nat × Nat)) (index : Nat) :
    List UInt8 → Option (Nat × Nat) :=
  fun name => (names name).filter fun found => found.2 ≠ index

section Steps

variable
    (sblock : SuperBlock)
    (console : ConsoleRead)

def step (system : System) : Call → Except Stop System
  | .insert frame name inodeNo => do
      let ((inode, offset), store) ←
        (inodeInsert sblock console frame system.inode name inodeNo).run
          system.store
      let names :=
        if offset = usizeModulus - 1 then
          system.names
        else
          Function.update system.names name (some (inodeNo, offset))
      return { store := store, inode := inode, names := names }
  | .remove frame index => do
      let (inode, store) ←
        (inodeRemove sblock console frame system.inode index).run system.store
      let names := without system.names index
      return { store := store, inode := inode, names := names }
  | .lookup frame name => do
      let (_, store) ←
        (inodeLookup sblock console frame system.inode name).run system.store
      return { system with store := store }
  | .operation logged rm =>
      .ok
        { system with
          store := { system.store with logged := logged, rm := rm } }

def System.bytes (system : System) : List UInt8 :=
  bytesOf sblock system.store system.inode

/-- The number of the slots. -/
def System.count (system : System) : Nat :=
  (system.bytes sblock).length / direntSize

/-- A name which is not there can be inserted. -/
def System.HasRoom (system : System) : Prop :=
  (∃ index < system.count sblock,
    ¬ Live (slotAt (system.bytes sblock) index)) ∨
      system.count sblock * direntSize + direntSize ≤ inodeMaxBytes

/-- What the callers promise. -/
def Allowed (system : System) : Call → Prop
  | .insert frame name inodeNo =>
      frame.curr.length = direntSize ∧ GoodName name ∧ 0 < inodeNo ∧
        inodeNo < 2 ^ 16 ∧
          (system.names name = none → system.HasRoom sblock)
  | .remove frame index =>
      frame.curr.length = direntSize ∧
        ∃ slot < system.count sblock, index = slot * direntSize
  | .lookup frame name => frame.curr.length = direntSize ∧ GoodName name
  | .operation _ _ => True

/-- The directory acts as the map. -/
structure ActsAsMap (system : System) : Prop where
  /-- The number which was inserted last and not removed, and its slot. -/
  lookup :
    ∀ frame name, Allowed sblock system (.lookup frame name) →
      Ensures (fun _ => False)
        (inodeLookup sblock console frame system.inode name) system.store
        fun result target =>
          result = system.names name ∧ target = system.store
  /-- Nothing changes when the name is there. -/
  present :
    ∀ frame name inodeNo,
      Allowed sblock system (.insert frame name inodeNo) →
        system.names name ≠ none →
          Ensures (fun _ => False)
            (inodeInsert sblock console frame system.inode name inodeNo)
            system.store
            fun result target =>
              result = (system.inode, usizeModulus - 1) ∧
                target = system.store
  /-- Else the first free slot is used, or one is appended. -/
  absent :
    ∀ frame name inodeNo,
      Allowed sblock system (.insert frame name inodeNo) →
        system.names name = none →
          Ensures Stop.Exhausted
            (inodeInsert sblock console frame system.inode name inodeNo)
            system.store
            fun result target =>
              ∃ index, result.2 = index * direntSize ∧
                result.2 ≠ usizeModulus - 1 ∧
                  FirstFree (system.bytes sblock) (system.count sblock) 0
                    index ∧
                    ∀ other,
                      slotAt (bytesOf sblock target result.1) other =
                        if other = index then
                          dirent inodeNo (strncpy name fileNameMaxLength)
                        else
                          slotAt (system.bytes sblock) other
  /-- Only the slot is freed, and its name is left behind. -/
  remove :
    ∀ frame position, Allowed sblock system (.remove frame position) →
      Ensures Stop.Exhausted
        (inodeRemove sblock console frame system.inode position) system.store
        fun result target =>
          ∀ other,
            slotAt (bytesOf sblock target result) other =
              if other * direntSize = position then
                dirent 0 (direntName (slotAt (system.bytes sblock) other))
              else
                slotAt (system.bytes sblock) other
  /-- No two live slots have the same name. -/
  distinct :
    ∀ index < system.count sblock, ∀ other < system.count sblock,
      Live (slotAt (system.bytes sblock) index) →
        Live (slotAt (system.bytes sblock) other) →
          nameOf (slotAt (system.bytes sblock) index) =
              nameOf (slotAt (system.bytes sblock) other) →
            index = other

/-- The live slots are those of the map. -/
structure Maps (system : System) : Prop where
  opened : Open sblock system.store system.inode
  tidy : Tidy (system.bytes sblock) (system.count sblock)
  bounded : system.count sblock * direntSize ≤ inodeMaxBytes
  named :
    ∀ name inodeNo position,
      system.names name = some (inodeNo, position) ↔
        FoundFrom (system.bytes sblock) name (system.count sblock) 0
          (some (inodeNo, position))

end Steps

section Invariant

variable
    {sblock : SuperBlock}
    {console : ConsoleRead}
    {system target : System}

theorem count_of_tidy
    {count : Nat}
    (tidy : Tidy (system.bytes sblock) count) :
    system.count sblock = count := by
  unfold System.count
  rw [tidy.length]
  exact Nat.mul_div_cancel_left count (by decide)

/-- A search of all slots finds what the map has. -/
theorem Maps.names_eq
    (maps : Maps sblock system)
    {name : List UInt8}
    {result : Option (Nat × Nat)}
    (found :
      FoundFrom (system.bytes sblock) name (system.count sblock) 0 result) :
    result = system.names name := by
  cases result with
  | some hit => exact ((maps.named name hit.1 hit.2).mpr found).symm
  | none =>
      cases expected : system.names name with
      | none => rfl
      | some hit =>
          rcases (maps.named name hit.1 hit.2).mp expected with
            ⟨index, below, _, has, _⟩
          exact absurd has (found index (Nat.zero_le index) below)

theorem Maps.missing
    (maps : Maps sblock system)
    {name : List UInt8}
    (absent : system.names name = none) :
    ∀ index < system.count sblock,
      ¬ HasName (system.bytes sblock) name index := by
  intro index below has
  have there :=
    (maps.named name _ (index * direntSize)).mpr
      ⟨index, below, rfl, has, rfl⟩
  rw [absent] at there
  cases there

theorem Maps.there
    (maps : Maps sblock system)
    {name : List UInt8}
    (present : system.names name ≠ none) :
    ∃ index < system.count sblock,
      HasName (system.bytes sblock) name index := by
  rcases Option.ne_none_iff_exists'.mp present with ⟨hit, expected⟩
  rcases (maps.named name hit.1 hit.2).mp expected with
    ⟨index, below, _, has, _⟩
  exact ⟨index, below, has⟩

/-- What a search finds after a slot was written. -/
theorem foundFrom_splice
    {bytes src name : List UInt8}
    {count index inodeNo position : Nat}
    (length : bytes.length = direntSize * count)
    (inside : index ≤ count)
    (srcLength : src.length = direntSize) :
    FoundFrom (splice bytes (direntSize * index) src) name
        (max count (index + 1)) 0 (some (inodeNo, position)) ↔
      (position = index * direntSize ∧ Live src ∧ nameOf src = name ∧
        inodeNo = direntInodeNo src) ∨
        (position ≠ index * direntSize ∧
          FoundFrom bytes name count 0 (some (inodeNo, position))) := by
  have apart :
      ∀ other, other * direntSize = index * direntSize ↔ other = index := by
    intro other
    exact Nat.mul_left_inj (by decide)
  unfold FoundFrom HasName
  dsimp only
  constructor
  · rintro ⟨other, below, rfl, ⟨live, named⟩, number⟩
    rw [slotAt_splice length inside srcLength] at live named number
    by_cases here : other = index
    · rw [if_pos here] at live named number
      exact Or.inl ⟨(apart other).mpr here, live, named, number⟩
    · rw [if_neg here] at live named number
      refine Or.inr ⟨fun same => here ((apart other).mp same), ?_⟩
      exact ⟨other, by omega, rfl, ⟨live, named⟩, number⟩
  · rintro (⟨rfl, live, named, number⟩ | ⟨different, other, below, rfl, rest⟩)
    · refine ⟨index, by omega, rfl, ?_⟩
      rw [slotAt_splice length inside srcLength, if_pos rfl]
      exact ⟨⟨live, named⟩, number⟩
    · refine ⟨other, by omega, rfl, ?_⟩
      rw [slotAt_splice length inside srcLength,
        if_neg fun here => different ((apart other).mpr here)]
      exact rest

/-- The entry which `inode_insert` writes. -/
theorem dirent_facts
    {name : List UInt8}
    {inodeNo : Nat}
    (good : GoodName name)
    (positive : 0 < inodeNo)
    (small : inodeNo < 2 ^ 16) :
    let entry := dirent inodeNo (strncpy name fileNameMaxLength)
    entry.length = direntSize ∧ Live entry ∧ Ends entry ∧
      nameOf entry = name ∧ direntInodeNo entry = inodeNo := by
  have length :
      (dirent inodeNo (strncpy name fileNameMaxLength)).length =
        direntSize := by
    rw [length_dirent, length_strncpy good]
  have number := direntInodeNo_dirent small (strncpy name fileNameMaxLength)
  refine ⟨length, ?_, ⟨length, name, good, rfl⟩,
    nameOf_of_copied good rfl, number⟩
  unfold Live
  rw [number]
  exact Nat.ne_of_gt positive

theorem FirstFree.not_live
    {bytes : List UInt8}
    {count index other : Nat}
    (first : FirstFree bytes count 0 index)
    (below : other < count)
    (live : Live (slotAt bytes other)) :
    other ≠ index := by
  rintro rfl
  exact first.2.2.2 below live

/-- The map after a name was inserted. -/
theorem Maps.insert
    (maps : Maps sblock system)
    {name : List UInt8}
    {inodeNo index : Nat}
    (good : GoodName name)
    (positive : 0 < inodeNo)
    (small : inodeNo < 2 ^ 16)
    (absent : system.names name = none)
    (first :
      FirstFree (system.bytes sblock) (system.count sblock) 0 index)
    (fits : index * direntSize + direntSize ≤ inodeMaxBytes)
    (opened : Open sblock target.store target.inode)
    (bytes :
      target.bytes sblock =
        splice (system.bytes sblock) (direntSize * index)
          (dirent inodeNo (strncpy name fileNameMaxLength)))
    (names :
      target.names =
        Function.update system.names name
          (some (inodeNo, index * direntSize))) :
    Maps sblock target := by
  have missing := maps.missing absent
  rcases dirent_facts good positive small with
    ⟨srcLength, live, ends_, named, number⟩
  have tidy :
      Tidy (target.bytes sblock)
        (max (system.count sblock) (index + 1)) := by
    rw [bytes]
    refine maps.tidy.write first.2.1 srcLength (fun _ => ends_) ?_
    intro other below _ otherLive _ same
    exact missing other below ⟨otherLive, same.trans named⟩
  have count := count_of_tidy tidy
  refine ⟨opened, count ▸ tidy, ?_, ?_⟩
  · have bounded := maps.bounded
    rw [count]
    simp only [direntSize, fileNameMaxLength] at bounded fits ⊢
    omega
  · intro other otherNo position
    rw [names, count, bytes,
      foundFrom_splice maps.tidy.length first.2.1 srcLength, named, number]
    by_cases same : other = name
    · subst same
      rw [Function.update_self]
      constructor
      · intro equal
        cases equal
        exact Or.inl ⟨rfl, live, rfl, rfl⟩
      · rintro (⟨rfl, _, _, rfl⟩ | ⟨_, there, below, _, has, _⟩)
        · rfl
        · exact absurd has (missing there below)
    · rw [Function.update_of_ne same, maps.named]
      constructor
      · rintro ⟨there, below, rfl, has, isNumber⟩
        refine Or.inr ⟨?_, there, below, rfl, has, isNumber⟩
        intro here
        exact first.not_live below has.1
          ((Nat.mul_left_inj (by decide)).mp here)
      · rintro (⟨_, _, isName, _⟩ | ⟨_, found⟩)
        · exact absurd isName.symm same
        · exact found

/-- The map after a slot was freed. -/
theorem Maps.remove
    (maps : Maps sblock system)
    {index : Nat}
    (below : index < system.count sblock)
    (opened : Open sblock target.store target.inode)
    (bytes :
      target.bytes sblock =
        splice (system.bytes sblock) (direntSize * index)
          (dirent 0 (direntName (slotAt (system.bytes sblock) index))))
    (names : target.names = without system.names (index * direntSize)) :
    Maps sblock target := by
  have inside : index ≤ system.count sblock := Nat.le_of_lt below
  have srcLength :
      (dirent 0
        (direntName (slotAt (system.bytes sblock) index))).length =
          direntSize :=
    length_freed maps.tidy below
  have free :
      ¬ Live (dirent 0
        (direntName (slotAt (system.bytes sblock) index))) := by
    intro live
    exact live (direntInodeNo_dirent (by decide) _)
  have tidy : Tidy (target.bytes sblock) (system.count sblock) := by
    have written :=
      maps.tidy.write inside srcLength (fun live => absurd live free)
        fun _ _ _ _ live => absurd live free
    rwa [Nat.max_eq_left below, ← bytes] at written
  have count := count_of_tidy tidy
  refine ⟨opened, count ▸ tidy, count ▸ maps.bounded, ?_⟩
  intro name inodeNo position
  have found :=
    @foundFrom_splice _ _ name _ _ inodeNo position maps.tidy.length inside
      srcLength
  rw [Nat.max_eq_left below] at found
  rw [names, count, bytes, found, without, Option.filter_eq_some_iff,
    maps.named, decide_eq_true_eq]
  constructor
  · rintro ⟨there, different⟩
    exact Or.inr ⟨different, there⟩
  · rintro (⟨_, live, _⟩ | ⟨different, there⟩)
    · exact absurd live free
    · exact ⟨there, different⟩

theorem Open.of_operation
    (opened : Open sblock system.store system.inode)
    (logged : List Nat)
    (rm : Nat) :
    Open sblock { system.store with logged := logged, rm := rm }
      system.inode :=
  ⟨opened.calm, opened.owned, opened.loaded, opened.present,
    opened.directory⟩

theorem Maps.step_lookup
    (geometry : Geometry sblock)
    (maps : Maps sblock system)
    {frame : Frame}
    {name : List UInt8}
    (allowed : Allowed sblock system (.lookup frame name))
    (taken : step sblock console system (.lookup frame name) = .ok target) :
    Maps sblock target := by
  rcases allowed with ⟨frameLength, good⟩
  rcases exists_of_bind_eq_ok taken with ⟨⟨found, store⟩, returned, rest⟩
  have looked :
      Ensures (fun _ => False)
        (inodeLookup sblock console frame system.inode name) system.store
        fun result finish => finish = system.store ∧ _ :=
    ensures_lookup_tidy geometry maps.opened maps.tidy good frameLength
  have same : store = system.store := (looked.of_run returned).1
  cases rest
  rw [same]
  exact maps

theorem Maps.step_insert
    (geometry : Geometry sblock)
    (maps : Maps sblock system)
    {frame : Frame}
    {name : List UInt8}
    {inodeNo : Nat}
    (allowed : Allowed sblock system (.insert frame name inodeNo))
    (taken :
      step sblock console system (.insert frame name inodeNo) =
        .ok target) :
    Maps sblock target := by
  rcases allowed with ⟨frameLength, good, positive, small, room⟩
  rcases exists_of_bind_eq_ok taken with
    ⟨⟨⟨inode, offset⟩, store⟩, returned, rest⟩
  by_cases absent : system.names name = none
  · rcases (ensures_inodeInsert_absent geometry maps.opened maps.tidy
        frameLength good inodeNo (maps.missing absent) (room absent)
        maps.bounded).of_run returned with
      ⟨index, place, fits, first, opened, bytes⟩
    have inRange : offset ≠ usizeModulus - 1 := by
      have small : inodeMaxBytes < usizeModulus - 1 := by decide
      dsimp only at place
      omega
    cases rest
    refine maps.insert good positive small absent first fits opened bytes ?_
    dsimp only
    rw [if_neg inRange]
    dsimp only at place
    rw [place]
  · rcases maps.there absent with ⟨index, below, has⟩
    have unchanged :
        Ensures (fun _ => False)
          (inodeInsert sblock console frame system.inode name inodeNo)
          system.store fun result finish =>
            result = (system.inode, usizeModulus - 1) ∧
              finish = system.store :=
      ensures_inodeInsert_present geometry maps.opened maps.tidy frameLength
        good inodeNo below has
    rcases unchanged.of_run returned with ⟨same, sameStore⟩
    cases same
    dsimp only at rest sameStore
    rw [if_pos rfl, sameStore] at rest
    cases rest
    exact maps

theorem Maps.step_remove
    (geometry : Geometry sblock)
    (maps : Maps sblock system)
    {frame : Frame}
    {position : Nat}
    (allowed : Allowed sblock system (.remove frame position))
    (taken :
      step sblock console system (.remove frame position) = .ok target) :
    Maps sblock target := by
  rcases allowed with ⟨frameLength, index, below, rfl⟩
  rcases exists_of_bind_eq_ok taken with ⟨⟨inode, store⟩, returned, rest⟩
  rcases (ensures_inodeRemove geometry maps.opened maps.tidy frameLength
      below maps.bounded).of_run returned with ⟨opened, bytes⟩
  cases rest
  exact maps.remove below opened bytes rfl

/-- A call keeps the directory and the map together. -/
theorem Maps.step
    (geometry : Geometry sblock)
    (maps : Maps sblock system)
    {call : Call}
    (allowed : Allowed sblock system call)
    (taken : Takes (step sblock console) system call target) :
    Maps sblock target := by
  cases call with
  | insert frame name inodeNo => exact maps.step_insert geometry allowed taken
  | remove frame position => exact maps.step_remove geometry allowed taken
  | lookup frame name => exact maps.step_lookup geometry allowed taken
  | operation logged rm =>
      cases taken
      exact ⟨maps.opened.of_operation logged rm, maps.tidy, maps.bounded,
        maps.named⟩

theorem Maps.actsAsMap
    (geometry : Geometry sblock)
    (maps : Maps sblock system) :
    ActsAsMap sblock console system := by
  constructor
  · rintro frame name ⟨frameLength, good⟩
    refine (ensures_lookup_tidy geometry maps.opened maps.tidy good
      frameLength).mono ?_
    rintro result store ⟨same, found⟩
    exact ⟨maps.names_eq found, same⟩
  · rintro frame name inodeNo ⟨frameLength, good, _⟩ present
    rcases maps.there present with ⟨index, below, has⟩
    exact ensures_inodeInsert_present geometry maps.opened maps.tidy
      frameLength good inodeNo below has
  · rintro frame name inodeNo ⟨frameLength, good, _, _, room⟩ absent
    refine (ensures_inodeInsert_absent geometry maps.opened maps.tidy
      frameLength good inodeNo (maps.missing absent) (room absent)
      maps.bounded).mono ?_
    rintro result store ⟨index, place, fits, first, _, bytes⟩
    have small : inodeMaxBytes < usizeModulus - 1 := by decide
    refine ⟨index, place, by omega, first, ?_⟩
    intro other
    rw [bytes]
    refine slotAt_splice maps.tidy.length first.2.1 ?_ other
    rw [length_dirent, length_strncpy good]
  · rintro frame position ⟨frameLength, index, below, rfl⟩
    refine (ensures_inodeRemove geometry maps.opened maps.tidy frameLength
      below maps.bounded).mono ?_
    rintro result store ⟨_, bytes⟩ other
    have apart : other * direntSize = index * direntSize ↔ other = index :=
      Nat.mul_left_inj (by decide)
    have slots :=
      slotAt_splice maps.tidy.length (Nat.le_of_lt below)
        (length_freed maps.tidy below) other
    rw [bytes]
    by_cases here : other = index
    · rw [if_pos here] at slots
      rw [if_pos (apart.mpr here), here]
      exact here ▸ slots
    · rw [if_neg here] at slots
      rw [if_neg fun same => here (apart.mp same)]
      exact slots
  · exact maps.tidy.distinct

/-- A directory without a slot is the empty map. -/
theorem Maps.of_empty
    (opened : Open sblock system.store system.inode)
    (empty : system.bytes sblock = [])
    (nameless : system.names = fun _ => none) :
    Maps sblock system := by
  have noSlot : system.count sblock = 0 := by
    unfold System.count
    rw [empty]
    rfl
  refine ⟨opened, ?_, ?_, ?_⟩
  · rw [noSlot]
    refine ⟨by rw [empty]; rfl, ?_, ?_⟩
    · intro index below
      exact absurd below (Nat.not_lt_zero index)
    · intro index below
      exact absurd below (Nat.not_lt_zero index)
  · rw [noSlot]
    decide
  · intro name inodeNo position
    rw [nameless, noSlot]
    constructor
    · intro equal
      cases equal
    · rintro ⟨index, below, _⟩
      exact absurd below (Nat.not_lt_zero index)

/--
A directory which starts empty is the finite map of the names which were
inserted and not removed, whatever the calls were.
-/
theorem directory_is_map
    (geometry : Geometry sblock)
    {start finish : System}
    (opened : Open sblock start.store start.inode)
    (empty : start.bytes sblock = [])
    (nameless : start.names = fun _ => none)
    {calls : List Call}
    (run :
      Run (Takes (DirectoryMap.step sblock console)) (Allowed sblock) start
        calls finish) :
    ActsAsMap sblock console finish := by
  have maps : Maps sblock finish := by
    refine run.invariant (Maps.of_empty opened empty nameless) ?_
    intro source call target maps allowed taken
    exact maps.step geometry allowed taken
  exact maps.actsAsMap geometry

end Invariant

/-! ## A directory on the small disk -/

section SmallDisk

open FudanOS.Fs.InodeTable
open FudanOS.Fs.InodeRuns

instance (name : List UInt8) : Decidable (GoodName name) :=
  decidable_of_iff
    (name ≠ [] ∧ name.length < fileNameMaxLength ∧ 0 ∉ name)
    ⟨fun all => ⟨all.1, all.2.1, all.2.2⟩,
      fun good => ⟨good.nonempty, good.short, good.noNul⟩⟩

instance (sblock : SuperBlock) (system : System) :
    Decidable (system.HasRoom sblock) :=
  inferInstanceAs (Decidable (_ ∨ _))

instance (sblock : SuperBlock) (system : System) (call : Call) :
    Decidable (Allowed sblock system call) :=
  match call with
  | .insert _ _ _ => inferInstanceAs (Decidable (_ ∧ _ ∧ _ ∧ _ ∧ (_ → _)))
  | .remove _ _ => inferInstanceAs (Decidable (_ ∧ _))
  | .lookup _ _ => inferInstanceAs (Decidable (_ ∧ _))
  | .operation _ _ => inferInstanceAs (Decidable True)

/-- The directory at the address 7 of a state. -/
def directoryOf (state : State) : System where
  store := state.store
  inode := state.nodes 7
  names := fun _ => none

/-- The address 7 holds an empty directory. -/
def HasDirectory (state : State) : Prop :=
  state.head = [7] ∧ (state.nodes 7).entry.type = inodeDirectory ∧
    (state.nodes 7).entry.numBytes = 0

instance (state : State) : Decidable (HasDirectory state) :=
  inferInstanceAs (Decidable (_ ∧ _ ∧ _))

/-- A frame with garbage in `curr`. -/
def garbage : Frame where
  curr := List.replicate direntSize 7
  after := [7, 0]

/-- A name and one it starts are inserted; the slot of the first is reused. -/
def threeNames : List Call :=
  [.insert garbage [97, 98] 5, .insert garbage [97] 6,
    .insert garbage [97] 9, .remove garbage 0, .insert garbage [99] 8]

theorem fileSize_of_empty
    {sblock : SuperBlock}
    {disk : View}
    {inode : Inode}
    (loaded : Loaded sblock disk inode)
    (empty : inode.entry.numBytes = 0) :
    fileSize disk inode.inodeNo = 0 := by
  unfold fileSize
  rw [← loaded.entry, empty]
  rfl

theorem Open.of_consistent
    {sblock : SuperBlock}
    {state : State}
    (consistent : Consistent sblock state)
    {address : Nat}
    (member : address ∈ state.head)
    (type : (state.nodes address).entry.type = inodeDirectory)
    (empty : (state.nodes address).entry.numBytes = 0) :
    Open sblock state.store (state.nodes address) := by
  have loaded := consistent.loaded address member
  have size :
      fileSize (InodeLayout.view sblock state.store.blocks)
        (state.nodes address).inodeNo = 0 :=
    fileSize_of_empty loaded empty
  refine ⟨consistent.calm, consistent.owned, loaded, ?_, type⟩
  intro index below
  rw [size] at below
  exact absurd below (Nat.not_lt_zero _)

theorem directory_is_map_three_names :
    ∃ start finish,
      Run (Takes (DirectoryMap.step smallDisk silent)) (Allowed smallDisk)
          start threeNames finish ∧
        finish.names [97, 98] = none ∧ finish.names [97] = some (6, 16) ∧
          finish.names [99] = some (8, 0) ∧
            ActsAsMap smallDisk silent finish := by
  have computed :
      ((executeChecked (InodeTable.step smallDisk silent)
        (fun state call => decide (InodeTable.Allowed smallDisk state call))
        emptyDisk [.alloc 1, .get 1 7]).map fun state =>
          decide (HasDirectory state) &&
            ((executeChecked (DirectoryMap.step smallDisk silent)
              (fun system call => decide (Allowed smallDisk system call))
              (directoryOf state) threeNames).map fun finish =>
                decide
                  (finish.names [97, 98] = none ∧
                    finish.names [97] = some (6, 16) ∧
                      finish.names [99] = some (8, 0))) == some true) =
        some true := by
    decide +kernel
  rcases Option.map_eq_some_iff.mp computed with ⟨state, executed, facts⟩
  rcases Bool.and_eq_true_iff.mp facts with ⟨here, later⟩
  rcases of_decide_eq_true here with ⟨head, type, size⟩
  rcases Option.map_eq_some_iff.mp (beq_iff_eq.mp later) with
    ⟨finish, calls, expected⟩
  rcases of_decide_eq_true expected with ⟨removed, kept, reused⟩
  have made :
      Run (Takes (InodeTable.step smallDisk silent))
        (InodeTable.Allowed smallDisk) emptyDisk [.alloc 1, .get 1 7]
        state :=
    Run.of_executeChecked (fun _ _ => of_decide_eq_true) executed
  have consistent : Consistent smallDisk state :=
    run_keeps geometry_smallDisk formed_emptyDisk made
  have opened :
      Open smallDisk state.store (state.nodes 7) :=
    Open.of_consistent consistent (by rw [head]; decide) type size
  have run :
      Run (Takes (DirectoryMap.step smallDisk silent)) (Allowed smallDisk)
        (directoryOf state) threeNames finish :=
    Run.of_executeChecked (fun _ _ => of_decide_eq_true) calls
  have empty : (directoryOf state).bytes smallDisk = [] := by
    apply List.eq_nil_of_length_eq_zero
    rw [System.bytes, bytesOf, length_contents]
    exact fileSize_of_empty opened.loaded size
  exact ⟨directoryOf state, finish, run, removed, kept, reused,
    directory_is_map geometry_smallDisk opened empty rfl run⟩

end SmallDisk

end FudanOS.Fs.DirectoryMap
