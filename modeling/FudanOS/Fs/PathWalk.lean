import FudanOS.Fs.ByteArrays
import FudanOS.Fs.DirectoryMap
import FudanOS.Fs.InodeMemory
import Mathlib.Data.List.MinMax
import Mathlib.Data.List.TakeWhile

/-!
# Path resolution

`namex` with the locks of the inodes it walks over, and what it finds: the
fold of the lookups of the elements of the path over the disk as it is when
the walk begins.  The walk takes and gives back references, and it loads
inodes; it frees one only if nothing links to it and nobody holds it.
-/

namespace FudanOS.Fs.PathWalk

open FudanOS.Library.Programs
open FudanOS.Fs.Defines
open FudanOS.Fs.BlockBitmap
open FudanOS.Fs.InodeLayout
open FudanOS.Fs.InodeLayer
open FudanOS.Fs.BlockOwnership
open FudanOS.Fs.FileContents
open FudanOS.Fs.InodeSpecs
open FudanOS.Fs.Directory
open FudanOS.Fs.InodeTable
open FudanOS.Fs.Names
open FudanOS.Fs.InodeRefs
open FudanOS.Fs.InodeMemory
open FudanOS.Fs.DirectoryMap

/-! ## The elements of a path -/

/-- The elements between the slashes which are not empty. -/
def split (path : List UInt8) : List (List UInt8) :=
  (path.splitOn slash).filter (· ≠ [])

theorem split_nil : split [] = [] :=
  rfl

theorem split_slash (path : List UInt8) :
    split (slash :: path) = split path := by
  unfold split
  rw [List.splitOn_cons_eq_if_modifyHead, if_pos (by decide)]
  exact List.filter_cons_of_neg (by decide)

/-- Slashes at the front of a path do not matter. -/
theorem split_dropWhile (path : List UInt8) :
    split (path.dropWhile (· == slash)) = split path := by
  induction path with
  | nil => rfl
  | cons byte path ih =>
      by_cases isSlash : byte = slash
      · rw [isSlash, split_slash, List.dropWhile_cons_of_pos (by decide), ih]
      · rw [List.dropWhile_cons_of_neg]
        rw [beq_iff_eq]
        exact isSlash

/-- An element and what follows it. -/
theorem split_element
    {element rest : List UInt8}
    (nonempty : element ≠ [])
    (noSlash : slash ∉ element)
    (ends_ : rest = [] ∨ rest.head? = some slash) :
    split (element ++ rest) = element :: split rest := by
  have kept :
      ∀ others : List (List UInt8),
        (element :: others).filter (· ≠ []) =
          element :: others.filter (· ≠ []) := by
    intro others
    exact List.filter_cons_of_pos (decide_eq_true nonempty)
  rcases ends_ with rfl | starts
  · unfold split
    rw [List.append_nil, List.splitOn_eq_singleton noSlash, kept]
    rfl
  · cases rest with
    | nil => cases starts
    | cons byte rest =>
        cases starts
        rw [split_slash]
        unfold split
        rw [List.splitOn_append_cons_self_of_not_mem noSlash, kept]

/-- `skipelem` gives the first element. -/
theorem split_of_skipelem (path : List UInt8) :
    match skipelem path with
    | none => split path = []
    | some (rest, element) =>
        split path = element :: split rest ∧ rest.length < path.length := by
  have shorter := List.length_dropWhile_le (· == slash) path
  have starts := split_dropWhile path
  unfold skipelem
  dsimp only
  cases front : path.dropWhile (· == slash) with
  | nil =>
      rw [if_pos rfl]
      dsimp only
      rw [← starts, front]
      rfl
  | cons byte tail =>
      rw [if_neg (List.cons_ne_nil _ _)]
      dsimp only
      have notSlash : (byte != slash) = true := by
        have some_ : path.dropWhile (· == slash) ≠ [] := by
          rw [front]
          exact List.cons_ne_nil _ _
        have head := List.head_dropWhile_not (· == slash) some_
        simp only [front, List.head_cons] at head
        rw [bne, head]
        rfl
      have taken :
          (byte :: tail).takeWhile (· != slash) =
            byte :: tail.takeWhile (· != slash) :=
        List.takeWhile_cons_of_pos notSlash
      have dropped :
          (byte :: tail).dropWhile (· != slash) =
            tail.dropWhile (· != slash) :=
        List.dropWhile_cons_of_pos notSlash
      have whole :
          byte :: tail =
            (byte :: tail).takeWhile (· != slash) ++
              (byte :: tail).dropWhile (· != slash) :=
        List.takeWhile_append_dropWhile.symm
      have noSlash : slash ∉ (byte :: tail).takeWhile (· != slash) := by
        intro member
        have other : (slash != slash) = true :=
          List.mem_takeWhile_imp (p := (· != slash)) member
        exact absurd rfl (bne_iff_ne.mp other)
      have ends_ :
          (byte :: tail).dropWhile (· != slash) = [] ∨
            ((byte :: tail).dropWhile (· != slash)).head? = some slash := by
        cases after : (byte :: tail).dropWhile (· != slash) with
        | nil => exact Or.inl rfl
        | cons next rest =>
            have some_ : (byte :: tail).dropWhile (· != slash) ≠ [] := by
              rw [after]
              exact List.cons_ne_nil _ _
            have head := List.head_dropWhile_not (· != slash) some_
            simp only [after, List.head_cons, bne_eq_false_iff_eq] at head
            exact Or.inr (congrArg some head)
      constructor
      · rw [← starts, front, whole]
        rw [split_element (by rw [taken]; exact List.cons_ne_nil _ _) noSlash
          ends_, split_dropWhile, ← whole]
      · have inner :=
          List.length_dropWhile_le (· == slash)
            ((byte :: tail).dropWhile (· != slash))
        have outer := List.length_dropWhile_le (· != slash) tail
        rw [front, List.length_cons] at shorter
        rw [dropped] at inner ⊢
        omega

theorem elementsFrom_eq
    {path : List UInt8}
    {fuel : Nat}
    (enough : path.length ≤ fuel) :
    elementsFrom fuel path = split path := by
  induction fuel generalizing path with
  | zero =>
      rw [List.eq_nil_of_length_eq_zero (Nat.le_zero.mp enough)]
      rfl
  | succ fuel ih =>
      have skipped := split_of_skipelem path
      unfold elementsFrom
      cases found : skipelem path with
      | none =>
          rw [found] at skipped
          exact skipped.symm
      | some pair =>
          rw [found] at skipped
          dsimp only at skipped ⊢
          rw [skipped.1, ih (by omega)]

theorem elements_eq (path : List UInt8) :
    elements path = split path :=
  elementsFrom_eq le_rfl

/-! ## The walk with its locks -/

/-- The table of inodes, and the inodes which the thread has locked. -/
structure Locking where
  table : InodeTable.State
  locked : List Nat

abbrev LockingProgram (Value : Type) := Program Locking Stop Value

/-- A function which locks no inode. -/
def onTable {Value : Type} (program : TableProgram Value) :
    LockingProgram Value :=
  fun state =>
    match program.run state.table with
    | .ok (value, table) => .ok (value, { state with table := table })
    | .error stop => .error stop

/-- `inode_lock(inode)`; the thread waits for ever for its own lock. -/
def inodeLock (address : Nat) : LockingProgram Unit := do
  onTable (Inodes.assertHeld address)
  if address ∈ (← get).locked then
    throw .deadlock
  else
    modify fun state => { state with locked := address :: state.locked }

/-- `inode_unlock(inode)` -/
def inodeUnlock (address : Nat) : LockingProgram Unit := do
  onTable (Inodes.assertHeld address)
  modify fun state => { state with locked := state.locked.erase address }

section Functions

variable
    (sblock : SuperBlock)
    (env : Env)

/-- The loop of `namex`. -/
def namexFrom (parent : Bool) :
    List (List UInt8) → List UInt8 → Nat →
      LockingProgram (Option (Nat × List UInt8))
  | [], name, ans =>
      if parent then do
        onTable (Inodes.put sblock ans)
        return none
      else
        return some (ans, name)
  | element :: rest, _, ans => do
      let name := elementName env.after element
      inodeLock ans
      if (← onTable (Inodes.entry ans)).type ≠ inodeDirectory then
        inodeUnlock ans
        onTable (Inodes.put sblock ans)
        return none
      else if parent && rest.isEmpty then
        inodeUnlock ans
        return some (ans, name)
      else
        match
          ← onTable
            (Inodes.lookup sblock env (env.walk rest.length) ans name)
        with
        | none => do
            inodeUnlock ans
            onTable (Inodes.put sblock ans)
            return none
        | some (inodeNo, _) => do
            inodeUnlock ans
            onTable (Inodes.put sblock ans)
            let ans ← onTable (Inodes.get sblock env inodeNo)
            namexFrom parent rest name ans

/-- `namex(path, nameiparent, name, ctx)` when `thisproc()->cwd` is `cwd` -/
def namex (cwd : Nat) (path : List UInt8) (parent : Bool) :
    LockingProgram (Option (Nat × List UInt8)) := do
  let ans ←
    if path.head? = some slash then
      onTable (Inodes.get sblock env rootInodeNo)
    else
      onTable (Inodes.share cwd)
  namexFrom sblock env parent (elements path) [] ans

/-- `namei(path, ctx)` -/
def namei (cwd : Nat) (path : List UInt8) :
    LockingProgram (Option Nat) := do
  return (← namex sblock env cwd path false).map Prod.fst

/-- `nameiparent(path, name, ctx)` and `name` -/
def nameiparent (cwd : Nat) (path : List UInt8) :
    LockingProgram (Option (Nat × List UInt8)) :=
  namex sblock env cwd path true

end Functions

/-- The program does what another does without the locks. -/
def Lifts
    {Value : Type}
    (before after : List Nat)
    (program : LockingProgram Value)
    (plain : TableProgram Value) : Prop :=
  ∀ table,
    program.run ⟨table, before⟩ =
      match plain.run table with
      | .ok (value, table) => .ok (value, ⟨table, after⟩)
      | .error stop => .error stop

section Lifts

variable
    {sblock : SuperBlock}
    {env : Env}
    {Value Result : Type}
    {before after : List Nat}

theorem lifts_pure (value : Value) :
    Lifts before before (pure value) (pure value) := by
  intro table
  rfl

theorem lifts_onTable (program : TableProgram Value) :
    Lifts before before (onTable program) program := by
  intro table
  rfl

theorem Lifts.bind
    {middle : List Nat}
    {first : LockingProgram Value}
    {plain : TableProgram Value}
    {next : Value → LockingProgram Result}
    {plainNext : Value → TableProgram Result}
    (lifts : Lifts before middle first plain)
    (rest : ∀ value, Lifts middle after (next value) (plainNext value)) :
    Lifts before after (first >>= next) (plain >>= plainNext) := by
  intro table
  rw [StateT.run_bind, StateT.run_bind, lifts table]
  cases plain.run table with
  | error stop => rfl
  | ok result => exact rest result.1 result.2

theorem lifts_ite
    {condition : Prop}
    [Decidable condition]
    {yes no : LockingProgram Value}
    {plainYes plainNo : TableProgram Value}
    (whenTrue : Lifts before after yes plainYes)
    (whenFalse : Lifts before after no plainNo) :
    Lifts before after (if condition then yes else no)
      (if condition then plainYes else plainNo) := by
  split_ifs
  · exact whenTrue
  · exact whenFalse

theorem lifts_inodeLock (address : Nat) :
    Lifts [] [address] (inodeLock address) (Inodes.lock address) := by
  intro table
  unfold inodeLock
  rw [StateT.run_bind, lifts_onTable (Inodes.assertHeld address) table]
  unfold Inodes.lock
  cases (Inodes.assertHeld address).run table with
  | error stop => rfl
  | ok result => rfl

theorem lifts_inodeUnlock (address : Nat) :
    Lifts [address] [] (inodeUnlock address) (Inodes.unlock address) := by
  intro table
  unfold inodeUnlock
  rw [StateT.run_bind, lifts_onTable (Inodes.assertHeld address) table]
  unfold Inodes.unlock
  cases (Inodes.assertHeld address).run table with
  | error stop => rfl
  | ok result =>
      change Except.ok ((), (⟨result.2, [address].erase address⟩ : Locking)) =
        _
      rw [List.erase_cons_head]

theorem lifts_namexFrom
    (parent : Bool)
    (path : List (List UInt8))
    (name : List UInt8)
    (ans : Nat) :
    Lifts [] [] (namexFrom sblock env parent path name ans)
      (Names.namexFrom sblock env parent path name ans) := by
  induction path generalizing name ans with
  | nil =>
      unfold namexFrom Names.namexFrom
      refine lifts_ite ?_ (lifts_pure _)
      exact (lifts_onTable _).bind fun _ => lifts_pure _
  | cons element rest ih =>
      have gives :
          Lifts [ans] []
            (do
              inodeUnlock ans
              onTable (Inodes.put sblock ans)
              return none)
            (do
              Inodes.unlock ans
              Inodes.put sblock ans
              return (none : Option (Nat × List UInt8))) := by
        refine (lifts_inodeUnlock ans).bind fun _ => ?_
        exact (lifts_onTable _).bind fun _ => lifts_pure _
      unfold namexFrom Names.namexFrom
      refine (lifts_inodeLock ans).bind fun _ => ?_
      refine (lifts_onTable _).bind fun entry => ?_
      refine lifts_ite gives (lifts_ite ?_ ?_)
      · exact (lifts_inodeUnlock ans).bind fun _ => lifts_pure _
      · refine (lifts_onTable _).bind fun found => ?_
        cases found with
        | none => exact gives
        | some pair =>
            refine (lifts_inodeUnlock ans).bind fun _ => ?_
            refine (lifts_onTable _).bind fun _ => ?_
            exact (lifts_onTable _).bind fun next => ih _ next

theorem lifts_namex
    (cwd : Nat)
    (path : List UInt8)
    (parent : Bool) :
    Lifts [] [] (namex sblock env cwd path parent)
      (Names.namex sblock env cwd path parent) := by
  unfold namex Names.namex
  dsimp only
  refine lifts_ite ?_ ?_
  · exact (lifts_onTable _).bind fun ans =>
      lifts_namexFrom parent (elements path) [] ans
  · exact (lifts_onTable _).bind fun ans =>
      lifts_namexFrom parent (elements path) [] ans

/-- What a program does without the locks, it does with them. -/
theorem Lifts.ensures
    {program : LockingProgram Value}
    {plain : TableProgram Value}
    (lifts : Lifts before after program plain)
    {accepts : Stop → Prop}
    {table : InodeTable.State}
    {post : Value → InodeTable.State → Prop}
    (holds : Ensures accepts plain table post) :
    Ensures accepts program ⟨table, before⟩ fun value target =>
      post value target.table ∧ target.locked = after := by
  unfold Ensures at holds ⊢
  rw [lifts table]
  revert holds
  cases plain.run table with
  | error stop => exact id
  | ok result => exact fun holds => ⟨holds, rfl⟩

end Lifts

/-! ## What a walk should find -/

/-- The number under a name in a directory. -/
def lookupIn (disk : View) (inodeNo : Nat) (name : List UInt8) :
    Option Nat :=
  (findName (contents disk inodeNo) name
    (List.range' 0 (fileSize disk inodeNo / direntSize))).map Prod.fst

def IsDirectory (disk : View) (inodeNo : Nat) : Prop :=
  (disk.entry inodeNo).type = inodeDirectory

instance (disk : View) (inodeNo : Nat) :
    Decidable (IsDirectory disk inodeNo) :=
  inferInstanceAs (Decidable (_ = _))

/-- An element of a path is followed. -/
def descend (disk : View) (inodeNo : Nat) (name : List UInt8) :
    Option Nat :=
  if IsDirectory disk inodeNo then lookupIn disk inodeNo name else none

/-- The fold of the lookups over the elements of a path. -/
def resolve (disk : View) (start : Nat) (path : List (List UInt8)) :
    Option Nat :=
  path.foldlM (descend disk) start

/-- The directory which should hold the last element, and that element. -/
def resolveParent (disk : View) (start : Nat) (path : List (List UInt8)) :
    Option (Nat × List UInt8) :=
  match path.getLast? with
  | none => none
  | some last =>
      ((resolve disk start path.dropLast).filter
        fun inodeNo => IsDirectory disk inodeNo).map fun inodeNo =>
          (inodeNo, last)

/-- The loop of `namex` over a disk which does not change. -/
def outcome (disk : View) (parent : Bool) :
    List (List UInt8) → List UInt8 → Nat → Option (Nat × List UInt8)
  | [], name, inodeNo => if parent then none else some (inodeNo, name)
  | element :: rest, _, inodeNo =>
      if ¬ IsDirectory disk inodeNo then
        none
      else if parent && rest.isEmpty then
        some (inodeNo, element)
      else
        (lookupIn disk inodeNo element).bind
          (outcome disk parent rest element)

theorem outcome_false
    (disk : View)
    (path : List (List UInt8))
    (name : List UInt8)
    (inodeNo : Nat) :
    (outcome disk false path name inodeNo).map Prod.fst =
      resolve disk inodeNo path := by
  induction path generalizing name inodeNo with
  | nil => rfl
  | cons element rest ih =>
      unfold outcome resolve
      rw [List.foldlM_cons, Bool.false_and, descend]
      by_cases directory : IsDirectory disk inodeNo
      · rw [if_neg (not_not.mpr directory), if_neg Bool.false_ne_true,
          if_pos directory]
        cases lookupIn disk inodeNo element with
        | none => rfl
        | some next => exact ih element next
      · rw [if_pos directory, if_neg directory]
        rfl

theorem outcome_true
    (disk : View)
    (path : List (List UInt8))
    (name : List UInt8)
    (inodeNo : Nat) :
    outcome disk true path name inodeNo =
      resolveParent disk inodeNo path := by
  induction path generalizing name inodeNo with
  | nil => rfl
  | cons element rest ih =>
      cases rest with
      | nil =>
          unfold outcome resolveParent
          by_cases directory : IsDirectory disk inodeNo
          · rw [if_neg (not_not.mpr directory)]
            simp [resolve, Option.filter, directory]
          · rw [if_pos directory]
            simp [resolve, Option.filter, directory]
      | cons second rest =>
          have last :
              (element :: second :: rest).getLast? =
                (second :: rest).getLast? :=
            List.getLast?_cons_cons
          unfold outcome
          rw [resolveParent, last, List.dropLast_cons_cons, resolve,
            List.foldlM_cons, descend]
          by_cases directory : IsDirectory disk inodeNo
          · rw [if_neg (not_not.mpr directory), if_pos directory]
            cases lookupIn disk inodeNo element with
            | none =>
                cases (second :: rest).getLast? <;> rfl
            | some next => exact ih element next
          · rw [if_pos directory, if_neg directory]
            cases (second :: rest).getLast? <;> rfl

/-! ## States -/

/-- A directory has a live slot with a number. -/
def NamesIn (sblock : SuperBlock) (disk : View) (inodeNo named : Nat) :
    Prop :=
  Allocated sblock disk inodeNo ∧ IsDirectory disk inodeNo ∧
    ∃ index < fileSize disk inodeNo / direntSize,
      Live (slotAt (contents disk inodeNo) index) ∧
        direntInodeNo (slotAt (contents disk inodeNo) index) = named

/-- A reference which is given back does not free the inode. -/
def Kept (disk : View) (held : Nat → Prop) (inodeNo : Nat) : Prop :=
  (disk.entry inodeNo).numLinks ≠ 0 ∨ held inodeNo

/--
The directories of a disk can be read.  `held` are the numbers of the inodes
to which there are references; a directory which is named somewhere has links
or is held.
-/
structure Sound
    (sblock : SuperBlock)
    (disk : View)
    (held : Nat → Prop) : Prop where
  owned : Owned sblock disk
  present :
    ∀ inodeNo, Allocated sblock disk inodeNo → IsDirectory disk inodeNo →
      ∀ index, index * blockSize < fileSize disk inodeNo →
        HasBlock disk inodeNo index
  whole :
    ∀ inodeNo, Allocated sblock disk inodeNo → IsDirectory disk inodeNo →
      direntSize ∣ fileSize disk inodeNo
  named :
    ∀ inodeNo named, NamesIn sblock disk inodeNo named →
      named < sblock.numInodes.toNat ∧
        (IsDirectory disk named → Kept disk held named)
  root : rootInodeNo < sblock.numInodes.toNat
  rootKept : IsDirectory disk rootInodeNo → Kept disk held rootInodeNo

/-- Some inode which a walk may meet is freed when it is given back. -/
def Unkept
    (sblock : SuperBlock)
    (disk : View)
    (held : Nat → Prop) : Prop :=
  ∃ named,
    (named = rootInodeNo ∨ ∃ inodeNo, NamesIn sblock disk inodeNo named) ∧
      ¬ Kept disk held named

/-- The held numbers have references in the table. -/
def Holds
    (held : Nat → Prop)
    (refs : Nat → Nat)
    (state : InodeTable.State) : Prop :=
  ∀ inodeNo, held inodeNo →
    ∃ address ∈ state.head,
      (state.nodes address).inodeNo = inodeNo ∧ 0 < refs address

/-- What holds while a walk goes on, with the references of others. -/
structure Around
    (sblock : SuperBlock)
    (disk : View)
    (held : Nat → Prop)
    (refs : Nat → Nat)
    (state : InodeTable.State) : Prop where
  settled : Settled sblock disk state
  holds : Holds held refs state

section Table

variable
    {sblock : SuperBlock}
    {disk : View}
    {held : Nat → Prop}
    {refs : Nat → Nat}
    {env : Env}
    {state : InodeTable.State}
    {accepts : Stop → Prop}
    {address : Nat}

theorem Around.setRc
    (around : Around sblock disk held refs state)
    (address : Nat)
    (rc : Int) :
    Around sblock disk held refs
      { state with
        nodes :=
          Function.update state.nodes address
            { state.nodes address with rc := rc } } := by
  refine ⟨around.settled.setRc address rc, ?_⟩
  · intro inodeNo isHeld
    rcases around.holds inodeNo isHeld with
      ⟨other, member, number, referenced⟩
    refine ⟨other, member, ?_, referenced⟩
    dsimp only
    rw [setRc_inodeNo]
    exact number

/-- `inode_put` of an inode which stays. -/
theorem ensures_put_kept
    (around : Around sblock disk held refs state)
    (counted : Counted (plus refs address) state)
    (kept : Kept disk held (state.nodes address).inodeNo) :
    Ensures accepts (Inodes.put sblock address) state fun _ target =>
      Around sblock disk held refs target ∧ Counted refs target := by
  have member : address ∈ state.head := by
    apply counted.listed
    rw [plus_self]
    exact Nat.succ_pos _
  have count : (state.nodes address).rc - 1 = refs address := by
    rw [counted.rc address member, plus_self]
    push_cast
    omega
  have stays :
      ¬ ((state.nodes address).rc - 1 = 0 ∧
        (state.nodes address).entry.numLinks = 0) := by
    rintro ⟨last, unlinked⟩
    rcases kept with linked | isHeld
    · rw [(around.settled.listed address member).entry] at unlinked
      exact linked unlinked
    · rcases around.holds _ isHeld with ⟨other, there, number, referenced⟩
      have same :=
        around.settled.unique other there address member number
      rw [count, ← same] at last
      omega
  have put :
      (Inodes.put sblock address).run state =
        .ok ((),
          { state with
            nodes :=
              Function.update state.nodes address
                { state.nodes address with
                  rc := (state.nodes address).rc - 1 } }) := by
    change Inodes.put sblock address state = _
    unfold Inodes.put inodePut
    dsimp only
    rw [if_neg stays]
  have gives :
      Ensures (fun _ => True) (Inodes.put sblock address) state
        fun _ target => Counted refs target :=
    counts_put state counted
  unfold Ensures
  rw [put]
  exact ⟨around.setRc address _, gives.of_run put⟩

/-- `inode_share` of the current directory. -/
theorem ensures_share
    (around : Around sblock disk held refs state)
    (counted : Counted refs state)
    (referenced : 0 < refs address) :
    Ensures accepts (Inodes.share address) state fun result target =>
      Around sblock disk held refs target ∧
        Counted (plus refs result) target ∧
          (target.nodes result).inodeNo = (state.nodes address).inodeNo := by
  refine ⟨around.setRc address _,
    counts_share referenced state counted, ?_⟩
  exact setRc_inodeNo state.nodes address address _

theorem Around.get
    (geometry : Geometry sblock)
    (around : Around sblock disk held refs state)
    {inodeNo : Nat}
    (positive : 0 < inodeNo)
    (below : inodeNo < sblock.numInodes.toNat) :
    ∃ result target,
      (Inodes.get sblock env inodeNo).run state = .ok (result, target) ∧
        Around sblock disk held refs target ∧
          (target.nodes result).inodeNo = inodeNo := by
  have isFresh := env.fresh state.head
  rcases around.settled.exists_get geometry (env.kalloc state.head)
      positive below with ⟨result, target, returned, gets⟩
  refine ⟨result, target, returned, ⟨?_, ?_⟩, gets.number⟩
  · exact around.settled.get isFresh positive below gets
  · intro number isHeld
    rcases around.holds number isHeld with
      ⟨other, member, same, referenced⟩
    have keeps := gets.keeps isFresh member
    exact ⟨other, keeps.1, keeps.2.trans same, referenced⟩

theorem ensures_inodesGet
    (geometry : Geometry sblock)
    (around : Around sblock disk held refs state)
    (counted : Counted refs state)
    {inodeNo : Nat}
    (positive : 0 < inodeNo)
    (below : inodeNo < sblock.numInodes.toNat) :
    Ensures accepts (Inodes.get sblock env inodeNo) state
      fun result target =>
        Around sblock disk held refs target ∧
          Counted (plus refs result) target ∧
            (target.nodes result).inodeNo = inodeNo := by
  have gives :
      Ensures (fun _ => True) (Inodes.get sblock env inodeNo) state
        fun result target => Counted (plus refs result) target :=
    counts_get state counted
  rcases around.get geometry positive below with
    ⟨result, target, returned, after, number⟩
  unfold Ensures
  rw [returned]
  exact ⟨after, gives.of_run returned, number⟩

theorem ensures_assertHeld
    (counted : Counted (plus refs address) state) :
    Ensures accepts (Inodes.assertHeld address) state fun _ target =>
      target = state := by
  have member : address ∈ state.head := by
    apply counted.listed
    rw [plus_self]
    exact Nat.succ_pos _
  have positive : 0 < (state.nodes address).rc := by
    rw [counted.rc address member, plus_self]
    push_cast
    omega
  unfold Inodes.assertHeld
  rw [ensures_bind, ensures_get, if_pos positive, ensures_pure]

end Table

/-! ## Lookups -/

/-- The bytes which the frames of the lookups hold. -/
structure Frames (sblock : SuperBlock) (disk : View) (env : Env) : Prop where
  curr : ∀ depth, (env.walk depth).curr.length = direntSize
  /-- A name ends in its array, or with a zero on the stack behind it. -/
  ends_ :
    ∀ depth inodeNo, Allocated sblock disk inodeNo →
      IsDirectory disk inodeNo →
        ∀ index < fileSize disk inodeNo / direntSize,
          Live (slotAt (contents disk inodeNo) index) →
            0 ∈ direntName (slotAt (contents disk inodeNo) index) ++
              (env.walk depth).after

section Lookup

variable
    {sblock : SuperBlock}
    {disk : View}
    {held : Nat → Prop}
    {refs : Nat → Nat}
    {env : Env}
    {state : InodeTable.State}
    {accepts : Stop → Prop}
    {address : Nat}

theorem ensures_lookup
    (geometry : Geometry sblock)
    (sound : Sound sblock disk held)
    (frames : Frames sblock disk env)
    (settled : Settled sblock disk state)
    (member : address ∈ state.head)
    (directory : IsDirectory disk (state.nodes address).inodeNo)
    {name : List UInt8}
    (good : GoodName name)
    (depth : Nat) :
    Ensures accepts
      (Inodes.lookup sblock env (env.walk depth) address name) state
      fun result target =>
        target = state ∧
          result.map Prod.fst =
              lookupIn disk (state.nodes address).inodeNo name ∧
            ∀ hit, result = some hit →
              NamesIn sblock disk (state.nodes address).inodeNo hit.1 := by
  have mirrors := settled.listed address member
  have isType : (state.nodes address).entry.type = inodeDirectory := by
    rw [mirrors.entry]
    exact directory
  have allocated :
      Allocated sblock disk (state.nodes address).inodeNo := by
    refine ⟨mirrors.positive, mirrors.below, ?_⟩
    rw [show (disk.entry (state.nodes address).inodeNo).type =
      inodeDirectory from directory]
    decide
  have isView : view sblock state.store.blocks = disk := settled.view
  have opened : Open sblock state.store (state.nodes address) := by
    refine ⟨?_, ?_, ?_, ?_, isType⟩
    · intro block isHeld
      rw [settled.free] at isHeld
      cases isHeld
    · rw [isView]
      exact sound.owned
    · rw [isView]
      exact ⟨mirrors.valid, mirrors.entry, allocated⟩
    · rw [isView]
      exact sound.present _ allocated directory
  have bytes :
      bytesOf sblock state.store (state.nodes address) =
        contents disk (state.nodes address).inodeNo := by
    unfold bytesOf
    rw [isView]
  have length :
      (bytesOf sblock state.store (state.nodes address)).length =
        direntSize *
          (fileSize disk (state.nodes address).inodeNo / direntSize) := by
    rw [bytes, length_contents]
    exact (Nat.mul_div_cancel' (sound.whole _ allocated directory)).symm
  have looked :
      Ensures (fun _ => False)
        (inodeLookup sblock env.console (env.walk depth)
          (state.nodes address) name) state.store
        fun result target =>
          target = state.store ∧
            result =
              findName (contents disk (state.nodes address).inodeNo) name
                (List.range' 0
                  (fileSize disk (state.nodes address).inodeNo /
                    direntSize)) := by
    rw [← bytes]
    refine ensures_inodeLookup geometry opened length ?_ (frames.curr depth)
    intro index below live
    refine sameName_of_length good (length_slotAt length below) ?_
    rw [bytes] at live ⊢
    exact frames.ends_ depth _ allocated directory index below live
  rcases looked.returns with ⟨result, store, returned, same, found⟩
  have run :
      (Inodes.lookup sblock env (env.walk depth) address name).run state =
        .ok (result, state) := by
    change Inodes.lookup sblock env (env.walk depth) address name state = _
    unfold Inodes.lookup Inodes.reads Inodes.onStore
    rw [returned, same]
  unfold Ensures
  rw [run]
  refine ⟨rfl, ?_, ?_⟩
  · rw [found]
    rfl
  · intro hit isHit
    have finds :=
      @foundFrom_findName
        (fileSize disk (state.nodes address).inodeNo / direntSize)
        (contents disk (state.nodes address).inodeNo) name 0 _
        (Nat.zero_add _)
    rw [← found, isHit] at finds
    rcases finds with ⟨index, inside, _, has, number⟩
    exact ⟨allocated, directory, index, inside, has.1, number.symm⟩

end Lookup

/-! ## The walk -/

section Walk

variable
    {sblock : SuperBlock}
    {disk : View}
    {held : Nat → Prop}
    {refs : Nat → Nat}
    {env : Env}
    {state : InodeTable.State}

/-- What the result of a walk says about the disk. -/
def numbered (state : InodeTable.State) :
    Option (Nat × List UInt8) → Option (Nat × List UInt8) :=
  Option.map fun found => ((state.nodes found.1).inodeNo, found.2)

/-- The last reference of the walk is given back, and nothing is found. -/
theorem ensures_giveBack
    {ans : Nat}
    (around : Around sblock disk held refs state)
    (counted : Counted (plus refs ans) state)
    (meets :
      Kept disk held (state.nodes ans).inodeNo ∨ Unkept sblock disk held)
    {expected : Option (Nat × List UInt8)}
    (nothing : expected = none) :
    Ensures (fun _ => Unkept sblock disk held)
      (do
        Inodes.put sblock ans
        return (none : Option (Nat × List UInt8))) state
      fun result target =>
        Counted (plusFound refs result) target ∧
          numbered target result = expected := by
  rw [ensures_bind]
  rcases meets with kept | unkept
  · refine (ensures_put_kept around counted kept).mono ?_
    rintro _ target ⟨_, lowered⟩
    exact ⟨lowered, nothing.symm⟩
  · have gives :
        Ensures (fun _ => True) (Inodes.put sblock ans) state
          fun _ target => Counted refs target :=
      counts_put state counted
    refine Ensures.mono (gives.accepting fun _ _ => unkept) ?_
    intro _ target lowered
    exact ⟨lowered, nothing.symm⟩

/-- The number which a directory names can be walked to. -/
theorem Sound.meets
    (sound : Sound sblock disk held)
    {inodeNo named : Nat}
    (names : NamesIn sblock disk inodeNo named) :
    (IsDirectory disk named → Kept disk held named) ∧
      (Kept disk held named ∨ Unkept sblock disk held) := by
  refine ⟨(sound.named inodeNo named names).2, ?_⟩
  by_cases kept : Kept disk held named
  · exact Or.inl kept
  · exact Or.inr ⟨named, Or.inr ⟨inodeNo, names⟩, kept⟩

theorem NamesIn.positive
    {inodeNo named : Nat}
    (names : NamesIn sblock disk inodeNo named) :
    0 < named := by
  rcases names with ⟨_, _, index, _, live, rfl⟩
  exact Nat.pos_of_ne_zero live

theorem elementName_of_good
    {after element : List UInt8}
    (good : GoodName element) :
    elementName after element = element := by
  unfold elementName
  rw [if_neg (Nat.not_le.mpr good.short)]

/-- The loop of `namex` finds what it would find on the disk alone. -/
theorem ensures_namexFrom
    (geometry : Geometry sblock)
    (sound : Sound sblock disk held)
    (frames : Frames sblock disk env)
    {parent : Bool}
    {path : List (List UInt8)}
    (good : ∀ element ∈ path, GoodName element)
    {name : List UInt8}
    {ans : Nat}
    (around : Around sblock disk held refs state)
    (counted : Counted (plus refs ans) state)
    (keeps :
      IsDirectory disk (state.nodes ans).inodeNo →
        Kept disk held (state.nodes ans).inodeNo)
    (meets :
      Kept disk held (state.nodes ans).inodeNo ∨
        Unkept sblock disk held) :
    Ensures (fun _ => Unkept sblock disk held)
      (Names.namexFrom sblock env parent path name ans) state
      fun result target =>
        Counted (plusFound refs result) target ∧
          numbered target result =
            outcome disk parent path name (state.nodes ans).inodeNo := by
  induction path generalizing name ans state with
  | nil =>
      unfold Names.namexFrom outcome
      cases parent with
      | true =>
          exact ensures_giveBack around counted meets rfl
      | false =>
          rw [if_neg Bool.false_ne_true, if_neg Bool.false_ne_true,
            ensures_pure]
          exact ⟨counted, rfl⟩
  | cons element rest ih =>
      have member : ans ∈ state.head := by
        apply counted.listed
        rw [plus_self]
        exact Nat.succ_pos _
      have isGood := good element List.mem_cons_self
      have entry := (around.settled.listed ans member).entry
      have isType :
          (state.nodes ans).entry.type = inodeDirectory ↔
            IsDirectory disk (state.nodes ans).inodeNo := by
        rw [entry]
        rfl
      have unlocks :
          ∀ {Value : Type} (next : TableProgram Value) post,
            Ensures (fun _ => Unkept sblock disk held) next state post →
              Ensures (fun _ => Unkept sblock disk held)
                (do
                  Inodes.unlock ans
                  next) state post := by
        intro Value next post ensures
        rw [ensures_bind]
        refine (ensures_assertHeld counted).mono ?_
        intro _ target same
        rw [same]
        exact ensures
      unfold Names.namexFrom outcome
      rw [ensures_bind]
      refine (ensures_assertHeld counted).mono ?_
      intro _ target same
      rw [same, ensures_bind]
      change Ensures _ (if (state.nodes ans).entry.type ≠ _ then _ else _) _ _
      rw [elementName_of_good isGood]
      by_cases directory : IsDirectory disk (state.nodes ans).inodeNo
      · rw [if_neg (not_not.mpr (isType.mpr directory)),
          if_neg (not_not.mpr directory)]
        by_cases last : (parent && rest.isEmpty) = true
        · rw [if_pos last, if_pos last]
          apply unlocks
          rw [ensures_pure]
          exact ⟨counted, rfl⟩
        · rw [if_neg last, if_neg last, ensures_bind]
          refine (ensures_lookup geometry sound frames around.settled member
            directory isGood rest.length).mono ?_
          rintro found target ⟨same, isFound, names⟩
          rw [same, ← isFound]
          cases found with
          | none =>
              apply unlocks
              exact ensures_giveBack around counted meets rfl
          | some hit =>
              have named := names hit rfl
              apply unlocks
              rw [ensures_bind]
              refine (ensures_put_kept around counted (keeps directory)).mono
                ?_
              rintro _ middle ⟨after, lowered⟩
              rw [ensures_bind]
              refine (ensures_inodesGet geometry after lowered
                named.positive (sound.named _ _ named).1).mono ?_
              rintro next target ⟨later, raised, number⟩
              rw [Option.map_some, Option.bind_some, ← number]
              refine ih (fun other inside =>
                good other (List.mem_cons_of_mem _ inside)) later raised ?_ ?_
              · rw [number]
                exact (sound.meets named).1
              · rw [number]
                exact (sound.meets named).2
      · rw [if_pos fun isDir => directory (isType.mp isDir),
          if_pos directory]
        apply unlocks
        exact ensures_giveBack around counted meets rfl

end Walk

/-! ## `namei` and `nameiparent` -/

/-- The numbers of the inodes to which there are references. -/
def heldIn (refs : Nat → Nat) (state : InodeTable.State) (inodeNo : Nat) :
    Prop :=
  ∃ address ∈ state.head,
    (state.nodes address).inodeNo = inodeNo ∧ 0 < refs address

/-- A file system in which a process may resolve paths. -/
structure Ready
    (sblock : SuperBlock)
    (env : Env)
    (refs : Nat → Nat)
    (state : InodeTable.State)
    (cwd : Nat) : Prop where
  geometry : Geometry sblock
  settled : Settled sblock (state.view sblock) state
  counted : Counted refs state
  sound : Sound sblock (state.view sblock) (heldIn refs state)
  frames : Frames sblock (state.view sblock) env
  cwd : 0 < refs cwd

/-- The number of the inode where a path starts. -/
def startOf (state : InodeTable.State) (cwd : Nat) (path : List UInt8) :
    Nat :=
  if path.head? = some slash then
    rootInodeNo
  else
    (state.nodes cwd).inodeNo

/-- The elements of a path have fewer characters than the array. -/
structure GoodPath (path : List UInt8) : Prop where
  noNul : 0 ∉ path
  short : ∀ element ∈ split path, element.length < fileNameMaxLength

theorem mem_of_mem_splitOn
    {path element : List UInt8}
    (member : element ∈ path.splitOn slash)
    {byte : UInt8}
    (inside : byte ∈ element) :
    byte ∈ path := by
  induction path generalizing element with
  | nil =>
      rw [List.splitOn_nil, List.mem_singleton] at member
      rw [member] at inside
      cases inside
  | cons first path ih =>
      rw [List.splitOn_cons_eq_if_modifyHead] at member
      split_ifs at member
      · rcases List.mem_cons.mp member with rfl | later
        · cases inside
        · exact List.mem_cons_of_mem _ (ih later inside)
      · cases parts : path.splitOn slash with
        | nil => exact absurd parts (List.splitOn_ne_nil slash path)
        | cons head tail =>
            rw [parts] at member ih
            rcases List.mem_cons.mp member with rfl | later
            · rcases List.mem_cons.mp inside with rfl | rest
              · exact List.mem_cons_self
              · exact List.mem_cons_of_mem _ (ih List.mem_cons_self rest)
            · exact List.mem_cons_of_mem _
                (ih (List.mem_cons_of_mem _ later) inside)

theorem GoodPath.good
    {path : List UInt8}
    (goodPath : GoodPath path) :
    ∀ element ∈ split path, GoodName element := by
  intro element member
  have parts := List.mem_filter.mp member
  refine ⟨of_decide_eq_true parts.2, goodPath.short element member, ?_⟩
  intro inside
  exact goodPath.noNul (mem_of_mem_splitOn parts.1 inside)

section Resolution

variable
    {sblock : SuperBlock}
    {env : Env}
    {refs : Nat → Nat}
    {state : InodeTable.State}
    {cwd : Nat}
    {path : List UInt8}

/-- `namex` finds what the path leads to on the disk. -/
theorem Ready.ensures_namex
    (ready : Ready sblock env refs state cwd)
    (goodPath : GoodPath path)
    (parent : Bool) :
    Ensures
      (fun _ => Unkept sblock (state.view sblock) (heldIn refs state))
      (Names.namex sblock env cwd path parent) state
      fun result target =>
        Counted (plusFound refs result) target ∧
          numbered target result =
            outcome (state.view sblock) parent (split path) []
              (startOf state cwd path) := by
  have around :
      Around sblock (state.view sblock) (heldIn refs state) refs state :=
    ⟨ready.settled, fun _ => id⟩
  have sound := ready.sound
  unfold Names.namex startOf
  dsimp only
  rw [elements_eq]
  by_cases absolute : path.head? = some slash
  · rw [if_pos absolute, if_pos absolute, ensures_bind]
    have positive : 0 < rootInodeNo := Nat.one_pos
    refine (ensures_inodesGet ready.geometry around ready.counted positive
      sound.root).mono ?_
    rintro ans target ⟨after, raised, number⟩
    rw [← number]
    refine ensures_namexFrom ready.geometry sound ready.frames goodPath.good
      after raised ?_ ?_
    · rw [number]
      exact sound.rootKept
    · rw [number]
      by_cases kept : Kept (state.view sblock) (heldIn refs state) rootInodeNo
      · exact Or.inl kept
      · exact Or.inr ⟨rootInodeNo, Or.inl rfl, kept⟩
  · rw [if_neg absolute, if_neg absolute, ensures_bind]
    have kept :
        Kept (state.view sblock) (heldIn refs state)
          (state.nodes cwd).inodeNo :=
      Or.inr ⟨cwd, ready.counted.listed cwd ready.cwd, rfl, ready.cwd⟩
    refine (ensures_share around ready.counted ready.cwd).mono ?_
    rintro ans target ⟨after, raised, number⟩
    rw [← number]
    refine ensures_namexFrom ready.geometry sound ready.frames goodPath.good
      after raised ?_ ?_
    · rw [number]
      exact fun _ => kept
    · rw [number]
      exact Or.inl kept

/--
`namei` returns the inode to which the fold of the lookups leads, and
`nameiparent` the directory to which the elements but the last lead.  Either
adds one reference to what it returns, and leaves no lock.
-/
theorem paths_resolve
    (ready : Ready sblock env refs state cwd)
    (goodPath : GoodPath path) :
    Ensures
        (fun _ => Unkept sblock (state.view sblock) (heldIn refs state))
        (namei sblock env cwd path) ⟨state, []⟩
        (fun result target =>
          result.map (fun address => (target.table.nodes address).inodeNo) =
              resolve (state.view sblock) (startOf state cwd path)
                (split path) ∧
            Counted (plusOption refs result) target.table ∧
              target.locked = []) ∧
      Ensures
        (fun _ => Unkept sblock (state.view sblock) (heldIn refs state))
        (nameiparent sblock env cwd path) ⟨state, []⟩
        (fun result target =>
          numbered target.table result =
              resolveParent (state.view sblock) (startOf state cwd path)
                (split path) ∧
            Counted (plusFound refs result) target.table ∧
              target.locked = []) := by
  constructor
  · unfold namei
    rw [ensures_bind]
    refine Ensures.mono
      ((lifts_namex cwd path false).ensures
        (ready.ensures_namex goodPath false)) ?_
    rintro result target ⟨⟨counted, found⟩, unlocked⟩
    rw [ensures_pure]
    refine ⟨?_, ?_, unlocked⟩
    · rw [← outcome_false _ _ [], ← found]
      cases result <;> rfl
    · cases result <;> exact counted
  · refine Ensures.mono
      ((lifts_namex cwd path true).ensures
        (ready.ensures_namex goodPath true)) ?_
    rintro result target ⟨⟨counted, found⟩, unlocked⟩
    refine ⟨?_, counted, unlocked⟩
    rw [found, outcome_true]

end Resolution

/-! ## A directory with one file -/

section SmallDisk

open FudanOS.Library.Runs
open FudanOS.Fs.InodeRuns
open FudanOS.Fs.ByteArrays

/-- `kalloc` returns the first address above those in use. -/
def walkEnv : Env where
  kalloc := fun used => used.foldr max 0 + 1
  fresh := by
    intro used member
    have below := List.le_max_of_le' 0 member le_rfl
    exact absurd below (Nat.not_succ_le_self _)
  console := silent
  walk := fun _ => garbage
  frame := fun _ => garbage
  after := []
  logged := []

/-- The root at the address 7 gets a regular file `f` with the number 2. -/
def rootWithFile : List InodeTable.Call :=
  [.alloc 1, .alloc 2, .get 1 7, .setLinks 7 1, .insert 7 garbage [102] 2]

/-- One reference to the inode at the address 7. -/
def oneRef : Nat → Nat :=
  fun address => if address = 7 then 1 else 0

/-- What is computed of the disk with one file. -/
def OneFile (state : InodeTable.State) : Prop :=
  state.head = [7] ∧ (state.nodes 7).rc = 1 ∧ (state.nodes 7).inodeNo = 1 ∧
    ((state.view smallDisk).entry 1).numLinks = 1 ∧
      ∀ inodeNo < 3, IsDirectory (state.view smallDisk) inodeNo →
        direntSize ∣ fileSize (state.view smallDisk) inodeNo ∧
          ∀ index < fileSize (state.view smallDisk) inodeNo / direntSize,
            direntInodeNo
                (slotAt (contents (state.view smallDisk) inodeNo) index) =
              2

instance (state : InodeTable.State) : Decidable (OneFile state) :=
  inferInstanceAs (Decidable (_ ∧ _ ∧ _ ∧ _ ∧ _))

theorem ready_of_oneFile
    {state : InodeTable.State}
    (formed : WellFormed smallDisk state)
    (oneFile : OneFile state)
    (regular : ¬ IsDirectory (state.view smallDisk) 2) :
    Ready smallDisk walkEnv oneRef state 7 := by
  rcases oneFile with ⟨head, rc, number, links, directories⟩
  have consistent := formed.consistent
  have small :
      ∀ inodeNo, Allocated smallDisk (state.view smallDisk) inodeNo →
        inodeNo < 3 := by
    intro inodeNo allocated
    exact allocated.2.1
  refine ⟨geometry_smallDisk, ?_, ?_, ?_, ?_, by decide⟩
  · refine ⟨consistent.free, rfl, ?_, consistent.unique⟩
    intro address member
    have loaded := consistent.loaded address member
    exact ⟨loaded.valid, loaded.entry, loaded.allocated.1,
      loaded.allocated.2.1⟩
  · refine ⟨?_, ?_⟩
    · rw [head]
      intro address member
      rw [List.mem_singleton.mp member]
      exact rc
    · rw [head]
      intro address positive
      unfold oneRef at positive
      split_ifs at positive with same
      · exact List.mem_singleton.mpr same
      · exact absurd positive (Nat.lt_irrefl 0)
  · refine ⟨consistent.owned, ?_, ?_, ?_, by decide, ?_⟩
    · intro inodeNo allocated _
      exact formed.complete inodeNo allocated
    · intro inodeNo allocated directory
      exact (directories inodeNo (small inodeNo allocated) directory).1
    · rintro inodeNo named ⟨allocated, directory, index, below, _, isNamed⟩
      have two :=
        (directories inodeNo (small inodeNo allocated) directory).2 index
          below
      rw [← isNamed, two]
      exact ⟨by decide, fun isDirectory => absurd isDirectory regular⟩
    · intro _
      refine Or.inl ?_
      change ((state.view smallDisk).entry 1).numLinks ≠ 0
      rw [links]
      decide
  · refine ⟨fun _ => rfl, ?_⟩
    intro depth inodeNo _ _ index _ _
    refine List.mem_append_right _ ?_
    change 0 ∈ garbage.after
    decide

/-- `f/x` -/
abbrev belowFile : List UInt8 := [102, 47, 120]

/-- The call returned `NULL`. -/
def returnsNull :
    Except Stop (Option (Nat × List UInt8) × Locking) → Bool
  | .ok (none, _) => true
  | _ => false

/-- The parent of `f/x` would be a regular file. -/
def ParentIsFile (state : InodeTable.State) : Prop :=
  OneFile state ∧ ¬ IsDirectory (state.view smallDisk) 2 ∧
    resolve (state.view smallDisk) 1 [[102]] = some 2 ∧
      returnsNull
        ((nameiparent smallDisk walkEnv 7 belowFile).run ⟨state, []⟩) = true

instance (state : InodeTable.State) : Decidable (ParentIsFile state) :=
  inferInstanceAs (Decidable (_ ∧ _ ∧ _ ∧ _))

theorem exists_parentIsFile :
    ∃ state,
      Ready smallDisk walkEnv oneRef state 7 ∧ ParentIsFile state ∧
        startOf state 7 belowFile = 1 := by
  have computed :
      ((executeChecked (InodeTable.step smallDisk silent)
        (fun state call => decide (InodeTable.Allowed smallDisk state call))
        emptyDisk rootWithFile).map fun state =>
          decide (ParentIsFile state)) = some true := by
    decide +kernel
  rcases Option.map_eq_some_iff.mp computed with ⟨state, executed, facts⟩
  have run :
      Run (Takes (InodeTable.step smallDisk silent))
        (InodeTable.Allowed smallDisk) emptyDisk rootWithFile state :=
    Run.of_executeChecked (fun _ _ => of_decide_eq_true) executed
  have isFile := of_decide_eq_true facts
  have formed : WellFormed smallDisk state := by
    refine run.invariant wellFormed_emptyDisk ?_
    intro source call target formed allowed taken
    exact formed.step geometry_smallDisk allowed taken
  refine ⟨state, ready_of_oneFile formed isFile.1 isFile.2.1, isFile, ?_⟩
  exact isFile.1.2.2.1

theorem goodPath_belowFile : GoodPath belowFile := by
  constructor <;> decide

theorem paths_resolve_below_file :
    ∃ state,
      Ready smallDisk walkEnv oneRef state 7 ∧
        Ensures
          (fun _ =>
            Unkept smallDisk (state.view smallDisk) (heldIn oneRef state))
          (nameiparent smallDisk walkEnv 7 belowFile) ⟨state, []⟩
          (fun result target =>
            numbered target.table result =
                resolveParent (state.view smallDisk)
                  (startOf state 7 belowFile) (split belowFile) ∧
              Counted (plusFound oneRef result) target.table ∧
                target.locked = []) := by
  rcases exists_parentIsFile with ⟨state, ready, _⟩
  exact ⟨state, ready, (paths_resolve ready goodPath_belowFile).2⟩

/--
The elements of `f/x` but the last lead to the regular file `f`, for which
`nameiparent` returns `NULL`.
-/
theorem parent_is_not_directory :
    ¬ ∀ sblock env refs state cwd path,
        Ready sblock env refs state cwd → GoodPath path →
          ∀ last, (split path).getLast? = some last →
            Ensures
              (fun _ =>
                Unkept sblock (state.view sblock) (heldIn refs state))
              (nameiparent sblock env cwd path) ⟨state, []⟩
              fun result target =>
                numbered target.table result =
                  (resolve (state.view sblock) (startOf state cwd path)
                    (split path).dropLast).map fun inodeNo =>
                      (inodeNo, last) := by
  intro claimed
  rcases exists_parentIsFile with ⟨state, ready, isFile, start⟩
  have found :=
    claimed smallDisk walkEnv oneRef state 7 belowFile ready
      goodPath_belowFile [120] (by decide)
  have elements : (split belowFile).dropLast = [[102]] := by decide
  rw [start, elements, isFile.2.2.1] at found
  have null := isFile.2.2.2
  unfold Ensures at found
  cases returned :
      (nameiparent smallDisk walkEnv 7 belowFile).run ⟨state, []⟩ with
  | error stop =>
      rw [returned] at null
      cases null
  | ok result =>
      rcases result with ⟨result, target⟩
      rw [returned] at null found
      cases result with
      | none => cases found
      | some hit => cases null

end SmallDisk

end FudanOS.Fs.PathWalk
