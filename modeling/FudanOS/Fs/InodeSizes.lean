import FudanOS.Fs.InodeRefs

/-!
# Sizes of the inodes which others hold

An inode to which somebody else has a reference keeps its type, and does not
shrink, whatever a function of the inode layer does: only `inode_put` of the
last reference clears an inode.
-/

namespace FudanOS.Fs.InodeSizes

open FudanOS.Library.Programs
open FudanOS.Fs.Defines
open FudanOS.Fs.BlockBitmap
open FudanOS.Fs.InodeLayout
open FudanOS.Fs.InodeLayer
open FudanOS.Fs.Directory
open FudanOS.Fs.InodeTable
open FudanOS.Fs.Names
open FudanOS.Fs.InodeRefs

/-! ## Functions which do not shrink an inode -/

/-- The inode is read from the disk, has a type, and some bytes or more. -/
structure AtLeast (type : UInt16) (size : Nat) (inode : Inode) : Prop where
  valid : inode.valid = true
  type : inode.entry.type = type
  size : size ≤ inode.entry.numBytes.toNat

/-- Every run of a program which returns ends with such an inode. -/
def EndsAtLeast
    {Value : Type}
    (type : UInt16)
    (size : Nat)
    (program : Program Store Stop Value)
    (of : Value → Inode) : Prop :=
  ∀ store,
    Ensures (fun _ => True) program store fun value _ =>
      AtLeast type size (of value)

section Grows

variable
    {sblock : SuperBlock}
    {console : ConsoleRead}
    {Value Result : Type}
    {type : UInt16}
    {size : Nat}
    {inode : Inode}
    {of : Result → Inode}

theorem endsAtLeast_pure
    {value : Result}
    (atLeast : AtLeast type size (of value)) :
    EndsAtLeast type size (pure value) of := by
  intro store
  exact ensures_pure.mpr atLeast

theorem endsAtLeast_throw
    {stop : Stop} :
    EndsAtLeast type size (throw stop : Program Store Stop Result) of := by
  intro store
  exact ensures_throw.mpr trivial

/-- What comes first does not have the inode. -/
theorem endsAtLeast_after
    {program : Program Store Stop Value}
    {next : Value → Program Store Stop Result}
    (rest : ∀ value, EndsAtLeast type size (next value) of) :
    EndsAtLeast type size (program >>= next) of := by
  intro store
  rw [ensures_bind]
  exact ensures_true.mono fun value target _ => rest value target

/-- What comes first hands the inode on. -/
theorem EndsAtLeast.bind
    {program : Program Store Stop Value}
    {through : Value → Inode}
    {next : Value → Program Store Stop Result}
    (first : EndsAtLeast type size program through)
    (rest :
      ∀ value, AtLeast type size (through value) →
        EndsAtLeast type size (next value) of) :
    EndsAtLeast type size (program >>= next) of := by
  intro store
  rw [ensures_bind]
  exact (first store).mono fun value middle atLeast =>
    rest value atLeast middle

theorem endsAtLeast_ite
    {condition : Prop}
    [Decidable condition]
    {yes no : Program Store Stop Result}
    (whenTrue : condition → EndsAtLeast type size yes of)
    (whenFalse : ¬ condition → EndsAtLeast type size no of) :
    EndsAtLeast type size (if condition then yes else no) of := by
  split_ifs with holds
  · exact whenTrue holds
  · exact whenFalse holds

/-- After `inode_sync` the entry is in memory. -/
theorem valid_inodeSync
    (sblock : SuperBlock)
    (inode : Inode)
    (doWrite : Bool)
    (store : Store) :
    Ensures (fun _ => True) (inodeSync sblock inode doWrite) store
      fun result _ => result.valid = true := by
  unfold inodeSync
  refine ensures_ite (fun writes => ?_) fun _ => ensures_ite ?_ ?_
  · simp only [ensures_bind, ensures_pure]
    refine ensures_true.mono fun _ _ _ => ensures_true.mono fun _ _ _ => ?_
    refine ensures_true.mono fun _ _ _ => ensures_true.mono fun _ _ _ => ?_
    exact (Bool.and_eq_true_iff.mp writes).1
  · intro _
    simp only [ensures_bind, ensures_pure]
    exact ensures_true.mono fun _ _ _ => ensures_true
  · intro valid
    simpa using valid

theorem endsAtLeast_inodeSync
    {doWrite : Bool}
    (atLeast : AtLeast type size inode) :
    EndsAtLeast type size (inodeSync sblock inode doWrite) id := by
  unfold inodeSync
  refine endsAtLeast_ite (fun _ => ?_) fun _ => endsAtLeast_ite ?_ ?_
  · refine endsAtLeast_after fun _ => endsAtLeast_after fun _ => ?_
    refine endsAtLeast_after fun _ => endsAtLeast_after fun _ => ?_
    exact endsAtLeast_pure atLeast
  · intro invalid
    rw [atLeast.valid] at invalid
    exact absurd invalid (by decide)
  · exact fun _ => endsAtLeast_pure atLeast

theorem endsAtLeast_mapThrough
    {ctx : Bool}
    {index : Nat}
    (atLeast : AtLeast type size inode) :
    EndsAtLeast type size (mapThrough sblock ctx inode index)
      Mapped.inode := by
  unfold mapThrough
  refine endsAtLeast_after fun data => ?_
  refine endsAtLeast_ite (fun _ => endsAtLeast_throw) fun _ => ?_
  refine endsAtLeast_ite (fun _ => endsAtLeast_ite ?_ ?_) ?_
  · intro _
    refine endsAtLeast_after fun _ => endsAtLeast_after fun _ => ?_
    refine endsAtLeast_after fun _ => endsAtLeast_after fun _ => ?_
    exact endsAtLeast_pure atLeast
  · intro _
    exact endsAtLeast_after fun _ => endsAtLeast_pure atLeast
  · intro _
    exact endsAtLeast_after fun _ => endsAtLeast_pure atLeast

theorem endsAtLeast_inodeMap
    {ctx : Bool}
    {offset : Nat}
    (atLeast : AtLeast type size inode) :
    EndsAtLeast type size (inodeMap sblock ctx inode offset)
      Mapped.inode := by
  unfold inodeMap
  split_ifs with direct
  · unfold mapDirect
    refine endsAtLeast_ite (fun _ => endsAtLeast_ite ?_ ?_) ?_
    · intro _
      refine endsAtLeast_after fun blockNo => ?_
      have changed :
          AtLeast type size
            (inode.setAddr ⟨offset, direct⟩ (UInt32.ofNat blockNo)) :=
        ⟨atLeast.valid, atLeast.type, atLeast.size⟩
      exact (endsAtLeast_inodeSync changed).bind fun _ synced =>
        endsAtLeast_pure synced
    · exact fun _ => endsAtLeast_pure atLeast
    · exact fun _ => endsAtLeast_pure atLeast
  · refine endsAtLeast_after fun blockNo => ?_
    have changed :
        AtLeast type size (inode.setIndirect (UInt32.ofNat blockNo)) :=
      ⟨atLeast.valid, atLeast.type, atLeast.size⟩
    exact (endsAtLeast_inodeSync changed).bind fun _ synced =>
      endsAtLeast_mapThrough synced
  · exact endsAtLeast_pure atLeast
  · exact endsAtLeast_mapThrough atLeast

theorem endsAtLeast_writeLoop
    {finish fuel position : Nat}
    {src : List UInt8}
    (atLeast : AtLeast type size inode) :
    EndsAtLeast type size
      (writeLoop sblock finish fuel inode src position) id := by
  induction fuel generalizing inode src position with
  | zero => exact endsAtLeast_pure atLeast
  | succ fuel ih =>
      unfold writeLoop
      refine endsAtLeast_ite (fun _ => ?_) fun _ => endsAtLeast_pure atLeast
      refine (endsAtLeast_inodeMap atLeast).bind fun mapped grown => ?_
      refine endsAtLeast_after fun _ => endsAtLeast_after fun _ => ?_
      exact endsAtLeast_after fun _ => endsAtLeast_after fun _ => ih grown

/-- `inode_write` stores the end of the write, if it lies behind the file. -/
theorem endsAtLeast_inodeWrite
    {src : List UInt8}
    {offset : Nat}
    (atLeast : AtLeast type size inode) :
    EndsAtLeast type size (inodeWrite sblock inode src offset)
      Prod.fst := by
  have rest :
      ∀ sized : Inode, AtLeast type size sized →
        EndsAtLeast type size
          (do
            let inode ←
              writeLoop sblock ((offset + src.length) % usizeModulus)
                ((offset + src.length) % usizeModulus - offset) sized src
                offset
            return (inode, src.length)) Prod.fst := by
    intro sized grown
    exact (endsAtLeast_writeLoop grown).bind fun _ written =>
      endsAtLeast_pure written
  unfold inodeWrite
  refine endsAtLeast_ite (fun _ => endsAtLeast_pure atLeast) fun _ => ?_
  refine endsAtLeast_after fun _ => ?_
  intro store
  rw [ensures_bind]
  unfold InodeLayer.assert
  refine ensures_ite ?_ fun _ => trivial
  intro bounded
  have fits := of_decide_eq_true bounded
  rw [ensures_pure]
  revert store
  refine endsAtLeast_after fun _ => endsAtLeast_ite ?_ ?_
  · intro beyond
    have limit : inodeMaxBytes < 2 ^ 32 := by decide
    have changed :
        AtLeast type size
          (inode.setNumBytes ((offset + src.length) % usizeModulus)) := by
      refine ⟨atLeast.valid, atLeast.type, ?_⟩
      have same :
          (UInt32.ofNat ((offset + src.length) % usizeModulus)).toNat =
            (offset + src.length) % usizeModulus := by
        rw [UInt32.toNat_ofNat']
        exact Nat.mod_eq_of_lt (Nat.lt_of_le_of_lt fits limit)
      change size ≤ (UInt32.ofNat _).toNat
      rw [same]
      exact atLeast.size.trans beyond.le
    exact (endsAtLeast_inodeSync changed).bind fun sized grown =>
      rest sized grown
  · exact fun _ => rest inode atLeast

theorem endsAtLeast_inodeInsert
    {frame : Frame}
    {name : List UInt8}
    {inodeNo : Nat}
    (atLeast : AtLeast type size inode) :
    EndsAtLeast type size
      (inodeInsert sblock console frame inode name inodeNo) Prod.fst := by
  unfold inodeInsert
  refine endsAtLeast_after fun _ => endsAtLeast_after fun found => ?_
  cases found with
  | none => exact endsAtLeast_pure atLeast
  | some offset =>
      exact (endsAtLeast_inodeWrite atLeast).bind fun _ written =>
        endsAtLeast_pure written

end Grows

/-! ## The table of inodes -/

/-- What is known of the inodes which others hold. -/
structure Floor where
  held : Nat → Prop
  type : Nat → UInt16
  size : Nat → Nat

/-- Others hold references of their own. -/
def Floor.Covered (floor : Floor) (refs : Nat → Nat) : Prop :=
  ∀ address, floor.held address → 0 < refs address

theorem Floor.Covered.plus
    {floor : Floor}
    {refs : Nat → Nat}
    (covered : floor.Covered refs)
    (address : Nat) :
    floor.Covered (InodeRefs.plus refs address) := by
  intro other held
  have positive := covered other held
  simp only [InodeRefs.plus]
  omega

/-- The inodes on the list are read, and those held are as large as known. -/
structure Sized (floor : Floor) (state : State) : Prop where
  valid : ∀ address ∈ state.head, (state.nodes address).valid = true
  atLeast :
    ∀ address, floor.held address →
      AtLeast (floor.type address) (floor.size address)
        (state.nodes address)

/-- A program counts references, and keeps what is known of sizes. -/
def KeepsSizes
    {Value : Type}
    (floor : Floor)
    (refs : Nat → Nat)
    (program : TableProgram Value)
    (after : Value → Nat → Nat) : Prop :=
  ∀ state, Counted refs state → Sized floor state →
    Ensures (fun _ => True) program state fun value target =>
      Counted (after value) target ∧ Sized floor target

section Rules

variable
    {floor : Floor}
    {refs : Nat → Nat}
    {Value Result : Type}
    {after : Result → Nat → Nat}

/-- The two parts can be proved one by one. -/
theorem keepsSizes_of_counts
    {program : TableProgram Result}
    (counts : Counts refs program after)
    (sized :
      ∀ state, Counted refs state → Sized floor state →
        Ensures (fun _ => True) program state fun _ target =>
          Sized floor target) :
    KeepsSizes floor refs program after :=
  fun state counted isSized =>
    (counts state counted).and (sized state counted isSized)

theorem keepsSizes_pure
    {value : Result}
    (same : after value = refs) :
    KeepsSizes floor refs (pure value) after := by
  intro state counted sized
  rw [ensures_pure, same]
  exact ⟨counted, sized⟩

theorem keepsSizes_throw
    {stop : Stop} :
    KeepsSizes floor refs (throw stop : TableProgram Result) after := by
  intro state counted sized
  exact ensures_throw.mpr trivial

theorem KeepsSizes.bind
    {program : TableProgram Value}
    {middle : Value → Nat → Nat}
    {next : Value → TableProgram Result}
    (first : KeepsSizes floor refs program middle)
    (rest : ∀ value, KeepsSizes floor (middle value) (next value) after) :
    KeepsSizes floor refs (program >>= next) after := by
  intro state counted sized
  rw [ensures_bind]
  refine (first state counted sized).mono ?_
  exact fun value target kept => rest value target kept.1 kept.2

theorem keepsSizes_ite
    {condition : Prop}
    [Decidable condition]
    {yes no : TableProgram Result}
    (whenTrue : KeepsSizes floor refs yes after)
    (whenFalse : KeepsSizes floor refs no after) :
    KeepsSizes floor refs (if condition then yes else no) after := by
  split_ifs
  · exact whenTrue
  · exact whenFalse

end Rules

section Inodes

variable
    {sblock : SuperBlock}
    {env : Env}
    {floor : Floor}
    {refs : Nat → Nat}
    {Value : Type}
    {address : Nat}

theorem Sized.of_nodes
    {state target : State}
    (sized : Sized floor state)
    (nodes : target.nodes = state.nodes)
    (head : target.head = state.head) :
    Sized floor target := by
  constructor
  · rw [nodes, head]
    exact sized.valid
  · rw [nodes]
    exact sized.atLeast

theorem sizes_onStore
    {program : Program Store Stop Value} :
    KeepsSizes floor refs (Inodes.onStore program) fun _ => refs := by
  refine keepsSizes_of_counts counts_onStore ?_
  intro state _ sized
  unfold Ensures Inodes.onStore StateT.run
  dsimp only
  cases program state.store with
  | error stop => trivial
  | ok result => exact sized.of_nodes rfl rfl

theorem sizes_reads
    {program : Inode → Program Store Stop Value} :
    KeepsSizes floor refs (Inodes.reads address program) fun _ => refs :=
  fun state counted sized => sizes_onStore state counted sized

/-- A program changes an inode, and does not shrink it. -/
theorem sizes_changes
    {program : Inode → Program Store Stop (Inode × Value)}
    (counts : Counts refs (Inodes.changes address program) fun _ => refs)
    (grows :
      ∀ {type size inode}, AtLeast type size inode →
        EndsAtLeast type size (program inode) Prod.fst) :
    KeepsSizes floor refs (Inodes.changes address program)
      fun _ => refs := by
  refine keepsSizes_of_counts counts ?_
  intro state _ sized
  have grown :
      ∀ type size, AtLeast type size (state.nodes address) →
        Ensures (fun _ => True) (program (state.nodes address))
          state.store fun result _ => AtLeast type size result.1 :=
    fun type size atLeast => grows atLeast state.store
  unfold Ensures StateT.run at grown
  unfold Ensures Inodes.changes StateT.run
  dsimp only
  revert grown
  cases program (state.nodes address) state.store with
  | error stop => exact fun _ => trivial
  | ok result =>
      intro grown
      constructor
      · intro other member
        by_cases same : other = address
        · subst same
          simp only [Function.update_self]
          have before := sized.valid other member
          exact (grown _ 0 ⟨before, rfl, Nat.zero_le _⟩).valid
        · simp only [Function.update_of_ne same]
          exact sized.valid other member
      · intro other held
        by_cases same : other = address
        · subst same
          simp only [Function.update_self]
          exact grown _ _ (sized.atLeast other held)
        · simp only [Function.update_of_ne same]
          exact sized.atLeast other held

theorem sizes_entry :
    KeepsSizes floor refs (Inodes.entry address) fun _ => refs :=
  fun _ counted sized => ⟨counted, sized⟩

theorem sizes_inodeNo :
    KeepsSizes floor refs (Inodes.inodeNo address) fun _ => refs :=
  fun _ counted sized => ⟨counted, sized⟩

theorem sizes_assertHeld :
    KeepsSizes floor refs (Inodes.assertHeld address) fun _ => refs := by
  intro state counted sized
  unfold Inodes.assertHeld
  rw [ensures_bind, ensures_get]
  refine ensures_ite ?_ ?_
  · exact fun _ => ⟨counted, sized⟩
  · exact fun _ => trivial

theorem sizes_lock :
    KeepsSizes floor refs (Inodes.lock address) fun _ => refs :=
  sizes_assertHeld

theorem sizes_unlock :
    KeepsSizes floor refs (Inodes.unlock address) fun _ => refs :=
  sizes_assertHeld

/-- An assignment which leaves the type and the size alone. -/
theorem sizes_setEntry
    {change : InodeEntry → InodeEntry}
    (type : ∀ entry, (change entry).type = entry.type)
    (size : ∀ entry, (change entry).numBytes = entry.numBytes) :
    KeepsSizes floor refs (Inodes.setEntry address change)
      fun _ => refs := by
  refine sizes_changes counts_setEntry fun atLeast => ?_
  refine endsAtLeast_pure ⟨atLeast.valid, ?_, ?_⟩
  · exact (type _).trans atLeast.type
  · dsimp only
    rw [size]
    exact atLeast.size

theorem sizes_sync :
    KeepsSizes floor refs (Inodes.sync sblock address) fun _ => refs :=
  sizes_changes counts_sync fun atLeast =>
    (endsAtLeast_inodeSync atLeast).bind fun _ synced =>
      endsAtLeast_pure synced

theorem sizes_write
    {src : List UInt8}
    {offset : Nat} :
    KeepsSizes floor refs (Inodes.write sblock address src offset)
      fun _ => refs :=
  sizes_changes counts_write endsAtLeast_inodeWrite

theorem sizes_insert
    {frame : Frame}
    {name : List UInt8}
    {inodeNo : Nat} :
    KeepsSizes floor refs
      (Inodes.insert sblock env frame address name inodeNo)
      fun _ => refs :=
  sizes_changes counts_insert endsAtLeast_inodeInsert

/-- Another count of references changes no size. -/
theorem Sized.setRc
    {state : State}
    (sized : Sized floor state)
    (address : Nat)
    (rc : Int) :
    Sized floor
      { state with
        nodes :=
          Function.update state.nodes address
            { state.nodes address with rc := rc } } := by
  constructor
  · intro other member
    dsimp only
    by_cases same : other = address
    · subst same
      rw [Function.update_self]
      exact sized.valid other member
    · rw [Function.update_of_ne same]
      exact sized.valid other member
  · intro other held
    have before := sized.atLeast other held
    dsimp only
    by_cases same : other = address
    · subst same
      rw [Function.update_self]
      exact ⟨before.valid, before.type, before.size⟩
    · rw [Function.update_of_ne same]
      exact before

theorem sizes_share
    (referenced : 0 < refs address) :
    KeepsSizes floor refs (Inodes.share address) (plus refs) :=
  keepsSizes_of_counts (counts_share referenced) fun _ _ sized =>
    sized.setRc address _

/-- `inode_get` reads an inode which is not in memory yet. -/
theorem sizes_get
    (covered : floor.Covered refs)
    {inodeNo : Nat} :
    KeepsSizes floor refs (Inodes.get sblock env inodeNo) (plus refs) := by
  refine keepsSizes_of_counts counts_get ?_
  intro state counted sized
  unfold Ensures Inodes.get StateT.run
  dsimp only
  unfold inodeGet
  split_ifs with outside
  · trivial
  · cases found :
        state.head.find? fun address =>
          (state.nodes address).inodeNo == inodeNo with
    | some address => exact sized.setRc address _
    | none =>
        have fresh := env.fresh state.head
        dsimp only
        have read :=
          valid_inodeSync sblock
            { rc := 1
              inodeNo := inodeNo
              valid := false
              entry := (state.nodes (env.kalloc state.head)).entry }
            false state.store
        unfold Ensures at read
        revert read
        cases (inodeSync sblock
            { rc := 1
              inodeNo := inodeNo
              valid := false
              entry := (state.nodes (env.kalloc state.head)).entry }
            false).run state.store with
        | error stop => exact fun _ => trivial
        | ok result =>
            intro read
            constructor
            · intro other member
              dsimp only
              by_cases same : other = env.kalloc state.head
              · subst same
                rw [Function.update_self]
                exact read
              · rw [Function.update_of_ne same]
                refine sized.valid other ?_
                rcases List.mem_cons.mp member with here | there
                · exact absurd here same
                · exact there
            · intro other held
              dsimp only
              have member := counted.listed other (covered other held)
              have different : other ≠ env.kalloc state.head := by
                rintro rfl
                exact fresh member
              rw [Function.update_of_ne different]
              exact sized.atLeast other held

/-- `inode_put` clears only what nobody holds. -/
theorem sizes_put
    (covered : floor.Covered refs) :
    KeepsSizes floor (plus refs address) (Inodes.put sblock address)
      fun _ => refs := by
  refine keepsSizes_of_counts counts_put ?_
  intro state counted sized
  have lowered := sized.setRc address ((state.nodes address).rc - 1)
  unfold Ensures Inodes.put StateT.run
  dsimp only
  unfold inodePut
  dsimp only
  split_ifs with unneeded
  · have free : ¬ floor.held address := by
      intro held
      have positive := covered address held
      have member : address ∈ state.head := counted.listed _ (by simp)
      have zero := unneeded.1
      rw [counted.rc address member, plus_self] at zero
      push_cast at zero
      omega
    unfold onInode
    dsimp only
    simp only [Function.update_self, Function.update_idem]
    have valid :
        Ensures (fun _ => True)
          (freeInode sblock
            { state.nodes address with
              rc := (state.nodes address).rc - 1 })
          state.store fun result _ => result.valid = true := by
      unfold freeInode
      rw [ensures_bind]
      exact ensures_true.mono fun cleared store _ =>
        valid_inodeSync sblock cleared true store
    unfold Ensures at valid
    revert valid
    cases (freeInode sblock
        { state.nodes address with
          rc := (state.nodes address).rc - 1 }).run state.store with
    | error stop => exact fun _ => trivial
    | ok result =>
        intro valid
        constructor
        · intro other member
          dsimp only
          by_cases same : other = address
          · subst same
            rw [Function.update_self]
            exact valid
          · rw [Function.update_of_ne same]
            exact sized.valid other (List.mem_of_mem_erase member)
        · intro other held
          have different : other ≠ address := by
            rintro rfl
            exact free held
          dsimp only
          rw [Function.update_of_ne different]
          exact sized.atLeast other held
  · exact lowered

/-- `namex` -/
theorem sizes_namexFrom
    (covered : floor.Covered refs)
    {parent : Bool}
    {path : List (List UInt8)}
    {name : List UInt8} :
    KeepsSizes floor (plus refs address)
      (namexFrom sblock env parent path name address)
      (plusFound refs) := by
  induction path generalizing address name with
  | nil =>
      unfold namexFrom
      refine keepsSizes_ite ?_ (keepsSizes_pure rfl)
      exact (sizes_put covered).bind fun _ => keepsSizes_pure rfl
  | cons element rest ih =>
      unfold namexFrom
      refine sizes_lock.bind fun _ => sizes_entry.bind fun entry => ?_
      refine keepsSizes_ite ?_ (keepsSizes_ite ?_ ?_)
      · refine sizes_unlock.bind fun _ => ?_
        exact (sizes_put covered).bind fun _ => keepsSizes_pure rfl
      · exact sizes_unlock.bind fun _ => keepsSizes_pure rfl
      · refine sizes_reads.bind fun found => ?_
        cases found with
        | none =>
            refine sizes_unlock.bind fun _ => ?_
            exact (sizes_put covered).bind fun _ => keepsSizes_pure rfl
        | some pair =>
            refine sizes_unlock.bind fun _ => ?_
            refine (sizes_put covered).bind fun _ => ?_
            exact (sizes_get covered).bind fun next => ih

theorem sizes_namex
    (covered : floor.Covered refs)
    {cwd : Nat}
    (referenced : 0 < refs cwd)
    {path : List UInt8}
    {parent : Bool} :
    KeepsSizes floor refs (namex sblock env cwd path parent)
      (plusFound refs) := by
  unfold namex
  refine keepsSizes_ite ?_ ?_
  · exact (sizes_get covered).bind fun ans => sizes_namexFrom covered
  · exact (sizes_share referenced).bind fun ans => sizes_namexFrom covered

theorem sizes_namei
    (covered : floor.Covered refs)
    {cwd : Nat}
    (referenced : 0 < refs cwd)
    {path : List UInt8} :
    KeepsSizes floor refs (namei sblock env cwd path)
      (plusOption refs) := by
  unfold namei
  refine (sizes_namex covered referenced).bind fun found => ?_
  cases found with
  | none => exact keepsSizes_pure rfl
  | some pair => exact keepsSizes_pure rfl

end Inodes

end FudanOS.Fs.InodeSizes
