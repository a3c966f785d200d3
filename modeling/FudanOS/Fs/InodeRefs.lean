import FudanOS.Fs.Names

/-!
# References to inodes in memory

Whatever the disk holds, the functions of the inode layer count references:
`rc` of an inode on the list is the number of references to it, and an inode
to which there is a reference is on the list.  The specifications below say
how each function changes the number of references.
-/

namespace FudanOS.Fs.InodeRefs

open FudanOS.Library.Programs
open FudanOS.Fs.Defines
open FudanOS.Fs.BlockBitmap
open FudanOS.Fs.InodeLayout
open FudanOS.Fs.InodeLayer
open FudanOS.Fs.Directory
open FudanOS.Fs.InodeTable
open FudanOS.Fs.Names

/-! ## Functions which leave the count alone -/

/-- The fields of an inode which only the table of inodes changes. -/
def Keeps (inode result : Inode) : Prop :=
  result.rc = inode.rc ∧ result.inodeNo = inode.inodeNo

theorem Keeps.trans
    {inode middle result : Inode}
    (first : Keeps inode middle)
    (second : Keeps middle result) :
    Keeps inode result :=
  ⟨second.1.trans first.1, second.2.trans first.2⟩

theorem keeps_entry
    (inode : Inode)
    (entry : InodeEntry) :
    Keeps inode { inode with entry := entry } :=
  ⟨rfl, rfl⟩

/-- Every run of a program which returns keeps the fields. -/
def KeepsAll
    {Value : Type}
    (inode : Inode)
    (program : Program Store Stop Value)
    (of : Value → Inode) : Prop :=
  ∀ store,
    Ensures (fun _ => True) program store fun value _ =>
      Keeps inode (of value)

section Keeps

variable
    {sblock : SuperBlock}
    {console : ConsoleRead}
    {Value Result : Type}
    {inode : Inode}
    {of : Result → Inode}

theorem ensures_true
    {State Reason : Type}
    {program : Program State Reason Value}
    {start : State} :
    Ensures (fun _ => True) program start fun _ _ => True := by
  unfold Ensures
  split
  · trivial
  · trivial

theorem keepsAll_pure
    {value : Result}
    (keeps : Keeps inode (of value)) :
    KeepsAll inode (pure value) of := by
  intro store
  exact ensures_pure.mpr keeps

theorem keepsAll_throw
    {stop : Stop} :
    KeepsAll inode (throw stop : Program Store Stop Result) of := by
  intro store
  exact ensures_throw.mpr trivial

/-- What comes first does not have the inode. -/
theorem keepsAll_after
    {program : Program Store Stop Value}
    {next : Value → Program Store Stop Result}
    (rest : ∀ value, KeepsAll inode (next value) of) :
    KeepsAll inode (program >>= next) of := by
  intro store
  rw [ensures_bind]
  exact ensures_true.mono fun value target _ => rest value target

/-- What comes first hands the inode on. -/
theorem KeepsAll.bind
    {program : Program Store Stop Value}
    {through : Value → Inode}
    {next : Value → Program Store Stop Result}
    (first : KeepsAll inode program through)
    (rest : ∀ value, KeepsAll (through value) (next value) of) :
    KeepsAll inode (program >>= next) of := by
  intro store
  rw [ensures_bind]
  refine (first store).mono ?_
  intro value middle kept
  refine (rest value middle).mono ?_
  exact fun result _ => kept.trans

theorem keepsAll_ite
    {condition : Prop}
    [Decidable condition]
    {yes no : Program Store Stop Result}
    (whenTrue : KeepsAll inode yes of)
    (whenFalse : KeepsAll inode no of) :
    KeepsAll inode (if condition then yes else no) of := by
  split_ifs
  · exact whenTrue
  · exact whenFalse

theorem keepsAll_inodeSync
    {doWrite : Bool} :
    KeepsAll inode (inodeSync sblock inode doWrite) id := by
  unfold inodeSync
  refine keepsAll_ite ?_ (keepsAll_ite ?_ ?_)
  · refine keepsAll_after fun _ => keepsAll_after fun _ => ?_
    refine keepsAll_after fun _ => keepsAll_after fun _ => ?_
    exact keepsAll_pure ⟨rfl, rfl⟩
  · refine keepsAll_after fun _ => keepsAll_after fun _ => ?_
    exact keepsAll_pure ⟨rfl, rfl⟩
  · exact keepsAll_pure ⟨rfl, rfl⟩

/-- An inode which is written back after a change of its entry. -/
theorem keepsAll_inodeSync_of
    {changed : Inode}
    {doWrite : Bool}
    (keeps : Keeps inode changed) :
    KeepsAll inode (inodeSync sblock changed doWrite) id := by
  intro store
  refine (keepsAll_inodeSync store).mono ?_
  exact fun result _ => keeps.trans

theorem keepsAll_mapThrough
    {ctx : Bool}
    {index : Nat} :
    KeepsAll inode (mapThrough sblock ctx inode index) Mapped.inode := by
  unfold mapThrough
  refine keepsAll_after fun data => ?_
  refine keepsAll_ite keepsAll_throw (keepsAll_ite (keepsAll_ite ?_ ?_) ?_)
  · refine keepsAll_after fun _ => keepsAll_after fun _ => ?_
    refine keepsAll_after fun _ => keepsAll_after fun _ => ?_
    exact keepsAll_pure ⟨rfl, rfl⟩
  · exact keepsAll_after fun _ => keepsAll_pure ⟨rfl, rfl⟩
  · exact keepsAll_after fun _ => keepsAll_pure ⟨rfl, rfl⟩

theorem keepsAll_inodeMap
    {ctx : Bool}
    {offset : Nat} :
    KeepsAll inode (inodeMap sblock ctx inode offset) Mapped.inode := by
  unfold inodeMap
  split_ifs with direct
  · unfold mapDirect
    refine keepsAll_ite (keepsAll_ite ?_ ?_) ?_
    · refine keepsAll_after fun _ => ?_
      refine (keepsAll_inodeSync_of (keeps_entry inode _)).bind fun _ => ?_
      exact keepsAll_pure ⟨rfl, rfl⟩
    · exact keepsAll_pure ⟨rfl, rfl⟩
    · exact keepsAll_pure ⟨rfl, rfl⟩
  · refine keepsAll_after fun _ => ?_
    refine (keepsAll_inodeSync_of (keeps_entry inode _)).bind fun _ => ?_
    exact keepsAll_mapThrough
  · exact keepsAll_pure ⟨rfl, rfl⟩
  · exact keepsAll_mapThrough

theorem keepsAll_writeLoop
    {finish fuel position : Nat}
    {src : List UInt8} :
    KeepsAll inode (writeLoop sblock finish fuel inode src position)
      id := by
  induction fuel generalizing inode src position with
  | zero => exact keepsAll_pure ⟨rfl, rfl⟩
  | succ fuel ih =>
      unfold writeLoop
      refine keepsAll_ite ?_ (keepsAll_pure ⟨rfl, rfl⟩)
      refine keepsAll_inodeMap.bind fun mapped => ?_
      refine keepsAll_after fun _ => keepsAll_after fun _ => ?_
      exact keepsAll_after fun _ => keepsAll_after fun _ => ih

theorem keepsAll_inodeWrite
    {src : List UInt8}
    {offset : Nat} :
    KeepsAll inode (inodeWrite sblock inode src offset) Prod.fst := by
  unfold inodeWrite
  refine keepsAll_ite (keepsAll_pure ⟨rfl, rfl⟩) ?_
  refine keepsAll_after fun _ => keepsAll_after fun _ => ?_
  refine keepsAll_after fun _ => ?_
  have rest :
      ∀ sized : Inode,
        KeepsAll sized
          (do
            let inode ←
              writeLoop sblock ((offset + src.length) % usizeModulus)
                ((offset + src.length) % usizeModulus - offset) sized src
                offset
            return (inode, src.length)) Prod.fst := by
    intro sized
    exact keepsAll_writeLoop.bind fun _ => keepsAll_pure ⟨rfl, rfl⟩
  refine keepsAll_ite ?_ ?_
  · refine (keepsAll_inodeSync_of (keeps_entry inode _)).bind ?_
    exact fun sized => rest sized
  · exact rest inode

theorem keepsAll_inodeInsert
    {frame : Frame}
    {name : List UInt8}
    {inodeNo : Nat} :
    KeepsAll inode
      (inodeInsert sblock console frame inode name inodeNo) Prod.fst := by
  unfold inodeInsert
  refine keepsAll_after fun _ => keepsAll_after fun found => ?_
  cases found with
  | none => exact keepsAll_pure ⟨rfl, rfl⟩
  | some offset =>
      exact keepsAll_inodeWrite.bind fun _ => keepsAll_pure ⟨rfl, rfl⟩

theorem keepsAll_inodeClear :
    KeepsAll inode (inodeClear sblock inode) id := by
  have indirect : KeepsAll inode (clearIndirect sblock inode) id := by
    unfold clearIndirect
    refine keepsAll_ite (keepsAll_pure ⟨rfl, rfl⟩) ?_
    refine keepsAll_after fun _ => keepsAll_after fun _ => ?_
    refine keepsAll_after fun _ => keepsAll_after fun _ => ?_
    exact keepsAll_pure ⟨rfl, rfl⟩
  have direct :
      ∀ (places : List (Fin inodeNumDirect)) (start : Inode),
        KeepsAll start (places.foldlM (freeDirect sblock) start) id := by
    intro places
    induction places with
    | nil => exact fun start => keepsAll_pure ⟨rfl, rfl⟩
    | cons place rest ih =>
        intro start
        rw [List.foldlM_cons]
        have one : KeepsAll start (freeDirect sblock start place) id := by
          unfold freeDirect
          refine keepsAll_ite (keepsAll_pure ⟨rfl, rfl⟩) ?_
          exact keepsAll_after fun _ => keepsAll_pure ⟨rfl, rfl⟩
        exact one.bind fun middle => ih middle
  unfold inodeClear
  refine indirect.bind fun middle => ?_
  refine (direct _ middle).bind fun cleared => ?_
  exact keepsAll_inodeSync_of (keeps_entry cleared _)

theorem keepsAll_freeInode :
    KeepsAll inode (freeInode sblock inode) id := by
  have cleared :
      KeepsAll inode
        (inodeClear sblock
          { inode with
            entry := { inode.entry with type := inodeInvalid } }) id := by
    intro store
    exact (keepsAll_inodeClear store).mono fun _ _ kept =>
      ⟨kept.1, kept.2⟩
  unfold freeInode
  exact cleared.bind fun middle => keepsAll_inodeSync

end Keeps

/-! ## The count of references -/

/-- One reference more. -/
def plus (refs : Nat → Nat) (address : Nat) : Nat → Nat :=
  fun other => refs other + if other = address then 1 else 0

@[simp]
theorem plus_self
    (refs : Nat → Nat)
    (address : Nat) :
    plus refs address address = refs address + 1 := by
  simp [plus]

@[simp]
theorem plus_of_ne
    {refs : Nat → Nat}
    {address other : Nat}
    (different : other ≠ address) :
    plus refs address other = refs other := by
  simp [plus, different]

theorem plus_comm
    (refs : Nat → Nat)
    (left right : Nat) :
    plus (plus refs left) right = plus (plus refs right) left := by
  funext other
  simp only [plus]
  omega

/-- The table counts the references. -/
structure Counted (refs : Nat → Nat) (state : State) : Prop where
  rc : ∀ address ∈ state.head, (state.nodes address).rc = refs address
  listed : ∀ address, 0 < refs address → address ∈ state.head

/-- A program, if it returns, changes the number of references. -/
def Counts
    {Value : Type}
    (refs : Nat → Nat)
    (program : TableProgram Value)
    (after : Value → Nat → Nat) : Prop :=
  ∀ state, Counted refs state →
    Ensures (fun _ => True) program state fun value target =>
      Counted (after value) target

section Rules

variable
    {refs : Nat → Nat}
    {Value Result : Type}
    {after : Result → Nat → Nat}

theorem counts_pure
    {value : Result}
    (same : after value = refs) :
    Counts refs (pure value) after := by
  intro state counted
  rw [ensures_pure, same]
  exact counted

theorem counts_throw
    {stop : Stop} :
    Counts refs (throw stop : TableProgram Result) after := by
  intro state counted
  exact ensures_throw.mpr trivial

theorem Counts.bind
    {program : TableProgram Value}
    {middle : Value → Nat → Nat}
    {next : Value → TableProgram Result}
    (first : Counts refs program middle)
    (rest : ∀ value, Counts (middle value) (next value) after) :
    Counts refs (program >>= next) after := by
  intro state counted
  rw [ensures_bind]
  refine (first state counted).mono ?_
  exact fun value target counted => rest value target counted

theorem counts_ite
    {condition : Prop}
    [Decidable condition]
    {yes no : TableProgram Result}
    (whenTrue : Counts refs yes after)
    (whenFalse : Counts refs no after) :
    Counts refs (if condition then yes else no) after := by
  split_ifs
  · exact whenTrue
  · exact whenFalse

end Rules

section Inodes

variable
    {sblock : SuperBlock}
    {env : Env}
    {refs : Nat → Nat}
    {Value : Type}
    {address : Nat}

/-- Only the blocks differ. -/
theorem Counted.of_nodes
    {state target : State}
    (counted : Counted refs state)
    (nodes : target.nodes = state.nodes)
    (head : target.head = state.head) :
    Counted refs target := by
  refine ⟨?_, ?_⟩
  · rw [nodes, head]
    exact counted.rc
  · rw [head]
    exact counted.listed

theorem counts_onStore
    {program : Program Store Stop Value} :
    Counts refs (Inodes.onStore program) fun _ => refs := by
  intro state counted
  unfold Ensures Inodes.onStore StateT.run
  dsimp only
  cases program state.store with
  | error stop => trivial
  | ok result => exact counted.of_nodes rfl rfl

theorem counts_reads
    {program : Inode → Program Store Stop Value} :
    Counts refs (Inodes.reads address program) fun _ => refs := by
  intro state counted
  exact counts_onStore state counted

theorem counts_changes
    {program : Inode → Program Store Stop (Inode × Value)}
    (keeps : ∀ inode, KeepsAll inode (program inode) Prod.fst) :
    Counts refs (Inodes.changes address program) fun _ => refs := by
  intro state counted
  have kept := keeps (state.nodes address) state.store
  unfold Ensures StateT.run at kept
  unfold Ensures Inodes.changes StateT.run
  dsimp only
  revert kept
  cases program (state.nodes address) state.store with
  | error stop => exact fun _ => trivial
  | ok result =>
      intro kept
      refine ⟨?_, counted.listed⟩
      intro other member
      by_cases same : other = address
      · subst same
        simp only [Function.update_self]
        exact kept.1.trans (counted.rc other member)
      · simp only [Function.update_of_ne same]
        exact counted.rc other member

theorem counts_entry :
    Counts refs (Inodes.entry address) fun _ => refs := by
  intro state counted
  exact counted

theorem counts_inodeNo :
    Counts refs (Inodes.inodeNo address) fun _ => refs := by
  intro state counted
  exact counted

theorem counts_assertHeld :
    Counts refs (Inodes.assertHeld address) fun _ => refs := by
  intro state counted
  unfold Inodes.assertHeld
  rw [ensures_bind, ensures_get]
  refine ensures_ite ?_ ?_
  · exact fun _ => counted
  · exact fun _ => trivial

theorem counts_lock :
    Counts refs (Inodes.lock address) fun _ => refs :=
  counts_assertHeld

theorem counts_unlock :
    Counts refs (Inodes.unlock address) fun _ => refs :=
  counts_assertHeld

theorem counts_setEntry
    {change : InodeEntry → InodeEntry} :
    Counts refs (Inodes.setEntry address change) fun _ => refs :=
  counts_changes fun inode => keepsAll_pure (keeps_entry inode _)

theorem counts_sync :
    Counts refs (Inodes.sync sblock address) fun _ => refs :=
  counts_changes fun _ =>
    keepsAll_inodeSync.bind fun _ => keepsAll_pure ⟨rfl, rfl⟩

theorem counts_write
    {src : List UInt8}
    {offset : Nat} :
    Counts refs (Inodes.write sblock address src offset) fun _ => refs :=
  counts_changes fun _ => keepsAll_inodeWrite

theorem counts_insert
    {frame : Frame}
    {name : List UInt8}
    {inodeNo : Nat} :
    Counts refs (Inodes.insert sblock env frame address name inodeNo)
      fun _ => refs :=
  counts_changes fun _ => keepsAll_inodeInsert

/-- `inode_share` of an inode to which there is a reference. -/
theorem counts_share
    (referenced : 0 < refs address) :
    Counts refs (Inodes.share address) (plus refs) := by
  intro state counted
  have member := counted.listed address referenced
  refine ⟨?_, ?_⟩
  · intro other otherMember
    change (Function.update state.nodes address _ other).rc = _
    by_cases same : other = address
    · subst same
      simp only [Function.update_self, plus_self]
      rw [counted.rc other otherMember]
      rfl
    · rw [Function.update_of_ne same, plus_of_ne same]
      exact counted.rc other otherMember
  · intro other positive
    by_cases same : other = address
    · subst same
      exact member
    · rw [plus_of_ne same] at positive
      exact counted.listed other positive

/-- `inode_get` returns a new reference. -/
theorem counts_get
    {inodeNo : Nat} :
    Counts refs (Inodes.get sblock env inodeNo) (plus refs) := by
  intro state counted
  unfold Ensures Inodes.get StateT.run
  dsimp only
  unfold inodeGet
  split_ifs with outside
  · trivial
  · cases found :
        state.head.find? fun address =>
          (state.nodes address).inodeNo == inodeNo with
    | some address =>
        dsimp only
        have member := List.mem_of_find?_eq_some found
        refine ⟨?_, ?_⟩
        · intro other otherMember
          dsimp only
          by_cases same : other = address
          · subst same
            simp only [Function.update_self, plus_self]
            rw [counted.rc other otherMember]
            rfl
          · rw [Function.update_of_ne same, plus_of_ne same]
            exact counted.rc other otherMember
        · intro other positive
          by_cases same : other = address
          · subst same
            exact member
          · rw [plus_of_ne same] at positive
            exact counted.listed other positive
    | none =>
        have fresh := env.fresh state.head
        have kept :
            Ensures (fun _ => True)
              (inodeSync sblock
                { rc := 1
                  inodeNo := inodeNo
                  valid := false
                  entry := (state.nodes (env.kalloc state.head)).entry }
                false) state.store fun result _ => Keeps _ result :=
          keepsAll_inodeSync state.store
        unfold Ensures at kept
        dsimp only
        revert kept
        cases (inodeSync sblock
            { rc := 1
              inodeNo := inodeNo
              valid := false
              entry := (state.nodes (env.kalloc state.head)).entry }
            false).run state.store with
        | error stop => exact fun _ => trivial
        | ok result =>
            intro kept
            have unused : refs (env.kalloc state.head) = 0 := by
              by_contra used
              exact fresh (counted.listed _ (Nat.pos_of_ne_zero used))
            refine ⟨?_, ?_⟩
            · intro other otherMember
              dsimp only
              by_cases same : other = env.kalloc state.head
              · subst same
                simp only [Function.update_self, plus_self, unused]
                exact kept.1
              · rw [Function.update_of_ne same, plus_of_ne same]
                refine counted.rc other ?_
                rcases List.mem_cons.mp otherMember with here | there
                · exact absurd here same
                · exact there
            · intro other positive
              by_cases same : other = env.kalloc state.head
              · subst same
                exact List.mem_cons_self
              · rw [plus_of_ne same] at positive
                exact List.mem_cons_of_mem _ (counted.listed other positive)

/-- `inode_put` gives a reference back. -/
theorem counts_put :
    Counts (plus refs address) (Inodes.put sblock address)
      fun _ => refs := by
  intro state counted
  have member : address ∈ state.head := by
    apply counted.listed
    simp
  have count : (state.nodes address).rc - 1 = refs address := by
    rw [counted.rc address member, plus_self]
    push_cast
    omega
  have lowered :
      Counted refs
        { state with
          nodes :=
            Function.update state.nodes address
              { state.nodes address with
                rc := (state.nodes address).rc - 1 } } := by
    refine ⟨?_, ?_⟩
    · intro other otherMember
      dsimp only
      by_cases same : other = address
      · subst same
        simp only [Function.update_self]
        exact count
      · rw [Function.update_of_ne same]
        have before := counted.rc other otherMember
        rwa [plus_of_ne same] at before
    · intro other positive
      apply counted.listed
      simp only [plus]
      omega
  unfold Ensures Inodes.put StateT.run
  dsimp only
  unfold inodePut
  dsimp only
  split_ifs with unneeded
  · unfold onInode
    dsimp only
    simp only [Function.update_self, Function.update_idem]
    have kept :
        Ensures (fun _ => True)
          (freeInode sblock
            { state.nodes address with
              rc := (state.nodes address).rc - 1 })
          state.store fun result _ => Keeps _ result :=
      keepsAll_freeInode state.store
    unfold Ensures at kept
    revert kept
    cases (freeInode sblock
        { state.nodes address with
          rc := (state.nodes address).rc - 1 }).run state.store with
    | error stop => exact fun _ => trivial
    | ok result =>
        intro kept
        have zero : refs address = 0 := by
          have := unneeded.1
          rw [count] at this
          exact_mod_cast this
        refine ⟨?_, ?_⟩
        · intro other otherMember
          dsimp only
          by_cases same : other = address
          · subst same
            simp only [Function.update_self]
            exact kept.1.trans count
          · rw [Function.update_of_ne same]
            have before := lowered.rc other
              (List.mem_of_mem_erase otherMember)
            simpa [Function.update_of_ne same] using before
        · intro other positive
          have different : other ≠ address := by
            rintro rfl
            omega
          exact (List.mem_erase_of_ne different).mpr
            (lowered.listed other positive)
  · exact lowered

/-- The reference which a lookup of a path returns, if it finds one. -/
def plusFound (refs : Nat → Nat) : Option (Nat × List UInt8) → Nat → Nat
  | none => refs
  | some (address, _) => plus refs address

/-- `namex` gives back what it takes on the way. -/
theorem counts_namexFrom
    {parent : Bool}
    {path : List (List UInt8)}
    {name : List UInt8} :
    Counts (plus refs address)
      (namexFrom sblock env parent path name address)
      (plusFound refs) := by
  induction path generalizing address name with
  | nil =>
      unfold namexFrom
      refine counts_ite ?_ (counts_pure rfl)
      exact counts_put.bind fun _ => counts_pure rfl
  | cons element rest ih =>
      unfold namexFrom
      refine counts_lock.bind fun _ => counts_entry.bind fun entry => ?_
      refine counts_ite ?_ (counts_ite ?_ ?_)
      · refine counts_unlock.bind fun _ => counts_put.bind fun _ => ?_
        exact counts_pure rfl
      · exact counts_unlock.bind fun _ => counts_pure rfl
      · refine counts_reads.bind fun found => ?_
        cases found with
        | none =>
            refine counts_unlock.bind fun _ => counts_put.bind fun _ => ?_
            exact counts_pure rfl
        | some pair =>
            refine counts_unlock.bind fun _ => counts_put.bind fun _ => ?_
            exact counts_get.bind fun next => ih

theorem counts_namex
    {cwd : Nat}
    (referenced : 0 < refs cwd)
    {path : List UInt8}
    {parent : Bool} :
    Counts refs (namex sblock env cwd path parent) (plusFound refs) := by
  unfold namex
  refine counts_ite ?_ ?_
  · exact counts_get.bind fun ans => counts_namexFrom
  · exact (counts_share referenced).bind fun ans => counts_namexFrom

/-- A reference to an inode which may be there. -/
def plusOption (refs : Nat → Nat) : Option Nat → Nat → Nat
  | none => refs
  | some address => plus refs address

theorem counts_namei
    {cwd : Nat}
    (referenced : 0 < refs cwd)
    {path : List UInt8} :
    Counts refs (namei sblock env cwd path) (plusOption refs) := by
  unfold namei
  refine (counts_namex referenced).bind fun found => ?_
  cases found with
  | none => exact counts_pure rfl
  | some pair => exact counts_pure rfl

end Inodes

end FudanOS.Fs.InodeRefs
