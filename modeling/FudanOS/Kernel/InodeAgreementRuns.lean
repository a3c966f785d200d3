import FudanOS.Fs.PathWalk
import FudanOS.Kernel.InodeAgreement

/-!
# Runs in which inodes in memory and on disk agree

`namex`, `create` and `unlinkat` give back the loose reference which a lookup
of a name may lead to.  After every call, in any run of calls, the inodes in
memory are those of the disk.
-/

namespace FudanOS.Kernel.InodeAgreementRuns

open FudanOS.Library.Programs
open FudanOS.Library.Runs
open FudanOS.Fs
open FudanOS.Fs.Defines
open FudanOS.Fs.BlockBitmap
open FudanOS.Fs.InodeLayout
open FudanOS.Fs.InodeLayer
open FudanOS.Fs.BlockOwnership
open FudanOS.Fs.FileContents
open FudanOS.Fs.InodeSpecs
open FudanOS.Fs.Directory
open FudanOS.Fs.InodeTable
open FudanOS.Fs.InodeRuns
open FudanOS.Fs.Names
open FudanOS.Fs.InodeRefs
open FudanOS.Fs.InodeMemory
open FudanOS.Fs.PathWalk (walkEnv)
open FudanOS.Kernel.SysFile
open FudanOS.Kernel.InodeAgreement

/-! ## Paths -/

section Paths

variable
    {sblock : SuperBlock}
    {env : Env}
    {refs : Nat → Nat}
    {loose : Option Nat}
    {state target : InodeTable.State}
    {address cwd : Nat}
    {Value : Type}

theorem ensures_after_read
    {Read : Type}
    {program : TableProgram Read}
    {next : Read → TableProgram Value}
    {post : Value → State → Prop}
    (reads :
      Ensures (fun _ => True) program state fun _ target => target = state)
    (continues :
      ∀ value, Ensures (fun _ => True) (next value) state post) :
    Ensures (fun _ => True) (program >>= next) state post := by
  rw [ensures_bind]
  refine reads.mono ?_
  intro value target same
  rw [same]
  exact continues value

theorem ensures_after_entry
    {next : InodeEntry → TableProgram Value}
    {post : Value → State → Prop}
    (continues :
      Ensures (fun _ => True) (next (state.nodes address).entry) state
        post) :
    Ensures (fun _ => True) (Inodes.entry address >>= next) state post := by
  rw [ensures_bind]
  exact continues

theorem ensures_after_number
    {next : Nat → TableProgram Value}
    {post : Value → State → Prop}
    (continues :
      Ensures (fun _ => True) (next (state.nodes address).inodeNo) state
        post) :
    Ensures (fun _ => True) (Inodes.inodeNo address >>= next) state post := by
  rw [ensures_bind]
  exact continues

theorem mirrors_loose
    (agrees : Agrees sblock refs (some address) state) :
    Mirrors sblock (state.view sblock) (state.nodes address) := by
  apply agrees.coherent.settled.listed
  apply agrees.counted.listed
  change 0 < plus refs address address
  rw [plus_self]
  exact Nat.succ_pos _

/-- An inode with a type is allocated. -/
theorem allocated_of_type
    (agrees : Agrees sblock refs (some address) state)
    (used : (state.nodes address).entry.type ≠ inodeInvalid) :
    Allocated sblock (state.view sblock)
      (state.nodes address).inodeNo := by
  have mirrors := mirrors_loose agrees
  refine ⟨mirrors.positive, mirrors.below, ?_⟩
  rw [← mirrors.entry]
  exact used

/-- An inode with links is allocated. -/
theorem allocated_of_links
    (agrees : Agrees sblock refs (some address) state)
    (linked : ¬ (state.nodes address).entry.numLinks < 1) :
    Allocated sblock (state.view sblock)
      (state.nodes address).inodeNo := by
  refine allocated_of_type agrees ?_
  rw [(mirrors_loose agrees).entry] at linked ⊢
  intro free
  rw [(agrees.coherent.blank _ free).1] at linked
  exact linked (by decide)

theorem unlock_put_solid
    (geometry : Geometry sblock)
    (agrees : Agrees sblock (plus refs address) loose state)
    {next : TableProgram Value}
    {post : Value → State → Prop}
    (continues :
      ∀ target, Agrees sblock refs loose target →
        Ensures (fun _ => True) next target post) :
    Ensures (fun _ => True)
      (do
        Inodes.unlock address
        Inodes.put sblock address
        next) state post := by
  refine ensures_after_read ensures_assertHeld fun _ => ?_
  rw [ensures_bind]
  refine (agrees.put_solid geometry).mono ?_
  exact fun _ target => continues target

theorem unlock_put_loose
    (geometry : Geometry sblock)
    (agrees : Agrees sblock refs (some address) state)
    {next : TableProgram Value}
    {post : Value → State → Prop}
    (continues :
      ∀ target, Agrees sblock refs none target →
        Ensures (fun _ => True) next target post) :
    Ensures (fun _ => True)
      (do
        Inodes.unlock address
        Inodes.put sblock address
        next) state post := by
  refine ensures_after_read ensures_assertHeld fun _ => ?_
  rw [ensures_bind]
  refine (agrees.put_loose geometry).mono ?_
  exact fun _ target => continues target

/-- The walk to a parent holds one loose reference at a time. -/
theorem agrees_namexFrom
    (geometry : Geometry sblock)
    {path : List (List UInt8)}
    {name : List UInt8}
    (agrees : Agrees sblock refs (some address) state) :
    Ensures (fun _ => True)
      (namexFrom sblock env true path name address) state
      fun found target => Agrees sblock (plusFound refs found) none target := by
  induction path generalizing name address state with
  | nil =>
      unfold Names.namexFrom
      rw [if_pos rfl, ensures_bind]
      refine (agrees.put_loose geometry).mono ?_
      exact fun _ _ after => after
  | cons element rest ih =>
      unfold Names.namexFrom
      refine ensures_after_read ensures_assertHeld fun _ => ?_
      refine ensures_after_entry ?_
      refine ensures_ite ?_ ?_
      · intro _
        exact unlock_put_loose geometry agrees fun _ after => after
      · intro typed
        -- A directory is allocated, so its reference is not loose any more.
        have directory := not_not.mp typed
        have held : Agrees sblock (plus refs address) none state := by
          refine agrees.tighten (allocated_of_type agrees ?_)
          rw [directory]
          decide
        refine ensures_ite ?_ ?_
        · intro _
          exact ensures_after_read ensures_assertHeld fun _ => held
        · intro _
          refine ensures_after_read ensures_lookup fun found => ?_
          cases found with
          | none =>
              exact unlock_put_solid geometry held fun _ after => after
          | some entry =>
              refine unlock_put_solid geometry held fun target after => ?_
              rw [ensures_bind]
              refine (after.get geometry _).mono ?_
              exact fun _ _ both => ih both.1

theorem agrees_nameiparent
    (geometry : Geometry sblock)
    (agrees : Agrees sblock refs none state)
    (referenced : 0 < refs cwd)
    (path : List UInt8) :
    Ensures (fun _ => True) (nameiparent sblock env cwd path) state
      fun found target => Agrees sblock (plusFound refs found) none target := by
  unfold Names.nameiparent namex
  split_ifs with rooted
  · rw [ensures_bind]
    refine (agrees.get geometry _).mono ?_
    exact fun _ _ both => agrees_namexFrom geometry both.1
  · rw [ensures_bind]
    refine (agrees.share referenced).mono ?_
    exact fun _ _ after => agrees_namexFrom geometry after.loosen

end Paths

/-! ## `create` -/

section Create

variable
    {sblock : SuperBlock}
    {env : Env}
    {refs : Nat → Nat}
    {loose : Option Nat}
    {state : InodeTable.State}
    {dir address : Nat}

theorem agrees_insert
    (geometry : Geometry sblock)
    (agrees : Agrees sblock refs loose state)
    (referenced : 0 < refs address)
    (frame : Frame)
    (name : List UInt8)
    (inodeNo : Nat) :
    Ensures (fun _ => True)
      (Inodes.insert sblock env frame address name inodeNo) state
      fun _ target => Agrees sblock refs loose target := by
  have member := agrees.listed referenced
  have loaded := agrees.coherent.loaded member (agrees.solid referenced)
  refine agrees.changes referenced ?_
  exact leaves_inodeInsert geometry agrees.coherent.calm
    agrees.coherent.owned loaded frame name inodeNo

theorem agrees_createFound
    (geometry : Geometry sblock)
    (agrees : Agrees sblock (plus refs dir) none state)
    (inodeNo : Nat)
    (type : UInt16) :
    Ensures (fun _ => True) (createFound sblock env dir inodeNo type) state
      fun found target => Agrees sblock (plusOption refs found) none target := by
  unfold SysFile.createFound
  rw [ensures_bind]
  refine (agrees.get geometry _).mono ?_
  rintro ip got ⟨after, _, _⟩
  refine unlock_put_solid geometry after fun held isHeld => ?_
  refine ensures_after_read ensures_assertHeld fun _ => ?_
  refine ensures_after_entry ?_
  refine ensures_ite ?_ ?_
  · rintro ⟨_, regular⟩
    refine isHeld.tighten (allocated_of_type isHeld ?_)
    rw [regular]
    decide
  · intro _
    exact unlock_put_loose geometry isHeld fun _ after => after

/-- A new inode gets its number, its entry and its places in directories. -/
theorem agrees_createNew
    (geometry : Geometry sblock)
    (agrees : Agrees sblock (plus refs dir) none state)
    (name : List UInt8)
    (type major minor : UInt16) :
    Ensures (fun _ => True)
      (createNew sblock env dir name type major minor) state
      fun found target => Agrees sblock (plusOption refs found) none target := by
  unfold SysFile.createNew
  rw [ensures_bind]
  refine (agrees.alloc geometry type).mono ?_
  rintro inodeNo allocated ⟨after, _, isAllocated⟩
  rw [ensures_bind]
  refine (after.get geometry inodeNo).mono ?_
  rintro ip got ⟨isLoose, sameView, number⟩
  have held : Agrees sblock (plus (plus refs dir) ip) none got := by
    refine isLoose.tighten ?_
    rw [sameView, number]
    exact isAllocated
  have referencedIp : 0 < plus (plus refs dir) ip ip := by
    rw [plus_self]
    exact Nat.succ_pos _
  have referencedDir : 0 < plus (plus refs dir) ip dir := by
    rw [plus_comm, plus_self]
    exact Nat.succ_pos _
  have rest :
      ∀ target, Agrees sblock (plus (plus refs dir) ip) none target →
        Ensures (fun _ => True)
          (do
            let _ ←
              Inodes.insert sblock env (env.frame 3) dir name
                (← Inodes.inodeNo ip)
            Inodes.unlock dir
            Inodes.put sblock dir
            return some ip) target
          fun found target =>
            Agrees sblock (plusOption refs found) none target := by
    intro target isHeld
    refine ensures_after_number ?_
    rw [ensures_bind]
    refine (agrees_insert geometry isHeld referencedDir _ name _).mono ?_
    intro _ inserted isInserted
    rw [plus_comm] at isInserted
    exact unlock_put_solid geometry isInserted fun _ after => after
  refine ensures_after_read ensures_assertHeld fun _ => ?_
  refine held.setSync geometry referencedIp ?_ ?_ ?_ ?_
    fun linked isLinked => ?_
  iterate 4 exact fun _ => rfl
  refine ensures_ite ?_ fun _ => rest linked isLinked
  intro _
  refine isLinked.setSync geometry referencedDir ?_ ?_ ?_ ?_
    fun counted isCounted => ?_
  iterate 4 exact fun _ => rfl
  refine ensures_after_number ?_
  rw [ensures_bind]
  refine (agrees_insert geometry isCounted referencedIp _ dot _).mono ?_
  intro _ dotted isDotted
  refine ensures_after_number ?_
  rw [ensures_bind]
  refine (agrees_insert geometry isDotted referencedIp _ dotdot _).mono ?_
  exact fun _ target => rest target

theorem agrees_create
    (geometry : Geometry sblock)
    (agrees : Agrees sblock refs none state)
    {cwd : Nat}
    (referenced : 0 < refs cwd)
    (path : List UInt8)
    (type major minor : UInt16) :
    Ensures (fun _ => True)
      (create sblock env cwd path type major minor) state
      fun found target => Agrees sblock (plusOption refs found) none target := by
  unfold SysFile.create
  rw [ensures_bind]
  refine (agrees_nameiparent geometry agrees referenced path).mono ?_
  intro found walked after
  cases found with
  | none => exact after
  | some place =>
      refine ensures_after_read ensures_assertHeld fun _ => ?_
      refine ensures_after_read ensures_lookup fun entry => ?_
      cases entry with
      | none => exact agrees_createNew geometry after _ type major minor
      | some pair => exact agrees_createFound geometry after _ type

end Create

/-! ## `unlinkat` -/

section Unlink

variable
    {sblock : SuperBlock}
    {env : Env}
    {refs : Nat → Nat}
    {loose : Option Nat}
    {state : InodeTable.State}
    {address dp ip : Nat}

theorem ensures_isdiremptyFrom
    (places : List Nat) :
    Ensures (fun _ => True) (isdiremptyFrom sblock env dp places) state
      fun _ target => target = state := by
  induction places with
  | nil => exact rfl
  | cons off rest ih =>
      unfold isdiremptyFrom
      refine ensures_after_read
        (ensures_reads fun _ => readOnly_inodeRead) fun de => ?_
      refine ensures_ite ?_ ?_
      · exact fun _ => trivial
      · intro _
        exact ensures_ite (fun _ => rfl) fun _ => ih

theorem ensures_isFullDirectory :
    Ensures (fun _ => True) (isFullDirectory sblock env ip) state
      fun _ target => target = state := by
  unfold isFullDirectory
  refine ensures_after_entry ?_
  refine ensures_ite ?_ fun _ => rfl
  intro _
  unfold isdirempty
  refine ensures_after_read ?_ fun _ => rfl
  refine ensures_after_entry ?_
  exact ensures_isdiremptyFrom _

theorem agrees_write
    (geometry : Geometry sblock)
    (agrees : Agrees sblock refs loose state)
    (referenced : 0 < refs address)
    (src : List UInt8)
    (offset : Nat) :
    Ensures (fun _ => True) (Inodes.write sblock address src offset) state
      fun _ target => Agrees sblock refs loose target := by
  have member := agrees.listed referenced
  have loaded := agrees.coherent.loaded member (agrees.solid referenced)
  refine agrees.changes referenced ?_
  exact leaves_inodeWrite geometry agrees.coherent.calm
    agrees.coherent.owned loaded src offset

theorem agrees_unlinkBad
    (geometry : Geometry sblock)
    (agrees : Agrees sblock (plus refs dp) none state) :
    Ensures (fun _ => True) (unlinkBad sblock dp) state
      fun _ target => Agrees sblock refs none target :=
  unlock_put_solid geometry agrees fun _ after => after

/-- The entry is erased, and both inodes lose what it stood for. -/
theorem agrees_unlinkEntry
    (geometry : Geometry sblock)
    (agrees : Agrees sblock (plus (plus refs dp) ip) none state)
    (off : Nat) :
    Ensures (fun _ => True) (unlinkEntry sblock dp ip off) state
      fun _ target => Agrees sblock refs none target := by
  have referencedDp : 0 < plus (plus refs dp) ip dp := by
    rw [plus_comm, plus_self]
    exact Nat.succ_pos _
  have rest :
      ∀ target, Agrees sblock (plus (plus refs dp) ip) none target →
        Ensures (fun _ => True)
          (do
            Inodes.unlock dp
            Inodes.put sblock dp
            Inodes.setEntry ip fun entry =>
              { entry with numLinks := entry.numLinks - 1 }
            Inodes.sync sblock ip
            Inodes.unlock ip
            Inodes.put sblock ip
            return (0 : Int)) target
          fun _ target => Agrees sblock refs none target := by
    intro target held
    rw [plus_comm] at held
    refine unlock_put_solid geometry held fun left isLeft => ?_
    have referenced : 0 < plus refs ip ip := by
      rw [plus_self]
      exact Nat.succ_pos _
    refine isLeft.setSync geometry referenced ?_ ?_ ?_ ?_
      fun unlinked isUnlinked => ?_
    iterate 4 exact fun _ => rfl
    exact unlock_put_solid geometry isUnlinked fun _ after => after
  unfold unlinkEntry
  rw [ensures_bind]
  refine (agrees_write geometry agrees referencedDp _ off).mono ?_
  intro _ written isWritten
  refine ensures_ite (fun _ => trivial) fun _ => ?_
  refine ensures_after_entry ?_
  refine ensures_ite ?_ fun _ => rest written isWritten
  intro _
  refine isWritten.setSync geometry referencedDp ?_ ?_ ?_ ?_
    fun counted isCounted => ?_
  iterate 4 exact fun _ => rfl
  exact rest counted isCounted

theorem agrees_beginOp
    (agrees : Agrees sblock refs loose state) :
    Ensures (fun _ => True) (beginOp env) state
      fun _ target => Agrees sblock refs loose target :=
  agrees.beginOp 0 env.logged

theorem agrees_unlinkat
    (geometry : Geometry sblock)
    (agrees : Agrees sblock refs none state)
    {cwd : Nat}
    (referenced : 0 < refs cwd)
    (fd : Int)
    (path : List UInt8)
    (flag : Int) :
    Ensures (fun _ => True) (unlinkat sblock env cwd fd path flag) state
      fun _ target => Agrees sblock refs none target := by
  unfold SysFile.unlinkat
  refine ensures_ite (fun _ => trivial) fun _ => ?_
  refine ensures_ite (fun _ => agrees) fun _ => ?_
  rw [ensures_bind]
  refine (agrees_beginOp agrees).mono ?_
  intro _ begun isBegun
  rw [ensures_bind]
  refine (agrees_nameiparent geometry isBegun referenced path).mono ?_
  intro found walked after
  cases found with
  | none => exact after
  | some place =>
      refine ensures_after_read ensures_assertHeld fun _ => ?_
      refine ensures_ite (fun _ => agrees_unlinkBad geometry after) ?_
      intro _
      refine ensures_after_read ensures_lookup fun entry => ?_
      cases entry with
      | none => exact agrees_unlinkBad geometry after
      | some pair =>
          rw [ensures_bind]
          refine (after.get geometry _).mono ?_
          rintro ip got ⟨isLoose, _, _⟩
          refine ensures_after_read ensures_assertHeld fun _ => ?_
          refine ensures_after_entry ?_
          refine ensures_ite (fun _ => trivial) ?_
          intro linked
          have held := isLoose.tighten (allocated_of_links isLoose linked)
          refine ensures_after_read ensures_isFullDirectory fun full => ?_
          refine ensures_ite ?_ ?_
          · intro _
            exact unlock_put_solid geometry held fun _ left =>
              agrees_unlinkBad geometry left
          · exact fun _ => agrees_unlinkEntry geometry held _

end Unlink

/-! ## Calls -/

/-- A call, with what the caller chooses. -/
inductive Call where
  /-- The next calls belong to another operation. -/
  | beginOp (env : Env)
  | alloc (type : UInt16)
  | get (env : Env) (inodeNo : Nat)
  | share (address : Nat)
  | write (address : Nat) (src : List UInt8) (offset : Nat)
  | insert (env : Env) (frame : Frame) (address : Nat) (name : List UInt8)
      (inodeNo : Nat)
  | remove (env : Env) (frame : Frame) (address : Nat) (index : Nat)
  | clear (address : Nat)
  | put (address : Nat)
  | create (env : Env) (cwd : Nat) (path : List UInt8)
      (type major minor : UInt16)
  | unlinkat (env : Env) (cwd : Nat) (fd : Int) (path : List UInt8)
      (flag : Int)

/-- What a call runs; what it returns is with the caller. -/
def program (sblock : SuperBlock) : Call → TableProgram Unit
  | .beginOp env => SysFile.beginOp env
  | .alloc type => do
      let _ ← Inodes.alloc sblock type
  | .get env inodeNo => do
      let _ ← Inodes.get sblock env inodeNo
  | .share address => do
      let _ ← Inodes.share address
  | .write address src offset => do
      let _ ← Inodes.write sblock address src offset
  | .insert env frame address name inodeNo => do
      let _ ← Inodes.insert sblock env frame address name inodeNo
  | .remove env frame address index =>
      Inodes.changes address fun inode => do
        return (← inodeRemove sblock env.console frame inode index, ())
  | .clear address =>
      Inodes.changes address fun inode => do
        return (← inodeClear sblock inode, ())
  | .put address => Inodes.put sblock address
  | .create env cwd path type major minor => do
      let _ ← SysFile.create sblock env cwd path type major minor
  | .unlinkat env cwd fd path flag => do
      let _ ← SysFile.unlinkat sblock env cwd fd path flag

/-- One call. -/
def step
    (sblock : SuperBlock)
    (state : InodeTable.State)
    (call : Call) : Except Stop InodeTable.State :=
  match (program sblock call).run state with
  | .ok (_, target) => .ok target
  | .error stop => .error stop

/-- The callers have a reference to the inode. -/
def Held (state : InodeTable.State) (address : Nat) : Prop :=
  address ∈ state.head ∧ 0 < (state.nodes address).rc

/--
What the callers promise: they get allocated inodes, and use inodes to which
they have a reference.
-/
def Allowed (sblock : SuperBlock) (state : InodeTable.State) :
    Call → Prop
  | .beginOp _ => True
  | .alloc _ => True
  | .get _ inodeNo => Allocated sblock (state.view sblock) inodeNo
  | .share address => Held state address
  | .write address _ _ => Held state address
  | .insert _ _ address _ _ => Held state address
  | .remove _ _ address _ => Held state address
  | .clear address => Held state address
  | .put address => Held state address
  | .create _ cwd _ _ _ _ => Held state cwd
  | .unlinkat _ cwd _ _ _ => Held state cwd

/-- The disk is well formed, free inodes are blank, and no inode is read. -/
structure Starts (sblock : SuperBlock) (state : InodeTable.State) :
    Prop where
  formed : Formed sblock state
  blank :
    ∀ inodeNo,
      ((state.view sblock).entry inodeNo).type = inodeInvalid →
        ((state.view sblock).entry inodeNo).numLinks = 0 ∧
          Bare ((state.view sblock).entry inodeNo)

/-- There are references to allocated inodes only. -/
def Steady (sblock : SuperBlock) (state : InodeTable.State) : Prop :=
  ∃ refs, Agrees sblock refs none state

section Calls

variable
    {sblock : SuperBlock}
    {refs : Nat → Nat}
    {state target start finish : InodeTable.State}
    {address : Nat}

theorem Starts.steady
    (starts : Starts sblock state) :
    Steady sblock state := by
  have empty := starts.formed.empty
  have none :
      ∀ address, address ∉ state.head := by
    intro address
    rw [empty]
    exact List.not_mem_nil
  refine ⟨fun _ => 0, ⟨⟨?_, starts.formed.owned, ?_, starts.blank⟩,
    ⟨?_, ?_⟩, ?_⟩⟩
  · refine ⟨starts.formed.free, rfl, ?_, ?_⟩
    · exact fun address member => absurd member (none address)
    · exact fun address member => absurd member (none address)
  · rw [empty]
    exact List.nodup_nil
  · exact fun address member => absurd member (none address)
  · exact fun address positive => absurd positive (Nat.lt_irrefl 0)
  · exact fun address member => absurd member (none address)

theorem Held.referenced
    (held : Held state address)
    (agrees : Agrees sblock refs none state) :
    0 < refs address := by
  have positive := held.2
  rw [agrees.counted.rc address held.1] at positive
  exact Int.natCast_pos.mp positive

theorem exists_plus
    (referenced : 0 < refs address) :
    ∃ rest, refs = plus rest address := by
  refine ⟨Function.update refs address (refs address - 1), ?_⟩
  ext other
  by_cases same : other = address
  · rw [same, plus_self, Function.update_self]
    exact (Nat.succ_pred_eq_of_pos referenced).symm
  · rw [plus_of_ne same, Function.update_of_ne same]

theorem ensures_steady
    {Value : Type}
    {program : TableProgram Value}
    {after : Value → Nat → Nat}
    (runs :
      Ensures (fun _ => True) program state fun value target =>
        Agrees sblock (after value) none target) :
    Ensures (fun _ => True) (program >>= fun _ => pure ()) state
      fun _ target => Steady sblock target := by
  rw [ensures_bind]
  exact runs.mono fun _ _ agrees => ⟨_, agrees⟩

/-- Every call leaves references to allocated inodes only. -/
theorem ensures_program
    (geometry : Geometry sblock)
    (agrees : Agrees sblock refs none state)
    {call : Call}
    (allowed : Allowed sblock state call) :
    Ensures (fun _ => True) (program sblock call) state
      fun _ target => Steady sblock target := by
  cases call with
  | beginOp env => exact ⟨_, agrees.beginOp 0 env.logged⟩
  | alloc type =>
      have allocates :
          Ensures (fun _ => True) (Inodes.alloc sblock type) state
            fun _ target => Agrees sblock refs none target :=
        (agrees.alloc geometry type).mono fun _ _ after => after.1
      exact ensures_steady allocates
  | get env inodeNo =>
      have gets :
          Ensures (fun _ => True) (Inodes.get sblock env inodeNo) state
            fun result target =>
              Agrees sblock (plus refs result) none target := by
        refine (agrees.get geometry inodeNo).mono ?_
        rintro result got ⟨isLoose, sameView, number⟩
        refine isLoose.tighten ?_
        rw [sameView, number]
        exact allowed
      exact ensures_steady gets
  | share address =>
      exact ensures_steady (agrees.share (Held.referenced allowed agrees))
  | write address src offset =>
      exact ensures_steady
        (agrees_write geometry agrees (Held.referenced allowed agrees) src offset)
  | insert env frame address name inodeNo =>
      exact ensures_steady
        (agrees_insert geometry agrees (Held.referenced allowed agrees) frame name
          inodeNo)
  | remove env frame address index =>
      have referenced := Held.referenced allowed agrees
      have loaded :=
        agrees.coherent.loaded allowed.1 (agrees.solid referenced)
      unfold program
      refine Ensures.mono (agrees.changes referenced ?_) ?_
      · rw [ensures_bind]
        exact leaves_inodeRemove geometry agrees.coherent.calm
          agrees.coherent.owned loaded frame index
      · exact fun _ _ after => ⟨_, after⟩
  | clear address =>
      have referenced := Held.referenced allowed agrees
      have loaded :=
        agrees.coherent.loaded allowed.1 (agrees.solid referenced)
      have clears :=
        leaves_inodeClear geometry agrees.coherent.calm
          agrees.coherent.owned loaded
      unfold program
      refine Ensures.mono (agrees.changes referenced ?_) ?_
      · rw [ensures_bind]
        exact (clears.mono fun _ _ both => both.1).accepting
          fun _ _ => trivial
      · exact fun _ _ after => ⟨_, after⟩
  | put address =>
      rcases exists_plus (Held.referenced allowed agrees) with ⟨rest, rfl⟩
      refine (agrees.put_solid geometry).mono ?_
      exact fun _ _ after => ⟨_, after⟩
  | create env cwd path type major minor =>
      exact ensures_steady
        (agrees_create geometry agrees (Held.referenced allowed agrees) path type
          major minor)
  | unlinkat env cwd fd path flag =>
      exact ensures_steady
        (agrees_unlinkat geometry agrees (Held.referenced allowed agrees) fd path
          flag)

theorem step_steady
    (geometry : Geometry sblock)
    (steady : Steady sblock state)
    {call : Call}
    (allowed : Allowed sblock state call)
    (returned : step sblock state call = .ok target) :
    Steady sblock target := by
  rcases steady with ⟨refs, agrees⟩
  unfold step at returned
  split at returned
  · rename_i value middle run
    cases returned
    exact (ensures_program geometry agrees allowed).of_run run
  · cases returned

theorem run_steady
    (geometry : Geometry sblock)
    {calls : List Call}
    (starts : Starts sblock start)
    (run :
      Run (Takes (step sblock)) (Allowed sblock) start calls finish) :
    Steady sblock finish := by
  refine run.invariant starts.steady ?_
  intro source call target steady allowed taken
  exact step_steady geometry steady allowed taken

/-- No number which `inode_alloc` returns is the one of an inode in memory. -/
def AllocatesOthers (sblock : SuperBlock) (state : InodeTable.State) :
    Prop :=
  ∀ type inodeNo target,
    (Inodes.alloc sblock type).run state = .ok (inodeNo, target) →
      ∀ address ∈ state.head, (state.nodes address).inodeNo ≠ inodeNo

theorem allocatesOthers
    (geometry : Geometry sblock)
    (agrees : Agrees sblock refs none state) :
    AllocatesOthers sblock state := by
  intro type inodeNo target returned
  exact ((agrees.alloc geometry type).of_run returned).2.1

/--
After every call of a run the inodes in memory are valid and have the entries
of the disk, there is at most one for a number, and `inode_alloc` returns a
number which none of them has, also when `create` calls it in the directory
which it has found.
-/
theorem memory_agrees_with_disk
    (geometry : Geometry sblock)
    {calls : List Call}
    (starts : Starts sblock start)
    (run :
      Run (Takes (step sblock)) (Allowed sblock) start calls finish) :
    (∀ address ∈ finish.head,
      (finish.nodes address).valid = true ∧
        (finish.nodes address).entry =
          (finish.view sblock).entry (finish.nodes address).inodeNo) ∧
    (∀ left ∈ finish.head, ∀ right ∈ finish.head,
      (finish.nodes left).inodeNo = (finish.nodes right).inodeNo →
        left = right) ∧
    AllocatesOthers sblock finish ∧
    ∀ env cwd path found walked,
      Held finish cwd →
        (nameiparent sblock env cwd path).run finish =
            .ok (found, walked) →
          AllocatesOthers sblock walked := by
  rcases run_steady geometry starts run with ⟨refs, agrees⟩
  have settled := agrees.coherent.settled
  refine ⟨?_, settled.unique, allocatesOthers geometry agrees, ?_⟩
  · intro address member
    have mirrors := settled.listed address member
    exact ⟨mirrors.valid, mirrors.entry⟩
  · intro env cwd path found walked held returned
    have after :=
      (agrees_nameiparent geometry agrees (held.referenced agrees)
        path).of_run returned
    exact allocatesOthers geometry after

end Calls

/-! ## A file without a name -/

instance (state : InodeTable.State) (address : Nat) :
    Decidable (Held state address) :=
  inferInstanceAs (Decidable (_ ∧ _))

instance
    (sblock : SuperBlock)
    (state : InodeTable.State)
    (call : Call) :
    Decidable (Allowed sblock state call) :=
  match call with
  | .beginOp _ => inferInstanceAs (Decidable True)
  | .alloc _ => inferInstanceAs (Decidable True)
  | .get _ _ => inferInstanceAs (Decidable (Allocated _ _ _))
  | .share _ => inferInstanceAs (Decidable (Held _ _))
  | .write _ _ _ => inferInstanceAs (Decidable (Held _ _))
  | .insert _ _ _ _ _ => inferInstanceAs (Decidable (Held _ _))
  | .remove _ _ _ _ => inferInstanceAs (Decidable (Held _ _))
  | .clear _ => inferInstanceAs (Decidable (Held _ _))
  | .put _ => inferInstanceAs (Decidable (Held _ _))
  | .create _ _ _ _ _ _ => inferInstanceAs (Decidable (Held _ _))
  | .unlinkat _ _ _ _ _ => inferInstanceAs (Decidable (Held _ _))

/-- A file is created in the root, written, and unlinked while it is open. -/
def openAndUnlinked : List Call :=
  [.alloc inodeDirectory, .get walkEnv 1,
    .create walkEnv 1 [102] inodeRegular 0 0, .write 2 [1, 2, 3] 0,
    .unlinkat walkEnv 1 atFdcwd [102] 0]

theorem starts_emptyDisk : Starts smallDisk emptyDisk := by
  refine ⟨formed_emptyDisk, ?_⟩
  intro inodeNo _
  by_cases below : inodeNo < 3
  · have blank :
        ∀ inodeNo < 3,
          ((emptyDisk.view smallDisk).entry inodeNo).numLinks = 0 ∧
            (∀ index,
              ((emptyDisk.view smallDisk).entry inodeNo).addrs index = 0) ∧
              ((emptyDisk.view smallDisk).entry inodeNo).indirect = 0 := by
      decide +kernel
    rcases blank inodeNo below with ⟨unlinked, addrs, indirect⟩
    exact ⟨unlinked, addrs, indirect⟩
  · have outside :
        (emptyDisk.view smallDisk).entry inodeNo = InodeEntry.zero :=
      if_neg below
    rw [outside]
    exact ⟨rfl, fun _ => rfl, rfl⟩

theorem memory_agrees_with_disk_unlinked :
    ∃ finish,
      Run (Takes (step smallDisk)) (Allowed smallDisk) emptyDisk
          openAndUnlinked finish ∧
        finish.head = [2, 1] ∧
        ((finish.view smallDisk).entry 2).numLinks = 0 ∧
        ∀ address ∈ finish.head,
          (finish.nodes address).valid = true ∧
            (finish.nodes address).entry =
              (finish.view smallDisk).entry
                (finish.nodes address).inodeNo := by
  have computed :
      ((executeChecked (step smallDisk)
        (fun state call => decide (Allowed smallDisk state call))
        emptyDisk openAndUnlinked).map fun state =>
          (state.head, ((state.view smallDisk).entry 2).numLinks)) =
        some ([2, 1], 0) := by
    decide +kernel
  rcases Option.map_eq_some_iff.mp computed with ⟨finish, executed, values⟩
  simp only [Prod.mk.injEq] at values
  rcases values with ⟨head, unlinked⟩
  have run :
      Run (Takes (step smallDisk)) (Allowed smallDisk) emptyDisk
        openAndUnlinked finish :=
    Run.of_executeChecked (fun _ _ => of_decide_eq_true) executed
  exact ⟨finish, run, head, unlinked,
    (memory_agrees_with_disk geometry_smallDisk starts_emptyDisk run).1⟩

end FudanOS.Kernel.InodeAgreementRuns
