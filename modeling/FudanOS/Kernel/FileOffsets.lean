import FudanOS.Fs.InodeSizes
import FudanOS.Kernel.FileWrites

/-!
# Offsets of open files

No file is open at an offset behind its end, unless it is a device: `file_read`
and `file_write` move the offset up to what `inode_read` and `inode_write` have
reached, and no call shrinks an inode which a file holds.
-/

namespace FudanOS.Kernel.FileOffsets

open FudanOS.Library.Programs
open FudanOS.Library.Runs
open FudanOS.Fs
open FudanOS.Fs.Defines
open FudanOS.Fs.BlockBitmap
open FudanOS.Fs.FileContents
open FudanOS.Fs.InodeLayout
open FudanOS.Fs.InodeLayer
open FudanOS.Fs.FileSpecs
open FudanOS.Fs.InodeTable
open FudanOS.Fs.Names
open FudanOS.Fs.InodeRefs
open FudanOS.Fs.InodeSizes
open FudanOS.Fs.PipeCalls (Waits bytesAt length_bytesAt KeepEnds)
open FudanOS.Kernel.SysFile
open FudanOS.Kernel.FileRefs
open FudanOS.Kernel.FileCalls

/-! ## Calls of the file system -/

section Calls

variable
    {sblock : SuperBlock}
    {env : Env}
    {floor : Floor}
    {refs : Nat → Nat}
    {address cwd : Nat}

theorem sizes_beginOp :
    KeepsSizes floor refs (beginOp env) fun _ => refs :=
  keepsSizes_of_counts counts_beginOp fun _ _ sized =>
    sized.of_nodes rfl rfl

/-- `inodes.unlock(inode)` and `inodes.put(ctx, inode)` -/
theorem sizes_unlockPut
    (covered : floor.Covered refs)
    {Result : Type}
    {after : Result → Nat → Nat}
    {rest : TableProgram Result}
    (goes : KeepsSizes floor refs rest after) :
    KeepsSizes floor (plus refs address)
      (do
        Inodes.unlock address
        Inodes.put sblock address
        rest) after :=
  sizes_unlock.bind fun _ => (sizes_put covered).bind fun _ => goes

theorem sizes_createFound
    (covered : floor.Covered refs)
    {dir inodeNo : Nat}
    {type : UInt16} :
    KeepsSizes floor (plus refs dir)
      (createFound sblock env dir inodeNo type) (plusOption refs) := by
  unfold createFound
  refine (sizes_get (covered.plus dir)).bind fun ip => ?_
  rw [plus_comm]
  refine sizes_unlockPut (covered.plus ip) ?_
  refine sizes_lock.bind fun _ => sizes_entry.bind fun entry => ?_
  refine keepsSizes_ite (keepsSizes_pure rfl) ?_
  exact sizes_unlockPut covered (keepsSizes_pure rfl)

theorem sizes_createNew
    (covered : floor.Covered refs)
    {dir : Nat}
    {name : List UInt8}
    {type major minor : UInt16} :
    KeepsSizes floor (plus refs dir)
      (createNew sblock env dir name type major minor)
      (plusOption refs) := by
  unfold createNew
  refine sizes_onStore.bind fun _ => ?_
  refine (sizes_get (covered.plus dir)).bind fun ip => ?_
  rw [plus_comm]
  refine sizes_lock.bind fun _ => ?_
  refine (sizes_setEntry (by simp) (by simp)).bind fun _ => ?_
  refine sizes_sync.bind fun _ => ?_
  have rest :
      KeepsSizes floor (plus (plus refs ip) dir)
        (do
          let _ ←
            Inodes.insert sblock env (env.frame 3) dir name
              (← Inodes.inodeNo ip)
          Inodes.unlock dir
          Inodes.put sblock dir
          return some ip) (plusOption refs) := by
    refine sizes_inodeNo.bind fun _ => sizes_insert.bind fun _ => ?_
    exact sizes_unlockPut (covered.plus ip) (keepsSizes_pure rfl)
  refine keepsSizes_ite ?_ rest
  refine (sizes_setEntry (by simp) (by simp)).bind fun _ => ?_
  refine sizes_sync.bind fun _ => ?_
  refine sizes_inodeNo.bind fun _ => sizes_insert.bind fun _ => ?_
  refine sizes_inodeNo.bind fun _ => sizes_insert.bind fun _ => ?_
  exact rest

theorem sizes_create
    (covered : floor.Covered refs)
    (referenced : 0 < refs cwd)
    {path : List UInt8}
    {type major minor : UInt16} :
    KeepsSizes floor refs (create sblock env cwd path type major minor)
      (plusOption refs) := by
  unfold create
  refine (sizes_namex covered referenced).bind fun found => ?_
  cases found with
  | none => exact keepsSizes_pure rfl
  | some pair =>
      refine sizes_lock.bind fun _ => sizes_reads.bind fun entry => ?_
      cases entry with
      | none => exact sizes_createNew covered
      | some place => exact sizes_createFound covered

theorem sizes_openInode
    (covered : floor.Covered refs)
    (referenced : 0 < refs cwd)
    {path : List UInt8}
    {omode : BitVec 32} :
    KeepsSizes floor refs (openInode sblock env cwd path omode)
      (plusOption refs) := by
  unfold openInode
  refine sizes_beginOp.bind fun _ => ?_
  refine keepsSizes_ite (sizes_create covered referenced) ?_
  refine (sizes_namei covered referenced).bind fun found => ?_
  cases found with
  | none => exact keepsSizes_pure rfl
  | some ip => exact sizes_lock.bind fun _ => keepsSizes_pure rfl

theorem sizes_chdirTo
    (covered : floor.Covered refs)
    {path : List UInt8} :
    KeepsSizes floor (plus refs cwd) (chdirTo sblock env cwd path)
      (plusCwd refs cwd) := by
  have referenced : 0 < plus refs cwd cwd := by simp
  unfold chdirTo
  refine sizes_beginOp.bind fun _ => ?_
  refine (sizes_namei (covered.plus cwd) referenced).bind fun found => ?_
  cases found with
  | none => exact keepsSizes_pure rfl
  | some ip =>
      refine sizes_lock.bind fun _ => sizes_entry.bind fun _ => ?_
      refine keepsSizes_ite ?_ ?_
      · exact sizes_unlockPut (covered.plus cwd) (keepsSizes_pure rfl)
      · refine sizes_unlock.bind fun _ => ?_
        change KeepsSizes floor (plus (plus refs cwd) ip) _ _
        rw [plus_comm]
        exact (sizes_put (covered.plus ip)).bind fun _ =>
          keepsSizes_pure rfl

theorem sizes_execve
    (covered : floor.Covered refs)
    (referenced : 0 < refs cwd)
    {path : List UInt8}
    {loads : Bool} :
    KeepsSizes floor refs (execve sblock env cwd path loads)
      fun _ => refs := by
  unfold execve
  refine sizes_beginOp.bind fun _ => ?_
  refine (sizes_namei covered referenced).bind fun found => ?_
  cases found with
  | none => exact keepsSizes_pure rfl
  | some ip =>
      refine sizes_lock.bind fun _ => ?_
      exact sizes_unlockPut covered (keepsSizes_pure rfl)

theorem sizes_isdiremptyFrom
    {offsets : List Nat} :
    KeepsSizes floor refs (isdiremptyFrom sblock env address offsets)
      fun _ => refs := by
  induction offsets with
  | nil => exact keepsSizes_pure rfl
  | cons off rest ih =>
      unfold isdiremptyFrom
      refine sizes_reads.bind fun _ => ?_
      refine keepsSizes_ite keepsSizes_throw ?_
      exact keepsSizes_ite (keepsSizes_pure rfl) ih

theorem sizes_isFullDirectory :
    KeepsSizes floor refs (isFullDirectory sblock env address)
      fun _ => refs := by
  unfold isFullDirectory
  refine sizes_entry.bind fun _ => keepsSizes_ite ?_ (keepsSizes_pure rfl)
  unfold isdirempty
  exact (sizes_entry.bind fun _ => sizes_isdiremptyFrom).bind fun _ =>
    keepsSizes_pure rfl

theorem sizes_unlinkBad
    (covered : floor.Covered refs) :
    KeepsSizes floor (plus refs address) (unlinkBad sblock address)
      fun _ => refs := by
  unfold unlinkBad
  exact sizes_unlockPut covered (keepsSizes_pure rfl)

theorem sizes_unlinkEntry
    (covered : floor.Covered refs)
    {dp ip off : Nat} :
    KeepsSizes floor (plus (plus refs dp) ip)
      (unlinkEntry sblock dp ip off) fun _ => refs := by
  have drop :
      KeepsSizes floor (plus (plus refs dp) ip)
        (do
          Inodes.unlock dp
          Inodes.put sblock dp
          Inodes.setEntry ip fun entry =>
            { entry with numLinks := entry.numLinks - 1 }
          Inodes.sync sblock ip
          Inodes.unlock ip
          Inodes.put sblock ip
          return (0 : Int)) fun _ => refs := by
    rw [plus_comm]
    refine sizes_unlockPut (covered.plus ip) ?_
    refine (sizes_setEntry (by simp) (by simp)).bind fun _ => ?_
    refine sizes_sync.bind fun _ => ?_
    exact sizes_unlockPut covered (keepsSizes_pure rfl)
  unfold unlinkEntry
  refine sizes_write.bind fun _ => ?_
  refine keepsSizes_ite keepsSizes_throw ?_
  refine sizes_entry.bind fun _ => keepsSizes_ite ?_ drop
  refine (sizes_setEntry (by simp) (by simp)).bind fun _ => ?_
  exact sizes_sync.bind fun _ => drop

/-- `unlinkat` leaves the inodes of open files, even if it takes their names. -/
theorem sizes_unlinkat
    (covered : floor.Covered refs)
    (referenced : 0 < refs cwd)
    {fd flag : Int}
    {path : List UInt8} :
    KeepsSizes floor refs (unlinkat sblock env cwd fd path flag)
      fun _ => refs := by
  unfold unlinkat
  refine keepsSizes_ite keepsSizes_throw ?_
  refine keepsSizes_ite (keepsSizes_pure rfl) ?_
  refine sizes_beginOp.bind fun _ => ?_
  refine (sizes_namex covered referenced).bind fun found => ?_
  cases found with
  | none => exact keepsSizes_pure rfl
  | some pair =>
      rcases pair with ⟨dp, name⟩
      refine sizes_lock.bind fun _ => ?_
      refine keepsSizes_ite (sizes_unlinkBad covered) ?_
      refine sizes_reads.bind fun entry => ?_
      cases entry with
      | none => exact sizes_unlinkBad covered
      | some place =>
          refine (sizes_get (covered.plus dp)).bind fun ip => ?_
          refine sizes_lock.bind fun _ => sizes_entry.bind fun _ => ?_
          refine keepsSizes_ite keepsSizes_throw ?_
          refine sizes_isFullDirectory.bind fun full => ?_
          refine keepsSizes_ite ?_ (sizes_unlinkEntry covered)
          exact sizes_unlockPut (covered.plus dp) (sizes_unlinkBad covered)

end Calls

/-! ## Open files -/

/-- The file is open for an inode, and not for a device. -/
structure OpensFile (system : System) (f : Nat) : Prop where
  isOpen : (system.files f).ref ≠ 0
  isInode : (system.files f).type = .inode
  notDevice :
    (system.table.nodes (system.files f).object).entry.type ≠ inodeDevice

/-- The offset is not behind the end of the file. -/
def Inside (system : System) (f : Nat) : Prop :=
  (system.files f).off ≤
    (system.table.nodes (system.files f).object).entry.numBytes.toNat

/-- The inodes on the list are read, and the offsets are inside. -/
structure Sound (system : System) : Prop where
  valid :
    ∀ address ∈ system.table.head,
      (system.table.nodes address).valid = true
  inside : ∀ f, OpensFile system f → Inside system f

/-- What is known of the inodes of open files. -/
def floorOf (system : System) : Floor where
  held := fun address => ∃ f, OpensInode address (system.files f)
  type := fun address => (system.table.nodes address).entry.type
  size := fun address =>
    (system.table.nodes address).entry.numBytes.toNat

section Sound

variable
    {root : Nat}
    {spare : Spare}
    {system target : System}
    {f : Nat}

/-- An open file is a reference to its inode. -/
theorem fileRefs_pos
    (kept : Kept root spare system)
    {address : Nat}
    (held : (floorOf system).held address) :
    0 < fileRefs system.files address := by
  rcases held with ⟨f, opens⟩
  have below : f < nfile := kept.below_of_open opens.1
  have here :=
    Finset.add_sum_erase (Finset.range nfile)
      (fun g => if OpensInode address (system.files g) then 1 else 0)
      (Finset.mem_range.mpr below)
  rw [if_pos opens] at here
  rw [fileRefs]
  omega

theorem covered_floorOf
    (kept : Kept root spare system)
    (spares : Nat → Nat) :
    (floorOf system).Covered (total root system spares) := by
  intro address held
  have positive := fileRefs_pos kept held
  simp only [total, inodeRefs]
  omega

/-- The working directories are no open files. -/
theorem covered_without
    (kept : Kept root spare system)
    {this : Nat}
    (runs : this ∈ system.live) :
    (floorOf system).Covered fun address =>
      total root system spare.inodes address -
        if address = (system.procs this).cwd then 1 else 0 := by
  intro address held
  have files := fileRefs_pos kept held
  have cwd := cwdRefs_pos runs
  by_cases same : address = (system.procs this).cwd
  · subst same
    simp only [total, inodeRefs, if_true]
    omega
  · simp only [total, inodeRefs, if_neg same]
    omega

theorem Sound.sized
    (kept : Kept root spare system)
    (sound : Sound system) :
    Sized (floorOf system) system.table := by
  refine ⟨sound.valid, fun address held => ?_⟩
  have positive := covered_floorOf kept spare.inodes address held
  exact ⟨sound.valid address (kept.inodes.listed address positive), rfl,
    Nat.le_refl _⟩

/-- The inodes of open files have not shrunk. -/
theorem Sound.setTable
    (sound : Sound system)
    {table : InodeTable.State}
    (sized : Sized (floorOf system) table) :
    Sound { system with table := table } := by
  refine ⟨sized.valid, fun f opens => ?_⟩
  have grown :=
    sized.atLeast (system.files f).object
      ⟨f, opens.isOpen, opens.isInode, rfl⟩
  have before : OpensFile system f :=
    ⟨opens.isOpen, opens.isInode, fun device =>
      opens.notDevice (grown.type.trans device)⟩
  exact (sound.inside f before).trans grown.size

/-- The same files on the same inodes. -/
theorem Sound.congr
    (sound : Sound system)
    (table : target.table = system.table)
    (files : target.files = system.files) :
    Sound target := by
  constructor
  · rw [table]
    exact sound.valid
  · intro f opens
    have before : OpensFile system f := by
      rcases opens with ⟨isOpen, isInode, notDevice⟩
      rw [files] at isOpen isInode notDevice
      rw [table] at notDevice
      exact ⟨isOpen, isInode, notDevice⟩
    have inside := sound.inside f before
    unfold Inside at inside ⊢
    rw [files, table]
    exact inside

/-- One reference more changes no size. -/
theorem Sound.share
    (sound : Sound system)
    (address : Nat) :
    Sound { system with table := inodeShare address system.table } := by
  have valid :
      ∀ other,
        ((inodeShare address system.table).nodes other).valid =
          (system.table.nodes other).valid := by
    intro other
    simp only [inodeShare]
    by_cases same : other = address
    · subst same
      rw [Function.update_self]
    · rw [Function.update_of_ne same]
  have entry :
      ∀ other,
        ((inodeShare address system.table).nodes other).entry =
          (system.table.nodes other).entry := by
    intro other
    simp only [inodeShare]
    by_cases same : other = address
    · subst same
      rw [Function.update_self]
    · rw [Function.update_of_ne same]
  constructor
  · intro other member
    exact (valid other).trans (sound.valid other member)
  · intro f opens
    have before : OpensFile system f :=
      ⟨opens.isOpen, opens.isInode, entry _ ▸ opens.notDevice⟩
    unfold Inside
    dsimp only
    rw [entry]
    exact sound.inside f before

/-- One file is overwritten. -/
theorem Sound.setFile
    (sound : Sound system)
    {file : File}
    (inside :
      file.ref ≠ 0 → file.type = .inode →
        (system.table.nodes file.object).entry.type ≠ inodeDevice →
        file.off ≤
          (system.table.nodes file.object).entry.numBytes.toNat) :
    Sound { system with files := Function.update system.files f file } := by
  refine ⟨sound.valid, fun g opens => ?_⟩
  rcases opens with ⟨isOpen, isInode, notDevice⟩
  unfold Inside
  dsimp only at isOpen isInode notDevice ⊢
  by_cases same : g = f
  · subst same
    rw [Function.update_self] at isOpen isInode notDevice ⊢
    exact inside isOpen isInode notDevice
  · rw [Function.update_of_ne same] at isOpen isInode notDevice ⊢
    exact sound.inside g ⟨isOpen, isInode, notDevice⟩

/-- A file which is open stays open, with another number of references. -/
theorem Sound.setRef
    (sound : Sound system)
    (before :
      (system.files f).type = .inode → (system.files f).ref ≠ 0)
    (ref : Int) :
    Sound
      { system with
        files :=
          Function.update system.files f
            { system.files f with ref := ref } } :=
  sound.setFile fun _ isInode notDevice =>
    sound.inside f ⟨before isInode, isInode, notDevice⟩

end Sound

section Programs

variable
    {sblock : SuperBlock}
    {env : Env}
    {root this : Nat}
    {spare : Spare}
    {system : System}
    {Value : Type}

/-- A program of the file system, with the references which it changes. -/
theorem ensures_sized
    (kept : Kept root spare system)
    (sound : Sound system)
    {refs : Nat → Nat}
    (counted : Counted refs system.table)
    {program : TableProgram Value}
    {after : Value → Nat → Nat}
    (keeps : KeepsSizes (floorOf system) refs program after)
    {post : Value → System → Prop}
    (next :
      ∀ value table, Counted (after value) table →
        Sound { system with table := table } →
        post value { system with table := table }) :
    Ensures (fun _ => True) (onTable program) system post := by
  refine ensures_onTable ?_
  refine (keeps system.table counted (sound.sized kept)).mono ?_
  exact fun value table left =>
    next value table left.1 (sound.setTable left.2)

/-- A change of what is neither a file nor in the file system. -/
theorem sound_modify
    (sound : Sound system)
    {change : System → System}
    (table : (change system).table = system.table)
    (files : (change system).files = system.files) :
    Ensures (fun _ => True) (modify change : KernelProgram Unit) system
      fun _ target => Sound target :=
  sound.congr table files

theorem sound_setFile
    (sound : Sound system)
    {f : Nat}
    {file : File}
    (inside :
      file.type = .inode →
        (system.table.nodes file.object).entry.type ≠ inodeDevice →
        file.off ≤
          (system.table.nodes file.object).entry.numBytes.toNat) :
    Ensures (fun _ => True) (setFile f file) system fun _ target =>
      Sound target :=
  sound.setFile fun _ => inside

/-- `file_close` -/
theorem sound_fileClose
    (kept : Kept root spare system)
    (sound : Sound system)
    {f : Nat} :
    Ensures (fun _ => True) (fileClose sblock env f) system
      fun _ target => Sound target := by
  unfold fileClose
  rw [ensures_bind, ensures_getFile]
  refine ensures_ite (fun _ => trivial) ?_
  intro isOpen
  refine ensures_ite ?_ ?_
  · intro others
    rw [ensures_setFile]
    exact sound.setRef (fun _ => by omega) _
  · intro last
    rw [ensures_bind, ensures_setFile]
    let file : File :=
      { system.files f with
        ref := (system.files f).ref - 1
        type := .none }
    have closed :
        Sound
          { system with
            files := Function.update system.files f file } :=
      sound.setFile fun _ isInode => by cases isInode
    cases type : (system.files f).type with
    | none => exact closed
    | pipe => exact closed.congr rfl rfl
    | inode =>
        have zero : file.ref = 0 := by
          change (system.files f).ref - 1 = 0
          omega
        have dropped := kept.dropInode (by omega) type zero rfl
        have counted := dropped.inodes
        rw [← plus_total] at counted
        have covered := covered_floorOf dropped spare.inodes
        exact ensures_sized dropped closed counted
          (sizes_beginOp.bind fun _ => sizes_put covered)
          fun _ _ _ sound => sound

theorem sound_unlockPut
    {inodes : Nat → Nat}
    {ip : Nat}
    (kept : Kept root { spare with inodes := plus inodes ip } system)
    (sound : Sound system) :
    Ensures (fun _ => True) (unlockPut sblock ip) system
      fun _ target => Sound target := by
  have counted := kept.inodes
  rw [← plus_total] at counted
  have covered := covered_floorOf kept inodes
  exact ensures_sized kept sound counted
    (sizes_unlock.bind fun _ => sizes_put covered)
    fun _ _ _ sound => sound

theorem sound_openFile
    {inodes : Nat → Nat}
    {ip : Nat}
    (kept : Kept root { spare with inodes := plus inodes ip } system)
    (sound : Sound system)
    (runs : this ∈ system.live)
    {omode : BitVec 32} :
    Ensures (fun _ => True) (openFile sblock env this ip omode) system
      fun _ target => Sound target := by
  unfold openFile
  rw [ensures_bind]
  refine ensures_fileAlloc kept ?_ ?_
  · dsimp only
    rw [ensures_bind]
    exact sound_unlockPut kept sound
  · intro f below unused free allocated
    have opened := sound.setRef (f := f) (by simp [free]) 1
    dsimp only
    rw [ensures_bind]
    refine ensures_fdalloc allocated runs ?_ ?_
    · intro _
      dsimp only
      rw [ensures_bind]
      refine ((ensures_fileClose allocated).and
        (sound_fileClose allocated opened)).mono ?_
      rintro _ target ⟨closed, soundly⟩
      rw [ensures_bind]
      have left :
          Kept root { spare with inodes := plus inodes ip } target := by
        refine closed.congr (fun g => ?_) fun _ => rfl
        simp only [Spare.addFile]
        split_ifs <;> omega
      exact sound_unlockPut left soundly
    · intro fd _ linked
      dsimp only
      rw [ensures_bind]
      refine ensures_sized linked (opened.congr rfl rfl) linked.inodes
        sizes_unlock ?_
      intro _ table _ unlocked
      simp only [ensures_bind, ensures_getFile, ensures_setFile,
        ensures_pure]
      exact unlocked.setFile fun _ _ _ => Nat.zero_le _

theorem sound_openat
    (kept : Kept root spare system)
    (sound : Sound system)
    (runs : this ∈ system.live)
    {dirfd : Int}
    {path : List UInt8}
    {omode : BitVec 32} :
    Ensures (fun _ => True) (openat sblock env this dirfd path omode)
      system fun _ target => Sound target := by
  unfold openat
  refine ensures_ite (fun _ => sound) fun _ => ?_
  refine ensures_ite (fun _ => sound) fun _ => ?_
  rw [ensures_bind, ensures_get]
  dsimp only
  rw [ensures_bind]
  have covered := covered_floorOf kept spare.inodes
  refine ensures_sized kept sound kept.inodes
    (sizes_openInode covered (total_cwd_pos _ _ runs)) ?_
  intro found table counted soundly
  cases found with
  | none => exact soundly
  | some ip =>
      change Counted (plus _ ip) table at counted
      rw [plus_total] at counted
      have held :
          Kept root { spare with inodes := plus spare.inodes ip }
            { system with table := table } :=
        kept.setTable counted
      exact sound_openFile held soundly runs

/-- A program of the file system which keeps the references. -/
theorem sound_onTable
    (kept : Kept root spare system)
    (sound : Sound system)
    {program : TableProgram Value}
    {after : Value → Nat → Nat}
    (keeps :
      KeepsSizes (floorOf system) (total root system spare.inodes) program
        after) :
    Ensures (fun _ => True) (onTable program) system fun _ target =>
      Sound target :=
  ensures_sized kept sound kept.inodes keeps fun _ _ _ sound => sound

theorem sound_dup
    (kept : Kept root spare system)
    (sound : Sound system)
    (runs : this ∈ system.live)
    {fd : Int} :
    Ensures (fun _ => True) (dup this fd) system fun _ target =>
      Sound target := by
  unfold dup
  rw [ensures_bind, ensures_fd2file]
  cases slotOf (system.procs this) fd with
  | none => exact sound
  | some f =>
      dsimp only
      rw [ensures_bind]
      refine ensures_fdalloc kept runs (fun _ => sound) ?_
      intro free _ linked
      dsimp only
      rw [ensures_bind]
      refine ensures_fileDup linked ?_
      intro _
      have linkedly :
          Sound
            { system with
              procs :=
                Function.update system.procs this
                  { system.procs this with
                    openfile :=
                      Function.update (system.procs this).openfile free
                        (some f) } } :=
        sound.congr rfl rfl
      refine linkedly.setRef (fun isInode closed => ?_) _
      exact absurd ((kept.closed f closed).symm.trans isInode) (by decide)

theorem sound_close
    (kept : Kept root spare system)
    (sound : Sound system)
    (runs : this ∈ system.live)
    {fd : Int} :
    Ensures (fun _ => True) (close sblock env this fd) system
      fun _ target => Sound target := by
  unfold close
  rw [ensures_bind, ensures_fd2file]
  by_cases inside : 0 ≤ fd ∧ fd < noFile
  · rw [dif_pos inside, ensures_bind, ensures_setSlot]
    cases slotOf (system.procs this) fd with
    | none => exact trivial
    | some f =>
        dsimp only
        rw [ensures_bind]
        exact sound_fileClose
          (kept.setSlot runs ⟨fd.toNat, by omega⟩ none)
          (sound.congr rfl rfl)
  · rw [dif_neg inside]
    exact trivial

theorem sound_chdir
    (kept : Kept root spare system)
    (sound : Sound system)
    (runs : this ∈ system.live)
    {path : List UInt8} :
    Ensures (fun _ => True) (chdir sblock env this path) system
      fun _ target => Sound target := by
  have counted := kept.inodes
  rw [← plus_without root spare.inodes runs] at counted
  unfold chdir
  rw [ensures_bind, ensures_get]
  dsimp only
  rw [ensures_bind]
  refine ensures_sized kept sound counted
    (sizes_chdirTo (covered_without kept runs)) ?_
  intro found table _ soundly
  cases found with
  | none => exact soundly
  | some ip => exact soundly.congr rfl rfl

theorem sound_execve
    (kept : Kept root spare system)
    (sound : Sound system)
    (runs : this ∈ system.live)
    {path : List UInt8}
    {loads : Bool} :
    Ensures (fun _ => True)
      (onTable
        (execve sblock env (system.procs this).cwd path loads))
      system fun _ target => Sound target :=
  sound_onTable kept sound
    (sizes_execve (covered_floorOf kept _) (total_cwd_pos _ _ runs))

theorem sound_fileDup
    (sound : Sound system)
    {f : Nat} :
    Ensures (fun _ => True) (fileDup f) system fun _ target =>
      Sound target := by
  unfold fileDup
  rw [ensures_bind, ensures_getFile]
  refine ensures_ite (fun _ => trivial) ?_
  intro isOpen
  rw [ensures_setFile]
  exact sound.setRef (fun _ => by omega) _

/-- `fork` hands references on. -/
theorem sound_fork
    (sound : Sound system)
    {child : Nat} :
    Ensures (fun _ => True) (fork this child) system fun _ target =>
      Sound target := by
  have slot :
      ∀ (fds : List (Fin noFile)) (start : System), Sound start →
        Ensures (fun _ => True)
          (fds.foldlM (fun _ fd => forkSlot this child fd) ()) start
          fun _ target => Sound target := by
    intro fds
    induction fds with
    | nil => exact fun start soundly => soundly
    | cons fd rest ih =>
        intro start soundly
        rw [List.foldlM_cons, ensures_bind]
        unfold forkSlot
        rw [ensures_bind, ensures_get]
        cases (start.procs this).openfile fd with
        | none => exact ih start soundly
        | some f =>
            dsimp only
            rw [ensures_bind]
            refine (sound_fileDup soundly).mono fun _ middle dupped => ?_
            rw [ensures_setSlot]
            exact ih _ (dupped.congr rfl rfl)
  unfold fork
  rw [ensures_bind, ensures_get, ensures_bind, ensures_modify,
    ensures_bind]
  have begun :
      Sound
        { system with
          procs :=
            Function.update system.procs child
              { openfile := fun _ => none, cwd := 0 } } :=
    sound.congr rfl rfl
  refine (slot (List.finRange noFile) _ begun).mono ?_
  intro _ middle soundly
  rw [ensures_bind]
  refine ensures_onTable ?_
  exact (soundly.share (system.procs this).cwd).congr rfl rfl

/-- The ends of a pipe are files without an offset. -/
theorem sound_pipeAlloc
    (kept : Kept root spare system)
    (sound : Sound system)
    {page : Option Nat} :
    Ensures (fun _ => True) (pipeAlloc sblock env page) system
      fun _ target => Sound target := by
  unfold pipeAlloc
  rw [ensures_bind]
  refine ensures_fileAlloc kept sound ?_
  intro rf _ _ readerFree first
  have firstly := sound.setRef (f := rf) (by simp [readerFree]) 1
  dsimp only
  rw [ensures_bind]
  refine ensures_fileAlloc first ?_ ?_
  · dsimp only
    rw [ensures_bind]
    exact sound_fileClose first firstly
  · intro wf _ _ writerFree second
    have secondly :=
      firstly.setRef (f := wf)
        (fun isInode => absurd (writerFree.symm.trans isInode) (by decide))
        1
    dsimp only
    cases page with
    | none =>
        dsimp only
        rw [ensures_bind]
        refine ((ensures_fileClose second).and
          (sound_fileClose second secondly)).mono ?_
        rintro _ middle ⟨closedReader, closedly⟩
        rw [ensures_bind]
        exact sound_fileClose closedReader closedly
    | some pi =>
        dsimp only
        rw [ensures_bind]
        refine (sound_modify secondly rfl rfl).mono fun _ piped soundly => ?_
        rw [ensures_bind, ensures_getFile, ensures_bind]
        refine (sound_setFile soundly fun type => by cases type).mono ?_
        intro _ reader soundly
        rw [ensures_bind, ensures_getFile, ensures_bind]
        exact sound_setFile soundly fun type => by cases type

/-- `pipe2` -/
theorem sound_pipe2
    (kept : Kept root spare system)
    (sound : Sound system)
    (runs : this ∈ system.live)
    {flags : Int}
    {page : Option Nat}
    (fresh : ∀ pi ∈ page, pi ∉ system.allocated) :
    Ensures (fun _ => True) (pipe2 sblock env this flags page) system
      fun _ target => Sound target := by
  unfold pipe2
  refine ensures_ite (fun _ => sound) fun _ => ?_
  rw [ensures_bind]
  refine ((ensures_pipeAlloc kept fresh).and
    (sound_pipeAlloc kept sound)).mono ?_
  rintro ends start ⟨made, soundly⟩
  cases ends with
  | none => exact soundly
  | some pair =>
      rcases pair with ⟨rf, wf⟩
      rcases made with ⟨held, live⟩
      have runsHere : this ∈ start.live := live ▸ runs
      have dropped :
          ∀ {others : Spare} {state : System}, Kept root others state →
            Sound state →
            Ensures (fun _ => True)
              (do
                fileClose sblock env rf
                fileClose sblock env wf
                return (-1 : Int)) state
              fun _ target => Sound target := by
        intro others state holds soundly
        rw [ensures_bind]
        refine ((ensures_fileClose holds).and
          (sound_fileClose holds soundly)).mono ?_
        rintro _ middle ⟨closedReader, soundly⟩
        rw [ensures_bind]
        exact sound_fileClose closedReader soundly
      dsimp only
      rw [ensures_bind]
      refine ensures_fdalloc held runsHere ?_ ?_
      · intro _
        rw [ensures_bind]
        refine ensures_fdalloc held runsHere ?_ ?_
        · exact fun _ => dropped held soundly
        · exact fun wfd _ linked => dropped linked (soundly.congr rfl rfl)
      · intro rfd _ linked
        rw [ensures_bind]
        refine ensures_fdalloc linked runsHere ?_ ?_
        · intro _
          dsimp only
          rw [ensures_bind, ensures_setSlot]
          exact dropped (linked.setSlot runsHere rfd none)
            (soundly.congr rfl rfl)
        · exact fun wfd _ _ => soundly.congr rfl rfl

end Programs

/-! ## Reading and writing -/

section Transfers

variable
    {sblock : SuperBlock}
    {env : Env}
    {root this : Nat}
    {spare : Spare}
    {system : System}
    {f : Nat}
    {Value : Type}

/-- `inode_read` stays inside the file. -/
theorem ensures_inodeRead_inside
    {console : ConsoleRead}
    {inode : Inode}
    {offset count : Nat}
    {store : Store}
    (notDevice : inode.entry.type ≠ inodeDevice)
    (bounded : count < usizeModulus) :
    Ensures (fun _ => True) (inodeRead sblock console inode offset count)
      store fun result _ =>
        offset + result.1 ≤ inode.entry.numBytes.toNat := by
  have modulus : usizeModulus = 2 ^ 64 := rfl
  have rest :
      ∀ taken, taken < usizeModulus →
        Ensures (fun _ => True)
          (do
            InodeLayer.assert
              (decide (offset ≤ inode.entry.numBytes.toNat))
            InodeLayer.assert
              (decide
                ((offset + taken) % usizeModulus ≤
                  inode.entry.numBytes.toNat))
            InodeLayer.assert
              (decide (offset ≤ (offset + taken) % usizeModulus))
            let bytes ←
              readLoop sblock inode ((offset + taken) % usizeModulus)
                ((offset + taken) % usizeModulus - offset) offset
            return (taken, bytes)) store fun result _ =>
              offset + result.1 ≤ inode.entry.numBytes.toNat := by
    intro taken small
    simp only [ensures_bind, ensures_pure]
    refine ensures_assert_of (Or.inl trivial) fun begins => ?_
    refine ensures_assert_of (Or.inl trivial) fun ends => ?_
    refine ensures_assert_of (Or.inl trivial) fun forward => ?_
    refine ensures_true.mono fun _ _ _ => ?_
    have size := inode.entry.numBytes.toNat_lt
    have start := of_decide_eq_true begins
    have finish := of_decide_eq_true ends
    have later := of_decide_eq_true forward
    by_cases wraps : offset + taken < usizeModulus
    · rwa [Nat.mod_eq_of_lt wraps] at finish
    · have back :
          (offset + taken) % usizeModulus =
            offset + taken - usizeModulus := by
        rw [Nat.mod_eq_sub_mod (by omega), Nat.mod_eq_of_lt (by omega)]
      omega
  unfold inodeRead
  rw [if_neg notDevice]
  refine rest _ ?_
  split_ifs
  · exact Nat.mod_lt _ (by decide)
  · exact bounded

/-- `inode_write` reaches the end of what it has written. -/
theorem ensures_inodeWrite_reaches
    {inode : Inode}
    {src : List UInt8}
    {offset : Nat}
    {store : Store}
    (valid : inode.valid = true)
    (notDevice : inode.entry.type ≠ inodeDevice)
    (small : src.length ≤ maxbytes) :
    Ensures (fun _ => True) (inodeWrite sblock inode src offset) store
      fun result _ =>
        offset + result.2 ≤ result.1.entry.numBytes.toNat := by
  have modulus : usizeModulus = 2 ^ 64 := rfl
  have bound : maxbytes = 1536 := rfl
  have limit : inodeMaxBytes = 71680 := rfl
  have size := inode.entry.numBytes.toNat_lt
  have rest :
      ∀ sized : Inode, ∀ finish store,
        AtLeast inode.entry.type finish sized →
          offset + src.length = finish →
          Ensures (fun _ => True)
            (do
              let inode ←
                writeLoop sblock finish (finish - offset) sized src offset
              return (inode, src.length)) store fun result _ =>
                offset + result.2 ≤ result.1.entry.numBytes.toNat := by
    intro sized finish store grown same
    rw [ensures_bind]
    refine (endsAtLeast_writeLoop grown store).mono fun written _ left => ?_
    rw [ensures_pure, same]
    exact left.size
  unfold inodeWrite
  rw [if_neg notDevice]
  simp only [ensures_bind]
  refine ensures_assert_of (Or.inl trivial) fun begins => ?_
  refine ensures_assert_of (Or.inl trivial) fun ends => ?_
  refine ensures_assert_of (Or.inl trivial) fun _ => ?_
  have start := of_decide_eq_true begins
  have fits := of_decide_eq_true ends
  have whole :
      (offset + src.length) % usizeModulus = offset + src.length :=
    Nat.mod_eq_of_lt (by omega)
  rw [whole] at fits ⊢
  have stored :
      (UInt32.ofNat (offset + src.length)).toNat = offset + src.length := by
    rw [UInt32.toNat_ofNat']
    exact Nat.mod_eq_of_lt (by omega)
  refine ensures_ite ?_ ?_
  · intro _
    have changed :
        AtLeast inode.entry.type (offset + src.length)
          (inode.setNumBytes (offset + src.length)) :=
      ⟨valid, rfl, stored.ge⟩
    rw [ensures_bind]
    refine (endsAtLeast_inodeSync changed store).mono ?_
    exact fun sized after grown => rest sized _ after grown rfl
  · intro short
    rw [ensures_bind, ensures_pure]
    exact rest inode _ store ⟨valid, rfl, Nat.le_of_not_lt short⟩ rfl

/-- Behind what has been read there is no end of the file. -/
theorem ensures_read_inside
    {state : InodeTable.State}
    {address offset count : Nat}
    (bounded : count < usizeModulus) :
    Ensures (fun _ => True)
      (Inodes.read sblock env address offset count) state
      fun result target =>
        (target.nodes address).entry.type ≠ inodeDevice →
          offset + result.1 ≤
            (target.nodes address).entry.numBytes.toNat := by
  by_cases device : (state.nodes address).entry.type = inodeDevice
  · have same :
        Ensures (fun _ => True)
          (Inodes.read sblock env address offset count) state
          fun _ target => target.nodes = state.nodes := by
      unfold Ensures Inodes.read Inodes.reads Inodes.onStore StateT.run
      dsimp only
      cases (inodeRead sblock env.console (state.nodes address) offset
        count) state.store with
      | error stop => trivial
      | ok result => rfl
    refine same.mono fun _ target nodes notDevice => ?_
    rw [nodes] at notDevice
    exact absurd device notDevice
  · have inside :
        Ensures (fun _ => True)
          (inodeRead sblock env.console (state.nodes address) offset count)
          state.store fun result _ =>
            offset + result.1 ≤
              (state.nodes address).entry.numBytes.toNat :=
      ensures_inodeRead_inside device bounded
    unfold Ensures StateT.run at inside
    unfold Ensures Inodes.read Inodes.reads Inodes.onStore StateT.run
    dsimp only
    revert inside
    cases (inodeRead sblock env.console (state.nodes address) offset
      count) state.store with
    | error stop => exact fun _ => trivial
    | ok result => exact fun inside _ => inside

theorem ensures_write_inside
    {state : InodeTable.State}
    {address offset : Nat}
    {src : List UInt8}
    (valid : (state.nodes address).valid = true)
    (small : src.length ≤ maxbytes) :
    Ensures (fun _ => True) (Inodes.write sblock address src offset) state
      fun count target =>
        (target.nodes address).entry.type ≠ inodeDevice →
          offset + count ≤
            (target.nodes address).entry.numBytes.toNat := by
  by_cases device : (state.nodes address).entry.type = inodeDevice
  · have same :
        Inodes.write sblock address src offset state =
          .ok (src.length, { state with
            nodes :=
              Function.update state.nodes address
                (state.nodes address) }) := by
      have wrote :
          inodeWrite sblock (state.nodes address) src offset =
            pure (state.nodes address, src.length) := by
        unfold inodeWrite
        rw [if_pos device]
      unfold Inodes.write Inodes.changes
      dsimp only
      rw [wrote]
      rfl
    unfold Ensures StateT.run
    rw [same, Function.update_eq_self]
    exact fun notDevice => absurd device notDevice
  · have reaches :
        Ensures (fun _ => True)
          (inodeWrite sblock (state.nodes address) src offset) state.store
          fun result _ =>
            offset + result.2 ≤ result.1.entry.numBytes.toNat :=
      ensures_inodeWrite_reaches valid device small
    unfold Ensures StateT.run at reaches
    unfold Ensures Inodes.write Inodes.changes StateT.run
    dsimp only
    revert reaches
    cases (inodeWrite sblock (state.nodes address) src offset)
      state.store with
    | error stop => exact fun _ => trivial
    | ok result =>
        intro reaches _
        dsimp only
        rw [Function.update_self]
        exact reaches

/-- The counts and the offsets are right, and a file is one of an inode. -/
structure Good
    (root : Nat)
    (spare : Spare)
    (f : Nat)
    (system : System) : Prop where
  kept : Kept root spare system
  sound : Sound system
  isInode : (system.files f).type = .inode

theorem Good.isOpen
    (good : Good root spare f system) :
    (system.files f).ref ≠ 0 := by
  intro closed
  have none := good.kept.closed f closed
  exact absurd (none.symm.trans good.isInode) (by decide)

/-- A program of the file system which keeps the references. -/
theorem Good.onTable
    (good : Good root spare f system)
    {program : TableProgram Value}
    (keeps :
      KeepsSizes (floorOf system) (total root system spare.inodes) program
        fun _ => total root system spare.inodes)
    {fact : Value → InodeTable.State → Prop}
    (found :
      Ensures (fun _ => True) program system.table fact)
    {post : Value → System → Prop}
    (next :
      ∀ value table, fact value table →
        Good root spare f { system with table := table } →
        post value { system with table := table }) :
    Ensures (fun _ => True) (SysFile.onTable program) system post := by
  refine FileRefs.ensures_onTable ?_
  refine ((keeps system.table good.kept.inodes
    (good.sound.sized good.kept)).and found).mono ?_
  rintro value table ⟨⟨counted, sized⟩, holds⟩
  exact next value table holds
    ⟨good.kept.setTable counted, good.sound.setTable sized, good.isInode⟩

theorem Good.keeps
    (good : Good root spare f system)
    {program : TableProgram Value}
    (keeps :
      KeepsSizes (floorOf system) (total root system spare.inodes) program
        fun _ => total root system spare.inodes) :
    Ensures (fun _ => True) (SysFile.onTable program) system
      fun _ target => Good root spare f target ∧
        target.files = system.files :=
  good.onTable keeps
    (show Ensures _ program system.table fun _ _ => True from ensures_true)
    fun _ _ _ still => ⟨still, rfl⟩

-- The unifier would compute in the arithmetic of `isize`.
attribute [local irreducible] isize

/-- The offset moves inside the file. -/
theorem Good.addOff
    (good : Good root spare f system)
    {count : Nat}
    (inside :
      (system.table.nodes (system.files f).object).entry.type ≠
          inodeDevice →
        (system.files f).off + count ≤
          (system.table.nodes
            (system.files f).object).entry.numBytes.toNat) :
    Ensures (fun _ => True) (addOff f count) system
      fun _ target => Good root spare f target := by
  unfold FileCalls.addOff
  refine ensures_ite (fun _ => ?_) fun _ => good
  rw [ensures_bind, ensures_getFile, ensures_setFile]
  refine ⟨?_, ?_, ?_⟩
  · have moved :=
      good.kept.setFile (good.kept.below_of_open good.isOpen)
        { system.files f with
          off := ((system.files f).off + count) % usizeModulus }
        spare.inodes (fun _ => rfl) (good.kept.closed f)
        (good.kept.pipes.update (good.isInode ▸ by decide)
          (good.isInode ▸ by decide))
    refine moved.congr (fun g => ?_) fun _ => rfl
    simp [Spare.addFile]
  · refine good.sound.setFile fun _ _ notDevice => ?_
    exact (Nat.mod_le _ _).trans (inside notDevice)
  · dsimp only
    rw [Function.update_self]
    exact good.isInode

/-- The part of `file_read` for inodes. -/
theorem Good.readInode
    (good : Good root spare f system)
    {n : Int} :
    Ensures (fun _ => True) (readInode sblock env f n) system
      fun _ target => Good root spare f target := by
  have small : usize n < usizeModulus := by
    have below : n % (usizeModulus : Int) < usizeModulus :=
      Int.emod_lt_of_pos n (by decide)
    have positive : 0 < usizeModulus := by decide
    unfold usize
    omega
  unfold FileCalls.readInode
  rw [ensures_bind, ensures_getFile, ensures_bind]
  refine (good.keeps sizes_lock).mono ?_
  rintro _ locked ⟨held, sameFiles⟩
  rw [ensures_bind, ← sameFiles]
  refine held.onTable sizes_reads (ensures_read_inside small) ?_
  intro result table reached after
  rw [ensures_bind]
  refine (after.addOff reached).mono fun _ moved still => ?_
  rw [ensures_bind]
  exact (still.keeps sizes_unlock).mono fun _ _ last => last.1

/-- One transaction of `file_write`. -/
theorem Good.writeChunk
    (good : Good root spare f system)
    {chunk : List UInt8}
    (small : chunk.length ≤ maxbytes) :
    Ensures (fun _ => True) (writeChunk sblock env f chunk) system
      fun _ target => Good root spare f target := by
  unfold FileCalls.writeChunk
  rw [ensures_bind]
  refine (good.keeps sizes_beginOp).mono ?_
  rintro _ begun ⟨opened, -⟩
  rw [ensures_bind, ensures_getFile, ensures_bind]
  refine (opened.keeps sizes_lock).mono ?_
  rintro _ locked ⟨held, sameFiles⟩
  rw [ensures_bind, ← sameFiles]
  have valid :
      (locked.table.nodes (locked.files f).object).valid = true :=
    ((held.sound.sized held.kept).atLeast _
      ⟨f, held.isOpen, held.isInode, rfl⟩).valid
  refine held.onTable sizes_write (ensures_write_inside valid small) ?_
  intro count table reached after
  rw [ensures_bind]
  refine (after.addOff reached).mono fun _ moved still => ?_
  rw [ensures_bind]
  exact (still.keeps sizes_unlock).mono fun _ _ last => last.1

/-- The loop of `file_write`. -/
theorem Good.writeChunks
    {fuel : Nat}
    {bytes : List UInt8}
    (good : Good root spare f system) :
    Ensures (fun _ => True) (writeChunks sblock env f fuel bytes) system
      fun _ target => Good root spare f target := by
  induction fuel generalizing system bytes with
  | zero => exact good
  | succ fuel ih =>
      unfold FileCalls.writeChunks
      refine ensures_ite (fun _ => good) fun _ => ?_
      dsimp only
      rw [ensures_bind]
      refine (good.writeChunk (List.length_take_le _ _)).mono ?_
      intro realLen middle still
      refine ensures_ite (fun _ => still) fun _ => ?_
      exact ensures_ite (fun _ => trivial) fun _ => ih still

end Transfers

/-! ## The kernel with its pipes -/

section Machine

variable
    {sblock : SuperBlock}
    {env : Env}
    {root this : Nat}
    {spare : Spare}
    {killed : Bool}
    {waits : Waits}
    {machine : Machine}
    {Value : Type}

/-- The counts and the offsets are right. -/
def Right (root : Nat) (spare : Spare) (system : System) : Prop :=
  Kept root spare system ∧ Sound system

theorem ensures_onSystem
    {program : KernelProgram Value}
    {post : Value → Machine → Prop}
    (inside :
      Ensures (fun _ => True) program machine.system fun value system =>
        post value { machine with system := system }) :
    Ensures (fun _ => True) (onSystem program) machine post := by
  unfold Ensures at inside
  unfold Ensures
  cases ran : program.run machine.system with
  | error halt =>
      rw [onSystem_error ran]
      trivial
  | ok result =>
      rw [ran] at inside
      rcases result with ⟨value, system⟩
      rw [onSystem_ok ran]
      exact inside

/-- A call on a pipe which closes no end leaves the rest alone. -/
theorem ensures_onPipe
    {pi : Nat}
    {call :
      PipeCalls.Pipe →
        Except PipeCalls.Stop (Value × List UInt8 × PipeCalls.Pipe)}
    (ends :
      ∀ value bytes pipe,
        call (machine.pipe pi) = .ok (value, bytes, pipe) →
          PipeCalls.SameEnds (machine.pipe pi) pipe) :
    Ensures (fun _ => True) (onPipe pi call) machine
      fun _ target => target.system = machine.system := by
  unfold Ensures StateT.run onPipe
  cases called : call (machine.pipe pi) with
  | error stop => trivial
  | ok result =>
      rcases result with ⟨value, bytes, pipe⟩
      have same := ends value bytes pipe called
      change { machine.system with
        pipes :=
          Function.update machine.system.pipes pi
            ⟨pipe.readopen, pipe.writeopen⟩ } = machine.system
      rw [same.readopen, same.writeopen]
      exact congrArg
        (fun pipes => { machine.system with pipes := pipes })
        (Function.update_eq_self pi machine.system.pipes)

theorem right_fileRead
    (keep : KeepEnds waits)
    (right : Right root spare machine.system)
    {f : Nat}
    {n : Int} :
    Ensures (fun _ => True) (fileRead sblock env killed waits f n) machine
      fun _ target => Right root spare target.system := by
  unfold fileRead
  rw [ensures_bind]
  refine ensures_onSystem (ensures_getFile.mpr ?_)
  refine ensures_ite (fun _ => right) fun _ => ?_
  cases type : (machine.system.files f).type with
  | none => exact trivial
  | inode =>
      have good : Good root spare f machine.system :=
        ⟨right.1, right.2, type⟩
      exact ensures_onSystem
        (good.readInode.mono fun _ _ still => ⟨still.kept, still.sound⟩)
  | pipe =>
      refine (ensures_onPipe fun _ _ _ took =>
        PipeCalls.pipeRead_ends keep took).mono fun _ target same => ?_
      rw [same]
      exact right

theorem right_fileWrite
    (keep : KeepEnds waits)
    (right : Right root spare machine.system)
    {f : Nat}
    {addr : Nat → UInt8}
    {n : Int} :
    Ensures (fun _ => True)
      (fileWrite sblock env killed waits f addr n) machine
      fun _ target => Right root spare target.system := by
  unfold fileWrite
  rw [ensures_bind]
  refine ensures_onSystem (ensures_getFile.mpr ?_)
  refine ensures_ite (fun _ => right) fun _ => ?_
  cases type : (machine.system.files f).type with
  | none => exact right
  | inode =>
      have good : Good root spare f machine.system :=
        ⟨right.1, right.2, type⟩
      dsimp only
      rw [ensures_bind]
      refine ensures_onSystem ?_
      unfold writeInode
      rw [ensures_bind]
      exact good.writeChunks.mono fun _ _ still =>
        ⟨still.kept, still.sound⟩
  | pipe =>
      refine (ensures_onPipe fun _ _ _ wrote =>
        PipeCalls.pipeWrite_ends keep wrote).mono fun _ target same => ?_
      rw [same]
      exact right

theorem right_read
    (keep : KeepEnds waits)
    (right : Right root spare machine.system)
    {fd size : Int}
    {writeable : Bool} :
    Ensures (fun _ => True)
      (FileCalls.read sblock env this killed waits fd writeable size)
      machine fun _ target => Right root spare target.system := by
  unfold FileCalls.read
  rw [ensures_bind]
  refine ensures_onSystem (ensures_fd2file.mpr ?_)
  cases slotOf (machine.system.procs this) fd with
  | none => exact right
  | some f =>
      exact ensures_ite (fun _ => right) fun _ =>
        right_fileRead keep right

theorem right_write
    (keep : KeepEnds waits)
    (right : Right root spare machine.system)
    {fd size : Int}
    {buffer : Nat → UInt8} :
    Ensures (fun _ => True)
      (FileCalls.write sblock env this killed waits fd buffer size)
      machine fun _ target => Right root spare target.system := by
  unfold FileCalls.write
  rw [ensures_bind]
  refine ensures_onSystem (ensures_fd2file.mpr ?_)
  cases slotOf (machine.system.procs this) fd with
  | none => exact right
  | some f =>
      exact ensures_ite (fun _ => right) fun _ =>
        right_fileWrite keep right

end Machine

/-! ## Runs of system calls -/

/-- The system calls of `FileRuns`, and those which look into files. -/
inductive Call where
  | files (call : FileRuns.Call)
  | unlinkat (fd : Int) (path : List UInt8) (flag : Int)
  | read (fd : Int) (writeable : Bool) (size : Int) (killed : Bool)
      (waits : Waits)
  | write (fd : Int) (buffer : Nat → UInt8) (size : Int) (killed : Bool)
      (waits : Waits)

/-- A process makes a call. -/
structure Label where
  this : Nat
  env : Env
  call : Call

/-- `init_pipe` of a new pipe, as far as its buffer goes -/
def initBuffer (machine : Machine) : FileRuns.Call → Machine
  | .pipe2 _ (some pi) =>
      { machine with
        pipes := Function.update machine.pipes pi PipeCalls.initPipe }
  | _ => machine

/-- A system call; what it returns to the process is dropped. -/
def perform (sblock : SuperBlock) (label : Label) : MachineProgram Unit :=
  match label.call with
  | .files call => do
      onSystem (FileRuns.perform sblock ⟨label.this, label.env, call⟩)
      modify fun machine => initBuffer machine call
  | .unlinkat fd path flag => do
      let cwd := ((← get).system.procs label.this).cwd
      let _ ←
        onSystem (onTable (unlinkat sblock label.env cwd fd path flag))
      return ()
  | .read fd writeable size killed waits => do
      let _ ←
        FileCalls.read sblock label.env label.this killed waits fd writeable
          size
      return ()
  | .write fd buffer size killed waits => do
      let _ ←
        FileCalls.write sblock label.env label.this killed waits fd buffer
          size
      return ()

def step (sblock : SuperBlock) (machine : Machine) (label : Label) :
    Except FileCalls.Halt Machine :=
  match (perform sblock label).run machine with
  | .ok (_, target) => .ok target
  | .error halt => .error halt

/--
The process runs, the allocators give out what is not in use, and nobody closes
an end of a pipe while a call waits on it.
-/
def Allowed (machine : Machine) (label : Label) : Prop :=
  label.this ∈ machine.system.live ∧
    match label.call with
    | .files call =>
        FileRuns.Allowed machine.system ⟨label.this, label.env, call⟩
    | .read _ _ _ _ waits => KeepEnds waits
    | .write _ _ _ _ waits => KeepEnds waits
    | .unlinkat _ _ _ => True

section Runs

variable
    {sblock : SuperBlock}
    {env : Env}
    {root : Nat}
    {spare : Spare}
    {system target : System}
    {machine after : Machine}

/-- Nobody has a file. -/
def nobody : Floor := ⟨fun _ => False, fun _ => 0, fun _ => 0⟩

theorem sound_boot
    {first : Nat}
    (store : Store)
    (nodes : Nat → Inode) :
    Ensures (fun _ => True) (FileRuns.boot sblock env first)
      (FileRuns.unbooted store nodes) fun _ target => Sound target := by
  have covered : ∀ refs, nobody.Covered refs :=
    fun _ _ held => absurd held id
  have counted :
      Counted (fun _ => 0) (FileRuns.unbooted store nodes).table :=
    ⟨fun address member => absurd member List.not_mem_nil,
      fun address positive => absurd positive (Nat.lt_irrefl 0)⟩
  have sized : Sized nobody (FileRuns.unbooted store nodes).table :=
    ⟨fun address member => absurd member List.not_mem_nil,
      fun _ held => absurd held id⟩
  unfold FileRuns.boot
  rw [ensures_bind]
  refine ensures_onTable ((sizes_get (covered _) _ counted sized).mono ?_)
  rintro root table ⟨counted, sized⟩
  rw [ensures_bind]
  refine ensures_onTable ((sizes_beginOp _ counted sized).mono ?_)
  rintro _ middle ⟨counted, sized⟩
  rw [ensures_bind]
  refine ensures_onTable
    ((sizes_namei (covered _) (show 0 < plus _ root root by simp) _
      counted sized).mono ?_)
  rintro found target ⟨-, sized⟩
  cases found with
  | none => exact trivial
  | some cwd =>
      dsimp only
      rw [ensures_bind, ensures_modify, ensures_pure]
      refine ⟨sized.valid, fun f opens => ?_⟩
      cases opens.isInode

/-- The system calls of `FileRuns` leave the offsets inside. -/
theorem sound_perform
    {label : FileRuns.Label}
    (right : Right root spare system)
    (allowed : FileRuns.Allowed system label) :
    Ensures (fun _ => True) (FileRuns.perform sblock label) system
      fun _ target => Sound target := by
  rcases label with ⟨this, env, call⟩
  rcases right with ⟨kept, sound⟩
  rcases allowed with ⟨runs, promised⟩
  cases call with
  | openat dirfd path omode =>
      exact FileRuns.ensures_discard (sound_openat kept sound runs)
  | dup fd => exact FileRuns.ensures_discard (sound_dup kept sound runs)
  | close fd => exact FileRuns.ensures_discard (sound_close kept sound runs)
  | pipe2 flags page =>
      exact FileRuns.ensures_discard (sound_pipe2 kept sound runs promised)
  | chdir path =>
      exact FileRuns.ensures_discard (sound_chdir kept sound runs)
  | fork child => exact FileRuns.ensures_discard (sound_fork sound)
  | execve path loads =>
      change Ensures _ (MonadState.get >>= fun _ => _) system _
      rw [ensures_bind]
      exact FileRuns.ensures_discard (sound_execve kept sound runs)
  | exit => exact sound.congr rfl rfl

theorem right_files
    {label : FileRuns.Label}
    (right : Right root spare system)
    (allowed : FileRuns.Allowed system label) :
    Ensures (fun _ => True) (FileRuns.perform sblock label) system
      fun _ target => ∃ spare, Right root spare target := by
  have soundly :
      Ensures (fun _ => True) (FileRuns.perform sblock label) system
        fun _ target => Sound target :=
    sound_perform right allowed
  unfold Ensures at soundly ⊢
  cases ran : (FileRuns.perform sblock label).run system with
  | error halt => trivial
  | ok result =>
      rw [ran] at soundly
      have taken : FileRuns.step sblock system label = .ok result.2 := by
        unfold FileRuns.step
        rw [ran]
      by_cases exits : label.call = .exit
      · exact ⟨_, FileRuns.kept_of_exit right.1 allowed exits taken, soundly⟩
      · exact ⟨spare, FileRuns.kept_of_step right.1 allowed exits taken,
          soundly⟩

/-- Every call keeps the counts and the offsets right. -/
theorem right_of_step
    {label : Label}
    (right : Right root spare machine.system)
    (allowed : Allowed machine label)
    (taken : step sblock machine label = .ok after) :
    ∃ spare, Right root spare after.system := by
  rcases label with ⟨this, env, call⟩
  rcases allowed with ⟨runs, promised⟩
  have performed :
      Ensures (fun _ => True) (perform sblock ⟨this, env, call⟩) machine
        fun _ target => ∃ spare, Right root spare target.system := by
    cases call with
    | files call =>
        change Ensures _ (_ >>= fun _ => _) machine _
        rw [ensures_bind]
        refine ensures_onSystem
          ((right_files right promised).mono fun _ system still => ?_)
        rw [ensures_modify]
        unfold initBuffer
        split
        · exact still
        · exact still
    | unlinkat fd path flag =>
        change Ensures _ (_ >>= fun _ => _) machine _
        rw [ensures_bind, ensures_get, ensures_bind]
        refine ensures_onSystem (ensures_sized right.1 right.2
          right.1.inodes
          (sizes_unlinkat (covered_floorOf right.1 _)
            (total_cwd_pos _ _ runs)) ?_)
        intro _ table counted sound
        exact ⟨spare, right.1.setTable counted, sound⟩
    | read fd writeable size killed waits =>
        change Ensures _ (_ >>= fun _ => _) machine _
        rw [ensures_bind]
        exact (right_read promised right).mono fun _ _ still =>
          ⟨spare, still⟩
    | write fd buffer size killed waits =>
        change Ensures _ (_ >>= fun _ => _) machine _
        rw [ensures_bind]
        exact (right_write promised right).mono fun _ _ still =>
          ⟨spare, still⟩
  unfold step at taken
  cases ran : (perform sblock ⟨this, env, call⟩).run machine with
  | error halt =>
      rw [ran] at taken
      cases taken
  | ok result =>
      rw [ran] at taken
      cases taken
      exact performed.of_run ran

theorem right_of_run
    {start finish : Machine}
    {labels : List Label}
    (booted : FileRuns.Booted sblock root start.system)
    (run : Run (Takes (step sblock)) Allowed start labels finish) :
    ∃ spare, Right root spare finish.system := by
  induction run with
  | nil =>
      rcases booted with ⟨store, nodes, env, first, ran⟩
      exact ⟨FileRuns.noSpare,
        (FileRuns.ensures_boot store nodes).of_run ran,
        (sound_boot store nodes).of_run ran⟩
  | snoc _ permitted taken ih =>
      rcases ih with ⟨spare, right⟩
      exact right_of_step right permitted taken

end Runs

/-! ## Chunks and one write -/

/-- `file_write` does what one transaction with all the bytes would do. -/
structure LikeOneWrite
    (sblock : SuperBlock)
    (f : Nat)
    (bytes : List UInt8)
    (system target : System) : Prop where
  written : FileWrites.Written sblock system f bytes target
  size :
    (target.table.nodes (target.files f).object).entry.numBytes.toNat =
      max (FileWrites.fileContents sblock system f).length
        ((system.files f).off + bytes.length)
  same :
    ∀ env count one,
      (writeChunk sblock env f bytes).run system = .ok (count, one) →
        one.files = target.files ∧
          FileWrites.fileContents sblock one f =
            FileWrites.fileContents sblock target f ∧
          (one.table.nodes (one.files f).object).entry.numBytes =
            (target.table.nodes (target.files f).object).entry.numBytes

section OneWrite

variable
    {sblock : SuperBlock}
    {system target : System}
    {f : Nat}
    {bytes : List UInt8}

theorem length_splice
    {file : List UInt8}
    {offset : Nat}
    (inside : offset ≤ file.length) :
    (splice file offset bytes).length =
      max file.length (offset + bytes.length) := by
  unfold splice
  rw [List.length_append, List.length_append, List.length_take,
    List.length_drop]
  omega

/-- The size of a file after its bytes have been written. -/
theorem size_of_written
    (opened : FileWrites.OpenRegular sblock system f)
    (written : FileWrites.Written sblock system f bytes target) :
    (target.table.nodes (target.files f).object).entry.numBytes.toNat =
      max (FileWrites.fileContents sblock system f).length
        ((system.files f).off + bytes.length) := by
  have inside :
      (system.files f).off ≤
        (FileWrites.fileContents sblock system f).length := by
    rw [opened.size]
    exact opened.inside
  rw [← written.again.size, written.contents, length_splice inside]

theorem LikeOneWrite.of_written
    (geometry : Geometry sblock)
    (opened : FileWrites.OpenRegular sblock system f)
    (fits : (system.files f).off + bytes.length ≤ inodeMaxBytes)
    (written : FileWrites.Written sblock system f bytes target) :
    LikeOneWrite sblock f bytes system target := by
  refine ⟨written, size_of_written opened written, ?_⟩
  intro env count one ran
  have alone : FileWrites.Written sblock system f bytes one :=
    ((FileWrites.ensures_writeChunk geometry opened fits).of_run ran).2
  refine ⟨alone.files.trans written.files.symm,
    alone.contents.trans written.contents.symm, ?_⟩
  apply UInt32.toNat_inj.mp
  rw [size_of_written opened alone, size_of_written opened written]

end OneWrite

section Main

variable
    {sblock : SuperBlock}

end Main

/-! ## A file of the maximum size, and a full disk -/

/-- Whether a call is allowed which does not wait on a pipe. -/
def allows (machine : Machine) (label : Label) : Bool :=
  decide (label.this ∈ machine.system.live) &&
    match label.call with
    | .files call =>
        decide
          (FileRuns.Allowed machine.system ⟨label.this, label.env, call⟩)
    | .read _ _ _ _ waits => waits.isEmpty
    | .write _ _ _ _ waits => waits.isEmpty
    | .unlinkat _ _ _ => true

theorem allowed_of_allows
    (machine : Machine)
    (label : Label)
    (allow : allows machine label = true) :
    Allowed machine label := by
  rcases label with ⟨this, env, call⟩
  rcases Bool.and_eq_true_iff.mp allow with ⟨runs, promised⟩
  refine ⟨of_decide_eq_true runs, ?_⟩
  have none :
      ∀ waits : Waits, waits.isEmpty = true → KeepEnds waits := by
    intro waits empty
    rw [List.isEmpty_iff] at empty
    subst empty
    exact fun others member => absurd member List.not_mem_nil
  cases call with
  | files call => exact of_decide_eq_true promised
  | unlinkat fd path flag => trivial
  | read fd writeable size killed waits => exact none waits promised
  | write fd buffer size killed waits => exact none waits promised

/-- The wide disk, booted with process 0. -/
def startWide : Option (Nat × Machine) :=
  match
    (FileRuns.boot FileWrites.wideDisk FileRuns.plainEnv 0).run
      (FileRuns.unbooted (FileWrites.fullMachine 0).system.table.store
        (FileWrites.fullMachine 0).system.table.nodes)
  with
  | .ok (root, system) =>
      some (root, ⟨system, fun _ => PipeCalls.initPipe⟩)
  | .error _ => none

/-- Two descriptors for one file, which is read and written. -/
def readAndWrite : List Label :=
  [⟨0, FileRuns.plainEnv, .files (.openat atFdcwd [slash] oRdwr)⟩,
    ⟨0, FileRuns.plainEnv, .files (.dup 0)⟩,
    ⟨0, FileRuns.plainEnv, .read 1 true 3 false []⟩,
    ⟨0, FileRuns.plainEnv, .write 0 (fun _ => 1) 2 false []⟩,
    ⟨0, FileRuns.plainEnv, .files (.close 0)⟩]

/-- What the file and its inode are at the end. -/
def offsetAndSize (machine : Machine) : Nat × Int × Bool × UInt32 :=
  let file := machine.system.files 0
  (file.off, file.ref, decide (file.type = .inode),
    (machine.system.table.nodes file.object).entry.numBytes)

/-- A file gets all data blocks of the small disk. -/
def fillDisk : List InodeTable.Call :=
  [.alloc inodeRegular, .get 1 7, .write 7 (List.replicate 2048 1) 0]

/-- File 0 is open at the end of the inode at 7. -/
def filled (table : InodeTable.State) : Machine where
  system :=
    { FileRuns.unbooted table.store table.nodes with
      table := table
      files := fun _ => ⟨.inode, 1, true, true, 7, 2048⟩ }
  pipes := fun _ => PipeCalls.initPipe

/-- Why the write of a byte into file 0 does not return. -/
def haltOf (machine : Machine) : Option FileCalls.Halt :=
  match
    (fileWrite InodeRuns.smallDisk FileRuns.plainEnv false [] 0
      (fun _ => 1) 1).run machine
  with
  | .ok _ => none
  | .error halt => some halt

end FudanOS.Kernel.FileOffsets
