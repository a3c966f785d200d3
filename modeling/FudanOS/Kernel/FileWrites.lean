import FudanOS.Kernel.FileCalls
import FudanOS.Fs.ByteArrays

/-!
# Writes of a file in transactions

`file_write` splits a write into transactions of at most `maxbytes` bytes.
Below the maximum size of a file they leave what one `inode_write` leaves.
Beyond it `inode_write` stops the kernel.
-/

namespace FudanOS.Kernel.FileWrites

open FudanOS.Library.Programs
open FudanOS.Fs
open FudanOS.Fs.Defines
open FudanOS.Fs.BlockBitmap
open FudanOS.Fs.InodeLayout
open FudanOS.Fs.InodeLayer
open FudanOS.Fs.BlockOwnership
open FudanOS.Fs.FileContents
open FudanOS.Fs.InodeSpecs
open FudanOS.Fs.FileSpecs
open FudanOS.Fs.Directory
open FudanOS.Fs.InodeTable
open FudanOS.Fs.InodeRuns
open FudanOS.Fs.ByteArrays
open FudanOS.Fs.Names
open FudanOS.Fs.PipeCalls (Waits bytesAt length_bytesAt)
open FudanOS.Kernel.SysFile
open FudanOS.Kernel.FileCalls

/-! ## Splices -/

section Splice

variable
    {file front back : List UInt8}
    {offset : Nat}

theorem splice_nil : splice file offset [] = file := by
  unfold splice
  rw [List.append_nil, List.length_nil, Nat.add_zero,
    List.take_append_drop]

/-- Two splices in a row are one. -/
theorem splice_splice
    (inside : offset ≤ file.length) :
    splice (splice file offset front) (offset + front.length) back =
      splice file offset (front ++ back) := by
  have head : (file.take offset ++ front).length = offset + front.length := by
    rw [List.length_append, List.length_take, Nat.min_eq_left inside]
  unfold splice
  rw [List.take_left' head, ← head, List.drop_append, head,
    List.drop_drop, List.length_append, List.append_assoc _ front back,
    Nat.add_sub_cancel_left, Nat.add_assoc]
  congr 1
  rw [List.drop_eq_nil_of_le (by rw [head]; omega), List.nil_append]

end Splice

/-! ## One transaction -/

/-- A regular file is open for writing, at an offset inside of it. -/
structure OpenRegular
    (sblock : SuperBlock)
    (system : System)
    (f : Nat) : Prop where
  consistent : Consistent sblock system.table
  isInode : (system.files f).type = .inode
  writable : (system.files f).writable = true
  listed : (system.files f).object ∈ system.table.head
  held : 0 < (system.table.nodes (system.files f).object).rc
  regular :
    (system.table.nodes (system.files f).object).entry.type = inodeRegular
  inside :
    (system.files f).off ≤
      (system.table.nodes (system.files f).object).entry.numBytes.toNat

/-- The bytes of the file on the disk. -/
def fileContents (sblock : SuperBlock) (system : System) (f : Nat) :
    List UInt8 :=
  contents (system.table.view sblock)
    (system.table.nodes (system.files f).object).inodeNo

/-- Some bytes have been written to a file, at its offset. -/
structure Written
    (sblock : SuperBlock)
    (system : System)
    (f : Nat)
    (bytes : List UInt8)
    (target : System) : Prop where
  again : OpenRegular sblock target f
  files :
    target.files =
      Function.update system.files f
        { system.files f with off := (system.files f).off + bytes.length }
  contents :
    fileContents sblock target f =
      splice (fileContents sblock system f) (system.files f).off bytes

section Transaction

variable
    {sblock : SuperBlock}
    {env : Env}
    {system middle target : System}
    {f : Nat}
    {front back bytes : List UInt8}

theorem OpenRegular.size
    (opened : OpenRegular sblock system f) :
    (fileContents sblock system f).length =
      (system.table.nodes
        (system.files f).object).entry.numBytes.toNat := by
  rw [fileContents, length_contents,
    fileSize_loaded opened.consistent opened.listed]

theorem Written.nil
    (opened : OpenRegular sblock system f) :
    Written sblock system f [] system := by
  refine ⟨opened, ?_, splice_nil.symm⟩
  rw [List.length_nil, Nat.add_zero, Function.update_eq_self]

theorem Written.off
    (written : Written sblock system f bytes target) :
    (target.files f).off = (system.files f).off + bytes.length := by
  rw [written.files, Function.update_self]

theorem Written.append
    (first : Written sblock system f front middle)
    (opened : OpenRegular sblock system f)
    (second : Written sblock middle f back target) :
    Written sblock system f (front ++ back) target := by
  refine ⟨second.again, ?_, ?_⟩
  · rw [second.files, first.files, Function.update_self,
      Function.update_idem, List.length_append, Nat.add_assoc]
  · have inside :
        (system.files f).off ≤ (fileContents sblock system f).length := by
      rw [opened.size]
      exact opened.inside
    rw [second.contents, first.contents, first.off, splice_splice inside]

/-- What `inode_write` of a regular file leaves. -/
structure WritesRegular
    (sblock : SuperBlock)
    (state : InodeTable.State)
    (address : Nat)
    (bytes : List UInt8)
    (offset count : Nat)
    (after : InodeTable.State) : Prop where
  count : count = bytes.length
  consistent : Consistent sblock after
  head : after.head = state.head
  rc : (after.nodes address).rc = (state.nodes address).rc
  inodeNo : (after.nodes address).inodeNo = (state.nodes address).inodeNo
  regular : (after.nodes address).entry.type = inodeRegular
  numBytes :
    (after.nodes address).entry.numBytes.toNat =
      max (state.nodes address).entry.numBytes.toNat
        (offset + bytes.length)
  contents :
    contents (after.view sblock) (state.nodes address).inodeNo =
      splice (contents (state.view sblock) (state.nodes address).inodeNo)
        offset bytes

/-- `inode_write` of a regular file, within its maximum size. -/
theorem ensures_writeRegular
    (geometry : Geometry sblock)
    {state : InodeTable.State}
    {address offset : Nat}
    (consistent : Consistent sblock state)
    (listed : address ∈ state.head)
    (regular : (state.nodes address).entry.type = inodeRegular)
    (inside : offset ≤ (state.nodes address).entry.numBytes.toNat)
    (fits : offset + bytes.length ≤ inodeMaxBytes) :
    Ensures Stop.Exhausted (Inodes.write sblock address bytes offset) state
      (WritesRegular sblock state address bytes offset) := by
  have loaded := consistent.loaded address listed
  have size := fileSize_loaded consistent listed
  have notDevice : (state.nodes address).entry.type ≠ inodeDevice := by
    rw [regular]
    decide
  rw [size] at inside
  have wraps :
      (offset + bytes.length) % usizeModulus = offset + bytes.length :=
    Nat.mod_eq_of_lt (Nat.lt_of_le_of_lt fits (by decide))
  have works :=
    (ensures_inodeWrite geometry consistent.calm consistent.owned loaded
      notDevice (fun _ same => same) (Or.inr ⟨inside, fits⟩)).also
      (leaves_inodeWrite geometry consistent.calm consistent.owned loaded
        bytes offset)
  unfold Ensures at works
  unfold Ensures Inodes.write Inodes.changes StateT.run
  dsimp only
  revert works
  cases ran :
      (inodeWrite sblock (state.nodes address) bytes offset) state.store with
  | error stop =>
      unfold StateT.run
      rw [ran]
      exact id
  | ok result =>
      unfold StateT.run
      rw [ran]
      rcases result with ⟨⟨inode, number⟩, store⟩
      rintro ⟨⟨count, isResult, held, -, -, -, writes⟩, leaves⟩
      dsimp only at count isResult writes leaves ⊢
      subst isResult
      rw [wraps] at writes
      refine ⟨count, consistent.onInode listed leaves, rfl, ?_, ?_, ?_, ?_,
        writes.contents_eq inside⟩
      all_goals dsimp only
      all_goals rw [Function.update_self]
      · rw [writes.type]
        rw [loaded.entry] at regular
        exact regular
      · rw [size]
        exact writes.size

/-- `inode_write` beyond the maximum size of a file fails an assertion. -/
theorem writeRegular_beyond
    {state : InodeTable.State}
    {address offset : Nat}
    (regular : (state.nodes address).entry.type = inodeRegular)
    (inside : offset ≤ (state.nodes address).entry.numBytes.toNat)
    (beyond : inodeMaxBytes < offset + bytes.length)
    (small : offset + bytes.length < usizeModulus) :
    Ensures (fun stop => stop = .assertion)
      (Inodes.write sblock address bytes offset) state
      fun _ _ => False := by
  have notDevice : (state.nodes address).entry.type ≠ inodeDevice := by
    rw [regular]
    decide
  have stops :
      Ensures (fun stop => stop = .assertion)
        (inodeWrite sblock (state.nodes address) bytes offset) state.store
        fun _ _ => False := by
    unfold inodeWrite
    rw [if_neg notDevice, Nat.mod_eq_of_lt small]
    simp only [ensures_bind]
    refine ensures_assert_of (Or.inr (decide_eq_true inside)) fun _ => ?_
    refine ensures_assert_of (Or.inl rfl) fun fits => ?_
    have := of_decide_eq_true fits
    omega
  unfold Ensures at stops
  unfold Ensures Inodes.write Inodes.changes StateT.run
  dsimp only
  revert stops
  unfold StateT.run
  cases (inodeWrite sblock (state.nodes address) bytes offset) state.store with
  | error stop => exact id
  | ok result => exact id

/-! ## The loop -/

/-- A program of the file system stops the kernel where it stops. -/
theorem ensures_onTable
    {Value : Type}
    {accepts : SysFile.Halt → Prop}
    {program : TableProgram Value}
    {post : Value → System → Prop}
    (inside :
      Ensures (fun stop => accepts (.stop stop)) program system.table
        fun value table => post value { system with table := table }) :
    Ensures accepts (onTable program) system post := by
  unfold Ensures StateT.run at inside
  unfold Ensures onTable StateT.run
  dsimp only
  revert inside
  cases program system.table with
  | error stop => exact id
  | ok result => exact id

/-- The kernel stops because space runs out. -/
def RunsOut (halt : SysFile.Halt) : Prop :=
  ∃ stop : Stop, stop.Exhausted ∧ halt = .stop stop

theorem ensures_assertHeld
    {state : InodeTable.State}
    {address : Nat}
    {accepts : Stop → Prop}
    {post : Unit → InodeTable.State → Prop}
    (held : 0 < (state.nodes address).rc)
    (continues : post () state) :
    Ensures accepts (Inodes.assertHeld address) state post := by
  unfold Inodes.assertHeld
  rw [ensures_bind, ensures_get, if_pos held, ensures_pure]
  exact continues

/-- The bytes of a transaction are not many. -/
theorem maxbytes_eq : maxbytes = 1536 := rfl

theorem isize_small
    {number : Nat}
    (small : number < 2 ^ 63) :
    isize number = number := by
  have modulus : usizeModulus = 2 ^ 64 := rfl
  exact Int.bmod_eq_of_le (by omega) (by omega)

-- The unifier would compute in the arithmetic of `isize`.
attribute [local irreducible] isize

/-- The offset of a file moves. -/
theorem ensures_addOff
    {accepts : SysFile.Halt → Prop}
    {count : Nat}
    {post : Unit → System → Prop}
    (small : (system.files f).off + count < 2 ^ 63)
    (continues :
      post ()
        { system with
          files :=
            Function.update system.files f
              { system.files f with
                off := (system.files f).off + count } }) :
    Ensures accepts (addOff f count) system post := by
  have modulus : usizeModulus = 2 ^ 64 := rfl
  unfold addOff
  rw [isize_small (by omega)]
  refine ensures_ite ?_ ?_
  · intro _
    unfold getFile setFile
    rw [ensures_bind, ensures_bind, ensures_get, ensures_pure,
      ensures_modify, Nat.mod_eq_of_lt (by omega)]
    exact continues
  · intro none
    have zero : count = 0 := by omega
    subst zero
    rw [Nat.add_zero, Function.update_eq_self] at continues
    rw [ensures_pure]
    exact continues

/-- A new operation sees the files as they are. -/
theorem ensures_begun
    {state : InodeTable.State}
    {accepts : Stop → Prop}
    {post : Unit → InodeTable.State → Prop}
    (consistent : Consistent sblock state)
    (continues :
      ∀ begun, Consistent sblock begun → begun.head = state.head →
        begun.nodes = state.nodes →
        begun.view sblock = state.view sblock → post () begun) :
    Ensures accepts (beginOp env) state post := by
  unfold beginOp
  rw [ensures_modify]
  exact continues _
    ⟨consistent.free, consistent.owned, consistent.loaded,
      consistent.unique, consistent.nodup⟩ rfl rfl rfl

/-- One transaction of `file_write`. -/
theorem ensures_writeChunk
    (geometry : Geometry sblock)
    (opened : OpenRegular sblock system f)
    (fits : (system.files f).off + bytes.length ≤ inodeMaxBytes) :
    Ensures RunsOut (writeChunk sblock env f bytes) system
      fun result target =>
        result = bytes.length ∧ Written sblock system f bytes target := by
  have limit : inodeMaxBytes < 2 ^ 63 := by decide
  have small : (system.files f).off + bytes.length < 2 ^ 63 := by omega
  unfold writeChunk
  rw [ensures_bind]
  refine ensures_onTable (ensures_begun opened.consistent ?_)
  intro begun isBegun sameHead sameNodes sameView
  unfold getFile
  rw [ensures_bind, ensures_bind, ensures_get, ensures_pure, ensures_bind]
  refine ensures_onTable (ensures_assertHeld (sameNodes ▸ opened.held) ?_)
  rw [ensures_bind]
  refine ensures_onTable ?_
  refine Ensures.accepting
    ((ensures_writeRegular geometry isBegun (sameHead ▸ opened.listed)
      (sameNodes ▸ opened.regular) (sameNodes ▸ opened.inside) fits).mono
        ?_) fun stop out => ⟨stop, out, rfl⟩
  intro count table wrote
  rw [wrote.count, ensures_bind]
  refine ensures_addOff small ?_
  rw [ensures_bind]
  have rc := wrote.rc
  rw [sameNodes] at rc
  refine ensures_onTable (ensures_assertHeld (rc ▸ opened.held) ?_)
  rw [ensures_pure]
  refine ⟨isize_small (by omega),
    ⟨⟨wrote.consistent, ?_, ?_, ?_, ?_, ?_, ?_⟩, rfl, ?_⟩⟩
  all_goals dsimp only
  all_goals try simp only [Function.update_self]
  · exact opened.isInode
  · exact opened.writable
  · rw [wrote.head, sameHead]
    exact opened.listed
  · rw [rc]
    exact opened.held
  · exact wrote.regular
  · rw [wrote.numBytes]
    exact Nat.le_max_right _ _
  · have spliced := wrote.contents
    rw [sameView, sameNodes] at spliced
    unfold fileContents
    simp only [Function.update_self]
    rw [wrote.inodeNo, sameNodes]
    exact spliced

/-- The number of bytes in whole transactions which fit below the limit. -/
def wholeBelow (off : Nat) : Nat :=
  (inodeMaxBytes - off) / maxbytes * maxbytes

theorem add_wholeBelow
    {off : Nat}
    (some : wholeBelow off ≠ 0) :
    off + wholeBelow off ≤ inodeMaxBytes := by
  simp only [wholeBelow, maxbytes_eq] at some ⊢
  omega

theorem wholeBelow_eq_zero
    {off : Nat}
    (none : wholeBelow off = 0) :
    inodeMaxBytes < off + maxbytes := by
  simp only [wholeBelow, maxbytes_eq] at none ⊢
  omega

theorem wholeBelow_ne_zero
    {off : Nat}
    (some : wholeBelow off ≠ 0) :
    off + maxbytes ≤ inodeMaxBytes ∧ maxbytes ≤ wholeBelow off := by
  simp only [wholeBelow, maxbytes_eq] at some ⊢
  omega

theorem wholeBelow_add
    {off : Nat}
    (some : wholeBelow off ≠ 0) :
    wholeBelow (off + maxbytes) = wholeBelow off - maxbytes := by
  simp only [wholeBelow, maxbytes_eq] at some ⊢
  omega

/-- The bytes of a transaction, and the rest. -/
theorem chunk_append_rest (bytes : List UInt8) :
    bytes.take maxbytes ++ bytes.drop (bytes.take maxbytes).length =
      bytes := by
  rw [List.length_take]
  rcases Nat.le_total maxbytes bytes.length with long | short
  · rw [Nat.min_eq_left long, List.take_append_drop]
  · rw [Nat.min_eq_right short, List.take_of_length_le short,
      List.drop_length, List.append_nil]

/-- The loop of `file_write` below the maximum size. -/
theorem ensures_writeChunks
    (geometry : Geometry sblock)
    {fuel : Nat}
    (opened : OpenRegular sblock system f)
    (enough : bytes.length ≤ fuel)
    (fits : (system.files f).off + bytes.length ≤ inodeMaxBytes) :
    Ensures RunsOut (writeChunks sblock env f fuel bytes) system
      fun done target =>
        done = true ∧ Written sblock system f bytes target := by
  induction fuel generalizing system bytes with
  | zero =>
      have none : bytes = [] := List.eq_nil_of_length_eq_zero (by omega)
      subst none
      exact ⟨rfl, Written.nil opened⟩
  | succ fuel ih =>
      unfold writeChunks
      refine ensures_ite ?_ ?_
      · rintro rfl
        exact ⟨rfl, Written.nil opened⟩
      · intro some
        have positive : 0 < bytes.length := List.length_pos_iff.mpr some
        have whole := chunk_append_rest bytes
        have chunkPositive : 0 < (bytes.take maxbytes).length := by
          rw [List.length_take]
          exact Nat.lt_min.mpr ⟨by decide, positive⟩
        generalize bytes.take maxbytes = chunk at *
        generalize bytes.drop chunk.length = rest at *
        subst whole
        rw [List.length_append] at enough fits
        rw [ensures_bind]
        refine (ensures_writeChunk geometry opened (by omega)).mono ?_
        rintro _ middle ⟨rfl, written⟩
        refine ensures_ite (fun negative => by omega) fun _ => ?_
        refine ensures_ite (fun different => absurd rfl different) ?_
        intro _
        have off := written.off
        rw [List.drop_left]
        refine (ih written.again (by omega) (by omega)).mono ?_
        rintro done target ⟨isDone, later⟩
        exact ⟨isDone, written.append opened later⟩

/-- One transaction of `file_write` beyond the maximum size. -/
theorem writeChunk_beyond
    (opened : OpenRegular sblock system f)
    (beyond : inodeMaxBytes < (system.files f).off + bytes.length)
    (few : bytes.length ≤ maxbytes) :
    (writeChunk sblock env f bytes).run system =
      .error (.stop .assertion) := by
  have offSmall : (system.files f).off < 2 ^ 32 :=
    Nat.lt_of_le_of_lt opened.inside (UInt32.toNat_lt _)
  have small : (system.files f).off + bytes.length < usizeModulus := by
    have modulus : usizeModulus = 2 ^ 64 := rfl
    have bound : maxbytes = 1536 := rfl
    omega
  have stops :
      Ensures (fun halt => halt = .stop .assertion)
        (writeChunk sblock env f bytes) system fun _ _ => False := by
    unfold writeChunk
    rw [ensures_bind]
    refine ensures_onTable (ensures_begun opened.consistent ?_)
    intro begun isBegun sameHead sameNodes sameView
    unfold getFile
    rw [ensures_bind, ensures_bind, ensures_get, ensures_pure,
      ensures_bind]
    refine ensures_onTable
      (ensures_assertHeld (sameNodes ▸ opened.held) ?_)
    rw [ensures_bind]
    refine ensures_onTable ?_
    refine Ensures.accepting
      ((writeRegular_beyond (sameNodes ▸ opened.regular)
        (sameNodes ▸ opened.inside) beyond small).mono ?_) ?_
    · exact fun _ _ impossible => absurd impossible id
    · rintro _ rfl
      rfl
  rcases stops.stops with ⟨halt, ran, rfl⟩
  exact ran

/-- The loop goes on where a first transaction returns. -/
theorem writeChunks_cons
    {fuel : Nat}
    (some : bytes ≠ []) :
    (writeChunks sblock env f (fuel + 1) bytes).run system =
      ((writeChunk sblock env f (bytes.take maxbytes)).run system).bind
        fun returned =>
          if returned.1 < 0 then
            .ok (false, returned.2)
          else if returned.1 ≠ (bytes.take maxbytes).length then
            .error .assertion
          else
            (writeChunks sblock env f fuel
              (bytes.drop (bytes.take maxbytes).length)).run
                returned.2 := by
  conv_lhs => unfold writeChunks
  rw [if_neg some, StateT.run_bind]
  congr 1
  funext returned
  split
  · rfl
  · split
    · rfl
    · rfl

/-- A first transaction below the maximum size returns or runs out of space. -/
theorem writeChunks_fits
    (env : Env)
    (geometry : Geometry sblock)
    (opened : OpenRegular sblock system f)
    (some : bytes ≠ [])
    (fits :
      (system.files f).off + (bytes.take maxbytes).length ≤
        inodeMaxBytes) :
    (∃ middle, Written sblock system f (bytes.take maxbytes) middle ∧
      ∀ fuel, ∀ others : List UInt8, others ≠ [] →
        others.take maxbytes = bytes.take maxbytes →
          (writeChunks sblock env f (fuel + 1) others).run system =
            (writeChunks sblock env f fuel
              (others.drop (bytes.take maxbytes).length)).run middle) ∨
      ∃ halt,
        ∀ fuel, ∀ others : List UInt8, others ≠ [] →
          others.take maxbytes = bytes.take maxbytes →
            (writeChunks sblock env f (fuel + 1) others).run system =
              .error halt := by
  have ensures :
      Ensures RunsOut (writeChunk sblock env f (bytes.take maxbytes)) system
        fun result target =>
          result = (bytes.take maxbytes).length ∧
            Written sblock system f (bytes.take maxbytes) target :=
    ensures_writeChunk geometry opened fits
  cases ran :
      (writeChunk sblock env f (bytes.take maxbytes)).run system with
  | error halt =>
      refine Or.inr ⟨halt, ?_⟩
      intro fuel others isSome same
      rw [writeChunks_cons isSome, same, ran]
      rfl
  | ok returned =>
      rcases returned with ⟨result, middle⟩
      rcases ensures.of_run ran with ⟨rfl, written⟩
      refine Or.inl ⟨middle, written, ?_⟩
      intro fuel others isSome same
      rw [writeChunks_cons isSome, same, ran]
      simp only [Except.bind]
      rw [if_neg (by omega), if_neg (fun different => different rfl)]

/--
Beyond the maximum size the whole transactions below it are made, and the next
one fails an assertion.
-/
theorem writeChunks_beyond
    (env : Env)
    (geometry : Geometry sblock)
    {fuel wholeFuel : Nat}
    (opened : OpenRegular sblock system f)
    (some : bytes ≠ [])
    (enough : bytes.length ≤ fuel)
    (wholeEnough : wholeBelow (system.files f).off ≤ wholeFuel)
    (beyond : inodeMaxBytes < (system.files f).off + bytes.length) :
    (writeChunks sblock env f fuel bytes).run system =
      match
        (writeChunks sblock env f wholeFuel
          (bytes.take (wholeBelow (system.files f).off))).run system
      with
      | .ok _ => .error (.stop .assertion)
      | .error halt => .error halt := by
  induction fuel generalizing system bytes wholeFuel with
  | zero =>
      exact absurd (List.eq_nil_of_length_eq_zero (by omega)) some
  | succ fuel ih =>
      have bound : maxbytes = 1536 := rfl
      have length : (bytes.take maxbytes).length = min maxbytes bytes.length :=
        List.length_take
      by_cases none : wholeBelow (system.files f).off = 0
      · have last :
            inodeMaxBytes <
              (system.files f).off + (bytes.take maxbytes).length := by
          have beyondWhole := wholeBelow_eq_zero none
          omega
        have few : (bytes.take maxbytes).length ≤ maxbytes := by omega
        rw [none, List.take_zero, writeChunks_cons some,
          writeChunk_beyond opened last few]
        cases wholeFuel with
        | zero => rfl
        | succ wholeFuel => rfl
      · have room := wholeBelow_ne_zero none
        have wholeEq := wholeBelow_add none
        have full : (bytes.take maxbytes).length = maxbytes := by omega
        have wholeSome :
            bytes.take (wholeBelow (system.files f).off) ≠ [] := by
          rw [Ne, List.take_eq_nil_iff, not_or]
          exact ⟨none, some⟩
        have same :
            (bytes.take (wholeBelow (system.files f).off)).take maxbytes =
              bytes.take maxbytes := by
          rw [List.take_take, Nat.min_eq_left room.2]
        cases wholeFuel with
        | zero => omega
        | succ wholeFuel =>
            rcases
              writeChunks_fits env geometry opened some
                (by rw [full]; exact room.1) with
              ⟨middle, written, continues⟩ | ⟨halt, stops⟩
            · have off := written.off
              rw [full] at off continues
              rw [continues fuel bytes some rfl,
                continues wholeFuel _ wholeSome same, List.drop_take,
                ← wholeEq, ← off]
              refine ih written.again ?_ ?_ ?_ ?_
              · rw [← List.length_pos_iff, List.length_drop]
                omega
              · rw [List.length_drop]
                omega
              · rw [off, wholeEq]
                omega
              · rw [List.length_drop]
                omega
            · rw [stops fuel bytes some rfl, stops wholeFuel _ wholeSome same]

end Transaction

/-! ## `file_write` -/

section FileWrite

variable
    {sblock : SuperBlock}
    {env : Env}
    {killed : Bool}
    {waits : Waits}
    {machine : Machine}
    {f : Nat}
    {addr : Nat → UInt8}
    {n : Int}

/-- The first bytes at an address. -/
theorem take_bytesAt
    {count : Nat}
    (fewer : count ≤ n.toNat) :
    (bytesAt addr n).take count = bytesAt addr count := by
  rw [bytesAt, bytesAt, ← List.map_take, List.take_range,
    Nat.min_eq_left fewer, Int.toNat_natCast]

/-- A write of a regular file is the loop over its transactions. -/
theorem run_fileWrite
    (opened : OpenRegular sblock machine.system f)
    (positive : 0 ≤ n) :
    (fileWrite sblock env killed waits f addr n).run machine =
      match
        (writeChunks sblock env f n.toNat (bytesAt addr n)).run
          machine.system
      with
      | .ok (true, system) =>
          .ok ((n, bytesAt addr n), { machine with system := system })
      | .ok (false, system) =>
          .ok ((-1, if -1 = n then bytesAt addr n else []),
            { machine with system := system })
      | .error halt => .error (.kernel halt) := by
  have wrote :
      (writeInode sblock env f addr n).run machine.system =
        ((writeChunks sblock env f n.toNat (bytesAt addr n)).run
          machine.system).map fun returned =>
            (if returned.1 = true ∧ 0 ≤ n then n else -1, returned.2) := by
    unfold writeInode
    rw [StateT.run_bind, length_bytesAt]
    cases (writeChunks sblock env f n.toNat (bytesAt addr n)).run
      machine.system with
    | error halt => rfl
    | ok returned => rfl
  change StateT.run (ite _ _ _) machine = _
  rw [if_neg (by rw [opened.writable]; decide), opened.isInode]
  dsimp only
  rw [StateT.run_bind]
  cases ran :
      (writeChunks sblock env f n.toNat (bytesAt addr n)).run
        machine.system with
  | error halt =>
      rw [ran] at wrote
      rw [onSystem_error wrote]
      rfl
  | ok returned =>
      rcases returned with ⟨done, system⟩
      rw [ran] at wrote
      rw [onSystem_ok wrote]
      cases done
      · rfl
      · simp only [positive, and_self, if_true]
        change Except.ok _ = _
        rw [if_pos rfl]

/-- Below the maximum size all bytes are written, or space runs out. -/
theorem ensures_fileWrite
    (env : Env)
    (killed : Bool)
    (waits : Waits)
    (addr : Nat → UInt8)
    (geometry : Geometry sblock)
    (opened : OpenRegular sblock machine.system f)
    (positive : 0 ≤ n)
    (fits : (machine.system.files f).off + n ≤ inodeMaxBytes) :
    Ensures (fun halt => ∃ reason, RunsOut reason ∧ halt = .kernel reason)
      (fileWrite sblock env killed waits f addr n) machine
      fun returned target =>
        returned = (n, bytesAt addr n) ∧
          target.pipes = machine.pipes ∧
          Written sblock machine.system f (bytesAt addr n)
            target.system := by
  have loop :
      Ensures RunsOut
        (writeChunks sblock env f n.toNat (bytesAt addr n)) machine.system
        fun done target =>
          done = true ∧
            Written sblock machine.system f (bytesAt addr n) target :=
    ensures_writeChunks geometry opened (length_bytesAt addr n).le
      (by rw [length_bytesAt]; omega)
  unfold Ensures at loop ⊢
  rw [run_fileWrite opened positive]
  revert loop
  cases
    (writeChunks sblock env f n.toNat (bytesAt addr n)).run
      machine.system with
  | error halt => exact fun out => ⟨halt, out, rfl⟩
  | ok returned =>
      rcases returned with ⟨done, system⟩
      rintro ⟨rfl, written⟩
      exact ⟨rfl, rfl, written⟩

/--
`file_write` returns, with -1 only beyond the maximum size, or it stops because
space runs out.
-/
def FailsCleanly (sblock : SuperBlock) (env : Env) (killed : Bool)
    (waits : Waits) (f : Nat) (addr : Nat → UInt8) (n : Int)
    (machine : Machine) : Prop :=
  match (fileWrite sblock env killed waits f addr n).run machine with
  | .ok ((result, _), _) =>
      result = n ∨
        result = -1 ∧ inodeMaxBytes < (machine.system.files f).off + n
  | .error halt => ∃ reason, RunsOut reason ∧ halt = .kernel reason

/-- Space runs out in the whole transactions below the maximum size. -/
def StopsBefore (sblock : SuperBlock) (env : Env) (killed : Bool)
    (waits : Waits) (f : Nat) (addr : Nat → UInt8)
    (machine : Machine) : Prop :=
  ∃ halt,
    (fileWrite sblock env killed waits f addr
      (wholeBelow (machine.system.files f).off)).run machine = .error halt

/-- A write which starts near the maximum size fails in its transaction. -/
theorem fileWrite_beyond
    (env : Env)
    (killed : Bool)
    (waits : Waits)
    (addr : Nat → UInt8)
    (geometry : Geometry sblock)
    (opened : OpenRegular sblock machine.system f)
    (positive : 0 < n)
    (beyond : inodeMaxBytes < (machine.system.files f).off + n)
    (none : wholeBelow (machine.system.files f).off = 0) :
    (fileWrite sblock env killed waits f addr n).run machine =
      .error (.kernel (.stop .assertion)) := by
  have some : bytesAt addr n ≠ [] := by
    rw [← List.length_pos_iff, length_bytesAt]
    omega
  have stops :=
    writeChunks_beyond env geometry opened some (length_bytesAt addr n).le
      (Nat.le_refl _) (by rw [length_bytesAt]; omega)
  rw [none] at stops
  rw [run_fileWrite opened positive.le, stops]
  rfl

end FileWrite

/-! ## A disk with one file of the maximum size -/

/-- One inode, and as many data blocks as it can have. -/
def wideDisk : SuperBlock where
  numBlocks := 145
  numDataBlocks := 141
  numInodes := 2
  numLogBlocks := 1
  logStart := 1
  inodeStart := 2
  bitmapStart := 3

/-- The blocks of the file are 4 to 15, 17 to 144, and 16 between them. -/
def fullEntry : InodeEntry where
  type := inodeRegular
  major := 0
  minor := 0
  numLinks := 1
  numBytes := UInt32.ofNat inodeMaxBytes
  addrs := fun index => UInt32.ofNat (4 + index)
  indirect := 16

def fullBlocks (blockNo : Nat) : BlockData :=
  if blockNo = 2 then
    setEntry (fun _ => 0) 1 fullEntry
  else if blockNo = 3 then
    fun _ => 255
  else if blockNo = 16 then
    fun index =>
      if index.val % 4 = 0 then UInt8.ofNat (17 + index.val / 4) else 0
  else
    fun _ => 0

/-- File 0 is the file, which is in memory at 7. -/
def fullMachine (off : Nat) : Machine where
  system :=
    { FileRuns.unbooted
        { blocks := fullBlocks, held := [], logged := [], rm := 0 }
        (fun _ => ⟨1, 1, true, fullEntry⟩) with
      table :=
        { store := { blocks := fullBlocks, held := [], logged := [], rm := 0 }
          nodes := fun _ => ⟨1, 1, true, fullEntry⟩
          head := [7] }
      files := fun _ => ⟨.inode, 1, true, true, 7, off⟩ }
  pipes := fun _ => PipeCalls.initPipe

/-- The block in a slot of the file. -/
def blockIn : Slot → Nat
  | .direct index => 4 + index
  | .indirect => 16
  | .second index => 17 + index

theorem blockIn_injective
    {left right : Slot}
    (same : blockIn left = blockIn right) :
    left = right := by
  have direct : inodeNumDirect = 12 := rfl
  cases left with
  | direct left =>
      cases right with
      | direct right =>
          have : left = right := Fin.ext (by simpa [blockIn] using same)
          rw [this]
      | indirect => simp only [blockIn] at same; omega
      | second right => simp only [blockIn] at same; omega
  | indirect =>
      cases right with
      | direct right => simp only [blockIn] at same; omega
      | indirect => rfl
      | second right => simp only [blockIn] at same; omega
  | second left =>
      cases right with
      | direct right => simp only [blockIn] at same; omega
      | indirect => simp only [blockIn] at same; omega
      | second right =>
          have : left = right := Fin.ext (by simpa [blockIn] using same)
          rw [this]

theorem blockIn_bounds (slot : Slot) :
    4 ≤ blockIn slot ∧ blockIn slot < 145 := by
  have direct : inodeNumDirect = 12 := rfl
  have indirect : inodeNumIndirect = 128 := rfl
  cases slot with
  | direct index => simp only [blockIn]; omega
  | indirect => decide
  | second index => simp only [blockIn]; omega

theorem exists_blockIn
    {blockNo : Nat}
    (above : 4 ≤ blockNo)
    (below : blockNo < 145) :
    ∃ slot, blockIn slot = blockNo := by
  by_cases direct : blockNo < 16
  · refine ⟨.direct ⟨blockNo - 4, ?_⟩, ?_⟩
    · change blockNo - 4 < 12
      omega
    · simp only [blockIn]
      omega
  · by_cases indirect : blockNo = 16
    · exact ⟨.indirect, indirect.symm⟩
    · refine ⟨.second ⟨blockNo - 17, ?_⟩, ?_⟩
      · change blockNo - 17 < 128
        omega
      · simp only [blockIn]
        omega

theorem geometry_wideDisk : Geometry wideDisk := by
  constructor <;> decide

theorem entry_fullBlocks :
    (view wideDisk fullBlocks).entry 1 = fullEntry := by
  change entryAt (setEntry (fun _ => 0) 1 fullEntry) 1 = fullEntry
  rw [entryAt_setEntry _ (by decide), if_pos rfl]

theorem stored_fullBlocks (slot : Slot) :
    stored (view wideDisk fullBlocks) 1 slot = blockIn slot := by
  have addresses :
      ∀ index : Fin inodeNumDirect,
        (UInt32.ofNat (4 + index)).toNat = 4 + index := by
    decide
  have seconds :
      ∀ index : Fin inodeNumIndirect,
        (addrAt ((view wideDisk fullBlocks).data 16) index).toNat =
          17 + index := by
    decide +kernel
  cases slot with
  | direct index =>
      rw [stored, entry_fullBlocks]
      exact addresses index
  | indirect =>
      rw [stored, entry_fullBlocks]
      rfl
  | second index =>
      rw [stored, entry_fullBlocks, if_neg (by decide)]
      exact seconds index

theorem allocated_fullBlocks_iff (inodeNo : Nat) :
    Allocated wideDisk (view wideDisk fullBlocks) inodeNo ↔ inodeNo = 1 := by
  constructor
  · rintro ⟨positive, below, -⟩
    change inodeNo < 2 at below
    omega
  · rintro rfl
    refine ⟨by decide, by decide, ?_⟩
    rw [entry_fullBlocks]
    decide

theorem owned_fullBlocks : Owned wideDisk (view wideDisk fullBlocks) := by
  have marks :
      ∀ blockNo < 145, (view wideDisk fullBlocks).used blockNo = true := by
    decide +kernel
  have isData_iff :
      ∀ blockNo, IsData wideDisk blockNo ↔ 4 ≤ blockNo ∧ blockNo < 145 :=
    fun _ => Iff.rfl
  refine ⟨⟨by decide, ?_, ?_, ?_⟩, ?_⟩
  · rintro ⟨left, leftSlot⟩ ⟨right, rightSlot⟩ leftLive rightLive same -
    dsimp only at leftLive rightLive same
    rw [allocated_fullBlocks_iff] at leftLive rightLive
    subst leftLive rightLive
    rw [stored_fullBlocks, stored_fullBlocks] at same
    rw [blockIn_injective same]
  · rintro ⟨inodeNo, slot⟩ live -
    dsimp only at live ⊢
    rw [allocated_fullBlocks_iff] at live
    subst live
    rw [stored_fullBlocks, isData_iff]
    exact blockIn_bounds slot
  · intro blockNo isData
    rw [isData_iff] at isData
    refine iff_of_true (marks blockNo isData.2) ?_
    rcases exists_blockIn isData.1 isData.2 with ⟨slot, same⟩
    refine ⟨(1, slot), (allocated_fullBlocks_iff 1).mpr rfl, ?_⟩
    rw [stored_fullBlocks, same]
  · intro blockNo below
    exact marks blockNo (Nat.lt_trans below (by decide))

theorem loaded_fullEntry :
    Loaded wideDisk (view wideDisk fullBlocks) ⟨1, 1, true, fullEntry⟩ := by
  refine ⟨rfl, ?_, (allocated_fullBlocks_iff 1).mpr rfl⟩
  rw [entry_fullBlocks]

theorem fullMachine_opened
    {off : Nat}
    (inside : off ≤ inodeMaxBytes) :
    OpenRegular wideDisk (fullMachine off).system 0 := by
  have consistent : Consistent wideDisk (fullMachine off).system.table := by
    refine ⟨rfl, owned_fullBlocks, fun _ _ => loaded_fullEntry, ?_,
      List.nodup_singleton 7⟩
    intro left leftMember right rightMember _
    rw [List.mem_singleton.mp leftMember, List.mem_singleton.mp rightMember]
  exact ⟨consistent, rfl, rfl, List.mem_singleton_self 7, Int.one_pos, rfl,
    inside⟩

end FudanOS.Kernel.FileWrites
