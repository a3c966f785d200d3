import FudanOS.Library.LittleEndian
import Mathlib.Data.List.Nodup
import Mathlib.Tactic.Ring

/-!
# On-disk representations

The constants and records of `fs/defines.h` and `fs/cache.h` which the block
cache uses.  A block is exactly `BLOCK_SIZE` bytes.  The log header is one
block: `num_blocks` followed by `LOG_MAX_SIZE` block numbers, each of them a
64-bit little-endian word.
-/

namespace FudanOS.Fs.Defines

open FudanOS.Library

/-- `BLOCK_SIZE` -/
abbrev blockSize : Nat := 512

/-- `LOG_MAX_SIZE`: the block numbers which fit in the log header. -/
abbrev logMaxSize : Nat := (blockSize - 8) / 8

/-- `OP_MAX_NUM_BLOCKS` -/
abbrev opMaxNumBlocks : Nat := 10

/-- `EVICTION_THRESHOLD` -/
abbrev evictionThreshold : Nat := 20

/-- `usize` arithmetic is modulo this number. -/
abbrev usizeModulus : Nat := 2 ^ 64

/-- A `usize` block number. -/
abbrev BlockNo := UInt64

/-- The bytes of one block. -/
abbrev BlockData := Fin blockSize → UInt8

/-- The contents of a block device. -/
abbrev Disk := BlockNo → BlockData

/-- `SuperBlock`; `numLogBlocks` counts the header block. -/
structure SuperBlock where
  numBlocks : UInt32
  numDataBlocks : UInt32
  numInodes : UInt32
  numLogBlocks : UInt32
  logStart : UInt32
  inodeStart : UInt32
  bitmapStart : UInt32
  deriving DecidableEq

/-- `OpContext`; the field `ts` is not read by the block cache. -/
structure OpContext where
  rm : Nat
  deriving DecidableEq

/-- `LogHeader`; entries of `blockNo` from `numBlocks` on are stale. -/
structure LogHeader where
  numBlocks : Nat
  blockNo : Nat → BlockNo

namespace LogHeader

/-- The block numbers recorded in the header. -/
def entries (header : LogHeader) : List BlockNo :=
  (List.range header.numBlocks).map header.blockNo

@[simp]
theorem length_entries (header : LogHeader) :
    header.entries.length = header.numBlocks := by
  simp [entries]

theorem getElem_entries
    (header : LogHeader)
    (index : Nat)
    (below : index < header.entries.length) :
    header.entries[index] = header.blockNo index := by
  simp [entries]

/-- `header.block_no[header.num_blocks++] = block_no` -/
def push (header : LogHeader) (blockNo : BlockNo) : LogHeader where
  numBlocks := header.numBlocks + 1
  blockNo := Function.update header.blockNo header.numBlocks blockNo

@[simp]
theorem entries_push (header : LogHeader) (blockNo : BlockNo) :
    (header.push blockNo).entries = header.entries ++ [blockNo] := by
  have stale :
      (List.range header.numBlocks).map
          (Function.update header.blockNo header.numBlocks blockNo) =
        header.entries := by
    apply List.map_congr_left
    intro index member
    exact Function.update_of_ne
      (Nat.ne_of_lt (List.mem_range.mp member)) _ _
  simp [push, entries, List.range_succ, stale]

/-- `header.num_blocks = 0`; the block numbers stay as they are. -/
def clear (header : LogHeader) : LogHeader :=
  { header with numBlocks := 0 }

@[simp]
theorem entries_clear (header : LogHeader) :
    header.clear.entries = [] := by
  simp [clear, entries]

/-- Word `index` of the structure as it lies in memory. -/
def word (header : LogHeader) : Nat → Nat
  | 0 => header.numBlocks
  | index + 1 => (header.blockNo index).toNat

/-- The structure seen as the bytes of a block. -/
def encode (header : LogHeader) : BlockData :=
  fun index =>
    LittleEndian.byte (header.word (index / 8)) (index % 8)

end LogHeader

/-- Byte `index` of a block; positions past the block read as zero. -/
def byteAt (data : BlockData) (index : Nat) : UInt8 :=
  if below : index < blockSize then data ⟨index, below⟩ else 0

/-- The 64-bit word at word position `index` of a block. -/
def wordAt (data : BlockData) (index : Nat) : Nat :=
  LittleEndian.value (fun offset => byteAt data (8 * index + offset)) 8

/-- A block seen as a log header. -/
def LogHeader.decode (data : BlockData) : LogHeader where
  numBlocks := wordAt data 0
  blockNo := fun index => UInt64.ofNat (wordAt data (index + 1))

theorem wordAt_encode
    (header : LogHeader)
    (index : Nat)
    (below : index < 64) :
    wordAt header.encode index = header.word index % usizeModulus := by
  have bytes :
      ∀ offset < 8,
        byteAt header.encode (8 * index + offset) =
          LittleEndian.byte (header.word index) offset := by
    intro offset offsetBelow
    have inside : 8 * index + offset < blockSize := by
      show 8 * index + offset < 512
      omega
    have quotient : (8 * index + offset) / 8 = index := by omega
    have remainder : (8 * index + offset) % 8 = offset := by omega
    simp only [byteAt, inside, dif_pos, LogHeader.encode,
      quotient, remainder]
  rw [wordAt, LittleEndian.value_congr bytes, LittleEndian.value_byte]
  norm_num

/-- A header which counts at most its capacity is read back from disk. -/
theorem LogHeader.entries_decode_encode
    (header : LogHeader)
    (fits : header.numBlocks ≤ logMaxSize) :
    (decode header.encode).entries = header.entries := by
  have bound : header.numBlocks ≤ 63 := fits
  have count : (decode header.encode).numBlocks = header.numBlocks := by
    show wordAt header.encode 0 = header.numBlocks
    rw [wordAt_encode header 0 (by omega)]
    exact Nat.mod_eq_of_lt (by show header.numBlocks < 2 ^ 64; omega)
  have block :
      ∀ index < header.numBlocks,
        (decode header.encode).blockNo index = header.blockNo index := by
    intro index below
    show UInt64.ofNat (wordAt header.encode (index + 1)) = _
    rw [wordAt_encode header (index + 1) (by omega)]
    show UInt64.ofNat ((header.blockNo index).toNat % 2 ^ 64) = _
    rw [Nat.mod_eq_of_lt (header.blockNo index).toNat_lt]
    exact UInt64.ofNat_toNat
  simp only [entries, count]
  apply List.map_congr_left
  intro index member
  exact block index (List.mem_range.mp member)

namespace SuperBlock

/-- The block of the log which holds copy `index`, as `cache.c` computes it. -/
def logBlock (sblock : SuperBlock) (index : Nat) : BlockNo :=
  (sblock.logStart + 1).toUInt64 + UInt64.ofNat index

/-- The block number of the log header. -/
def headerBlock (sblock : SuperBlock) : BlockNo :=
  sblock.logStart.toUInt64

/-- The blocks of the logging area, header included. -/
def InLog (sblock : SuperBlock) (blockNo : BlockNo) : Prop :=
  sblock.logStart.toNat ≤ blockNo.toNat ∧
    blockNo.toNat < sblock.logStart.toNat + sblock.numLogBlocks.toNat

instance (sblock : SuperBlock) (blockNo : BlockNo) :
    Decidable (sblock.InLog blockNo) :=
  inferInstanceAs (Decidable (_ ∧ _))

theorem toNat_logBlock
    (sblock : SuperBlock)
    (index : Nat)
    (start : sblock.logStart.toNat + 1 < 2 ^ 32)
    (below : index < 2 ^ 32) :
    (sblock.logBlock index).toNat = sblock.logStart.toNat + 1 + index := by
  have next : (sblock.logStart + 1).toNat = sblock.logStart.toNat + 1 := by
    rw [UInt32.toNat_add]
    exact Nat.mod_eq_of_lt start
  have small : (UInt64.ofNat index).toNat = index :=
    UInt64.toNat_ofNat_of_lt (Nat.lt_trans below (by decide))
  rw [logBlock, UInt64.toNat_add, UInt32.toNat_toUInt64, next, small]
  exact Nat.mod_eq_of_lt (by omega)

end SuperBlock

end FudanOS.Fs.Defines
