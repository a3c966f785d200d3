import FudanOS.Fs.Directory

/-!
# The program which makes the disk image

`user/mkfs/main.c`: the image starts as an empty file, and the functions read
and write its sectors.  `xint` and `xshort` convert to the byte order of the
disk, so an inode is read and written with the little-endian layout which the
kernel uses.

An input file is its path and its bytes.  `argv`, the messages and the file
descriptors are left out; `read` returns a whole block as long as there is one.
-/

namespace FudanOS.User.Mkfs

open FudanOS.Library
open FudanOS.Library.Programs
open FudanOS.Fs.Defines
open FudanOS.Fs.BlockBitmap
open FudanOS.Fs.InodeLayout
open FudanOS.Fs.Directory

/-- `FSSIZE` -/
abbrev fsSize : Nat := 1000

/-- `NINODES` -/
abbrev nInodes : Nat := 200

/-- `nbitmap` -/
abbrev nBitmap : Nat := fsSize / (blockSize * 8) + 1

/-- `ninodeblocks` -/
abbrev nInodeBlocks : Nat := nInodes / inodePerBlock + 1

/-- `num_log_blocks` -/
abbrev numLogBlocks : Nat := logMaxSize

/-- `nmeta` -/
abbrev nMeta : Nat := 2 + numLogBlocks + nInodeBlocks + nBitmap

/-- `ROOT_INODE_NO` -/
abbrev rootInodeNo : Nat := 1

/-- `sb` -/
def sb : SuperBlock where
  numBlocks := UInt32.ofNat fsSize
  numDataBlocks := UInt32.ofNat (fsSize - nMeta)
  numInodes := UInt32.ofNat nInodes
  numLogBlocks := UInt32.ofNat numLogBlocks
  logStart := 2
  inodeStart := UInt32.ofNat (2 + numLogBlocks)
  bitmapStart := UInt32.ofNat (2 + numLogBlocks + nInodeBlocks)

/-- How the program ends without a finished image. -/
inductive Exit where
  /-- An `assert` fails. -/
  | assertion
  /-- `exit(1)`: a sector cannot be read. -/
  | io
  deriving DecidableEq

/-- The image and the global variables. -/
structure Image where
  blocks : Nat → BlockData
  /-- The length of the file, in blocks. -/
  size : Nat
  freeinode : Nat
  freeblock : Nat

def assert (condition : Bool) : Program Image Exit Unit :=
  if condition then return () else throw .assertion

/-! ## Sectors -/

/-- The block at `sec * BSIZE`, which is computed in 32 bits. -/
def sector (sec : Nat) : Nat :=
  sec * blockSize % 2 ^ 32 / blockSize

def wsect (sec : Nat) (buf : BlockData) : Program Image Exit Unit :=
  modify fun image =>
    { image with
      blocks := Function.update image.blocks (sector sec) buf
      size := max image.size (sector sec + 1) }

def rsect (sec : Nat) : Program Image Exit BlockData := do
  let image ← get
  if sector sec < image.size then
    return image.blocks (sector sec)
  else
    throw .io

/-! ## Inodes -/

/-- `IBLOCK(inum, sb)` -/
def iblock (inum : Nat) : Nat :=
  inum / inodePerBlock + sb.inodeStart.toNat

def winode (inum : Nat) (din : InodeEntry) : Program Image Exit Unit := do
  let buf ← rsect (iblock inum)
  wsect (iblock inum) (setEntry buf (inum % inodePerBlock) din)

def rinode (inum : Nat) : Program Image Exit InodeEntry := do
  let buf ← rsect (iblock inum)
  return entryAt buf (inum % inodePerBlock)

def ialloc (type : UInt16) : Program Image Exit Nat := do
  let image ← get
  let inum := image.freeinode
  set { image with freeinode := image.freeinode + 1 }
  winode inum { InodeEntry.zero with type := type, numLinks := 1 }
  return inum

/-- The buffer which `balloc` fills, bit by bit. -/
def bitmapOf (used : Nat) : BlockData :=
  (List.range used).foldl
    (fun buf i =>
      setByte buf (i / 8) (byteAt buf (i / 8) ||| mask (i % 8)))
    fun _ => 0

def balloc (used : Nat) : Program Image Exit Unit := do
  assert (decide (used < blockSize * 8))
  wsect sb.bitmapStart.toNat (bitmapOf used)

/-! ## Files -/

/-- `freeblock++` -/
def nextBlock : Program Image Exit Nat := do
  let image ← get
  set { image with freeblock := image.freeblock + 1 }
  return image.freeblock

/-- The part of `iappend` which finds or makes a block with a direct address. -/
def directBlock (din : InodeEntry) (fbn : Fin inodeNumDirect) :
    Program Image Exit (InodeEntry × Nat) :=
  if din.addrs fbn = 0 then do
    let block ← nextBlock
    let din :=
      { din with
        addrs := Function.update din.addrs fbn (UInt32.ofNat block) }
    return (din, (din.addrs fbn).toNat)
  else
    return (din, (din.addrs fbn).toNat)

/-- The part of `iappend` which makes the indirect block. -/
def indirectBlock (din : InodeEntry) : Program Image Exit InodeEntry :=
  if din.indirect = 0 then do
    let block ← nextBlock
    return { din with indirect := UInt32.ofNat block }
  else
    return din

/-- The part of `iappend` which goes through the indirect block. -/
def throughIndirect (din : InodeEntry) (index : Nat) :
    Program Image Exit Nat := do
  let indirect ← rsect din.indirect.toNat
  if addrAt indirect index = 0 then do
    let block ← nextBlock
    let indirect := setAddr indirect index (UInt32.ofNat block)
    wsect din.indirect.toNat indirect
    return (addrAt indirect index).toNat
  else
    return (addrAt indirect index).toNat

/-- The block `x` of `iappend` -/
def findBlock (din : InodeEntry) (fbn : Nat) :
    Program Image Exit (InodeEntry × Nat) :=
  if direct : fbn < inodeNumDirect then
    directBlock din ⟨fbn, direct⟩
  else do
    let din ← indirectBlock din
    let x ← throughIndirect din (fbn - inodeNumDirect)
    return (din, x)

/-- The loop of `iappend`; `fuel` bounds the number of bytes to go. -/
def appendLoop :
    Nat → InodeEntry → List UInt8 → Nat →
      Program Image Exit (InodeEntry × Nat)
  | 0, din, _, off => return (din, off)
  | fuel + 1, din, p, off =>
      if 0 < p.length then do
        let fbn := off / blockSize
        assert (decide (fbn < inodeMaxBlocks))
        let found ← findBlock din fbn
        let n1 := min p.length ((fbn + 1) * blockSize - off)
        let buf ← rsect found.2
        wsect found.2
          (patch buf (off - fbn * blockSize) n1 fun index =>
            p.getD index 0)
        appendLoop fuel found.1 (p.drop n1) (off + n1)
      else
        return (din, off)

def iappend (inum : Nat) (p : List UInt8) : Program Image Exit Unit := do
  let din ← rinode inum
  let last ← appendLoop p.length din p din.numBytes.toNat
  winode inum { last.1 with numBytes := UInt32.ofNat last.2 }

/-- `while ((cc = read(fd, buf, sizeof(buf))) > 0) iappend(inum, buf, cc);` -/
def appendFile (inum : Nat) :
    Nat → List UInt8 → Program Image Exit Unit
  | 0, _ => return ()
  | fuel + 1, data =>
      if 0 < data.length then do
        iappend inum (data.take blockSize)
        appendFile inum fuel (data.drop blockSize)
      else
        return ()

/-! ## The main program -/

/-- The characters `'/'`, `'.'` and `'_'` -/
abbrev slash : UInt8 := 47

abbrev dot : UInt8 := 46

abbrev underscore : UInt8 := 95

/-- The argument behind its last `'/'`; `j` counts the characters there. -/
def baseName (path : List UInt8) : List UInt8 :=
  let j : Int :=
    path.foldl
      (fun j character => (if character = slash then -1 else j) + 1) 0
  path.drop (path.length - j.toNat)

/-- One leading underscore is skipped. -/
def entryName (path : List UInt8) : List UInt8 :=
  match baseName path with
  | first :: rest => if first = underscore then rest else first :: rest
  | [] => []

structure InputFile where
  path : List UInt8
  data : List UInt8

/-- The body of the loop over the arguments -/
def addFile (file : InputFile) : Program Image Exit Unit := do
  assert (!(baseName file.path).contains slash)
  let inum ← ialloc inodeRegular
  iappend rootInodeNo
    (dirent inum (strncpy (entryName file.path) fileNameMaxLength))
  appendFile inum file.data.length file.data

/-- The bytes of `sb` -/
def sbBytes (index : Nat) : UInt8 :=
  let fields :=
    [sb.numBlocks, sb.numDataBlocks, sb.numInodes, sb.numLogBlocks,
      sb.logStart, sb.inodeStart, sb.bitmapStart]
  LittleEndian.byte (fields.getD (index / 4) 0).toNat (index % 4)

/-- `for (i = 0; i < FSSIZE; i++) wsect(i, zeroes);` -/
@[irreducible]
def wipe : Program Image Exit Unit :=
  (List.range fsSize).foldlM (fun _ i => wsect i fun _ => 0) ()

/-- The image before the files are added. -/
def makeRoot : Program Image Exit Unit := do
  wipe
  wsect 1 (patch (fun _ => 0) 0 28 sbBytes)
  let rootino ← ialloc inodeDirectory
  assert (decide (rootino = rootInodeNo))
  iappend rootino (dirent rootino (strncpy [dot] fileNameMaxLength))
  iappend rootino (dirent rootino (strncpy [dot, dot] fileNameMaxLength))

/-- Fix the size of the root directory. -/
def fixRoot : Program Image Exit Unit := do
  let din ← rinode rootInodeNo
  let off := (din.numBytes.toNat / blockSize + 1) * blockSize
  winode rootInodeNo { din with numBytes := UInt32.ofNat off }

/-- `main` -/
def main (files : List InputFile) : Program Image Exit Unit := do
  makeRoot
  files.foldlM (fun _ file => addFile file) ()
  fixRoot
  let image ← get
  balloc image.freeblock

/-- The file and the variables when the program starts -/
def start : Image where
  blocks := fun _ _ => 0
  size := 0
  freeinode := 1
  freeblock := nMeta

/-- The image which the program makes, if it accepts the files. -/
def mkfs (files : List InputFile) : Except Exit Image :=
  (main files).run start |>.map Prod.snd

/-! ## Holes -/

/-- The entry of an inode in the image. -/
def Image.entry (image : Image) (inodeNo : Nat) : InodeEntry :=
  entryAt (image.blocks (toBlockNo sb inodeNo)) (inodeNo % inodePerBlock)

/-- The address of a block of an inode, which `inode_map` finds, or 0. -/
def Image.address (image : Image) (inodeNo index : Nat) : Nat :=
  let entry := image.entry inodeNo
  if direct : index < inodeNumDirect then
    (entry.addrs ⟨index, direct⟩).toNat
  else if entry.indirect = 0 ∨ inodeMaxBlocks ≤ index then
    0
  else
    (addrAt (image.blocks entry.indirect.toNat)
      (index - inodeNumDirect)).toNat

/-- Every block below the size of an inode is there, and marked as used. -/
def NoHoles (image : Image) : Prop :=
  ∀ inodeNo, 0 < inodeNo → inodeNo < image.freeinode →
    ∀ index, index * blockSize < (image.entry inodeNo).numBytes.toNat →
      image.address inodeNo index ≠ 0 ∧
        used sb image.blocks (image.address inodeNo index) = true

end FudanOS.User.Mkfs
