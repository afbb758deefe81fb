import MazeOS.Bytes
import MazeOS.Faults

/-!
The functions of `filesystem.c` on an image in memory: the metadata that
`fs_init` copies, lookup of directory entries by name and by index, `read_data`
with its table of data block numbers and its three ways of copying, and the two
words of the ELF header. Addresses are 32-bit, so every access is taken modulo
`2 ^ 32`. A destination buffer is a function of the position relative to `buf`.
Memory is flat here, and no read of the image faults; `PageFaults` has the same
functions behind the page tables.
-/
namespace MazeOS.Filesystem
open MazeOS.Bytes MazeOS.Faults

def filenameSize : Nat := 32
def dentrySize : Nat := 64
def blockSize : Nat := 4096
def maxDataBlockCount : Nat := 63
/-- The first four bytes of an executable, as a little-endian word. -/
def elfHeader : Nat := 0x464C457F
def elfHeaderSize : Nat := 4
def entrypointOffset : Nat := 24

/-- `fs_metadata_t`. -/
structure FsMetadata where
  numDentries : Nat
  numInodes : Nat
  numDataBlocks : Nat

/-- The memory that holds the image, and the static variables of `filesystem.c`. -/
structure Fs where
  mem : Nat → UInt8
  fsStartAddr : Nat
  fsEndAddr : Nat
  metadata : FsMetadata

/-- `dentry_t`. -/
structure Dentry where
  filename : List UInt8
  filetype : Nat
  inode : Nat
  deriving DecidableEq

/-- The bytes from an address on. -/
def bytesAt (mem : Nat → UInt8) (address : Nat) : Nat → UInt8 := fun i => mem ((address + i) % 2 ^ 32)

/-- The little-endian word of the first four bytes of a buffer. -/
def littleEndian (bytes : Nat → UInt8) : Nat :=
  (bytes 0).toNat + 256 * (bytes 1).toNat + 65536 * (bytes 2).toNat + 16777216 * (bytes 3).toNat

theorem littleEndian_lt (bytes : Nat → UInt8) : littleEndian bytes < 2 ^ 32 := by
  have b0 := (bytes 0).toNat_lt
  have b1 := (bytes 1).toNat_lt
  have b2 := (bytes 2).toNat_lt
  have b3 := (bytes 3).toNat_lt
  simp only [littleEndian]
  omega

theorem littleEndian_congr {bytes other : Nat → UInt8} (same : ∀ i, i < 4 → bytes i = other i) :
    littleEndian bytes = littleEndian other := by
  simp only [littleEndian]
  rw [same 0 (by decide),same 1 (by decide),same 2 (by decide),same 3 (by decide)]

/-- The 32-bit word at an address. -/
def word (mem : Nat → UInt8) (address : Nat) : Nat := littleEndian (bytesAt mem address)

/-- `fs_init`. -/
def fsInit (mem : Nat → UInt8) (startAddr endAddr : Nat) : Fs where
  mem := mem
  fsStartAddr := startAddr
  fsEndAddr := endAddr
  metadata := ⟨word mem startAddr,word mem (startAddr + 4),word mem (startAddr + 8)⟩

/-- `get_inode_ptr`. -/
def getInodePtr (fs : Fs) (inode : Nat) : Nat := ((inode + 1) * blockSize + fs.fsStartAddr) % 2 ^ 32

/-- The signed value of a 32-bit word. -/
def signed (w : Nat) : Int := if w < 2 ^ 31 then w else (w : Int) - 2 ^ 32

/-- `get_inode_from_ptr`: the difference of two pointers is signed, so the
    division truncates towards zero. -/
def getInodeFromPtr (fs : Fs) (inodePtr : Nat) : Nat :=
  let difference := signed (((inodePtr : Int) - fs.fsStartAddr) % 2 ^ 32).toNat
  ((difference.tdiv blockSize - 1) % 2 ^ 32).toNat

/-! ### Directory entries -/

/-- `strncmp`, with `left` characters to compare from position `i` on. -/
def strncmpFrom (s1 s2 : Nat → UInt8) : Nat → Nat → Int
  | 0, _ => 0
  | left + 1, i =>
    if s1 i ≠ s2 i ∨ s1 i = 0 then (s1 i).toInt8.toInt - (s2 i).toInt8.toInt
    else strncmpFrom s1 s2 left (i + 1)

/-- `strncmp`. -/
def strncmp (s1 s2 : Nat → UInt8) (n : Nat) : Int := strncmpFrom s1 s2 n 0

/-- The directory entry stored at an address, with a NUL after its name. -/
def dentryAt (fs : Fs) (start : Nat) : Dentry where
  filename := taken (bytesAt fs.mem start) filenameSize ++ [0]
  filetype := word fs.mem (start + filenameSize)
  inode := word fs.mem (start + filenameSize + 4)

/-- The loop of `read_dentry_by_name`: `left` entries remain, the next one is at
    `start`. -/
def findDentry (fs : Fs) (fname : Nat → UInt8) : Nat → Nat → Option Dentry
  | 0, _ => none
  | left + 1, start =>
    if strncmp fname (bytesAt fs.mem start) filenameSize = 0 then some (dentryAt fs start)
    else findDentry fs fname left (start + dentrySize)

/-- `read_dentry_by_name`; `none` is the return value -1. -/
def readDentryByName (fs : Fs) (fname : Nat → UInt8) : Option Dentry :=
  findDentry fs fname fs.metadata.numDentries (dentrySize + fs.fsStartAddr)

/-- `read_dentry_by_index`; `none` is the return value -1. -/
def readDentryByIndex (fs : Fs) (index : Nat) : Option Dentry :=
  if index ≥ fs.metadata.numDentries then none
  else some (dentryAt fs ((index + 1) * dentrySize + fs.fsStartAddr))

/-! ### File contents -/

/-- `file_inode.data_blocks`; an entry is `none` until it is copied. -/
abbrev DataBlocks := Nat → Option Nat

/-- The loop of `read_data` that copies the first `count` block numbers. -/
def loadDataBlocks (fs : Fs) (inodeBlockPtr : Nat) : Nat → Checked DataBlocks
  | 0 => .ok fun _ => none
  | i + 1 => do
    let table ← loadDataBlocks fs inodeBlockPtr i
    if i < maxDataBlockCount then
      .ok fun j => if j = i then some (word fs.mem (inodeBlockPtr + 4 * i)) else table j
    else .error (.dataBlocks i)

/-- `file_inode.data_blocks[i]`. -/
def dataBlock (table : DataBlocks) (i : Nat) : Checked Nat :=
  if i < maxDataBlockCount then
    match table i with
    | some number => .ok number
    | none => .error (.uninitialised i)
  else .error (.dataBlocks i)

/-- The address of a data block. -/
def dataBlockPtr (fs : Fs) (number : Nat) : Nat :=
  ((number + fs.metadata.numInodes + 1) * blockSize + fs.fsStartAddr) % 2 ^ 32

/-- The loop of `read_data` over the blocks after the first; the running pointer
    `buf` of the source is at position `bytesRead`. -/
def readBlocks (fs : Fs) (table : DataBlocks) (length currDataBlock currDataBlockPtr bytesRead : Nat)
    (buf : Nat → UInt8) : Checked (Int × (Nat → UInt8)) :=
  if bytesRead < length then
    if currDataBlockPtr > fs.fsEndAddr then .ok (-1,buf)
    else
      let remBytes := length - bytesRead
      if remBytes < blockSize then
        .ok ((bytesRead + remBytes : Nat),copyInto buf bytesRead (bytesAt fs.mem currDataBlockPtr) remBytes)
      else
        dataBlock table (currDataBlock + 1) >>= fun number =>
          readBlocks fs table length (currDataBlock + 1) (dataBlockPtr fs number) (bytesRead + blockSize)
            (copyInto buf bytesRead (bytesAt fs.mem currDataBlockPtr) blockSize)
  else .ok ((bytesRead : Nat),buf)
termination_by length - bytesRead
decreasing_by simp only [blockSize] at *; omega

/-- `read_data`: the return value and the buffer after the call. -/
def readData (fs : Fs) (inode offset : Nat) (buf : Nat → UInt8) (length : Nat) : Checked (Int × (Nat → UInt8)) :=
  if inode ≥ fs.metadata.numInodes then .ok (-1,buf)
  else
    let fileLength := word fs.mem (getInodePtr fs inode)
    if fileLength ≤ offset then .ok (0,buf)
    else
      let length := if length > fileLength - offset then fileLength - offset else length
      loadDataBlocks fs (getInodePtr fs inode + 4) (fileLength / blockSize + 1) >>= fun table =>
      let currDataBlock := offset / blockSize
      if currDataBlock > fileLength / blockSize then .ok (0,buf)
      else
        dataBlock table currDataBlock >>= fun number =>
        let blockPtr := dataBlockPtr fs number
        if blockPtr > fs.fsEndAddr then .ok (-1,buf)
        else
          let currDataBlockPtr := blockPtr + offset % blockSize
          let remBytes := blockSize - offset % blockSize
          if length < remBytes then
            .ok ((length : Nat),copyInto buf 0 (bytesAt fs.mem currDataBlockPtr) length)
          else
            -- The number of the next block is read even when no bytes are left.
            dataBlock table (currDataBlock + 1) >>= fun next =>
              readBlocks fs table length (currDataBlock + 1) (dataBlockPtr fs next) remBytes
                (copyInto buf 0 (bytesAt fs.mem currDataBlockPtr) remBytes)

/-- `get_elf_header`: -1 unless four bytes can be read. -/
def getElfHeader (fs : Fs) (inode : Nat) : Checked Int :=
  readData fs inode 0 (fun _ => 0) elfHeaderSize >>= fun (copied,elf) =>
    .ok (if (elfHeaderSize : Int) ≠ copied then -1 else signed (littleEndian elf))

/-- `get_elf_entrypoint`: NULL unless four bytes can be read. -/
def getElfEntrypoint (fs : Fs) (inode : Nat) : Checked Nat :=
  readData fs inode entrypointOffset (fun _ => 0) 4 >>= fun (copied,startAddr) =>
    .ok (if (4 : Int) ≠ copied then 0 else littleEndian startAddr)

end MazeOS.Filesystem
