import MazeOS.Filesystem

/-!
`read_data` returns the right slice of a file. It copies the bytes before the
first block whose address lies past the end of the image (`readData_until`),
although the first block, the whole blocks in the middle and the last block are
copied by different code. On an image of consistent geometry (`Geometry`) a
well-formed file (`WellFormedFile`) has its bytes in the data blocks its inode
lists (`content`), and `readData` copies the requested slice of them and nothing
else (`readData_eq`).
-/
namespace MazeOS.ReadData
open MazeOS.Runs MazeOS.Bytes MazeOS.Faults MazeOS.Filesystem

/-- The image has one boot block, its inodes and its data blocks, and ends below
    `2 ^ 32`. -/
structure Geometry (fs : Fs) : Prop where
  extent : fs.fsEndAddr = fs.fsStartAddr + (1 + fs.metadata.numInodes + fs.metadata.numDataBlocks) * blockSize
  fits : fs.fsEndAddr < 2 ^ 32

def fileLength (fs : Fs) (inode : Nat) : Nat := word fs.mem (getInodePtr fs inode)
def blockNumber (fs : Fs) (inode b : Nat) : Nat := word fs.mem (getInodePtr fs inode + 4 + 4 * b)
/-- The number of blocks that hold a byte of the file. -/
def usedBlocks (fs : Fs) (inode : Nat) : Nat := (fileLength fs inode + (blockSize - 1)) / blockSize

/-- An inode whose block numbers fit in `inode_t` and name data blocks. -/
structure WellFormedFile (fs : Fs) (inode : Nat) : Prop where
  exists_ : inode < fs.metadata.numInodes
  short : fileLength fs inode < maxDataBlockCount * blockSize
  numbers : ∀ b, b < usedBlocks fs inode → blockNumber fs inode b < fs.metadata.numDataBlocks

/-- The concatenation of the file's data blocks, in the order of its inode. -/
def content (fs : Fs) (inode : Nat) : List UInt8 :=
  blocks (fun b => bytesAt fs.mem (dataBlockPtr fs (blockNumber fs inode b))) blockSize (usedBlocks fs inode)

/-- The byte of the file at a position. -/
def fileByte (fs : Fs) (inode i : Nat) : UInt8 :=
  bytesAt fs.mem (dataBlockPtr fs (blockNumber fs inode (i / blockSize))) (i % blockSize)

/-- How many bytes a read of `length` bytes at `offset` delivers. -/
def readCount (fs : Fs) (inode offset length : Nat) : Nat :=
  if fileLength fs inode ≤ offset then 0 else min length (fileLength fs inode - offset)

theorem readCount_le_length (fs : Fs) (inode offset length : Nat) : readCount fs inode offset length ≤ length := by
  simp only [readCount]
  split
  · exact Nat.zero_le _
  · exact Nat.min_le_left _ _

theorem readCount_within (fs : Fs) {inode offset : Nat} (length : Nat) (inside : offset ≤ fileLength fs inode) :
    offset + readCount fs inode offset length ≤ fileLength fs inode := by
  simp only [readCount]
  split <;> omega

/-- A read of at least one byte delivers nothing exactly at the end of the file. -/
theorem readCount_eq_zero_iff (fs : Fs) {inode offset length : Nat} (some : 1 ≤ length) :
    readCount fs inode offset length = 0 ↔ fileLength fs inode ≤ offset := by
  simp only [readCount]
  split <;> omega

theorem content_getElem (fs : Fs) (inode i : Nat) (inside : i < (content fs inode).length) :
    (content fs inode)[i] = fileByte fs inode i :=
  blocks_getElem _ _ _ _ inside

theorem fileLength_le_content (fs : Fs) (inode : Nat) : fileLength fs inode ≤ (content fs inode).length := by
  simp only [content,blocks_length,usedBlocks,blockSize]
  omega

/-- A slice of the file, byte by byte. -/
theorem content_slice (fs : Fs) {inode offset count : Nat} (inside : offset + count ≤ fileLength fs inode) :
    ((content fs inode).drop offset).take count = taken (fun i => fileByte fs inode (offset + i)) count := by
  have long := fileLength_le_content fs inode
  apply List.ext_getElem
  · simp only [List.length_take,List.length_drop,taken_length]; omega
  · intro i _ _
    rw [List.getElem_take,List.getElem_drop,content_getElem,taken_getElem]

/-! ### The block table -/

theorem loadDataBlocks_ok (fs : Fs) (ptr : Nat) {count : Nat} (fits : count ≤ maxDataBlockCount) :
    ∃ table, loadDataBlocks fs ptr count = .ok table ∧ ∀ i, i < count → table i = some (word fs.mem (ptr + 4 * i)) := by
  induction count with
  | zero => exact ⟨_,rfl,fun i inside => absurd inside (Nat.not_lt_zero i)⟩
  | succ n ih =>
    obtain ⟨table,loaded,entries⟩ := ih (by omega)
    have inside : n < maxDataBlockCount := by omega
    refine ⟨_,by simp only [loadDataBlocks,loaded,ok_bind,inside,↓reduceIte]; rfl,?_⟩
    intro i before
    by_cases last : i = n
    · simp [last]
    · simpa [last] using entries i (by omega)

theorem dataBlock_ok {table : DataBlocks} {i number : Nat} (inside : i < maxDataBlockCount)
    (copied : table i = some number) : dataBlock table i = .ok number := by
  simp [dataBlock,inside,copied]

/-- A used block lies inside the image. -/
theorem dataBlockPtr_inside {fs : Fs} (geometry : Geometry fs) {number : Nat}
    (valid : number < fs.metadata.numDataBlocks) : dataBlockPtr fs number + blockSize ≤ fs.fsEndAddr := by
  obtain ⟨extent,fits⟩ := geometry
  simp only [dataBlockPtr,blockSize] at *
  have small : (number + fs.metadata.numInodes + 1) * 4096 + fs.fsStartAddr + 4096 ≤ fs.fsEndAddr := by omega
  rw [Nat.mod_eq_of_lt (by omega)]
  exact small

theorem block_used {fs : Fs} {inode b : Nat} (needed : b * blockSize < fileLength fs inode) :
    b < usedBlocks fs inode := by
  simp only [usedBlocks,blockSize] at *
  omega

/-- Reading on inside a block is reading the file on. -/
theorem fileByte_within (fs : Fs) (inode offset i : Nat) (inside : i < blockSize - offset % blockSize) :
    bytesAt fs.mem (dataBlockPtr fs (blockNumber fs inode (offset / blockSize)) + offset % blockSize) i =
      fileByte fs inode (offset + i) := by
  have quotient : (offset + i) / blockSize = offset / blockSize := by simp only [blockSize] at *; omega
  have remainder : (offset + i) % blockSize = offset % blockSize + i := by simp only [blockSize] at *; omega
  simp only [fileByte,quotient,remainder,bytesAt,Nat.add_assoc]

theorem fileByte_block (fs : Fs) (inode b i : Nat) (inside : i < blockSize) :
    bytesAt fs.mem (dataBlockPtr fs (blockNumber fs inode b)) i = fileByte fs inode (b * blockSize + i) := by
  have aligned : b * blockSize / blockSize = b ∧ b * blockSize % blockSize = 0 := by simp only [blockSize]; omega
  have within := fileByte_within fs inode (b * blockSize) i (by rw [aligned.2]; exact inside)
  rwa [aligned.1,aligned.2] at within

/-! ### The three ways of copying -/

/-- How many bytes of a request come before the first block whose address lies
    past the end of the image. -/
def reach (fs : Fs) (inode offset count : Nat) : Nat :=
  streak (fun i => ¬ dataBlockPtr fs (blockNumber fs inode ((offset + i) / blockSize)) > fs.fsEndAddr) count

/-- The loop over the blocks after the first copies the file up to the first
    block whose address lies past the end of the image. -/
theorem readBlocks_until {fs : Fs} {inode : Nat} {table : DataBlocks}
    (copied : ∀ i, i ≤ fileLength fs inode / blockSize → table i = some (blockNumber fs inode i))
    (few : fileLength fs inode / blockSize < maxDataBlockCount) (offset length block bytesRead : Nat)
    (aligned : offset + bytesRead = block * blockSize) (within : offset + length ≤ fileLength fs inode)
    (started : bytesRead ≤ length) :
    ∃ n, bytesRead ≤ n ∧ n ≤ length ∧
      (∀ i, bytesRead ≤ i → i < n → ¬ dataBlockPtr fs (blockNumber fs inode ((offset + i) / blockSize)) > fs.fsEndAddr) ∧
      (n < length → dataBlockPtr fs (blockNumber fs inode ((offset + n) / blockSize)) > fs.fsEndAddr) ∧
      ∀ buf, readBlocks fs table length block (dataBlockPtr fs (blockNumber fs inode block)) bytesRead buf =
        .ok (if n = length then (length : Int) else -1,
          copyInto buf bytesRead (fun i => fileByte fs inode (offset + bytesRead + i)) (n - bytesRead)) := by
  induction left : length - bytesRead using Nat.strong_induction_on generalizing block bytesRead with
  | _ rest ih =>
  subst left
  by_cases more : bytesRead < length
  · have here : ∀ i, bytesRead ≤ i → i < bytesRead + blockSize → (offset + i) / blockSize = block := by
      intro i low high
      simp only [blockSize] at *
      omega
    by_cases stray : dataBlockPtr fs (blockNumber fs inode block) > fs.fsEndAddr
    · refine ⟨bytesRead,Nat.le_refl _,started,?_,?_,?_⟩
      · intro i low high; omega
      · intro _
        rw [here bytesRead (Nat.le_refl _) (by simp only [blockSize]; omega)]
        exact stray
      · intro buf
        have short : ¬ bytesRead = length := by omega
        rw [readBlocks,if_pos more,if_pos stray,if_neg short,Nat.sub_self,copyInto_zero]
    · have source : ∀ i, i < blockSize → bytesAt fs.mem (dataBlockPtr fs (blockNumber fs inode block)) i =
          fileByte fs inode (offset + bytesRead + i) := by
        intro i inside
        rw [aligned]
        exact fileByte_block fs inode block i inside
      by_cases last : length - bytesRead < blockSize
      · refine ⟨length,started,Nat.le_refl _,?_,fun short => absurd short (Nat.lt_irrefl _),?_⟩
        · intro i low high
          rw [here i low (by omega)]
          exact stray
        · intro buf
          rw [readBlocks,if_pos more,if_neg stray]
          simp only [last,if_true]
          rw [Nat.add_sub_cancel' started,copyInto_congr buf bytesRead fun i inside => source i (by omega)]
      · have nextAligned : offset + (bytesRead + blockSize) = (block + 1) * blockSize := by
          rw [Nat.succ_mul,← aligned,Nat.add_assoc]
        have next : block + 1 ≤ fileLength fs inode / blockSize := by
          rw [Nat.le_div_iff_mul_le (by decide)]
          omega
        have positive : 0 < blockSize := by decide
        obtain ⟨n,low,high,clear,ends,runs⟩ := ih (length - (bytesRead + blockSize)) (by omega) (block + 1)
          (bytesRead + blockSize) nextAligned (by omega) rfl
        have after : ∀ i, i < n - (bytesRead + blockSize) → fileByte fs inode (offset + (bytesRead + blockSize) + i) =
            fileByte fs inode (offset + bytesRead + (blockSize + i)) := by
          intro i _
          simp only [Nat.add_assoc]
        have total : blockSize + (n - (bytesRead + blockSize)) = n - bytesRead := by omega
        refine ⟨n,by omega,high,?_,ends,?_⟩
        · intro i from_ before
          by_cases first : i < bytesRead + blockSize
          · rw [here i from_ first]
            exact stray
          · exact clear i (by omega) before
        · intro buf
          rw [readBlocks,if_pos more,if_neg stray]
          simp only [last,if_false]
          rw [dataBlock_ok (by omega) (copied _ next)]
          simp only [ok_bind]
          rw [runs,copyInto_append buf bytesRead blockSize _ source after,total]
  · have finished : bytesRead = length := by omega
    subst finished
    refine ⟨bytesRead,Nat.le_refl _,Nat.le_refl _,?_,fun short => absurd short (Nat.lt_irrefl _),?_⟩
    · intro i low high; omega
    · intro buf
      rw [readBlocks,if_neg more,if_pos rfl,Nat.sub_self,copyInto_zero]

/-- The start of `read_data`, for a position inside a file whose block numbers
    fit in `inode_t`: every entry of `data_blocks` that it reads was copied from
    the image. -/
theorem readData_opens {fs : Fs} {inode offset : Nat} (present : inode < fs.metadata.numInodes)
    (inside : offset < fileLength fs inode) (few : fileLength fs inode / blockSize < maxDataBlockCount) (length : Nat) :
    ∃ table, (∀ i, i ≤ fileLength fs inode / blockSize → table i = some (blockNumber fs inode i)) ∧
      ∀ buf, readData fs inode offset buf length =
        if dataBlockPtr fs (blockNumber fs inode (offset / blockSize)) > fs.fsEndAddr then .ok (-1,buf)
        else if readCount fs inode offset length < blockSize - offset % blockSize then
          .ok ((readCount fs inode offset length : Nat),copyInto buf 0
            (bytesAt fs.mem (dataBlockPtr fs (blockNumber fs inode (offset / blockSize)) + offset % blockSize))
            (readCount fs inode offset length))
        else
          readBlocks fs table (readCount fs inode offset length) (offset / blockSize + 1)
            (dataBlockPtr fs (blockNumber fs inode (offset / blockSize + 1))) (blockSize - offset % blockSize)
            (copyInto buf 0
              (bytesAt fs.mem (dataBlockPtr fs (blockNumber fs inode (offset / blockSize)) + offset % blockSize))
              (blockSize - offset % blockSize)) := by
  have here : word fs.mem (getInodePtr fs inode) = fileLength fs inode := rfl
  have curbed : (if length > fileLength fs inode - offset then fileLength fs inode - offset else length) =
      readCount fs inode offset length := by
    rw [readCount,if_neg (Nat.not_le_of_lt inside)]
    split <;> omega
  have counted := readCount_within fs length (Nat.le_of_lt inside)
  obtain ⟨table,loaded,entries⟩ := loadDataBlocks_ok fs (getInodePtr fs inode + 4)
    (show fileLength fs inode / blockSize + 1 ≤ maxDataBlockCount by omega)
  have copied : ∀ i, i ≤ fileLength fs inode / blockSize → table i = some (blockNumber fs inode i) :=
    fun i inside => entries i (by omega)
  have ordered : offset / blockSize ≤ fileLength fs inode / blockSize := Nat.div_le_div_right (by omega)
  refine ⟨table,copied,fun buf => ?_⟩
  simp only [readData,here,if_neg (Nat.not_le_of_lt present),if_neg (Nat.not_le_of_lt inside),curbed,loaded,ok_bind,
    if_neg (Nat.not_lt.mpr ordered)]
  rw [dataBlock_ok (by omega) (copied _ ordered)]
  simp only [ok_bind]
  generalize readCount fs inode offset length = count at counted
  by_cases stray : dataBlockPtr fs (blockNumber fs inode (offset / blockSize)) > fs.fsEndAddr
  · rw [if_pos stray,if_pos stray]
  · rw [if_neg stray,if_neg stray]
    by_cases single : count < blockSize - offset % blockSize
    · rw [if_pos single,if_pos single]
    · rw [if_neg single,if_neg single]
      have split := Nat.div_add_mod offset blockSize
      have next : offset / blockSize + 1 ≤ fileLength fs inode / blockSize := by
        rw [Nat.le_div_iff_mul_le (by decide)]
        simp only [blockSize] at *
        omega
      rw [dataBlock_ok (by omega) (copied _ next)]
      rfl

/-- Inside the file the first block is copied from the offset on, and the others
    follow it. -/
theorem readData_until {fs : Fs} {inode offset : Nat} (present : inode < fs.metadata.numInodes)
    (inside : offset < fileLength fs inode) (few : fileLength fs inode / blockSize < maxDataBlockCount)
    (buf : Nat → UInt8) (length : Nat) : readData fs inode offset buf length =
      .ok (if ¬ dataBlockPtr fs (blockNumber fs inode (offset / blockSize)) > fs.fsEndAddr ∧
          reach fs inode offset (readCount fs inode offset length) = readCount fs inode offset length then
        (reach fs inode offset (readCount fs inode offset length) : Int) else -1,
        copyInto buf 0 (fun i => fileByte fs inode (offset + i)) (reach fs inode offset (readCount fs inode offset length))) := by
  have counted := readCount_within fs length (Nat.le_of_lt inside)
  obtain ⟨table,copied,opens⟩ := readData_opens present inside few length
  have inBlock : offset % blockSize < blockSize := Nat.mod_lt _ (by decide)
  have here : ∀ i, i < blockSize - offset % blockSize → (offset + i) / blockSize = offset / blockSize := by
    intro i inside
    simp only [blockSize] at *
    omega
  rw [opens,reach]
  generalize readCount fs inode offset length = count at counted
  by_cases stray : dataBlockPtr fs (blockNumber fs inode (offset / blockSize)) > fs.fsEndAddr
  · have nothing : streak (fun i => ¬ dataBlockPtr fs (blockNumber fs inode ((offset + i) / blockSize)) > fs.fsEndAddr)
        count = 0 := by
      refine streak_eq (Nat.zero_le _) (fun i inside => absurd inside (Nat.not_lt_zero i)) ?_
      intro _
      rw [here 0 (by omega)]
      exact not_not_intro stray
    rw [nothing,if_pos stray,copyInto_zero,if_neg fun both => both.1 stray]
  · have source : ∀ i, i < blockSize - offset % blockSize →
        bytesAt fs.mem (dataBlockPtr fs (blockNumber fs inode (offset / blockSize)) + offset % blockSize) i =
          fileByte fs inode (offset + i) := fun i inside => fileByte_within fs inode offset i inside
    simp only [stray,if_false,not_false_eq_true,true_and]
    by_cases single : count < blockSize - offset % blockSize
    · have whole : streak (fun i => ¬ dataBlockPtr fs (blockNumber fs inode ((offset + i) / blockSize)) > fs.fsEndAddr)
          count = count := by
        refine streak_eq (Nat.le_refl _) ?_ (fun short => absurd short (Nat.lt_irrefl _))
        intro i inside
        rw [here i (by omega)]
        exact stray
      rw [if_pos single,whole,if_pos rfl,copyInto_congr buf 0 fun i inside => source i (by omega)]
    · obtain ⟨n,low,high,clear,ends,runs⟩ := readBlocks_until copied few offset count (offset / blockSize + 1)
        (blockSize - offset % blockSize) (by
          have split := Nat.div_add_mod offset blockSize
          simp only [blockSize] at *
          omega) counted (by omega)
      have reached : streak (fun i => ¬ dataBlockPtr fs (blockNumber fs inode ((offset + i) / blockSize)) > fs.fsEndAddr)
          count = n := by
        refine streak_eq high ?_ (fun short => not_not_intro (ends short))
        intro i inside
        by_cases first : i < blockSize - offset % blockSize
        · rw [here i first]
          exact stray
        · exact clear i (by omega) inside
      have after : ∀ i, i < n - (blockSize - offset % blockSize) →
          fileByte fs inode (offset + (blockSize - offset % blockSize) + i) =
            fileByte fs inode (offset + (blockSize - offset % blockSize + i)) := by
        intro i _
        rw [Nat.add_assoc]
      have joined := copyInto_append buf 0 (blockSize - offset % blockSize) _ source after
      have total : blockSize - offset % blockSize + (n - (blockSize - offset % blockSize)) = n := by omega
      rw [Nat.zero_add] at joined
      rw [if_neg single,runs,reached,joined,total]
      by_cases all : n = count
      · rw [if_pos all,if_pos all,all]
      · rw [if_neg all,if_neg all]

/-- A file that `inode_t` has room for. -/
theorem blocks_few {fs : Fs} {inode : Nat} (short : fileLength fs inode < maxDataBlockCount * blockSize) :
    fileLength fs inode / blockSize < maxDataBlockCount := (Nat.div_lt_iff_lt_mul (by decide)).mpr short

/-- `read_data` copies the slice that it reports and nothing else: it does not
    fault. -/
theorem readData_eq {fs : Fs} (geometry : Geometry fs) {inode : Nat} (file : WellFormedFile fs inode)
    (offset : Nat) (buf : Nat → UInt8) (length : Nat) :
    readData fs inode offset buf length =
      .ok ((readCount fs inode offset length : Int),
        copyInto buf 0 (fun i => fileByte fs inode (offset + i)) (readCount fs inode offset length)) := by
  by_cases past : fileLength fs inode ≤ offset
  · have present : ¬ inode ≥ fs.metadata.numInodes := by have := file.exists_; omega
    have past' : word fs.mem (getInodePtr fs inode) ≤ offset := past
    simp [readData,present,past',readCount,past]
  · have inside := Nat.lt_of_not_le past
    have counted := readCount_within fs length (Nat.le_of_lt inside)
    have valid : ∀ i, offset + i < fileLength fs inode →
        ¬ dataBlockPtr fs (blockNumber fs inode ((offset + i) / blockSize)) > fs.fsEndAddr := by
      intro i within
      have used : (offset + i) / blockSize < usedBlocks fs inode := block_used (by
        have := Nat.div_mul_le_self (offset + i) blockSize
        omega)
      have inImage := dataBlockPtr_inside geometry (file.numbers _ used)
      omega
    have whole : reach fs inode offset (readCount fs inode offset length) = readCount fs inode offset length :=
      streak_eq (Nat.le_refl _) (fun i before => valid i (by omega)) fun short => absurd short (Nat.lt_irrefl _)
    rw [readData_until file.exists_ inside (blocks_few file.short),whole,if_pos ⟨valid 0 inside,rfl⟩]

/-- The bytes that `read_data` copies, as a slice of the file's blocks. -/
theorem copied_slice (fs : Fs) (inode offset length : Nat) (buf : Nat → UInt8) :
    taken (copyInto buf 0 (fun i => fileByte fs inode (offset + i)) (readCount fs inode offset length))
        (readCount fs inode offset length) =
      ((content fs inode).drop offset).take (readCount fs inode offset length) := by
  by_cases past : fileLength fs inode ≤ offset
  · simp [readCount,past,taken]
  · rw [content_slice fs (readCount_within fs length (Nat.le_of_lt (Nat.lt_of_not_le past)))]
    apply List.ext_getElem (by simp)
    intro i inside _
    rw [taken_length] at inside
    rw [taken_getElem,taken_getElem,copyInto_inside (Nat.zero_le i) (by omega),Nat.sub_zero]

/-- A read of a well-formed file returns the number of bytes up to the end of
    the request or of the file, delivers that slice of the file's data blocks
    and writes nothing after it; an inode number that does not exist is refused. -/
theorem readData_correct {fs : Fs} (geometry : Geometry fs) :
    (∀ inode, WellFormedFile fs inode → ∀ (offset : Nat) (buf : Nat → UInt8) (length : Nat), ∃ after,
      readData fs inode offset buf length = .ok ((readCount fs inode offset length : Int),after) ∧
      taken after (readCount fs inode offset length) =
        ((content fs inode).drop offset).take (readCount fs inode offset length) ∧
      ∀ i, readCount fs inode offset length ≤ i → after i = buf i) ∧
    ∀ inode, fs.metadata.numInodes ≤ inode → ∀ (offset : Nat) (buf : Nat → UInt8) (length : Nat),
      readData fs inode offset buf length = .ok (-1,buf) := by
  constructor
  · intro inode file offset buf length
    refine ⟨_,readData_eq geometry file offset buf length,?_,?_⟩
    · exact copied_slice fs inode offset length buf
    · intro i after
      exact copyInto_outside (by omega)
  · intro inode absent offset buf length
    simp [readData,absent]

/-! ### An image with one file -/

/-- The bytes of an image at address 0 that differ from 0: one directory entry
    `shell` for inode 0, a file of 28 bytes with the ELF magic and the entry
    point 0x08048000. -/
def shellBytes : List (Nat × UInt8) :=
  [(0,1),(4,1),(8,1),(64,115),(65,104),(66,101),(67,108),(68,108),(96,2),(4096,28),
    (8192,0x7F),(8193,0x45),(8194,0x4C),(8195,0x46),(8217,0x80),(8218,0x04),(8219,0x08)]

def shellFs : Fs := fsInit (fun a => (shellBytes.lookup a).getD 0) 0 12288

theorem shellFs_geometry : Geometry shellFs := ⟨by decide,by decide⟩

theorem shellFs_file : WellFormedFile shellFs 0 := by
  refine ⟨by decide,by decide,?_⟩
  have one : usedBlocks shellFs 0 = 1 := by decide
  intro b used
  rw [one,Nat.lt_one_iff] at used
  subst used
  decide

/-! ### An image in the page of the kernel -/

/-- The bytes of an image at 5MB that differ from 0: the directory `.`, the file
    `shell` of two data blocks and 4100 bytes, with the ELF magic and the entry
    point 0x08048000, and the file `b` of 4097 bytes, which begins like an
    executable and names a data block that would be at address 0. -/
def longBytes : List (Nat × UInt8) :=
  [(0,3),(4,2),(8,3),(64,46),(96,1),(128,115),(129,104),(130,101),(131,108),(132,108),(160,2),(192,98),(224,2),(228,1),
    (4096,4),(4097,0x10),(4104,1),(8192,1),(8193,0x10),(8196,2),(8200,0xFD),(8201,0xFA),(8202,0x0F),
    (12288,0x7F),(12289,0x45),(12290,0x4C),(12291,0x46),(12313,0x80),(12314,0x04),(12315,0x08),
    (16384,4),(16385,3),(16386,2),(16387,1),
    (20480,0x7F),(20481,0x45),(20482,0x4C),(20483,0x46),(20505,0x80),(20506,0x04),(20507,0x08)]

def longFs : Fs := fsInit (fun a => (longBytes.lookup (a - 0x500000)).getD 0) 0x500000 0x506000

theorem longFs_geometry : Geometry longFs := ⟨by decide,by decide⟩

theorem longFs_file : WellFormedFile longFs 0 := by
  refine ⟨by decide,by decide,?_⟩
  have two : usedBlocks longFs 0 = 2 := by decide
  intro b used
  rw [two] at used
  have cases : b = 0 ∨ b = 1 := by omega
  rcases cases with rfl | rfl
  · decide
  · decide

/-- A read across the end of the first block. -/
theorem readData_correct_shell : ∃ after,
    readData longFs 0 4094 (fun _ => 0) 1024 = .ok (6,after) ∧ taken after 6 = [0,0,4,3,2,1] ∧
      ∀ i, 6 ≤ i → after i = 0 := by
  obtain ⟨after,executed,slice,rest⟩ := (readData_correct longFs_geometry).1 0 longFs_file 4094 (fun _ => 0) 1024
  have count : readCount longFs 0 4094 1024 = 6 := by decide
  rw [count] at executed slice rest
  refine ⟨after,executed,?_,rest⟩
  rw [slice,content_slice longFs (by decide)]
  decide

end MazeOS.ReadData
