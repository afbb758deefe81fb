import MazeOS.Transfers

/-!
`read_data` on images that are not well formed. Its table of block numbers
overflows for one length of a file, that of a full table (`table_bounds_iff`).
A block number that is too large is taken for an error only where the address
computed from it lies past the image, so that a request goes wrong at its first
block with a number that is too large and an address that is not
(`numbers_detected_iff`).
-/
namespace MazeOS.CorruptImages
open MazeOS.Runs MazeOS.Bytes MazeOS.Faults MazeOS.Filesystem MazeOS.ReadData MazeOS.Transfers

/-- An image at address 0 with one inode and one data block. -/
def imageOf (bytes : List (Nat × UInt8)) : Fs := fsInit (fun a => (bytes.lookup a).getD 0) 0 12288

/-! ### The table of block numbers -/

/-- Every index at which `read_data` writes or reads `data_blocks` lies inside
    the array. -/
def InTable (fs : Fs) (inode offset length : Nat) : Prop :=
  ∀ buf index, readData fs inode offset buf length ≠ .error (.dataBlocks index)

section
variable {fs : Fs} {inode : Nat}

/-- A loop that copies too many block numbers stores the first of them after the
    array. -/
theorem loadDataBlocks_overruns (ptr : Nat) {count : Nat} (many : maxDataBlockCount < count) :
    loadDataBlocks fs ptr count = .error (.dataBlocks maxDataBlockCount) := by
  induction count with
  | zero => exact absurd many (Nat.not_lt_zero _)
  | succ n ih =>
    by_cases last : n = maxDataBlockCount
    · subst last
      obtain ⟨table,loaded,_⟩ := loadDataBlocks_ok fs ptr (Nat.le_refl maxDataBlockCount)
      simp only [loadDataBlocks,loaded,ok_bind,Nat.lt_irrefl,if_false]
    · rw [loadDataBlocks,ih (by omega),error_bind]

theorem readData_overruns {offset : Nat} (present : inode < fs.metadata.numInodes)
    (inside : offset < fileLength fs inode) (many : maxDataBlockCount ≤ fileLength fs inode / blockSize)
    (buf : Nat → UInt8) (length : Nat) :
    readData fs inode offset buf length = .error (.dataBlocks maxDataBlockCount) := by
  have opened : ¬ word fs.mem (getInodePtr fs inode) ≤ offset := Nat.not_le_of_lt inside
  have count : maxDataBlockCount < word fs.mem (getInodePtr fs inode) / blockSize + 1 := Nat.lt_succ_of_le many
  simp only [readData,if_neg (Nat.not_le_of_lt present),if_neg opened]
  rw [loadDataBlocks_overruns _ count,error_bind]

/-- For a file that `inode_t` has room for, `read_data` stays inside the table
    exactly when it is not called inside a file that fills the table. -/
theorem table_bounds_iff (present : inode < fs.metadata.numInodes)
    (fits : fileLength fs inode ≤ maxDataBlockCount * blockSize) (offset length : Nat) :
    InTable fs inode offset length ↔
      fileLength fs inode ≠ maxDataBlockCount * blockSize ∨ fileLength fs inode ≤ offset := by
  constructor
  · intro inTable
    by_contra neither
    obtain ⟨full,inside⟩ := not_or.mp neither
    have many : maxDataBlockCount ≤ fileLength fs inode / blockSize := by
      rw [not_not.mp full]
      decide
    exact inTable (fun _ => 0) _ (readData_overruns present (Nat.lt_of_not_le inside) many _ length)
  · intro short buf index failed
    have loads : Loads fs inode offset := by
      intro _ inside
      have below : fileLength fs inode < maxDataBlockCount * blockSize := by omega
      exact blocks_few below
    rw [readData_extent loads] at failed
    cases failed

end

theorem table_bounds_shell : InTable shellFs 0 24 1024 :=
  (table_bounds_iff (by decide) (by decide) 24 1024).mpr (.inl (by decide))

/-- A file of 63 blocks, the last of them full. -/
def fullFs : Fs := imageOf [(0,1),(4,1),(8,1),(4097,0xF0),(4098,3)]

/-- The first byte of a file of 63 full blocks. -/
theorem table_bounds_fail : fileLength fullFs 0 = maxDataBlockCount * blockSize ∧
    readData fullFs 0 0 (fun _ => 0) 1 = .error (.dataBlocks 63) ∧
    ¬ (∀ (fs : Fs) (inode offset length : Nat), inode < fs.metadata.numInodes →
      fileLength fs inode ≤ maxDataBlockCount * blockSize → InTable fs inode offset length) := by
  have full : fileLength fullFs 0 = maxDataBlockCount * blockSize := by decide
  have failed : readData fullFs 0 0 (fun _ => 0) 1 = .error (.dataBlocks 63) :=
    readData_overruns (by decide) (by rw [full]; decide) (by rw [full]; decide) _ 1
  exact ⟨full,failed,fun always => always fullFs 0 0 1 (by decide) (Nat.le_of_eq full) _ _ failed⟩

/-! ### Block numbers -/

/-- A request needs a block when one of its bytes is there. -/
def Needed (fs : Fs) (inode offset length b : Nat) : Prop :=
  ∃ i, i < requested fs inode offset length ∧ (offset + i) / blockSize = b

/-- The block of a file has a number of one in the image. -/
def InImage (fs : Fs) (inode b : Nat) : Prop := blockNumber fs inode b < fs.metadata.numDataBlocks

/-- The bytes that `read_data` copies are in data blocks of the image, and a
    needed block that does not exist is an error. -/
structure Detected (fs : Fs) (inode offset length : Nat) : Prop where
  copied : ∀ i, i < fileExtent fs inode offset length → InImage fs inode ((offset + i) / blockSize) ∧
    fs.fsStartAddr ≤ fileSource fs inode offset i ∧ fileSource fs inode offset i < fs.fsEndAddr
  refused : (∃ b, Needed fs inode offset length b ∧ ¬ InImage fs inode b) →
    ∀ buf, ∃ after, readData fs inode offset buf length = .ok (-1,after)

section
variable {fs : Fs} {inode : Nat}

theorem inImage_not_stray (geometry : Geometry fs) {b : Nat} (found : InImage fs inode b) : ¬ Stray fs inode b := by
  have inside := dataBlockPtr_inside geometry found
  simp only [Stray]
  omega

/-- A byte of an existing block lies in the image. -/
theorem fileSource_inside (geometry : Geometry fs) {offset i : Nat} (found : InImage fs inode ((offset + i) / blockSize)) :
    fs.fsStartAddr ≤ fileSource fs inode offset i ∧ fileSource fs inode offset i < fs.fsEndAddr := by
  have inside := dataBlockPtr_inside geometry found
  obtain ⟨extent,fits⟩ := geometry
  simp only [InImage] at found
  simp only [fileSource,dataBlockPtr,blockSize] at *
  generalize blockNumber fs inode ((offset + i) / 4096) = number at *
  have small : (number + fs.metadata.numInodes + 1) * 4096 + fs.fsStartAddr < 2 ^ 32 := by omega
  rw [Nat.mod_eq_of_lt small] at inside ⊢
  omega

theorem lt_fileExtent {offset length i : Nat} : i < fileExtent fs inode offset length ↔
    i < requested fs inode offset length ∧ ∀ j, j ≤ i → ¬ Stray fs inode ((offset + j) / blockSize) := lt_streak

/-- Where each needed block is stray unless it exists or one before it does not,
    every byte that is copied comes from an existing block. -/
theorem copied_inImage {offset length : Nat}
    (first : ∀ b, Needed fs inode offset length b → (∀ c, c < b → Needed fs inode offset length c → InImage fs inode c) →
      InImage fs inode b ∨ Stray fs inode b) (b : Nat) :
    ∀ i, i < fileExtent fs inode offset length → (offset + i) / blockSize = b → InImage fs inode b := by
  induction b using Nat.strong_induction_on with
  | _ b ih =>
  intro i inside here
  obtain ⟨wanted,clean⟩ := lt_fileExtent.mp inside
  have before : ∀ c, c < b → Needed fs inode offset length c → InImage fs inode c := by
    rintro c earlier ⟨j,wanted',there⟩
    have order : j < i := by
      by_contra later
      have blocks : (offset + i) / blockSize ≤ (offset + j) / blockSize := Nat.div_le_div_right (by omega)
      omega
    exact ih c earlier j (lt_fileExtent.mpr ⟨wanted',fun l low => clean l (by omega)⟩) there
  rcases first b ⟨i,wanted,here⟩ before with found | stray
  · exact found
  · exact absurd (here ▸ stray) (clean i (Nat.le_refl i))

end

/-- Block numbers that are too large are detected in a request exactly when the
    first of them, if there is one, has an address past the end of the image.
    `read_data` copies the bytes up to the first block with such an address, from
    where their block numbers say. -/
theorem numbers_detected_iff {fs : Fs} (geometry : Geometry fs) {inode : Nat}
    (short : fileLength fs inode < maxDataBlockCount * blockSize) (offset length : Nat) :
    (∀ buf, readData fs inode offset buf length = .ok (readValue fs inode offset length,
      copyInto buf 0 (fun i => fs.mem (fileSource fs inode offset i % 2 ^ 32)) (fileExtent fs inode offset length))) ∧
    (Detected fs inode offset length ↔ ∀ b, Needed fs inode offset length b →
      (∀ c, c < b → Needed fs inode offset length c → InImage fs inode c) → InImage fs inode b ∨ Stray fs inode b) := by
  have loads : Loads fs inode offset := fun _ _ => blocks_few short
  refine ⟨fun buf => readData_extent loads buf length,?_⟩
  constructor
  · rintro detected b ⟨i,wanted,here⟩ before
    by_contra neither
    obtain ⟨missing,clean⟩ := not_or.mp neither
    have inside : i < fileExtent fs inode offset length := by
      refine lt_fileExtent.mpr ⟨wanted,fun j low => ?_⟩
      by_cases same : (offset + j) / blockSize = b
      · rw [same]
        exact clean
      · have blocks : (offset + j) / blockSize ≤ (offset + i) / blockSize := Nat.div_le_div_right (by omega)
        exact inImage_not_stray geometry (before _ (by omega) ⟨j,by omega,rfl⟩)
    have found := (detected.copied i inside).1
    rw [here] at found
    exact missing found
  · intro first
    have sound := copied_inImage first
    constructor
    · intro i inside
      have found := sound _ i inside rfl
      exact ⟨found,fileSource_inside geometry found⟩
    · rintro ⟨b,⟨i,wanted,here⟩,missing⟩ buf
      have incomplete : fileExtent fs inode offset length ≠ requested fs inode offset length := by
        intro complete
        exact missing (sound b i (by omega) here)
      have failed : readValue fs inode offset length = -1 := if_neg fun all => incomplete all.2.2
      exact ⟨_,by rw [readData_extent loads,failed]⟩

theorem numbers_detected_shell : Detected shellFs 0 24 1024 := by
  refine ((numbers_detected_iff shellFs_geometry shellFs_file.short 24 1024).2).mpr ?_
  rintro b ⟨i,wanted,rfl⟩ _
  have four : requested shellFs 0 24 1024 = 4 := by decide
  rw [four] at wanted
  have first : (24 + i) / blockSize = 0 := by simp only [blockSize]; omega
  rw [first]
  exact .inl (by unfold InImage; decide)

/-- A file of 28 bytes in the block after the last of the image. -/
def edgeFs : Fs := imageOf [(0,1),(4,1),(8,1),(4096,28),(4100,1)]

/-- A file of 28 bytes whose block number is `2 ^ 20`. -/
def wrapFs : Fs := imageOf [(0,1),(4,1),(8,1),(4096,28),(4102,16)]

/-- One byte is copied from the end of the image, or from another block, with a
    block number that does not exist. -/
theorem numbers_detected_fail :
    (¬ InImage edgeFs 0 0 ∧ readValue edgeFs 0 0 1 = 1 ∧ fileSource edgeFs 0 0 0 = edgeFs.fsEndAddr) ∧
    (¬ InImage wrapFs 0 0 ∧ readValue wrapFs 0 0 1 = 1) ∧
    ¬ (∀ fs, Geometry fs → ∀ inode, inode < fs.metadata.numInodes →
      fileLength fs inode < maxDataBlockCount * blockSize → ∀ offset length, Detected fs inode offset length) := by
  have missing : ¬ InImage edgeFs 0 0 := by unfold InImage; decide
  refine ⟨⟨missing,by decide,by decide⟩,⟨by unfold InImage; decide,by decide⟩,?_⟩
  intro always
  have detected := always edgeFs ⟨by decide,by decide⟩ 0 (by decide) (by decide) 0 1
  exact missing (detected.copied 0 (by decide)).1

end MazeOS.CorruptImages
