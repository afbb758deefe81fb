import MazeOS.NameLookup
import MazeOS.Pieces
import Mathlib.Data.List.GetD

/-!
Images of file systems, written by their format. A `Volume` has directory entries,
files and a place for each block of each file; `image` is its boot block, inodes
and data blocks. Wherever such an image lies in memory, `filesystem.c` reads from
it what was written: every entry by its index and by its name, and every slice of
every file (`volume_reads`).
-/
namespace MazeOS.Volumes
open MazeOS.Bytes MazeOS.Strings MazeOS.Faults MazeOS.Filesystem MazeOS.ReadData MazeOS.NameLookup MazeOS.Pieces

/-! ### Volumes -/

/-- A directory entry. The name fills its field or has a NUL after it. -/
structure Entry where
  name : List UInt8
  filetype : Nat
  inode : Nat
  clean : (0 : UInt8) ∉ name
  short : name.length ≤ filenameSize
  words : filetype < 2 ^ 32 ∧ inode < 2 ^ 32

/-- The entries that a boot block has room for. -/
def maxDentries : Nat := 63

/-- The number of blocks that hold a byte of a file. -/
def blocksOf (data : List UInt8) : Nat := (data.length + (blockSize - 1)) / blockSize

/-- The files of a volume are counted by their inode numbers. Block `b` of file `n`
    is in the data block `place n b`, which no other block is in. -/
structure Volume where
  entries : List Entry
  files : List (List UInt8)
  numDataBlocks : Nat
  place : Nat → Nat → Nat
  few : entries.length ≤ maxDentries
  short : ∀ data ∈ files, data.length < maxDataBlockCount * blockSize
  placed : ∀ n b, b < blocksOf (files.getD n []) → place n b < numDataBlocks
  apart : ∀ n b n' b', b < blocksOf (files.getD n []) → b' < blocksOf (files.getD n' []) → place n b = place n' b' →
    n = n' ∧ b = b'

/-! ### Images -/

/-- The bytes of a word, the lowest first. -/
def wordBytes (w : Nat) : List UInt8 :=
  [UInt8.ofNat w,UInt8.ofNat (w / 256),UInt8.ofNat (w / 65536),UInt8.ofNat (w / 16777216)]

/-- The bytes of words, one word behind the other. -/
def wordsBytes (words : List Nat) : List UInt8 := words.flatMap wordBytes

namespace Volume
variable (v : Volume)

/-- `fs_metadata_t`, at the start of the boot block. -/
def header : Piece UInt8 := ⟨0,wordsBytes [v.entries.length,v.files.length,v.numDataBlocks]⟩

/-- A directory entry, in the boot block. -/
def dentry (i : Nat) (e : Entry) : Piece UInt8 :=
  ⟨(i + 1) * dentrySize,e.name ++ List.replicate (filenameSize - e.name.length) 0 ++ wordsBytes [e.filetype,e.inode]⟩

def fileAt (n : Nat) : List UInt8 := v.files.getD n []

/-- `inode_t`, with the numbers of the blocks that are used. -/
def inode (n : Nat) : Piece UInt8 :=
  ⟨(n + 1) * blockSize,wordsBytes ((v.fileAt n).length :: taken (v.place n) (blocksOf (v.fileAt n)))⟩

/-- Block `b` of file `n`. -/
def dataPiece (n b : Nat) : Piece UInt8 :=
  ⟨(1 + v.files.length + v.place n b) * blockSize,((v.fileAt n).drop (b * blockSize)).take blockSize⟩

def dentries : List (Piece UInt8) := v.entries.mapIdx dentry
def inodes : List (Piece UInt8) := (List.range v.files.length).map v.inode
def dataPieces : List (Piece UInt8) :=
  (List.range v.files.length).flatMap fun n => (List.range (blocksOf (v.fileAt n))).map (v.dataPiece n)

def pieces : List (Piece UInt8) := v.header :: (v.dentries ++ (v.inodes ++ v.dataPieces))

/-- The bytes of the image. -/
def image : Nat → UInt8 := assemble (fun _ => 0) v.pieces

/-- The number of bytes of the image. -/
def size : Nat := (1 + v.files.length + v.numDataBlocks) * blockSize

end Volume

/-! ### Words -/

theorem wordsBytes_length (words : List Nat) : (wordsBytes words).length = 4 * words.length := by
  induction words with
  | nil => rfl
  | cons w rest ih =>
    rw [wordsBytes,List.flatMap_cons,List.length_append,← wordsBytes,ih]
    simp [wordBytes]
    omega

/-- The bytes of a word are the word. -/
theorem littleEndian_wordBytes {w : Nat} (small : w < 2 ^ 32) {bytes : Nat → UInt8}
    (same : ∀ i (inside : i < 4), bytes i = (wordBytes w)[i]) : littleEndian bytes = w := by
  have zeroth : bytes 0 = UInt8.ofNat w := same 0 (by decide)
  have first : bytes 1 = UInt8.ofNat (w / 256) := same 1 (by decide)
  have second : bytes 2 = UInt8.ofNat (w / 65536) := same 2 (by decide)
  have third : bytes 3 = UInt8.ofNat (w / 16777216) := same 3 (by decide)
  simp only [littleEndian,zeroth,first,second,third,UInt8.toNat_ofNat']
  omega

/-- The bytes of the word at a place among words. -/
theorem wordsBytes_getElem {words : List Nat} {j : Nat} (inside : j < words.length) {i : Nat} (small : i < 4)
    (within : 4 * j + i < (wordsBytes words).length) : (wordsBytes words)[4 * j + i] = (wordBytes words[j])[i] := by
  induction words generalizing j with
  | nil => cases inside
  | cons w rest ih =>
    have four : (wordBytes w).length = 4 := rfl
    have split : wordsBytes (w :: rest) = wordBytes w ++ wordsBytes rest := List.flatMap_cons
    simp only [split]
    cases j with
    | zero =>
      simp only [Nat.mul_zero,Nat.zero_add,List.getElem_cons_zero]
      exact List.getElem_append_left (by rw [four]; exact small)
    | succ j =>
      rw [List.getElem_append_right (by rw [four]; omega)]
      have place : 4 * (j + 1) + i - (wordBytes w).length = 4 * j + i := by
        rw [four]
        omega
      simp only [place,List.getElem_cons_succ]
      rw [wordsBytes_length] at within
      simp only [List.length_cons] at inside within
      exact ih (by omega) (by rw [wordsBytes_length]; omega)

/-! ### Where the pieces are -/

section
variable {v : Volume} {p : Piece UInt8}

theorem mem_dentries : p ∈ v.dentries ↔ ∃ i, ∃ inside : i < v.entries.length, Volume.dentry i v.entries[i] = p :=
  List.mem_mapIdx

theorem mem_inodes : p ∈ v.inodes ↔ ∃ n, n < v.files.length ∧ v.inode n = p := by
  simp [Volume.inodes]

theorem mem_dataPieces : p ∈ v.dataPieces ↔
    ∃ n, n < v.files.length ∧ ∃ b, b < blocksOf (v.fileAt n) ∧ v.dataPiece n b = p := by
  simp [Volume.dataPieces]

theorem mem_pieces : p ∈ v.pieces ↔ p = v.header ∨ p ∈ v.dentries ∨ p ∈ v.inodes ∨ p ∈ v.dataPieces := by
  simp [Volume.pieces]

theorem fileAt_short (v : Volume) (n : Nat) : (v.fileAt n).length < maxDataBlockCount * blockSize := by
  by_cases inside : n < v.files.length
  · have here : v.fileAt n = v.files[n] := by simp [Volume.fileAt,inside]
    rw [here]
    exact v.short _ (List.getElem_mem inside)
  · have none : v.fileAt n = [] := by simp [Volume.fileAt,Nat.le_of_not_lt inside]
    rw [none]
    decide

theorem blocksOf_le (v : Volume) (n : Nat) : blocksOf (v.fileAt n) ≤ maxDataBlockCount := by
  have short := fileAt_short v n
  simp only [blocksOf,maxDataBlockCount,blockSize] at *
  omega

theorem header_finish (v : Volume) : v.header.finish = 12 := rfl

theorem dentry_length (i : Nat) (e : Entry) : (Volume.dentry i e).values.length = 40 := by
  have short := e.short
  simp only [Volume.dentry,List.length_append,List.length_replicate,wordsBytes_length,List.length_cons,List.length_nil,
    filenameSize] at *
  omega

theorem dentry_finish (i : Nat) (e : Entry) : (Volume.dentry i e).finish = (i + 1) * dentrySize + 40 := by
  rw [Piece.finish,dentry_length]
  rfl

theorem inode_length (v : Volume) (n : Nat) : (v.inode n).values.length = 4 * (blocksOf (v.fileAt n) + 1) := by
  simp only [Volume.inode,wordsBytes_length,List.length_cons,taken_length]

theorem inode_finish (v : Volume) (n : Nat) : (v.inode n).finish ≤ (n + 2) * blockSize := by
  have few := blocksOf_le v n
  have start : (v.inode n).start = (n + 1) * blockSize := rfl
  rw [Piece.finish,inode_length,start]
  simp only [maxDataBlockCount,blockSize] at *
  omega

theorem dataPiece_finish (v : Volume) (n b : Nat) :
    (v.dataPiece n b).finish ≤ (1 + v.files.length + v.place n b + 1) * blockSize := by
  have short : (((v.fileAt n).drop (b * blockSize)).take blockSize).length ≤ blockSize := List.length_take_le _ _
  have start : (v.dataPiece n b).start = (1 + v.files.length + v.place n b) * blockSize := rfl
  rw [Piece.finish,start,Nat.succ_mul]
  exact Nat.add_le_add_left short _

theorem dentries_compatible (v : Volume) : Compatible v.dentries := by
  refine compatible_indexed (fun i p => ∃ inside : i < v.entries.length, Volume.dentry i v.entries[i] = p)
    (fun p => mem_dentries.mp) ?_ ?_
  · rintro i p q ⟨_,rfl⟩ ⟨_,rfl⟩
    rfl
  · rintro i j p q ⟨_,rfl⟩ ⟨_,rfl⟩ other
    rw [Piece.Apart,dentry_finish,dentry_finish]
    simp only [Volume.dentry,dentrySize]
    omega

theorem inodes_compatible (v : Volume) : Compatible v.inodes := by
  refine compatible_indexed (fun n p => n < v.files.length ∧ v.inode n = p) (fun p => mem_inodes.mp) ?_ ?_
  · rintro n p q ⟨_,rfl⟩ ⟨_,rfl⟩
    rfl
  · rintro m n p q ⟨_,rfl⟩ ⟨_,rfl⟩ other
    have first := inode_finish v m
    have second := inode_finish v n
    simp only [Piece.Apart,Volume.inode,blockSize] at *
    omega

theorem dataPieces_compatible (v : Volume) : Compatible v.dataPieces := by
  refine compatible_indexed (fun (at' : Nat × Nat) p => at'.1 < v.files.length ∧ at'.2 < blocksOf (v.fileAt at'.1) ∧
    v.dataPiece at'.1 at'.2 = p) ?_ ?_ ?_
  · intro p member
    obtain ⟨n,inside,b,used,here⟩ := mem_dataPieces.mp member
    exact ⟨(n,b),inside,used,here⟩
  · rintro at' p q ⟨_,_,rfl⟩ ⟨_,_,rfl⟩
    rfl
  · rintro ⟨n,b⟩ ⟨n',b'⟩ p q ⟨_,used,rfl⟩ ⟨_,used',rfl⟩ other
    have distinct : v.place n b ≠ v.place n' b' := by
      intro same
      obtain ⟨rfl,rfl⟩ := v.apart n b n' b' used used' same
      exact other rfl
    have first := dataPiece_finish v n b
    have second := dataPiece_finish v n' b'
    simp only [Piece.Apart,Volume.dataPiece,blockSize] at *
    omega

/-- The pieces of an image have no byte in common. -/
theorem pieces_compatible (v : Volume) : Compatible v.pieces := by
  have few := v.few
  have behind : ∀ q ∈ v.inodes ++ v.dataPieces, blockSize ≤ q.start := by
    intro q member
    rcases List.mem_append.mp member with inode | data
    · obtain ⟨n,_,rfl⟩ := mem_inodes.mp inode
      simp only [Volume.inode,blockSize]
      omega
    · obtain ⟨n,_,b,_,rfl⟩ := mem_dataPieces.mp data
      simp only [Volume.dataPiece,blockSize]
      omega
  have table : ∀ p ∈ v.dentries, dentrySize ≤ p.start ∧ p.finish ≤ blockSize := by
    intro p member
    obtain ⟨i,inside,rfl⟩ := mem_dentries.mp member
    rw [dentry_finish]
    simp only [Volume.dentry,dentrySize,blockSize,maxDentries] at *
    omega
  have boot : Compatible [v.header] := by
    intro p member q member'
    rw [List.mem_singleton] at member member'
    exact .inl (member.trans member'.symm)
  refine compatible_append boot (compatible_append (dentries_compatible v)
    (compatible_append (inodes_compatible v) (dataPieces_compatible v) ?_) ?_) ?_
  · intro p inode q data
    obtain ⟨n,inside,rfl⟩ := mem_inodes.mp inode
    obtain ⟨m,_,b,_,rfl⟩ := mem_dataPieces.mp data
    refine .inl (Nat.le_trans (inode_finish v n) ?_)
    simp only [Volume.dataPiece,blockSize]
    omega
  · intro p entry q other
    exact .inl (Nat.le_trans (table p entry).2 (behind q other))
  · intro p first q other
    rw [List.mem_singleton] at first
    subst first
    rw [Piece.Apart,header_finish]
    rcases List.mem_append.mp other with entry | rest
    · have start := (table q entry).1
      simp only [dentrySize] at start
      omega
    · have start := behind q rest
      simp only [blockSize] at start
      omega

/-- The pieces lie in the image. -/
theorem piece_within (member : p ∈ v.pieces) : p.finish ≤ v.size := by
  have few := v.few
  rcases mem_pieces.mp member with rfl | entry | inode | data
  · rw [header_finish]
    simp only [Volume.size,blockSize]
    omega
  · obtain ⟨i,inside,rfl⟩ := mem_dentries.mp entry
    rw [dentry_finish]
    simp only [Volume.size,dentrySize,blockSize,maxDentries] at *
    omega
  · obtain ⟨n,inside,rfl⟩ := mem_inodes.mp inode
    refine Nat.le_trans (inode_finish v n) (Nat.mul_le_mul_right _ ?_)
    omega
  · obtain ⟨n,_,b,used,rfl⟩ := mem_dataPieces.mp data
    have placed := v.placed n b used
    refine Nat.le_trans (dataPiece_finish v n b) (Nat.mul_le_mul_right _ ?_)
    omega

end

/-! ### Reading -/

/-- The image of a volume lies in memory. -/
structure Stored (v : Volume) (mem : Nat → UInt8) (start : Nat) : Prop where
  bytes : ∀ a, a < v.size → mem (start + a) = v.image a
  fits : start + v.size < 2 ^ 32

/-- The file system after `fs_init`. -/
def Volume.mounted (v : Volume) (mem : Nat → UInt8) (start : Nat) : Fs := fsInit mem start (start + v.size)

/-- The structure that an entry is read into. -/
def Entry.toDentry (e : Entry) : Dentry :=
  ⟨e.name ++ List.replicate (filenameSize - e.name.length) 0 ++ [0],e.filetype,e.inode⟩

section
variable {v : Volume} {p : Piece UInt8} {mem : Nat → UInt8} {start : Nat}

theorem stored_byte (stored : Stored v mem start) (member : p ∈ v.pieces) {i : Nat} (inside : i < p.values.length) :
    bytesAt mem (start + p.start) i = p.values[i] := by
  have within := piece_within member
  have fits := stored.fits
  have below : p.start + i < v.size := by
    simp only [Piece.finish] at within
    omega
  rw [bytesAt,Nat.mod_eq_of_lt (by omega),Nat.add_assoc,stored.bytes _ below]
  exact assemble_piece (pieces_compatible v) member inside

/-- A word of a piece is read back. -/
theorem stored_word (stored : Stored v mem start) (member : p ∈ v.pieces) {before : List UInt8} {words : List Nat}
    (split : p.values = before ++ wordsBytes words) {j : Nat} (inside : j < words.length) (small : words[j] < 2 ^ 32) :
    word mem (start + p.start + before.length + 4 * j) = words[j] := by
  refine littleEndian_wordBytes small fun i few => ?_
  have size : p.values.length = before.length + 4 * words.length := by
    rw [split,List.length_append,wordsBytes_length]
  have byte := stored_byte stored member (i := before.length + (4 * j + i)) (by omega)
  simp only [split] at byte
  rw [List.getElem_append_right (Nat.le_add_right _ _)] at byte
  simp only [Nat.add_sub_cancel_left] at byte
  rw [wordsBytes_getElem inside few] at byte
  rw [← byte]
  simp only [bytesAt,Nat.add_assoc]

theorem header_mem (v : Volume) : v.header ∈ v.pieces := mem_pieces.mpr (.inl rfl)

theorem dentry_mem {i : Nat} (inside : i < v.entries.length) : Volume.dentry i v.entries[i] ∈ v.pieces :=
  mem_pieces.mpr (.inr (.inl (mem_dentries.mpr ⟨i,inside,rfl⟩)))

theorem inode_mem {n : Nat} (inside : n < v.files.length) : v.inode n ∈ v.pieces :=
  mem_pieces.mpr (.inr (.inr (.inl (mem_inodes.mpr ⟨n,inside,rfl⟩))))

theorem dataPiece_mem {n b : Nat} (inside : n < v.files.length) (used : b < blocksOf (v.fileAt n)) :
    v.dataPiece n b ∈ v.pieces :=
  mem_pieces.mpr (.inr (.inr (.inr (mem_dataPieces.mpr ⟨n,inside,b,used,rfl⟩))))

/-- `fs_init` finds the sizes of the volume. -/
theorem mounted_metadata (stored : Stored v mem start) :
    (v.mounted mem start).metadata = ⟨v.entries.length,v.files.length,v.numDataBlocks⟩ := by
  have few := v.few
  have fits := stored.fits
  simp only [Volume.size,blockSize,maxDentries] at fits few
  have at_j {j : Nat} (inside : j < 3) (small : [v.entries.length,v.files.length,v.numDataBlocks][j] < 2 ^ 32) :
      word mem (start + 4 * j) = [v.entries.length,v.files.length,v.numDataBlocks][j] :=
    stored_word stored (header_mem v) (List.nil_append _).symm inside small
  have zeroth : word mem start = v.entries.length := at_j (j := 0) (by decide) (show v.entries.length < _ by omega)
  have first : word mem (start + 4) = v.files.length := at_j (j := 1) (by decide) (show v.files.length < _ by omega)
  have second : word mem (start + 8) = v.numDataBlocks := at_j (j := 2) (by decide) (show v.numDataBlocks < _ by omega)
  rw [Volume.mounted,fsInit,zeroth,first,second]

theorem mounted_geometry (stored : Stored v mem start) : Geometry (v.mounted mem start) := by
  refine ⟨?_,stored.fits⟩
  rw [mounted_metadata stored]
  rfl

/-! ### Entries -/

/-- The name field of an entry, and the words behind it. -/
theorem mounted_name (stored : Stored v mem start) {i : Nat} (inside : i < v.entries.length) {j : Nat}
    (within : j < filenameSize) : bytesAt mem (entryAddress (v.mounted mem start) i) j =
      (v.entries[i].name ++ List.replicate (filenameSize - v.entries[i].name.length) 0).getD j 0 := by
  have short := v.entries[i].short
  have size : (v.entries[i].name ++ List.replicate (filenameSize - v.entries[i].name.length) (0 : UInt8)).length =
      filenameSize := by
    simp only [List.length_append,List.length_replicate]
    omega
  have long : j < (Volume.dentry i v.entries[i]).values.length := by
    rw [dentry_length]
    simp only [filenameSize] at within
    omega
  have byte := stored_byte stored (dentry_mem inside) long
  have address : entryAddress (v.mounted mem start) i = start + (Volume.dentry i v.entries[i]).start := Nat.add_comm _ _
  rw [address,byte,List.getD_eq_getElem?_getD,List.getElem?_eq_getElem (by omega),Option.getD_some]
  exact List.getElem_append_left (by omega)

theorem mounted_words (stored : Stored v mem start) {i : Nat} (inside : i < v.entries.length) :
    word mem (entryAddress (v.mounted mem start) i + filenameSize) = v.entries[i].filetype ∧
    word mem (entryAddress (v.mounted mem start) i + filenameSize + 4) = v.entries[i].inode := by
  have short := v.entries[i].short
  have words := v.entries[i].words
  have size : (v.entries[i].name ++ List.replicate (filenameSize - v.entries[i].name.length) (0 : UInt8)).length =
      filenameSize := by
    simp only [List.length_append,List.length_replicate]
    omega
  have address : entryAddress (v.mounted mem start) i = start + (Volume.dentry i v.entries[i]).start := Nat.add_comm _ _
  have at_j {j : Nat} (few : j < 2) (small : [v.entries[i].filetype,v.entries[i].inode][j] < 2 ^ 32) :
      word mem (start + (Volume.dentry i v.entries[i]).start +
        (v.entries[i].name ++ List.replicate (filenameSize - v.entries[i].name.length) (0 : UInt8)).length + 4 * j) =
      [v.entries[i].filetype,v.entries[i].inode][j] := stored_word stored (dentry_mem inside) rfl few small
  rw [size,← address] at at_j
  exact ⟨at_j (j := 0) (by decide) words.1,at_j (j := 1) (by decide) words.2⟩

/-- An entry of the image is the entry of the volume. -/
theorem mounted_entry (stored : Stored v mem start) {i : Nat} (inside : i < v.entries.length) :
    entry (v.mounted mem start) i = v.entries[i].toDentry := by
  have short := v.entries[i].short
  have field : taken (bytesAt mem (entryAddress (v.mounted mem start) i)) filenameSize =
      v.entries[i].name ++ List.replicate (filenameSize - v.entries[i].name.length) 0 := by
    apply List.ext_getElem
    · simp only [taken_length,List.length_append,List.length_replicate]
      omega
    · intro j within within'
      rw [taken_length] at within
      rw [taken_getElem,mounted_name stored inside within,List.getD_eq_getElem?_getD,List.getElem?_eq_getElem within',
        Option.getD_some]
  obtain ⟨filetype,inode⟩ := mounted_words stored inside
  have image : (v.mounted mem start).mem = mem := rfl
  rw [entry,dentryAt,image,field,filetype,inode]
  rfl

theorem mounted_nameOf (stored : Stored v mem start) {i : Nat} (inside : i < v.entries.length) :
    nameOf (v.mounted mem start) i = v.entries[i].name := by
  have short := v.entries[i].short
  have same : nameOf (v.mounted mem start) i = text 0 (padded 0 v.entries[i].name) filenameSize := by
    refine text_eq_iff.mpr fun j within _ => ?_
    refine (mounted_name stored inside within).trans ?_
    by_cases early : j < v.entries[i].name.length
    · rw [padded,List.getD_append _ _ _ _ early]
    · rw [padded_outside (Nat.le_of_not_lt early),List.getD_append_right _ _ _ _ (Nat.le_of_not_lt early)]
      simp
  rw [same,text_holds (holds_padded v.entries[i].clean),List.take_of_length_le short]

/-! ### Files -/

theorem mounted_inodePtr (stored : Stored v mem start) {n : Nat} (inside : n < v.files.length) :
    getInodePtr (v.mounted mem start) n = start + (v.inode n).start := by
  have fits := stored.fits
  have first : (v.mounted mem start).fsStartAddr = start := rfl
  simp only [Volume.size,blockSize] at fits
  simp only [getInodePtr,first,Volume.inode,blockSize]
  omega

theorem mounted_length (stored : Stored v mem start) {n : Nat} (inside : n < v.files.length) :
    fileLength (v.mounted mem start) n = (v.fileAt n).length := by
  have short := fileAt_short v n
  simp only [maxDataBlockCount,blockSize] at short
  rw [fileLength,mounted_inodePtr stored inside]
  refine stored_word stored (inode_mem inside) (List.nil_append _).symm (j := 0) (Nat.succ_pos _) ?_
  rw [List.getElem_cons_zero]
  omega

theorem mounted_blockNumber (stored : Stored v mem start) {n b : Nat} (inside : n < v.files.length)
    (used : b < blocksOf (v.fileAt n)) : blockNumber (v.mounted mem start) n b = v.place n b := by
  have placed := v.placed n b used
  have fits := stored.fits
  simp only [Volume.size,blockSize] at fits
  have words : (v.inode n).values =
      [] ++ wordsBytes ((v.fileAt n).length :: taken (v.place n) (blocksOf (v.fileAt n))) := (List.nil_append _).symm
  have found := stored_word stored (inode_mem inside) words (j := b + 1)
    (by rw [List.length_cons,taken_length]; omega)
    (by rw [List.getElem_cons_succ,taken_getElem]; omega)
  rw [List.getElem_cons_succ,taken_getElem,List.length_nil] at found
  rw [blockNumber,mounted_inodePtr stored inside]
  refine Eq.trans (congrArg (word mem) ?_) found
  omega

theorem mounted_file (stored : Stored v mem start) {n : Nat} (inside : n < v.files.length) :
    WellFormedFile (v.mounted mem start) n := by
  have metadata := mounted_metadata stored
  refine ⟨?_,?_,?_⟩
  · rw [metadata]
    exact inside
  · rw [mounted_length stored inside]
    exact fileAt_short v n
  · intro b used
    rw [usedBlocks,mounted_length stored inside] at used
    rw [mounted_blockNumber stored inside used,metadata]
    exact v.placed n b used

/-- The bytes of a file are those of the volume. -/
theorem mounted_byte (stored : Stored v mem start) {n : Nat} (inside : n < v.files.length) {i : Nat}
    (within : i < (v.fileAt n).length) : fileByte (v.mounted mem start) n i = (v.fileAt n)[i] := by
  have used : i / blockSize < blocksOf (v.fileAt n) := by
    simp only [blocksOf,blockSize]
    omega
  have placed := v.placed n _ used
  have fits := stored.fits
  have first : (v.mounted mem start).fsStartAddr = start := rfl
  have metadata := mounted_metadata stored
  have below : i % blockSize < blockSize := Nat.mod_lt _ (by decide)
  have split : i / blockSize * blockSize + i % blockSize = i := Nat.div_add_mod' i blockSize
  have address : dataBlockPtr (v.mounted mem start) (v.place n (i / blockSize)) =
      start + (v.dataPiece n (i / blockSize)).start := by
    simp only [Volume.size,blockSize] at fits
    simp only [dataBlockPtr,first,metadata,Volume.dataPiece,blockSize] at placed ⊢
    omega
  have long : i % blockSize < (v.dataPiece n (i / blockSize)).values.length := by
    simp only [Volume.dataPiece,List.length_take,List.length_drop]
    omega
  have byte := stored_byte stored (dataPiece_mem inside used) long
  have image : (v.mounted mem start).mem = mem := rfl
  rw [fileByte,mounted_blockNumber stored inside used,image,address,byte]
  simp only [Volume.dataPiece,List.getElem_take,List.getElem_drop,split]

/-! ### Reading everything back -/

theorem mounted_slice (stored : Stored v mem start) {n : Nat} (inside : n < v.files.length) (offset length : Nat) :
    readCount (v.mounted mem start) n offset length = (((v.fileAt n).drop offset).take length).length ∧
    taken (fun i => fileByte (v.mounted mem start) n (offset + i)) (readCount (v.mounted mem start) n offset length) =
      ((v.fileAt n).drop offset).take length := by
  have size : readCount (v.mounted mem start) n offset length = (((v.fileAt n).drop offset).take length).length := by
    rw [readCount,mounted_length stored inside,List.length_take,List.length_drop]
    split <;> omega
  refine ⟨size,?_⟩
  apply List.ext_getElem
  · rw [taken_length,size]
  · intro i _ within
    have within' : offset + i < (v.fileAt n).length := by
      rw [List.length_take,List.length_drop] at within
      omega
    rw [taken_getElem,mounted_byte stored inside within',List.getElem_take,List.getElem_drop]

/-- Lookup by name finds the first entry of the name. -/
theorem mounted_lookup (stored : Stored v mem start) {name : List UInt8} {fname : Nat → UInt8} (holds : Holds 0 fname name)
    (short : name.length ≤ filenameSize) :
    readDentryByName (v.mounted mem start) fname = (v.entries.find? fun e => e.name = name).map Entry.toDentry := by
  have number : (v.mounted mem start).metadata.numDentries = v.entries.length := by rw [mounted_metadata stored]
  have wanted : text 0 fname filenameSize = name := by rw [text_holds holds,List.take_of_length_le short]
  have named : ∀ i (inside : i < v.entries.length),
      (nameOf (v.mounted mem start) i = text 0 fname filenameSize ↔ v.entries[i].name = name) := by
    intro i inside
    rw [mounted_nameOf stored inside,wanted]
  cases found : v.entries.find? fun e => e.name = name with
  | none =>
    rw [Option.map_none,← Option.not_isSome_iff_eq_none,readDentryByName_isSome]
    rintro ⟨i,inside,same⟩
    rw [number] at inside
    exact List.find?_eq_none.mp found _ (List.getElem_mem inside) (by simpa using (named i inside).mp same)
  | some e =>
    obtain ⟨same,i,inside,rfl,first⟩ := List.find?_eq_some_iff_getElem.mp found
    rw [Option.map_some,← mounted_entry stored inside]
    refine readDentryByName_first (number ▸ inside) ((named i inside).mpr (by simpa using same)) ?_
    intro j before equal
    have other := first j before
    simp [(named j (by omega)).mp equal] at other

/-- Wherever the image of a volume lies in memory, `filesystem.c` reads the volume
    from it: the entries by their indices, the first entry of each name by that
    name, and every slice of every file, with nothing written behind it. What the
    volume does not have is refused. -/
theorem volume_reads (stored : Stored v mem start) :
    (∀ i, readDentryByIndex (v.mounted mem start) i = v.entries[i]?.map Entry.toDentry) ∧
    (∀ name fname, Holds 0 fname name → name.length ≤ filenameSize →
      readDentryByName (v.mounted mem start) fname = (v.entries.find? fun e => e.name = name).map Entry.toDentry) ∧
    (∀ n data, v.files[n]? = some data → ∀ offset buf length, ∃ after,
      readData (v.mounted mem start) n offset buf length = .ok (((data.drop offset).take length).length,after) ∧
      taken after ((data.drop offset).take length).length = (data.drop offset).take length ∧
      ∀ i, ((data.drop offset).take length).length ≤ i → after i = buf i) ∧
    ∀ n, v.files[n]? = none → ∀ offset buf length, readData (v.mounted mem start) n offset buf length = .ok (-1,buf) := by
  have metadata := mounted_metadata stored
  refine ⟨?_,fun name fname => mounted_lookup stored,?_,?_⟩
  · intro i
    by_cases inside : i < v.entries.length
    · rw [readDentryByIndex_entry (by rw [metadata]; exact inside),mounted_entry stored inside,
        List.getElem?_eq_getElem inside,Option.map_some]
    · have past : i ≥ (v.mounted mem start).metadata.numDentries := by
        rw [metadata]
        exact Nat.le_of_not_lt inside
      rw [readDentryByIndex,if_pos past,List.getElem?_eq_none (Nat.le_of_not_lt inside),Option.map_none]
  · intro n data here offset buf length
    obtain ⟨inside,same⟩ := List.getElem?_eq_some_iff.mp here
    have file : v.fileAt n = data := by simp [Volume.fileAt,here]
    obtain ⟨size,slice⟩ := mounted_slice stored inside offset length
    rw [file] at size slice
    refine ⟨_,by rw [readData_eq (mounted_geometry stored) (mounted_file stored inside),size],?_,?_⟩
    · rw [← slice,taken_length]
      refine taken_congr fun i before => ?_
      rw [size] at before
      rw [copyInto_inside (Nat.zero_le i) (by omega),Nat.sub_zero]
    · intro i behind
      exact copyInto_outside (by omega)
  · intro n absent offset buf length
    have past : n ≥ (v.mounted mem start).metadata.numInodes := by
      rw [metadata]
      exact List.getElem?_eq_none_iff.mp absent
    rw [readData,if_pos past]

end

/-! ### Volumes with the files one behind the other -/

/-- The number of blocks of the files before a file. -/
def blocksBefore (files : List (List UInt8)) (n : Nat) : Nat := ((files.take n).map blocksOf).sum

section
variable {files : List (List UInt8)} {m n b : Nat}

theorem blocksBefore_succ (inside : n < files.length) :
    blocksBefore files (n + 1) = blocksBefore files n + blocksOf (files.getD n []) := by
  rw [blocksBefore,blocksBefore,List.take_add_one,List.getElem?_eq_getElem inside,Option.toList_some,List.map_append,
    List.sum_append,List.getD_eq_getElem?_getD,List.getElem?_eq_getElem inside,Option.getD_some]
  simp

theorem blocksBefore_mono (before : m ≤ n) : blocksBefore files m ≤ blocksBefore files n := by
  induction before with
  | refl => exact Nat.le_refl _
  | step _ ih =>
    rename_i n _
    by_cases inside : n < files.length
    · rw [blocksBefore_succ inside]
      omega
    · have outside : files.length ≤ n := Nat.le_of_not_lt inside
      have same : blocksBefore files (n + 1) = blocksBefore files n := by
        rw [blocksBefore,blocksBefore,List.take_of_length_le outside,List.take_of_length_le (by omega)]
      exact same ▸ ih

theorem used_inside (used : b < blocksOf (files.getD n [])) : n < files.length := by
  by_contra outside
  rw [List.getD_eq_getElem?_getD,List.getElem?_eq_none (Nat.le_of_not_lt outside),Option.getD_none] at used
  exact absurd used (Nat.not_lt_zero b)

/-- The blocks of a file end before those of a later one. -/
theorem blocksBefore_apart (used : b < blocksOf (files.getD m [])) (before : m < n) :
    blocksBefore files m + b < blocksBefore files n := by
  have next : blocksBefore files (m + 1) ≤ blocksBefore files n := blocksBefore_mono before
  rw [blocksBefore_succ (used_inside used)] at next
  omega

end

/-- The volume of some entries and files. -/
def Volume.pack (entries : List Entry) (files : List (List UInt8)) (few : entries.length ≤ maxDentries)
    (short : ∀ data ∈ files, data.length < maxDataBlockCount * blockSize) : Volume where
  entries := entries
  files := files
  numDataBlocks := blocksBefore files files.length
  place n b := blocksBefore files n + b
  few := few
  short := short
  placed _ _ used := blocksBefore_apart used (used_inside used)
  apart n b n' b' used used' same := by
    rcases Nat.lt_trichotomy n n' with before | equal | after
    · have apart := blocksBefore_apart used before
      omega
    · subst equal
      exact ⟨rfl,by omega⟩
    · have apart := blocksBefore_apart used' after
      omega

/-- An image lies where it is put. -/
theorem stored_self (v : Volume) (small : v.size < 2 ^ 32) : Stored v v.image 0 :=
  ⟨fun a _ => congrArg v.image (Nat.zero_add a),by omega⟩

/-- The directory `.`, a program `a` that is nothing but an ELF header of 28 bytes,
    and a file `b`. -/
def sampleVolume : Volume := .pack
  [⟨[46],1,0,by decide,by decide,by decide⟩,⟨[97],2,0,by decide,by decide,by decide⟩,
    ⟨[98],2,1,by decide,by decide,by decide⟩]
  [[0x7F,0x45,0x4C,0x46] ++ List.replicate 20 0 ++ [0,0x80,4,8],[104,105]] (by decide) (by decide)

theorem sample_stored : Stored sampleVolume sampleVolume.image 0 := stored_self _ (by decide)

theorem volume_reads_sample : ∃ after,
    readDentryByName (sampleVolume.mounted sampleVolume.image 0) (padded 0 [98]) = some ⟨98 :: List.replicate 32 0,2,1⟩ ∧
    readData (sampleVolume.mounted sampleVolume.image 0) 1 1 (fun _ => 0) 5 = .ok (1,after) ∧ taken after 1 = [105] := by
  obtain ⟨_,lookup,slices,_⟩ := volume_reads sample_stored
  obtain ⟨after,read,slice,_⟩ := slices 1 [104,105] rfl 1 (fun _ => 0) 5
  exact ⟨after,lookup [98] (padded 0 [98]) (holds_padded (by decide)) (by decide),read,slice⟩

end MazeOS.Volumes
