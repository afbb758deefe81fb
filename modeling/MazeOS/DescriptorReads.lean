import MazeOS.FileReads
import MazeOS.Transfers

/-!
A regular file read through a descriptor, and read by its inode number. `open`
stores the address of the inode, and `fs_read` computes the number back from it
(`servedInode`): only 20 bits of the number take part, read as signed
(`getInodeFromPtr_getInodePtr`). Two numbers with one address have one file
(`readData_shared`), so the two reads differ exactly when one of the two numbers
is refused and the other is not, and something is read (`descriptor_reads_iff`).
-/
namespace MazeOS.DescriptorReads
open MazeOS.Runs MazeOS.Bytes MazeOS.Faults MazeOS.Filesystem MazeOS.State MazeOS.Files MazeOS.ReadData
  MazeOS.Descriptors MazeOS.FileReads MazeOS.Transfers

/-! ### The number behind an address -/

/-- The number that `fs_read` finds behind the address of an inode: the number of
    its block, cut to 20 bits and read as signed. -/
def servedInode (inode : Nat) : Nat := ((inode + 1 + 2 ^ 19) % 2 ^ 20 + (2 ^ 32 - 2 ^ 19 - 1)) % 2 ^ 32

/-- The block of the inode is found again while its number is one of 20 bits,
    read as signed. -/
theorem servedInode_self {inode : Nat} (word : inode < 2 ^ 32) :
    servedInode inode = inode ↔ inode + 1 < 2 ^ 19 ∨ 2 ^ 32 - 2 ^ 19 ≤ inode + 1 := by
  simp only [servedInode]
  omega

/-- The difference of the two pointers is a multiple of the block size. -/
theorem inode_difference (fs : Fs) (inode : Nat) :
    (((getInodePtr fs inode : Int) - fs.fsStartAddr) % 2 ^ 32).toNat = (inode + 1) % 2 ^ 20 * blockSize := by
  simp only [getInodePtr,blockSize]
  omega

theorem getInodeFromPtr_getInodePtr (fs : Fs) (inode : Nat) :
    getInodeFromPtr fs (getInodePtr fs inode) = servedInode inode := by
  simp only [getInodeFromPtr,inode_difference,servedInode,signed,blockSize]
  by_cases positive : (inode + 1) % 2 ^ 20 * 4096 < 2 ^ 31
  · rw [if_pos positive,← Int.ofNat_tdiv,Nat.mul_div_cancel _ (by decide)]
    omega
  · have multiple : (((inode + 1) % 2 ^ 20 * 4096 : Nat) : Int) - 2 ^ 32 =
        ((((inode + 1) % 2 ^ 20 : Nat) : Int) - 2 ^ 20) * (4096 : Nat) := by omega
    rw [if_neg positive,multiple,Int.mul_tdiv_cancel _ (by decide)]
    omega

/-- The address of the inode is the same for both numbers. -/
theorem getInodePtr_served (fs : Fs) (inode : Nat) : getInodePtr fs (servedInode inode) = getInodePtr fs inode := by
  simp only [getInodePtr,servedInode,blockSize]
  omega

/-! ### What a read delivers -/

/-- The count and the buffer, where -1 is reported as 0. -/
def reported (result : Checked (Int × (Nat → UInt8))) : Checked (Int × (Nat → UInt8)) :=
  result >>= fun (bytesRead,buf) => .ok (if bytesRead = -1 then 0 else bytesRead,buf)

/-- What the caller of `fs_read` sees. -/
def delivery (result : Checked (Int × Kernel × (Nat → UInt8))) : Checked (Int × (Nat → UInt8)) :=
  result >>= fun (bytesRead,_,buf) => .ok (bytesRead,buf)

/-- A descriptor at another position of its file. -/
def seek (k : Kernel) (fd pos : Nat) : Kernel := setFd k fd { fdsOf k fd with pos := pos }

/-- A read of an inode delivers nothing: it starts at the end of the file, or it
    asks for no bytes, or its first block lies past the end of the image. The
    block numbers fit in `inode_t` where they are copied. -/
def Silent (fs : Fs) (inode pos nbytes : Nat) : Prop :=
  fileLength fs inode ≤ pos ∨
    (fileLength fs inode / blockSize < maxDataBlockCount ∧ (nbytes = 0 ∨ Stray fs inode (pos / blockSize)))

instance (fs : Fs) (inode pos nbytes : Nat) : Decidable (Silent fs inode pos nbytes) :=
  inferInstanceAs (Decidable (_ ∨ _ ∧ (_ ∨ _)))

section
variable {fs : Fs} {inode other : Nat}

/-- Two numbers with one address that both exist name one file. -/
theorem readData_shared (shared : getInodePtr fs inode = getInodePtr fs other)
    (present : inode < fs.metadata.numInodes)
    (present' : other < fs.metadata.numInodes) (pos : Nat) (buf : Nat → UInt8) (nbytes : Nat) :
    readData fs inode pos buf nbytes = readData fs other pos buf nbytes := by
  simp only [readData,shared,Nat.not_le_of_lt present,Nat.not_le_of_lt present']

theorem readData_absent (absent : ¬ inode < fs.metadata.numInodes) (pos : Nat) (buf : Nat → UInt8) (nbytes : Nat) :
    readData fs inode pos buf nbytes = .ok (-1,buf) := if_pos (Nat.le_of_not_lt absent)

theorem silent_shared (shared : getInodePtr fs inode = getInodePtr fs other) (pos nbytes : Nat) :
    Silent fs inode pos nbytes ↔ Silent fs other pos nbytes := by
  simp only [Silent,Stray,blockNumber,fileLength,shared]

/-- A read that is silent copies no byte. -/
theorem extent_silent {pos nbytes : Nat} (silent : Silent fs inode pos nbytes) :
    fileExtent fs inode pos nbytes = 0 := by
  rw [fileExtent,streak_zero]
  rcases silent with past | ⟨_,none | stray⟩
  · left
    simp [requested,readCount,past]
  · left
    subst none
    simp [requested,readCount]
  · right
    exact not_not_intro stray

/-- Of an inode that exists, exactly the silent reads leave every buffer as it
    was and report 0. -/
theorem silent_iff (present : inode < fs.metadata.numInodes) (pos nbytes : Nat) :
    (∀ buf, reported (readData fs inode pos buf nbytes) = .ok (0,buf)) ↔ Silent fs inode pos nbytes := by
  constructor
  · intro nothing
    obtain ⟨_,read,_⟩ := bind_eq_ok.mp (nothing fun _ => 0)
    have loads := readData_loads read
    by_cases past : fileLength fs inode ≤ pos
    · exact .inl past
    · have inside := Nat.lt_of_not_le past
      refine .inr ⟨loads present inside,?_⟩
      by_contra reads
      obtain ⟨some,clean⟩ := not_or.mp reads
      have first : 0 < fileExtent fs inode pos nbytes := by
        refine streak_pos.mpr ⟨?_,clean⟩
        simp only [requested,present,if_true,readCount,past,if_false]
        omega
      -- A buffer that starts with another byte than the file is changed.
      have same := nothing fun _ => fileByte fs inode pos + 1
      rw [reported,readData_extent loads,ok_bind] at same
      have kept : copyInto (fun _ => fileByte fs inode pos + 1) 0 (fun i => fileByte fs inode (pos + i))
          (fileExtent fs inode pos nbytes) = fun _ => fileByte fs inode pos + 1 :=
        (Prod.ext_iff.mp (Except.ok.inj same)).2
      have byte := congrFun kept 0
      rw [copyInto_inside (Nat.le_refl 0) (by omega)] at byte
      simp at byte
  · intro silent buf
    have loads : Loads fs inode pos := by
      intro _ inside
      rcases silent with past | ⟨few,_⟩
      · exact absurd inside (Nat.not_lt_of_le past)
      · exact few
    rw [reported,readData_extent loads,ok_bind]
    simp only
    rw [readValue_masked,extent_silent silent,copyInto_zero]
    split <;> rfl

/-- Two numbers with one address are read alike exactly when both exist, or
    neither does, or nothing is read. -/
theorem reported_iff (shared : getInodePtr fs other = getInodePtr fs inode) (pos nbytes : Nat) :
    (∀ buf, reported (readData fs other pos buf nbytes) = reported (readData fs inode pos buf nbytes)) ↔
      ((inode < fs.metadata.numInodes ↔ other < fs.metadata.numInodes) ∨ Silent fs inode pos nbytes) := by
  by_cases present : inode < fs.metadata.numInodes
  · by_cases present' : other < fs.metadata.numInodes
    · refine ⟨fun _ => .inl (iff_of_true present present'),fun _ buf => ?_⟩
      rw [readData_shared shared present' present]
    · have onlyOne : ¬ (inode < fs.metadata.numInodes ↔ other < fs.metadata.numInodes) :=
        fun both => present' (both.mp present)
      rw [or_iff_right onlyOne,← silent_iff present]
      refine forall_congr' fun buf => ?_
      rw [readData_absent present']
      exact eq_comm
  · by_cases present' : other < fs.metadata.numInodes
    · have onlyOne : ¬ (inode < fs.metadata.numInodes ↔ other < fs.metadata.numInodes) :=
        fun both => present (both.mpr present')
      rw [or_iff_right onlyOne,← silent_shared shared,← silent_iff present']
      refine forall_congr' fun buf => ?_
      rw [readData_absent present]
      exact Iff.rfl
    · refine ⟨fun _ => .inl (iff_of_false present present'),fun _ buf => ?_⟩
      rw [readData_absent present,readData_absent present']

end

/-! ### Reads through a descriptor -/

section
variable {fs : Fs} {k after : Kernel} {filename : Nat → UInt8} {dentry : Dentry} {i : Nat}

/-- A descriptor that `open` has made, at a position of the file. -/
theorem opened_seek (found : readDentryByName fs filename = some dentry) (regular : dentry.filetype = normalFileType)
    (opened : sysOpen fs k filename = ((i : Int),after)) (pos : Nat) :
    fdsOf (seek after i pos) i = descAt fs dentry.inode pos := by
  rw [seek,fdsOf_setFd,Function.update_self,(opened_reading found regular opened).2.desc]
  rfl

/-- `fs_read` of a regular file is `read_data` of the number behind the address
    in the descriptor. -/
theorem fsRead_regular {pos inode : Nat} (desc : fdsOf k i = descAt fs inode pos) (buf : Nat → UInt8) (nbytes : Int) :
    delivery (fsRead fs k i buf nbytes) = reported (readData fs (servedInode inode) pos buf (unsigned nbytes)) := by
  have kind : fileType (descAt fs inode pos) = normalFileType := by
    simp only [fileType,descAt]
    decide
  have other : normalFileType ≠ dirFileType := by decide
  simp only [fsRead,desc,kind,other,if_true,if_false]
  simp only [descAt,getInodeFromPtr_getInodePtr]
  cases readData fs (servedInode inode) pos buf (unsigned nbytes) with
  | error fault => rfl
  | ok result =>
    simp only [ok_bind,delivery,reported]
    split <;> rfl

/-- A descriptor that `open` made for a regular file delivers, at a position and
    for a length, what `read_data` delivers for the inode number of the entry,
    exactly when that number and the one behind its address both exist, or
    neither does, or nothing is read. -/
theorem descriptor_reads_iff (found : readDentryByName fs filename = some dentry)
    (regular : dentry.filetype = normalFileType) (opened : sysOpen fs k filename = ((i : Int),after)) (pos : Nat)
    {nbytes : Int} (positive : 0 ≤ nbytes) (word : nbytes < 2 ^ 31) :
    (∀ buf, delivery (fsRead fs (seek after i pos) i buf nbytes) =
        reported (readData fs dentry.inode pos buf nbytes.toNat)) ↔
      ((dentry.inode < fs.metadata.numInodes ↔ servedInode dentry.inode < fs.metadata.numInodes) ∨
        Silent fs dentry.inode pos nbytes.toNat) := by
  have desc := opened_seek found regular opened pos
  have length : unsigned nbytes = nbytes.toNat := by
    simp only [unsigned]
    omega
  simp only [fsRead_regular desc,length]
  exact reported_iff (getInodePtr_served fs dentry.inode) pos nbytes.toNat

end

/-! ### An inode number of more than 20 bits -/

/-- The image of one file, whose entry has the inode number 2 ^ 20 instead of 0. -/
def aliasFs : Fs := fsInit (fun a => (((102,16) :: shellBytes).lookup a).getD 0) 0 12288

theorem alias_found : readDentryByName aliasFs Syscalls.shellCommand.bytes = some (dentryAt aliasFs 64) := by decide

theorem alias_opened : sysOpen aliasFs default Syscalls.shellCommand.bytes =
    (((2 : Nat) : Int),(sysOpen aliasFs default Syscalls.shellCommand.bytes).2) := rfl

theorem alias_geometry : Geometry aliasFs := ⟨by decide,by decide⟩

theorem alias_file : WellFormedFile aliasFs 0 := by
  refine ⟨by decide,by decide,?_⟩
  have one : usedBlocks aliasFs 0 = 1 := by decide
  intro b used
  rw [one,Nat.lt_one_iff] at used
  subst used
  decide

theorem descriptor_reads_alias :
    (∀ buf, delivery (fsRead aliasFs (seek (sysOpen aliasFs default Syscalls.shellCommand.bytes).2 2 24) 2 buf 4) =
        reported (readData aliasFs (2 ^ 20) 24 buf 4)) ↔
      ((2 ^ 20 < aliasFs.metadata.numInodes ↔ servedInode (2 ^ 20) < aliasFs.metadata.numInodes) ∨
        Silent aliasFs (2 ^ 20) 24 4) := by
  have named : (dentryAt aliasFs 64).inode = 2 ^ 20 := by decide
  have asked : (0 : Int) ≤ 4 := by decide
  have reads := descriptor_reads_iff alias_found (by decide) alias_opened 24 asked (by decide)
  rw [named] at reads
  exact reads

/-- The number 2 ^ 20 is out of range, and `read_data` refuses it. The descriptor
    that `open` makes for it delivers file 0. -/
theorem descriptor_serves_other_file : ∃ k dentry after,
    readDentryByName aliasFs Syscalls.shellCommand.bytes = some dentry ∧ dentry.filetype = normalFileType ∧
      dentry.inode = 2 ^ 20 ∧ sysOpen aliasFs default Syscalls.shellCommand.bytes = (2,k) ∧
      readData aliasFs dentry.inode 24 (fun _ => 0) 4 = .ok (-1,fun _ => 0) ∧
      delivery (fsRead aliasFs (seek k 2 24) 2 (fun _ => 0) 4) = .ok (4,after) ∧ taken after 4 = [0,0x80,4,8] ∧
      delivery (fsRead aliasFs (seek k 2 24) 2 (fun _ => 0) 4) ≠
        reported (readData aliasFs dentry.inode 24 (fun _ => 0) 4) := by
  have named : (dentryAt aliasFs 64).inode = 2 ^ 20 := by decide
  have desc := opened_seek alias_found (by decide) alias_opened 24
  rw [named] at desc
  have refused : readData aliasFs (2 ^ 20) 24 (fun _ => 0) 4 = .ok (-1,fun _ => 0) :=
    readData_absent (by decide) 24 _ 4
  have count : readCount aliasFs 0 24 4 = 4 := by decide
  have served : readData aliasFs (servedInode (2 ^ 20)) 24 (fun _ => 0) (unsigned 4) =
      .ok (4,copyInto (fun _ => 0) 0 (fun i => fileByte aliasFs 0 (24 + i)) 4) := by
    have file := readData_eq alias_geometry alias_file 24 (fun _ => 0) 4
    rw [count] at file
    exact file
  have delivered : delivery (fsRead aliasFs (seek (sysOpen aliasFs default Syscalls.shellCommand.bytes).2 2 24) 2
      (fun _ => 0) 4) = .ok (4,copyInto (fun _ => 0) 0 (fun i => fileByte aliasFs 0 (24 + i)) 4) := by
    rw [fsRead_regular desc,served]
    rfl
  refine ⟨_,_,_,alias_found,by decide,named,alias_opened,?_,delivered,by decide,?_⟩
  · rw [named]
    exact refused
  · rw [delivered,named,refused]
    intro same
    exact absurd (Prod.ext_iff.mp (Except.ok.inj same)).1 (by decide)

end MazeOS.DescriptorReads
