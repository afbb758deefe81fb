import MazeOS.UserMemory
import MazeOS.Descriptors

/-!
What a system call stores through a pointer of its caller. Every such call
stores consecutive bytes from the pointer on, so a `Transfer` is how many they
are and what the call returns. The transfers are taken from the code for every
value of the arguments, those included with which a copy leaves the object it
reads: it then goes on until a page fault ends the process. Where no copy does,
`readTransfer_sound` and `getargs_sound` say that they are the transfers of the
calls.
-/
namespace MazeOS.Transfers
open MazeOS.Runs MazeOS.Bytes MazeOS.Faults MazeOS.Filesystem MazeOS.ReadData MazeOS.Paging MazeOS.State MazeOS.Files
  MazeOS.Syscalls

/-- The value that a call returns, or `none` when it ends in a page fault, and
    the number of bytes it stores if its pointer allows. -/
structure Transfer where
  value : Option Int
  count : Nat
  deriving DecidableEq

/-- A call that returns -1 and stores nothing. -/
def refused : Transfer := ⟨some (-1),0⟩

/-- The kernel reaches something at an address. -/
def Present (p : PageTables) (address : Nat) : Prop := (translate p (address % 2 ^ 32)).isSome

instance (p : PageTables) (address : Nat) : Decidable (Present p address) := inferInstanceAs (Decidable (_ = _))

/-- How many of `count` bytes can be read, where the byte `i` is at `source i`. -/
def readable (p : PageTables) (source : Nat → Nat) (count : Nat) : Nat := streak (fun i => Present p (source i)) count

/-- A copy of `count` bytes, after which the call returns `value`. -/
def copyFrom (p : PageTables) (source : Nat → Nat) (count : Nat) (value : Int) : Transfer :=
  ⟨if readable p source count = count then some value else none,readable p source count⟩

/-! ### Files -/

/-- A data block of a file that does not start inside the image. -/
def Stray (fs : Fs) (inode b : Nat) : Prop := dataBlockPtr fs (blockNumber fs inode b) > fs.fsEndAddr

instance (fs : Fs) (inode b : Nat) : Decidable (Stray fs inode b) := inferInstanceAs (Decidable (_ > _))

/-- The bytes that `read_data` sets out to copy. -/
def requested (fs : Fs) (inode offset length : Nat) : Nat :=
  if inode < fs.metadata.numInodes then readCount fs inode offset length else 0

/-- The bytes before the first stray block. -/
def fileExtent (fs : Fs) (inode offset length : Nat) : Nat :=
  streak (fun i => ¬ Stray fs inode ((offset + i) / blockSize)) (requested fs inode offset length)

/-- Where the image has the byte `i` after the position. -/
def fileSource (fs : Fs) (inode offset i : Nat) : Nat :=
  dataBlockPtr fs (blockNumber fs inode ((offset + i) / blockSize)) + (offset + i) % blockSize

/-- The block numbers of a file fit in `inode_t`, where they are copied at all. -/
def Loads (fs : Fs) (inode offset : Nat) : Prop :=
  inode < fs.metadata.numInodes → offset < fileLength fs inode → fileLength fs inode / blockSize < maxDataBlockCount

instance (fs : Fs) (inode offset : Nat) : Decidable (Loads fs inode offset) := inferInstanceAs (Decidable (_ → _))

/-- `fs_read` of a regular file. The error -1 of `read_data` becomes 0. -/
def fileTransfer (fs : Fs) (p : PageTables) (inode offset length : Nat) : Checked Transfer :=
  if Loads fs inode offset then
    let extent := fileExtent fs inode offset length
    .ok (copyFrom p (fileSource fs inode offset) extent (if extent = requested fs inode offset length then extent else 0))
  else .error (.dataBlocks maxDataBlockCount)

/-- `fs_read`; the entry that a directory read copies from is a local variable,
    its name at the address `name` of the kernel stack. -/
def fsTransfer (fs : Fs) (k : Kernel) (fd name : Nat) (nbytes : Int) : Checked Transfer :=
  let file := fdsOf k fd
  if fileType file = dirFileType then
    match readDentryByIndex fs file.pos with
    | some d =>
      .ok (if nbytes ≤ filenameSize then copyFrom k.paging (name + ·) (unsigned nbytes) nbytes
        else copyFrom k.paging (name + ·) (filenameSize + 1) (d.filename.takeWhile (· ≠ 0)).length)
    | none => .ok ⟨some 0,0⟩
  else if fileType file = normalFileType then
    fileTransfer fs k.paging (getInodeFromPtr fs file.inode) file.pos (unsigned nbytes)
  else .ok ⟨some 0,0⟩

/-! ### The calls -/

/-- How many bytes `keyboard_read` copies. -/
def lineSize (line : List UInt8) (nbytes : Int) : Nat :=
  if line.length < unsigned nbytes then line.length else unsigned nbytes

/-- The byte at the pointer once `keyboard_read` has returned; `first` is the one
    before. -/
def firstByte (line : List UInt8) (first : UInt8) (nbytes : Int) : UInt8 :=
  if 0 < lineSize line nbytes then line.getD 0 0 else first

/-- `terminal_read`. It looks at the first byte even when none was copied, and
    clears as many bytes as `memset` takes `nbytes` for. -/
def terminalTransfer (p : PageTables) (address : Nat) (line : List UInt8) (first : UInt8) (nbytes : Int) : Transfer :=
  if firstByte line first nbytes = ctrlL then ⟨if Present p address then some 0 else none,unsigned nbytes⟩
  else ⟨if Present p address then some (lineSize line nbytes) else none,lineSize line nbytes⟩

/-- The `read` operation of a driver. -/
def driverTransfer (fs : Fs) (k : Kernel) (fd address name : Nat) (line : List UInt8) (first : UInt8) (nbytes : Int) :
    FileOps → Checked Transfer
  | .fs => fsTransfer fs k fd name nbytes
  | .rtc => .ok ⟨some 0,0⟩
  | .stdin => .ok (terminalTransfer k.paging address line first nbytes)
  | .stdout => .ok refused

/-- `read`. -/
def readTransfer (fs : Fs) (k : Kernel) (fd : Int) (address name : Nat) (line : List UInt8) (first : UInt8)
    (nbytes : Int) : Checked Transfer :=
  if fd < 0 ∨ fd ≥ maxOpenFiles then .ok refused
  else if address = 0 then .ok refused
  else
    let file := fdsOf k fd.toNat
    if InUse file then
      match file.fileOps with
      | none => .error (.nullOps fd.toNat)
      | some driver => driverTransfer fs k fd.toNat address name line first nbytes driver
    else .ok refused

/-- A descriptor and a pointer with which `read` calls a driver. -/
def Dispatched (k : Kernel) (fd : Int) (address : Nat) : Prop :=
  0 ≤ fd ∧ fd < maxOpenFiles ∧ address ≠ 0 ∧ InUse (fdsOf k fd.toNat)

/-- `args_length + 1` of the running process, a sum of unsigned numbers. -/
def argsNeeded (k : Kernel) : Nat := ((k.pcbs (getPcb k)).argsLength + 1) % 2 ^ 32

/-- `getargs`; `args_length` is unsigned, and the comparison with it is. -/
def getargs (k : Kernel) (address : Nat) (buf : Nat → UInt8) (nbytes : Int) : Int × (Nat → UInt8) :=
  if address < _128MB ∨ address ≥ _128MB + _4MB then (-1,buf)
  else if unsigned nbytes < argsNeeded k then (-1,buf)
  else (0,copyInto buf 0 (k.pcbs (getPcb k)).args (argsNeeded k))

def getargsTransfer (k : Kernel) (address : Nat) (nbytes : Int) : Transfer :=
  if address < _128MB ∨ address ≥ _128MB + _4MB then refused
  else if unsigned nbytes < argsNeeded k then refused
  else ⟨some 0,argsNeeded k⟩

/-- The pointer that `vidmap` stores has four bytes. -/
def vidmapTransfer (k : Kernel) (screenStart : Nat) : Transfer :=
  ⟨some (vidmap k screenStart).1,if (vidmap k screenStart).2.2 = none then 0 else 4⟩

/-! ### Pointers -/

/-- How many bytes a transfer stores from an address on: a page fault ends it at
    the first that is not mapped. -/
def stored (p : PageTables) (address : Nat) (t : Transfer) : Nat := streak (fun i => Present p (address + i)) t.count

/-- What the call returns, if it does. -/
def returned (p : PageTables) (address : Nat) (t : Transfer) : Option Int :=
  if stored p address t = t.count then t.value else none

section
variable {p : PageTables} {address count : Nat} {value : Int} {source : Nat → Nat}

theorem readable_le : readable p source count ≤ count := streak_le count

theorem stored_pos {t : Transfer} : 0 < stored p address t ↔ 0 < t.count ∧ Present p address := streak_pos

theorem stored_le (t : Transfer) : stored p address t ≤ t.count := streak_le _

theorem copyFrom_count : (copyFrom p source count value).count = readable p source count := rfl

/-- A copy that does not end in a page fault has read all its bytes. -/
theorem copyFrom_value {v : Int} (complete : (copyFrom p source count value).value = some v) :
    copyFrom p source count value = ⟨some value,count⟩ := by
  unfold copyFrom at *
  split at complete
  · rename_i whole
    rw [if_pos whole,whole]
  · cases complete

end

/-! ### The transfers are those of the calls -/

section
variable {fs : Fs} {inode : Nat}

/-- What `read_data` returns. It looks at the first block even when no byte is
    asked for. -/
def readValue (fs : Fs) (inode offset length : Nat) : Int :=
  if inode < fs.metadata.numInodes ∧ (offset < fileLength fs inode → ¬ Stray fs inode (offset / blockSize)) ∧
      fileExtent fs inode offset length = requested fs inode offset length then fileExtent fs inode offset length
  else -1

/-- Past the end of the file nothing is copied. -/
theorem readData_past (present : inode < fs.metadata.numInodes) {offset : Nat} (past : fileLength fs inode ≤ offset)
    (buf : Nat → UInt8) (length : Nat) : readData fs inode offset buf length = .ok (readValue fs inode offset length,
      copyInto buf 0 (fun i => fileByte fs inode (offset + i)) (fileExtent fs inode offset length)) := by
  have none : requested fs inode offset length = 0 := by simp [requested,present,readCount,past]
  have nothing : fileExtent fs inode offset length = 0 := by rw [fileExtent,none]; rfl
  have past' : word fs.mem (getInodePtr fs inode) ≤ offset := past
  have inside : ¬ offset < fileLength fs inode := Nat.not_lt.mpr past
  rw [readValue,nothing,none,readData,if_neg (show ¬ inode ≥ fs.metadata.numInodes by omega)]
  simp only [present,past',if_true,copyInto_zero,inside,false_imp_iff,and_self,Int.natCast_zero]

/-- Inside the file the bytes before the first stray block are copied. -/
theorem readData_inside (present : inode < fs.metadata.numInodes) {offset : Nat} (inside : offset < fileLength fs inode)
    (few : fileLength fs inode / blockSize < maxDataBlockCount) (buf : Nat → UInt8) (length : Nat) :
    readData fs inode offset buf length = .ok (readValue fs inode offset length,
      copyInto buf 0 (fun i => fileByte fs inode (offset + i)) (fileExtent fs inode offset length)) := by
  have count : requested fs inode offset length = readCount fs inode offset length := if_pos present
  simp only [readData_until present inside few,readValue,fileExtent,count,present,inside,true_imp_iff,true_and]
  rfl

/-- `read_data` copies the file from the offset on, up to the first stray block,
    and is an error exactly when there is one. -/
theorem readData_extent {offset : Nat} (loads : Loads fs inode offset) (buf : Nat → UInt8) (length : Nat) :
    readData fs inode offset buf length = .ok (readValue fs inode offset length,
      copyInto buf 0 (fun i => fileByte fs inode (offset + i)) (fileExtent fs inode offset length)) := by
  by_cases present : inode < fs.metadata.numInodes
  · by_cases past : fileLength fs inode ≤ offset
    · exact readData_past present past buf length
    · have inside := Nat.lt_of_not_le past
      exact readData_inside present inside (loads present inside) buf length
  · have none : requested fs inode offset length = 0 := if_neg present
    have nothing : fileExtent fs inode offset length = 0 := by rw [fileExtent,none]; rfl
    rw [readValue,if_neg fun both => present both.1,nothing,readData,if_pos (Nat.le_of_not_lt present),copyInto_zero]

/-- `fs_read` returns 0 for an error. -/
theorem readValue_masked (fs : Fs) (inode offset length : Nat) :
    (if readValue fs inode offset length = -1 then 0 else readValue fs inode offset length) =
      if fileExtent fs inode offset length = requested fs inode offset length then
        (fileExtent fs inode offset length : Int) else 0 := by
  unfold readValue
  split
  · rename_i success
    rw [if_pos success.2.2,if_neg (by omega)]
  · rename_i failure
    rw [if_pos rfl]
    split
    · rename_i complete
      have nothing : fileExtent fs inode offset length = 0 := by
        by_cases exists_ : inode < fs.metadata.numInodes
        · have first : ¬ (offset < fileLength fs inode → ¬ Stray fs inode (offset / blockSize)) :=
            fun clean => failure ⟨exists_,clean,complete⟩
          obtain ⟨_,stray⟩ := Classical.not_imp.mp first
          rw [fileExtent,streak_zero]
          exact .inr stray
        · rw [complete]
          exact if_neg exists_
      rw [nothing,Int.natCast_zero]
    · rfl

theorem loadDataBlocks_fits {ptr count : Nat} {table : DataBlocks} (loaded : loadDataBlocks fs ptr count = .ok table) :
    count ≤ maxDataBlockCount := by
  cases count with
  | zero => exact Nat.zero_le _
  | succ n =>
    obtain ⟨_,_,ended⟩ := bind_eq_ok.mp loaded
    split at ended
    · assumption
    · cases ended

theorem readData_loads {offset length : Nat} {buf : Nat → UInt8} {result : Int × (Nat → UInt8)}
    (done : readData fs inode offset buf length = .ok result) : Loads fs inode offset := by
  intro present inside
  have opened : ¬ word fs.mem (getInodePtr fs inode) ≤ offset := Nat.not_le_of_lt inside
  simp only [readData,if_neg (Nat.not_le_of_lt present),if_neg opened] at done
  obtain ⟨_,loaded,_⟩ := bind_eq_ok.mp done
  exact loadDataBlocks_fits loaded

end

section
variable {fs : Fs} {k after : Kernel} {value nbytes : Int} {buf buf' : Nat → UInt8} {line : List UInt8}

/-- A call that returned is the transfer, where no copy ends in a page fault. -/
def Sound (t : Transfer) (value : Int) (buf buf' : Nat → UInt8) : Prop :=
  t.value ≠ none → t.value = some value ∧ ∃ bytes, buf' = copyInto buf 0 bytes t.count

theorem sound_none (value : Int) (buf : Nat → UInt8) : Sound ⟨some value,0⟩ value buf buf :=
  fun _ => ⟨rfl,fun _ => 0,(copyInto_zero _ _ _).symm⟩

theorem sound_copy {p : PageTables} {source : Nat → Nat} {count : Nat} (bytes : Nat → UInt8)
    (copied : buf' = copyInto buf 0 bytes count) : Sound (copyFrom p source count value) value buf buf' := by
  intro returns
  obtain ⟨v,complete⟩ := Option.ne_none_iff_exists'.mp returns
  rw [copyFrom_value complete]
  exact ⟨rfl,bytes,copied⟩

/-- What `fs_read` of a process comes to: nothing at the end of a directory, the
    name of an entry, a part of a file, and nothing for other descriptors. -/
theorem fsTransfer_cases {fd name : Nat} {t : Transfer} (made : fsTransfer fs k fd name nbytes = .ok t) :
    (fileType (fdsOf k fd) = dirFileType ∧ fs.metadata.numDentries ≤ (fdsOf k fd).pos ∧ t = ⟨some 0,0⟩) ∨
    (fileType (fdsOf k fd) = dirFileType ∧ (fdsOf k fd).pos < fs.metadata.numDentries ∧
      ∃ d, readDentryByIndex fs (fdsOf k fd).pos = some d ∧
        t = if nbytes ≤ filenameSize then copyFrom k.paging (name + ·) (unsigned nbytes) nbytes
          else copyFrom k.paging (name + ·) (filenameSize + 1) (d.filename.takeWhile (· ≠ 0)).length) ∨
    (fileType (fdsOf k fd) ≠ dirFileType ∧ fileType (fdsOf k fd) = normalFileType ∧
      fileTransfer fs k.paging (getInodeFromPtr fs (fdsOf k fd).inode) (fdsOf k fd).pos (unsigned nbytes) = .ok t) ∨
    (fileType (fdsOf k fd) ≠ dirFileType ∧ fileType (fdsOf k fd) ≠ normalFileType ∧ t = ⟨some 0,0⟩) := by
  unfold fsTransfer at made
  simp only at made
  by_cases directory : fileType (fdsOf k fd) = dirFileType
  · rw [if_pos directory] at made
    cases entry : readDentryByIndex fs (fdsOf k fd).pos with
    | none =>
      rw [entry] at made
      cases made
      unfold readDentryByIndex at entry
      split at entry
      · rename_i last
        exact .inl ⟨directory,last,rfl⟩
      · cases entry
    | some d =>
      have inside : (fdsOf k fd).pos < fs.metadata.numDentries := by
        unfold readDentryByIndex at entry
        split at entry
        · cases entry
        · omega
      rw [entry] at made
      cases made
      exact .inr (.inl ⟨directory,inside,d,rfl,rfl⟩)
  · rw [if_neg directory] at made
    by_cases regular : fileType (fdsOf k fd) = normalFileType
    · rw [if_pos regular] at made
      exact .inr (.inr (.inl ⟨directory,regular,made⟩))
    · rw [if_neg regular] at made
      cases made
      exact .inr (.inr (.inr ⟨directory,regular,rfl⟩))

/-- A part of a file is copied as far as its blocks go. -/
theorem fileTransfer_ok {p : PageTables} {inode offset length : Nat} {t : Transfer}
    (made : fileTransfer fs p inode offset length = .ok t) :
    t = copyFrom p (fileSource fs inode offset) (fileExtent fs inode offset length)
      (if fileExtent fs inode offset length = requested fs inode offset length then fileExtent fs inode offset length
        else 0) := by
  unfold fileTransfer at made
  split at made
  · cases made
    rfl
  · cases made

theorem fsTransfer_sound {fd : Nat} (name : Nat) (done : fsRead fs k fd buf nbytes = .ok (value,after,buf')) :
    ∃ t, fsTransfer fs k fd name nbytes = .ok t ∧ Sound t value buf buf' := by
  unfold fsRead at done
  unfold fsTransfer
  simp only at done ⊢
  by_cases directory : fileType (fdsOf k fd) = dirFileType
  · simp only [directory,if_true] at done ⊢
    cases entry : readDentryByIndex fs (fdsOf k fd).pos with
    | none =>
      simp only [entry] at done ⊢
      cases done
      exact ⟨_,rfl,sound_none _ _⟩
    | some d =>
      simp only [entry] at done ⊢
      by_cases short : nbytes ≤ filenameSize
      · simp only [short,if_true] at done ⊢
        split at done
        · cases done
        · rename_i positive
          have small : unsigned nbytes = nbytes.toNat := by
            simp only [filenameSize] at short
            unfold unsigned
            omega
          cases done
          refine ⟨_,rfl,sound_copy (fun i => d.filename.getD i 0) ?_⟩
          rw [small]
      · simp only [short,if_false] at done ⊢
        cases done
        exact ⟨_,rfl,sound_copy _ rfl⟩
  · simp only [directory,if_false] at done ⊢
    by_cases regular : fileType (fdsOf k fd) = normalFileType
    · simp only [regular,if_true] at done ⊢
      obtain ⟨⟨bytesRead,buf''⟩,copied,ended⟩ := bind_eq_ok.mp done
      have loads := readData_loads copied
      rw [readData_extent loads] at copied
      cases copied
      rw [fileTransfer,if_pos loads]
      refine ⟨_,rfl,?_⟩
      rw [← readValue_masked]
      simp only at ended
      split at ended
      · rename_i failed
        cases ended
        rw [if_pos failed]
        exact sound_copy _ rfl
      · rename_i success
        cases ended
        rw [if_neg success]
        exact sound_copy _ rfl
    · simp only [regular,if_false] at done ⊢
      cases done
      exact ⟨_,rfl,sound_none _ _⟩

theorem terminalTransfer_sound {p : PageTables} {address : Nat} (small : nbytes < 2 ^ 31)
    (done : terminalRead k line buf nbytes = .ok (value,after,buf')) :
    Sound (terminalTransfer p address line (buf 0) nbytes) value buf buf' := by
  unfold terminalRead at done
  simp only at done
  have first : copyInto buf 0 (fun i => line.getD i 0) (lineSize line nbytes) 0 = firstByte line (buf 0) nbytes := by
    rw [firstByte]
    split
    · rename_i some
      exact copyInto_inside (Nat.le_refl 0) (by omega)
    · rename_i none
      exact copyInto_outside (by omega)
  have size : (if line.length < unsigned nbytes then line.length else unsigned nbytes) = lineSize line nbytes := rfl
  rw [size,first] at done
  unfold terminalTransfer
  by_cases present : Present p address
  · simp only [present,if_true]
    by_cases clears : firstByte line (buf 0) nbytes = ctrlL
    · simp only [clears,if_true] at done ⊢
      split at done
      · cases done
      · rename_i positive
        have word : nbytes.toNat = unsigned nbytes := by unfold unsigned; omega
        have shorter : lineSize line nbytes ≤ unsigned nbytes := by
          unfold lineSize
          split <;> omega
        cases done
        rw [word]
        exact fun _ => ⟨rfl,_,copyInto_cover _ 0 shorter _ _⟩
    · simp only [clears,if_false] at done ⊢
      cases done
      exact fun _ => ⟨rfl,_,rfl⟩
  · -- The byte that it looks at is not there.
    intro returns
    simp only [present,if_false] at returns
    split at returns <;> exact absurd rfl returns

theorem readTransfer_cases {fd : Int} {address name : Nat} {first : UInt8} {t : Transfer}
    (made : readTransfer fs k fd address name line first nbytes = .ok t) :
    (¬ Dispatched k fd address ∧ t = refused) ∨
      (Dispatched k fd address ∧ ∃ driver, (fdsOf k fd.toNat).fileOps = some driver ∧
        driverTransfer fs k fd.toNat address name line first nbytes driver = .ok t) := by
  unfold readTransfer at made
  split at made
  · rename_i outside
    cases made
    exact .inl ⟨fun dispatched => by have := dispatched.1; have := dispatched.2.1; omega,rfl⟩
  · rename_i inside
    split at made
    · rename_i null
      cases made
      exact .inl ⟨fun dispatched => dispatched.2.2.1 null,rfl⟩
    · rename_i pointer
      simp only at made
      split at made
      · rename_i inUse
        refine .inr ⟨⟨by omega,by omega,pointer,inUse⟩,?_⟩
        cases ops : (fdsOf k fd.toNat).fileOps with
        | none => simp only [ops] at made; cases made
        | some driver =>
          simp only [ops] at made
          exact ⟨driver,rfl,made⟩
      · rename_i unused
        cases made
        exact .inl ⟨fun dispatched => unused dispatched.2.2.2,rfl⟩

/-- A `read` that returns delivers its transfer. -/
theorem readTransfer_sound {fd : Int} {address : Nat} (name : Nat) (small : nbytes < 2 ^ 31)
    (done : sysRead fs k fd address buf nbytes line = .ok (value,after,buf')) :
    ∃ t, readTransfer fs k fd address name line (buf 0) nbytes = .ok t ∧ Sound t value buf buf' := by
  unfold sysRead at done
  unfold readTransfer
  split at done
  · rename_i outside
    cases done
    exact ⟨_,if_pos outside,sound_none _ _⟩
  · rename_i inside
    rw [if_neg inside]
    split at done
    · rename_i null
      cases done
      exact ⟨_,if_pos null,sound_none _ _⟩
    · rename_i pointer
      rw [if_neg pointer]
      simp only at done ⊢
      by_cases inUse : InUse (fdsOf k fd.toNat)
      · simp only [inUse,if_true] at done ⊢
        cases ops : (fdsOf k fd.toNat).fileOps with
        | none => simp only [ops] at done; cases done
        | some driver =>
          simp only [ops] at done ⊢
          cases driver with
          | fs => exact fsTransfer_sound name done
          | rtc => cases done; exact ⟨_,rfl,sound_none _ _⟩
          | stdin => exact ⟨_,rfl,terminalTransfer_sound small done⟩
          | stdout => cases done; exact ⟨_,rfl,sound_none _ _⟩
      · simp only [inUse,if_false] at done ⊢
        cases done
        exact ⟨_,rfl,sound_none _ _⟩

/-- `getargs` delivers its transfer. -/
theorem getargs_sound (k : Kernel) (address : Nat) (buf : Nat → UInt8) (nbytes : Int) :
    Sound (getargsTransfer k address nbytes) (getargs k address buf nbytes).1 buf (getargs k address buf nbytes).2 := by
  unfold getargsTransfer getargs
  split
  · exact sound_none _ _
  · split
    · exact sound_none _ _
    · exact fun _ => ⟨rfl,_,rfl⟩

end

end MazeOS.Transfers
