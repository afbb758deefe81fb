import MazeOS.ReadData
import MazeOS.Descriptors

/-!
Reads of a regular file, one after another, between other calls of the same
process. The bytes they deliver are a prefix of the file, as long as the
position of the descriptor (`Reading`), and every further call keeps it so
(`call_reading`). So a read delivers nothing exactly when the whole file has
been delivered (`reads_deliver_file`).
-/
namespace MazeOS.FileReads
open MazeOS.Runs MazeOS.Bytes MazeOS.Faults MazeOS.Filesystem MazeOS.State MazeOS.Files MazeOS.ReadData
  MazeOS.Descriptors

/-- A call that leaves descriptor `i` open. Its reads ask for a number of bytes
    that is an `int32_t` and not negative. -/
def Fair (i : Nat) : Call → Prop
  | .close fd => fd ≠ i
  | .read fd _ _ nbytes _ => fd = i → 0 ≤ nbytes ∧ nbytes < 2 ^ 31
  | _ => True

/-- A read of descriptor `i` into a buffer; a NULL buffer is refused. -/
def ReadOn (i : Nat) : Call → Prop
  | .read fd address _ _ _ => fd = i ∧ address ≠ 0
  | _ => False

instance (i : Nat) : (call : Call) → Decidable (ReadOn i call)
  | .read fd address _ _ _ => inferInstanceAs (Decidable (fd = i ∧ address ≠ 0))
  | .open _ => inferInstanceAs (Decidable False)
  | .close _ => inferInstanceAs (Decidable False)
  | .write _ _ _ _ => inferInstanceAs (Decidable False)

def readsOn (i : Nat) (log : List Done) : List Done := log.filter fun done => ReadOn i done.call

/-- The bytes delivered by the reads of a descriptor, in order. -/
def delivered (i : Nat) (log : List Done) : List UInt8 := (readsOn i log).flatMap Done.bytes

/-- The sum of the return values of the reads of a descriptor. -/
def returned (i : Nat) (log : List Done) : Int := ((readsOn i log).map Done.value).sum

/-- The bytes of a file: its blocks up to its length. -/
def fileBytes (fs : Fs) (inode : Nat) : List UInt8 := (content fs inode).take (fileLength fs inode)

theorem delivered_append (i : Nat) (log : List Done) (done : Done) :
    delivered i (log ++ [done]) = delivered i log ++ if ReadOn i done.call then done.bytes else [] := by
  by_cases on : ReadOn i done.call <;> simp [delivered,readsOn,on]

theorem returned_append (i : Nat) (log : List Done) (done : Done) :
    returned i (log ++ [done]) = returned i log + if ReadOn i done.call then done.value else 0 := by
  by_cases on : ReadOn i done.call <;> simp [returned,readsOn,on]

/-- The descriptor of an open regular file at a position. -/
def descAt (fs : Fs) (inode pos : Nat) : FileDesc :=
  ⟨some .fs,getInodePtr fs inode,pos,((normalFileType <<< 1) &&& fileTypeMask) ||| fileInUse⟩

/-- A descriptor whose reads have delivered the file up to its position. -/
structure Reading (fs : Fs) (inode i : Nat) (pos : Nat) (s : Kernel × List Done) : Prop where
  desc : fdsOf s.1 i = descAt fs inode pos
  within : pos ≤ fileLength fs inode
  bytes : delivered i s.2 = (content fs inode).take pos
  sum : returned i s.2 = pos

/-! ### One read -/

/-- The inode number is found again from its pointer while the inodes lie within
    the range of a signed difference. -/
theorem getInodeFromPtr_ptr (fs : Fs) {inode : Nat} (small : inode < 2 ^ 19 - 2) :
    getInodeFromPtr fs (getInodePtr fs inode) = inode := by
  have difference : ((getInodePtr fs inode : Int) - fs.fsStartAddr) % 2 ^ 32 = ((inode + 1) * 4096 : Nat) := by
    simp only [getInodePtr,blockSize]
    omega
  have positive : signed ((inode + 1) * 4096) = ((inode + 1) * 4096 : Nat) := if_pos (by omega)
  simp only [getInodeFromPtr,difference,Int.toNat_natCast,positive,blockSize]
  rw [← Int.ofNat_tdiv,Nat.mul_div_cancel _ (by decide)]
  omega

theorem unsigned_natCast {n : Nat} (small : n < 2 ^ 32) : unsigned n = n := by
  simp only [unsigned]
  omega

section
variable {fs : Fs} {inode i : Nat}

/-- A read delivers the next bytes of the file and moves the position past them. -/
theorem sysRead_file (geometry : Geometry fs) (small : fs.metadata.numInodes ≤ 2 ^ 19 - 2)
    (file : WellFormedFile fs inode) (inside : i < maxOpenFiles) {k : Kernel} {pos address : Nat}
    (desc : fdsOf k i = descAt fs inode pos) (within : pos ≤ fileLength fs inode) (valid : address ≠ 0)
    (buf : Nat → UInt8) {nbytes : Int} (positive : 0 ≤ nbytes) (word : nbytes < 2 ^ 31) (line : List UInt8) :
    sysRead fs k i address buf nbytes line =
      .ok ((readCount fs inode pos nbytes.toNat : Int),
        setFd k i (descAt fs inode (pos + readCount fs inode pos nbytes.toNat)),
        copyInto buf 0 (fun j => fileByte fs inode (pos + j)) (readCount fs inode pos nbytes.toNat)) := by
  have inRange : ¬ ((i : Int) < 0 ∨ (i : Int) ≥ maxOpenFiles) := by omega
  have inUse : InUse (descAt fs inode pos) := by
    simp only [InUse,descAt]
    decide
  have kind : fileType (descAt fs inode pos) = normalFileType := by
    simp only [fileType,descAt]
    decide
  have named : getInodeFromPtr fs (getInodePtr fs inode) = inode :=
    getInodeFromPtr_ptr fs (Nat.lt_of_lt_of_le file.exists_ small)
  have length : unsigned nbytes = nbytes.toNat := by
    simp only [unsigned]
    omega
  have counted := readCount_within fs nbytes.toNat within
  have short := file.short
  have moved : unsigned (pos + (readCount fs inode pos nbytes.toNat : Int)) = pos + readCount fs inode pos nbytes.toNat := by
    simp only [maxDataBlockCount,blockSize] at short
    exact unsigned_natCast (by omega)
  have other : normalFileType ≠ dirFileType := by decide
  have fromFile : fsRead fs k i buf nbytes = .ok ((readCount fs inode pos nbytes.toNat : Int),
      setFd k i (descAt fs inode (pos + readCount fs inode pos nbytes.toNat)),
      copyInto buf 0 (fun j => fileByte fs inode (pos + j)) (readCount fs inode pos nbytes.toNat)) := by
    have success : ((readCount fs inode pos nbytes.toNat : Nat) : Int) ≠ -1 := by omega
    simp only [fsRead,desc,kind,other,↓reduceIte,length]
    simp only [descAt,named,readData_eq geometry file,ok_bind,success,↓reduceIte,moved]
  simp only [sysRead,inRange,↓reduceIte,valid,Int.toNat_natCast,desc,inUse]
  exact fromFile

/-- A call that neither closes nor reads a descriptor in use leaves it alone. -/
theorem doCall_frame {k after : Kernel} {call : Call} {value : Int} {bytes : List UInt8} (inUse : InUse (fdsOf k i))
    (fair : Fair i call) (other : ¬ ReadOn i call) (done : doCall fs k call = .ok (value,bytes,after)) :
    fdsOf after i = fdsOf k i := by
  cases call with
  | «open» filename =>
    have result : sysOpen fs k filename = (value,after) := by
      simp only [doCall,Except.ok.injEq,Prod.mk.injEq] at done
      exact Prod.ext done.1 done.2.2
    rcases sysOpen_cases fs k filename with ⟨refused,_⟩ | ⟨dentry,j,_,_,_,free,_,opened⟩
    · rw [refused] at result
      cases result
      rfl
    · rw [opened] at result
      cases result
      have apart : i ≠ j := by
        rintro rfl
        exact free inUse
      simp [apart]
  | close fd =>
    obtain ⟨⟨result,k'⟩,closed,same⟩ := bind_eq_ok.mp done
    cases same
    rcases sysClose_cases closed with ⟨_,rfl,_⟩ | ⟨j,rfl,_,_,_,rfl⟩
    · rfl
    · have apart : i ≠ j := by
        rintro rfl
        exact fair rfl
      simp [apart]
  | read fd address buf nbytes line =>
    obtain ⟨⟨result,k',buf'⟩,read,same⟩ := bind_eq_ok.mp done
    cases same
    by_cases null : address = 0
    · subst null
      have refused : sysRead fs k fd 0 buf nbytes line = .ok (-1,k,buf) := by simp [sysRead]
      rw [refused] at read
      cases read
      rfl
    · rcases sysRead_cases read with draws | ⟨_,j,pos,rfl,_,_,_,rfl⟩
      · rw [fdsOf_draws draws]
      · have apart : i ≠ j := by
          rintro rfl
          exact other ⟨rfl,null⟩
        rw [fdsOf_setFd,Function.update_of_ne apart]
  | write fd address buf nbytes =>
    obtain ⟨⟨result,k'⟩,written,same⟩ := bind_eq_ok.mp done
    cases same
    rw [fdsOf_draws (sysWrite_draws written)]

/-- Every call leaves the reads of the file at a prefix of it, and none moves the
    position back. -/
theorem call_reading (geometry : Geometry fs) (small : fs.metadata.numInodes ≤ 2 ^ 19 - 2)
    (file : WellFormedFile fs inode) (inside : i < maxOpenFiles) {s t : Kernel × List Done} {call : Call} {pos : Nat}
    (fair : Fair i call) (reading : Reading fs inode i pos s) (stepped : callStep fs s call = .ok t) :
    ∃ pos', pos ≤ pos' ∧ Reading fs inode i pos' t := by
  obtain ⟨k,log⟩ := s
  obtain ⟨after,log'⟩ := t
  obtain ⟨value,bytes,done,rfl⟩ := callStep_ok.mp stepped
  obtain ⟨desc,within,soFar,sum⟩ := reading
  simp only at desc soFar sum
  by_cases on : ReadOn i call
  · cases call with
    | «open» filename => exact on.elim
    | close fd => exact on.elim
    | write fd address buf nbytes => exact on.elim
    | read fd address buf nbytes line =>
      obtain ⟨rfl,valid⟩ := on
      obtain ⟨positive,word⟩ := fair rfl
      have read := sysRead_file geometry small file inside desc within valid buf positive word line
      simp only [doCall,read,ok_bind,Except.ok.injEq,Prod.mk.injEq] at done
      obtain ⟨rfl,rfl,rfl⟩ := done
      refine ⟨pos + readCount fs inode pos nbytes.toNat,Nat.le_add_right _ _,?_⟩
      constructor
      · simp
      · exact readCount_within fs nbytes.toNat within
      · rw [delivered_append,if_pos ⟨rfl,valid⟩,soFar,List.take_add,Int.toNat_natCast,copied_slice]
      · rw [returned_append,if_pos ⟨rfl,valid⟩,sum,Int.natCast_add]
  · have inUse : InUse (fdsOf k i) := by
      rw [desc]
      simp only [InUse,descAt]
      decide
    refine ⟨pos,Nat.le_refl pos,?_⟩
    constructor
    · rw [doCall_frame inUse fair on done,desc]
    · exact within
    · rw [delivered_append,if_neg on,List.append_nil,soFar]
    · rw [returned_append,if_neg on,Int.add_zero,sum]

theorem run_reading (geometry : Geometry fs) (small : fs.metadata.numInodes ≤ 2 ^ 19 - 2)
    (file : WellFormedFile fs inode) (inside : i < maxOpenFiles) {s last : Kernel × List Done} {calls : List Call}
    {pos : Nat} (fair : ∀ call ∈ calls, Fair i call) (reading : Reading fs inode i pos s)
    (ran : run (callStep fs) s calls = .ok last) : ∃ pos', pos ≤ pos' ∧ Reading fs inode i pos' last := by
  have keeps : ∀ s call t, Fair i call → (∃ pos', pos ≤ pos' ∧ Reading fs inode i pos' s) →
      callStep fs s call = .ok t → ∃ pos', pos ≤ pos' ∧ Reading fs inode i pos' t := by
    rintro s call t fair ⟨before,low,reading⟩ stepped
    obtain ⟨after,more,reading'⟩ := call_reading geometry small file inside fair reading stepped
    exact ⟨after,Nat.le_trans low more,reading'⟩
  exact run_invariant_on keeps fair ⟨pos,Nat.le_refl pos,reading⟩ ran

/-- Everything has been delivered exactly when the position is the end of the
    file. -/
theorem delivered_all_iff {s : Kernel × List Done} {pos : Nat} (reading : Reading fs inode i pos s) :
    delivered i s.2 = fileBytes fs inode ↔ fileLength fs inode ≤ pos := by
  have long := fileLength_le_content fs inode
  have within := reading.within
  rw [reading.bytes,fileBytes]
  constructor
  · intro same
    have lengths := congrArg List.length same
    simp only [List.length_take] at lengths
    omega
  · intro finished
    rw [Nat.le_antisymm within finished]

end

/-- The descriptor that `open` stores for a regular file is at its start. -/
theorem opened_reading {fs : Fs} {k k' : Kernel} {filename : Nat → UInt8} {dentry : Dentry} {i : Nat}
    (found : readDentryByName fs filename = some dentry) (normal : dentry.filetype = normalFileType)
    (opened : sysOpen fs k filename = ((i : Int),k')) :
    i < maxOpenFiles ∧ Reading fs dentry.inode i 0 (k',[]) := by
  obtain ⟨inside,rfl⟩ := sysOpen_stored found opened
  refine ⟨inside.2,?_,Nat.zero_le _,rfl,rfl⟩
  simp [descFor,descAt,normal,rtcFileType,normalFileType]

/-- Whatever a process does after it opened a regular file, as long as it keeps
    the descriptor, its reads of it have delivered the file up to the position,
    which is the sum of what they returned. A further read that asks for
    something returns 0 exactly when the whole file has been delivered, and from
    then on the position stays. -/
theorem reads_deliver_file {fs : Fs} (geometry : Geometry fs) (small : fs.metadata.numInodes ≤ 2 ^ 19 - 2)
    {k k' last : Kernel} {filename : Nat → UInt8} {dentry : Dentry} {i : Nat} {calls : List Call} {log : List Done}
    (found : readDentryByName fs filename = some dentry) (normal : dentry.filetype = normalFileType)
    (file : WellFormedFile fs dentry.inode) (opened : sysOpen fs k filename = ((i : Int),k'))
    (fair : ∀ call ∈ calls, Fair i call) (ran : run (callStep fs) (k',[]) calls = .ok (last,log)) :
    delivered i log = (fileBytes fs dentry.inode).take (fdsOf last i).pos ∧
      returned i log = (fdsOf last i).pos ∧ (fdsOf last i).pos ≤ fileLength fs dentry.inode ∧
      (∀ address buf nbytes line, address ≠ 0 → 1 ≤ nbytes → nbytes < 2 ^ 31 → ∃ value bytes after,
        doCall fs last (.read i address buf nbytes line) = .ok (value,bytes,after) ∧
          (value = 0 ↔ delivered i log = fileBytes fs dentry.inode)) ∧
      (delivered i log = fileBytes fs dentry.inode → ∀ more later log', (∀ call ∈ more, Fair i call) →
        run (callStep fs) (last,log) more = .ok (later,log') → (fdsOf later i).pos = (fdsOf last i).pos) := by
  obtain ⟨inside,start⟩ := opened_reading found normal opened
  obtain ⟨pos,_,reading⟩ := run_reading geometry small file inside fair start ran
  have position : (fdsOf last i).pos = pos := by rw [reading.desc,descAt]
  have all := delivered_all_iff reading
  rw [position]
  refine ⟨?_,reading.sum,reading.within,?_,?_⟩
  · rw [reading.bytes,fileBytes,List.take_take,Nat.min_eq_left reading.within]
  · intro address buf nbytes line valid asked word
    have read := sysRead_file geometry small file inside reading.desc reading.within valid buf (by omega) word line
    refine ⟨_,_,_,bind_eq_ok.mpr ⟨_,read,rfl⟩,?_⟩
    rw [all,Int.natCast_eq_zero,readCount_eq_zero_iff fs (by omega)]
  · intro finished more later log' fair' ran'
    obtain ⟨pos',low,reading'⟩ := run_reading geometry small file inside fair' reading ran'
    have position' : (fdsOf later i).pos = pos' := by rw [reading'.desc,descAt]
    have within := reading'.within
    have atEnd := all.mp finished
    rw [position']
    omega

theorem reads_deliver_file_shell : ∃ last log,
    run (callStep shellFs) ((sysOpen shellFs default Syscalls.shellCommand.bytes).2,[])
        [.read 2 1 (fun _ => 0) 24 [],.close 3,.read 2 1 (fun _ => 0) 24 []] = .ok (last,log) ∧
      delivered 2 log = (fileBytes shellFs 0).take (fdsOf last 2).pos := by
  have opened : sysOpen shellFs default Syscalls.shellCommand.bytes = (((2 : Nat) : Int),_) := rfl
  have fair : ∀ call ∈ [Call.read 2 1 (fun _ => 0) 24 [],.close 3,.read 2 1 (fun _ => 0) 24 []], Fair 2 call := by
    intro call among
    simp only [List.mem_cons,List.not_mem_nil,or_false] at among
    rcases among with rfl | rfl | rfl <;> simp [Fair]
  have found : readDentryByName shellFs Syscalls.shellCommand.bytes = some (dentryAt shellFs 64) := by decide
  have ran : run (callStep shellFs) ((sysOpen shellFs default Syscalls.shellCommand.bytes).2,[])
      [.read 2 1 (fun _ => 0) 24 [],.close 3,.read 2 1 (fun _ => 0) 24 []] = .ok (_,_) := rfl
  exact ⟨_,_,ran,(reads_deliver_file shellFs_geometry (by decide) found (by decide) shellFs_file opened fair ran).1⟩

end MazeOS.FileReads
