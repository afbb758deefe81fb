import MazeOS.Volumes
import MazeOS.FileReads
import MazeOS.DirectoryReads
import MazeOS.Arguments
import MazeOS.Boot

/-!
What processes see of a volume. A process that opens a name gets the bytes of the
file of that name, in order and whatever else it does in between
(`installed_file`), and from the directory the names of the entries
(`installed_directory`). A command that names a program starts it at its entry
point, with its bytes in the page of the new process and the rest of the command
as its arguments (`installed_program`).
-/
namespace MazeOS.Installed
open MazeOS.Runs MazeOS.Bytes MazeOS.Strings MazeOS.Faults MazeOS.Filesystem MazeOS.ReadData MazeOS.NameLookup
  MazeOS.Paging MazeOS.State MazeOS.Process MazeOS.Files MazeOS.Syscalls MazeOS.Steps MazeOS.Descriptors
  MazeOS.FileReads MazeOS.DirectoryReads MazeOS.Commands MazeOS.Admission MazeOS.ProgramLoad MazeOS.Volumes
  MazeOS.Boot

section
variable {v : Volume} {mem : Nat → UInt8} {start : Nat} {k k' last : Kernel} {name : List UInt8} {fname : Nat → UInt8}
  {e : Entry} {data : List UInt8} {i : Nat} {calls : List Call} {log : List Done}

/-! ### Files -/

theorem volume_data {n : Nat} (file : v.files[n]? = some data) : n < v.files.length ∧ v.fileAt n = data := by
  obtain ⟨inside,same⟩ := List.getElem?_eq_some_iff.mp file
  exact ⟨inside,by simp [Volume.fileAt,file]⟩

/-- The first bytes of the file's blocks are those of the volume. -/
theorem mounted_content (stored : Stored v mem start) {n : Nat} (file : v.files[n]? = some data) {pos : Nat}
    (within : pos ≤ data.length) : (content (v.mounted mem start) n).take pos = data.take pos := by
  obtain ⟨inside,same⟩ := volume_data file
  have size : fileLength (v.mounted mem start) n = data.length := by rw [mounted_length stored inside,same]
  have slice := content_slice (v.mounted mem start) (show 0 + pos ≤ fileLength (v.mounted mem start) n by omega)
  obtain ⟨count,bytes⟩ := mounted_slice stored inside 0 pos
  have all : readCount (v.mounted mem start) n 0 pos = pos := by
    rw [count,same,List.drop_zero,List.length_take]
    omega
  rw [all,same,List.drop_zero] at bytes
  rw [List.drop_zero] at slice
  exact slice.trans bytes

/-- Opening the name of a file and reading it, between any other calls of the
    process, delivers the bytes of the file one after another; a further read
    delivers the next ones. -/
theorem installed_file (stored : Stored v mem start) (few : v.files.length ≤ 2 ^ 19 - 2) (holds : Holds 0 fname name)
    (short : name.length ≤ filenameSize) (found : v.entries.find? (fun e => e.name = name) = some e)
    (normal : e.filetype = normalFileType) (file : v.files[e.inode]? = some data)
    (opened : sysOpen (v.mounted mem start) k fname = ((i : Int),k')) (fair : ∀ call ∈ calls, Fair i call)
    (ran : run (callStep (v.mounted mem start)) (k',[]) calls = .ok (last,log)) :
    ∃ pos, pos ≤ data.length ∧ delivered i log = data.take pos ∧ returned i log = pos ∧
      ∀ address buf nbytes line, address ≠ 0 → 0 ≤ nbytes → nbytes < 2 ^ 31 → ∃ after,
        doCall (v.mounted mem start) last (.read i address buf nbytes line) =
          .ok (((data.drop pos).take nbytes.toNat).length,(data.drop pos).take nbytes.toNat,after) := by
  obtain ⟨inside,same⟩ := volume_data file
  have size : fileLength (v.mounted mem start) e.inode = data.length := by rw [mounted_length stored inside,same]
  have geometry := mounted_geometry stored
  have wellFormed := mounted_file stored inside
  have small : (v.mounted mem start).metadata.numInodes ≤ 2 ^ 19 - 2 := by
    rw [mounted_metadata stored]
    exact few
  have lookup : readDentryByName (v.mounted mem start) fname = some e.toDentry := by
    rw [mounted_lookup stored holds short,found,Option.map_some]
  obtain ⟨within,first⟩ := opened_reading lookup normal opened
  obtain ⟨pos,_,reading⟩ := run_reading geometry small wellFormed within fair first ran
  have before : pos ≤ data.length := size ▸ reading.within
  refine ⟨pos,before,reading.bytes.trans (mounted_content stored file before),reading.sum,?_⟩
  intro address buf nbytes line valid positive word
  have read := sysRead_file geometry small wellFormed within reading.desc reading.within valid buf positive word line
  obtain ⟨count,bytes⟩ := mounted_slice stored inside pos nbytes.toNat
  rw [same] at count bytes
  rw [count] at read bytes
  refine ⟨setFd last i (descAt (v.mounted mem start) e.inode (pos + ((data.drop pos).take nbytes.toNat).length)),?_⟩
  have copied : taken (copyInto buf 0 (fun j => fileByte (v.mounted mem start) e.inode (pos + j))
      ((data.drop pos).take nbytes.toNat).length) ((data.drop pos).take nbytes.toNat).length =
      (data.drop pos).take nbytes.toNat := by
    refine Eq.trans (taken_congr fun j inside => ?_) bytes
    rw [copyInto_inside (Nat.zero_le j) (by omega),Nat.sub_zero]
  rw [doCall,read,ok_bind]
  simp only [Int.toNat_natCast,copied]

/-! ### The directory -/

/-- Opening a directory and reading it, between any other calls of the process,
    delivers the names of the entries one after another, and then nothing. -/
theorem installed_directory (stored : Stored v mem start) (named : ∀ e ∈ v.entries, e.name ≠ [])
    (holds : Holds 0 fname name) (short : name.length ≤ filenameSize)
    (found : v.entries.find? (fun e => e.name = name) = some e) (directory : e.filetype = dirFileType)
    (opened : sysOpen (v.mounted mem start) k fname = ((i : Int),k')) (lists : ∀ call ∈ calls, Lists i call)
    (ran : run (callStep (v.mounted mem start)) (k',[]) calls = .ok (last,log)) :
    ∀ address buf nbytes line, address ≠ 0 → 1 ≤ nbytes → ∃ value after buf',
      sysRead (v.mounted mem start) last i address buf nbytes line = .ok (value,after,buf') ∧
      (∀ e, v.entries[(readsOn i log).length]? = some e → 0 < value ∧
        (∀ j, j < filenameSize → j < nbytes.toNat → buf' j = e.name.getD j 0) ∧
        (filenameSize < nbytes → Holds 0 buf' e.name)) ∧
      (v.entries[(readsOn i log).length]? = none → value = 0 ∧ buf' = buf) := by
  intro address buf nbytes line valid asked
  have lookup : readDentryByName (v.mounted mem start) fname = some e.toDentry := by
    rw [mounted_lookup stored holds short,found,Option.map_some]
  have number : (v.mounted mem start).metadata.numDentries = v.entries.length := by rw [mounted_metadata stored]
  have initialised : Initialised (v.mounted mem start) := ⟨mem,start,_,rfl⟩
  have names : ∀ n, n < (v.mounted mem start).metadata.numDentries → nameOf (v.mounted mem start) n ≠ [] := by
    intro n inside
    rw [number] at inside
    rw [mounted_nameOf stored inside]
    exact named _ (List.getElem_mem inside)
  obtain ⟨inside,first⟩ := opened_listing lookup directory opened
  obtain ⟨n,desc,count⟩ := run_listing initialised names inside lists ⟨0,first⟩ ran
  simp only at desc count
  rw [count,sysRead_dir inside desc valid]
  by_cases more : n < v.entries.length
  · have position : min n (v.mounted mem start).metadata.numDentries = n := by omega
    rw [position] at desc
    obtain ⟨value,buf',read,delivers⟩ := fsRead_entry initialised desc (number ▸ more) (names n (number ▸ more)) buf asked
    refine ⟨value,_,buf',read,?_,fun past => absurd more (Nat.not_lt.mpr (List.getElem?_eq_none_iff.mp past))⟩
    intro e here
    rw [List.getElem?_eq_getElem more,Option.some.injEq] at here
    subst here
    refine ⟨delivers.positive,?_,?_⟩
    · intro j within before
      rw [delivers.leading j within before]
      refine (mounted_name stored more within).trans ?_
      by_cases early : j < v.entries[n].name.length
      · rw [List.getD_append _ _ _ _ early]
      · rw [List.getD_append_right _ _ _ _ (Nat.le_of_not_lt early),List.getD_eq_default _ _ (Nat.le_of_not_lt early)]
        simp
    · intro long
      rw [← mounted_nameOf stored more]
      exact delivers.terminated long
  · have past : (v.mounted mem start).metadata.numDentries ≤ min n (v.mounted mem start).metadata.numDentries := by omega
    refine ⟨0,last,buf,fsRead_past desc past buf nbytes,?_,fun _ => ⟨rfl,rfl⟩⟩
    intro e here
    rw [List.getElem?_eq_none (Nat.le_of_not_lt more)] at here
    cases here

/-! ### Programs -/

theorem installed_startable (stored : Stored v mem start) (file : v.files[e.inode]? = some data)
    (magic : data.take 4 = elfMagic) (free : ∃ i, LowestFree k i) (room : (executingTerm k).numProcs < maxProcesses) :
    Startable (v.mounted mem start) k e.toDentry := by
  obtain ⟨inside,same⟩ := volume_data file
  have size : fileLength (v.mounted mem start) e.inode = data.length := by rw [mounted_length stored inside,same]
  have long : 4 ≤ data.length := by
    have four := congrArg List.length magic
    simp only [List.length_take,elfMagic,List.length_cons,List.length_nil] at four
    omega
  obtain ⟨count,bytes⟩ := mounted_slice stored inside 0 4
  have all : readCount (v.mounted mem start) e.inode 0 4 = 4 := by
    rw [count,same,List.drop_zero,List.length_take]
    omega
  rw [all,same,List.drop_zero,magic] at bytes
  simp only [Nat.zero_add] at bytes
  have wellFormed := mounted_file stored inside
  refine ⟨⟨wellFormed.exists_,?_,bytes⟩,wellFormed.short,clean_of_wellFormed (mounted_geometry stored) wellFormed,free,room⟩
  rw [show e.toDentry.inode = e.inode from rfl,size]
  exact long

/-- A command line that names a program of the volume starts it, when a process
    ID is free: the new process has the bytes of the program at their place in its
    page, begins at the entry point that they give, and has the rest of the line as
    its arguments. -/
theorem installed_program {fuel : Nat} {command : Command} {line : List UInt8} (stored : Stored v mem start)
    (typed : Typed command.bytes line) (small : line.length < 2 ^ 16) (word : (firstWord line).length ≤ filenameSize)
    (args : (argText line).length < argsLength) (enough : 2 ^ 16 ≤ fuel) (accepted : Accepted command.address)
    (found : v.entries.find? (fun e => e.name = firstWord line) = some e) (file : v.files[e.inode]? = some data)
    (magic : data.take 4 = elfMagic) (long : 28 ≤ data.length) (free : ∃ i, LowestFree k i)
    (room : (executingTerm k).numProcs < maxProcesses) :
    ∃ eip after pid, Syscalls.execute (v.mounted mem start) fuel k command = .ok (.started eip after) ∧
      eip = littleEndian (fun i => data.getD (entrypointOffset + i) 0) ∧ getPcb after = pcbAddress pid ∧ LowestFree k (pid - 1) ∧
      taken (fun i => after.pages pid (loadStart + i)) data.length = data ∧
      (∀ q, q ≠ pid → after.pages q = k.pages q) ∧
      (after.pcbs (pcbAddress pid)).args = padded 0 (argText line) ∧
      (after.pcbs (pcbAddress pid)).argsLength = (argText line).length := by
  obtain ⟨inside,same⟩ := volume_data file
  have size : fileLength (v.mounted mem start) e.inode = data.length := by rw [mounted_length stored inside,same]
  have wellFormed := mounted_file stored inside
  have clean := clean_of_wellFormed (mounted_geometry stored) wellFormed
  have wordClean : 0 ∉ firstWord line := fun among => (typed_begins typed).clean 0 among (.inr (.inr rfl))
  have lookup : readDentryByName (v.mounted mem start) (padded 0 (firstWord line)) = some e.toDentry := by
    rw [mounted_lookup stored (holds_padded wordClean) word,found,Option.map_some]
  obtain ⟨parsed,parses,filename,length,text⟩ := parse_line typed small word args enough
  have startable := installed_startable stored file magic free room
  obtain ⟨eip,after,executed⟩ := (starts_iff accepted parses (by omega)).mpr ⟨e.toDentry,filename ▸ lookup,startable⟩
  obtain ⟨_,parsed',dentry,i,page,parses',found',header,entry,lowest,_,done,rfl⟩ := execute_started_iff.mp executed
  rw [parses] at parses'
  cases parses'
  rw [filename,lookup] at found'
  cases found'
  have pages := loadProgram_contents wellFormed.exists_ wellFormed.short clean (entering_loaded _) done
  have mine : (spawned k (i + 1) parsed page).pages (i + 1) = page := Function.update_self _ _ _
  have block : (spawned k (i + 1) parsed page).pcbs (pcbAddress (i + 1)) = childPcb k (i + 1) parsed :=
    Function.update_self _ _ _
  refine ⟨eip,_,i + 1,executed,?_,rfl,lowest,?_,?_,?_,?_⟩
  · rw [entrypoint_eq header (size.symm ▸ long)] at entry
    cases entry
    refine littleEndian_congr fun i small => ?_
    have within : entrypointOffset + i < (v.fileAt e.inode).length := by
      rw [same]
      simp only [entrypointOffset]
      omega
    refine (mounted_byte stored inside within).trans ?_
    simp only [same]
    rw [List.getD_eq_getElem?_getD,List.getElem?_eq_getElem,Option.getD_some]
  · rw [mine]
    have contents := contents_of_page wellFormed.short pages
    rw [size,mounted_content stored file (Nat.le_refl _),List.take_length] at contents
    exact contents
  · intro q other
    exact Function.update_of_ne other _ _
  · rw [block]
    exact text _ _
  · rw [block]
    exact length

end

/-! ### The sample volume in use -/

/-- `open` of a file or a directory takes the lowest free descriptor. -/
theorem sysOpen_fs {fs : Fs} {k : Kernel} {fname : Nat → UInt8} {d : Dentry} {i : Nat}
    (lookup : readDentryByName fs fname = some d)
    (free : freeFrom (fdsOf k) (maxOpenFiles - 2) 2 = some i) :
    (d.filetype = normalFileType → sysOpen fs k fname = ((i : Int),setFd k i ⟨some .fs,getInodePtr fs d.inode,0,5⟩)) ∧
    (d.filetype = dirFileType → sysOpen fs k fname = ((i : Int),setFd k i ⟨some .fs,0,0,3⟩)) := by
  constructor
  · intro normal
    simp [sysOpen,lookup,free,normal,normalFileType,rtcFileType,dirFileType,fileTypeMask,fileInUse]
  · intro directory
    simp [sysOpen,lookup,free,directory,rtcFileType,dirFileType,fileTypeMask,fileInUse]

/-- The first shell has descriptor 2 free. -/
theorem shell_free : freeFrom (fdsOf shellKernel) (maxOpenFiles - 2) 2 = some 2 := by decide +kernel

/-- Reads of one byte and into a NULL buffer, and another file opened, read and
    closed. -/
def sampleCalls : List Call :=
  [.open (padded 0 [97]),.read 2 1 (fun _ => 0) 1 [],.read 3 1 (fun _ => 0) 4 [],.read 2 0 (fun _ => 0) 5 [],.close 3]

theorem installed_file_sample : ∃ k' last log,
    sysOpen (sampleVolume.mounted sampleVolume.image 0) shellKernel (padded 0 [98]) = (2,k') ∧
    run (callStep (sampleVolume.mounted sampleVolume.image 0)) (k',[]) sampleCalls = .ok (last,log) ∧
    delivered 2 log = [104] ∧
    ∃ after, doCall (sampleVolume.mounted sampleVolume.image 0) last (.read 2 1 (fun _ => 0) 9 []) =
      .ok (1,[105],after) := by
  have found : sampleVolume.entries.find? (fun e => e.name = [98]) = some ⟨[98],2,1,_,_,_⟩ := rfl
  have holds : Holds 0 (padded 0 [98]) [(98 : UInt8)] := holds_padded (by decide)
  have lookup := mounted_lookup sample_stored holds (by decide)
  rw [found,Option.map_some] at lookup
  have opened := (sysOpen_fs lookup shell_free).1 rfl
  have leads : Leads (run (callStep (sampleVolume.mounted sampleVolume.image 0))
      (setFd shellKernel 2 ⟨some .fs,getInodePtr (sampleVolume.mounted sampleVolume.image 0) 1,0,5⟩,[]) sampleCalls)
      fun s => delivered 2 s.2 = [104] := by decide +kernel
  obtain ⟨⟨last,log⟩,ran,bytes⟩ := leads
  have fair : ∀ call ∈ sampleCalls, Fair 2 call := by simp [sampleCalls,Fair]
  obtain ⟨pos,within,sofar,_,further⟩ := installed_file sample_stored (by decide) holds (by decide) found rfl
    (show sampleVolume.files[1]? = some [104,105] from rfl) opened fair ran
  have one : pos = 1 := by
    have length := congrArg List.length (sofar.symm.trans bytes)
    simp only [List.length_take,List.length_cons,List.length_nil] at length within
    omega
  subst one
  exact ⟨_,last,log,opened,ran,bytes,further 1 (fun _ => 0) 9 [] (by decide) (by decide) (by decide)⟩

theorem installed_directory_sample : ∃ k' last log value after buf,
    sysOpen (sampleVolume.mounted sampleVolume.image 0) shellKernel (padded 0 [46]) = (2,k') ∧
    run (callStep (sampleVolume.mounted sampleVolume.image 0)) (k',[]) sampleCalls = .ok (last,log) ∧
    (readsOn 2 log).length = 1 ∧
    sysRead (sampleVolume.mounted sampleVolume.image 0) last 2 1 (fun _ => 0) 33 [] = .ok (value,after,buf) ∧
    Holds 0 buf [97] := by
  have found : sampleVolume.entries.find? (fun e => e.name = [46]) = some ⟨[46],1,0,_,_,_⟩ := rfl
  have holds : Holds 0 (padded 0 [46]) [(46 : UInt8)] := holds_padded (by decide)
  have lookup := mounted_lookup sample_stored holds (by decide)
  rw [found,Option.map_some] at lookup
  have opened := (sysOpen_fs lookup shell_free).2 rfl
  have leads : Leads (run (callStep (sampleVolume.mounted sampleVolume.image 0))
      (setFd shellKernel 2 ⟨some .fs,0,0,3⟩,[]) sampleCalls) fun s => (readsOn 2 s.2).length = 1 := by decide +kernel
  obtain ⟨⟨last,log⟩,ran,listed⟩ := leads
  have lists : ∀ call ∈ sampleCalls, Lists 2 call := by
    simp [sampleCalls,DirectoryReads.Lists]
  obtain ⟨value,after,buf,read,entries,_⟩ := installed_directory sample_stored (by decide) holds (by decide) found rfl
    opened lists ran 1 (fun _ => 0) 33 [] (by decide) (by decide)
  obtain ⟨_,_,terminated⟩ := entries ⟨[97],2,0,_,_,_⟩ (by rw [listed]; rfl)
  exact ⟨_,last,log,value,after,buf,opened,ran,listed,read,terminated (by decide)⟩

/-- The command `a x`. -/
def sampleCommand : Command := ⟨_128MB,padded 0 [97,32,120]⟩

theorem sample_typed : Typed sampleCommand.bytes [97,32,120] :=
  ⟨List.forall_iff_forall_mem.mp (by decide),fun _ inside => padded_inside inside,.inr rfl⟩

theorem installed_program_sample : ∃ after pid,
    Syscalls.execute (sampleVolume.mounted sampleVolume.image 0) (2 ^ 16) (Terminal.boot default) sampleCommand =
      .ok (.started 0x08048000 after) ∧ (after.pcbs (pcbAddress pid)).args = padded 0 [120] := by
  have found : sampleVolume.entries.find? (fun e => e.name = firstWord [97,32,120]) = some ⟨[97],2,0,_,_,_⟩ := rfl
  have free := boot_free default
  obtain ⟨eip,after,pid,executed,entry,_,_,_,_,args,_⟩ := installed_program sample_stored sample_typed (by decide) (by decide)
    (by decide) (Nat.le_refl (2 ^ 16)) (by decide) found (show sampleVolume.files[0]? = some _ from rfl) rfl (by decide)
    (lowestFree_exists free) (boot_roomy default free)
  have word : eip = 0x08048000 := by
    rw [entry]
    decide
  subst word
  exact ⟨after,pid,executed,args⟩

end MazeOS.Installed
