import MazeOS.ProgramLoad
import MazeOS.Commands

/-!
Which commands start a program. The five checks of `execute` each look at one
thing: the file system at the first word, the first block of the file at its
magic (`header_iff`), the word at offset 24 (`entrypoint_eq`), the process IDs,
and the blocks of the file as they are loaded. So a command starts a program
exactly when all of them go well (`starts_iff`), and otherwise changes nothing
but the screen (`admission`). The image is read on flat memory, where no read
faults.
-/
namespace MazeOS.Admission
open MazeOS.Runs MazeOS.Bytes MazeOS.Strings MazeOS.Faults MazeOS.Filesystem MazeOS.ReadData MazeOS.State
  MazeOS.Display MazeOS.Process MazeOS.Files MazeOS.Syscalls MazeOS.Terminal MazeOS.Steps MazeOS.Tables MazeOS.Stacks
  MazeOS.ProcessTable MazeOS.Transfers MazeOS.ProgramLoad MazeOS.Commands

/-! ### Executables -/

def elfMagic : List UInt8 := [0x7F,0x45,0x4C,0x46]

/-- The file exists and begins with the magic of an executable. -/
structure Executable (fs : Fs) (inode : Nat) : Prop where
  present : inode < fs.metadata.numInodes
  long : elfHeaderSize ≤ fileLength fs inode
  magic : taken (fileByte fs inode) elfHeaderSize = elfMagic

/-- The word of the file at which a program starts. -/
def entryPoint (fs : Fs) (inode : Nat) : Nat := littleEndian fun i => fileByte fs inode (entrypointOffset + i)

/-- The magic as a word. -/
theorem littleEndian_magic (bytes : Nat → UInt8) : littleEndian bytes = elfHeader ↔ taken bytes 4 = elfMagic := by
  have list : taken bytes 4 = [bytes 0,bytes 1,bytes 2,bytes 3] := rfl
  have b0 := (bytes 0).toNat_lt
  have b1 := (bytes 1).toNat_lt
  have b2 := (bytes 2).toNat_lt
  have b3 := (bytes 3).toNat_lt
  rw [list,elfMagic]
  simp only [List.cons.injEq,and_true,← UInt8.toNat_inj,UInt8.reduceToNat,littleEndian,elfHeader]
  omega

theorem signed_header {w : Nat} (word : w < 2 ^ 32) : signed w = elfHeader ↔ w = elfHeader := by
  simp only [signed,elfHeader]
  split <;> omega

section
variable {fs : Fs} {inode offset : Nat}

/-- The word that is read where four bytes can be. -/
theorem word_read (loads : Loads fs inode offset) (value : readValue fs inode offset 4 = 4) :
    ∃ after, readData fs inode offset (fun _ => 0) 4 = .ok (4,after) ∧
      littleEndian after = littleEndian fun i => fileByte fs inode (offset + i) := by
  have extent : fileExtent fs inode offset 4 = 4 := by
    rw [readValue] at value
    split at value
    · omega
    · cases value
  refine ⟨_,by rw [readData_extent loads,value],littleEndian_congr fun i inside => ?_⟩
  rw [extent,copyInto_inside (Nat.zero_le i) (by omega),Nat.sub_zero]

/-- The header is the magic exactly when the file begins with it and its first
    block can be read. -/
theorem header_iff (loads : Loads fs inode 0) : ∃ header, getElfHeader fs inode = .ok header ∧
    (header = elfHeader ↔ Executable fs inode ∧ ¬ Stray fs inode 0) := by
  by_cases value : readValue fs inode 0 4 = 4
  · obtain ⟨after,read,word⟩ := word_read loads value
    obtain ⟨present,long,clean⟩ := (readValue_full (by decide)).mp value
    have opens : ¬ Stray fs inode 0 := clean 0 (by decide)
    simp only [Nat.zero_add] at word long
    refine ⟨signed (littleEndian after),by rw [getElfHeader,elfHeaderSize,read,ok_bind]; rfl,?_⟩
    rw [signed_header (littleEndian_lt _),word,littleEndian_magic]
    constructor
    · intro magic
      exact ⟨⟨present,long,magic⟩,opens⟩
    · rintro ⟨executable,_⟩
      exact executable.magic
  · have differs : ((elfHeaderSize : Nat) : Int) ≠ readValue fs inode 0 4 := fun same => value same.symm
    refine ⟨-1,?_,?_⟩
    · rw [getElfHeader,readData_extent loads,ok_bind]
      exact congrArg Except.ok (if_pos differs)
    · refine iff_of_false (by decide) ?_
      rintro ⟨executable,opens⟩
      refine value ((readValue_full (by decide)).mpr ⟨executable.present,?_,?_⟩)
      · rw [Nat.zero_add]
        exact executable.long
      · intro i inside
        have first : (0 + i) / blockSize = 0 := by
          simp only [blockSize]
          omega
        rw [first]
        exact opens

theorem header_ok (header : getElfHeader fs inode = .ok elfHeader) :
    Executable fs inode ∧ ¬ Stray fs inode 0 ∧ fileLength fs inode < maxDataBlockCount * blockSize := by
  obtain ⟨⟨_,_⟩,read,_⟩ := bind_eq_ok.mp header
  have loads := readData_loads read
  obtain ⟨_,header',same⟩ := header_iff loads
  rw [header] at header'
  obtain ⟨executable,opens⟩ := same.mp (Except.ok.inj header').symm
  have few := loads executable.present (Nat.lt_of_lt_of_le (by decide) executable.long)
  exact ⟨executable,opens,(Nat.div_lt_iff_lt_mul (by decide)).mp few⟩

/-- The entry point of an executable that is long enough to have one. -/
theorem entrypoint_eq (header : getElfHeader fs inode = .ok elfHeader) (long : 28 ≤ fileLength fs inode) :
    getElfEntrypoint fs inode = .ok (entryPoint fs inode) := by
  obtain ⟨executable,opens,short⟩ := header_ok header
  have value : readValue fs inode entrypointOffset 4 = 4 := by
    refine (readValue_full (by decide)).mpr ⟨executable.present,long,?_⟩
    intro i inside
    have first : (entrypointOffset + i) / blockSize = 0 := by
      simp only [entrypointOffset,blockSize]
      omega
    rw [first]
    exact opens
  obtain ⟨after,read,word⟩ := word_read (loads_of_short short _) value
  rw [getElfEntrypoint,read,ok_bind,entryPoint,← word]
  rfl

theorem entrypoint_ok (short : fileLength fs inode < maxDataBlockCount * blockSize) :
    ∃ eip, getElfEntrypoint fs inode = .ok eip := by
  rw [getElfEntrypoint,readData_extent (loads_of_short short _),ok_bind]
  exact ⟨_,rfl⟩

/-! ### When a program starts -/

/-- All that `execute` needs to start the program of a directory entry. -/
structure Startable (fs : Fs) (k : Kernel) (dentry : Dentry) : Prop where
  executable : Executable fs dentry.inode
  short : fileLength fs dentry.inode < maxDataBlockCount * blockSize
  clean : Clean fs dentry.inode
  free : ∃ i, LowestFree k i
  room : (executingTerm k).numProcs < maxProcesses

theorem executable_opens (executable : Executable fs inode) (clean : Clean fs inode) : ¬ Stray fs inode 0 := by
  have long : 4 ≤ fileLength fs inode := executable.long
  refine clean 0 ?_
  simp only [usedBlocks,blockSize]
  omega

theorem startable_header {k : Kernel} {dentry : Dentry} (startable : Startable fs k dentry) :
    getElfHeader fs dentry.inode = .ok elfHeader := by
  obtain ⟨header,read,same⟩ := header_iff (loads_of_short startable.short 0)
  rw [read,same.mpr ⟨startable.executable,executable_opens startable.executable startable.clean⟩]

/-- A command that is split starts a program exactly when there is a directory
    entry for it that can be started. -/
theorem starts_iff {fuel : Nat} {k : Kernel} {command : Command} {parsed : Parsed} (accepted : Accepted command.address)
    (parses : parseCommand fuel command.bytes = .ok parsed) (enough : 253 ≤ fuel) :
    (∃ eip after, Syscalls.execute fs fuel k command = .ok (.started eip after)) ↔
      ∃ dentry, readDentryByName fs parsed.filename = some dentry ∧ Startable fs k dentry := by
  constructor
  · rintro ⟨eip,after,executed⟩
    obtain ⟨_,parsed',dentry,i,page,parses',found,header,_,lowest,room,loaded,_⟩ := execute_started_iff.mp executed
    rw [parses] at parses'
    cases parses'
    obtain ⟨executable,opens,short⟩ := header_ok header
    refine ⟨dentry,found,executable,short,?_,⟨i,lowest⟩,room⟩
    by_contra notClean
    obtain ⟨b,later,used,stray,first⟩ := first_stray notClean opens
    have diverges := loadProgram_stuck executable.present short later used stray first
      (entering_stuck b (k.pages (i + 1))) fuel
    simp only [entering,loadStart] at diverges
    rw [loaded] at diverges
    cases diverges
  · rintro ⟨dentry,found,startable⟩
    obtain ⟨eip,entry⟩ := entrypoint_ok startable.short
    obtain ⟨i,lowest⟩ := startable.free
    obtain ⟨fuel,rfl⟩ : ∃ n, fuel = n + 1 := ⟨fuel - 1,by omega⟩
    have short := startable.short
    simp only [maxDataBlockCount,blockSize] at short
    obtain ⟨page,loaded⟩ := loadProgram_ends startable.executable.present startable.short startable.clean
      (k.pages (i + 1)) fuel (by omega)
    exact ⟨eip,_,execute_started_iff.mpr ⟨accepted,parsed,dentry,i,page,parses,found,startable_header startable,entry,
      lowest,startable.room,loaded,rfl⟩⟩

end

/-! ### What `execute` does with a command -/

/-- Nothing has changed that processes work on. -/
structure Untouched (k after : Kernel) : Prop where
  pids : after.availablePids = k.availablePids
  procs : ∀ t, (after.terminals t).toProcs = (k.terminals t).toProcs
  paging : after.paging = k.paging
  pcbs : after.pcbs = k.pcbs

def NoneFree (k : Kernel) : Prop := ∀ i, i < maxProcesses → k.availablePids i ≠ 0

/-- While a process ID is free, the executing terminal has room for a process. -/
def Roomy (k : Kernel) : Prop := ¬ NoneFree k → (executingTerm k).numProcs < maxProcesses

/-- What `execute` does with a command whose first word is `name`. -/
structure Admits (fs : Fs) (fuel : Nat) (k : Kernel) (command : Command) (name : Nat → UInt8) : Prop where
  /-- A program that starts is an executable, and starts at its entry point. -/
  sound : ∀ eip after, Syscalls.execute fs fuel k command = .ok (.started eip after) →
    ∃ dentry, readDentryByName fs name = some dentry ∧ Executable fs dentry.inode ∧
      (28 ≤ fileLength fs dentry.inode → eip = entryPoint fs dentry.inode) ∧ ∃ i, LowestFree k i
  /-- A command that returns has changed nothing, with one message for a lack of
      process IDs. -/
  quiet : ∀ value after, Syscalls.execute fs fuel k command = .ok (.returned value after) → Untouched k after ∧
    ((value = -1 ∧ after = k) ∨ (value = 0 ∧ NoneFree k ∧ after = terminalWrite k maxProcessesMessage))
  outside : ¬ Accepted command.address → Syscalls.execute fs fuel k command = .ok (.returned (-1) k)
  unknown : readDentryByName fs name = none → Syscalls.execute fs fuel k command = .ok (.returned (-1) k)
  refuses : ∀ dentry, readDentryByName fs name = some dentry →
    (dentry.inode < fs.metadata.numInodes → fileLength fs dentry.inode < maxDataBlockCount * blockSize) →
    ¬ Executable fs dentry.inode → Syscalls.execute fs fuel k command = .ok (.returned (-1) k)
  /-- Without a process ID, all that comes of an executable is the message. -/
  full : Accepted command.address → ∀ dentry, readDentryByName fs name = some dentry →
    fileLength fs dentry.inode < maxDataBlockCount * blockSize → Clean fs dentry.inode → Executable fs dentry.inode →
    NoneFree k → Syscalls.execute fs fuel k command = .ok (.returned 0 (terminalWrite k maxProcessesMessage))
  starts : Accepted command.address → ∀ dentry, readDentryByName fs name = some dentry →
    dentry.filetype = normalFileType → fileLength fs dentry.inode < maxDataBlockCount * blockSize →
    Clean fs dentry.inode → Executable fs dentry.inode → 28 ≤ fileLength fs dentry.inode → ¬ NoneFree k →
    ∃ after, Syscalls.execute fs fuel k command = .ok (.started (entryPoint fs dentry.inode) after)

section
variable {fs : Fs} {k : Kernel} {command : Command} {fuel : Nat}

theorem untouched_draws {after : Kernel} (draws : Draws k after) : Untouched k after := by
  obtain ⟨phys,cursor,place,rfl⟩ := draws
  exact ⟨rfl,fun _ => rfl,rfl,rfl⟩

theorem lowestFree_exists (free : ¬ NoneFree k) : ∃ i, LowestFree k i := by
  rcases getAvailablePid_cases k with ⟨i,inside,unused,lowest,_⟩ | ⟨none,_⟩
  · exact ⟨i,inside,unused,lowest⟩
  · exact absurd none free

/-- Only an executable starts, and at its entry point if it has one. -/
theorem started_sound {parsed : Parsed} {eip : Nat} {after : Kernel} (parses : parseCommand fuel command.bytes = .ok parsed)
    (executed : Syscalls.execute fs fuel k command = .ok (.started eip after)) :
    ∃ dentry, readDentryByName fs parsed.filename = some dentry ∧ Executable fs dentry.inode ∧
      (28 ≤ fileLength fs dentry.inode → eip = entryPoint fs dentry.inode) ∧ ∃ i, LowestFree k i := by
  obtain ⟨_,parsed',dentry,i,_,parses',found,header,entry,lowest,_⟩ := execute_started_iff.mp executed
  rw [parses] at parses'
  cases parses'
  refine ⟨dentry,found,(header_ok header).1,fun long => ?_,i,lowest⟩
  rw [entrypoint_eq header long] at entry
  exact (Except.ok.inj entry).symm

/-- A command that returns leaves at most a message. -/
theorem returned_untouched {value : Int} {after : Kernel}
    (executed : Syscalls.execute fs fuel k command = .ok (.returned value after)) : Untouched k after ∧
      ((value = -1 ∧ after = k) ∨ (value = 0 ∧ NoneFree k ∧ after = terminalWrite k maxProcessesMessage)) := by
  by_cases accepted : Accepted command.address
  · rw [execute_accepts fs fuel k accepted] at executed
    obtain ⟨_,_,result⟩ := bind_eq_ok.mp executed
    rcases executeParsed_ok result with ⟨same,_⟩ | ⟨same,none,_⟩ | ⟨_,_,_,_,impossible,_⟩
    · cases same
      exact ⟨untouched_draws (draws_refl k),.inl ⟨rfl,rfl⟩⟩
    · cases same
      exact ⟨untouched_draws (terminalWrite_draws k _),.inr ⟨rfl,none,rfl⟩⟩
    · cases impossible
  · rw [execute_rejects fs fuel k accepted] at executed
    cases executed
    exact ⟨untouched_draws (draws_refl k),.inl ⟨rfl,rfl⟩⟩

/-- Every table that the kernel reaches has that room. -/
theorem tabled_roomy {S : Schedule} (tabled : Tabled S.family (tableOf k)) (exec : k.execTerm < maxTerminals) :
    Roomy k := by
  intro free
  obtain ⟨i,lowest⟩ := lowestFree_exists free
  exact room_of_free tabled exec (show 1 ≤ i + 1 by omega) lowest.1 lowest.2.1

/-- A file that is no executable is refused. -/
theorem executeParsed_refuses {parsed : Parsed} {dentry : Dentry}
    (found : readDentryByName fs parsed.filename = some dentry)
    (short : dentry.inode < fs.metadata.numInodes → fileLength fs dentry.inode < maxDataBlockCount * blockSize)
    (other : ¬ Executable fs dentry.inode) : executeParsed fs fuel k parsed = .ok (.returned (-1) k) := by
  have loads : Loads fs dentry.inode 0 := fun present => loads_of_short (short present) 0 present
  obtain ⟨header,read,same⟩ := header_iff loads
  have differs : (elfHeader : Int) ≠ header := fun equal => other (same.mp equal.symm).1
  simp only [executeParsed,found,read,ok_bind,if_pos differs]

/-- What `execute` does with a command whose loops end and keep to their arrays.
    A file starts only if it is an executable and a process ID is free, and
    anything else changes nothing. -/
theorem admission {word : List UInt8} (begins : Begins command.bytes word) (short : word.length ≤ filenameSize)
    (other : ∃ i, i < 2 ^ 16 ∧ command.bytes i ≠ space) (fits : ¬ ArgsFull command.bytes) (enough : 2 ^ 16 ≤ fuel)
    (roomy : Roomy k) : Admits fs fuel k command (padded 0 word) := by
  obtain ⟨parsed,parses⟩ := (parse_ok_iff enough).mpr ⟨other,fits⟩
  have name := filename_eq begins parses
  rw [List.take_of_length_le short] at name
  have run : Accepted command.address → Syscalls.execute fs fuel k command = executeParsed fs fuel k parsed := by
    intro accepted
    rw [execute_accepts fs fuel k accepted,parses,ok_bind]
  have rejects : ∀ result, (Accepted command.address → executeParsed fs fuel k parsed = result) →
      result = .ok (.returned (-1) k) → Syscalls.execute fs fuel k command = .ok (.returned (-1) k) := by
    rintro _ admitted rfl
    by_cases accepted : Accepted command.address
    · rw [run accepted,admitted accepted]
    · exact execute_rejects fs fuel k accepted
  rw [← name]
  refine ⟨?_,?_,execute_rejects fs fuel k,?_,?_,?_,?_⟩
  · intro eip after executed
    exact started_sound parses executed
  · intro value after executed
    exact returned_untouched executed
  · intro absent
    refine rejects _ (fun _ => rfl) ?_
    simp only [executeParsed,absent]
  · intro dentry found short other
    exact rejects _ (fun _ => rfl) (executeParsed_refuses found short other)
  · intro accepted dentry found short clean executable none
    obtain ⟨header,read,same⟩ := header_iff (loads_of_short short 0)
    rw [same.mpr ⟨executable,executable_opens executable clean⟩] at read
    obtain ⟨eip,entry⟩ := entrypoint_ok short
    rcases executeParsed_executable (k := k) found read entry with ⟨i,lowest,_⟩ | ⟨_,refused⟩
    · exact absurd lowest.2.1 (none i lowest.1)
    · rw [run accepted]
      exact refused
  · intro accepted dentry found _ short clean executable long free
    have startable : Startable fs k dentry := ⟨executable,short,clean,lowestFree_exists free,roomy free⟩
    obtain ⟨eip,after,executed⟩ := (starts_iff accepted parses (by omega)).mpr ⟨dentry,found,startable⟩
    obtain ⟨_,_,_,_,_,parses',found',header,entry,_⟩ := execute_started_iff.mp executed
    rw [parses] at parses'
    cases parses'
    rw [found] at found'
    cases found'
    rw [entrypoint_eq header long] at entry
    cases entry
    exact ⟨after,executed⟩

end

theorem shell_begins : Begins shellCommand.bytes [115,104,101,108,108] := by
  refine ⟨List.forall_iff_forall_mem.mp (by decide),?_,by decide⟩
  intro i inside
  change [115,104,101,108,108].getD i 0 = _
  rw [List.getD_eq_getElem?_getD,List.getElem?_eq_getElem inside,Option.getD_some]

theorem shell_fits : ¬ ArgsFull shellCommand.bytes := by
  intro full
  have parses := parseCommand_shell (2 ^ 16 - 1)
  rw [parse_overflows full (by decide)] at parses
  cases parses

theorem boot_free (m : Kernel) : ¬ NoneFree (boot m) := fun none => none 0 (by decide) ((Boot.boot_idle m).pids 0)

theorem boot_roomy (m : Kernel) : Roomy (boot m) := by
  have idle := Boot.boot_idle m
  have exec : (boot m).execTerm < maxTerminals := by rw [idle.exec]; decide
  have tabled : Tabled (⟨empty,0⟩ : Schedule).family (tableOf (boot m)) := bare_table (Boot.idle_bare idle)
  exact tabled_roomy tabled exec

theorem admission_shell : ∃ after, Syscalls.execute shellFs (2 ^ 16) (boot default) shellCommand =
    .ok (.started 0x08048000 after) := by
  have admits : Admits shellFs (2 ^ 16) (boot default) shellCommand _ :=
    admission shell_begins (by decide) ⟨0,by decide,by decide⟩ shell_fits (Nat.le_refl _) (boot_roomy default)
  have found : readDentryByName shellFs (padded 0 [115,104,101,108,108]) =
      some ⟨[115,104,101,108,108] ++ List.replicate 28 0,2,0⟩ := by decide
  have executable : Executable shellFs 0 := ⟨by decide,by decide,by decide⟩
  have entry : entryPoint shellFs 0 = 0x08048000 := by decide
  obtain ⟨after,executed⟩ := admits.starts shell_accepted _ found rfl shellFs_file.short
    (clean_of_wellFormed shellFs_geometry shellFs_file) executable (by decide) (boot_free default)
  exact ⟨after,entry ▸ executed⟩

/-- Once six shells are running, `execute` returns 0. -/
theorem admission_fail : (∃ k after, Reachable (step shellFs) (Started shellFs) k ∧ NoneFree k ∧
      Syscalls.execute shellFs (2 ^ 16) k shellCommand = .ok (.returned 0 after)) ∧
    ¬ (∀ k value after, Reachable (step shellFs) (Started shellFs) k →
      Syscalls.execute shellFs (2 ^ 16) k shellCommand = .ok (.returned value after) → value = -1) := by
  obtain ⟨k,reached,crowd⟩ := Boot.crowd_reached Boot.shellFs_image 5 (Boot.started_crowd Boot.shellKernel_started)
    (by decide) (reachable_start Boot.shellKernel_started)
  have full : NoneFree k := fun _ inside => Boot.crowd_full crowd inside
  obtain ⟨dentry,found,_,header⟩ := Boot.shellFs_image.shell
  obtain ⟨eip,entry⟩ := entrypoint_ok (header_ok header).2.2
  have refused : Syscalls.execute shellFs (2 ^ 16) k shellCommand =
      .ok (.returned 0 (terminalWrite k maxProcessesMessage)) := by
    obtain ⟨parsed,parses⟩ := (parse_ok_iff (Nat.le_refl _)).mpr ⟨⟨0,by decide,by decide⟩,shell_fits⟩
    have name : parsed.filename = shellCommand.bytes := congrArg Parsed.filename (parsed_shell parses)
    rw [← name] at found
    rw [execute_accepts shellFs _ k shell_accepted,parses,ok_bind]
    rcases executeParsed_executable (k := k) found header entry with ⟨i,lowest,_⟩ | ⟨_,returns⟩
    · exact absurd lowest.2.1 (full i lowest.1)
    · exact returns
  refine ⟨⟨k,_,reached,full,refused⟩,fun always => ?_⟩
  have value := always k 0 _ reached refused
  cases value

end MazeOS.Admission
