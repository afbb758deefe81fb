import MazeOS.PagedSteps

/-!
The table of processes, in runs with page faults. An image in the page of the
kernel whose shell is well formed always starts its shell
(`execute_shell_starts`). The table stays consistent as long as the programs
that are loaded have their blocks mapped (`process_table_mapped`). A page fault
in a load leaves its process ID in use although no process has it
(`fault_leaks`).
-/
namespace MazeOS.ProcessIds
open MazeOS.Runs MazeOS.Faults MazeOS.ReadData MazeOS.Paging MazeOS.State MazeOS.Display MazeOS.Process MazeOS.Tables
  MazeOS.Stacks MazeOS.ProcessTable MazeOS.UserMemory MazeOS.VidmapPage MazeOS.Transfers MazeOS.PageFaults
  MazeOS.PagedSteps
open MazeOS.Filesystem hiding readDentryByName getElfHeader getElfEntrypoint readData
open MazeOS.Syscalls hiding loadProgram startProcess execute halt
open MazeOS.Steps hiding step execute_cases executeParsed
open MazeOS.Terminal hiding switchActiveTerminal resumeTerminal
open MazeOS.Boot (ShellImage)

/-! ### Runs -/

/-- The table is consistent, and neither an `execute` that starts no process nor
    a switch that starts no shell changes it. -/
structure TableKept (fs : Fs) (k : Kernel) : Prop where
  consistent : Consistent k
  executes : ∀ fuel command value after, execute fs fuel k command = .ok (.returned value after) → SameTable k after
  switches : ∀ fuel termNum after, switchActiveTerminal fs fuel k termNum = .ok after →
    (Refused k termNum ∨ 0 < (k.terminals termNum).numProcs) → SameTable k after

/-- The kernel just after the first shell was executed. -/
def Started (fs : Fs) (k : Kernel) : Prop :=
  ∃ m fuel eip, execute fs fuel (boot m) shellCommand = .ok (.started eip k)

section
variable {fs : Fs} {S : Schedule} {k after : Kernel}

theorem execute_returned {fuel : Nat} {command : Command} {value : Int}
    (ended : execute fs fuel k command = .ok (.returned value after)) :
    Syscalls.execute fs fuel k command = .ok (.returned value after) := by
  rcases execute_agrees ended with ⟨result,same,executed⟩ | ⟨_,_,impossible,_⟩
  · cases result with
    | returned _ _ => cases same; exact executed
    | started _ _ => cases same
  · cases impossible

theorem execute_started {fuel eip : Nat} {command : Command}
    (ended : execute fs fuel k command = .ok (.started eip after)) :
    Syscalls.execute fs fuel k command = .ok (.started eip after) := by
  rcases execute_agrees ended with ⟨result,same,executed⟩ | ⟨_,_,impossible,_⟩
  · cases result with
    | returned _ _ => cases same
    | started _ _ => cases same; exact executed
  · cases impossible

theorem started_plain (started : Started fs k) : Terminal.Started fs k := by
  obtain ⟨m,fuel,eip,ended⟩ := started
  exact ⟨m,fuel,eip,execute_started ended⟩

theorem tableKept (valid : ValidShell fs) (represents : Represents S (tableOf k)) : TableKept fs k := by
  refine ⟨consistent_of_represents represents,?_,?_⟩
  · intro fuel command value after ended
    exact sameTable_of_tableOf (tableOf_draws (Steps.execute_returned (execute_returned ended)))
  · intro fuel termNum after switched reason
    rcases switch_change (steady_of_represents represents) valid (switchActiveTerminal_agrees switched) with
      same | ⟨_,bare,available,_⟩
    · exact sameTable_of_tableOf same
    · rcases reason with refused | some
      · exact absurd refused available
      · omega

theorem alone_of_represents (represents : Represents S (tableOf k)) (root : (k.pcbs (getPcb k)).parent = 0) :
    (executingTerm k).numProcs = 1 := (steady_of_represents represents).root root

/-- A step that loads only mapped programs keeps a kernel that stands for a
    schedule. -/
theorem step_represents {op : Op} (valid : ValidShell fs) (represents : Represents S (tableOf k))
    (mapped : LoadsMapped fs k op) (taken : step fs k op = .ok after) : ∃ S', Represents S' (tableOf after) := by
  rcases step_agrees (alone_of_represents represents) mapped taken with taken | ⟨_,_,taken⟩
  · obtain ⟨S',_,next⟩ := ProcessTable.step_represents valid represents taken
    exact ⟨S',next⟩
  · obtain ⟨S',_,next⟩ := ProcessTable.step_represents valid represents taken
    exact ⟨S',next⟩

end

/-! ### Images in the page of the kernel -/

/-- The image is in the page of the kernel, and its entries in one block. -/
structure InKernel (fs : Fs) : Prop where
  low : _4MB ≤ fs.fsStartAddr
  high : fs.fsEndAddr ≤ _8MB
  few : fs.metadata.numDentries ≤ 63

section
variable {fs : Fs} {p : PageTables} {inode : Nat}

theorem present_kernel (layout : Layout p) {a : Nat} (low : _4MB ≤ a) (high : a < _8MB) : Present p a := by
  simp only [_4MB,_8MB] at low high
  have small : a % 2 ^ 32 = a := Nat.mod_eq_of_lt (by omega)
  have directory : directoryIndex a = 1 := by unfold directoryIndex; omega
  rw [Present,small]
  simp [Paging.translate,directory,layout.kernel]

theorem readDentryByName_mapped (geometry : Geometry fs) (inKernel : InKernel fs) (layout : Layout p)
    (fname : Nat → UInt8) : Unpaged (readDentryByName p fs fname) := by
  obtain ⟨low,high,few⟩ := inKernel
  have extent := geometry.extent
  have search : ∀ left start, _4MB ≤ start → start + left * dentrySize ≤ _8MB →
      Unpaged (findDentry p fs fname left start) := by
    intro left
    induction left with
    | zero => exact fun _ _ _ => unpaged_ok none
    | succ left ih =>
      intro start low room
      simp only [dentrySize] at room
      have here : ∀ i, i < 64 → Present p (start + i) := fun i short => present_kernel layout (by omega) (by omega)
      refine unpaged_bind (unpaged_touch fun i short => here i (Nat.lt_trans short (by decide))) fun _ _ => ?_
      split
      · refine unpaged_bind (unpaged_touch fun i short => ?_) fun _ _ => unpaged_ok _
        rw [Nat.add_assoc]
        exact here _ (by simp only [filenameSize]; omega)
      · exact ih _ (by omega) (by simp only [dentrySize]; omega)
  refine search _ _ (by omega) ?_
  simp only [dentrySize,blockSize] at *
  omega

theorem dataBlockPtr_above (geometry : Geometry fs) {number : Nat} (valid : number < fs.metadata.numDataBlocks) :
    fs.fsStartAddr ≤ dataBlockPtr fs number := by
  obtain ⟨extent,fits⟩ := geometry
  simp only [dataBlockPtr,blockSize] at *
  omega

/-- The files of the image are mapped. -/
theorem file_mapped (geometry : Geometry fs) (file : WellFormedFile fs inode) (inKernel : InKernel fs)
    (layout : Layout p) : InodeMapped p fs inode ∧ BlocksMapped p fs inode := by
  obtain ⟨low,high,_⟩ := inKernel
  have short := file.short
  have pointer : fs.fsStartAddr ≤ getInodePtr fs inode ∧ getInodePtr fs inode + blockSize ≤ fs.fsEndAddr := by
    obtain ⟨extent,fits⟩ := geometry
    have present := file.exists_
    simp only [getInodePtr,blockSize] at *
    omega
  refine ⟨⟨?_,?_⟩,?_⟩
  · intro i inside
    have room : i < blockSize := Nat.lt_trans inside (by decide)
    exact present_kernel layout (by omega) (by omega)
  · intro j inside i within
    have room : 4 + 4 * j + i < blockSize := by
      simp only [blockSize,maxDataBlockCount] at *
      omega
    exact present_kernel layout (by omega) (by omega)
  · intro b _ _ i inside within
    have valid := file.numbers b (block_used (Nat.lt_of_le_of_lt (Nat.le_add_right _ i) within))
    have above := dataBlockPtr_above geometry valid
    have below := dataBlockPtr_inside geometry valid
    generalize dataBlockPtr fs (blockNumber fs inode b) = start at above below
    exact present_kernel layout (by omega) (by omega)

/-- A read of a file of the image meets no page fault. -/
theorem file_read (geometry : Geometry fs) (file : WellFormedFile fs inode) (inKernel : InKernel fs) (layout : Layout p)
    (offset : Nat) (buf : Nat → UInt8) (length : Nat) : Unpaged (readData p fs inode offset buf length) := by
  obtain ⟨words,blocks⟩ := file_mapped geometry file inKernel layout
  refine readData_mapped (fun _ => words) ?_ ?_ buf
  · exact fun b _ here i short within => blocks b (by omega) here i short within
  · by_cases past : fileLength fs inode ≤ offset
    · exact .inl past
    · refine .inr fun c earlier stray => ?_
      have used : c * blockSize < fileLength fs inode := by
        simp only [blockSize] at *
        omega
      have below := dataBlockPtr_inside geometry (file.numbers c (block_used used))
      exact absurd stray (Nat.not_lt_of_le (Nat.le_trans (Nat.le_add_right _ _) below))

theorem load_total (geometry : Geometry fs) (file : WellFormedFile fs inode) (inKernel : InKernel fs) {k : Kernel}
    (layout : Layout k.paging) (pid : Nat) : ∃ page, load fs 253 k pid inode = .ok (.done page) := by
  have short := file.short
  simp only [maxDataBlockCount,blockSize] at short
  obtain ⟨page,loaded⟩ := Boot.loadProgram_total file.short
    (fun offset buf => ⟨_,readData_eq geometry file offset buf 1024⟩) 252 0 (Nat.zero_le _) (by omega)
    (_128MB + imageLoadOffset) (k.pages pid)
  have layout' : Layout (mapPage4MB k.paging _128MB (pdeOf pid)) := layout_mapPage layout rfl
  obtain ⟨words,blocks⟩ := file_mapped geometry file inKernel layout'
  rcases loadProgram_complete _ _ _ _ loaded with done | ⟨cr2,page',faulted⟩
  · exact ⟨page,done⟩
  · refine absurd faulted (loadProgram_mapped file.exists_ words blocks _ _ (by decide) ?_ _ _ _)
    exact .inr fun c impossible => absurd impossible (Nat.not_lt_zero c)

theorem shell_mapped (image : ShellImage fs) (inKernel : InKernel fs) {k : Kernel} (layout : Layout k.paging)
    (fuel : Nat) : ProgramMapped fs fuel k shellCommand := by
  intro parsed dentry i _ parses found _ _
  obtain ⟨shell,found',file,_⟩ := image.shell
  have name : parsed.filename = shellCommand.bytes := congrArg Parsed.filename (parsed_shell parses)
  rw [name,found'] at found
  cases found
  exact (file_mapped image.geometry file inKernel layout).2

/-- With a free process ID and room on the stack of the executing terminal, the
    shell of an image in the page of the kernel starts. -/
theorem execute_shell_starts (image : ShellImage fs) (inKernel : InKernel fs) {k : Kernel} (layout : Layout k.paging)
    (free : ∃ i, i < maxProcesses ∧ k.availablePids i = 0) (room : (executingTerm k).numProcs < maxProcesses) :
    ∃ eip after, execute fs 253 k shellCommand = .ok (.started eip after) := by
  obtain ⟨dentry,found,file,header⟩ := image.shell
  have named := agrees_complete (readDentryByName_agrees shellCommand.bytes)
    (readDentryByName_mapped image.geometry inKernel layout shellCommand.bytes) (congrArg Except.ok found)
  have paged : ∀ offset length, Unpaged (readData k.paging fs dentry.inode offset (fun _ => 0) length) :=
    fun offset length => file_read image.geometry file inKernel layout offset _ length
  have header' := agrees_complete (getElfHeader_agrees dentry.inode)
    (unpaged_bind (paged 0 elfHeaderSize) fun _ _ => unpaged_ok _) header
  obtain ⟨eip,entry⟩ : ∃ eip, Filesystem.getElfEntrypoint fs dentry.inode = .ok eip :=
    ⟨_,by rw [Filesystem.getElfEntrypoint,readData_eq image.geometry file entrypointOffset (fun _ => 0) 4]; rfl⟩
  have entry' := agrees_complete (getElfEntrypoint_agrees dentry.inode)
    (unpaged_bind (paged entrypointOffset 4) fun _ _ => unpaged_ok _) entry
  have inside := shell_accepted
  simp only [Accepted] at inside
  rw [execute,if_neg (by omega),parseCommand_shell 252,ok_bind,executeParsed]
  simp only [named,header',entry',reading,ne_eq,not_true_eq_false,if_false]
  rcases getAvailablePid_cases k with ⟨i,inside,unused,lowest,handed⟩ | ⟨none,_⟩
  · have few : i < 6 := inside
    have word : (((i : Int) + 1) % 2 ^ 16).toNat = i + 1 := by omega
    have inRange : ¬ (i + 1 < 1 ∨ i + 1 > maxProcesses) := by unfold maxProcesses; omega
    have starts := startProcess_eq fs 253 k (i + 1) ⟨shellCommand.bytes,fun _ => 0,0⟩ dentry.inode eip
    rw [Nat.add_sub_cancel] at starts
    simp only [handed,word,if_neg inRange,starts]
    obtain ⟨page,loads⟩ := load_total image.geometry file inKernel layout (i + 1)
    simp only [loads,ok_bind,if_neg (Nat.not_le_of_lt room)]
    exact ⟨eip,_,rfl⟩
  · obtain ⟨i,inside,zero⟩ := free
    exact absurd zero (none i inside)

/-- The event executes no other program than the shell. -/
def ShellOnly : Op → Prop
  | .execute _ command => command = shellCommand
  | _ => True

/-- A step that executes no other program than the shell loads mapped programs only. -/
theorem shells_mapped {S : Schedule} (image : ShellImage fs) (inKernel : InKernel fs) {k : Kernel}
    (represents : Represents S (tableOf k)) (mapped : Mapped k) {op : Op}
    (shells : ShellOnly op) : LoadsMapped fs k op := by
  have restarts : ∀ fuel, ProgramMapped fs fuel (popped k) shellCommand := by
    have left : Layout (popped k).paging := popped_layout mapped.layout (vidOf_running represents)
    exact shell_mapped image inKernel left
  cases op with
  | execute fuel command =>
    rw [show command = shellCommand from shells]
    exact shell_mapped image inKernel mapped.layout fuel
  | halt fuel status => exact fun _ => restarts fuel
  | exception fuel text => exact fun _ => restarts fuel
  | switchTo fuel termNum => exact fun _ => shell_mapped image inKernel mapped.layout fuel
  | trap | frame | vidmap | pit => exact trivial

/-- So does every step of a run from the first shell that executes no other
    program. -/
theorem shells_eachStep (image : ShellImage fs) (inKernel : InKernel fs) {first : Kernel} (started : Started fs first)
    {events : List Op} (shells : ∀ op, op ∈ events → ShellOnly op) :
    EachStep (step fs) (LoadsMapped fs) first events := by
  have valid := Boot.shellImage_valid image
  have steps : ∀ events k, (∀ op, op ∈ events → ShellOnly op) →
      (∃ S, Represents S (tableOf k)) ∧ Video k ∧ Mapped k → EachStep (step fs) (LoadsMapped fs) k events := by
    intro events
    induction events with
    | nil => exact fun _ _ _ => trivial
    | cons op rest ih =>
      rintro k shells ⟨⟨S,represents⟩,video,mapped⟩
      have loads := shells_mapped image inKernel represents mapped (shells op List.mem_cons_self)
      refine ⟨loads,fun after taken => ih after (fun e later => shells e (List.mem_cons_of_mem op later)) ?_⟩
      have next : ∀ {op}, Steps.step fs k op = .ok after →
          (∃ S, Represents S (tableOf after)) ∧ Video after ∧ Mapped after := by
        intro op taken
        obtain ⟨S',_,represents'⟩ := ProcessTable.step_represents valid represents taken
        have mapped' := step_mapped valid represents video mapped taken
        exact ⟨⟨S',represents'⟩,(step_right valid represents video taken).1,mapped'⟩
      rcases step_agrees (alone_of_represents represents) loads taken with taken | ⟨_,_,taken⟩
      · exact next taken
      · exact next taken
  have plain := started_plain started
  obtain ⟨⟨represents,video⟩,_⟩ := started_right plain
  exact steps events first shells ⟨represents,video,started_mapped plain⟩

end

/-! ### An image with a block number that wraps -/

theorem longFs_inKernel : InKernel longFs := ⟨by decide,by decide,by decide⟩

/-- The kernel with which a new process runs, where one was started. -/
def kernelOf : Checked Outcome → Kernel
  | .ok (.started _ k) => k
  | _ => default

/-- The kernel with the first shell of the image, on a blank machine. -/
def longKernel : Kernel := kernelOf (execute longFs 253 (boot default) shellCommand)

theorem longKernel_started : Started longFs longKernel := by
  have bare : (executingTerm (boot default)).numProcs < maxProcesses := by decide +kernel
  obtain ⟨eip,k,ended⟩ := execute_shell_starts Boot.longFs_image longFs_inKernel (boot_layout default)
    ⟨0,by decide,(Boot.boot_idle default).pids 0⟩ bare
  have same : longKernel = k := congrArg kernelOf ended
  rw [same]
  exact ⟨default,253,eip,ended⟩

/-! ### The table -/

/-- In a run from the first shell whose steps load only programs with mapped
    blocks the table is consistent in every state, and neither an `execute` that
    starts no process nor a switch that starts no shell changes it. -/
theorem process_table_mapped {fs : Fs} {first : Kernel} (valid : ValidShell fs) (started : Started fs first)
    {events : List Op} (mapped : EachStep (step fs) (LoadsMapped fs) first events) :
    Throughout (step fs) (TableKept fs) first events := by
  have keeps : ∀ k op after, (∃ S, Represents S (tableOf k)) → LoadsMapped fs k op → step fs k op = .ok after →
      ∃ S, Represents S (tableOf after) := by
    rintro k op after ⟨S,represents⟩ loads taken
    exact step_represents valid represents loads taken
  obtain ⟨S,represents,_⟩ := started_represents (started_plain started)
  refine throughout_mono ?_ (throughout_eachStep keeps ⟨S,represents⟩ mapped)
  rintro k ⟨S,represents⟩
  exact tableKept valid represents

/-- Two terminals, a program and its end, on such an image. -/
theorem process_table_mapped_shell :
    Leads (run (step longFs) longKernel [.switchTo 253 1,.execute 253 shellCommand,.pit,.pit,.halt 253 0])
      (fun last => (last.terminals 0).numProcs = 1 ∧ (last.terminals 1).numProcs = 1 ∧ last.availablePids 2 = 0) ∧
    Throughout (step longFs) (TableKept longFs) longKernel
      [.switchTo 253 1,.execute 253 shellCommand,.pit,.pit,.halt 253 0] := by
  refine ⟨by decide +kernel,process_table_mapped (Boot.shellImage_valid Boot.longFs_image) longKernel_started ?_⟩
  refine shells_eachStep Boot.longFs_image longFs_inKernel longKernel_started ?_
  simp [ShellOnly]

/-! ### A page fault in a load -/

section
variable {fs : Fs} {S : Schedule} {k after : Kernel}

/-- The table with a process ID in use. -/
def marked (T : Table) (i : Nat) : Table := { T with pids := Function.update T.pids i 1 }

theorem marked_pop {T : Table} {i : Nat} (other : (T.cores T.running).pid - 1 ≠ i) :
    (marked T i).pop = marked T.pop i := by
  have pids : (marked T i).pop.pids = (marked T.pop i).pids := Function.update_comm other.symm _ _ _
  simp only [marked,Table.pop,Table.running] at pids ⊢
  rw [pids]

theorem marked_push {T : Table} {i pid parent : Nat} (other : pid - 1 ≠ i) :
    (marked T i).push pid parent = marked (T.push pid parent) i := by
  have pids : ((marked T i).push pid parent).pids = (marked (T.push pid parent) i).pids :=
    Function.update_comm other.symm _ _ _
  simp only [marked,Table.push] at pids ⊢
  rw [pids]

theorem steady_marked {T : Table} (steady : Steady T) (i : Nat) : Steady (marked T i) := by
  refine ⟨steady.exec,steady.some,steady.last,steady.low,steady.high,?_,steady.root,steady.stack⟩
  show Function.update T.pids i 1 ((T.cores T.running).pid - 1) ≠ 0
  by_cases here : (T.cores T.running).pid - 1 = i
  · rw [here,Function.update_self]
    decide
  · rw [Function.update_of_ne here]
    exact steady.used

/-- A table in which a process ID is in use that no process of its schedule has. -/
theorem marked_inconsistent {T : Table} {i : Nat} (inside : i < maxProcesses) (represents : Represents S T)
    (free : T.pids i = 0) (table : tableOf after = marked T i) : ¬ Consistent after := by
  intro consistent
  have one : after.availablePids (i + 1 - 1) = 1 := by
    have pids : after.availablePids = Function.update T.pids i 1 := congrArg Table.pids table
    rw [Nat.add_sub_cancel,pids,Function.update_self]
  obtain ⟨t,j,⟨below,within⟩,number⟩ := (consistent.used (i + 1) (by omega) (by omega)).mp one
  have procs : (after.terminals t).toProcs = T.procs t :=
    congrFun (show (tableOf after).procs = (marked T i).procs from congrArg Table.procs table) t
  have core : ∀ a, coreOf (after.pcbs a) = T.cores a :=
    congrFun (show (tableOf after).cores = (marked T i).cores from congrArg Table.cores table)
  have size : (after.terminals t).numProcs = (S.family.stack t).length :=
    (congrArg Procs.numProcs procs).trans (represents.tabled.sizes t below)
  have place := List.getElem?_eq_getElem (size ▸ within)
  have held := held_of_get place
  have address : child after t j = pcbAddress (S.family.stack t)[j] :=
    (congrArg (fun procs : Procs => procs.childProcs j) procs).trans (represents.tabled.places t j _ place)
  have same : (after.pcbs (pcbAddress (S.family.stack t)[j])).pid = (S.family.stack t)[j] :=
    (congrArg Core.pid (core _)).trans (represents.tabled.blocks _ held).number
  rw [address,same] at number
  have used := represents.tabled.used _ held
  rw [number,Nat.add_sub_cancel,free] at used
  exact absurd used (by decide)

/-- The table when `intel_page_fault` calls `halt`. -/
theorem tableOf_faulted (some : (executingTerm k).numProcs ≠ 0) (i cr2 : Nat) (page : Nat → UInt8) :
    tableOf (intelPageFault (claimed k (i + 1) page) cr2) = (marked (tableOf k).save i).raise := by
  have raised := tableOf_raised (claimed k (i + 1) page)
    (pageFaultMessage ++ addressMessage ++ Numerals.numeral 16 cr2 ++ [newline])
  have table : tableOf (claimed k (i + 1) page) = marked (tableOf k).save i := by
    rw [← tableOf_saveStack k]
    simp only [claimed,if_neg some,Nat.add_sub_cancel]
    rfl
  rw [← table]
  exact raised

theorem represents_save (represents : Represents S (tableOf k)) : Represents S (tableOf k).save := by
  obtain ⟨p,live,_,running,_⟩ := running_live represents
  exact ⟨tabled_save represents.tabled live running,represents.exec,represents.running⟩

/-- The process ID of a page fault in a load stays in use, and no process has it. -/
theorem fault_leaks {fuel i cr2 : Nat} {page : Nat → UInt8} (represents : Represents S (tableOf k))
    (lowest : LowestFree k i) (halted : halt fs fuel (intelPageFault (claimed k (i + 1) page) cr2) 0 = .ok after) :
    ¬ Consistent after := by
  have saved := represents_save represents
  have faulted := tableOf_faulted (steady_of_represents represents).some.ne' i cr2 page
  obtain ⟨inside,free,_⟩ := lowest
  have free' : (tableOf k).save.pids i = 0 := free
  generalize (tableOf k).save = T at saved faulted free'
  generalize intelPageFault (claimed k (i + 1) page) cr2 = fault at halted faulted
  have steady := steady_of_represents saved
  have other : (T.raise.cores T.raise.running).pid - 1 ≠ i := by
    have same : (T.raise.cores T.raise.running).pid = (T.cores T.running).pid := by
      simp [Table.raise,Table.running]
    rw [same]
    intro here
    exact steady.used (here ▸ free')
  have alone : (fault.pcbs (getPcb fault)).parent = 0 → (executingTerm fault).numProcs = 1 := by
    intro root
    have parent := congrArg (fun U : Table => (U.cores U.running).parent) faulted
    have size := congrArg (fun U : Table => (U.procs U.execTerm).numProcs) faulted
    have same : ((marked T i).raise.cores (marked T i).raise.running).parent = (T.cores T.running).parent := by
      simp [marked,Table.raise,Table.running]
    exact size.trans (steady.root (same.symm.trans (parent.symm.trans root)))
  have left : T.raise.pop.pids i = 0 := (Function.update_of_ne other.symm _ _).trans free'
  rcases halt_change (steady_marked steady i) (.inr faulted) (halt_agrees alone halted) with
    ⟨child,same⟩ | ⟨root,pid,low,high,unused,same⟩
  · rw [faulted] at same
    have popped : (marked T i).raise.pop = marked T.raise.pop i := marked_pop other
    rw [popped] at same
    exact marked_inconsistent inside (represents_returns saved (.inr rfl) child) left same
  · rw [faulted] at same unused
    have popped : (marked T i).raise.pop = marked T.raise.pop i := marked_pop other
    rw [popped] at same unused
    have apart : pid - 1 ≠ i := by
      rintro rfl
      have one : (marked T.raise.pop (pid - 1)).pids (pid - 1) = 1 := Function.update_self _ _ _
      rw [one] at unused
      exact absurd unused (by decide)
    have unused' : T.raise.pop.pids (pid - 1) = 0 := (Function.update_of_ne apart _ _).symm.trans unused
    obtain ⟨_,next⟩ := represents_restarts saved (.inr rfl) root low high unused'
    rw [marked_push apart] at same
    exact marked_inconsistent inside next ((Function.update_of_ne apart.symm _ _).trans left) same

end

/-- The name of the file whose second block is at address 0. -/
def bCommand : Command := ⟨_128MB,fun i => if i = 0 then 98 else 0⟩

/-- The image has a well-formed shell, and a program whose second block number
    leads to address 0, which is not mapped. When the shell executes that program,
    the process ID 2 stays in use although no process has it. -/
theorem process_table_fails :
    ShellImage longFs ∧ InKernel longFs ∧ Started longFs longKernel ∧
    (∃ last, run (step longFs) longKernel [.execute 253 bCommand] = .ok last ∧ last.availablePids 1 = 1 ∧
      ∀ t i, Stored last t i → (last.pcbs (child last t i)).pid ≠ 2) ∧
    ¬ ∀ (fs : Fs) (first last : Kernel) (events : List Op), ValidShell fs → Started fs first →
      run (step fs) first events = .ok last → TableKept fs last := by
  have leads : Leads (run (step longFs) longKernel [.execute 253 bCommand]) fun last =>
      last.availablePids 1 = 1 ∧ (last.terminals 0).numProcs = 1 ∧ (last.terminals 1).numProcs = 0 ∧
        (last.terminals 2).numProcs = 0 ∧ (last.pcbs (child last 0 0)).pid = 1 := by decide +kernel
  obtain ⟨last,ran,used,one,none,none',pid⟩ := leads
  have lost : ∀ t i, Stored last t i → (last.pcbs (child last t i)).pid ≠ 2 := by
    rintro t i ⟨inside,within⟩ same
    rcases terminal_cases inside with rfl | rfl | rfl
    · obtain rfl : i = 0 := by omega
      rw [pid] at same
      cases same
    · omega
    · omega
  refine ⟨Boot.longFs_image,longFs_inKernel,longKernel_started,⟨last,ran,used,lost⟩,fun always => ?_⟩
  have valid := Boot.shellImage_valid Boot.longFs_image
  have consistent := (always longFs longKernel last _ valid longKernel_started ran).consistent
  obtain ⟨t,i,stored,same⟩ := (consistent.used 2 (by decide) (by decide)).mp used
  exact lost t i stored same

end MazeOS.ProcessIds
