import MazeOS.Terminal

/-!
The machine whose runs the process table is about. One event is a system call
that works on processes, an exception, a timer interrupt, a switch of the
active terminal, or a move of the stack pointer of the running process. The
functions of this step are described once and for all by the state they lead
to: `spawned` for `execute` (`execute_cases`), `popped` and `resumed` for
`halt` (`halt_cases`), `contextSwitch_ok` and `switchActiveTerminal_ok` for the
two switches.
-/
namespace MazeOS.Steps
open MazeOS.Runs MazeOS.Faults MazeOS.Filesystem MazeOS.Paging MazeOS.State MazeOS.Display MazeOS.Process MazeOS.Files
  MazeOS.Syscalls MazeOS.Terminal

inductive Op where
  /-- The processor enters the kernel from user mode, on the stack in the TSS. -/
  | trap
  /-- Code of the kernel moves the stack pointers of the running process. -/
  | frame (esp ebp : Nat)
  | execute (fuel : Nat) (command : Command)
  | halt (fuel : Nat) (status : UInt8)
  | exception (fuel : Nat) (text : List UInt8)
  | vidmap (screenStart : Nat)
  | pit
  | switchTo (fuel : Nat) (termNum : Nat)

def step (fs : Fs) (k : Kernel) : Op → Checked Kernel
  | .trap => .ok { k with esp := k.tssEsp0 }
  | .frame esp ebp => if pcbOf esp = getPcb k then .ok { k with esp := esp, ebp := ebp } else .error .stackOverflow
  | .execute fuel command => Syscalls.execute fs fuel k command >>= fun
    | .returned _ k => .ok k
    | .started _ k => .ok k
  | .halt fuel status => Syscalls.halt fs fuel k status
  | .exception fuel text => Syscalls.exception fs fuel k text
  | .vidmap screenStart => .ok (Syscalls.vidmap k screenStart).2.1
  | .pit => pitInterruptHandler k
  | .switchTo fuel termNum => switchActiveTerminal fs fuel k termNum

/-- The image has a file with the name `shell` that is an executable. -/
def ValidShell (fs : Fs) : Prop :=
  ∃ dentry, readDentryByName fs shellCommand.bytes = some dentry ∧ getElfHeader fs dentry.inode = .ok elfHeader

/-! ### Where the control blocks are -/

/-- The control block of a process ID, at the start of the page of its kernel stack. -/
def pcbAddress (pid : Nat) : Nat := pcbOf (esp0Of pid)

theorem pcbAddress_eq {pid : Nat} (low : 1 ≤ pid) (high : pid ≤ maxProcesses) :
    pcbAddress pid = 0x800000 - pid * 0x2000 := by
  have few : pid ≤ 6 := high
  rw [pcbAddress,pcbOf_eq (by unfold esp0Of; omega),esp0Of]
  omega

theorem pcbAddress_ne_zero {pid : Nat} (low : 1 ≤ pid) (high : pid ≤ maxProcesses) : pcbAddress pid ≠ 0 := by
  have few : pid ≤ 6 := high
  rw [pcbAddress_eq low high]
  omega

theorem pcbAddress_inj {p q : Nat} (low : 1 ≤ p) (high : p ≤ maxProcesses) (low' : 1 ≤ q) (high' : q ≤ maxProcesses)
    (same : pcbAddress p = pcbAddress q) : p = q := by
  have few : p ≤ 6 := high
  have few' : q ≤ 6 := high'
  rw [pcbAddress_eq low high,pcbAddress_eq low' high'] at same
  omega

/-! ### `execute` -/

/-- The control block that `execute` builds, with the caller as parent unless
    the terminal has no process. -/
def childPcb (k : Kernel) (pid : Nat) (parsed : Parsed) : Pcb :=
  newPcb pid (if (executingTerm k).numProcs = 0 then 0 else getPcb k) parsed

/-- The kernel once `execute` has started a process. -/
def spawned (k : Kernel) (pid : Nat) (parsed : Parsed) (page : Nat → UInt8) : Kernel :=
  { k with
    availablePids := Function.update k.availablePids (pid - 1) 1
    terminals := Function.update k.terminals k.execTerm { executingTerm k with
      childProcs := Function.update (executingTerm k).childProcs (executingTerm k).numProcs (pcbAddress pid)
      numProcs := (executingTerm k).numProcs + 1 }
    pcbs := Function.update (if (executingTerm k).numProcs = 0 then k.pcbs else (saveStack k (getPcb k)).pcbs)
      (pcbAddress pid) (childPcb k pid parsed)
    pages := Function.update k.pages pid page
    paging := mapPage4MB k.paging _128MB (childPcb k pid parsed).pde
    tssEsp0 := esp0Of pid
    esp := esp0Of pid }

/-- The process with the ID that was found is loaded, and pushed if there is
    room. -/
theorem startProcess_eq (fs : Fs) (fuel : Nat) (k : Kernel) (pid : Nat) (parsed : Parsed) (inode : Nat) :
    startProcess fs fuel { k with availablePids := Function.update k.availablePids (pid - 1) 1 } pid parsed inode =
      loadProgram fs inode fuel (_128MB + imageLoadOffset) 0 (k.pages pid) >>= fun page =>
        if (executingTerm k).numProcs ≥ maxProcesses then .error (.childProcs k.execTerm)
        else .ok (spawned k pid parsed page) := by
  by_cases first : (executingTerm k).numProcs = 0
  · have first' : (k.terminals k.execTerm).numProcs = 0 := first
    simp only [startProcess,executingTerm,first',if_true]
    congr 1
    funext page
    simp only [spawned,childPcb,executingTerm,first',if_true,setTerminal,setPcb,newPcb,pcbAddress]
  · have first' : (k.terminals k.execTerm).numProcs ≠ 0 := first
    simp only [startProcess,executingTerm,first',if_false,saveStack,setPcb]
    congr 1
    funext page
    simp only [spawned,childPcb,executingTerm,first',if_false,setTerminal,setPcb,newPcb,pcbAddress,saveStack,getPcb]

/-- The addresses at which `execute` takes a command: the page of a process, and
    the kernel. -/
def Accepted (address : Nat) : Prop :=
  (_128MB ≤ address ∧ address < _128MB + _4MB) ∨ (_4MB ≤ address ∧ address < _4MB + _4MB)

instance (address : Nat) : Decidable (Accepted address) := inferInstanceAs (Decidable (_ ∨ _))

/-- `execute` once the command is split. -/
def executeParsed (fs : Fs) (fuel : Nat) (k : Kernel) (parsed : Parsed) : Checked Executed :=
  match readDentryByName fs parsed.filename with
  | none => .ok (.returned (-1) k)
  | some dentry =>
    getElfHeader fs dentry.inode >>= fun header =>
    if (elfHeader : Int) ≠ header then .ok (.returned (-1) k)
    else
      getElfEntrypoint fs dentry.inode >>= fun eip =>
      let (available,k) := getAvailablePid k
      let pid := (available % 2 ^ 16).toNat
      if pid < 1 ∨ pid > maxProcesses then .ok (.returned 0 (terminalWrite k maxProcessesMessage))
      else startProcess fs fuel k pid parsed dentry.inode >>= fun k => .ok (.started eip k)

theorem execute_rejects (fs : Fs) (fuel : Nat) (k : Kernel) {command : Command} (outside : ¬ Accepted command.address) :
    Syscalls.execute fs fuel k command = .ok (.returned (-1) k) := by
  simp only [Accepted] at outside
  rw [Syscalls.execute,if_pos (by omega)]

theorem execute_accepts (fs : Fs) (fuel : Nat) (k : Kernel) {command : Command} (accepted : Accepted command.address) :
    Syscalls.execute fs fuel k command = parseCommand fuel command.bytes >>= executeParsed fs fuel k := by
  simp only [Accepted] at accepted
  rw [Syscalls.execute,if_neg (by omega)]
  rfl

/-- The lowest free process ID is `i + 1`. -/
def LowestFree (k : Kernel) (i : Nat) : Prop :=
  i < maxProcesses ∧ k.availablePids i = 0 ∧ ∀ j, j < i → k.availablePids j ≠ 0

/-- Once the file is known to be an executable, the process starts when there is
    a process ID for it. -/
theorem executeParsed_executable {fs : Fs} {fuel eip : Nat} {k : Kernel} {parsed : Parsed} {dentry : Dentry}
    (found : readDentryByName fs parsed.filename = some dentry)
    (header : getElfHeader fs dentry.inode = .ok elfHeader) (entry : getElfEntrypoint fs dentry.inode = .ok eip) :
    (∃ i, LowestFree k i ∧ executeParsed fs fuel k parsed =
      (loadProgram fs dentry.inode fuel (_128MB + imageLoadOffset) 0 (k.pages (i + 1)) >>= fun page =>
        if (executingTerm k).numProcs ≥ maxProcesses then .error (.childProcs k.execTerm)
        else .ok (.started eip (spawned k (i + 1) parsed page)))) ∨
    ((∀ i, i < maxProcesses → k.availablePids i ≠ 0) ∧
      executeParsed fs fuel k parsed = .ok (.returned 0 (terminalWrite k maxProcessesMessage))) := by
  simp only [executeParsed,found,header,entry,ok_bind,ne_eq,not_true_eq_false,if_false]
  rcases getAvailablePid_cases k with ⟨i,inside,free,lowest,handed⟩ | ⟨used,none⟩
  · have few : i < 6 := inside
    have word : (((i : Int) + 1) % 2 ^ 16).toNat = i + 1 := by omega
    refine .inl ⟨i,⟨inside,free,lowest⟩,?_⟩
    have started := startProcess_eq fs fuel k (i + 1) parsed dentry.inode
    rw [Nat.add_sub_cancel] at started
    simp only [handed,word]
    rw [if_neg (by unfold maxProcesses; omega),started,bind_assoc]
    congr 1
    funext page
    split <;> rfl
  · refine .inr ⟨used,?_⟩
    simp only [none]
    rw [if_pos (by decide)]

/-- How `execute` ends once the command is split. -/
theorem executeParsed_ok {fs : Fs} {fuel : Nat} {k : Kernel} {parsed : Parsed} {result : Executed}
    (admitted : executeParsed fs fuel k parsed = .ok result) :
    (result = .returned (-1) k ∧ (readDentryByName fs parsed.filename = none ∨
      ∃ dentry header, readDentryByName fs parsed.filename = some dentry ∧
        getElfHeader fs dentry.inode = .ok header ∧ header ≠ elfHeader)) ∨
    (result = .returned 0 (terminalWrite k maxProcessesMessage) ∧ (∀ i, i < maxProcesses → k.availablePids i ≠ 0) ∧
      ∃ dentry, readDentryByName fs parsed.filename = some dentry ∧ getElfHeader fs dentry.inode = .ok elfHeader) ∨
    (∃ eip dentry i page, result = .started eip (spawned k (i + 1) parsed page) ∧
      readDentryByName fs parsed.filename = some dentry ∧ getElfHeader fs dentry.inode = .ok elfHeader ∧
      getElfEntrypoint fs dentry.inode = .ok eip ∧ LowestFree k i ∧ (executingTerm k).numProcs < maxProcesses ∧
      loadProgram fs dentry.inode fuel (_128MB + imageLoadOffset) 0 (k.pages (i + 1)) = .ok page) := by
  cases found : readDentryByName fs parsed.filename with
  | none =>
    rw [executeParsed,found] at admitted
    cases admitted
    exact .inl ⟨rfl,.inl rfl⟩
  | some dentry =>
    by_cases header : getElfHeader fs dentry.inode = .ok elfHeader
    · obtain ⟨eip,entry⟩ : ∃ eip, getElfEntrypoint fs dentry.inode = .ok eip := by
        simp only [executeParsed,found,header,ok_bind,ne_eq,not_true_eq_false,if_false] at admitted
        obtain ⟨eip,entry,_⟩ := bind_eq_ok.mp admitted
        exact ⟨eip,entry⟩
      rcases @executeParsed_executable fs fuel _ k _ _ found header entry with ⟨i,lowest,starts⟩ | ⟨used,refused⟩
      · rw [starts] at admitted
        obtain ⟨page,loaded,pushed⟩ := bind_eq_ok.mp admitted
        split at pushed
        · cases pushed
        · rename_i room
          cases pushed
          exact .inr (.inr ⟨eip,dentry,i,page,rfl,rfl,header,entry,lowest,Nat.lt_of_not_le room,loaded⟩)
      · rw [refused] at admitted
        cases admitted
        exact .inr (.inl ⟨rfl,used,dentry,rfl,header⟩)
    · rw [executeParsed,found] at admitted
      obtain ⟨value,read,admitted⟩ := bind_eq_ok.mp admitted
      split at admitted
      · rename_i differs
        cases admitted
        exact .inl ⟨rfl,.inr ⟨dentry,value,rfl,read,Ne.symm differs⟩⟩
      · rename_i same
        exact absurd (by rw [read,not_not.mp same]) header

/-- What it takes for `execute` to start a process, and the kernel with which the
    process then runs. -/
theorem execute_started_iff {fs : Fs} {fuel eip : Nat} {k after : Kernel} {command : Command} :
    Syscalls.execute fs fuel k command = .ok (.started eip after) ↔
      Accepted command.address ∧ ∃ parsed dentry i page, parseCommand fuel command.bytes = .ok parsed ∧
        readDentryByName fs parsed.filename = some dentry ∧ getElfHeader fs dentry.inode = .ok elfHeader ∧
        getElfEntrypoint fs dentry.inode = .ok eip ∧ LowestFree k i ∧ (executingTerm k).numProcs < maxProcesses ∧
        loadProgram fs dentry.inode fuel (_128MB + imageLoadOffset) 0 (k.pages (i + 1)) = .ok page ∧
        after = spawned k (i + 1) parsed page := by
  constructor
  · intro executed
    by_cases accepted : Accepted command.address
    · rw [execute_accepts fs fuel k accepted] at executed
      obtain ⟨parsed,parses,admitted⟩ := bind_eq_ok.mp executed
      rcases executeParsed_ok admitted with ⟨impossible,_⟩ | ⟨impossible,_⟩ | ⟨eip',dentry,i,page,same,facts⟩
      · cases impossible
      · cases impossible
      · cases same
        obtain ⟨found,header,entry,lowest,room,loaded⟩ := facts
        exact ⟨accepted,parsed,dentry,i,page,parses,found,header,entry,lowest,room,loaded,rfl⟩
    · rw [execute_rejects fs fuel k accepted] at executed
      cases executed
  · rintro ⟨accepted,parsed,dentry,i,page,parses,found,header,entry,lowest,room,loaded,rfl⟩
    rw [execute_accepts fs fuel k accepted,parses,ok_bind]
    rcases @executeParsed_executable fs fuel _ k _ _ found header entry with ⟨i',lowest',starts⟩ | ⟨used,_⟩
    · obtain rfl : i = i' := by
        rcases Nat.lt_trichotomy i i' with before | same | after
        · exact absurd lowest.2.1 (lowest'.2.2 i before)
        · exact same
        · exact absurd lowest'.2.1 (lowest.2.2 i' after)
      rw [starts,loaded,ok_bind,if_neg (Nat.not_le_of_lt room)]
    · exact absurd lowest.2.1 (used i lowest.1)

/-- `execute` either returns, and then has printed a message or done nothing, or
    starts a process with the lowest free ID. -/
theorem execute_cases {fs : Fs} {fuel : Nat} {k : Kernel} {command : Command} {result : Executed}
    (executed : Syscalls.execute fs fuel k command = .ok result) :
    (∃ value after, result = .returned value after ∧ (after = k ∨
      (∀ i, i < maxProcesses → k.availablePids i ≠ 0) ∧ after = terminalWrite k maxProcessesMessage)) ∨
    (∃ eip pid parsed page, result = .started eip (spawned k pid parsed page) ∧ 1 ≤ pid ∧ pid ≤ maxProcesses ∧
      k.availablePids (pid - 1) = 0 ∧ (executingTerm k).numProcs < maxProcesses) := by
  by_cases accepted : Accepted command.address
  · rw [execute_accepts fs fuel k accepted] at executed
    obtain ⟨parsed,_,admitted⟩ := bind_eq_ok.mp executed
    rcases executeParsed_ok admitted with ⟨rfl,_⟩ | ⟨rfl,used,_⟩ | ⟨eip,_,i,page,rfl,_,_,_,⟨inside,free,_⟩,room,_⟩
    · exact .inl ⟨_,_,rfl,.inl rfl⟩
    · exact .inl ⟨_,_,rfl,.inr ⟨used,rfl⟩⟩
    · exact .inr ⟨eip,i + 1,parsed,page,rfl,by omega,by omega,free,room⟩
  · rw [execute_rejects fs fuel k accepted] at executed
    cases executed
    exact .inl ⟨_,_,rfl,.inl rfl⟩

theorem execute_returned {fs : Fs} {fuel : Nat} {k after : Kernel} {command : Command} {value : Int}
    (executed : Syscalls.execute fs fuel k command = .ok (.returned value after)) : Draws k after := by
  rcases execute_cases executed with ⟨_,_,same,unchanged | ⟨_,printed⟩⟩ | ⟨_,_,_,_,same,_⟩
  · cases same; rw [unchanged]; exact draws_refl k
  · cases same; rw [printed]; exact terminalWrite_draws k _
  · cases same

/-- Nothing is printed while a process ID is free. -/
theorem execute_quiet {fs : Fs} {fuel : Nat} {k after : Kernel} {command : Command} {value : Int}
    (executed : Syscalls.execute fs fuel k command = .ok (.returned value after)) {i : Nat} (inside : i < maxProcesses)
    (free : k.availablePids i = 0) : after = k := by
  rcases execute_cases executed with ⟨_,_,same,unchanged | ⟨used,_⟩⟩ | ⟨_,_,_,_,same,_⟩
  · cases same; exact unchanged
  · exact absurd free (used i inside)
  · cases same

theorem execute_started {fs : Fs} {fuel eip : Nat} {k after : Kernel} {command : Command}
    (executed : Syscalls.execute fs fuel k command = .ok (.started eip after)) :
    ∃ pid parsed page, after = spawned k pid parsed page ∧ 1 ≤ pid ∧ pid ≤ maxProcesses ∧
      k.availablePids (pid - 1) = 0 ∧ (executingTerm k).numProcs < maxProcesses := by
  rcases execute_cases executed with ⟨_,_,same,_⟩ | ⟨_,pid,parsed,page,same,facts⟩
  · cases same
  · cases same; exact ⟨pid,parsed,page,rfl,facts⟩

theorem parseCommand_shell (fuel : Nat) :
    parseCommand (fuel + 1) shellCommand.bytes = .ok ⟨shellCommand.bytes,fun _ => 0,0⟩ := by
  have word : wordEnd shellCommand.bytes filenameSize 0 = 5 := by decide
  have start : skipSpaces shellCommand.bytes (fuel + 1) 5 = .ok 5 := rfl
  have copied : copyArgs shellCommand.bytes argsLength 5 (fun _ => 0) 0 = (5,fun _ => 0,0) := rfl
  have filename : Bytes.copyInto (fun _ => 0) 0 shellCommand.bytes 5 = shellCommand.bytes := by
    funext i
    by_cases inside : i < 5
    · rw [Bytes.copyInto_inside (by omega) (by omega)]
      rfl
    · rw [Bytes.copyInto_outside (by omega)]
      simp only [shellCommand]
      rw [List.getD_eq_getElem?_getD,List.getElem?_eq_none (by simpa using inside)]
      rfl
  simp only [parseCommand,word,start,ok_bind,copied,filename,ne_eq,not_true_eq_false,if_false]

/-- The name of the shell is in kernel memory. -/
theorem shell_accepted : Accepted shellCommand.address := by
  decide

/-- The name of the shell is split in one step. -/
theorem parsed_shell {fuel : Nat} {parsed : Parsed} (parses : parseCommand fuel shellCommand.bytes = .ok parsed) :
    parsed = ⟨shellCommand.bytes,fun _ => 0,0⟩ := by
  cases fuel with
  | zero => cases parses
  | succ fuel =>
    rw [parseCommand_shell] at parses
    exact (Except.ok.inj parses).symm

/-- The shell starts only from an image that has one. -/
theorem execute_valid {fs : Fs} {fuel eip : Nat} {k after : Kernel}
    (executed : Syscalls.execute fs fuel k shellCommand = .ok (.started eip after)) : ValidShell fs := by
  obtain ⟨_,parsed,dentry,_,_,parses,found,header,_⟩ := execute_started_iff.mp executed
  rw [parsed_shell parses] at found
  exact ⟨dentry,found,header⟩

/-- The shell is not started only when no process ID is free. -/
theorem execute_shell_returned {fs : Fs} {fuel : Nat} {k after : Kernel} {value : Int} (valid : ValidShell fs)
    (executed : Syscalls.execute fs fuel k shellCommand = .ok (.returned value after)) :
    ∀ i, i < maxProcesses → k.availablePids i ≠ 0 := by
  obtain ⟨dentry,found,header⟩ := valid
  rw [execute_accepts fs fuel k shell_accepted] at executed
  obtain ⟨parsed,parses,admitted⟩ := bind_eq_ok.mp executed
  rw [parsed_shell parses] at admitted
  rcases executeParsed_ok admitted with ⟨_,absent | ⟨dentry',header',found',read,differs⟩⟩ | ⟨_,used,_⟩ | ⟨_,_,_,_,impossible,_⟩
  · rw [found] at absent
    cases absent
  · rw [found] at found'
    cases found'
    rw [header] at read
    exact absurd (Except.ok.inj read).symm differs
  · exact used
  · cases impossible

/-! ### `halt` -/

/-- The kernel once `halt` has taken the running process from the table. -/
def popped (k : Kernel) : Kernel :=
  { k with
    availablePids := Function.update k.availablePids ((k.pcbs (getPcb k)).pid - 1) 0
    paging := if (k.pcbs (getPcb k)).vidmemVirtAddr ≠ 0 then
      freeUserVideoMem k.paging (k.pcbs (getPcb k)).vidmemVirtAddr else k.paging
    terminals := Function.update k.terminals k.execTerm { executingTerm k with
      numProcs := (executingTerm k).numProcs - 1
      childProcs := Function.update (executingTerm k).childProcs ((executingTerm k).numProcs - 1) 0 } }

/-- The kernel once a halted process has handed over to another one. -/
def resumed (k : Kernel) (address : Nat) (retval : Int) : Kernel :=
  { k with
    paging := mapPage4MB k.paging (k.pcbs address).pdeVirtAddr (k.pcbs address).pde
    tssEsp0 := (k.pcbs address).esp0
    esp := (k.pcbs address).kEsp
    ebp := (k.pcbs address).kEbp
    eax := retval }

/-- What the parent's `execute` returns for a process. -/
def returnValue (pcb : Pcb) (status : UInt8) : Int :=
  if pcb.retval = returnException then returnException else status.toNat

theorem popProcess_ok {k after : Kernel} (pops : popProcess k = .ok after) :
    after = setTerminal k k.execTerm { executingTerm k with
      numProcs := (executingTerm k).numProcs - 1
      childProcs := Function.update (executingTerm k).childProcs ((executingTerm k).numProcs - 1) 0 } := by
  unfold popProcess at pops
  simp only at pops
  split at pops
  · cases pops
  · cases pops; rfl

/-- `halt` takes the running process from the table and goes back to its parent,
    or starts a new shell where there is none. -/
theorem halt_cases {fs : Fs} {fuel : Nat} {k after : Kernel} {status : UInt8}
    (low : 1 ≤ (k.pcbs (getPcb k)).pid) (high : (k.pcbs (getPcb k)).pid ≤ maxProcesses)
    (used : k.availablePids ((k.pcbs (getPcb k)).pid - 1) ≠ 0)
    (halted : Syscalls.halt fs fuel k status = .ok after) :
    ((k.pcbs (getPcb k)).parent ≠ 0 ∧
      after = resumed (popped k) (k.pcbs (getPcb k)).parent (returnValue (k.pcbs (getPcb k)) status)) ∨
    ((k.pcbs (getPcb k)).parent = 0 ∧
      ∃ eip, Syscalls.execute fs fuel (clearSetpos (popped k) 0 0) shellCommand = .ok (.started eip after)) := by
  simp only [Syscalls.halt] at halted
  obtain ⟨_,_,halted⟩ := bind_eq_ok.mp halted
  obtain ⟨k',pops,halted⟩ := bind_eq_ok.mp halted
  have released : releaseProcess k (k.pcbs (getPcb k)) =
      { k with
        availablePids := Function.update k.availablePids ((k.pcbs (getPcb k)).pid - 1) 0
        paging := if (k.pcbs (getPcb k)).vidmemVirtAddr ≠ 0 then
          freeUserVideoMem k.paging (k.pcbs (getPcb k)).vidmemVirtAddr else k.paging } := by
    simp only [releaseProcess,freePid_used low high used,ne_eq,not_true_eq_false,if_false]
    split <;> rfl
  rw [released] at pops
  have same : k' = popped k := by rw [popProcess_ok pops]; rfl
  subst same
  by_cases root : (k.pcbs (getPcb k)).parent = 0
  · rw [if_pos root] at halted
    obtain ⟨result,executed,halted⟩ := bind_eq_ok.mp halted
    cases result with
    | returned _ _ => cases halted
    | started eip k' =>
      cases halted
      exact .inr ⟨root,eip,executed⟩
  · rw [if_neg root] at halted
    cases halted
    exact .inl ⟨root,rfl⟩

/-- A process with a parent can always end. -/
theorem halt_total (fs : Fs) {k : Kernel} (fuel : Nat) (status : UInt8)
    (closes : closeFds (k.pcbs (getPcb k)).fds maxOpenFiles = .ok ()) (some : 0 < (executingTerm k).numProcs)
    (few : (executingTerm k).numProcs ≤ maxProcesses) (low : 1 ≤ (k.pcbs (getPcb k)).pid)
    (high : (k.pcbs (getPcb k)).pid ≤ maxProcesses) (used : k.availablePids ((k.pcbs (getPcb k)).pid - 1) ≠ 0)
    (child : (k.pcbs (getPcb k)).parent ≠ 0) : ∃ after, Syscalls.halt fs fuel k status = .ok after := by
  have released : (executingTerm (releaseProcess k (k.pcbs (getPcb k)))).numProcs = (executingTerm k).numProcs := by
    simp only [releaseProcess,freePid_used low high used,ne_eq,not_true_eq_false,if_false]
    split <;> rfl
  have inside : ¬ ((executingTerm (releaseProcess k (k.pcbs (getPcb k)))).numProcs = 0 ∨
      (executingTerm (releaseProcess k (k.pcbs (getPcb k)))).numProcs > maxProcesses) := by omega
  simp only [Syscalls.halt]
  simp only [closes,ok_bind,popProcess,if_neg inside,if_neg child]
  exact ⟨_,rfl⟩

end MazeOS.Steps
