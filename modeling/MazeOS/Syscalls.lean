import MazeOS.Files

/-!
`execute`, `halt`, `vidmap` and the exception handlers. `execute` runs with
interrupts disabled from its start to the `iret` into the new process, and
`halt` from its start to the jump back into the parent's `execute`, so each is
one step of the kernel. The loops of `execute` that need not end take the
number of iterations they may make; more than that is the fault `diverges`.
-/
namespace MazeOS.Syscalls
open MazeOS.Runs MazeOS.Bytes MazeOS.Faults MazeOS.Filesystem MazeOS.Paging MazeOS.State MazeOS.Display MazeOS.Process
  MazeOS.Files

def _4MB : Nat := 0x400000
def _8MB : Nat := 0x800000
def _128MB : Nat := 0x8000000
def imageLoadOffset : Nat := 0x48000
def userVideoMemAddr : Nat := _128MB + _4MB
def newline : UInt8 := 10

/-! ### The command -/

/-- The address of a command, and the bytes from there on. -/
structure Command where
  address : Nat
  bytes : Nat → UInt8

/-- The string literal `"shell"` in the kernel. -/
def shellCommand : Command := ⟨_4MB,fun i => ([115,104,101,108,108] : List UInt8).getD i 0⟩

structure Parsed where
  filename : Nat → UInt8
  args : Nat → UInt8
  argsLength : Nat

/-- The loop over the first word: the index where it stops. -/
def wordEnd (command : Nat → UInt8) : Nat → Nat → Nat
  | 0, i => i
  | left + 1, i =>
    if command i = space ∨ command i = newline ∨ command i = 0 then i else wordEnd command left (i + 1)

/-- The loop over the spaces after the first word; `i` has 16 bits. -/
def skipSpaces (command : Nat → UInt8) : Nat → Nat → Checked Nat
  | 0, _ => .error .diverges
  | fuel + 1, i => if command i = space then skipSpaces command fuel ((i + 1) % 2 ^ 16) else .ok i

/-- The loop that copies the arguments: the index, the array and its length. -/
def copyArgs (command : Nat → UInt8) : Nat → Nat → (Nat → UInt8) → Nat → Nat × (Nat → UInt8) × Nat
  | 0, i, args, length => (i,args,length)
  | left + 1, i, args, length =>
    if command i = newline ∨ command i = 0 then (i,args,length)
    else copyArgs command left ((i + 1) % 2 ^ 16) (Function.update args length (command i)) (length + 1)

/-- The loop that strips trailing spaces, from index `i` back. -/
def stripSpaces (command : Nat → UInt8) : Nat → Nat → Nat → Checked Nat
  | 0, _, _ => .error .diverges
  | fuel + 1, i, length =>
    if command i = space then stripSpaces command fuel ((i + (2 ^ 16 - 1)) % 2 ^ 16) ((length + (2 ^ 16 - 1)) % 2 ^ 16)
    else .ok length

/-- The part of `execute` that splits the command. -/
def parseCommand (fuel : Nat) (command : Nat → UInt8) : Checked Parsed := do
  let wordLength := wordEnd command filenameSize 0
  let filename := copyInto (fun _ => 0) 0 command wordLength
  let start ← skipSpaces command fuel wordLength
  let (i,args,length) := copyArgs command argsLength start (fun _ => 0) 0
  if length ≠ 0 then
    let stripped ← stripSpaces command fuel ((i + (2 ^ 16 - 1)) % 2 ^ 16) length
    if stripped < argsLength then .ok ⟨filename,Function.update args stripped 0,stripped⟩
    else .error (.args stripped)
  else .ok ⟨filename,args,length⟩

/-! ### The new process -/

/-- The loop of `execute` that loads the program. `read_data` returns an `int32_t`
    that the loop adds to unsigned counters. -/
def loadProgram (fs : Fs) (inode : Nat) : Nat → Nat → Nat → (Nat → UInt8) → Checked (Nat → UInt8)
  | 0, _, _, _ => .error .diverges
  | fuel + 1, loadAddr, bytesRead, mem =>
    readData fs inode bytesRead (fun i => mem ((loadAddr + i) % 2 ^ 32)) 1024 >>= fun (copied,after) =>
      let mem' := fun address => after ((address + (2 ^ 32 - loadAddr)) % 2 ^ 32)
      if unsigned copied = 0 then .ok mem'
      else loadProgram fs inode fuel ((loadAddr + unsigned copied) % 2 ^ 32)
        ((bytesRead + unsigned copied) % 2 ^ 32) mem'

/-- The descriptor table of a new process. -/
def initialFds (i : Nat) : FileDesc :=
  if i = 0 then ⟨some .stdin,0,0,fileInUse⟩
  else if i = 1 then ⟨some .stdout,0,0,fileInUse⟩
  else ⟨none,0,0,0⟩

/-- The control block of a new process, in a cleared structure. -/
def newPcb (pid parent : Nat) (parsed : Parsed) : Pcb where
  esp0 := esp0Of pid
  pid := pid
  retval := 0
  pde := ⟨true,true,true,true,(_8MB + _4MB * (pid - 1)) / 2 ^ 22⟩
  pdeVirtAddr := _128MB
  vidmemPte := ⟨false,false,false,0⟩
  vidmemVirtAddr := 0
  esp := _128MB + _4MB - 4
  ebp := _128MB + _4MB - 4
  kEsp := esp0Of pid
  kEbp := esp0Of pid
  fds := initialFds
  args := if parsed.argsLength ≠ 0 then copyInto (fun _ => 0) 0 parsed.args (parsed.argsLength + 1) else fun _ => 0
  argsLength := parsed.argsLength
  parent := parent

/-- The rest of `execute` once a process ID is found: the parent's stack pointers
    are saved, the page is mapped and loaded, and the control block is stored
    and pushed on the stack of the terminal. No read of the image faults;
    `PagedSteps` has the page faults. -/
def startProcess (fs : Fs) (fuel : Nat) (k : Kernel) (pid : Nat) (parsed : Parsed) (inode : Nat) : Checked Kernel :=
  let first := (executingTerm k).numProcs = 0
  let pcb := newPcb pid (if first then 0 else getPcb k) parsed
  let k := if first then k else saveStack k (getPcb k)
  let k := { k with paging := mapPage4MB k.paging pcb.pdeVirtAddr pcb.pde }
  loadProgram fs inode fuel (_128MB + imageLoadOffset) 0 (k.pages pid) >>= fun page =>
    let procs := executingTerm k
    if procs.numProcs ≥ maxProcesses then .error (.childProcs k.execTerm)
    else
      let terminal := { procs with
        childProcs := Function.update procs.childProcs procs.numProcs (pcbOf pcb.kEsp)
        numProcs := procs.numProcs + 1 }
      .ok { setTerminal (setPcb k (pcbOf pcb.kEsp) pcb) k.execTerm terminal with
        pages := Function.update k.pages pid page
        tssEsp0 := pcb.esp0
        esp := pcb.esp0 }

/-- How `execute` ends: it returns a value to its caller, or the new process runs
    in user mode from its entry point. -/
inductive Executed where
  | returned (value : Int) (k : Kernel)
  | started (eip : Nat) (k : Kernel)

def maxProcessesMessage : List UInt8 :=
  [77,97,120,32,112,114,111,99,101,115,115,101,115,32,114,101,97,99,104,101,100,10]

/-- `execute`. -/
def execute (fs : Fs) (fuel : Nat) (k : Kernel) (command : Command) : Checked Executed :=
  if (command.address < _128MB ∨ command.address ≥ _128MB + _4MB) ∧
      (command.address < _4MB ∨ command.address ≥ _4MB + _4MB) then .ok (.returned (-1) k)
  else
    parseCommand fuel command.bytes >>= fun parsed =>
    match readDentryByName fs parsed.filename with
    | none => .ok (.returned (-1) k)
    | some dentry =>
      getElfHeader fs dentry.inode >>= fun header =>
      if (elfHeader : Int) ≠ header then .ok (.returned (-1) k)
      else
        getElfEntrypoint fs dentry.inode >>= fun eip =>
        let (available,k) := getAvailablePid k
        -- `pcb.pid` has 16 bits, so -1 becomes 65535.
        let pid := (available % 2 ^ 16).toNat
        if pid < 1 ∨ pid > maxProcesses then .ok (.returned 0 (terminalWrite k maxProcessesMessage))
        else startProcess fs fuel k pid parsed dentry.inode >>= fun k => .ok (.started eip k)

/-! ### The end of a process -/

/-- The loop of `halt` that calls the `close` operation of every descriptor in
    use, none of which changes this state. -/
def closeFds (fds : Nat → FileDesc) : Nat → Checked Unit
  | 0 => .ok ()
  | i + 1 => closeFds fds i >>= fun _ =>
    if InUse (fds i) ∧ (fds i).fileOps = none then .error (.nullOps i) else .ok ()

def freeFailedMessage : List UInt8 :=
  [83,104,111,117,108,100,32,110,111,116,32,104,97,118,101,32,112,114,105,110,116,101,100,33,10]

/-- The process ID is given back, and the video page unmapped. -/
def releaseProcess (k : Kernel) (pcb : Pcb) : Kernel :=
  let (failed,k) := freePid k pcb.pid
  let k := if failed ≠ 0 then printf k freeFailedMessage else k
  if pcb.vidmemVirtAddr ≠ 0 then { k with paging := freeUserVideoMem k.paging pcb.vidmemVirtAddr } else k

/-- The last process leaves the stack of the executing terminal. -/
def popProcess (k : Kernel) : Checked Kernel :=
  let procs := executingTerm k
  if procs.numProcs = 0 ∨ procs.numProcs > maxProcesses then .error (.childProcs k.execTerm)
  else .ok (setTerminal k k.execTerm { procs with
    numProcs := procs.numProcs - 1
    childProcs := Function.update procs.childProcs (procs.numProcs - 1) 0 })

/-- `halt`. The value in `eax` is what the parent's `execute` returns. -/
def halt (fs : Fs) (fuel : Nat) (k : Kernel) (status : UInt8) : Checked Kernel :=
  let pcb := k.pcbs (getPcb k)
  let retval : Int := if pcb.retval = returnException then returnException else status.toNat
  closeFds pcb.fds maxOpenFiles >>= fun _ =>
  popProcess (releaseProcess k pcb) >>= fun k =>
  if pcb.parent = 0 then
    execute fs fuel (clearSetpos k 0 0) shellCommand >>= fun
      | .started _ k => .ok k
      | .returned _ _ => .error .badReturn
  else
    let parent := k.pcbs pcb.parent
    .ok { k with
      paging := mapPage4MB k.paging parent.pdeVirtAddr parent.pde
      tssEsp0 := parent.esp0
      esp := parent.kEsp
      ebp := parent.kEbp
      eax := retval }

/-- The exception handlers of `idt.c`, each with its own text. -/
def exception (fs : Fs) (fuel : Nat) (k : Kernel) (text : List UInt8) : Checked Kernel :=
  let k := printf k text
  halt fs fuel (setPcb k (getPcb k) { k.pcbs (getPcb k) with retval := returnException }) 0

/-- `vidmap`: the return value, the kernel after the call, and the word stored
    through the pointer. `VidmapStores` takes its stores one by one. -/
def vidmap (k : Kernel) (screenStart : Nat) : Int × Kernel × Option Nat :=
  if screenStart < _128MB ∨ screenStart ≥ _128MB + _4MB then (-1,k,none)
  else
    let pte : Pte := ⟨true,true,true,videoMemIndex⟩
    let mapped := { k with paging := mapUserVideoMem k.paging userVideoMemAddr pte }
    (0,setPcb mapped (getPcb mapped) { mapped.pcbs (getPcb mapped) with
      vidmemVirtAddr := userVideoMemAddr
      vidmemPte := pte },some userVideoMemAddr)

end MazeOS.Syscalls
