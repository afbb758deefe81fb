import MazeOS.PageFaults

/-!
`execute`, `halt` and `switch_active_terminal` with page faults:
`intel_page_fault` ends the process on whose stack the kernel is. A page fault
in the load of a program comes when `execute` has taken a process ID
(`claimed`). A step that loads only programs whose blocks are mapped is one on
flat memory (`step_agrees`). The command itself is taken to be mapped: a page
fault while it is split changes no more than an exception of the caller.
-/
namespace MazeOS.PagedSteps
open MazeOS.Runs MazeOS.Bytes MazeOS.Faults MazeOS.ReadData MazeOS.Paging MazeOS.State MazeOS.Display MazeOS.Process
  MazeOS.Files MazeOS.Terminal MazeOS.Steps MazeOS.Transfers MazeOS.PageFaults
open MazeOS.Filesystem hiding readDentryByName getElfHeader getElfEntrypoint
open MazeOS.Syscalls hiding loadProgram

/-! ### `execute` -/

/-- How a call of `execute` ends. -/
inductive Outcome where
  | returned (value : Int) (k : Kernel)
  | started (eip : Nat) (k : Kernel)
  /-- A page fault, with the kernel at that moment. -/
  | faulted (cr2 : Nat) (k : Kernel)

/-- The rest of `execute` once a process ID is found. -/
def startProcess (fs : Fs) (fuel : Nat) (k : Kernel) (pid : Nat) (parsed : Parsed) (inode eip : Nat) :
    Checked Outcome :=
  let first := (executingTerm k).numProcs = 0
  let pcb := newPcb pid (if first then 0 else getPcb k) parsed
  let k := if first then k else saveStack k (getPcb k)
  let k := { k with paging := mapPage4MB k.paging pcb.pdeVirtAddr pcb.pde }
  loadProgram k.paging fs inode fuel (_128MB + imageLoadOffset) 0 (k.pages pid) >>= fun
    | .faulted cr2 page => .ok (.faulted cr2 { k with pages := Function.update k.pages pid page })
    | .done page =>
      let procs := executingTerm k
      if procs.numProcs ≥ maxProcesses then .error (.childProcs k.execTerm)
      else
        let terminal := { procs with
          childProcs := Function.update procs.childProcs procs.numProcs (pcbOf pcb.kEsp)
          numProcs := procs.numProcs + 1 }
        .ok (.started eip { setTerminal (setPcb k (pcbOf pcb.kEsp) pcb) k.execTerm terminal with
          pages := Function.update k.pages pid page
          tssEsp0 := pcb.esp0
          esp := pcb.esp0 })

/-- A call in a kernel that goes on with the value read, if the call meets no
    page fault. -/
def reading {α : Type} (k : Kernel) (read : Paged α) (next : α → Checked Outcome) : Checked Outcome :=
  match read with
  | .ok a => next a
  | .error (.fault fault) => .error fault
  | .error (.page cr2) => .ok (.faulted cr2 k)

/-- `execute` once the command is split. -/
def executeParsed (fs : Fs) (fuel : Nat) (k : Kernel) (parsed : Parsed) : Checked Outcome :=
  reading k (readDentryByName k.paging fs parsed.filename) fun
    | none => .ok (.returned (-1) k)
    | some dentry =>
      reading k (getElfHeader k.paging fs dentry.inode) fun header =>
      if (elfHeader : Int) ≠ header then .ok (.returned (-1) k)
      else
        reading k (getElfEntrypoint k.paging fs dentry.inode) fun eip =>
        let (available,k) := getAvailablePid k
        let pid := (available % 2 ^ 16).toNat
        if pid < 1 ∨ pid > maxProcesses then .ok (.returned 0 (terminalWrite k maxProcessesMessage))
        else startProcess fs fuel k pid parsed dentry.inode eip

/-- `execute`. -/
def execute (fs : Fs) (fuel : Nat) (k : Kernel) (command : Command) : Checked Outcome :=
  if (command.address < _128MB ∨ command.address ≥ _128MB + _4MB) ∧
      (command.address < _4MB ∨ command.address ≥ _4MB + _4MB) then .ok (.returned (-1) k)
  else parseCommand fuel command.bytes >>= executeParsed fs fuel k

/-! ### `halt`, and the page fault -/

def pageFaultMessage : List UInt8 :=
  [73,78,84,69,76,32,69,88,67,69,80,84,32,49,52,58,32,80,97,103,101,32,70,97,117,108,116,10]

def addressMessage : List UInt8 :=
  [65,100,100,114,101,115,115,32,116,104,97,116,32,119,97,115,32,97,99,99,101,115,115,101,100,32,
    40,67,82,50,41,58,32,48,120]

/-- `intel_page_fault` up to its call of `halt`. -/
def intelPageFault (k : Kernel) (cr2 : Nat) : Kernel :=
  let k := printf k (pageFaultMessage ++ addressMessage ++ Numerals.numeral 16 cr2 ++ [newline])
  setPcb k (getPcb k) { k.pcbs (getPcb k) with retval := returnException }

/-- `halt`, where the first argument bounds the page faults on the way: one in
    the load of the new shell calls `halt` again. -/
def haltWithin (fs : Fs) (fuel : Nat) : Nat → Kernel → UInt8 → Checked Kernel
  | faults, k, status =>
    let pcb := k.pcbs (getPcb k)
    let retval : Int := if pcb.retval = returnException then returnException else status.toNat
    closeFds pcb.fds maxOpenFiles >>= fun _ =>
    popProcess (releaseProcess k pcb) >>= fun k =>
    if pcb.parent = 0 then
      execute fs fuel (clearSetpos k 0 0) shellCommand >>= fun
        | .started _ k => .ok k
        | .returned _ _ => .error .badReturn
        | .faulted cr2 k =>
          match faults with
          | 0 => .error .diverges
          | left + 1 => haltWithin fs fuel left (intelPageFault k cr2) 0
    else
      let parent := k.pcbs pcb.parent
      .ok { k with
        paging := mapPage4MB k.paging parent.pdeVirtAddr parent.pde
        tssEsp0 := parent.esp0
        esp := parent.kEsp
        ebp := parent.kEbp
        eax := retval }

/-- `halt`. -/
def halt (fs : Fs) (fuel : Nat) (k : Kernel) (status : UInt8) : Checked Kernel := haltWithin fs fuel fuel k status

/-- What becomes of a call of `execute`. -/
def settle (fs : Fs) (fuel : Nat) : Outcome → Checked Kernel
  | .returned _ k => .ok k
  | .started _ k => .ok k
  | .faulted cr2 k => halt fs fuel (intelPageFault k cr2) 0

/-- The rest of a switch. -/
def resumeTerminal (fs : Fs) (fuel : Nat) (k : Kernel) : Checked Kernel :=
  if (activeTerm k).numProcs = 0 then
    lastProc k k.execTerm >>= fun running =>
    execute fs fuel { saveStack k running with execTerm := k.currTerminal } shellCommand >>= settle fs fuel
  else lastProc k k.currTerminal >>= fun process => .ok (remapVidmem k process videoMemIndex)

/-- `switch_active_terminal`. -/
def switchActiveTerminal (fs : Fs) (fuel : Nat) (k : Kernel) (termNum : Nat) : Checked Kernel :=
  if termNum ≥ maxTerminals then .error (.noTerminal termNum)
  else if k.currTerminal = termNum then .ok k
  else
    let (pid,probed) := getAvailablePid k
    if pid < 1 ∧ (probed.terminals termNum).numProcs = 0 then
      let k := printf probed notAvailableMessage
      .ok (setTerminal k k.currTerminal { activeTerm k with ack := true })
    else
      hideActive (freePid probed (unsigned pid)).2 >>= fun k => resumeTerminal fs fuel (showTerminal k termNum)

/-- The step of the kernel. -/
def step (fs : Fs) (k : Kernel) : Op → Checked Kernel
  | .execute fuel command => execute fs fuel k command >>= settle fs fuel
  | .halt fuel status => halt fs fuel k status
  | .exception fuel text =>
    let k := printf k text
    halt fs fuel (setPcb k (getPcb k) { k.pcbs (getPcb k) with retval := returnException }) 0
  | .switchTo fuel termNum => switchActiveTerminal fs fuel k termNum
  | op => Steps.step fs k op

/-! ### What `execute` does -/

/-- The page directory entry of a process ID. -/
def pdeOf (pid : Nat) : Pde4M := ⟨true,true,true,true,(_8MB + _4MB * (pid - 1)) / 2 ^ 22⟩

/-- The kernel when `execute` has taken a process ID and a page fault ends its
    load: nothing of the process is in the table yet. -/
def claimed (k : Kernel) (pid : Nat) (page : Nat → UInt8) : Kernel :=
  { k with
    availablePids := Function.update k.availablePids (pid - 1) 1
    pcbs := if (executingTerm k).numProcs = 0 then k.pcbs else (saveStack k (getPcb k)).pcbs
    paging := mapPage4MB k.paging _128MB (pdeOf pid)
    pages := Function.update k.pages pid page }

/-- The load of a program of which no byte is in the page of the process ID. -/
def load (fs : Fs) (fuel : Nat) (k : Kernel) (pid inode : Nat) : Checked Loaded :=
  loadProgram (mapPage4MB k.paging _128MB (pdeOf pid)) fs inode fuel (_128MB + imageLoadOffset) 0 (k.pages pid)

theorem startProcess_eq (fs : Fs) (fuel : Nat) (k : Kernel) (pid : Nat) (parsed : Parsed) (inode eip : Nat) :
    startProcess fs fuel { k with availablePids := Function.update k.availablePids (pid - 1) 1 } pid parsed inode eip =
      load fs fuel k pid inode >>= fun
        | .faulted cr2 page => .ok (.faulted cr2 (claimed k pid page))
        | .done page =>
          if (executingTerm k).numProcs ≥ maxProcesses then .error (.childProcs k.execTerm)
          else .ok (.started eip (spawned k pid parsed page)) := by
  by_cases first : (executingTerm k).numProcs = 0
  · have first' : (k.terminals k.execTerm).numProcs = 0 := first
    simp only [startProcess,executingTerm,first',if_true]
    congr 1
    funext loaded
    cases loaded with
    | faulted cr2 page => simp only [claimed,executingTerm,first',if_true]; rfl
    | done page => simp only [spawned,childPcb,executingTerm,first',if_true,setTerminal,setPcb,newPcb,pcbAddress]
  · have first' : (k.terminals k.execTerm).numProcs ≠ 0 := first
    simp only [startProcess,executingTerm,first',if_false,saveStack,setPcb]
    congr 1
    funext loaded
    cases loaded with
    | faulted cr2 page => simp only [claimed,executingTerm,first',if_false,saveStack,setPcb]; rfl
    | done page =>
      simp only [spawned,childPcb,executingTerm,first',if_false,setTerminal,setPcb,newPcb,pcbAddress,saveStack,getPcb]

/-- The outcome of a call without a page fault. -/
def plain : Executed → Outcome
  | .returned value k => .returned value k
  | .started eip k => .started eip k

/-- The load of a program has met a page fault, when the process ID `i + 1` was
    already taken. -/
structure Faulted (fs : Fs) (fuel : Nat) (k : Kernel) (parsed : Parsed) (inode i cr2 : Nat) (page : Nat → UInt8) :
    Prop where
  found : ∃ dentry, Filesystem.readDentryByName fs parsed.filename = some dentry ∧ dentry.inode = inode
  header : getElfHeader k.paging fs inode = .ok elfHeader
  lowest : LowestFree k i
  load : load fs fuel k (i + 1) inode = .ok (.faulted cr2 page)

section
variable {fs : Fs} {fuel : Nat} {k : Kernel}

theorem reading_ok {α : Type} {read : Paged α} {next : α → Checked Outcome} {outcome : Outcome}
    (done : reading k read next = .ok outcome) :
    (∃ a, read = .ok a ∧ next a = .ok outcome) ∨ ∃ cr2, outcome = .faulted cr2 k := by
  unfold reading at done
  split at done
  · exact .inl ⟨_,rfl,done⟩
  · cases done
  · cases done
    exact .inr ⟨_,rfl⟩

/-- `execute` ends as on flat memory, or in a page fault: before it has changed
    anything, or in the load. -/
theorem executeParsed_cases {parsed : Parsed} {outcome : Outcome}
    (ended : executeParsed fs fuel k parsed = .ok outcome) :
    (∃ result, outcome = plain result ∧ Steps.executeParsed fs fuel k parsed = .ok result) ∨
    (∃ cr2, outcome = .faulted cr2 k) ∨
    ∃ inode i cr2 page, Faulted fs fuel k parsed inode i cr2 page ∧
      outcome = .faulted cr2 (claimed k (i + 1) page) := by
  unfold executeParsed at ended
  rcases reading_ok ended with ⟨entry,read,ended⟩ | early
  · have found := Except.ok.inj ((readDentryByName_agrees parsed.filename).done _ read)
    unfold Steps.executeParsed
    rw [found]
    cases entry with
    | none =>
      cases ended
      exact .inl ⟨.returned (-1) k,rfl,rfl⟩
    | some dentry =>
      rcases reading_ok ended with ⟨header,readHeader,ended⟩ | early
      · simp only [(getElfHeader_agrees _).done _ readHeader,ok_bind]
        by_cases differs : (elfHeader : Int) ≠ header
        · rw [if_pos differs] at ended ⊢
          cases ended
          exact .inl ⟨.returned (-1) k,rfl,rfl⟩
        · rw [if_neg differs] at ended ⊢
          have header' : header = elfHeader := (not_not.mp differs).symm
          subst header'
          rcases reading_ok ended with ⟨eip,readEntry,ended⟩ | early
          · simp only [(getElfEntrypoint_agrees _).done _ readEntry,ok_bind]
            rcases getAvailablePid_cases k with ⟨i,inside,free,lowest,handed⟩ | ⟨used,none⟩
            · have few : i < 6 := inside
              have word : (((i : Int) + 1) % 2 ^ 16).toNat = i + 1 := by omega
              have inRange : ¬ (i + 1 < 1 ∨ i + 1 > maxProcesses) := by unfold maxProcesses; omega
              simp only [handed,word,if_neg inRange] at ended ⊢
              have starts := startProcess_eq fs fuel k (i + 1) parsed dentry.inode eip
              have starts' := Steps.startProcess_eq fs fuel k (i + 1) parsed dentry.inode
              rw [Nat.add_sub_cancel] at starts starts'
              rw [starts] at ended
              rw [starts']
              obtain ⟨loaded,done,ended⟩ := bind_eq_ok.mp ended
              cases loaded with
              | faulted cr2 page =>
                cases ended
                have faulted : Faulted fs fuel k parsed dentry.inode i cr2 page :=
                  ⟨⟨dentry,found,rfl⟩,readHeader,⟨inside,free,lowest⟩,done⟩
                exact .inr (.inr ⟨dentry.inode,i,cr2,page,faulted,rfl⟩)
              | done page =>
                simp only at ended
                split at ended
                · cases ended
                · rename_i room
                  cases ended
                  refine .inl ⟨.started eip (spawned k (i + 1) parsed page),rfl,?_⟩
                  rw [loadProgram_agrees _ _ _ _ done,ok_bind,if_neg room,ok_bind]
            · have word : ((-1 : Int) % 2 ^ 16).toNat < 1 ∨ ((-1 : Int) % 2 ^ 16).toNat > maxProcesses := by decide
              simp only [none,if_pos word] at ended ⊢
              cases ended
              exact .inl ⟨.returned 0 _,rfl,rfl⟩
          · exact .inr (.inl early)
      · exact .inr (.inl early)
  · exact .inr (.inl early)

theorem execute_cases {command : Command} {outcome : Outcome} (ended : execute fs fuel k command = .ok outcome) :
    (∃ result, outcome = plain result ∧ Syscalls.execute fs fuel k command = .ok result) ∨
    (∃ cr2, outcome = .faulted cr2 k) ∨
    ∃ parsed inode i cr2 page, Accepted command.address ∧ parseCommand fuel command.bytes = .ok parsed ∧
      Faulted fs fuel k parsed inode i cr2 page ∧ outcome = .faulted cr2 (claimed k (i + 1) page) := by
  by_cases accepted : Accepted command.address
  · have inside := accepted
    simp only [Accepted] at inside
    rw [execute,if_neg (by omega)] at ended
    obtain ⟨parsed,parses,ended⟩ := bind_eq_ok.mp ended
    rw [execute_accepts fs fuel k accepted,parses,ok_bind]
    rcases executeParsed_cases ended with same | early | ⟨inode,i,cr2,page,faulted,same⟩
    · exact .inl same
    · exact .inr (.inl early)
    · exact .inr (.inr ⟨parsed,inode,i,cr2,page,accepted,rfl,faulted,same⟩)
  · have outside := accepted
    simp only [Accepted] at outside
    rw [execute,if_pos (by omega)] at ended
    cases ended
    exact .inl ⟨.returned (-1) k,rfl,execute_rejects fs fuel k accepted⟩

/-- `execute` ends as on flat memory, or in a page fault that finds the processes
    of the terminals as they were. -/
theorem execute_agrees {command : Command} {outcome : Outcome} (ended : execute fs fuel k command = .ok outcome) :
    (∃ result, outcome = plain result ∧ Syscalls.execute fs fuel k command = .ok result) ∨
    ∃ cr2 fault, outcome = .faulted cr2 fault ∧ executingTerm fault = executingTerm k := by
  rcases execute_cases ended with same | ⟨cr2,same⟩ | ⟨_,_,i,cr2,page,_,_,_,same⟩
  · exact .inl same
  · exact .inr ⟨cr2,k,same,rfl⟩
  · exact .inr ⟨cr2,_,same,rfl⟩

/-! ### The end of a process -/

theorem popProcess_empty (bare : (executingTerm k).numProcs = 0) : popProcess k = .error (.childProcs k.execTerm) := by
  rw [popProcess]
  exact if_pos (.inl bare)

theorem releaseProcess_procs (pcb : Pcb) :
    (executingTerm (releaseProcess k pcb)).numProcs = (executingTerm k).numProcs := by
  have freed : (freePid k pcb.pid).2.terminals = k.terminals ∧ (freePid k pcb.pid).2.execTerm = k.execTerm := by
    unfold freePid
    split
    · exact ⟨rfl,rfl⟩
    · split
      · exact ⟨rfl,rfl⟩
      · exact ⟨rfl,rfl⟩
  have printed : ∀ l : Kernel, (executingTerm (printf l freeFailedMessage)).numProcs = (executingTerm l).numProcs := by
    intro l
    have same := Tables.tableOf_draws (printf_draws l freeFailedMessage)
    exact congrArg (fun T : Tables.Table => (T.procs T.execTerm).numProcs) same
  have here : (executingTerm (freePid k pcb.pid).2).numProcs = (executingTerm k).numProcs := by
    rw [executingTerm,executingTerm,freed.1,freed.2]
  have unmapped : ∀ l : Kernel, (executingTerm (if pcb.vidmemVirtAddr ≠ 0 then
      { l with paging := freeUserVideoMem l.paging pcb.vidmemVirtAddr } else l)).numProcs =
        (executingTerm l).numProcs := by
    intro l
    split
    · rfl
    · rfl
  unfold releaseProcess
  simp only
  rw [unmapped]
  split
  · rw [printed,here]
  · exact here

/-- On a terminal without processes `halt` stores before `child_procs`. -/
theorem haltWithin_empty (faults : Nat) (status : UInt8) (after : Kernel) (bare : (executingTerm k).numProcs = 0) :
    haltWithin fs fuel faults k status ≠ .ok after := by
  intro halted
  unfold haltWithin at halted
  obtain ⟨_,_,halted⟩ := bind_eq_ok.mp halted
  rw [popProcess_empty ((releaseProcess_procs _).trans bare),error_bind] at halted
  cases halted

theorem intelPageFault_procs (cr2 : Nat) :
    (executingTerm (intelPageFault k cr2)).numProcs = (executingTerm k).numProcs := by
  have same := Tables.tableOf_draws (printf_draws k
    (pageFaultMessage ++ addressMessage ++ Numerals.numeral 16 cr2 ++ [newline]))
  exact congrArg (fun T : Tables.Table => (T.procs T.execTerm).numProcs) same

/-- A page fault on a terminal without processes does not leave the kernel
    running. -/
theorem faulted_empty {cr2 faults : Nat} {fault after : Kernel} (same : executingTerm fault = executingTerm k)
    (bare : (executingTerm k).numProcs = 0) : haltWithin fs fuel faults (intelPageFault fault cr2) 0 ≠ .ok after := by
  refine haltWithin_empty _ _ _ ((intelPageFault_procs cr2).trans ?_)
  rw [same]
  exact bare

/-- Where the first process of a terminal is alone, `halt` either meets no page
    fault or does not end. -/
theorem halt_agrees {faults : Nat} {status : UInt8} {after : Kernel}
    (alone : (k.pcbs (getPcb k)).parent = 0 → (executingTerm k).numProcs = 1)
    (halted : haltWithin fs fuel faults k status = .ok after) : Syscalls.halt fs fuel k status = .ok after := by
  unfold haltWithin at halted
  obtain ⟨_,closes,halted⟩ := bind_eq_ok.mp halted
  obtain ⟨left,pops,halted⟩ := bind_eq_ok.mp halted
  simp only [Syscalls.halt]
  rw [closes,ok_bind,pops,ok_bind]
  by_cases root : (k.pcbs (getPcb k)).parent = 0
  · rw [if_pos root] at halted ⊢
    obtain ⟨outcome,ended,halted⟩ := bind_eq_ok.mp halted
    have bare : (executingTerm (clearSetpos left 0 0)).numProcs = 0 := by
      have cleared := Tables.tableOf_draws (clearSetpos_draws left 0 0)
      have size : (executingTerm (clearSetpos left 0 0)).numProcs = (executingTerm left).numProcs :=
        congrArg (fun T : Tables.Table => (T.procs T.execTerm).numProcs) cleared
      rw [size,popProcess_ok pops]
      simp only [executingTerm,setTerminal,Function.update_self]
      have one := (releaseProcess_procs (k := k) (k.pcbs (getPcb k))).trans (alone root)
      simp only [executingTerm] at one
      rw [one]
    rcases execute_agrees ended with ⟨result,same,executed⟩ | ⟨cr2,fault,rfl,same⟩
    · rw [executed,ok_bind]
      subst same
      cases result with
      | returned _ _ => cases halted
      | started eip started => cases halted; rfl
    · cases faults with
      | zero => cases halted
      | succ left' => exact absurd halted (faulted_empty same bare)
  · rw [if_neg root] at halted ⊢
    exact halted

theorem resumeTerminal_agrees {after : Kernel} (resumed : resumeTerminal fs fuel k = .ok after) :
    Terminal.resumeTerminal fs fuel k = .ok after := by
  unfold resumeTerminal at resumed
  unfold Terminal.resumeTerminal
  by_cases bare : (activeTerm k).numProcs = 0
  · rw [if_pos bare] at resumed ⊢
    obtain ⟨running,last,resumed⟩ := bind_eq_ok.mp resumed
    obtain ⟨outcome,ended,settled⟩ := bind_eq_ok.mp resumed
    rw [last,ok_bind]
    rcases execute_agrees ended with ⟨result,same,executed⟩ | ⟨cr2,fault,rfl,same⟩
    · rw [executed,ok_bind]
      subst same
      cases result with
      | returned _ _ => cases settled; rfl
      | started _ _ => cases settled; rfl
    · exact absurd settled (faulted_empty same bare)
  · rw [if_neg bare] at resumed ⊢
    exact resumed

theorem switchActiveTerminal_agrees {termNum : Nat} {after : Kernel}
    (switched : switchActiveTerminal fs fuel k termNum = .ok after) :
    Terminal.switchActiveTerminal fs fuel k termNum = .ok after := by
  unfold switchActiveTerminal at switched
  unfold Terminal.switchActiveTerminal
  split
  · rename_i outside
    rw [if_pos outside] at switched
    exact switched
  · rename_i inside
    rw [if_neg inside] at switched
    split
    · rename_i same
      rw [if_pos same] at switched
      exact switched
    · rename_i other
      rw [if_neg other] at switched
      simp only at switched ⊢
      split
      · rename_i refused
        rw [if_pos refused] at switched
        exact switched
      · rename_i available
        rw [if_neg available] at switched
        obtain ⟨hidden,hid,resumed⟩ := bind_eq_ok.mp switched
        rw [hid,ok_bind]
        exact resumeTerminal_agrees resumed

/-- The program of a command has its blocks mapped, where `execute` gets so far
    as to take a process ID for it. -/
def ProgramMapped (fs : Fs) (fuel : Nat) (k : Kernel) (command : Command) : Prop :=
  ∀ parsed dentry i, Accepted command.address → parseCommand fuel command.bytes = .ok parsed →
    Filesystem.readDentryByName fs parsed.filename = some dentry →
    getElfHeader k.paging fs dentry.inode = .ok elfHeader → LowestFree k i → BlocksMapped k.paging fs dentry.inode

/-- The programs that a step loads have their blocks mapped. -/
def LoadsMapped (fs : Fs) (k : Kernel) : Op → Prop
  | .execute fuel command => ProgramMapped fs fuel k command
  | .halt fuel _ | .exception fuel _ =>
    (k.pcbs (getPcb k)).parent = 0 → ProgramMapped fs fuel (popped k) shellCommand
  | .switchTo fuel termNum => (k.terminals termNum).numProcs = 0 → ProgramMapped fs fuel k shellCommand
  | .trap | .frame _ _ | .vidmap _ | .pit => True

theorem present_mapPage {p : PageTables} {pid address : Nat} (present : Present p address) :
    Present (mapPage4MB p _128MB (pdeOf pid)) address := by
  unfold Present Paging.translate at *
  by_cases user : directoryIndex (address % 2 ^ 32) = directoryIndex _128MB
  · simp only [mapPage4MB,user,Function.update_self,pdeOf,and_self,if_true]
    rfl
  · simp only [mapPage4MB,Function.update_of_ne user]
    exact present

/-- Where the program is mapped, its load meets no page fault. -/
theorem not_faulted {command : Command} (mapped : ProgramMapped fs fuel k command)
    (accepted : Accepted command.address) {parsed : Parsed} (parses : parseCommand fuel command.bytes = .ok parsed)
    {inode i cr2 : Nat} {page : Nat → UInt8} : ¬ Faulted fs fuel k parsed inode i cr2 page := by
  rintro ⟨⟨dentry,found,rfl⟩,header,lowest,load⟩
  obtain ⟨present,words⟩ := header_mapped header
  have blocks := mapped parsed dentry i accepted parses found header lowest
  refine loadProgram_mapped present ⟨fun j inside => present_mapPage (words.length j inside),fun b inside j short =>
    present_mapPage (words.numbers b inside j short)⟩ ?_ _ _ (by decide) ?_ _ _ _ load
  · exact fun b upTo inside j short within => present_mapPage (blocks b upTo inside j short within)
  · exact .inr fun c impossible => absurd impossible (Nat.not_lt_zero c)

/-- A step that loads only mapped programs is a step on flat memory. Where a call
    of `execute` meets a page fault before it has done anything, it is that of an
    exception of its caller. -/
theorem step_agrees {op : Op} {after : Kernel}
    (alone : (k.pcbs (getPcb k)).parent = 0 → (executingTerm k).numProcs = 1)
    (mapped : LoadsMapped fs k op) (taken : step fs k op = .ok after) :
    Steps.step fs k op = .ok after ∨ ∃ fuel text, Steps.step fs k (.exception fuel text) = .ok after := by
  have raised : ∀ (text : List UInt8), (((setPcb (printf k text) (getPcb (printf k text))
      { (printf k text).pcbs (getPcb (printf k text)) with retval := returnException }).pcbs
        (getPcb (printf k text))).parent = 0 → (executingTerm (printf k text)).numProcs = 1) := by
    intro text
    obtain ⟨_,_,_,same⟩ := printf_draws k text
    rw [same]
    simp only [setPcb,Function.update_self]
    exact alone
  cases op with
  | execute fuel command =>
    obtain ⟨outcome,ended,settled⟩ := bind_eq_ok.mp taken
    rcases execute_cases ended with
      ⟨result,same,executed⟩ | ⟨cr2,same⟩ | ⟨parsed,_,_,_,_,accepted,parses,faulted,_⟩
    · refine .inl ?_
      simp only [Steps.step,executed,ok_bind]
      subst same
      cases result with
      | returned _ _ => cases settled; rfl
      | started _ _ => cases settled; rfl
    · subst same
      exact .inr ⟨fuel,_,halt_agrees (raised _) settled⟩
    · exact absurd faulted (not_faulted mapped accepted parses)
  | halt fuel status => exact .inl (halt_agrees alone taken)
  | exception fuel text => exact .inl (halt_agrees (raised text) taken)
  | switchTo fuel termNum => exact .inl (switchActiveTerminal_agrees taken)
  | trap => exact .inl taken
  | frame esp ebp => exact .inl taken
  | vidmap screenStart => exact .inl taken
  | pit => exact .inl taken

end

end MazeOS.PagedSteps
