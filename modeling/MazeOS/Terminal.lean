import MazeOS.Syscalls

/-!
The terminals of `terminal.c`: `terminal_init`, and `switch_active_terminal`,
which probes for a process ID, saves the visible screen in the backup page of
its terminal, loads the screen of the new terminal, remaps the video page of
the user processes and starts a shell on a terminal without processes. The
whole switch runs with interrupts disabled.
-/
namespace MazeOS.Terminal
open MazeOS.Runs MazeOS.Faults MazeOS.Filesystem MazeOS.Paging MazeOS.State MazeOS.Display MazeOS.Process MazeOS.Files
  MazeOS.Syscalls

def vidBkupMemStartVirt : Nat := _128MB + _8MB
def vidBkupMemStartPhys : Nat := 0x4000000
def attribs (i : Nat) : UInt8 := ([0x9F,0x5F,0x4F] : List UInt8).getD i 0

/-! ### Initialization -/

/-- `memset_word` of `n` words. -/
def memsetWord (tr : Nat → Option Nat) (mem : Nat → UInt8) (address : Nat) (low high : UInt8) : Nat → Nat → UInt8
  | 0 => mem
  | n + 1 => store tr (store tr (memsetWord tr mem address low high n) (address + n * 2) low)
      (address + n * 2 + 1) high

/-- The loop body of `terminal_init`. -/
def initTerminal (k : Kernel) (i : Nat) : Kernel :=
  let terminal : MazeOS.State.Terminal :=
    { xPos := 0, yPos := 0, bufferSize := 0, buffer := fun _ => 0, attrib := attribs i, ack := false, readAck := false
      childProcs := fun _ => 0, numProcs := 0
      virtVidmemBackup := vidBkupMemStartVirt + i * 4096
      physVidmemBackup := vidBkupMemStartPhys + i * 4096 }
  let paging := mapBackupVidmem k.paging terminal.virtVidmemBackup terminal.physVidmemBackup
  { setTerminal k i terminal with
    paging := paging
    phys := memsetWord (translate paging) k.phys terminal.virtVidmemBackup space (attribs i) 2048 }

/-- `terminal_init`. -/
def terminalInit (k : Kernel) : Kernel :=
  let k := initTerminal (initTerminal (initTerminal k 0) 1) 2
  { k with
    currTerminal := 0
    paging := mapBackupVidmem k.paging (k.terminals 0).virtVidmemBackup videoMemStart }

/-- `keyboard_init`. -/
def keyboardInit (k : Kernel) : Kernel :=
  { setTerminal k k.currTerminal { activeTerm k with
      buffer := fun _ => 0, bufferSize := 0, ack := false, readAck := false } with
    modifiers := ⟨false,false,false,false,false,false,false⟩ }

def enablingMessage : List UInt8 :=
  [69,110,97,98,108,105,110,103,32,73,110,116,101,114,114,117,112,116,115,10]

/-- The kernel when `entry` executes the first shell, on a machine with any
    contents of memory and registers. -/
def boot (m : Kernel) : Kernel :=
  let cleared := { m with
    availablePids := fun _ => 0
    execTerm := 0
    currTerminal := 0
    paging := initPaging
    tssEsp0 := _8MB }
  clearSetpos (printf (keyboardInit (terminalInit cleared)) enablingMessage) 0 0

/-- The kernel just after the first shell was executed. -/
def Started (fs : Fs) (k : Kernel) : Prop :=
  ∃ m fuel eip, execute fs fuel (boot m) shellCommand = .ok (.started eip k)

/-! ### Switching terminals -/

def notAvailableMessage : List UInt8 :=
  [10,84,101,114,109,105,110,97,108,32,110,111,116,32,97,118,97,105,108,97,98,108,101,32,45,32,109,97,120,32,
    112,114,111,99,101,115,115,101,115,32,114,101,97,99,104,101,100,33,10]

/-- The video page of a process is mapped to another frame, when it has one. -/
def remapVidmem (k : Kernel) (process frame : Nat) : Kernel :=
  if (k.pcbs process).vidmemVirtAddr ≠ 0 then
    { k with paging := mapUserVideoMem k.paging (k.pcbs process).vidmemVirtAddr ⟨true,true,true,frame⟩ }
  else k

/-- The first half of a switch: the visible screen goes to the backup page. -/
def hideActive (k : Kernel) : Checked Kernel :=
  let active := activeTerm k
  let k := { k with paging := mapBackupVidmem k.paging active.virtVidmemBackup active.physVidmemBackup }
  let k := { k with phys := memcpy (translate k.paging) k.phys active.virtVidmemBackup videoMemStart 4096 }
  lastProc k k.currTerminal >>= fun process => .ok (remapVidmem k process (active.physVidmemBackup / 2 ^ 12))

/-- The screen of the new terminal becomes visible. -/
def showTerminal (k : Kernel) (termNum : Nat) : Kernel :=
  let k := { k with currTerminal := termNum }
  let active := activeTerm k
  let k := { k with phys := memcpy (translate k.paging) k.phys videoMemStart active.virtVidmemBackup 4096 }
  let k := { k with paging := mapBackupVidmem k.paging active.virtVidmemBackup videoMemStart }
  updateCursor k active.xPos active.yPos

/-- The rest of a switch: a shell starts on a terminal without processes, and the
    video page of the last process is mapped otherwise. -/
def resumeTerminal (fs : Fs) (fuel : Nat) (k : Kernel) : Checked Kernel :=
  if (activeTerm k).numProcs = 0 then
    lastProc k k.execTerm >>= fun running =>
    execute fs fuel { saveStack k running with execTerm := k.currTerminal } shellCommand >>= fun
      | .started _ k => .ok k
      | .returned _ k => .ok k
  else lastProc k k.currTerminal >>= fun process => .ok (remapVidmem k process videoMemIndex)

/-- A switch is refused when it needs a process and none can be started. -/
def Refused (k : Kernel) (termNum : Nat) : Prop :=
  (getAvailablePid k).1 < 1 ∧ (k.terminals termNum).numProcs = 0

instance (k : Kernel) (termNum : Nat) : Decidable (Refused k termNum) := inferInstanceAs (Decidable (_ ∧ _))

/-- `switch_active_terminal`. -/
def switchActiveTerminal (fs : Fs) (fuel : Nat) (k : Kernel) (termNum : Nat) : Checked Kernel :=
  if termNum ≥ maxTerminals then .error (.noTerminal termNum)
  else if k.currTerminal = termNum then .ok k
  else
    let (pid,probed) := getAvailablePid k
    if pid < 1 ∧ (probed.terminals termNum).numProcs = 0 then
      let k := printf probed notAvailableMessage
      .ok (setTerminal k k.currTerminal { activeTerm k with ack := true })
    else
      hideActive (freePid probed (unsigned pid)).2 >>= fun k => resumeTerminal fs fuel (showTerminal k termNum)

/-! ### What a switch does -/

/-- The kernel once the visible screen is in the backup page of its terminal. -/
def backedUp (k : Kernel) : Kernel :=
  let paging := mapBackupVidmem k.paging (activeTerm k).virtVidmemBackup (activeTerm k).physVidmemBackup
  { k with
    paging := paging
    phys := memcpy (translate paging) k.phys (activeTerm k).virtVidmemBackup videoMemStart 4096 }

theorem hideActive_ok {k hidden : Kernel} (hid : hideActive k = .ok hidden) :
    ∃ process, lastProc k k.currTerminal = .ok process ∧
      hidden = remapVidmem (backedUp k) process ((activeTerm k).physVidmemBackup / 2 ^ 12) := by
  simp only [hideActive] at hid
  obtain ⟨process,found,same⟩ := bind_eq_ok.mp hid
  cases same
  exact ⟨process,found,rfl⟩

/-- A switch to a terminal with processes maps the video page of the last one. -/
theorem resume_maps {fs : Fs} {fuel : Nat} {k after : Kernel} (some : (activeTerm k).numProcs ≠ 0)
    (resumed : resumeTerminal fs fuel k = .ok after) :
    ∃ process, lastProc k k.currTerminal = .ok process ∧ after = remapVidmem k process videoMemIndex := by
  simp only [resumeTerminal] at resumed
  rw [if_neg some] at resumed
  obtain ⟨process,found,ended⟩ := bind_eq_ok.mp resumed
  cases ended
  exact ⟨process,found,rfl⟩

/-- A switch to another terminal is refused, which changes the screen and wakes
    the reader of the active terminal, or exchanges the screens of the two
    terminals and resumes the new one. -/
theorem switchActiveTerminal_ok {fs : Fs} {fuel : Nat} {k after : Kernel} {termNum : Nat}
    (switched : switchActiveTerminal fs fuel k termNum = .ok after) :
    termNum < maxTerminals ∧
      ((k.currTerminal = termNum ∧ after = k) ∨
      (k.currTerminal ≠ termNum ∧ Refused k termNum ∧
        after = setTerminal (printf k notAvailableMessage) k.currTerminal
          { (printf k notAvailableMessage).terminals k.currTerminal with ack := true }) ∨
      (k.currTerminal ≠ termNum ∧ ¬ Refused k termNum ∧ ∃ hidden, hideActive k = .ok hidden ∧
        resumeTerminal fs fuel (showTerminal hidden termNum) = .ok after)) := by
  simp only [switchActiveTerminal] at switched
  by_cases outside : termNum ≥ maxTerminals
  · rw [if_pos outside] at switched; cases switched
  · rw [if_neg outside] at switched
    refine ⟨by omega,?_⟩
    by_cases same : k.currTerminal = termNum
    · rw [if_pos same] at switched
      cases switched
      exact .inl ⟨same,rfl⟩
    · rw [if_neg same] at switched
      refine .inr ?_
      have restored := probe_restores k
      have terminals : (getAvailablePid k).2.terminals = k.terminals := by
        rcases getAvailablePid_cases k with ⟨i,_,_,_,handed⟩ | ⟨_,refused⟩
        · rw [handed]
        · rw [refused]
      simp only [terminals] at switched
      by_cases refused : Refused k termNum
      · have refused' := refused
        simp only [Refused] at refused'
        rw [if_pos refused'] at switched
        have unchanged : (getAvailablePid k).2 = k := by
          rcases getAvailablePid_cases k with ⟨i,_,_,_,handed⟩ | ⟨_,refused⟩
          · rw [handed] at refused'
            simp only at refused'
            omega
          · rw [refused]
        rw [unchanged] at switched
        cases switched
        obtain ⟨phys,cursor,place,drew⟩ := printf_draws k notAvailableMessage
        refine .inl ⟨same,refused,?_⟩
        have current : (printf k notAvailableMessage).currTerminal = k.currTerminal := by rw [drew]; rfl
        simp only [activeTerm,current]
      · have refused' := refused
        simp only [Refused] at refused'
        rw [if_neg refused'] at switched
        have word : unsigned (getAvailablePid k).1 = ((getAvailablePid k).1 % 2 ^ 32).toNat := rfl
        rw [word,restored] at switched
        obtain ⟨hidden,hid,resumed⟩ := bind_eq_ok.mp switched
        exact .inr ⟨same,refused,hidden,hid,resumed⟩

end MazeOS.Terminal
