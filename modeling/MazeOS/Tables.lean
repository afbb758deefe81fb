import MazeOS.Steps

/-!
The part of the kernel that scheduling works on (`Table`): the process IDs, the
stacks of the terminals, what `execute`, `halt` and the switches read and write
in the control blocks, and the stack pointers. Every step of the machine is one
of seven changes of this table (`step_change`), each made of storing the running
process, loading another one, pushing and popping.
-/
namespace MazeOS.Tables
open MazeOS.Runs MazeOS.Faults MazeOS.Filesystem MazeOS.Paging MazeOS.State MazeOS.Display MazeOS.Process MazeOS.Files
  MazeOS.Syscalls MazeOS.Terminal MazeOS.Steps

/-- The fields of a control block that scheduling works on. -/
structure Core where
  esp0 : Nat
  pid : Nat
  retval : Int
  pde : Pde4M
  pdeVirtAddr : Nat
  kEsp : Nat
  kEbp : Nat
  parent : Nat

structure Table where
  pids : Nat → UInt8
  procs : Nat → Procs
  cores : Nat → Core
  vids : Nat → Nat
  execTerm : Nat
  tssEsp0 : Nat
  esp : Nat
  ebp : Nat

def coreOf (pcb : Pcb) : Core :=
  ⟨pcb.esp0,pcb.pid,pcb.retval,pcb.pde,pcb.pdeVirtAddr,pcb.kEsp,pcb.kEbp,pcb.parent⟩

def tableOf (k : Kernel) : Table :=
  ⟨k.availablePids,State.Terminal.toProcs ∘ k.terminals,coreOf ∘ k.pcbs,Pcb.vidmemVirtAddr ∘ k.pcbs,k.execTerm,
    k.tssEsp0,k.esp,k.ebp⟩

/-- The core of a new process. -/
def newCore (pid parent : Nat) : Core :=
  ⟨esp0Of pid,pid,0,⟨true,true,true,true,(_8MB + _4MB * (pid - 1)) / 2 ^ 22⟩,_128MB,esp0Of pid,esp0Of pid,parent⟩

namespace Table

def running (T : Table) : Nat := pcbOf T.esp

/-- The stack pointers are stored in the running process. -/
def save (T : Table) : Table :=
  { T with cores := Function.update T.cores T.running { T.cores T.running with kEsp := T.esp, kEbp := T.ebp } }

/-- The stack pointers are loaded from a process. -/
def load (T : Table) (address : Nat) : Table :=
  { T with tssEsp0 := (T.cores address).esp0, esp := (T.cores address).kEsp, ebp := (T.cores address).kEbp }

def on (T : Table) (t : Nat) : Table := { T with execTerm := t }

/-- A new process goes on top of the stack of the executing terminal and runs. -/
def push (T : Table) (pid parent : Nat) : Table :=
  { T with
    pids := Function.update T.pids (pid - 1) 1
    procs := Function.update T.procs T.execTerm
      ⟨Function.update (T.procs T.execTerm).childProcs (T.procs T.execTerm).numProcs (pcbAddress pid),
        (T.procs T.execTerm).numProcs + 1⟩
    cores := Function.update T.cores (pcbAddress pid) (newCore pid parent)
    vids := Function.update T.vids (pcbAddress pid) 0
    tssEsp0 := esp0Of pid
    esp := esp0Of pid }

/-- The running process leaves the stack of the executing terminal. -/
def pop (T : Table) : Table :=
  { T with
    pids := Function.update T.pids ((T.cores T.running).pid - 1) 0
    procs := Function.update T.procs T.execTerm
      ⟨Function.update (T.procs T.execTerm).childProcs ((T.procs T.execTerm).numProcs - 1) 0,
        (T.procs T.execTerm).numProcs - 1⟩ }

/-- An exception is noted in the running process. -/
def raise (T : Table) : Table :=
  { T with cores := Function.update T.cores T.running { T.cores T.running with retval := returnException } }

/-- The running process gets the video page. -/
def map (T : Table) : Table := { T with vids := Function.update T.vids T.running userVideoMemAddr }

end Table

/-- What one step can do to the table; a process that ends may have noted an
    exception first. -/
inductive Change (T : Table) : Table → Prop
  /-- The running process goes on, perhaps elsewhere on its stack. -/
  | goes (esp ebp : Nat) (inPage : pcbOf esp = T.running) : Change T { T with esp := esp, ebp := ebp }
  | maps : Change T T.map
  /-- The running process executes another one. -/
  | calls (pid : Nat) (low : 1 ≤ pid) (high : pid ≤ maxProcesses) (free : T.pids (pid - 1) = 0)
      (room : (T.procs T.execTerm).numProcs < maxProcesses) : Change T (T.save.push pid T.running)
  /-- A shell starts on a terminal without processes. -/
  | opens (t pid : Nat) (inside : t < maxTerminals) (low : 1 ≤ pid) (high : pid ≤ maxProcesses)
      (free : T.pids (pid - 1) = 0) (bare : (T.procs t).numProcs = 0) : Change T ((T.save.on t).push pid 0)
  /-- The last process of another terminal runs. -/
  | switches (t : Nat) (inside : t < maxTerminals) (other : t ≠ T.execTerm) (some : 0 < (T.procs t).numProcs) :
      Change T ((T.on t).save.load ((T.procs t).childProcs ((T.procs t).numProcs - 1)))
  /-- The running process ends and its parent goes on. -/
  | returns (U : Table) (ended : U = T ∨ U = T.raise) (child : (T.cores T.running).parent ≠ 0) :
      Change T (U.pop.load (T.cores T.running).parent)
  /-- The first process of a terminal ends and another one starts. -/
  | restarts (U : Table) (pid : Nat) (ended : U = T ∨ U = T.raise) (root : (T.cores T.running).parent = 0)
      (low : 1 ≤ pid) (high : pid ≤ maxProcesses) (free : U.pop.pids (pid - 1) = 0) : Change T (U.pop.push pid 0)

/-! ### What the functions of the kernel do to the table -/

@[simp] theorem tableOf_drawn (k : Kernel) (phys : Nat → UInt8) (cursor : Nat) (place : Nat → Nat × Nat) :
    tableOf (drawn k phys cursor place) = tableOf k := rfl

theorem tableOf_draws {k after : Kernel} (draws : Draws k after) : tableOf after = tableOf k := by
  obtain ⟨phys,cursor,place,rfl⟩ := draws
  exact tableOf_drawn k phys cursor place

@[simp] theorem coreOf_newPcb (pid parent : Nat) (parsed : Parsed) :
    coreOf (newPcb pid parent parsed) = newCore pid parent := rfl

theorem vids_update {pcbs : Nat → Pcb} {address : Nat} {pcb : Pcb}
    (same : pcb.vidmemVirtAddr = (pcbs address).vidmemVirtAddr) :
    Pcb.vidmemVirtAddr ∘ Function.update pcbs address pcb = Pcb.vidmemVirtAddr ∘ pcbs := by
  rw [Function.comp_update,same]
  exact Function.update_eq_self _ _

theorem tableOf_saveStack (k : Kernel) : tableOf (saveStack k (getPcb k)) = (tableOf k).save := by
  simp only [tableOf,saveStack,setPcb,Table.save,Table.running,getPcb,Function.comp_update coreOf]
  rw [vids_update (by rfl)]
  rfl

theorem saveStack_esp0 (k : Kernel) (address process : Nat) :
    ((saveStack k address).pcbs process).esp0 = (k.pcbs process).esp0 := by
  by_cases same : process = address
  · subst same; simp [saveStack,setPcb]
  · simp [saveStack,setPcb,same]

theorem tableOf_spawned_root {k : Kernel} {pid : Nat} {parsed : Parsed} {page : Nat → UInt8}
    (first : (executingTerm k).numProcs = 0) :
    tableOf (spawned k pid parsed page) = (tableOf k).push pid 0 := by
  simp only [tableOf,spawned,Table.push,first,if_true,childPcb,Function.comp_update,coreOf_newPcb]
  have first' : (k.terminals k.execTerm).numProcs = 0 := first
  simp only [Function.comp_apply,first']
  rfl

theorem tableOf_spawned_child {k : Kernel} {pid : Nat} {parsed : Parsed} {page : Nat → UInt8}
    (later : (executingTerm k).numProcs ≠ 0) :
    tableOf (spawned k pid parsed page) = (tableOf k).save.push pid (tableOf k).running := by
  rw [← tableOf_saveStack]
  simp only [tableOf,spawned,Table.push,later,if_false,childPcb,Function.comp_update,coreOf_newPcb]
  rfl

theorem tableOf_popped (k : Kernel) : tableOf (popped k) = (tableOf k).pop := by
  simp only [tableOf,popped,Table.pop,Function.comp_update]
  rfl

theorem tableOf_resumed (k : Kernel) (address : Nat) (retval : Int) :
    tableOf (resumed k address retval) = (tableOf k).load address := rfl

theorem tableOf_vidmap (k : Kernel) (screenStart : Nat) :
    tableOf (vidmap k screenStart).2.1 =
      if screenStart < _128MB ∨ screenStart ≥ _128MB + _4MB then tableOf k else (tableOf k).map := by
  simp only [vidmap]
  split
  · rfl
  · simp only [tableOf,setPcb,getPcb,Function.comp_update,Table.map,Table.running,Table.mk.injEq,true_and,and_true]
    exact Function.update_eq_self (pcbOf k.esp) (coreOf ∘ k.pcbs)

theorem tableOf_raised (k : Kernel) (text : List UInt8) :
    tableOf (setPcb (printf k text) (getPcb (printf k text))
      { (printf k text).pcbs (getPcb (printf k text)) with retval := returnException }) = (tableOf k).raise := by
  rw [← tableOf_draws (printf_draws k text)]
  simp only [tableOf,setPcb,Table.raise,Table.running,getPcb,Function.comp_update coreOf]
  rw [vids_update (by rfl)]
  rfl

theorem tableOf_remapVidmem (k : Kernel) (process frame : Nat) : tableOf (remapVidmem k process frame) = tableOf k := by
  simp only [remapVidmem]
  split <;> rfl

theorem tableOf_hideActive {k hidden : Kernel} (hid : hideActive k = .ok hidden) : tableOf hidden = tableOf k := by
  obtain ⟨process,_,rfl⟩ := hideActive_ok hid
  rw [tableOf_remapVidmem]
  rfl

/-- The exchange of two screens leaves the table alone. -/
theorem tableOf_shown {k hidden : Kernel} (hid : hideActive k = .ok hidden) (termNum : Nat) :
    tableOf (showTerminal hidden termNum) = tableOf k := by
  rw [← tableOf_hideActive hid]
  rfl

theorem shown_numProcs {k hidden : Kernel} {termNum : Nat} (same : tableOf (showTerminal hidden termNum) = tableOf k) :
    (activeTerm (showTerminal hidden termNum)).numProcs = (k.terminals termNum).numProcs :=
  congrArg (fun T : Table => (T.procs termNum).numProcs) same

/-! ### One step is one change -/

/-- The running process is the last one of the executing terminal, and the TSS
    holds its stack. -/
structure Steady (T : Table) : Prop where
  exec : T.execTerm < maxTerminals
  some : 0 < (T.procs T.execTerm).numProcs
  last : (T.procs T.execTerm).childProcs ((T.procs T.execTerm).numProcs - 1) = T.running
  low : 1 ≤ (T.cores T.running).pid
  high : (T.cores T.running).pid ≤ maxProcesses
  used : T.pids ((T.cores T.running).pid - 1) ≠ 0
  root : (T.cores T.running).parent = 0 → (T.procs T.execTerm).numProcs = 1
  stack : pcbOf T.tssEsp0 = T.running

theorem change_refl (T : Table) : Change T T := Change.goes T.esp T.ebp rfl

theorem execute_change {fs : Fs} {fuel eip : Nat} {k after : Kernel} {command : Command}
    (executed : Syscalls.execute fs fuel k command = .ok (.started eip after)) :
    ∃ pid, 1 ≤ pid ∧ pid ≤ maxProcesses ∧ (tableOf k).pids (pid - 1) = 0 ∧
      (executingTerm k).numProcs < maxProcesses ∧
      tableOf after = if (executingTerm k).numProcs = 0 then (tableOf k).push pid 0
        else (tableOf k).save.push pid (tableOf k).running := by
  obtain ⟨pid,parsed,page,rfl,low,high,free,room⟩ := execute_started executed
  refine ⟨pid,low,high,free,room,?_⟩
  split
  · exact tableOf_spawned_root (by assumption)
  · exact tableOf_spawned_child (by assumption)

/-- `halt` of the process that runs, before or after an exception is noted. -/
theorem halt_change {fs : Fs} {fuel : Nat} {k after : Kernel} {status : UInt8} {T : Table} (steady : Steady T)
    (ended : tableOf k = T ∨ tableOf k = T.raise) (halted : Syscalls.halt fs fuel k status = .ok after) :
    ((T.cores T.running).parent ≠ 0 ∧ tableOf after = (tableOf k).pop.load (T.cores T.running).parent) ∨
    ((T.cores T.running).parent = 0 ∧ ∃ pid, 1 ≤ pid ∧ pid ≤ maxProcesses ∧ (tableOf k).pop.pids (pid - 1) = 0 ∧
      tableOf after = (tableOf k).pop.push pid 0) := by
  have running : (tableOf k).running = T.running := by
    rcases ended with same | same
    · rw [same]
    · rw [same]; rfl
  have core : ((tableOf k).cores T.running).pid = (T.cores T.running).pid ∧
      ((tableOf k).cores T.running).parent = (T.cores T.running).parent ∧ (tableOf k).pids = T.pids := by
    rcases ended with same | same
    · rw [same]; exact ⟨rfl,rfl,rfl⟩
    · rw [same]; simp [Table.raise]
  obtain ⟨pid,parent,pids⟩ := core
  have address : getPcb k = T.running := running
  have pid' : (k.pcbs (getPcb k)).pid = (T.cores T.running).pid := by rw [address]; exact pid
  have parent' : (k.pcbs (getPcb k)).parent = (T.cores T.running).parent := by rw [address]; exact parent
  have used : k.availablePids ((k.pcbs (getPcb k)).pid - 1) ≠ 0 := by
    rw [pid']
    exact (congrFun pids _).trans_ne steady.used
  rcases halt_cases (pid' ▸ steady.low) (pid' ▸ steady.high) used halted with ⟨child,rfl⟩ | ⟨root,eip,executed⟩
  · rw [tableOf_resumed,tableOf_popped,parent']
    exact .inl ⟨parent' ▸ child,rfl⟩
  · obtain ⟨pid,low,high,free,_,pushed⟩ := execute_change executed
    have cleared := tableOf_draws (clearSetpos_draws (popped k) 0 0)
    have procs : (tableOf k).procs = T.procs ∧ (tableOf k).execTerm = T.execTerm := by
      rcases ended with same | same
      · rw [same]; exact ⟨rfl,rfl⟩
      · rw [same]; exact ⟨rfl,rfl⟩
    have bare : (executingTerm (clearSetpos (popped k) 0 0)).numProcs = 0 := by
      have only := steady.root (parent' ▸ root)
      have size : ((tableOf (clearSetpos (popped k) 0 0)).procs (tableOf (clearSetpos (popped k) 0 0)).execTerm).numProcs
          = 0 := by
        rw [cleared,tableOf_popped]
        simp [Table.pop,procs,only]
      exact size
    rw [cleared,tableOf_popped] at free
    rw [if_pos bare,cleared,tableOf_popped] at pushed
    exact .inr ⟨parent' ▸ root,pid,low,high,free,pushed⟩

/-- The kernel when a switch executes a shell: the running process is saved, and
    the new terminal executes. -/
def opening (k : Kernel) : Kernel := { saveStack k (getPcb k) with execTerm := k.currTerminal }

theorem tableOf_opening (k : Kernel) : tableOf (opening k) = (tableOf k).save.on k.currTerminal := by
  rw [← tableOf_saveStack]
  rfl

/-- A switch to a terminal without processes starts a shell, since it would have
    been refused without a free process ID. -/
theorem resume_opens {fs : Fs} {fuel termNum : Nat} {k shown after : Kernel} (steady : Steady (tableOf k))
    (valid : ValidShell fs) (same : tableOf shown = tableOf k) (bare : (activeTerm shown).numProcs = 0)
    (empty : (k.terminals termNum).numProcs = 0) (available : ¬ Refused k termNum)
    (resumes : resumeTerminal fs fuel shown = .ok after) :
    ∃ eip, Syscalls.execute fs fuel (opening shown) shellCommand = .ok (.started eip after) := by
  simp only [resumeTerminal] at resumes
  rw [if_pos bare] at resumes
  obtain ⟨running,found,resumes⟩ := bind_eq_ok.mp resumes
  have isRunning : running = getPcb shown := by
    have last := steady.last
    rw [← same] at last
    rw [← (lastProc_ok.mp found).2.2.1]
    exact last
  subst isRunning
  obtain ⟨result,executed,ended⟩ := bind_eq_ok.mp resumes
  cases result with
  | started eip k' =>
    cases ended
    exact ⟨eip,executed⟩
  | returned _ k' =>
    refine absurd ⟨?_,empty⟩ available
    have full := execute_shell_returned valid executed
    have pids : (opening shown).availablePids = k.availablePids := congrArg Table.pids same
    rcases getAvailablePid_cases k with ⟨i,inside,free,_,_⟩ | ⟨_,none⟩
    · exact absurd free ((congrFun pids i) ▸ full i inside)
    · rw [none]; exact (by decide : (-1 : Int) < 1)

theorem tableOf_ack (k : Kernel) (t : Nat) : tableOf (setTerminal k t { k.terminals t with ack := true }) = tableOf k := by
  simp only [tableOf,setTerminal,Function.comp_update,Table.mk.injEq,true_and,and_true]
  exact Function.update_eq_self _ _

/-- `switch_active_terminal` changes the table only when it starts a shell. -/
theorem switch_change {fs : Fs} {fuel termNum : Nat} {k after : Kernel} (steady : Steady (tableOf k))
    (valid : ValidShell fs) (switched : switchActiveTerminal fs fuel k termNum = .ok after) :
    tableOf after = tableOf k ∨ (termNum < maxTerminals ∧ (k.terminals termNum).numProcs = 0 ∧ ¬ Refused k termNum ∧
      ∃ pid, 1 ≤ pid ∧ pid ≤ maxProcesses ∧ (tableOf k).pids (pid - 1) = 0 ∧
        tableOf after = ((tableOf k).save.on termNum).push pid 0) := by
  obtain ⟨inside,⟨_,rfl⟩ | ⟨_,_,rfl⟩ | ⟨_,available,hidden,hid,shown⟩⟩ := switchActiveTerminal_ok switched
  · exact .inl rfl
  · refine .inl ?_
    rw [tableOf_ack,tableOf_draws (printf_draws k _)]
  · have same := tableOf_shown hid termNum
    have size := shown_numProcs same
    by_cases bare : (k.terminals termNum).numProcs = 0
    · obtain ⟨eip,executed⟩ := resume_opens steady valid same (size.trans bare) bare available shown
      obtain ⟨pid,low,high,free,_,pushed⟩ := execute_change executed
      have bare' : (executingTerm (opening (showTerminal hidden termNum))).numProcs = 0 := size.trans bare
      rw [if_pos bare',tableOf_opening,same] at pushed
      rw [tableOf_opening,same] at free
      exact .inr ⟨inside,bare,available,pid,low,high,free,pushed⟩
    · obtain ⟨process,_,rfl⟩ := resume_maps (by omega) shown
      exact .inl (by rw [tableOf_remapVidmem,same])

/-- `halt`, called for a process or by an exception, is one change of the table. -/
theorem ending_change {fs : Fs} {fuel : Nat} {k before after : Kernel} {status : UInt8} (steady : Steady (tableOf k))
    (ended : tableOf before = tableOf k ∨ tableOf before = (tableOf k).raise)
    (halted : Syscalls.halt fs fuel before status = .ok after) : Change (tableOf k) (tableOf after) := by
  rcases halt_change steady ended halted with ⟨child,same⟩ | ⟨root,pid,low,high,free,same⟩
  · rw [same]; exact Change.returns _ ended child
  · rw [same]; exact Change.restarts _ pid ended root low high free

/-- Every step of the machine is one change of the table. -/
theorem step_change {fs : Fs} {k after : Kernel} {op : Op} (steady : Steady (tableOf k)) (valid : ValidShell fs)
    (taken : step fs k op = .ok after) : Change (tableOf k) (tableOf after) := by
  cases op with
  | trap =>
    cases taken
    exact Change.goes k.tssEsp0 k.ebp steady.stack
  | frame esp ebp =>
    simp only [step] at taken
    split at taken
    · rename_i inPage
      cases taken
      exact Change.goes esp ebp inPage
    · cases taken
  | execute fuel command =>
    obtain ⟨result,executed,ended⟩ := bind_eq_ok.mp taken
    cases result with
    | returned _ k' =>
      cases ended
      rw [tableOf_draws (execute_returned executed)]
      exact change_refl _
    | started eip k' =>
      cases ended
      obtain ⟨pid,low,high,free,room,pushed⟩ := execute_change executed
      have some : (executingTerm k).numProcs ≠ 0 := Nat.pos_iff_ne_zero.mp steady.some
      rw [pushed,if_neg some]
      exact Change.calls pid low high free room
  | halt fuel status => exact ending_change steady (.inl rfl) taken
  | exception fuel text => exact ending_change steady (.inr (tableOf_raised k text)) taken
  | vidmap screenStart =>
    cases taken
    rw [tableOf_vidmap]
    split
    · exact change_refl _
    · exact Change.maps
  | pit =>
    rcases pitInterruptHandler_ok taken with rfl | ⟨next,other,switched⟩
    · exact change_refl _
    · obtain ⟨newPcb,inside,found,same⟩ := contextSwitch_ok switched
      obtain ⟨some,_,last,_⟩ := lastProc_ok.mp found
      have loaded : tableOf after = ((tableOf k).on next).save.load newPcb := by
        have saved : tableOf { saveStack k (getPcb k) with execTerm := next } = ((tableOf k).on next).save := by
          have stored := tableOf_saveStack k
          exact congrArg (fun T : Table => T.on next) stored
        rw [same,← saved,tableOf,Table.load,← saveStack_esp0 k (getPcb k) newPcb]
        rfl
      rw [loaded,← last]
      exact Change.switches next inside other some
  | switchTo fuel termNum =>
    rcases switch_change steady valid taken with same | ⟨inside,bare,_,pid,low,high,free,pushed⟩
    · rw [same]; exact change_refl _
    · rw [pushed]; exact Change.opens termNum pid inside low high free bare

end MazeOS.Tables
