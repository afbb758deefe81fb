import MazeOS.Admission
import MazeOS.NameLookup
import MazeOS.Transfers
import MazeOS.ScreenSteps

/-!
The arguments of a process from the command that started it to its `getargs`.
`execute` stores them in the control block of the process (`Passed`). Every
event leaves them there as long as the process lives (`event_bears`): only
`execute` writes arguments, into the block of a process ID that is not in use.
So `getargs` delivers the text that the command line had
(`command_arguments`).
-/
namespace MazeOS.Arguments
open MazeOS.Runs MazeOS.Bytes MazeOS.Strings MazeOS.Faults MazeOS.Filesystem MazeOS.ReadData MazeOS.NameLookup
  MazeOS.Paging MazeOS.State MazeOS.Display MazeOS.Process MazeOS.Files MazeOS.Syscalls MazeOS.Terminal MazeOS.Steps
  MazeOS.Tables MazeOS.Stacks MazeOS.ProcessTable MazeOS.VidmapPage MazeOS.ScreenSteps MazeOS.Descriptors MazeOS.Keyboard
  MazeOS.Transfers MazeOS.ProgramLoad MazeOS.Commands MazeOS.Admission

/-! ### The machine -/

inductive Event where
  | op (op : Op)
  /-- The running process makes a call on a descriptor. -/
  | call (call : Call)
  /-- The keyboard interrupt, with the two bytes that its handler reads. -/
  | key (fuel : Nat) (c c2 : UInt8)

def step (fs : Fs) (k : Kernel) : Event → Checked Kernel
  | .op op => Steps.step fs k op
  | .call call => doCall fs k call >>= fun (_,_,after) => .ok after
  | .key fuel c c2 => keyboardInterruptHandler fs fuel k c c2

/-- The process with an ID ends: it runs, and halts or raises an exception. -/
def EndsProcess (pid : Nat) (k : Kernel) : Event → Prop
  | .op (.halt _ _) | .op (.exception _ _) => getPcb k = pcbAddress pid
  | _ => False

/-- The arguments in the control block at an address, and their length. -/
def argsOf (k : Kernel) (address : Nat) : (Nat → UInt8) × Nat := ((k.pcbs address).args,(k.pcbs address).argsLength)

/-- The process ID is in use, and its control block has these arguments. -/
structure Bears (pid : Nat) (args : (Nat → UInt8) × Nat) (k : Kernel) : Prop where
  used : k.availablePids (pid - 1) ≠ 0
  args : argsOf k (pcbAddress pid) = args

section
variable {k after : Kernel} {pid : Nat} {args : (Nat → UInt8) × Nat} {S : Schedule}

theorem bears_same (bears : Bears pid args k) (pids : after.availablePids = k.availablePids)
    (same : argsOf after = argsOf k) : Bears pid args after :=
  ⟨by rw [pids]; exact bears.used,by rw [same]; exact bears.args⟩

theorem bears_setTerminal (bears : Bears pid args k) (t : Nat) (terminal : State.Terminal) :
    Bears pid args (setTerminal k t terminal) := bears_same bears rfl rfl

theorem bears_draws (bears : Bears pid args k) (draws : Draws k after) : Bears pid args after := by
  obtain ⟨_,_,_,rfl⟩ := draws
  exact bears_same bears rfl rfl

/-- A control block is overwritten, but for its arguments. -/
theorem argsOf_setPcb (k : Kernel) {address : Nat} {pcb : Pcb} (args : pcb.args = (k.pcbs address).args)
    (length : pcb.argsLength = (k.pcbs address).argsLength) : argsOf (setPcb k address pcb) = argsOf k := by
  funext a
  by_cases here : a = address
  · subst here
    simp only [argsOf,setPcb,Function.update_self,args,length]
  · simp only [argsOf,setPcb,Function.update_of_ne here]

theorem argsOf_saveStack (k : Kernel) (address : Nat) : argsOf (saveStack k address) = argsOf k := argsOf_setPcb k rfl rfl

/-- A new process has an ID that was not in use. -/
theorem bears_spawned (bears : Bears pid args k) (low : 1 ≤ pid) (high : pid ≤ maxProcesses) {new : Nat} (low' : 1 ≤ new)
    (high' : new ≤ maxProcesses) (free : k.availablePids (new - 1) = 0) (parsed : Parsed) (page : Nat → UInt8) :
    Bears pid args (spawned k new parsed page) := by
  have other : pid ≠ new := by
    rintro rfl
    exact bears.used free
  have apart : pcbAddress pid ≠ pcbAddress new := fun same => other (pcbAddress_inj low high low' high' same)
  constructor
  · simp only [spawned,Function.update_of_ne (pid_of_used low low' other)]
    exact bears.used
  · rw [← bears.args]
    simp only [argsOf,spawned,Function.update_of_ne apart]
    split
    · rfl
    · exact congrFun (argsOf_saveStack k (getPcb k)) (pcbAddress pid)

theorem bears_started {fs : Fs} {fuel eip : Nat} {command : Command} (bears : Bears pid args k) (low : 1 ≤ pid)
    (high : pid ≤ maxProcesses) (executed : Syscalls.execute fs fuel k command = .ok (.started eip after)) :
    Bears pid args after := by
  obtain ⟨new,parsed,page,rfl,low',high',free,_⟩ := execute_started executed
  exact bears_spawned bears low high low' high' free parsed page

/-- Another process ends. -/
theorem bears_ending {fs : Fs} {fuel : Nat} {status : UInt8} {before : Kernel} (represents : Represents S (tableOf k))
    (bears : Bears pid args before) (low : 1 ≤ pid) (high : pid ≤ maxProcesses) (other : getPcb k ≠ pcbAddress pid)
    (ended : tableOf before = tableOf k ∨ tableOf before = (tableOf k).raise)
    (halted : Syscalls.halt fs fuel before status = .ok after) : Bears pid args after := by
  obtain ⟨p,live,_,running,_⟩ := running_live represents
  have running' : getPcb k = pcbAddress p := running
  have apart : pid ≠ p := by
    rintro rfl
    exact other running'
  obtain ⟨_,address,_,_⟩ := ending_same ended
  obtain ⟨_,core⟩ := ending_core ended (getPcb k)
  have number : (before.pcbs (getPcb before)).pid = p := by
    have same : (before.pcbs (getPcb k)).pid = (k.pcbs (getPcb k)).pid := congrArg Core.pid core
    rw [address,same,running']
    exact (represents.tabled.blocks p live).number
  have valid := represents.tabled.valid p live
  have gone : Bears pid args (popped before) := by
    refine ⟨?_,bears.args⟩
    simp only [popped,number,Function.update_of_ne (pid_of_used low valid.1 apart)]
    exact bears.used
  rcases ending_cases represents ended halted with ⟨_,_,⟨_,rfl⟩,_⟩ | ⟨_,_,executed⟩
  · exact bears_same gone rfl rfl
  · exact bears_started (bears_draws gone (clearSetpos_draws (popped before) 0 0)) low high executed

theorem bears_contextSwitch {next : Nat} (bears : Bears pid args k) (switched : contextSwitch k next = .ok after) :
    Bears pid args after := by
  obtain ⟨_,_,_,rfl⟩ := contextSwitch_ok switched
  exact bears_same bears rfl (argsOf_saveStack k (getPcb k))

theorem bears_switch {fs : Fs} {fuel termNum : Nat} (valid : ValidShell fs) (represents : Represents S (tableOf k))
    (bears : Bears pid args k) (low : 1 ≤ pid) (high : pid ≤ maxProcesses)
    (switched : switchActiveTerminal fs fuel k termNum = .ok after) : Bears pid args after := by
  obtain ⟨_,⟨_,rfl⟩ | ⟨_,_,rfl⟩ | ⟨_,available,hidden,hid,shown⟩⟩ := switchActiveTerminal_ok switched
  · exact bears
  · exact bears_setTerminal (bears_draws bears (printf_draws k notAvailableMessage)) _ _
  · have table := tableOf_shown hid termNum
    have blocks : (showTerminal hidden termNum).pcbs = k.pcbs := by
      obtain ⟨process,_,rfl⟩ := hideActive_ok hid
      exact (remapVidmem_rest process _).2
    have shows : Bears pid args (showTerminal hidden termNum) :=
      bears_same bears (congrArg Table.pids table) (by funext a; simp only [argsOf,blocks])
    have size := shown_numProcs table
    by_cases bare : (k.terminals termNum).numProcs = 0
    · obtain ⟨eip,executed⟩ := resume_opens (steady_of_represents represents) valid table (size.trans bare) bare
        available shown
      have opened : Bears pid args (opening (showTerminal hidden termNum)) :=
        bears_same shows rfl (argsOf_saveStack (showTerminal hidden termNum) _)
      exact bears_started opened low high executed
    · obtain ⟨process,_,rfl⟩ := resume_maps (by omega) shown
      have pids : (remapVidmem (showTerminal hidden termNum) process videoMemIndex).availablePids =
          (showTerminal hidden termNum).availablePids := congrArg Table.pids (tableOf_remapVidmem _ _ _)
      refine bears_same shows pids ?_
      funext a
      simp only [argsOf,(remapVidmem_rest (k := showTerminal hidden termNum) process videoMemIndex).2]

/-- An operation on processes leaves the arguments of a process that lives on. -/
theorem op_bears {fs : Fs} {op : Op} (valid : ValidShell fs) (represents : Represents S (tableOf k))
    (bears : Bears pid args k) (low : 1 ≤ pid) (high : pid ≤ maxProcesses) (alive : ¬ EndsProcess pid k (.op op))
    (taken : Steps.step fs k op = .ok after) : Bears pid args after := by
  cases op with
  | trap =>
    cases taken
    exact bears_same bears rfl rfl
  | frame esp ebp =>
    simp only [Steps.step] at taken
    split at taken
    · cases taken
      exact bears_same bears rfl rfl
    · cases taken
  | execute fuel command =>
    obtain ⟨result,executed,ended⟩ := bind_eq_ok.mp taken
    cases result with
    | returned _ k' =>
      cases ended
      exact bears_draws bears (execute_returned executed)
    | started _ k' =>
      cases ended
      exact bears_started bears low high executed
  | halt fuel status => exact bears_ending represents bears low high alive (.inl rfl) taken
  | exception fuel text =>
    have raised := tableOf_raised k text
    have bears' : Bears pid args (setPcb (printf k text) (getPcb (printf k text))
        { (printf k text).pcbs (getPcb (printf k text)) with retval := returnException }) := by
      have printed := bears_draws bears (printf_draws k text)
      generalize printf k text = l at printed
      exact bears_same printed rfl (argsOf_setPcb l rfl rfl)
    exact bears_ending represents bears' low high alive (.inr raised) taken
  | vidmap screenStart =>
    cases taken
    simp only [vidmap]
    split
    · exact bears
    · exact bears_same bears rfl (argsOf_setPcb _ rfl rfl)
  | pit =>
    rcases pitInterruptHandler_ok taken with rfl | ⟨next,_,switched⟩
    · exact bears
    · exact bears_contextSwitch bears switched
  | switchTo fuel termNum => exact bears_switch valid represents bears low high taken

/-! ### Calls on descriptors, and keys -/

/-- Neither the table nor any arguments change. -/
structure Quiet (k after : Kernel) : Prop where
  table : tableOf after = tableOf k
  args : argsOf after = argsOf k

theorem quiet_refl (k : Kernel) : Quiet k k := ⟨rfl,rfl⟩

theorem quiet_draws (draws : Draws k after) : Quiet k after := by
  refine ⟨tableOf_draws draws,?_⟩
  obtain ⟨_,_,_,rfl⟩ := draws
  rfl

theorem quiet_setFd (k : Kernel) (fd : Nat) (file : FileDesc) : Quiet k (setFd k fd file) := by
  refine ⟨?_,argsOf_setPcb k rfl rfl⟩
  have cores : coreOf ∘ (setFd k fd file).pcbs = coreOf ∘ k.pcbs := by
    simp only [setFd,setPcb,Function.comp_update]
    exact Function.update_eq_self (getPcb k) (coreOf ∘ k.pcbs)
  have vids : Pcb.vidmemVirtAddr ∘ (setFd k fd file).pcbs = Pcb.vidmemVirtAddr ∘ k.pcbs := vids_update rfl
  simp only [tableOf,cores,vids]
  rfl

/-- A call on a descriptor writes at most the descriptors and the screen. -/
theorem call_quiet {fs : Fs} {call : Call} {value : Int} {bytes : List UInt8}
    (done : doCall fs k call = .ok (value,bytes,after)) : Quiet k after := by
  cases call with
  | «open» filename =>
    cases done
    rcases sysOpen_cases fs k filename with ⟨opened,_⟩ | ⟨_,i,_,_,_,_,_,opened⟩
    · rw [opened]
      exact quiet_refl k
    · rw [opened]
      exact quiet_setFd k i _
  | close fd =>
    obtain ⟨⟨_,k'⟩,closed,ended⟩ := bind_eq_ok.mp done
    cases ended
    rcases sysClose_cases closed with ⟨_,rfl,_⟩ | ⟨i,_,_,_,_,rfl⟩
    · exact quiet_refl _
    · exact quiet_setFd k i _
  | read fd address buf nbytes line =>
    obtain ⟨⟨_,k',_⟩,read,ended⟩ := bind_eq_ok.mp done
    cases ended
    rcases sysRead_cases read with draws | ⟨_,i,_,_,_,_,_,rfl⟩
    · exact quiet_draws draws
    · exact quiet_setFd k i _
  | write fd address buf nbytes =>
    obtain ⟨⟨_,k'⟩,written,ended⟩ := bind_eq_ok.mp done
    cases ended
    exact quiet_draws (sysWrite_draws written)

/-- A key that switches no terminal. -/
theorem key_quiet {fs : Fs} {fuel : Nat} {c c2 : UInt8} (plain : ¬ SwitchKey k.modifiers c)
    (handled : keyboardInterruptHandler fs fuel k c c2 = .ok after) : Quiet k after := by
  rcases handler_plain_cases plain handled with ⟨line,draws⟩ | ⟨_,rfl⟩
  · obtain ⟨table,args⟩ := quiet_draws draws
    exact ⟨table.trans (tableOf_setLine k _ line),args⟩
  · exact ⟨rfl,rfl⟩

/-! ### Runs -/

theorem bears_quiet (bears : Bears pid args k) (quiet : Quiet k after) : Bears pid args after :=
  bears_same bears (congrArg Table.pids quiet.table) quiet.args

/-- Every event keeps the table in order. -/
theorem event_represents {fs : Fs} {e : Event} (valid : ValidShell fs) (represents : Represents S (tableOf k))
    (taken : step fs k e = .ok after) : ∃ S', Represents S' (tableOf after) := by
  cases e with
  | op op =>
    obtain ⟨S',_,next⟩ := step_represents valid represents taken
    exact ⟨S',next⟩
  | call call =>
    obtain ⟨⟨_,_,_⟩,done,same⟩ := bind_eq_ok.mp taken
    cases same
    exact ⟨S,(call_quiet done).table ▸ represents⟩
  | key fuel c c2 =>
    by_cases switch : SwitchKey k.modifiers c
    · have switched : Steps.step fs k (.switchTo fuel (c - function1).toNat) = .ok after :=
        (handler_switch fs fuel c2 switch).symm.trans taken
      obtain ⟨S',_,next⟩ := step_represents valid represents switched
      exact ⟨S',next⟩
    · exact ⟨S,(key_quiet switch taken).table ▸ represents⟩

/-- Every event keeps the arguments of a process that lives on. -/
theorem event_bears {fs : Fs} {e : Event} (valid : ValidShell fs) (represents : Represents S (tableOf k))
    (bears : Bears pid args k) (low : 1 ≤ pid) (high : pid ≤ maxProcesses) (alive : ¬ EndsProcess pid k e)
    (taken : step fs k e = .ok after) : Bears pid args after := by
  cases e with
  | op op => exact op_bears valid represents bears low high alive taken
  | call call =>
    obtain ⟨⟨_,_,_⟩,done,same⟩ := bind_eq_ok.mp taken
    cases same
    exact bears_quiet bears (call_quiet done)
  | key fuel c c2 =>
    by_cases switch : SwitchKey k.modifiers c
    · have switched : switchActiveTerminal fs fuel k (c - function1).toNat = .ok after :=
        (handler_switch fs fuel c2 switch).symm.trans taken
      exact bears_switch valid represents bears low high switched
    · exact bears_quiet bears (key_quiet switch taken)

theorem reachable_table {fs : Fs} (reached : Reachable (step fs) (Started fs) k) :
    ValidShell fs ∧ ∃ S, Represents S (tableOf k) := by
  obtain ⟨first,events,started,ran⟩ := reached
  have valid : ValidShell fs := by
    obtain ⟨_,_,_,executed⟩ := started
    exact execute_valid executed
  obtain ⟨S,represents,_⟩ := started_represents started
  have keeps : ∀ (k : Kernel) (e : Event) (after : Kernel), (∃ S, Represents S (tableOf k)) → step fs k e = .ok after →
      ∃ S, Represents S (tableOf after) := by
    rintro k e after ⟨S,represents⟩ taken
    exact event_represents valid represents taken
  exact ⟨valid,run_invariant keeps ⟨S,represents⟩ ran⟩

/-- A run in which a process lives on keeps its arguments. -/
theorem run_bears {fs : Fs} {events : List Event} (valid : ValidShell fs) (represents : Represents S (tableOf k))
    (low : 1 ≤ pid) (high : pid ≤ maxProcesses) (bears : Bears pid args k)
    (alive : EachStep (step fs) (fun k e => ¬ EndsProcess pid k e) k events)
    (ran : run (step fs) k events = .ok after) : Bears pid args after := by
  have keeps : ∀ (k : Kernel) (e : Event) (after : Kernel), (∃ S, Represents S (tableOf k)) ∧ Bears pid args k →
      ¬ EndsProcess pid k e → step fs k e = .ok after → (∃ S, Represents S (tableOf after)) ∧ Bears pid args after := by
    rintro k e after ⟨⟨S,represents⟩,bears⟩ goes taken
    exact ⟨event_represents valid represents taken,event_bears valid represents bears low high goes taken⟩
  exact (eachStep_invariant keeps ⟨⟨S,represents⟩,bears⟩ alive ran).2

end

/-! ### From the command to `getargs` -/

/-- The process that a command has started has its arguments, and gets them from
    `getargs` as long as it lives. -/
structure Passed (fs : Fs) (k after : Kernel) (text : List UInt8) (pid : Nat) : Prop where
  lowest : ∃ i, pid = i + 1 ∧ LowestFree k i
  runs : getPcb after = pcbAddress pid
  args : (after.pcbs (pcbAddress pid)).args = padded 0 text
  length : (after.pcbs (pcbAddress pid)).argsLength = text.length
  delivers : Reachable (step fs) (Started fs) after → ∀ events later,
    EachStep (step fs) (fun k e => ¬ EndsProcess pid k e) after events → run (step fs) after events = .ok later →
    getPcb later = pcbAddress pid → ∀ address buf (n : Int), (text.length : Int) + 1 ≤ n → n < 2 ^ 31 →
    _128MB ≤ address → address + text.length < _128MB + _4MB →
    getargs later address buf n = (0,copyInto buf 0 (padded 0 text) (text.length + 1))

/-- `getargs` of a process with certain arguments. -/
theorem getargs_bears {k : Kernel} {pid address : Nat} {text : List UInt8} {buf : Nat → UInt8} {n : Int}
    (bears : Bears pid (padded 0 text,text.length) k) (running : getPcb k = pcbAddress pid)
    (fits : text.length < argsLength) (room : (text.length : Int) + 1 ≤ n) (word : n < 2 ^ 31)
    (low : _128MB ≤ address) (high : address < _128MB + _4MB) :
    getargs k address buf n = (0,copyInto buf 0 (padded 0 text) (text.length + 1)) := by
  have args : (k.pcbs (getPcb k)).args = padded 0 text := by
    rw [running]
    exact congrArg Prod.fst bears.args
  have needed : argsNeeded k = text.length + 1 := by
    have length : (k.pcbs (pcbAddress pid)).argsLength = text.length := congrArg Prod.snd bears.args
    have short : text.length < 128 := fits
    rw [argsNeeded,running,length]
    omega
  have enough : ¬ unsigned n < text.length + 1 := by
    simp only [unsigned]
    omega
  rw [getargs,if_neg (by omega),needed,if_neg enough,args]

/-- A line of text is looked up by its first word, and the process that it starts
    gets the rest, without the spaces around it, from `getargs`. -/
theorem command_arguments {fs : Fs} {fuel : Nat} {k : Kernel} {command : Command} {line : List UInt8}
    (typed : Typed command.bytes line) (small : line.length < 2 ^ 16) (word : (firstWord line).length ≤ filenameSize)
    (args : (argText line).length < argsLength) (enough : 2 ^ 16 ≤ fuel) :
    (Accepted command.address → ∃ parsed, Syscalls.execute fs fuel k command = executeParsed fs fuel k parsed ∧
      parsed.filename = padded 0 (firstWord line) ∧ WholeName fs (firstWord line) parsed.filename) ∧
    ∀ eip after, Syscalls.execute fs fuel k command = .ok (.started eip after) →
      ∃ pid, Passed fs k after (argText line) pid := by
  obtain ⟨parsed,parses,name,length,stored⟩ := parse_line typed small word args enough
  constructor
  · intro accepted
    refine ⟨parsed,by rw [execute_accepts fs fuel k accepted,parses,ok_bind],name,?_⟩
    have clean : 0 ∉ firstWord line := fun among => (typed_begins typed).clean 0 among (.inr (.inr rfl))
    rw [name]
    exact wholeName_of (holds_padded clean) (.inl word)
  · intro eip after executed
    obtain ⟨_,parsed',_,i,page,parses',_,_,_,lowest,_,_,rfl⟩ := execute_started_iff.mp executed
    rw [parses] at parses'
    cases parses'
    have block : (spawned k (i + 1) parsed page).pcbs (pcbAddress (i + 1)) = childPcb k (i + 1) parsed :=
      Function.update_self _ _ _
    have text : (childPcb k (i + 1) parsed).args = padded 0 (argText line) := stored _ _
    have size : (childPcb k (i + 1) parsed).argsLength = (argText line).length := length
    have bears : Bears (i + 1) (padded 0 (argText line),(argText line).length) (spawned k (i + 1) parsed page) := by
      constructor
      · simp only [spawned,Function.update_self]
        decide
      · rw [argsOf,block,text,size]
    refine ⟨i + 1,⟨i,rfl,lowest⟩,rfl,by rw [block,text],by rw [block,size],?_⟩
    intro reached events later alive ran running address buf n room small low high
    obtain ⟨valid,S,represents⟩ := reachable_table reached
    have lasts := run_bears valid represents (Nat.succ_pos i) lowest.1 bears alive ran
    exact getargs_bears lasts running args room small low (by omega)

/-- The command `shell  a b ` of a process. -/
def argsCommand : Command := ⟨_128MB,padded 0 [115,104,101,108,108,32,32,97,32,98,32]⟩

theorem args_typed : Typed argsCommand.bytes [115,104,101,108,108,32,32,97,32,98,32] :=
  ⟨List.forall_iff_forall_mem.mp (by decide),fun _ inside => padded_inside inside,.inr rfl⟩

theorem args_started : ∃ eip after,
    Syscalls.execute shellFs (2 ^ 16) Boot.shellKernel argsCommand = .ok (.started eip after) := by
  obtain ⟨parsed,parses,name,_⟩ := parse_line args_typed (by decide) (by decide) (by decide) (Nat.le_refl (2 ^ 16))
  have crowd := Boot.started_crowd Boot.shellKernel_started
  have free : ¬ NoneFree Boot.shellKernel := by
    intro none
    obtain ⟨i,inside,unused⟩ := Boot.crowd_free crowd (by decide)
    exact none i inside unused
  have room : (executingTerm Boot.shellKernel).numProcs < maxProcesses := by
    rw [executingTerm,crowd.exec,crowd.procs]
    decide
  refine (starts_iff (by decide) parses (by decide)).mpr ⟨⟨[115,104,101,108,108] ++ List.replicate 28 0,2,0⟩,?_,?_⟩
  · rw [name]
    decide
  · exact ⟨⟨by decide,by decide,by decide⟩,shellFs_file.short,clean_of_wellFormed shellFs_geometry shellFs_file,
      lowestFree_exists free,room⟩

theorem command_arguments_shell : ∃ eip after, Syscalls.execute shellFs (2 ^ 16) Boot.shellKernel argsCommand =
    .ok (.started eip after) ∧ ∀ buf, getargs after _128MB buf 4 = (0,copyInto buf 0 (padded 0 [97,32,98]) 4) := by
  obtain ⟨eip,after,executed⟩ := args_started
  obtain ⟨_,passed⟩ := @command_arguments shellFs (2 ^ 16) Boot.shellKernel argsCommand _ args_typed (by decide)
    (by decide) (by decide) (Nat.le_refl _)
  obtain ⟨pid,here⟩ := passed eip after executed
  have taken : step shellFs Boot.shellKernel (.op (.execute (2 ^ 16) argsCommand)) = .ok after := by
    rw [step,Steps.step,executed,ok_bind]
  have reached := reachable_step (reachable_start Boot.shellKernel_started) taken
  refine ⟨eip,after,executed,fun buf => ?_⟩
  exact here.delivers reached [] after trivial rfl here.runs _128MB buf 4 (by decide) (by decide) (by decide) (by decide)

end MazeOS.Arguments
