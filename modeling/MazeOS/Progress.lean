import MazeOS.Admission
import MazeOS.Fairness

/-!
When the kernel goes on. On an image whose files can be read and loaded
(`SoundImage`) no step from a reachable state leads to a fault, but for a stack
that leaves its page, a command whose loops do not end inside their arrays, and a
terminal that does not exist (`never_faults`). The kernel keeps what this rests
on: the active terminal has a process, and every open descriptor has its operations
(`alive_step`). Memory is flat: page faults are not among the faults here.
-/
namespace MazeOS.Progress
open MazeOS.Runs MazeOS.Bytes MazeOS.Faults MazeOS.Filesystem MazeOS.Paging MazeOS.State MazeOS.Display MazeOS.Process
  MazeOS.Files MazeOS.Syscalls MazeOS.Terminal MazeOS.Tables MazeOS.Stacks MazeOS.ProcessTable MazeOS.ReadData
  MazeOS.StackDiscipline MazeOS.Descriptors MazeOS.Undisturbed MazeOS.Commands MazeOS.ProgramLoad MazeOS.Admission
  MazeOS.Transfers MazeOS.ScreenSteps
open MazeOS.Steps hiding step
open MazeOS.Screens (Arranged SameDisplay Vids arranged_same)
open MazeOS.LastProcess (Peopled op_peopled peopled_same spawned_filled inBounds_of_some)

/-- The shell is there, no file has more blocks than an inode has numbers, and the
    blocks of programs are in the image. -/
structure SoundImage (fs : Fs) : Prop where
  valid : ValidShell fs
  short : ∀ inode, inode < fs.metadata.numInodes → fileLength fs inode < maxDataBlockCount * blockSize
  clean : ∀ inode, Executable fs inode → Clean fs inode

/-- The loops may make the iterations that they need, and no count is negative. -/
def Bounded : Event → Prop
  | .op (.execute fuel _) | .op (.halt fuel _) | .op (.exception fuel _) | .op (.switchTo fuel _) => 2 ^ 16 ≤ fuel
  | .call (.read _ _ _ nbytes _) => 0 ≤ nbytes
  | _ => True

/-- What may still go wrong at a step. -/
def Harmless (m : Machine) : Event → Prop
  | .op (.frame esp _) => pcbOf esp = getPcb m.kernel
  | .op (.execute _ command) =>
    Accepted command.address → (∃ i, i < 2 ^ 16 ∧ command.bytes i ≠ space) ∧ ¬ ArgsFull command.bytes
  | .op (.switchTo _ termNum) => termNum < maxTerminals
  | _ => True

/-- What every reachable kernel has, and the next step needs. -/
structure Alive (fs : Fs) (k : Kernel) : Prop where
  peopled : Peopled k
  opened : ∀ p, Live k p → ∃ T, Agrees fs T (k.pcbs p).fds

section
variable {fs : Fs} {S : Schedule} {k before after : Kernel}

/-! ### Files -/

theorem loads_sound (image : SoundImage fs) (inode offset : Nat) : Loads fs inode offset :=
  fun present => loads_of_short (image.short inode present) offset present

/-- No descriptor in use lacks its operations. -/
theorem agrees_ops {T : OpenTable} {fds : Nat → FileDesc} (agrees : Agrees fs T fds) {i : Nat} (inside : i < maxOpenFiles)
    (inUse : InUse (fds i)) : (fds i).fileOps ≠ none := by
  by_cases ordinary : 2 ≤ i
  · have stands := agrees.others i ⟨ordinary,inside⟩
    cases entry : T i with
    | none =>
      rw [entry] at stands
      exact absurd inUse stands.1
    | some file =>
      rw [entry] at stands
      rw [stands.fileOps]
      split <;> simp
  · have cases : i = 0 ∨ i = 1 := by omega
    rcases cases with rfl | rfl
    · simp [agrees.stdin.2]
    · simp [agrees.stdout.2]

theorem agrees_closes {T : OpenTable} {fds : Nat → FileDesc} (agrees : Agrees fs T fds) :
    ∀ n, n ≤ maxOpenFiles → closeFds fds n = .ok ()
  | 0, _ => rfl
  | n + 1, inside => by
    have fine : ¬ (InUse (fds n) ∧ (fds n).fileOps = none) := fun bad => agrees_ops agrees inside bad.1 bad.2
    rw [closeFds,agrees_closes agrees n (Nat.le_of_succ_le inside),ok_bind,if_neg fine]

theorem fsRead_total (image : SoundImage fs) (k : Kernel) (fd : Nat) (buf : Nat → UInt8) {nbytes : Int} (count : 0 ≤ nbytes) :
    ∃ result, fsRead fs k fd buf nbytes = .ok result := by
  have positive : ¬ nbytes < 0 := by omega
  unfold fsRead
  simp only [positive,if_false]
  split
  · split
    · split <;> exact ⟨_,rfl⟩
    · exact ⟨_,rfl⟩
  · split
    · rw [readData_extent (loads_sound image _ _),ok_bind]
      simp only
      split <;> exact ⟨_,rfl⟩
    · exact ⟨_,rfl⟩

theorem terminalRead_total (k : Kernel) (line : List UInt8) (buf : Nat → UInt8) {nbytes : Int} (count : 0 ≤ nbytes) :
    ∃ result, terminalRead k line buf nbytes = .ok result := by
  have positive : ¬ nbytes < 0 := by omega
  unfold terminalRead
  simp only [positive,if_false]
  generalize (if line.length < unsigned nbytes then line.length else unsigned nbytes) = size
  split <;> exact ⟨_,rfl⟩

/-- A call on descriptors comes to its end. -/
theorem call_total (image : SoundImage fs) {T : OpenTable} (agrees : Agrees fs T (fdsOf k)) {call : Call}
    (bounded : Bounded (.call call)) : ∃ result, doCall fs k call = .ok result := by
  have ops : ∀ fd : Int, ¬ fd < 0 → ¬ fd ≥ maxOpenFiles → InUse (fdsOf k fd.toNat) → (fdsOf k fd.toNat).fileOps ≠ none := by
    intro fd low high
    exact agrees_ops agrees (by omega)
  cases call with
  | «open» filename => exact ⟨_,rfl⟩
  | close fd =>
    simp only [doCall,sysClose]
    split
    · exact ⟨_,rfl⟩
    · split
      · rename_i range inUse
        split
        · rename_i none
          exact absurd none (ops fd (by omega) (by omega) inUse)
        · exact ⟨_,rfl⟩
      · exact ⟨_,rfl⟩
  | read fd address buf nbytes line =>
    have count : 0 ≤ nbytes := bounded
    obtain ⟨result,read⟩ : ∃ result, sysRead fs k fd address buf nbytes line = .ok result := by
      simp only [sysRead]
      split
      · exact ⟨_,rfl⟩
      · split
        · exact ⟨_,rfl⟩
        · split
          · rename_i range _ inUse
            split
            · rename_i none
              exact absurd none (ops fd (by omega) (by omega) inUse)
            · exact fsRead_total image k _ buf count
            · exact ⟨_,rfl⟩
            · exact terminalRead_total k line buf count
            · exact ⟨_,rfl⟩
          · exact ⟨_,rfl⟩
    rw [doCall,read]
    exact ⟨_,rfl⟩
  | write fd address buf nbytes =>
    simp only [doCall,sysWrite]
    split
    · exact ⟨_,rfl⟩
    · split
      · exact ⟨_,rfl⟩
      · split
        · rename_i range _ inUse
          split
          · rename_i none
            exact absurd none (ops fd (by omega) (by omega) inUse)
          · exact ⟨_,rfl⟩
          · exact ⟨_,rfl⟩
          · exact ⟨_,rfl⟩
          · exact ⟨_,rfl⟩
        · exact ⟨_,rfl⟩

/-! ### Programs -/

/-- A command whose loops end is refused, or its program is loaded. -/
theorem executeParsed_total (image : SoundImage fs) {fuel : Nat} (enough : 2 ^ 16 ≤ fuel) (roomy : Roomy k) (parsed : Parsed) :
    ∃ result, executeParsed fs fuel k parsed = .ok result := by
  cases found : readDentryByName fs parsed.filename with
  | none => exact ⟨_,by rw [executeParsed,found]⟩
  | some dentry =>
    obtain ⟨header,read,_⟩ := header_iff (loads_sound image dentry.inode 0)
    by_cases magic : header = elfHeader
    · subst magic
      obtain ⟨executable,_,short⟩ := header_ok read
      obtain ⟨eip,entry⟩ := entrypoint_ok short
      rcases @executeParsed_executable fs fuel eip k parsed dentry found read entry with ⟨i,lowest,starts⟩ | ⟨_,refuses⟩
      · obtain ⟨fuel,rfl⟩ : ∃ n, fuel = n + 1 := ⟨fuel - 1,by omega⟩
        simp only [maxDataBlockCount,blockSize] at short
        obtain ⟨page,loaded⟩ := loadProgram_ends executable.present (header_ok read).2.2 (image.clean _ executable)
          (k.pages (i + 1)) fuel (by omega)
        have room : ¬ (executingTerm k).numProcs ≥ maxProcesses := by
          have few := roomy fun none => none i lowest.1 lowest.2.1
          omega
        rw [starts,show loadProgram fs dentry.inode (fuel + 1) (_128MB + imageLoadOffset) 0 (k.pages (i + 1)) = .ok page
          from loaded,ok_bind,if_neg room]
        exact ⟨_,rfl⟩
      · exact ⟨_,refuses⟩
    · refine ⟨.returned (-1) k,?_⟩
      rw [executeParsed]
      simp only [found,read,ok_bind,ne_eq,Ne.symm magic,not_false_eq_true,if_true]

/-- `execute` comes to an end exactly when the loops over its command do. -/
theorem execute_iff (image : SoundImage fs) {fuel : Nat} (enough : 2 ^ 16 ≤ fuel) (roomy : Roomy k) (command : Command) :
    (∃ result, Syscalls.execute fs fuel k command = .ok result) ↔
      (Accepted command.address → (∃ i, i < 2 ^ 16 ∧ command.bytes i ≠ space) ∧ ¬ ArgsFull command.bytes) := by
  rw [← parse_ok_iff enough]
  by_cases accepted : Accepted command.address
  · rw [execute_accepts fs fuel k accepted]
    constructor
    · rintro ⟨result,executed⟩ _
      obtain ⟨parsed,parses,_⟩ := bind_eq_ok.mp executed
      exact ⟨parsed,parses⟩
    · intro parses
      obtain ⟨parsed,parses⟩ := parses accepted
      obtain ⟨result,executed⟩ := executeParsed_total image enough roomy parsed
      exact ⟨result,bind_eq_ok.mpr ⟨parsed,parses,executed⟩⟩
  · rw [execute_rejects fs fuel k accepted]
    exact iff_of_true ⟨_,rfl⟩ fun impossible => absurd impossible accepted

theorem shell_total (image : SoundImage fs) {fuel : Nat} (enough : 2 ^ 16 ≤ fuel) (roomy : Roomy k) :
    ∃ result, Syscalls.execute fs fuel k shellCommand = .ok result :=
  (execute_iff image enough roomy shellCommand).mpr fun _ => ⟨⟨0,by decide,by decide⟩,shell_fits⟩

/-- The shell starts when a process ID is free. -/
theorem shell_starts (image : SoundImage fs) {fuel : Nat} (enough : 2 ^ 16 ≤ fuel)
    (room : (executingTerm k).numProcs < maxProcesses) {i : Nat} (inside : i < maxProcesses) (free : k.availablePids i = 0) :
    ∃ eip after, Syscalls.execute fs fuel k shellCommand = .ok (.started eip after) := by
  obtain ⟨result,executed⟩ := shell_total image enough (fun _ => room)
  cases result with
  | returned value after => exact absurd free (execute_shell_returned image.valid executed i inside)
  | started eip after => exact ⟨eip,after,executed⟩

/-! ### The end of a process -/

/-- The running process leaves the table. -/
theorem pops_popped (some : 0 < (executingTerm k).numProcs) (few : (executingTerm k).numProcs ≤ maxProcesses)
    (low : 1 ≤ (k.pcbs (getPcb k)).pid) (high : (k.pcbs (getPcb k)).pid ≤ maxProcesses)
    (used : k.availablePids ((k.pcbs (getPcb k)).pid - 1) ≠ 0) :
    popProcess (releaseProcess k (k.pcbs (getPcb k))) = .ok (popped k) := by
  have released : releaseProcess k (k.pcbs (getPcb k)) =
      { k with
        availablePids := Function.update k.availablePids ((k.pcbs (getPcb k)).pid - 1) 0
        paging := if (k.pcbs (getPcb k)).vidmemVirtAddr ≠ 0 then
          freeUserVideoMem k.paging (k.pcbs (getPcb k)).vidmemVirtAddr else k.paging } := by
    simp only [releaseProcess,freePid_used low high used,ne_eq,not_true_eq_false,if_false]
    split <;> rfl
  rw [released]
  exact if_neg (by simp only [executingTerm] at *; omega)

/-- The number of processes of a terminal. -/
theorem numProcs_few (represents : Represents S (tableOf k)) {t : Nat} (inside : t < maxTerminals) :
    (k.terminals t).numProcs ≤ maxProcesses := by
  have few := (consistent_of_represents represents).few
  have cases : t = 0 ∨ t = 1 ∨ t = 2 := by
    simp only [maxTerminals] at inside
    omega
  rcases cases with rfl | rfl | rfl <;> omega

/-- A process ends, and its parent goes on or another shell starts. -/
theorem halt_goes (image : SoundImage fs) {fuel : Nat} (enough : 2 ^ 16 ≤ fuel) (represents : Represents S (tableOf k))
    (ended : tableOf before = tableOf k ∨ tableOf before = (tableOf k).raise)
    (closes : closeFds (before.pcbs (getPcb before)).fds maxOpenFiles = .ok ()) (status : UInt8) :
    ∃ after, Syscalls.halt fs fuel before status = .ok after := by
  have steady := steady_of_represents represents
  obtain ⟨exec,address,pids,_⟩ := ending_same ended
  obtain ⟨_,own⟩ := ending_core ended (getPcb k)
  have procs : (tableOf before).procs = (tableOf k).procs := by
    rcases ended with same | same
    · rw [same]
    · rw [same]; rfl
  have size : (executingTerm before).numProcs = (executingTerm k).numProcs := by
    rw [executingTerm,exec]
    exact congrArg Procs.numProcs (congrFun procs k.execTerm)
  have some : 0 < (executingTerm before).numProcs := size ▸ steady.some
  have few : (executingTerm before).numProcs ≤ maxProcesses := size ▸ numProcs_few represents steady.exec
  have pid : (before.pcbs (getPcb before)).pid = (k.pcbs (getPcb k)).pid := by
    rw [address]
    exact congrArg Core.pid own
  have low : 1 ≤ (before.pcbs (getPcb before)).pid := pid ▸ steady.low
  have high : (before.pcbs (getPcb before)).pid ≤ maxProcesses := pid ▸ steady.high
  have used : before.availablePids ((before.pcbs (getPcb before)).pid - 1) ≠ 0 := by
    rw [pid,pids]
    exact steady.used
  by_cases root : (before.pcbs (getPcb before)).parent = 0
  · have pops := pops_popped some few low high used
    have cleared := tableOf_draws (clearSetpos_draws (popped before) 0 0)
    have free : (clearSetpos (popped before) 0 0).availablePids ((before.pcbs (getPcb before)).pid - 1) = 0 := by
      refine (congrFun (congrArg Table.pids cleared) _).trans ?_
      exact Function.update_self _ _ _
    have room : (executingTerm (clearSetpos (popped before) 0 0)).numProcs < maxProcesses := by
      have same : (executingTerm (clearSetpos (popped before) 0 0)).numProcs = (executingTerm before).numProcs - 1 := by
        have procs' := congrFun (congrArg Table.procs cleared) before.execTerm
        have exec' : (clearSetpos (popped before) 0 0).execTerm = before.execTerm := congrArg Table.execTerm cleared
        rw [executingTerm,exec']
        refine (congrArg Procs.numProcs procs').trans ?_
        simp [tableOf,popped]
      omega
    obtain ⟨eip,after,executed⟩ := shell_starts image enough room (by omega) free
    refine ⟨after,?_⟩
    simp only [Syscalls.halt,closes,ok_bind,pops,if_pos root,executed]
  · exact halt_total fs fuel status closes some few low high used root

/-! ### Switches -/

theorem last_exists (represents : Represents S (tableOf k)) {t : Nat} (inside : t < maxTerminals)
    (some : 0 < (k.terminals t).numProcs) : ∃ address, lastProc k t = .ok address :=
  ⟨_,lastProc_ok.mpr ⟨some,numProcs_few represents inside,rfl,(inBounds_of_some represents inside some).2⟩⟩

theorem hide_goes (represents : Represents S (tableOf k)) (current : k.currTerminal < maxTerminals)
    (filled : 0 < (activeTerm k).numProcs) : ∃ hidden, hideActive k = .ok hidden := by
  obtain ⟨process,found⟩ := last_exists represents current filled
  exact ⟨_,bind_eq_ok.mpr ⟨process,found,rfl⟩⟩

theorem resume_goes (image : SoundImage fs) {fuel : Nat} (enough : 2 ^ 16 ≤ fuel) (represents : Represents S (tableOf k))
    (current : k.currTerminal < maxTerminals) : ∃ after, resumeTerminal fs fuel k = .ok after := by
  by_cases bare : (activeTerm k).numProcs = 0
  · have steady := steady_of_represents represents
    obtain ⟨running,found⟩ : ∃ running, lastProc k k.execTerm = .ok running :=
      last_exists represents steady.exec steady.some
    have room : (executingTerm { saveStack k running with execTerm := k.currTerminal }).numProcs < maxProcesses := by
      change (activeTerm k).numProcs < maxProcesses
      rw [bare]
      decide
    obtain ⟨result,executed⟩ := shell_total image enough (fun _ => room)
    rw [resumeTerminal,if_pos bare]
    cases result <;> exact ⟨_,bind_eq_ok.mpr ⟨running,found,bind_eq_ok.mpr ⟨_,executed,rfl⟩⟩⟩
  · obtain ⟨process,found⟩ := last_exists represents current (Nat.pos_of_ne_zero bare)
    exact ⟨_,by rw [resumeTerminal,if_neg bare,found,ok_bind]⟩

theorem switch_goes (image : SoundImage fs) {fuel : Nat} (enough : 2 ^ 16 ≤ fuel) (peopled : Peopled k) {termNum : Nat}
    (inside : termNum < maxTerminals) : ∃ after, switchActiveTerminal fs fuel k termNum = .ok after := by
  obtain ⟨⟨⟨S,represents⟩,arranged⟩,filled⟩ := peopled
  rw [switchActiveTerminal,if_neg (Nat.not_le_of_lt inside)]
  by_cases same : k.currTerminal = termNum
  · exact ⟨k,if_pos same⟩
  · rw [if_neg same]
    simp only
    split
    · exact ⟨_,rfl⟩
    · have restored : (freePid (getAvailablePid k).2 (unsigned (getAvailablePid k).1)).2 = k := probe_restores k
      rw [restored]
      obtain ⟨hidden,hid⟩ := hide_goes represents arranged.current filled
      have table := tableOf_shown hid termNum
      obtain ⟨after,resumed⟩ := resume_goes image enough (k := showTerminal hidden termNum) (table ▸ represents) inside
      exact ⟨after,bind_eq_ok.mpr ⟨hidden,hid,resumed⟩⟩

/-! ### One step -/

theorem op_iff (image : SoundImage fs) (alive : Alive fs k) {op : Op} {logs : Nat → List Done} (bounded : Bounded (.op op)) :
    (∃ after, Steps.step fs k op = .ok after) ↔ Harmless ⟨k,logs⟩ (.op op) := by
  obtain ⟨⟨⟨⟨S,represents⟩,arranged⟩,filled⟩,opened⟩ := alive
  obtain ⟨p,held,_,running,_⟩ := running_live represents
  obtain ⟨T,agrees⟩ := opened (getPcb k) ((live_iff represents).mpr ⟨p,held,running.symm⟩)
  cases op with
  | trap | vidmap => exact iff_of_true ⟨_,rfl⟩ trivial
  | pit => exact iff_of_true (Fairness.pit_total represents) trivial
  | frame esp ebp =>
    simp only [Steps.step,Harmless]
    split
    · exact iff_of_true ⟨_,rfl⟩ (by assumption)
    · refine iff_of_false ?_ (by assumption)
      rintro ⟨_,impossible⟩
      cases impossible
  | execute fuel command =>
    rw [Harmless,← execute_iff image bounded (tabled_roomy represents.tabled (steady_of_represents represents).exec)]
    constructor
    · rintro ⟨after,taken⟩
      obtain ⟨result,executed,_⟩ := bind_eq_ok.mp taken
      exact ⟨result,executed⟩
    · rintro ⟨result,executed⟩
      cases result <;> exact ⟨_,bind_eq_ok.mpr ⟨_,executed,rfl⟩⟩
  | halt fuel status =>
    have closes := agrees_closes agrees _ (Nat.le_refl maxOpenFiles)
    exact iff_of_true (halt_goes image bounded represents (.inl rfl) closes status) trivial
  | exception fuel text =>
    refine iff_of_true (halt_goes image bounded represents (.inr (tableOf_raised k text)) ?_ 0) trivial
    have fds : ((setPcb (printf k text) (getPcb (printf k text))
        { (printf k text).pcbs (getPcb (printf k text)) with retval := returnException }).pcbs (getPcb (printf k text))).fds =
        fdsOf (printf k text) := by simp [setPcb,fdsOf]
    change closeFds ((setPcb (printf k text) (getPcb (printf k text))
        { (printf k text).pcbs (getPcb (printf k text)) with retval := returnException }).pcbs (getPcb (printf k text))).fds
        maxOpenFiles = .ok ()
    rw [fds,fdsOf_draws (printf_draws k text)]
    exact agrees_closes agrees _ (Nat.le_refl _)
  | switchTo fuel termNum =>
    refine ⟨?_,switch_goes image bounded ⟨⟨⟨S,represents⟩,arranged⟩,filled⟩⟩
    rintro ⟨after,taken⟩
    exact (switchActiveTerminal_ok taken).1

/-! ### What the next step needs -/

theorem live_same (procs : (tableOf after).procs = (tableOf k).procs) {p : Nat} (live : Live after p) : Live k p := by
  obtain ⟨t,i,⟨inside,below⟩,same⟩ := live
  have own : (after.terminals t).toProcs = (k.terminals t).toProcs := congrFun procs t
  refine ⟨t,i,⟨inside,?_⟩,?_⟩
  · rw [← congrArg Procs.numProcs own]
    exact below
  · rw [child,← congrArg Procs.childProcs own]
    exact same

theorem live_spawned {pid p : Nat} {parsed : Parsed} {page : Nat → UInt8} (live : Live (spawned k pid parsed page) p) :
    Live k p ∨ p = pcbAddress pid := by
  obtain ⟨t,i,⟨inside,below⟩,same⟩ := live
  by_cases here : t = k.execTerm
  · subst here
    simp only [spawned,Function.update_self,executingTerm] at below
    simp only [child,spawned,Function.update_self,executingTerm] at same
    by_cases last : i = (k.terminals k.execTerm).numProcs
    · subst last
      rw [Function.update_self] at same
      exact .inr same.symm
    · rw [Function.update_of_ne last] at same
      exact .inl ⟨k.execTerm,i,⟨inside,by omega⟩,same⟩
  · simp only [spawned,Function.update_of_ne here] at below
    simp only [child,spawned,Function.update_of_ne here] at same
    exact .inl ⟨t,i,⟨inside,below⟩,same⟩

/-- A process of the kernel after a step was there before, with the same
    descriptors, or is new. -/
def Descends (k after : Kernel) (p : Nat) : Prop :=
  (Live k p ∧ (after.pcbs p).fds = (k.pcbs p).fds) ∨ (after.pcbs p).fds = initialFds

theorem descends_goes (represents : Represents S (tableOf k)) (valid : ValidShell fs) {op : Op} (goesOn : endValue op = none)
    (taken : Steps.step fs k op = .ok after) {p : Nat} (live : Live after p) : Descends k after p := by
  have kept : Live k p → Descends k after p := by
    intro live
    obtain ⟨q,held,rfl⟩ := (live_iff represents).mp live
    exact .inl ⟨live,congrArg Own.fds (kept_op represents valid goesOn taken held).own⟩
  have started : ∀ {fuel eip : Nat} {before : Kernel} {command : Command},
      Syscalls.execute fs fuel before command = .ok (.started eip after) →
      (tableOf before).procs = (tableOf k).procs → Descends k after p := by
    intro fuel eip before command executed procs
    have fresh := created_fds executed
    obtain ⟨pid,parsed,page,rfl,_⟩ := execute_started executed
    rcases live_spawned live with old | rfl
    · exact kept (live_same procs old)
    · exact .inr fresh
  have sameTable : tableOf after = tableOf k → Descends k after p := fun same =>
    kept (live_same (congrArg Table.procs same) live)
  cases op with
  | halt | exception => cases goesOn
  | trap => cases taken; exact kept live
  | frame esp ebp =>
    simp only [Steps.step] at taken
    split at taken <;> cases taken
    exact kept live
  | vidmap screenStart =>
    cases taken
    have table := tableOf_vidmap k screenStart
    split at table
    · exact sameTable table
    · exact kept (live_same ((congrArg Table.procs table).trans rfl) live)
  | pit =>
    have terminals := (Fairness.pit_turn taken).2
    exact kept (live_same (by simp only [tableOf,terminals]) live)
  | execute fuel command =>
    obtain ⟨result,executed,ended⟩ := bind_eq_ok.mp taken
    cases result with
    | returned value l =>
      cases ended
      exact sameTable (tableOf_draws (execute_returned executed))
    | started eip l =>
      cases ended
      exact started executed rfl
  | switchTo fuel termNum =>
    have steady := steady_of_represents represents
    obtain ⟨_,⟨_,rfl⟩ | ⟨_,_,rfl⟩ | ⟨_,available,hidden,hid,resumed⟩⟩ := switchActiveTerminal_ok taken
    · exact kept live
    · exact sameTable (by rw [tableOf_ack,tableOf_draws (printf_draws k _)])
    · have table := tableOf_shown hid termNum
      by_cases bare : (activeTerm (showTerminal hidden termNum)).numProcs = 0
      · have empty : (k.terminals termNum).numProcs = 0 := (shown_numProcs table).symm.trans bare
        obtain ⟨eip,executed⟩ := resume_opens steady valid table bare empty available resumed
        exact started executed (by rw [tableOf_opening,← table]; rfl)
      · obtain ⟨process,_,rfl⟩ := resume_maps bare resumed
        exact sameTable (by rw [tableOf_remapVidmem,table])

theorem descends_ends (represents : Represents S (tableOf k)) (valid : ValidShell fs) {op : Op} {value : Int}
    (ends : endValue op = some value) (taken : Steps.step fs k op = .ok after) {p : Nat} (live : Live after p) :
    Descends k after p := by
  obtain ⟨r,_,newest,running,_⟩ := running_live represents
  rw [represents.exec] at newest
  have kept : ∀ {q : Nat}, Held (pop S.family S.exec) q → pcbAddress q = p → Descends k after p := by
    rintro q held rfl
    obtain ⟨before,other⟩ := (held_pop newest).mp held
    have apart : pcbAddress q ≠ getPcb k := by
      intro same
      exact other (address_inj represents.tabled before ⟨S.exec,top_mem newest⟩ (same.trans running))
    have frame := op_frame represents valid taken before apart
    exact .inl ⟨(live_iff represents).mpr ⟨q,before,rfl⟩,congrArg Pcb.fds frame⟩
  have shell : (k.pcbs (getPcb k)).parent = 0 → fdsOf after = initialFds := by
    intro root
    have created : ∀ {before : Kernel} {fuel : Nat} {status : UInt8},
        (tableOf before = tableOf k ∨ tableOf before = (tableOf k).raise) →
        Syscalls.halt fs fuel before status = .ok after → fdsOf after = initialFds := by
      intro before fuel status ended halted
      rcases ending_cases represents ended halted with ⟨child,_⟩ | ⟨_,_,executed⟩
      · exact absurd root child
      · exact created_fds executed
    cases op with
    | halt fuel status => exact created (.inl rfl) taken
    | exception fuel text => exact created (.inr (tableOf_raised k text)) taken
    | _ => cases ends
  rcases step_ends represents ends taken with ⟨_,next⟩ | ⟨root,pid,fresh,next⟩
  · obtain ⟨q,held,address⟩ := (live_iff next).mp live
    exact kept held address
  · obtain ⟨q,held,address⟩ := (live_iff next).mp live
    rcases (held_push fresh).mp held with old | rfl
    · exact kept old address
    · obtain ⟨r',_,newest',running',_⟩ := running_live next
      rw [next.exec,top_push] at newest'
      cases newest'
      right
      rw [← address,← running']
      exact shell root

theorem setFd_same (k : Kernel) (i : Nat) (file : FileDesc) : SameDisplay k (setFd k i file) :=
  unchanged_same rfl rfl rfl rfl

theorem fsRead_same {fd : Nat} {buf buf' : Nat → UInt8} {nbytes value : Int}
    (read : fsRead fs k fd buf nbytes = .ok (value,after,buf')) : SameDisplay k after := by
  unfold fsRead at read
  simp only at read
  split at read
  · split at read
    · split at read
      · split at read <;> cases read
        exact setFd_same k _ _
      · cases read
        exact unchanged_same rfl rfl rfl rfl
    · cases read
      exact unchanged_same rfl rfl rfl rfl
  · split at read
    · obtain ⟨⟨count,bytes⟩,_,same⟩ := bind_eq_ok.mp read
      simp only at same
      split at same <;> cases same
      · exact unchanged_same rfl rfl rfl rfl
      · exact setFd_same k _ _
    · cases read
      exact unchanged_same rfl rfl rfl rfl

/-- A call on descriptors keeps the display. -/
theorem call_arranged (arranged : Arranged k) (represents : Represents S (tableOf k)) {call : Call} {value : Int}
    {bytes : List UInt8} (done : doCall fs k call = .ok (value,bytes,after)) : Arranged after := by
  have kept : ∀ {l : Kernel}, tableOf l = tableOf k → SameDisplay k l → Arranged l := fun table same =>
    arranged_represents arranged (table.symm ▸ represents) same
  have table := tableOf_call done
  cases call with
  | «open» filename =>
    simp only [doCall,Except.ok.injEq,Prod.mk.injEq] at done
    obtain ⟨_,_,rfl⟩ := done
    refine kept table ?_
    rcases sysOpen_cases fs k filename with ⟨refused,_⟩ | ⟨_,i,_,_,_,_,_,opened⟩
    · rw [refused]
      exact unchanged_same rfl rfl rfl rfl
    · rw [opened]
      exact setFd_same k i _
  | close fd =>
    obtain ⟨⟨_,_⟩,closed,same⟩ := bind_eq_ok.mp done
    cases same
    refine kept table ?_
    rcases sysClose_cases closed with ⟨_,rfl,_⟩ | ⟨i,_,_,_,_,rfl⟩
    · exact unchanged_same rfl rfl rfl rfl
    · exact setFd_same k i _
  | read fd address buf nbytes line =>
    obtain ⟨⟨_,_,_⟩,read,same⟩ := bind_eq_ok.mp done
    cases same
    unfold sysRead at read
    simp only at read
    split at read
    · cases read; exact arranged
    · split at read
      · cases read; exact arranged
      · split at read
        · split at read
          · cases read
          · exact kept table (fsRead_same read)
          · cases read; exact arranged
          · unfold terminalRead at read
            simp only at read
            generalize (if line.length < unsigned nbytes then line.length else unsigned nbytes) = size at read
            split at read
            · split at read <;> cases read
              -- `Ctrl-L`
              exact (clearSetpos_screens arranged).1
            · cases read; exact arranged
          · cases read; exact arranged
        · cases read; exact arranged
  | write fd address buf nbytes =>
    obtain ⟨⟨_,_⟩,written,same⟩ := bind_eq_ok.mp done
    cases same
    unfold sysWrite at written
    simp only at written
    split at written
    · cases written; exact arranged
    · split at written
      · cases written; exact arranged
      · split at written
        · split at written <;> cases written
          all_goals first | exact arranged | exact terminalWrite_arranged arranged _
        · cases written; exact arranged

/-- Every step keeps what the next one needs. -/
theorem alive_step (valid : ValidShell fs) {m after : Undisturbed.Machine} {e : Undisturbed.Event} (alive : Alive fs m.kernel)
    (taken : Undisturbed.step fs m e = .ok after) : Alive fs after.kernel := by
  have peopled := alive.peopled
  obtain ⟨⟨⟨S,represents⟩,arranged⟩,filled⟩ := peopled
  cases e with
  | op op =>
    obtain ⟨k,stepped,same⟩ := bind_eq_ok.mp taken
    cases same
    refine ⟨op_peopled valid alive.peopled stepped,?_⟩
    intro p live
    have descends : Descends m.kernel k p := by
      cases ends : endValue op with
      | none => exact descends_goes represents valid ends stepped live
      | some value => exact descends_ends represents valid ends stepped live
    rcases descends with ⟨before,fds⟩ | fds
    · rw [fds]
      exact alive.opened p before
    · rw [fds]
      exact ⟨closedTable,initialFds_agrees fs⟩
  | call call =>
    obtain ⟨⟨value,bytes,k⟩,done,same⟩ := bind_eq_ok.mp taken
    cases same
    have table := tableOf_call done
    have current : k.currTerminal = m.kernel.currTerminal := by
      obtain ⟨_,_,⟨_,_,_,rfl⟩,rfl⟩ := doCall_fds done
      rfl
    refine ⟨peopled_same alive.peopled ⟨⟨S,table ▸ represents⟩,call_arranged arranged represents done⟩ table current,?_⟩
    intro p live
    have before : Live m.kernel p := live_same (congrArg Table.procs table) live
    obtain ⟨T,agrees⟩ := alive.opened p before
    by_cases running : p = getPcb m.kernel
    · subst running
      obtain ⟨T',_,agrees'⟩ := (call_refines agrees done).refines
      have same : getPcb k = getPcb m.kernel := congrArg Table.running table
      rw [fdsOf,same] at agrees'
      exact ⟨T',agrees'⟩
    · rw [(doCall_kept done p).1 running]
      exact ⟨T,agrees⟩

theorem booted_alive (started : Started fs k) : Alive fs k := by
  have displayed := started_displayed started
  obtain ⟨S,represents,only⟩ := started_represents started
  obtain ⟨m,fuel,eip,executed⟩ := started
  have same : SameDisplay (Terminal.boot m) k := execute_arranged (boot_arranged m) executed
  have idle := Boot.boot_idle m
  refine ⟨⟨displayed,?_⟩,?_⟩
  · obtain ⟨pid,parsed,page,rfl,_⟩ := execute_started executed
    have current : (Terminal.boot m).currTerminal = (Terminal.boot m).execTerm := idle.current.trans idle.exec.symm
    rw [activeTerm,same.current,current]
    exact spawned_filled (Terminal.boot m) pid parsed page
  · intro p live
    obtain ⟨q,held,rfl⟩ := (live_iff represents).mp live
    rw [only q held]
    have fresh : (k.pcbs (getPcb k)).fds = initialFds := created_fds executed
    rw [fresh]
    exact ⟨closedTable,initialFds_agrees fs⟩

end

theorem shellFs_sound : SoundImage shellFs := by
  have single : ∀ inode, inode < shellFs.metadata.numInodes → inode = 0 := by decide
  refine ⟨Boot.shellImage_valid Boot.shellFs_image,?_,?_⟩
  · intro inode present
    rw [single inode present]
    exact shellFs_file.short
  · intro inode executable
    rw [single inode executable.present]
    exact clean_of_wellFormed shellFs_geometry shellFs_file

end MazeOS.Progress
