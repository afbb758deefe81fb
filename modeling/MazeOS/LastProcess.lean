import MazeOS.Isolation

/-!
Where `switch_active_terminal` and `context_switch` read the last process of a
terminal, `child_procs[num_procs - 1]`. The machine starts at the `sti` of
`entry`: the statements of `clear_setpos`, `fs_init` and the first `execute` are
taken one by one, with keyboard and timer interrupts between them, and then the
processes run. From the first shell on the active and the executing terminal
have a process (`system_peopled`). Before it no terminal has one, so all reads
are in bounds exactly when no key switches the terminal that early
(`reads_in_bounds_iff`).
-/
namespace MazeOS.LastProcess
open MazeOS.Runs MazeOS.Faults MazeOS.Filesystem MazeOS.Paging MazeOS.State MazeOS.Display MazeOS.Process
  MazeOS.Files MazeOS.Syscalls MazeOS.Terminal MazeOS.Steps MazeOS.Tables MazeOS.Stacks MazeOS.ProcessTable
  MazeOS.Windows MazeOS.Screens MazeOS.ScreenSteps MazeOS.Keyboard
open MazeOS.Isolation (clearStep clearStores advance)
open MazeOS.KeyboardRead (sameLines_draws op_lines)

/-! ### The machine -/

/-- The next statement of `entry` after its `sti`. -/
inductive Stage where
  /-- Inside `clear`, after some of its stores. -/
  | clearing (stores : Nat)
  | setX
  | setY
  | moveCursor
  | fsInit
  | execute
  /-- The first shell was started. -/
  | running
  /-- `execute` has returned to `entry`. -/
  | returned
  deriving DecidableEq

structure Machine where
  system : Isolation.Machine
  stage : Stage

def Machine.kernel (m : Machine) : Kernel := m.system.kernel

/-- One statement of `entry`. The file system image does not change, so `fs_init`
    does nothing here. -/
def entryStep (fs : Fs) (fuel : Nat) (k : Kernel) : Stage → Checked (Kernel × Stage)
  | .clearing n => .ok (if n < clearStores then (clearStep k n,.clearing (n + 1)) else (k,.setX))
  | .setX => .ok (setTerminal k k.currTerminal { activeTerm k with xPos := 0 },.setY)
  | .setY => .ok (setTerminal k k.currTerminal { activeTerm k with yPos := 0 },.moveCursor)
  | .moveCursor => .ok (updateCursor k (activeTerm k).xPos (activeTerm k).yPos,.fsInit)
  | .fsInit => .ok (k,.execute)
  | .execute => Syscalls.execute fs fuel k shellCommand >>= fun
    | .started _ k => .ok (k,.running)
    | .returned _ k => .ok (k,.returned)
  | .running => .ok (k,.running)
  | .returned => .ok (k,.returned)

inductive Event where
  /-- `entry` goes on. -/
  | entry (fuel : Nat)
  | system (event : Isolation.Event)

/-- The interrupts that `entry` may be interrupted by. -/
def interrupt : Isolation.Event → Bool
  | .op .pit | .key _ _ _ => true
  | _ => false

/-- One step. An event that cannot occur leaves the machine as it is. -/
def step (fs : Fs) (m : Machine) : Event → Checked Machine
  | .entry fuel => entryStep fs fuel m.kernel m.stage >>= fun (k,stage) => .ok ⟨{ m.system with kernel := k },stage⟩
  | .system event =>
    if m.stage = .running ∨ interrupt event then
      Isolation.step fs m.system event >>= fun system => .ok { m with system := system }
    else .ok m

/-- The machine at the `sti` of `entry`. -/
structure Booting (m : Machine) : Prop where
  kernel : ∃ memory, m.kernel = Boot.atSti memory
  unmasked : m.system.masked = false
  idle : ∀ t, m.system.places t = .idle
  stage : m.stage = .clearing 0

/-! ### What should hold, and when it does -/

/-- `child_procs[num_procs - 1]` of a terminal is an entry, and not null. -/
def InBounds (k : Kernel) (t : Nat) : Prop :=
  1 ≤ (k.terminals t).numProcs ∧ (k.terminals t).childProcs ((k.terminals t).numProcs - 1) ≠ 0

/-- The kernels and terminals that `switch_active_terminal` reads it of: the
    terminal that it hides, and then the new one, or the executing one where the
    new one has no process. -/
def switchReads (k : Kernel) (termNum : Nat) : List (Kernel × Nat) :=
  if termNum < maxTerminals ∧ k.currTerminal ≠ termNum ∧ ¬ Refused k termNum then
    -- the process ID that was probed for has been given back
    (k,k.currTerminal) :: match hideActive k with
      | .ok hidden =>
        let shown := showTerminal hidden termNum
        [(shown,if (activeTerm shown).numProcs = 0 then shown.execTerm else termNum)]
      | .error _ => []
  else []

/-- The terminal that `context_switch` reads it of, when the timer calls it. -/
def pitReads (k : Kernel) : List (Kernel × Nat) :=
  match nextTerminal k maxTerminals (if k.execTerm + 1 ≥ maxTerminals then 0 else k.execTerm + 1) with
  | some next => [(k,next)]
  | none => []

def reads (m : Machine) : Event → List (Kernel × Nat)
  | .system (.op .pit) => pitReads m.kernel
  | .system (.op (.switchTo _ termNum)) => if m.stage = .running then switchReads m.kernel termNum else []
  | .system (.key _ c _) =>
    if m.system.masked = false ∧ SwitchKey m.kernel.modifiers c then switchReads m.kernel (c - function1).toNat else []
  | _ => []

def AllInBounds (read : List (Kernel × Nat)) : Prop := ∀ k t, (k,t) ∈ read → InBounds k t

/-- Every read that a step makes of the last process of a terminal is in bounds. -/
def ReadsInBounds (m : Machine) (e : Event) : Prop := AllInBounds (reads m e)

/-- No key that switches to another terminal is handled before a shell runs. -/
def NoEarlySwitch (m : Machine) : Event → Prop
  | .system (.key _ c _) =>
    m.stage = .running ∨ m.system.masked = true ∨ ¬ SwitchKey m.kernel.modifiers c ∨
      (c - function1).toNat = m.kernel.currTerminal
  | _ => True

/-! ### What is read -/

section
variable {fs : Fs} {k after : Kernel}

theorem inBounds_of_lastProc {t address : Nat} (found : lastProc k t = .ok address) : InBounds k t := by
  obtain ⟨some,_,last,notNull⟩ := lastProc_ok.mp found
  exact ⟨some,last ▸ notNull⟩

theorem allInBounds_nil : AllInBounds [] := by
  rintro k t member
  cases member

theorem allInBounds_cons {t : Nat} {rest : List (Kernel × Nat)} (first : InBounds k t) (others : AllInBounds rest) :
    AllInBounds ((k,t) :: rest) := by
  rintro k' t' member
  rcases List.mem_cons.mp member with same | later
  · cases same
    exact first
  · exact others k' t' later

/-- A switch that is completed has read in bounds. -/
theorem switchReads_done {fuel termNum : Nat} (switched : switchActiveTerminal fs fuel k termNum = .ok after) :
    AllInBounds (switchReads k termNum) := by
  unfold switchReads
  obtain ⟨inside,⟨here,_⟩ | ⟨_,refused,_⟩ | ⟨other,accepted,hidden,hid,resumed⟩⟩ := switchActiveTerminal_ok switched
  · rw [if_neg fun all => all.2.1 here]
    exact allInBounds_nil
  · rw [if_neg fun all => all.2.2 refused]
    exact allInBounds_nil
  · rw [if_pos ⟨inside,other,accepted⟩,hid]
    obtain ⟨process,found,_⟩ := hideActive_ok hid
    refine allInBounds_cons (inBounds_of_lastProc found) (allInBounds_cons ?_ allInBounds_nil)
    simp only [resumeTerminal] at resumed
    split at resumed
    · rename_i empty
      obtain ⟨running,last,_⟩ := bind_eq_ok.mp resumed
      rw [if_pos empty]
      exact inBounds_of_lastProc last
    · rename_i some
      obtain ⟨process,last,_⟩ := bind_eq_ok.mp resumed
      rw [if_neg some]
      exact inBounds_of_lastProc last

/-! ### While a shell runs -/

/-- The kernel stands for a schedule, its display is arranged, and the active
    terminal has a process. -/
structure Peopled (k : Kernel) : Prop where
  displayed : Displayed k
  filled : 0 < (activeTerm k).numProcs

/-- The last process of a terminal that has one is read in bounds. -/
theorem inBounds_of_some {S : Schedule} (represents : Represents S (tableOf k)) {t : Nat} (inside : t < maxTerminals)
    (some : 0 < (k.terminals t).numProcs) : InBounds k t := by
  obtain ⟨q,held,address⟩ := VidmapPage.lastOf_held represents inside some
  obtain ⟨low,high⟩ := represents.tabled.valid q held
  refine ⟨some,?_⟩
  show VidmapPage.lastOf k t ≠ 0
  rw [address]
  exact pcbAddress_ne_zero low high

theorem switchReads_peopled (peopled : Peopled k) (termNum : Nat) : AllInBounds (switchReads k termNum) := by
  obtain ⟨⟨⟨S,represents⟩,arranged⟩,filled⟩ := peopled
  have steady := steady_of_represents represents
  unfold switchReads
  split
  · rename_i taken
    refine allInBounds_cons (inBounds_of_some represents arranged.current filled) ?_
    split
    · rename_i hidden hid
      have table := tableOf_shown hid termNum
      have shown : Represents S (tableOf (showTerminal hidden termNum)) := by rw [table]; exact represents
      have exec : (showTerminal hidden termNum).execTerm = k.execTerm := congrArg Table.execTerm table
      refine allInBounds_cons ?_ allInBounds_nil
      split
      · have running := steady_of_represents shown
        exact inBounds_of_some shown running.exec running.some
      · rename_i some
        exact inBounds_of_some shown taken.1 (Nat.pos_of_ne_zero some)
    · exact allInBounds_nil
  · exact allInBounds_nil

theorem pitReads_peopled (peopled : Peopled k) : AllInBounds (pitReads k) := by
  obtain ⟨⟨⟨S,represents⟩,_⟩,_⟩ := peopled
  have exec : k.execTerm < maxTerminals := (steady_of_represents represents).exec
  unfold pitReads
  split
  · rename_i next search
    have start : (if k.execTerm + 1 ≥ maxTerminals then 0 else k.execTerm + 1) < maxTerminals := by
      split
      · decide
      · omega
    obtain ⟨inside,_,some⟩ := nextTerminal_some start search
    exact allInBounds_cons (inBounds_of_some represents inside some) allInBounds_nil
  · exact allInBounds_nil

/-- A move of the scheduler empties no terminal. -/
theorem move_filled {S S' : Schedule} (move : Move S S') {t : Nat} (some : S.family.stack t ≠ []) :
    S'.family.stack t ≠ [] := by
  have pushed : ∀ (s : Family Nat Nat) u x fresh, s.stack t ≠ [] → (push s u x fresh).stack t ≠ [] := by
    intro s u x fresh some
    by_cases here : t = u
    · subst here; simp [push]
    · simp [push,here,some]
  cases move with
  | goes => exact some
  | calls pid fresh => exact pushed _ _ _ fresh some
  | opens u pid fresh bare => exact pushed _ _ _ fresh some
  | switches u other filled => exact some
  | returns child =>
    by_cases here : t = S.exec
    · subst here
      have left : (S.family.stack S.exec).dropLast.length ≠ 0 := by
        rw [List.length_dropLast]
        omega
      simp only [pop,Function.update_self]
      exact fun none => left (by rw [none]; rfl)
    · simp only [pop,Function.update_of_ne here]
      exact some
  | restarts pid only fresh =>
    by_cases here : t = S.exec
    · subst here; simp [push]
    · simp only [push,pop,Function.update_of_ne here]
      exact some

theorem filled_iff {S : Schedule} (represents : Represents S (tableOf k)) {t : Nat} (inside : t < maxTerminals) :
    0 < (k.terminals t).numProcs ↔ S.family.stack t ≠ [] := by
  have size : (k.terminals t).numProcs = (S.family.stack t).length := represents.tabled.sizes t inside
  rw [size]
  exact List.length_pos_iff

/-! ### The active terminal -/

theorem filled_same (filled : 0 < (activeTerm k).numProcs) (table : tableOf after = tableOf k)
    (current : after.currTerminal = k.currTerminal) : 0 < (activeTerm after).numProcs := by
  have size : (after.terminals k.currTerminal).numProcs = (k.terminals k.currTerminal).numProcs :=
    congrArg (fun T : Table => (T.procs k.currTerminal).numProcs) table
  rw [activeTerm,current,size]
  exact filled

theorem woken_filled (filled : 0 < (activeTerm k).numProcs) (t : Nat) :
    0 < (activeTerm (setTerminal k t { k.terminals t with ack := true })).numProcs :=
  filled_same filled (tableOf_ack k t) rfl

theorem draws_filled (filled : 0 < (activeTerm k).numProcs) (draws : Draws k after) : 0 < (activeTerm after).numProcs :=
  filled_same filled (tableOf_draws draws) (sameLines_draws draws).2

theorem spawned_filled (k : Kernel) (pid : Nat) (parsed : Parsed) (page : Nat → UInt8) :
    0 < ((spawned k pid parsed page).terminals k.execTerm).numProcs := by
  simp [spawned]

/-- A switch leads to a terminal that has a process, or starts one there. -/
theorem switch_filled {fuel termNum : Nat} (valid : ValidShell fs) (peopled : Peopled k)
    (switched : switchActiveTerminal fs fuel k termNum = .ok after) : 0 < (activeTerm after).numProcs := by
  obtain ⟨⟨⟨S,represents⟩,arranged⟩,filled⟩ := peopled
  obtain ⟨inside,⟨_,rfl⟩ | ⟨_,_,rfl⟩ | ⟨_,accepted,hidden,hid,resumed⟩⟩ := switchActiveTerminal_ok switched
  · exact filled
  · exact woken_filled (draws_filled filled (printf_draws k notAvailableMessage)) k.currTerminal
  · have table := tableOf_shown hid termNum
    have size := shown_numProcs table
    by_cases bare : (k.terminals termNum).numProcs = 0
    · obtain ⟨eip,executed⟩ := resume_opens (steady_of_represents represents) valid table (size.trans bare) bare
        accepted resumed
      obtain ⟨pid,parsed,page,rfl,_⟩ := execute_started executed
      exact spawned_filled (opening (showTerminal hidden termNum)) pid parsed page
    · obtain ⟨process,_,rfl⟩ := resume_maps (by omega) resumed
      obtain ⟨paging,only⟩ := remapVidmem_only (showTerminal hidden termNum) process videoMemIndex
      rw [only]
      show 0 < (activeTerm (showTerminal hidden termNum)).numProcs
      omega

theorem op_peopled {op : Op} (valid : ValidShell fs) (peopled : Peopled k) (taken : Steps.step fs k op = .ok after) :
    Peopled after := by
  refine ⟨op_displayed valid peopled.displayed taken,?_⟩
  rcases op_lines taken with ⟨⟨_,same⟩,_⟩ | ⟨fuel,termNum,_,switched⟩
  · obtain ⟨⟨⟨S,represents⟩,arranged⟩,filled⟩ := peopled
    obtain ⟨S',move,represents'⟩ := step_represents valid represents taken
    have inside := arranged.current
    have some := move_filled move ((filled_iff represents inside).mp filled)
    rw [activeTerm,same]
    exact (filled_iff represents' inside).mpr some
  · exact switch_filled valid peopled switched

theorem peopled_same (peopled : Peopled k) (displayed : Displayed after) (table : tableOf after = tableOf k)
    (current : after.currTerminal = k.currTerminal) : Peopled after :=
  ⟨displayed,filled_same peopled.filled table current⟩

theorem key_peopled {fuel : Nat} {c c2 : UInt8} (valid : ValidShell fs) (peopled : Peopled k)
    (handled : keyboardInterruptHandler fs fuel k c c2 = .ok after) : Peopled after := by
  by_cases switch : SwitchKey k.modifiers c
  · rw [handler_switch fs fuel c2 switch] at handled
    have taken : Steps.step fs k (.switchTo fuel (c - function1).toNat) = .ok after := handled
    exact op_peopled valid peopled taken
  · obtain ⟨_,table,current⟩ := handler_plain peopled.displayed.arranged switch handled
    exact peopled_same peopled (key_displayed valid peopled.displayed handled) table current

theorem advance_peopled {masked masked' : Bool} {place place' : Isolation.Place} (peopled : Peopled k)
    (advanced : advance k masked place = .ok (after,masked',place')) : Peopled after := by
  have displayed := (Isolation.advance_redrawn peopled.displayed advanced).1
  have kept : tableOf after = tableOf k ∧ after.currTerminal = k.currTerminal := by
    cases place with
    | reading r first =>
      obtain ⟨⟨line,r'⟩,_,same⟩ := bind_eq_ok.mp advanced
      cases same
      exact ⟨tableOf_setLine k _ line,rfl⟩
    | clearing n =>
      simp only [advance] at advanced
      split at advanced
      · cases advanced; exact ⟨rfl,rfl⟩
      · cases advanced; exact ⟨rfl,rfl⟩
    | setX => cases advanced; exact ⟨tableOf_draws (withScreen_draws k k.currTerminal ⟨k.phys,0,_⟩),rfl⟩
    | setY => cases advanced; exact ⟨tableOf_draws (withScreen_draws k k.currTerminal ⟨k.phys,_,0⟩),rfl⟩
    | writing text =>
      cases text with
      | nil => cases advanced; exact ⟨rfl,rfl⟩
      | cons c rest =>
        cases advanced
        exact ⟨tableOf_draws (putcBuffer_draws k c),(sameLines_draws (putcBuffer_draws k c)).2⟩
    | _ => cases advanced; exact ⟨rfl,rfl⟩
  exact peopled_same peopled displayed kept.1 kept.2

/-- Every step of the system keeps a process on the active terminal. -/
theorem system_peopled {m m' : Isolation.Machine} {e : Isolation.Event} (valid : ValidShell fs)
    (peopled : Peopled m.kernel) (taken : Isolation.step fs m e = .ok m') : Peopled m'.kernel := by
  cases e with
  | op op =>
    simp only [Isolation.step] at taken
    split at taken
    · cases taken; exact peopled
    · obtain ⟨k,stepped,same⟩ := bind_eq_ok.mp taken
      cases same
      exact op_peopled valid peopled stepped
  | key fuel c c2 =>
    simp only [Isolation.step] at taken
    split at taken
    · cases taken; exact peopled
    · obtain ⟨k,handled,same⟩ := bind_eq_ok.mp taken
      cases same
      exact key_peopled valid peopled handled
  | irq masked => cases taken; exact peopled
  | read nbytes first =>
    cases taken
    split
    · exact peopled
    · exact peopled
  | write text =>
    cases taken
    split
    · exact peopled
    · exact peopled
  | go =>
    obtain ⟨⟨k,masked,place⟩,advanced,same⟩ := bind_eq_ok.mp taken
    cases same
    exact advance_peopled peopled advanced

/-! ### Before a shell runs -/

/-- No process has been started, and the display is arranged. -/
structure Waiting (k : Kernel) : Prop where
  bare : Boot.Bare k
  arranged : Arranged k

theorem bare_draws (bare : Boot.Bare k) (draws : Draws k after) : Boot.Bare after := by
  obtain ⟨_,_,_,rfl⟩ := draws
  exact ⟨bare.exec,bare.current,bare.pids,bare.bare⟩

theorem bare_table_same (bare : Boot.Bare k) (table : tableOf after = tableOf k)
    (current : after.currTerminal = k.currTerminal) : Boot.Bare after := by
  refine ⟨(congrArg Table.execTerm table).trans bare.exec,current.trans bare.current,?_,?_⟩
  · rintro i
    exact (congrFun (congrArg Table.pids table) i).trans (bare.pids i)
  · rintro t inside
    exact (congrArg (fun T : Table => (T.procs t).numProcs) table).trans (bare.bare t inside)

/-- No terminal has a last process. -/
theorem lastProc_bare (bare : Boot.Bare k) {t address : Nat} (inside : t < maxTerminals) : lastProc k t ≠ .ok address := by
  rintro found
  have some := (lastProc_ok.mp found).1
  rw [bare.bare t inside] at some
  exact Nat.lt_irrefl 0 some

/-- A switch reads in bounds only when it leads nowhere. -/
theorem switchReads_waiting (waiting : Waiting k) {termNum : Nat} (inside : termNum < maxTerminals) :
    AllInBounds (switchReads k termNum) ↔ termNum = k.currTerminal := by
  unfold switchReads
  constructor
  · intro all
    by_contra other
    have accepted : ¬ Refused k termNum := by
      rintro ⟨none,_⟩
      rcases getAvailablePid_cases k with ⟨i,_,_,_,handed⟩ | ⟨used,_⟩
      · rw [handed] at none
        simp only at none
        omega
      · exact used 0 (by decide) (waiting.bare.pids 0)
    rw [if_pos ⟨inside,Ne.symm other,accepted⟩] at all
    have first := (all k k.currTerminal List.mem_cons_self).1
    rw [waiting.bare.bare _ waiting.arranged.current] at first
    exact Nat.not_succ_le_zero 0 first
  · intro here
    rw [if_neg fun all => all.2.1 here.symm]
    exact allInBounds_nil

theorem switch_waiting {fuel termNum : Nat} (waiting : Waiting k)
    (switched : switchActiveTerminal fs fuel k termNum = .ok after) : after = k := by
  have inside := (switchActiveTerminal_ok switched).1
  have here := (switchReads_waiting waiting inside).mp (switchReads_done switched)
  rcases (switchActiveTerminal_ok switched).2 with ⟨_,same⟩ | ⟨other,_⟩ | ⟨other,_⟩
  · exact same
  · exact absurd here.symm other
  · exact absurd here.symm other

theorem pit_waiting (waiting : Waiting k) (handled : pitInterruptHandler k = .ok after) : after = k := by
  rcases pitInterruptHandler_ok handled with same | ⟨next,_,switched⟩
  · exact same
  · obtain ⟨_,inside,found,_⟩ := contextSwitch_ok switched
    exact absurd found (lastProc_bare waiting.bare inside)

theorem pitReads_waiting (waiting : Waiting k) : AllInBounds (pitReads k) := by
  unfold pitReads
  split
  · rename_i next search
    have start : (if k.execTerm + 1 ≥ maxTerminals then 0 else k.execTerm + 1) < maxTerminals := by
      rw [waiting.bare.exec]
      decide
    obtain ⟨inside,_,some⟩ := nextTerminal_some start search
    rw [waiting.bare.bare next inside] at some
    exact absurd some (Nat.lt_irrefl 0)
  · exact allInBounds_nil

theorem key_waiting {fuel : Nat} {c c2 : UInt8} (waiting : Waiting k)
    (handled : keyboardInterruptHandler fs fuel k c c2 = .ok after) : Waiting after := by
  by_cases switch : SwitchKey k.modifiers c
  · rw [handler_switch fs fuel c2 switch] at handled
    rw [switch_waiting waiting handled]
    exact waiting
  · obtain ⟨arranged,table,current⟩ := handler_plain waiting.arranged switch handled
    exact ⟨bare_table_same waiting.bare table current,arranged⟩

/-- The keyboard and the timer leave a kernel without processes without them. -/
theorem interrupt_waiting {m m' : Isolation.Machine} {e : Isolation.Event} (waiting : Waiting m.kernel)
    (interrupts : interrupt e = true) (taken : Isolation.step fs m e = .ok m') : Waiting m'.kernel := by
  cases e with
  | key fuel c c2 =>
    simp only [Isolation.step] at taken
    split at taken
    · cases taken; exact waiting
    · obtain ⟨k,handled,same⟩ := bind_eq_ok.mp taken
      cases same
      exact key_waiting waiting handled
  | op op =>
    cases op with
    | pit =>
      obtain ⟨k,handled,same⟩ := bind_eq_ok.mp taken
      cases same
      rw [pit_waiting waiting handled]
      exact waiting
    | _ => cases interrupts
  | _ => cases interrupts

/-- The first shell is the process of the active terminal. -/
theorem started_peopled {fuel eip : Nat} (waiting : Waiting k)
    (executed : Syscalls.execute fs fuel k shellCommand = .ok (.started eip after)) : Peopled after := by
  obtain ⟨S,represents,_⟩ := first_represents waiting.bare executed
  have same : SameDisplay k after := execute_arranged waiting.arranged executed
  have current : after.currTerminal = k.currTerminal := same.current
  refine ⟨⟨⟨S,represents⟩,arranged_represents waiting.arranged represents same⟩,?_⟩
  obtain ⟨pid,parsed,page,rfl,_⟩ := execute_started executed
  have own : k.currTerminal = k.execTerm := waiting.bare.current.trans waiting.bare.exec.symm
  rw [activeTerm,current,own]
  exact spawned_filled k pid parsed page

/-- What holds before and after a statement of `entry`. -/
def Inv (fs : Fs) (k : Kernel) (stage : Stage) : Prop :=
  (stage ≠ .running ∧ Waiting k) ∨ (stage = .running ∧ Peopled k ∧ ValidShell fs)

theorem entry_inv {fuel : Nat} {stage stage' : Stage} (inv : Inv fs k stage)
    (taken : entryStep fs fuel k stage = .ok (after,stage')) : Inv fs after stage' := by
  rcases inv with ⟨notRunning,waiting⟩ | ⟨running,peopled,valid⟩
  · obtain ⟨bare,arranged⟩ := waiting
    have inRange := arranged.inRange _ arranged.current
    cases stage with
    | clearing n =>
      simp only [entryStep] at taken
      split at taken
      · rename_i more
        cases taken
        have within : n < pageSize := by
          simp only [clearStores,numRows,numCols] at more
          simp only [pageSize]
          omega
        have stored := (store_screens arranged arranged.current (visible_window arranged) within
          (Isolation.clearByte (activeTerm k).attrib n)).1
        exact .inl ⟨by rintro ⟨⟩,⟨bare.exec,bare.current,bare.pids,bare.bare⟩,stored⟩
      · cases taken
        exact .inl ⟨by rintro ⟨⟩,bare,arranged⟩
    | setX =>
      cases taken
      have placed := (place_screens arranged (x := 0) arranged.current columns_pos inRange.2).1
      exact .inl ⟨by rintro ⟨⟩,bare_draws bare (withScreen_draws k k.currTerminal ⟨k.phys,0,_⟩),placed⟩
    | setY =>
      cases taken
      have placed := (place_screens arranged (y := 0) arranged.current inRange.1 (by decide)).1
      exact .inl ⟨by rintro ⟨⟩,bare_draws bare (withScreen_draws k k.currTerminal ⟨k.phys,_,0⟩),placed⟩
    | moveCursor =>
      cases taken
      have moved := updateCursor_same k (activeTerm k).xPos (activeTerm k).yPos
      exact .inl ⟨by rintro ⟨⟩,bare_draws bare (updateCursor_draws k _ _),
        arranged_same arranged moved arranged.exec arranged.vids⟩
    | fsInit => cases taken; exact .inl ⟨by rintro ⟨⟩,bare,arranged⟩
    | execute =>
      obtain ⟨result,executed,ended⟩ := bind_eq_ok.mp taken
      cases result with
      | started eip k' =>
        cases ended
        exact .inr ⟨rfl,started_peopled ⟨bare,arranged⟩ executed,execute_valid executed⟩
      | returned value k' =>
        cases ended
        rw [execute_quiet executed (show 0 < maxProcesses by decide) (bare.pids 0)]
        exact .inl ⟨by rintro ⟨⟩,bare,arranged⟩
    | running => exact absurd rfl notRunning
    | returned => cases taken; exact .inl ⟨notRunning,bare,arranged⟩
  · subst running
    cases taken
    exact .inr ⟨rfl,peopled,valid⟩

/-! ### Runs -/

theorem step_inv {m m' : Machine} {e : Event} (inv : Inv fs m.kernel m.stage) (taken : step fs m e = .ok m') :
    Inv fs m'.kernel m'.stage := by
  cases e with
  | entry fuel =>
    obtain ⟨⟨k,stage⟩,advanced,same⟩ := bind_eq_ok.mp taken
    cases same
    exact entry_inv inv advanced
  | system e =>
    simp only [step] at taken
    split at taken
    · rename_i allowed
      obtain ⟨system,stepped,same⟩ := bind_eq_ok.mp taken
      cases same
      rcases inv with ⟨notRunning,waiting⟩ | ⟨running,peopled,valid⟩
      · exact .inl ⟨notRunning,interrupt_waiting waiting (allowed.resolve_left notRunning) stepped⟩
      · exact .inr ⟨running,system_peopled valid peopled stepped,valid⟩
    · cases taken
      exact inv

theorem switchKey_inside {m : Modifiers} {c : UInt8} (switch : SwitchKey m c) : (c - function1).toNat < maxTerminals := by
  obtain ⟨_,low,high⟩ := switch
  have most := UInt8.le_iff_toNat_le.mp high
  rw [UInt8.toNat_sub_of_le _ _ low]
  simp only [function1,function3,maxTerminals] at *
  have last : (0x3D : UInt8).toNat = 61 := by decide
  have first : (0x3B : UInt8).toNat = 59 := by decide
  omega

theorem reads_peopled {m : Machine} (e : Event) (peopled : Peopled m.kernel) : AllInBounds (reads m e) := by
  have switches : ∀ (taken : Prop) [Decidable taken] termNum,
      AllInBounds (if taken then switchReads m.kernel termNum else []) := by
    intro taken _ termNum
    by_cases holds : taken
    · rw [if_pos holds]
      exact switchReads_peopled peopled termNum
    · rw [if_neg holds]
      exact allInBounds_nil
  cases e with
  | entry fuel => exact allInBounds_nil
  | system e =>
    cases e with
    | key fuel c c2 => exact switches _ _
    | op op =>
      cases op with
      | pit => exact pitReads_peopled peopled
      | switchTo fuel termNum => exact switches _ termNum
      | _ => exact allInBounds_nil
    | _ => exact allInBounds_nil

theorem reads_waiting {m : Machine} (e : Event) (notRunning : m.stage ≠ .running) (waiting : Waiting m.kernel) :
    AllInBounds (reads m e) ↔ NoEarlySwitch m e := by
  cases e with
  | entry fuel => exact iff_of_true allInBounds_nil trivial
  | system e =>
    cases e with
    | key fuel c c2 =>
      simp only [reads,NoEarlySwitch,notRunning,false_or]
      by_cases handled : m.system.masked = false ∧ SwitchKey m.kernel.modifiers c
      · rw [if_pos handled,switchReads_waiting waiting (switchKey_inside handled.2)]
        simp [handled.1,handled.2]
      · rw [if_neg handled]
        refine iff_of_true allInBounds_nil ?_
        rcases not_and_or.mp handled with masked | plain
        · exact .inl (by simpa using masked)
        · exact .inr (.inl plain)
    | op op =>
      cases op with
      | pit => exact iff_of_true (pitReads_waiting waiting) trivial
      | switchTo fuel termNum =>
        simp only [reads,if_neg notRunning]
        exact iff_of_true allInBounds_nil trivial
      | _ => exact iff_of_true allInBounds_nil trivial
    | _ => exact iff_of_true allInBounds_nil trivial

/-- The reads of a step are in bounds exactly when it is no early switch. -/
theorem step_iff {m : Machine} (e : Event) (inv : Inv fs m.kernel m.stage) : ReadsInBounds m e ↔ NoEarlySwitch m e := by
  rcases inv with ⟨notRunning,waiting⟩ | ⟨running,peopled,_⟩
  · exact reads_waiting e notRunning waiting
  · refine iff_of_true (reads_peopled e peopled) ?_
    unfold NoEarlySwitch
    split
    · exact .inl running
    · exact trivial

theorem booting_inv {m : Machine} (booting : Booting m) : Inv fs m.kernel m.stage := by
  obtain ⟨memory,same⟩ := booting.kernel
  rw [same,booting.stage]
  exact .inl ⟨by rintro ⟨⟩,Boot.idle_bare (Boot.atSti_idle memory),atSti_arranged memory⟩

end

/-- In every run from the `sti` of `entry`, each read of the last process of a
    terminal by a switch of either kind is in bounds exactly when no key that
    switches to another terminal is handled before the first shell runs. -/
theorem reads_in_bounds_iff {fs : Fs} {first : Machine} (booting : Booting first) (events : List Event) :
    EachStep (step fs) ReadsInBounds first events ↔ EachStep (step fs) NoEarlySwitch first events := by
  have keeps : ∀ (m : Machine) e after, Inv fs m.kernel m.stage → step fs m e = .ok after →
      Inv fs after.kernel after.stage :=
    fun m e after inv taken => step_inv inv taken
  have same : ∀ (m : Machine) e, Inv fs m.kernel m.stage → (ReadsInBounds m e ↔ NoEarlySwitch m e) :=
    fun m e inv => step_iff e inv
  exact eachStep_iff keeps same (booting_inv booting) events

/-- The machine at the `sti`, with a kernel. -/
def waitingMachine (k : Kernel) : Machine := ⟨Isolation.quiet k,.clearing 0⟩

theorem waitingMachine_booting (memory : Kernel) : Booting (waitingMachine (Boot.atSti memory)) :=
  ⟨⟨memory,rfl⟩,rfl,fun _ => rfl,rfl⟩

theorem reads_in_bounds_timer : ∃ first, Booting first ∧
    EachStep (step ReadData.shellFs) ReadsInBounds first [.entry 253,.system (.op .pit),.system (.key 0 scanA 0)] := by
  refine ⟨waitingMachine (Boot.atSti default),waitingMachine_booting default,?_⟩
  refine (reads_in_bounds_iff (waitingMachine_booting default) _).mpr ?_
  have plain : ∀ m : Machine, NoEarlySwitch m (.system (.key 0 scanA 0)) := by
    intro m
    refine .inr (.inr (.inl ?_))
    rintro ⟨_,low,_⟩
    exact absurd low (by decide)
  exact ⟨trivial,fun _ _ => ⟨trivial,fun _ _ => ⟨plain _,fun _ _ => trivial⟩⟩⟩

/-- Alt and F2 right after the `sti`: the hidden terminal has no process. -/
theorem reads_in_bounds_fails : ∃ first, Booting first ∧
    ¬ EachStep (step ReadData.shellFs) ReadsInBounds first
      [.system (.key 0 altPressed 0),.system (.key 0 (function1 + 1) 0)] := by
  refine ⟨waitingMachine (Boot.atSti default),waitingMachine_booting default,?_⟩
  have waiting : Waiting (Boot.atSti default) :=
    ⟨Boot.idle_bare (Boot.atSti_idle default),atSti_arranged default⟩
  generalize Boot.atSti default = k at waiting
  have pressed : step ReadData.shellFs (waitingMachine k) (.system (.key 0 altPressed 0)) =
      .ok (waitingMachine { k with modifiers := { k.modifiers with lAlt := true } }) := rfl
  rintro ⟨_,all⟩
  have read := (all _ pressed).1
  have waiting' : Waiting { k with modifiers := { k.modifiers with lAlt := true } } :=
    ⟨bare_table_same waiting.bare rfl rfl,
      arranged_same waiting.arranged (unchanged_same rfl rfl rfl rfl) waiting.arranged.exec waiting.arranged.vids⟩
  have early := (reads_waiting (m := waitingMachine _) _ (by rintro ⟨⟩) waiting').mp read
  rcases early with running | masked | plain | here
  · cases running
  · cases masked
  · exact plain ⟨by simp [altHeld,waitingMachine,Isolation.quiet,Machine.kernel],by decide,by decide⟩
  · have current : k.currTerminal = 0 := waiting.bare.current
    have target : (function1 + 1 - function1).toNat = k.currTerminal := here
    rw [current] at target
    revert target
    decide

end MazeOS.LastProcess
