import MazeOS.Keyboard
import MazeOS.Boot

/-!
The machine of `keyboard_read`: the kernel, the mask of the keyboard interrupt,
and for each terminal the statement that a call of its process is at. The
keyboard interrupt, the timer and terminal switches may come between any two
statements. `step_line` says what an event does to the line and the call of one
terminal: nothing, an input that is handled for it (`handled`), the start of a
call, or one statement (`statement`).
-/
namespace MazeOS.KeyboardRead
open MazeOS.Runs MazeOS.Bytes MazeOS.Faults MazeOS.Filesystem MazeOS.Paging MazeOS.State MazeOS.Display MazeOS.Process
  MazeOS.Files MazeOS.Syscalls MazeOS.Terminal MazeOS.Steps MazeOS.Boot MazeOS.Keyboard

/-! ### The statements of a call -/

/-- The next statement of `keyboard_read`. -/
inductive Place where
  | idle
  | setReadAck
  | clearAck
  | wait
  | resetAck
  | resetReadAck
  | disable
  | measure
  | copy
  | wipe
  | empty
  | enable
  | leave
  deriving DecidableEq, Inhabited

/-- A call of `keyboard_read` with its local variables, and the bytes that it has
    delivered. -/
structure Reader where
  place : Place
  nbytes : Nat
  size : Nat
  delivered : List UInt8
  deriving Inhabited

/-- One statement of `keyboard_read`, on the line of its terminal. -/
def statement (line : Line) (r : Reader) : Checked (Line × Reader) :=
  match r.place with
  | .idle => .ok (line,r)
  | .setReadAck => .ok ({ line with readAck := true },{ r with place := .clearAck })
  | .clearAck => .ok ({ line with ack := false },{ r with place := .wait })
  | .wait => .ok (line,{ r with place := if line.ack then .resetAck else .wait })
  | .resetAck => .ok ({ line with ack := false },{ r with place := .resetReadAck })
  | .resetReadAck => .ok ({ line with readAck := false },{ r with place := .disable })
  | .disable => .ok (line,{ r with place := .measure })
  | .measure => .ok (line,{ r with
      place := .copy
      size := if line.bufferSize < r.nbytes then line.bufferSize else r.nbytes })
  | .copy =>
    if r.size ≤ maxBufferSize then .ok (line,{ r with place := .wipe, delivered := taken line.buffer r.size })
    else .error (.overrun r.size)
  | .wipe => .ok ({ line with buffer := fun _ => 0 },{ r with place := .empty })
  | .empty => .ok ({ line with bufferSize := 0 },{ r with place := .enable })
  | .enable => .ok (line,{ r with place := .leave })
  | .leave => .ok (line,{ r with place := .idle })

/-- The mask of the keyboard interrupt after a statement. -/
def maskAfter (masked : Bool) : Place → Bool
  | .disable => true
  | .enable => false
  | _ => masked

/-! ### The machine -/

structure Machine where
  kernel : Kernel
  masked : Bool
  readers : Nat → Reader

/-- The line and the call of a terminal. -/
def Machine.line (m : Machine) (t : Nat) : Line := lineOf m.kernel t

/-- The executing process is inside `keyboard_read`. -/
def Machine.Busy (m : Machine) : Prop := (m.readers m.kernel.execTerm).place ≠ .idle

instance (m : Machine) : Decidable m.Busy := inferInstanceAs (Decidable (_ ≠ _))

inductive Event where
  | op (op : Op)
  /-- The keyboard interrupt, with the two bytes that its handler reads. -/
  | key (fuel : Nat) (c c2 : UInt8)
  | call (nbytes : Int)
  /-- The executing process goes on in `keyboard_read`. -/
  | read
  /-- The keyboard is masked or unmasked by other code: `terminal_write`, or a
      handler that goes on after the switch it made started a shell. -/
  | irq (masked : Bool)

/-- The events of a process that is not inside `keyboard_read`. -/
def ownCall : Op → Bool
  | .execute _ _ | .halt _ _ | .exception _ _ | .vidmap _ => true
  | .trap | .frame _ _ | .pit | .switchTo _ _ => false

def readStep (m : Machine) : Checked Machine :=
  statement (m.line m.kernel.execTerm) (m.readers m.kernel.execTerm) >>= fun (line,r) =>
    .ok { m with
      kernel := setLine m.kernel m.kernel.execTerm line
      masked := maskAfter m.masked (m.readers m.kernel.execTerm).place
      readers := Function.update m.readers m.kernel.execTerm r }

/-- One step. An event that cannot occur leaves the machine as it is: a masked
    interrupt waits, and a process inside `keyboard_read` calls nothing else. -/
def step (fs : Fs) (m : Machine) : Event → Checked Machine
  | .op op =>
    if ownCall op ∧ m.Busy then .ok m
    else Steps.step fs m.kernel op >>= fun k => .ok { m with kernel := k }
  | .key fuel c c2 =>
    if m.masked then .ok m
    else keyboardInterruptHandler fs fuel m.kernel c c2 >>= fun k => .ok { m with kernel := k }
  | .call nbytes =>
    if m.Busy then .ok m
    else .ok { m with readers := Function.update m.readers m.kernel.execTerm ⟨.setReadAck,unsigned nbytes,0,[]⟩ }
  | .read => readStep m
  | .irq masked => .ok { m with masked := masked }

/-! ### Inputs -/

/-- What is handled for a terminal: a stroke, or a refused terminal switch. -/
inductive Input where
  | stroke (stroke : Stroke)
  | refused
  deriving DecidableEq

def inputLine (line : Line) : Input → Checked Line
  | .stroke stroke => strokeLine line stroke
  | .refused => .ok (wake line)

/-- A switch of the active terminal that is refused. -/
def RefusedSwitch (k : Kernel) (termNum : Nat) : Prop := k.currTerminal ≠ termNum ∧ Refused k termNum

instance (k : Kernel) (termNum : Nat) : Decidable (RefusedSwitch k termNum) := inferInstanceAs (Decidable (_ ∧ _))

/-- The input that an event handles for the active terminal. -/
def handled (m : Machine) : Event → Option Input
  | .key _ c c2 =>
    if m.masked then none
    else
      match strokeOf m.kernel c c2 with
      | some stroke => some (.stroke stroke)
      | none =>
        if SwitchKey m.kernel.modifiers c ∧ RefusedSwitch m.kernel (c - function1).toNat then some .refused else none
  | .op (.switchTo _ termNum) => if RefusedSwitch m.kernel termNum then some .refused else none
  | _ => none

/-- Only keys make strokes. -/
theorem handled_stroke {m : Machine} {e : Event} {stroke : Stroke} (handles : handled m e = some (.stroke stroke)) :
    ∃ c c2, strokeOf m.kernel c c2 = some stroke := by
  cases e with
  | key fuel c c2 =>
    simp only [handled] at handles
    split at handles
    · cases handles
    · split at handles
      · rename_i means
        cases handles
        exact ⟨c,c2,means⟩
      · split at handles <;> cases handles
  | op op =>
    cases op with
    | switchTo fuel termNum =>
      simp only [handled] at handles
      split at handles <;> cases handles
    | _ => cases handles
  | _ => cases handles

/-! ### What leaves the lines alone -/

/-- No line has changed, and the same terminal is active. -/
def SameLines (k after : Kernel) : Prop := lineOf after = lineOf k ∧ after.currTerminal = k.currTerminal

section
variable {k l after : Kernel}

theorem sameLines_trans (first : SameLines k l) (second : SameLines l after) : SameLines k after :=
  ⟨second.1.trans first.1,second.2.trans first.2⟩

theorem sameLines_draws (draws : Draws k after) : SameLines k after := by
  obtain ⟨_,_,_,rfl⟩ := draws
  exact ⟨rfl,rfl⟩

/-- A terminal is overwritten, but for its line. -/
theorem sameLines_update {t : Nat} {terminal : State.Terminal}
    (terminals : after.terminals = Function.update k.terminals t terminal)
    (line : terminal.toLine = lineOf k t) (current : after.currTerminal = k.currTerminal) : SameLines k after := by
  refine ⟨?_,current⟩
  funext u
  rw [lineOf,terminals]
  by_cases here : u = t
  · subst here; rw [Function.update_self]; exact line
  · rw [Function.update_of_ne here]; rfl

theorem sameLines_execute {fs : Fs} {fuel : Nat} {command : Command} {result : Executed}
    (executed : Syscalls.execute fs fuel k command = .ok result) :
    match result with
    | .returned _ after => SameLines k after
    | .started _ after => SameLines k after := by
  cases result with
  | returned value after => exact sameLines_draws (execute_returned executed)
  | started eip after =>
    obtain ⟨pid,parsed,page,same,_⟩ := execute_started executed
    simp only [same]
    exact sameLines_update rfl rfl rfl

theorem freePid_lines (k : Kernel) (pid : Nat) : SameLines k (freePid k pid).2 := by
  simp only [freePid]
  split
  · exact ⟨rfl,rfl⟩
  · split
    · exact ⟨rfl,rfl⟩
    · exact ⟨rfl,rfl⟩

theorem releaseProcess_lines (k : Kernel) (pcb : Pcb) : SameLines k (releaseProcess k pcb) := by
  have freed := freePid_lines k pcb.pid
  unfold releaseProcess
  simp only
  generalize freePid k pcb.pid = result at freed
  have printed : SameLines k (if result.1 ≠ 0 then printf result.2 freeFailedMessage else result.2) := by
    split
    · exact sameLines_trans freed (sameLines_draws (printf_draws _ _))
    · exact freed
  generalize (if result.1 ≠ 0 then printf result.2 freeFailedMessage else result.2) = l at printed
  split
  · exact sameLines_trans printed ⟨rfl,rfl⟩
  · exact printed

theorem halt_lines {fs : Fs} {fuel : Nat} {status : UInt8} (halted : Syscalls.halt fs fuel k status = .ok after) :
    SameLines k after := by
  simp only [Syscalls.halt] at halted
  obtain ⟨_,_,halted⟩ := bind_eq_ok.mp halted
  obtain ⟨popped,pops,halted⟩ := bind_eq_ok.mp halted
  have released := releaseProcess_lines k (k.pcbs (getPcb k))
  generalize releaseProcess k (k.pcbs (getPcb k)) = l at released pops
  have gone : SameLines l popped := by
    rw [popProcess_ok pops]
    exact sameLines_update rfl rfl rfl
  have left := sameLines_trans released gone
  split at halted
  · obtain ⟨result,executed,ended⟩ := bind_eq_ok.mp halted
    have cleared := sameLines_trans left (sameLines_draws (clearSetpos_draws popped 0 0))
    have spawns := sameLines_execute executed
    cases result with
    | returned _ _ => cases ended
    | started _ _ =>
      cases ended
      exact sameLines_trans cleared spawns
  · cases halted
    exact sameLines_trans left ⟨rfl,rfl⟩

theorem exception_lines {fs : Fs} {fuel : Nat} {text : List UInt8}
    (raised : Syscalls.exception fs fuel k text = .ok after) : SameLines k after := by
  have printed := sameLines_draws (printf_draws k text)
  unfold Syscalls.exception at raised
  generalize printf k text = l at printed raised
  simp only at raised
  have marked : SameLines l (setPcb l (getPcb l) { l.pcbs (getPcb l) with retval := returnException }) := ⟨rfl,rfl⟩
  exact sameLines_trans printed (sameLines_trans marked (halt_lines raised))

theorem remapVidmem_lines (k : Kernel) (process frame : Nat) : SameLines k (remapVidmem k process frame) := by
  simp only [remapVidmem]
  split
  · exact ⟨rfl,rfl⟩
  · exact ⟨rfl,rfl⟩

theorem resume_lines {fs : Fs} {fuel : Nat} (resumed : resumeTerminal fs fuel k = .ok after) : SameLines k after := by
  simp only [resumeTerminal] at resumed
  split at resumed
  · obtain ⟨running,_,resumed⟩ := bind_eq_ok.mp resumed
    obtain ⟨result,executed,ended⟩ := bind_eq_ok.mp resumed
    have spawns := sameLines_execute executed
    cases result with
    | returned _ _ => cases ended; exact sameLines_trans ⟨rfl,rfl⟩ spawns
    | started _ _ => cases ended; exact sameLines_trans ⟨rfl,rfl⟩ spawns
  · obtain ⟨process,_,ended⟩ := bind_eq_ok.mp resumed
    cases ended
    exact remapVidmem_lines k process videoMemIndex

theorem woken_lines (k : Kernel) (t : Nat) :
    lineOf (setTerminal k t { k.terminals t with ack := true }) = Function.update (lineOf k) t (wake (lineOf k t)) ∧
      (setTerminal k t { k.terminals t with ack := true }).currTerminal = k.currTerminal := by
  refine ⟨?_,rfl⟩
  funext u
  by_cases here : u = t
  · subst here; simp [lineOf,setTerminal,wake]
  · simp [lineOf,setTerminal,here]

/-- A switch leaves the lines alone, unless it is refused, and then wakes the
    reader of the active terminal. -/
theorem switch_lines {fs : Fs} {fuel termNum : Nat} (switched : switchActiveTerminal fs fuel k termNum = .ok after) :
    (¬ RefusedSwitch k termNum ∧ lineOf after = lineOf k ∧
      (after.currTerminal = k.currTerminal ∨ after.currTerminal < maxTerminals)) ∨
    (RefusedSwitch k termNum ∧ after.currTerminal = k.currTerminal ∧
      lineOf after = Function.update (lineOf k) k.currTerminal (wake (lineOf k k.currTerminal))) := by
  obtain ⟨inside,⟨here,rfl⟩ | ⟨other,refused,same⟩ | ⟨other,accepted,hidden,hid,resumed⟩⟩ :=
    switchActiveTerminal_ok switched
  · exact .inl ⟨fun both => both.1 here,rfl,.inl rfl⟩
  · refine .inr ⟨⟨other,refused⟩,?_⟩
    obtain ⟨lines,current⟩ := sameLines_draws (printf_draws k notAvailableMessage)
    obtain ⟨woken,current'⟩ := woken_lines (printf k notAvailableMessage) k.currTerminal
    rw [same,woken,lines]
    exact ⟨current'.trans current,rfl⟩
  · refine .inl ⟨fun both => accepted both.2,?_⟩
    obtain ⟨process,_,hides⟩ := hideActive_ok hid
    have saved : SameLines k hidden := by
      rw [hides]
      exact sameLines_trans ⟨rfl,rfl⟩ (remapVidmem_lines (backedUp k) _ _)
    obtain ⟨lines,current⟩ := resume_lines resumed
    refine ⟨lines.trans saved.1,.inr ?_⟩
    rw [current]
    exact inside

/-- What a step of the processes does to the lines. -/
theorem op_lines {fs : Fs} {op : Op} (stepped : Steps.step fs k op = .ok after) :
    (SameLines k after ∧ ∀ fuel termNum, op ≠ .switchTo fuel termNum) ∨
    ∃ fuel termNum, op = .switchTo fuel termNum ∧ switchActiveTerminal fs fuel k termNum = .ok after := by
  cases op with
  | trap => cases stepped; exact .inl ⟨⟨rfl,rfl⟩,by simp⟩
  | frame esp ebp =>
    simp only [Steps.step] at stepped
    split at stepped
    · cases stepped; exact .inl ⟨⟨rfl,rfl⟩,by simp⟩
    · cases stepped
  | execute fuel command =>
    obtain ⟨result,executed,ended⟩ := bind_eq_ok.mp stepped
    have spawns := sameLines_execute executed
    cases result with
    | returned _ _ => cases ended; exact .inl ⟨spawns,by simp⟩
    | started _ _ => cases ended; exact .inl ⟨spawns,by simp⟩
  | halt fuel status => exact .inl ⟨halt_lines stepped,by simp⟩
  | exception fuel text => exact .inl ⟨exception_lines stepped,by simp⟩
  | vidmap screenStart =>
    cases stepped
    refine .inl ⟨?_,by simp⟩
    simp only [Syscalls.vidmap]
    split
    · exact ⟨rfl,rfl⟩
    · exact ⟨rfl,rfl⟩
  | pit =>
    refine .inl ⟨?_,by simp⟩
    rcases pitInterruptHandler_ok stepped with rfl | ⟨next,_,switched⟩
    · exact ⟨rfl,rfl⟩
    · obtain ⟨newPcb,_,_,rfl⟩ := contextSwitch_ok switched
      exact ⟨rfl,rfl⟩
  | switchTo fuel termNum => exact .inr ⟨fuel,termNum,rfl,stepped⟩

end

/-! ### What an event does to a line -/

section
variable {fs : Fs} {m m' : Machine} {e : Event}

theorem setLine_lineOf (k : Kernel) (t : Nat) (line : Line) :
    lineOf (setLine k t line) = Function.update (lineOf k) t line := by
  funext u
  by_cases here : u = t
  · subst here; simp [lineOf,setLine,setTerminal]
  · simp [lineOf,setLine,setTerminal,here]

/-- What an event does to the line and the call of a terminal. -/
inductive Happens (m : Machine) (e : Event) (t : Nat) (line : Line) (r : Reader) : Prop
  | nothing (unhandled : m.kernel.currTerminal = t → handled m e = none) (notRead : e = .read → m.kernel.execTerm ≠ t)
      (line : line = m.line t) (reader : r = m.readers t)
  | input (input : Input) (active : m.kernel.currTerminal = t) (handles : handled m e = some input)
      (edits : inputLine (m.line t) input = .ok line) (reader : r = m.readers t)
  | call (nbytes : Int) (event : e = .call nbytes) (idle : (m.readers t).place = .idle)
      (line : line = m.line t) (reader : r = ⟨.setReadAck,unsigned nbytes,0,[]⟩)
  | read (event : e = .read) (executing : m.kernel.execTerm = t)
      (goes : statement (m.line t) (m.readers t) = .ok (line,r))

theorem switch_happens {k : Kernel} {fuel termNum : Nat}
    (switched : switchActiveTerminal fs fuel m.kernel termNum = .ok k)
    (handles : handled m e = if RefusedSwitch m.kernel termNum then some .refused else none) (notRead : e ≠ .read)
    (t : Nat) : Happens m e t (lineOf k t) (m.readers t) := by
  rcases switch_lines switched with ⟨accepted,lines,_⟩ | ⟨refused,_,lines⟩
  · refine .nothing (fun _ => handles.trans (if_neg accepted)) (fun same => absurd same notRead) ?_ rfl
    rw [lines]
    rfl
  · by_cases active : m.kernel.currTerminal = t
    · refine .input .refused active (handles.trans (if_pos refused)) ?_ rfl
      subst active
      simp only [Machine.line,inputLine,lines,Function.update_self]
    · refine .nothing (fun here => absurd here active) (fun same => absurd same notRead) ?_ rfl
      simp only [Machine.line,lines,Function.update_of_ne (Ne.symm active)]

theorem key_happens {fuel : Nat} {c c2 : UInt8} (stepped : step fs m (.key fuel c c2) = .ok m') (t : Nat) :
    Happens m (.key fuel c c2) t (m'.line t) (m'.readers t) := by
  simp only [step] at stepped
  by_cases masked : m.masked = true
  · rw [if_pos masked] at stepped
    cases stepped
    exact .nothing (fun _ => by simp only [handled,masked,if_true]) (by simp) rfl rfl
  · rw [if_neg masked] at stepped
    obtain ⟨k,result,same⟩ := bind_eq_ok.mp stepped
    cases same
    cases means : strokeOf m.kernel c c2 with
    | some stroke =>
      have edits := handler_stroke fs fuel means
      rw [result] at edits
      cases edited : strokeLine (lineOf m.kernel m.kernel.currTerminal) stroke with
      | error fault =>
        rw [edited] at edits
        cases edits
      | ok line =>
        rw [edited] at edits
        obtain ⟨after,same,draws⟩ := edits
        cases same
        have lines : lineOf k = Function.update (lineOf m.kernel) m.kernel.currTerminal line := by
          rw [(sameLines_draws draws).1,setLine_lineOf]
        have handles : handled m (.key fuel c c2) = some (.stroke stroke) := by
          simp only [handled,masked,means,Bool.false_eq_true,if_false]
        by_cases active : m.kernel.currTerminal = t
        · refine .input (.stroke stroke) active handles ?_ rfl
          subst active
          simp only [Machine.line,inputLine,edited,lines,Function.update_self]
        · refine .nothing (fun here => absurd here active) (by simp) ?_ rfl
          simp only [Machine.line,lines,Function.update_of_ne (Ne.symm active)]
    | none =>
      rcases handler_other fs fuel means with ⟨switch,switches⟩ | ⟨noSwitch,modifiers,unchanged⟩
      · rw [switches] at result
        refine switch_happens result ?_ (by simp) t
        simp only [handled,masked,means,switch,Bool.false_eq_true,if_false,true_and]
      · rw [unchanged] at result
        cases result
        refine .nothing (fun _ => ?_) (by simp) rfl rfl
        simp only [handled,masked,means,noSwitch,Bool.false_eq_true,if_false,false_and]

theorem read_happens (stepped : step fs m .read = .ok m') (t : Nat) :
    Happens m .read t (m'.line t) (m'.readers t) := by
  obtain ⟨⟨line,r⟩,goes,same⟩ := bind_eq_ok.mp stepped
  cases same
  by_cases executing : m.kernel.execTerm = t
  · refine .read rfl executing ?_
    subst executing
    simp only [Machine.line,setLine_lineOf,Function.update_self]
    exact goes
  · refine .nothing (fun _ => rfl) (fun _ => executing) ?_ ?_
    · simp only [Machine.line,setLine_lineOf,Function.update_of_ne (Ne.symm executing)]
    · simp only [Function.update_of_ne (Ne.symm executing)]

/-- An event does nothing to the line and the call of a terminal, or handles an
    input for it, starts its call, or executes a statement of it. -/
theorem step_happens (stepped : step fs m e = .ok m') (t : Nat) : Happens m e t (m'.line t) (m'.readers t) := by
  cases e with
  | key fuel c c2 => exact key_happens stepped t
  | read => exact read_happens stepped t
  | irq masked => cases stepped; exact .nothing (fun _ => rfl) (by simp) rfl rfl
  | call nbytes =>
    simp only [step] at stepped
    split at stepped
    · cases stepped; exact .nothing (fun _ => rfl) (by simp) rfl rfl
    · rename_i free
      cases stepped
      by_cases executing : t = m.kernel.execTerm
      · subst executing
        exact .call nbytes rfl (not_not.mp free) rfl (by simp)
      · exact .nothing (fun _ => rfl) (by simp) rfl (by simp [executing])
  | op op =>
    simp only [step] at stepped
    split at stepped
    · rename_i blocked
      cases stepped
      refine .nothing (fun _ => ?_) (by simp) rfl rfl
      cases op <;> first | rfl | exact absurd blocked.1 (by simp [ownCall])
    · obtain ⟨k,taken,same⟩ := bind_eq_ok.mp stepped
      cases same
      rcases op_lines taken with ⟨⟨lines,_⟩,notSwitch⟩ | ⟨fuel,termNum,rfl,switched⟩
      · refine .nothing (fun _ => ?_) (by simp) (congrFun lines t) rfl
        cases op with
        | switchTo fuel termNum => exact absurd rfl (notSwitch fuel termNum)
        | _ => rfl
      · exact switch_happens switched rfl (by simp) t

end

/-! ### The first shell -/

/-- The machine when the first shell has been started, and no process reads. -/
structure Booted (fs : Fs) (m : Machine) : Prop where
  started : Started fs m.kernel
  unmasked : m.masked = false
  idle : ∀ t, (m.readers t).place = .idle

theorem booted_line {fs : Fs} {m : Machine} (booted : Booted fs m) {t : Nat} (inside : t < maxTerminals) :
    m.line t = emptyLine := (started_crowd booted.started).lines t inside

/-- The machine with a kernel in which no process reads. -/
def quietMachine (k : Kernel) : Machine := ⟨k,false,fun _ => default⟩

theorem quietMachine_booted {fs : Fs} {k : Kernel} (started : Started fs k) : Booted fs (quietMachine k) :=
  ⟨started,rfl,fun _ => rfl⟩

end MazeOS.KeyboardRead
