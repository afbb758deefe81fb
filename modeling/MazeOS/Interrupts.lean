import MazeOS.Controllers
import MazeOS.InterruptMask
import MazeOS.Gates

/-!
Interrupts from the request of a device to the end of its handler. The machine has
the two controllers, the interrupt flag, and on each kernel stack the statements of
the handlers and calls in progress that touch either of them. Devices request,
interrupts are delivered, processes call, fault and are switched in any order. The
masks are those of the controllers of `InterruptMask` (`outb_follows`).
-/
namespace MazeOS.Interrupts
open MazeOS.Runs MazeOS.Controllers MazeOS.Gates
open MazeOS.InterruptMask (master8259Port slave8259Port portOf pinOf icw1 icw2Master icw2Slave icw3Master icw3Slave icw4
  eoi)

/-! ### The controllers behind their ports -/

/-- The line of the master that the slave is on. -/
def cascade : Fin 8 := line 2

@[simp] theorem cascade_val : cascade.val = 2 := rfl

/-- `inb`. -/
def inb (p : Pair) (port : Nat) : Byte :=
  if port = master8259Port then (p.wired cascade).read
  else if port = master8259Port + 1 then p.master.imr
  else if port = slave8259Port then p.slave.read
  else if port = slave8259Port + 1 then p.slave.imr
  else 0

/-- `outb`. -/
def outb (p : Pair) (value : Byte) (port : Nat) : Option Pair :=
  if port = master8259Port then (p.master.command value).map fun c => { p with master := c }
  else if port = master8259Port + 1 then (p.master.data value).map fun c => { p with master := c }
  else if port = slave8259Port then (p.slave.command value).map fun c => { p with slave := c }
  else if port = slave8259Port + 1 then (p.slave.data value).map fun c => { p with slave := c }
  else some p

/-- `i8259_init`. -/
def i8259Init (p : Pair) : Option Pair := do
  let masterMask := inb p master8259Port
  let slaveMask := inb p slave8259Port
  let p ← outb p 0xFF (master8259Port + 1)
  let p ← outb p 0xFF (slave8259Port + 1)
  let p ← outb p icw1 master8259Port
  let p ← outb p icw2Master (master8259Port + 1)
  let p ← outb p icw3Master (master8259Port + 1)
  let p ← outb p icw4 (master8259Port + 1)
  let p ← outb p icw1 slave8259Port
  let p ← outb p icw2Slave (slave8259Port + 1)
  let p ← outb p icw3Slave (slave8259Port + 1)
  let p ← outb p icw4 (slave8259Port + 1)
  let p ← outb p masterMask (master8259Port + 1)
  outb p slaveMask (slave8259Port + 1)

/-- A controller of `InterruptMask`, which has no priorities, with the masks of a chip. -/
def Follows (q : InterruptMask.Controller) (c : Chip) : Prop := q.imr = c.imr ∧ q.expected = c.awaiting.length

section
variable {q : InterruptMask.Controller} {c c' : Chip} {value : Byte}

theorem ocw2_keeps (c : Chip) (value : Byte) : (c.ocw2 value).imr = c.imr ∧ (c.ocw2 value).awaiting = c.awaiting := by
  have highest (rotate : Bool) :
      (c.finishHighest rotate).imr = c.imr ∧ (c.finishHighest rotate).awaiting = c.awaiting := by
    unfold Chip.finishHighest
    split <;> exact ⟨rfl,rfl⟩
  unfold Chip.ocw2
  cases value.getLsbD 7 <;> cases value.getLsbD 6 <;> cases value.getLsbD 5 <;>
    first | exact ⟨rfl,rfl⟩ | exact highest _

theorem command_follows (follows : Follows q c) (written : c.command value = some c') : Follows (q.command value) c' := by
  unfold Chip.command at written
  unfold InterruptMask.Controller.command
  split at written
  next first =>
    rw [if_pos first]
    unfold Chip.icw1 at written
    split at written
    · cases written
    next modelled =>
      cases written
      have fourth : value[0] = true := by
        simp at modelled
        exact modelled.2
      refine ⟨rfl,?_⟩
      cases single : value[1] <;> simp [single,fourth]
  next other =>
    rw [if_neg other]
    split at written
    · unfold Chip.ocw3 at written
      split at written
      · cases written
      · cases written
        exact follows
    · cases written
      obtain ⟨imr,awaiting⟩ := ocw2_keeps c value
      exact ⟨follows.1.trans imr.symm,follows.2.trans (congrArg List.length awaiting).symm⟩

theorem data_follows (follows : Follows q c) (written : c.data value = some c') : Follows (q.data value) c' := by
  obtain ⟨imr,expected⟩ := follows
  unfold InterruptMask.Controller.data
  cases awaiting : c.awaiting with
  | nil =>
    have none : q.expected = 0 := expected.trans (congrArg List.length awaiting)
    rw [if_pos none]
    simp only [Chip.data,awaiting,Option.some.injEq] at written
    subst written
    exact ⟨rfl,none⟩
  | cons word rest =>
    rw [awaiting,List.length_cons] at expected
    rw [if_neg (by omega)]
    have next : c'.imr = c.imr ∧ c'.awaiting = rest := by
      cases word with
      | icw2 => simp only [Chip.data,awaiting,Option.some.injEq] at written; subst written; exact ⟨rfl,rfl⟩
      | icw3 => simp only [Chip.data,awaiting,Option.some.injEq] at written; subst written; exact ⟨rfl,rfl⟩
      | icw4 =>
        simp only [Chip.data,awaiting] at written
        split at written
        · cases written
        · cases written; exact ⟨rfl,rfl⟩
    exact ⟨imr.trans next.1.symm,by simp [next.2,expected]⟩

/-- The masks are those of `InterruptMask`, whatever is written to a port. -/
theorem outb_follows {q : InterruptMask.Pics} {p p' : Pair} {port : Nat}
    (follows : Follows q.master p.master ∧ Follows q.slave p.slave) (written : outb p value port = some p') :
    Follows (InterruptMask.outb q value port).master p'.master ∧
    Follows (InterruptMask.outb q value port).slave p'.slave := by
  unfold outb at written
  unfold InterruptMask.outb
  split at written
  next here =>
    obtain ⟨c,command,rfl⟩ := Option.map_eq_some_iff.mp written
    rw [if_pos here]
    exact ⟨command_follows follows.1 command,follows.2⟩
  next other =>
    rw [if_neg other]
    split at written
    next here =>
      obtain ⟨c,data,rfl⟩ := Option.map_eq_some_iff.mp written
      rw [if_pos here]
      exact ⟨data_follows follows.1 data,follows.2⟩
    next other =>
      rw [if_neg other]
      split at written
      next here =>
        obtain ⟨c,command,rfl⟩ := Option.map_eq_some_iff.mp written
        rw [if_pos here]
        exact ⟨follows.1,command_follows follows.2 command⟩
      next other =>
        rw [if_neg other]
        split at written
        next here =>
          obtain ⟨c,data,rfl⟩ := Option.map_eq_some_iff.mp written
          rw [if_pos here]
          exact ⟨follows.1,data_follows follows.2 data⟩
        next other =>
          rw [if_neg other]
          cases written
          exact follows

end

/-- The devices that the kernel uses. -/
inductive Device where
  | pit | keyboard | rtc
  deriving DecidableEq

namespace Device

def irq : Device → Nat
  | pit => pitIrqNum
  | keyboard => keyboardIrqNum
  | rtc => rtcIrqNum

def vector (d : Device) : Nat := picIrqStart + d.irq

def wrapper : Device → Symbol
  | pit => .pitIrq
  | keyboard => .keyboardIrq
  | rtc => .rtcIrq

end Device

/-- The request of a device reaches its controller. -/
def request (p : Pair) (d : Device) : Pair :=
  if portOf d.irq = master8259Port then { p with master := p.master.raise (line (pinOf d.irq)) }
  else { p with slave := p.slave.raise (line (pinOf d.irq)) }

/-- The request of a device is waiting. -/
def requested (p : Pair) (d : Device) : Bool :=
  if portOf d.irq = master8259Port then p.master.irr.getLsbD (pinOf d.irq) else p.slave.irr.getLsbD (pinOf d.irq)

/-! ### The code -/

/-- What the code does to the controllers, the interrupt flag and the stacks. -/
inductive Stmt where
  | enableIrq (irqNum : Nat)
  | disableIrq (irqNum : Nat)
  | outb (value : Byte) (port : Nat)
  | cli
  | sti
  /-- `iret`, and a `popfl` before it: the flags are those of code that has
      interrupts enabled. -/
  | iret
  /-- `context_switch`, if there is a process to switch to: a stack that something is
      saved on. -/
  | contextSwitch
  /-- `halt` goes back to the parent process, if there is one. -/
  | leave
  /-- `execute` enters a new process, on a kernel stack of its own. -/
  | start
  deriving DecidableEq

/-- `send_eoi`. -/
def sendEoi (irqNum : Nat) : List Stmt :=
  .outb (eoi ||| BitVec.ofNat 8 (pinOf irqNum)) (portOf irqNum) ::
    if portOf irqNum = slave8259Port then [.outb (eoi ||| 2) master8259Port] else []

/-- `execute`, when it enters a process; it disables interrupts twice. -/
def execute : List Stmt := [.cli,.cli,.start]

/-- How `switch_active_terminal` ends: with no shell to start, with a new shell, or
    with one that `execute` refuses. -/
inductive Switch where
  | stays | starts | refused

def switchActiveTerminal : Switch → List Stmt
  | .stays => [.cli,.sti]
  | .starts => .cli :: execute
  | .refused => [.cli,.cli]

/-- `check_function_keys`, when it switches terminals. -/
def checkFunctionKeys (s : Switch) : List Stmt :=
  sendEoi keyboardIrqNum ++ .enableIrq keyboardIrqNum :: switchActiveTerminal s

/-- `keyboard_interrupt_handler`. Every way through it ends with the end of the
    interrupt; a function key has sent one before. -/
def keyboardInterruptHandler (s : Option Switch) : List Stmt :=
  .disableIrq keyboardIrqNum :: (s.elim [] checkFunctionKeys ++ (sendEoi keyboardIrqNum ++ [.enableIrq keyboardIrqNum]))

def rtcInterruptHandler : List Stmt := .disableIrq rtcIrqNum :: (sendEoi rtcIrqNum ++ [.enableIrq rtcIrqNum])

def pitInterruptHandler : List Stmt := sendEoi pitIrqNum ++ [.cli,.contextSwitch,.sti]

def unimplementedAck : Byte := 0x20

def picMasterIrqHandler : List Stmt := [.outb unimplementedAck master8259Port]

def picSlaveIrqHandler : List Stmt := [.outb unimplementedAck master8259Port,.outb unimplementedAck slave8259Port]

/-- The wrappers of `interrupts.S`. -/
def wrapper (s : Option Switch) : Symbol → List Stmt
  | .keyboardIrq => keyboardInterruptHandler s ++ [.iret]
  | .rtcIrq => rtcInterruptHandler ++ [.iret]
  | .pitIrq => pitInterruptHandler ++ [.iret]
  | .picIrqMaster => picMasterIrqHandler ++ [.iret]
  | .picIrqSlave => picSlaveIrqHandler ++ [.iret]
  | _ => []

/-- `rtc_close`, with the `enable_irq` of `rtc_init`. -/
def rtcClose : List Stmt := [.disableIrq rtcIrqNum,.enableIrq rtcIrqNum]

/-- `halt` of a process that has some descriptors of the RTC open. Without a parent
    the shell is executed again. -/
def halt (rtcs : Nat) : List Stmt := .cli :: ((List.replicate rtcs rtcClose).flatten ++ .leave :: execute)

/-- What a process calls, by what it does here. -/
inductive Call where
  /-- `keyboard_read` or `terminal_write`. -/
  | keyboard
  | rtcOpen
  | rtcClose
  | executeRefused
  /-- `execute`, when no process ID is left. -/
  | executeFull
  | executeStarts
  | halt (rtcs : Nat)
  /-- Calls that do nothing here. -/
  | other

def Call.body : Call → List Stmt
  | keyboard => [.disableIrq keyboardIrqNum,.enableIrq keyboardIrqNum,.iret]
  | rtcOpen => [.enableIrq rtcIrqNum,.iret]
  | rtcClose => Interrupts.rtcClose ++ [.iret]
  | executeRefused => [.cli,.iret]
  | executeFull => [.cli,.disableIrq keyboardIrqNum,.enableIrq keyboardIrqNum,.iret]
  | executeStarts => execute ++ [.iret]
  | halt rtcs => Interrupts.halt rtcs
  | other => [.iret]

/-- The rest of `entry` behind `i8259_init`: `pit_init`, `rtc_init`, `keyboard_init`,
    `sti` and the first shell. -/
def entry : List Stmt :=
  .enableIrq pitIrqNum :: .enableIrq rtcIrqNum :: .enableIrq keyboardIrqNum :: .sti :: execute

/-! ### The machine -/

structure Machine where
  pics : Pair
  /-- The interrupt flag. -/
  interrupts : Bool
  /-- The kernel stack in use. -/
  current : Nat
  /-- What is to be done on each kernel stack, before its process goes on. -/
  threads : Nat → List Stmt
  /-- How many requests of each device were latched. -/
  raised : Device → Nat
  /-- How often each vector was delivered. -/
  served : Nat → Nat

inductive Event where
  | raise (d : Device)
  /-- The processor takes an interrupt. -/
  | deliver (s : Option Switch)
  /-- The next statement; a switch goes to the stack `next`. -/
  | go (next : Nat)
  | call (c : Call)
  /-- An exception of the process, or in one of its calls, which halts it. -/
  | fault (rtcs : Nat)

/-- The controllers are put into a mode that is not modelled. -/
structure LeftOut where

namespace Machine

def code (m : Machine) : List Stmt := m.threads m.current

/-- The stack in use is left with other statements. -/
def setCode (m : Machine) (code : List Stmt) : Machine := { m with threads := Function.update m.threads m.current code }

def write (m : Machine) (value : Byte) (port : Nat) : Except LeftOut Machine :=
  match outb m.pics value port with
  | none => .error ⟨⟩
  | some pics => .ok { m with pics := pics }

end Machine

/-- The next statement. -/
def go (m : Machine) (next : Nat) : Except LeftOut Machine :=
  match m.code with
  | [] => .ok m
  | s :: rest =>
    let m' := m.setCode rest
    match s with
    | .enableIrq irqNum =>
      .ok (m.setCode (.outb (inb m.pics (portOf irqNum) &&& ~~~(1#8 <<< pinOf irqNum)) (portOf irqNum) :: rest))
    | .disableIrq irqNum =>
      .ok (m.setCode (.outb (inb m.pics (portOf irqNum) ||| 1#8 <<< pinOf irqNum) (portOf irqNum) :: rest))
    | .outb value port => m'.write value port
    | .cli => .ok { m' with interrupts := false }
    | .sti => .ok { m' with interrupts := true }
    | .iret => .ok { m' with interrupts := true }
    | .contextSwitch => .ok (if m.threads next = [] then m' else { m' with current := next })
    | .leave => .ok (if next = m.current ∨ m.threads next = [] then m' else { m.setCode [] with current := next })
    | .start => .ok { m' with threads := Function.update m'.threads next [.iret], current := next }

/-- The processor takes the interrupt that the controllers pass on. -/
def deliver (m : Machine) (s : Option Switch) : Machine :=
  match m.pics.acknowledge cascade with
  | none => m
  | some (vector,pics) => { m.setCode (((handlerOf vector).elim [] (wrapper s)) ++ m.code) with
    pics := pics
    interrupts := false
    served := Function.update m.served vector (m.served vector + 1) }

/-- The end of an interrupt is sent. -/
def Stmt.isEnd : Stmt → Bool
  | .outb value _ => decide (8 ≤ value.toNat)
  | _ => false

/-- One step. An event that cannot occur leaves the machine as it is. -/
def step (m : Machine) : Event → Except LeftOut Machine
  | .raise d => .ok { m with
    pics := request m.pics d
    raised := if requested m.pics d then m.raised else Function.update m.raised d (m.raised d + 1) }
  | .deliver s => .ok (if m.interrupts then deliver m s else m)
  | .go next => go m next
  | .call c => .ok (if m.code = [] then m.setCode c.body else m)
  -- Handlers do not fault.
  | .fault rtcs => .ok (if m.code.any Stmt.isEnd then m else { m.setCode (halt rtcs) with interrupts := false })

/-- The machine when `i8259_init` has set up the controllers. -/
def boot (pics : Pair) : Machine := ⟨pics,false,0,fun t => if t = 0 then entry else [],fun _ => 0,fun _ => 0⟩

end MazeOS.Interrupts
