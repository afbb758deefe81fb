import MazeOS.Interrupts

/-!
The controllers while only the devices of the kernel request. What the functions of
`i8259.c` write by mistake means nothing then (`outb_small`), and the controllers
are a set of requests and an end of interrupt that a handler owes: a device that is
passed on is owed an end (`acknowledge_pics`), which is taken off when it is sent
(`outb_end`). The handlers and calls of the kernel send what they owe, and leave
their stacks in order (`wrapper_owes`, `wrapper_safe`, `call_safe`).
-/
namespace MazeOS.Service
open MazeOS.Controllers MazeOS.Gates MazeOS.Interrupts
open MazeOS.InterruptMask (master8259Port slave8259Port portOf pinOf eoi)

/-! ### Requests, and what a handler owes -/

/-- What the running handler has still to tell the controllers. -/
inductive Owed where
  | nothing | pit | keyboard | rtc
  /-- The slave has been told, the master has not. -/
  | cascade

namespace Owed

def of : Device → Owed
  | .pit => pit
  | .keyboard => keyboard
  | .rtc => rtc

def masterIsr : Owed → Byte
  | nothing => 0
  | pit => 1
  | keyboard => 2
  | rtc => 4
  | cascade => 4

def slaveIsr : Owed → Byte
  | rtc => 1
  | _ => 0

/-- The ends of interrupts that are owed. -/
def ends : Owed → List Stmt
  | nothing => []
  | pit => sendEoi pitIrqNum
  | keyboard => sendEoi keyboardIrqNum
  | rtc => sendEoi rtcIrqNum
  | cascade => [.outb (eoi ||| 2) master8259Port]

/-- What is owed when the first of them is sent. -/
def next : Owed → Owed
  | rtc => cascade
  | _ => nothing

end Owed

/-- The mask registers. -/
structure Masks where
  master : Byte
  slave : Byte

def Masks.masked (k : Masks) : Device → Bool
  | .pit => k.master.getLsbD 0
  | .keyboard => k.master.getLsbD 1
  | .rtc => k.master.getLsbD 2 || k.slave.getLsbD 0

def masterIrr (r : Device → Bool) : Byte := (if r .pit then 1 else 0) ||| (if r .keyboard then 2 else 0)
def slaveIrr (r : Device → Bool) : Byte := if r .rtc then 1 else 0

/-- The controllers with these masks, these requests, and lines in service. -/
def pics (k : Masks) (r : Device → Bool) (o : Owed) : Pair :=
  ⟨.normal 0x20 (masterIrr r) o.masterIsr k.master,.normal 0x28 (slaveIrr r) o.slaveIsr k.slave⟩

/-- The device that comes first. -/
def chosen (k : Masks) (r : Device → Bool) : Option Device :=
  [Device.pit,.keyboard,.rtc].find? fun d => r d && !k.masked d

section
variable {k : Masks} {r : Device → Bool} {o : Owed}

theorem requested_pics (d : Device) : requested (pics k r o) d = r d := by
  cases d with
  | pit =>
    show (masterIrr r).getLsbD 0 = _
    cases pit : r .pit <;> cases keyboard : r .keyboard <;> simp [masterIrr,pit,keyboard]
  | keyboard =>
    show (masterIrr r).getLsbD 1 = _
    cases pit : r .pit <;> cases keyboard : r .keyboard <;> simp [masterIrr,pit,keyboard]
  | rtc =>
    show (slaveIrr r).getLsbD 0 = _
    cases rtc : r .rtc <;> simp [slaveIrr,rtc]

theorem masterIrr_pit (value : Bool) : setLine (masterIrr r) 0 value = masterIrr (Function.update r .pit value) := by
  cases pit : r .pit <;> cases keyboard : r .keyboard <;> cases value <;>
    simp [masterIrr,pit,keyboard,setLine,lineBit]

theorem masterIrr_keyboard (value : Bool) :
    setLine (masterIrr r) 1 value = masterIrr (Function.update r .keyboard value) := by
  cases pit : r .pit <;> cases keyboard : r .keyboard <;> cases value <;>
    simp [masterIrr,pit,keyboard,setLine,lineBit]

theorem masterIrr_cascade : setLine (masterIrr r) cascade false = masterIrr r := by
  cases pit : r .pit <;> cases keyboard : r .keyboard <;> simp [masterIrr,pit,keyboard,setLine,lineBit]

theorem slaveIrr_rtc (value : Bool) : setLine (slaveIrr r) 0 value = slaveIrr (Function.update r .rtc value) := by
  cases rtc : r .rtc <;> cases value <;> simp [slaveIrr,rtc,setLine,lineBit]

theorem masterIrr_other (value : Bool) : masterIrr (Function.update r .rtc value) = masterIrr r := by
  simp [masterIrr]

theorem slaveIrr_other {d : Device} (other : d ≠ .rtc) (value : Bool) :
    slaveIrr (Function.update r d value) = slaveIrr r := by
  rw [slaveIrr,Function.update_of_ne other.symm,slaveIrr]

theorem request_pics (d : Device) : request (pics k r o) d = pics k (Function.update r d true) o := by
  cases d with
  | pit =>
    show (⟨.normal 0x20 (setLine (masterIrr r) 0 true) o.masterIsr k.master,_⟩ : Pair) = _
    rw [masterIrr_pit,pics,pics,slaveIrr_other (by decide)]
  | keyboard =>
    show (⟨.normal 0x20 (setLine (masterIrr r) 1 true) o.masterIsr k.master,_⟩ : Pair) = _
    rw [masterIrr_keyboard,pics,pics,slaveIrr_other (by decide)]
  | rtc =>
    show (⟨_,.normal 0x28 (setLine (slaveIrr r) 0 true) o.slaveIsr k.slave⟩ : Pair) = _
    rw [slaveIrr_rtc,pics,pics,masterIrr_other]

theorem slave_pending (o : Owed) (idle : o.slaveIsr = 0) : (pics k r o).slave.pending =
    if r .rtc && !k.slave.getLsbD 0 then some 0 else none := by
  rw [pics,idle,Chip.pending_normal]
  cases rtc : r .rtc <;> cases masked : k.slave[0] <;> simp [List.finRange_succ,slaveIrr,rtc,masked]

/-- The line that the master passes on. -/
theorem master_pending (flag : Bool) :
    (Chip.normal 0x20 (setLine (masterIrr r) cascade flag) 0 k.master).pending =
      if r .pit && !k.master.getLsbD 0 then some 0 else if r .keyboard && !k.master.getLsbD 1 then some 1
      else if flag && !k.master.getLsbD 2 then some 2 else none := by
  rw [Chip.pending_normal]
  cases pit : r .pit <;> cases keyboard : r .keyboard <;> cases flag <;>
    simp [List.finRange_succ,List.find?_cons,masterIrr,setLine,lineBit,pit,keyboard]
  all_goals cases k.master[0] <;> cases k.master[1] <;> cases k.master[2] <;> rfl

theorem wired_pics (idle : o.slaveIsr = 0) : (pics k r o).wired cascade =
    .normal 0x20 (setLine (masterIrr r) cascade (r .rtc && !k.slave.getLsbD 0)) o.masterIsr k.master := by
  rw [Pair.wired,slave_pending o idle]
  cases r .rtc && !k.slave.getLsbD 0 <;> rfl

/-- The line of the master that a device is on, or is behind. -/
def lineOf : Device → Fin 8
  | .pit => line 0
  | .keyboard => line 1
  | .rtc => cascade

theorem master_passes : ((pics k r .nothing).wired cascade).pending = (chosen k r).map lineOf := by
  rw [wired_pics rfl]
  refine (master_pending _).trans ?_
  cases pit : r .pit <;> cases keyboard : r .keyboard <;> cases rtc : r .rtc <;>
    simp [chosen,List.find?_cons,Masks.masked,pit,keyboard,rtc]
  all_goals cases k.master[0] <;> cases k.master[1] <;> cases k.master[2] <;> cases k.slave[0] <;> rfl

/-- The controllers pass on the device that comes first, and an end of its
    interrupt is owed. -/
theorem acknowledge_pics : (pics k r .nothing).acknowledge cascade =
    (chosen k r).map fun d => (d.vector,pics k (Function.update r d false) (.of d)) := by
  rw [Pair.acknowledge,master_passes]
  cases found : chosen k r with
  | none => rfl
  | some d =>
    have waits : (r d && !k.masked d) = true := List.find?_some (p := fun d => r d && !k.masked d) found
    cases d with
    | pit =>
      show some (Device.pit.vector,(⟨.normal 0x20 (setLine (masterIrr r) 0 false) (setLine 0 0 true) k.master,
        .normal 0x28 (slaveIrr r) 0 k.slave⟩ : Pair)) = _
      rw [masterIrr_pit,Option.map_some,pics,slaveIrr_other (by decide)]
      rfl
    | keyboard =>
      show some (Device.keyboard.vector,(⟨.normal 0x20 (setLine (masterIrr r) 1 false) (setLine 0 1 true) k.master,
        .normal 0x28 (slaveIrr r) 0 k.slave⟩ : Pair)) = _
      rw [masterIrr_keyboard,Option.map_some,pics,slaveIrr_other (by decide)]
      rfl
    | rtc =>
      have clear : (r .rtc && !k.slave.getLsbD 0) = true := by
        simp [Masks.masked] at waits ⊢
        exact ⟨waits.1,waits.2.2⟩
      have slave := slave_pending (k := k) (r := r) .nothing rfl
      rw [if_pos clear] at slave
      rw [Option.map_some,Option.bind_some,if_pos (show lineOf .rtc = cascade from rfl),slave]
      show some (Device.rtc.vector,
        (⟨.normal 0x20 (setLine (masterIrr r) cascade false) (setLine 0 cascade true) k.master,
        .normal 0x28 (setLine (slaveIrr r) 0 false) (setLine 0 0 true) k.slave⟩ : Pair)) = _
      rw [masterIrr_cascade,slaveIrr_rtc,Option.map_some,pics,masterIrr_other]
      rfl

/-! ### What the code writes -/

/-- The ends of interrupts that the handlers send. -/
def allEnds : List Stmt := [Device.pit,.keyboard,.rtc].flatMap fun d => (Owed.of d).ends

theorem inb_small {irqNum : Nat} : (inb (pics k r o) (portOf irqNum)).toNat < 8 := by
  unfold portOf
  split
  · show (setLine (masterIrr r) cascade (pics k r o).slave.pending.isSome).toNat < 8
    cases (pics k r o).slave.pending.isSome <;> cases pit : r .pit <;> cases keyboard : r .keyboard <;>
      simp [setLine,masterIrr,pit,keyboard,lineBit]
  · show (slaveIrr r).toNat < 8
    cases rtc : r .rtc <;> simp [slaveIrr,rtc]

theorem outb_small {value : Byte} (small : value.toNat < 8) (irqNum : Nat) :
    outb (pics k r o) value (portOf irqNum) = some (pics k r o) := by
  unfold portOf
  split
  · show ((Chip.normal _ _ _ _).command value).map _ = _
    rw [Chip.command_small small]
    rfl
  · show ((Chip.normal _ _ _ _).command value).map _ = _
    rw [Chip.command_small small]
    rfl

theorem outb_master (l : Fin 8) : outb (pics k r o) (eoi ||| BitVec.ofNat 8 l) master8259Port =
    some { pics k r o with master := .normal 0x20 (masterIrr r) (setLine o.masterIsr l false) k.master } := by
  show ((Chip.normal 0x20 _ _ _).command (0x60 ||| _)).map _ = _
  rw [Chip.command_eoi]
  rfl

theorem outb_slave (l : Fin 8) : outb (pics k r o) (eoi ||| BitVec.ofNat 8 l) slave8259Port =
    some { pics k r o with slave := .normal 0x28 (slaveIrr r) (setLine o.slaveIsr l false) k.slave } := by
  show ((Chip.normal 0x28 _ _ _).command (0x60 ||| _)).map _ = _
  rw [Chip.command_eoi]
  rfl

/-- An end that is owed is taken off. -/
theorem outb_end {value : Byte} {port : Nat} {rest : List Stmt} (owed : o.ends = .outb value port :: rest) :
    outb (pics k r o) value port = some (pics k r o.next) ∧ rest = o.next.ends := by
  cases o with
  | nothing => cases owed
  | pit => cases owed; exact ⟨outb_master 0,rfl⟩
  | keyboard => cases owed; exact ⟨outb_master 1,rfl⟩
  | rtc => cases owed; exact ⟨outb_slave 0,rfl⟩
  | cascade => cases owed; exact ⟨outb_master 2,rfl⟩

/-- An end that is not owed changes nothing. -/
theorem outb_idle {value : Byte} {port : Nat} (among : .outb value port ∈ allEnds) :
    outb (pics k r .nothing) value port = some (pics k r .nothing) := by
  have ends : allEnds = [.outb (eoi ||| 0) master8259Port,.outb (eoi ||| 1) master8259Port,
    .outb (eoi ||| 0) slave8259Port,.outb (eoi ||| 2) master8259Port] := by decide
  rw [ends] at among
  simp only [List.mem_cons,Stmt.outb.injEq,List.not_mem_nil,or_false] at among
  obtain ⟨rfl,rfl⟩ | ⟨rfl,rfl⟩ | ⟨rfl,rfl⟩ | ⟨rfl,rfl⟩ := among
  · exact outb_master 0
  · exact outb_master 1
  · exact outb_slave 0
  · exact outb_master 2

end

/-- Controllers that `i8259_init` can set up: between interrupts, with their request
    registers to be read. -/
structure Found (p : Pair) : Prop where
  ready : p.master.awaiting = [] ∧ p.slave.awaiting = []
  reads : p.master.readIsr = false ∧ p.slave.readIsr = false
  idle : p.master.isr = 0 ∧ p.slave.isr = 0

/-- What `i8259_init` takes for the masks. -/
def masksFound (p : Pair) : Masks := ⟨(p.wired cascade).irr,p.slave.irr⟩

/-- `i8259_init` masks the lines that are requested when it runs. -/
theorem i8259Init_found {p : Pair} (found : Found p) :
    i8259Init p = some (pics (masksFound p) (fun _ => false) .nothing) := by
  obtain ⟨⟨irr,isr,imr,base,awaiting,readIsr,_,_,_,_⟩,⟨irr',isr',imr',base',awaiting',readIsr',_,_,_,_⟩⟩ := p
  obtain ⟨⟨ready,ready'⟩,⟨reads,reads'⟩,⟨idle,idle'⟩⟩ := found
  simp only at ready ready' reads reads' idle idle'
  subst ready ready' reads reads' idle idle'
  rfl

/-! ### Code that ends well -/

/-- A statement that is no command for the controllers. -/
def isPlain : Stmt → Bool
  | .enableIrq _ => true
  | .disableIrq irqNum => decide (pinOf irqNum < 3)
  | .outb value port => decide (value.toNat < 8 ∧ (port = master8259Port ∨ port = slave8259Port))
  | .cli => true
  | _ => false

/-- A statement that writes nothing but ends of interrupts to the controllers. -/
def isHarmless : Stmt → Bool
  | .enableIrq irqNum => isPlain (.enableIrq irqNum)
  | .disableIrq irqNum => isPlain (.disableIrq irqNum)
  | .outb value port => isPlain (.outb value port) || decide (.outb value port ∈ allEnds)
  | _ => true

/-- Interrupts are enabled before another stack is used. -/
def wakes : List Stmt → Bool
  | [] => false
  | .sti :: _ => true
  | .iret :: _ => true
  | .contextSwitch :: _ => false
  | .leave :: _ => false
  | .start :: _ => false
  | .enableIrq _ :: rest => wakes rest
  | .disableIrq _ :: rest => wakes rest
  | .outb _ _ :: rest => wakes rest
  | .cli :: rest => wakes rest

/-- Code that leaves its stack with interrupts disabled only, in a state to be
    resumed, and goes back to its process with interrupts enabled. -/
def safe : Bool → List Stmt → Bool
  | on, [] => on
  | _, .sti :: rest => safe true rest
  | _, .iret :: rest => safe true rest
  | _, .cli :: rest => safe false rest
  | on, .contextSwitch :: rest => !on && (wakes rest && safe false rest)
  | on, .leave :: rest => !on && safe false rest
  | on, .start :: rest => !on && (rest.isEmpty || (wakes rest && safe false rest))
  | on, .enableIrq _ :: rest => safe on rest
  | on, .disableIrq _ :: rest => safe on rest
  | on, .outb _ _ :: rest => safe on rest

/-- A stack that is empty, or can be resumed. -/
def saved (code : List Stmt) : Bool := code.isEmpty || (wakes code && safe false code)

/-- Before its process goes on, the code sends the ends that are owed, and up to
    them nothing but plain statements are in it. -/
def Owes (o : Owed) (code : List Stmt) : Prop :=
  ∃ before after, code = before ++ (o.ends ++ after) ∧ before.all isPlain = true

section
variable {o : Owed} {s : Stmt} {code rest : List Stmt} {on : Bool}

theorem owes_nothing (code : List Stmt) : Owes .nothing code := ⟨[],code,rfl,rfl⟩

theorem owes_plain (plain : isPlain s = true) (owes : Owes o rest) : Owes o (s :: rest) := by
  obtain ⟨before,after,rfl,all⟩ := owes
  exact ⟨s :: before,after,rfl,by simp [plain,all]⟩

theorem ends_next (o : Owed) : o = .nothing ∨ ∃ value port, o.ends = .outb value port :: o.next.ends := by
  cases o with
  | nothing => exact .inl rfl
  | pit => exact .inr ⟨_,_,rfl⟩
  | keyboard => exact .inr ⟨_,_,rfl⟩
  | rtc => exact .inr ⟨_,_,rfl⟩
  | cascade => exact .inr ⟨_,_,rfl⟩

/-- What the first statement can be when something is owed. -/
theorem owes_cons (owes : Owes o (s :: rest)) : o = .nothing ∨ (isPlain s = true ∧ Owes o rest) ∨
    ∃ value port, s = .outb value port ∧ o.ends = .outb value port :: o.next.ends ∧ Owes o.next rest := by
  obtain ⟨before,after,split,all⟩ := owes
  cases before with
  | nil =>
    rcases ends_next o with nothing | ⟨value,port,ends⟩
    · exact .inl nothing
    · rw [ends,List.nil_append,List.cons_append,List.cons.injEq] at split
      exact .inr (.inr ⟨value,port,split.1,ends,[],after,split.2,rfl⟩)
  | cons b before =>
    rw [List.cons_append,List.cons.injEq] at split
    rw [List.all_cons,Bool.and_eq_true] at all
    exact .inr (.inl ⟨split.1 ▸ all.1,before,after,split.2,all.2⟩)

/-- What is owed is seen in the code. -/
theorem owes_isEnd (owes : Owes o code) (clean : code.any Stmt.isEnd = false) : o = .nothing := by
  obtain ⟨before,after,rfl,_⟩ := owes
  simp only [List.any_append,Bool.or_eq_false_iff] at clean
  cases o with
  | nothing => rfl
  | pit => exact absurd clean.2.1 (by decide)
  | keyboard => exact absurd clean.2.1 (by decide)
  | rtc => exact absurd clean.2.1 (by decide)
  | cascade => exact absurd clean.2.1 (by decide)

theorem safe_of_saved (some : code ≠ []) (kept : saved code = true) :
    wakes code = true ∧ safe false code = true := by
  cases code with
  | nil => exact absurd rfl some
  | cons s rest => simpa [saved] using kept

/-! ### The code of the kernel -/

theorem rtcClose_safe (n : Nat) (code : List Stmt) :
    safe false ((List.replicate n rtcClose).flatten ++ code) = safe false code := by
  induction n with
  | zero => rfl
  | succ n ih =>
    rw [List.replicate_succ,List.flatten_cons,List.append_assoc]
    exact ih

theorem halt_safe (on : Bool) (n : Nat) : safe on (halt n) = true := (rtcClose_safe n _).trans rfl

theorem halt_harmless (n : Nat) : (halt n).all isHarmless = true := by
  have closes : ((List.replicate n rtcClose).flatten).all isHarmless = true := by
    induction n with
    | zero => rfl
    | succ n ih =>
      rw [List.replicate_succ,List.flatten_cons,List.all_append,ih]
      decide
  rw [halt,List.all_cons,List.all_append,closes]
  rfl

theorem call_safe (c : Call) : safe true c.body = true := by
  cases c with
  | halt n => exact halt_safe true n
  | keyboard => rfl
  | rtcOpen => rfl
  | rtcClose => rfl
  | executeRefused => rfl
  | executeFull => rfl
  | executeStarts => rfl
  | other => rfl

theorem call_harmless (c : Call) : c.body.all isHarmless = true := by
  cases c with
  | halt n => exact halt_harmless n
  | keyboard => decide
  | rtcOpen => decide
  | rtcClose => decide
  | executeRefused => decide
  | executeFull => decide
  | executeStarts => decide
  | other => decide

/-- A handler can be put before the code that it interrupts. -/
theorem wrapper_safe (way : Option Switch) (d : Device) (code : List Stmt) :
    safe false (wrapper way d.wrapper ++ code) = safe true code := by
  cases d with
  | pit => rfl
  | rtc => rfl
  | keyboard =>
    cases way with
    | none => rfl
    | some s => cases s <;> rfl

theorem wrapper_harmless (way : Option Switch) (d : Device) : (wrapper way d.wrapper).all isHarmless = true := by
  cases d with
  | pit => exact (by decide : (pitInterruptHandler ++ [Stmt.iret]).all isHarmless = true)
  | rtc => exact (by decide : (rtcInterruptHandler ++ [Stmt.iret]).all isHarmless = true)
  | keyboard =>
    cases way with
    | none => decide
    | some s => cases s <;> decide

/-- The handler of a device sends the end of its interrupt, with nothing but plain
    statements before it. -/
theorem wrapper_owes (way : Option Switch) (d : Device) (code : List Stmt) :
    Owes (.of d) (wrapper way d.wrapper ++ code) := by
  cases d with
  | pit => exact ⟨[],_,rfl,rfl⟩
  | rtc => exact ⟨[.disableIrq rtcIrqNum],_,rfl,rfl⟩
  | keyboard =>
    cases way with
    | none => exact ⟨[.disableIrq keyboardIrqNum],_,rfl,rfl⟩
    | some s => exact ⟨[.disableIrq keyboardIrqNum],_,rfl,rfl⟩

end

end MazeOS.Service
