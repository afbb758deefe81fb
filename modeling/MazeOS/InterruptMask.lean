import MazeOS.Runs
import Mathlib.Tactic.IntervalCases

/-!
The interrupt masks of the two 8259 controllers. A controller is its mask
register behind the data port, its request register and its command words
behind the command port. `i8259_init`, `enable_irq` and `disable_irq` use the
command port where they mean the mask, so what they read is the request
register and what they write is a command. `mask_follows_iff` says exactly when
the masks are right all the same.
-/
namespace MazeOS.InterruptMask
open MazeOS.Runs

abbrev Byte := BitVec 8

def master8259Port : Nat := 0x20
def slave8259Port : Nat := 0xA0
def picMaxPins : Nat := 8
def icw1 : Byte := 0x11
def icw2Master : Byte := 0x20
def icw2Slave : Byte := 0x28
def icw3Master : Byte := 0x04
def icw3Slave : Byte := 0x02
def icw4 : Byte := 0x01
def eoi : Byte := 0x60

/-! ### The controllers -/

structure Controller where
  /-- The mask register. -/
  imr : Byte
  /-- The request register. -/
  irr : Byte
  /-- How many initialisation words are still to come on the data port. -/
  expected : Nat
  /-- How many initialisations have been started. -/
  inits : Nat

/-- A byte on the command port. Bit 4 makes it the first initialisation word,
    which clears the masks and says how many words follow; others do not touch
    the masks. -/
def Controller.command (c : Controller) (b : Byte) : Controller :=
  if b.getLsbD 4 then
    { c with
      imr := 0
      expected := 1 + (if b.getLsbD 1 then 0 else 1) + (if b.getLsbD 0 then 1 else 0)
      inits := c.inits + 1 }
  else c

/-- A byte on the data port. -/
def Controller.data (c : Controller) (b : Byte) : Controller :=
  if c.expected = 0 then { c with imr := b } else { c with expected := c.expected - 1 }

structure Pics where
  master : Controller
  slave : Controller

/-- `inb`. -/
def inb (p : Pics) (port : Nat) : Byte :=
  if port = master8259Port then p.master.irr
  else if port = master8259Port + 1 then p.master.imr
  else if port = slave8259Port then p.slave.irr
  else if port = slave8259Port + 1 then p.slave.imr
  else 0

/-- `outb`. -/
def outb (p : Pics) (value : Byte) (port : Nat) : Pics :=
  if port = master8259Port then { p with master := p.master.command value }
  else if port = master8259Port + 1 then { p with master := p.master.data value }
  else if port = slave8259Port then { p with slave := p.slave.command value }
  else if port = slave8259Port + 1 then { p with slave := p.slave.data value }
  else p

/-! ### The functions of `i8259.c` -/

/-- `i8259_init`; `io_wait` writes a port that nothing is behind. -/
def i8259Init (p : Pics) : Pics :=
  let masterMask := inb p master8259Port
  let slaveMask := inb p slave8259Port
  let p := outb p 0xFF (master8259Port + 1)
  let p := outb p 0xFF (slave8259Port + 1)
  let p := outb p icw1 master8259Port
  let p := outb p icw2Master (master8259Port + 1)
  let p := outb p icw3Master (master8259Port + 1)
  let p := outb p icw4 (master8259Port + 1)
  let p := outb p icw1 slave8259Port
  let p := outb p icw2Slave (slave8259Port + 1)
  let p := outb p icw3Slave (slave8259Port + 1)
  let p := outb p icw4 (slave8259Port + 1)
  let p := outb p masterMask (master8259Port + 1)
  outb p slaveMask (slave8259Port + 1)

def portOf (irqNum : Nat) : Nat := if irqNum < picMaxPins then master8259Port else slave8259Port
def pinOf (irqNum : Nat) : Nat := if irqNum < picMaxPins then irqNum else irqNum - picMaxPins

/-- `enable_irq`. -/
def enableIrq (p : Pics) (irqNum : Nat) : Pics :=
  outb p (inb p (portOf irqNum) &&& ~~~(1#8 <<< pinOf irqNum)) (portOf irqNum)

/-- `disable_irq`. -/
def disableIrq (p : Pics) (irqNum : Nat) : Pics :=
  outb p (inb p (portOf irqNum) ||| (1#8 <<< pinOf irqNum)) (portOf irqNum)

/-- `send_eoi`. -/
def sendEoi (p : Pics) (irqNum : Nat) : Pics :=
  let p := outb p (eoi ||| BitVec.ofNat 8 (pinOf irqNum)) (portOf irqNum)
  if portOf irqNum = slave8259Port then outb p (eoi ||| 2) master8259Port else p

/-- A call, or new contents of the request registers. -/
inductive Event where
  | enable (irqNum : Fin 16)
  | disable (irqNum : Fin 16)
  | sendEoi (irqNum : Fin 16)
  | requests (master slave : Byte)

def act (p : Pics) : Event → Pics
  | .enable irqNum => enableIrq p irqNum
  | .disable irqNum => disableIrq p irqNum
  | .sendEoi irqNum => InterruptMask.sendEoi p irqNum
  | .requests master slave => ⟨{ p.master with irr := master },{ p.slave with irr := slave }⟩

def step (p : Pics) (e : Event) : Except Empty Pics := .ok (act p e)

/-! ### What should hold, and when it does -/

/-- The controller of an interrupt. -/
def Pics.of (p : Pics) (irqNum : Nat) : Controller := if irqNum < picMaxPins then p.master else p.slave

def maskBit (p : Pics) (irqNum : Fin 16) : Bool := (p.of irqNum).imr.getLsbD (pinOf irqNum)

/-- The mask bit that an event asks for. -/
def asks (irqNum : Fin 16) : Event → Option Bool
  | .enable i => if i = irqNum then some false else none
  | .disable i => if i = irqNum then some true else none
  | _ => none

/-- The mask bit that the last call naming an interrupt asks for, or the first one. -/
def wanted (first : Bool) (events : List Event) (irqNum : Fin 16) : Bool :=
  (events.filterMap (asks irqNum)).getLast?.getD first

def SameMasks (p after : Pics) : Prop := after.master.imr = p.master.imr ∧ after.slave.imr = p.slave.imr

instance (p after : Pics) : Decidable (SameMasks p after) := inferInstanceAs (Decidable (_ ∧ _))

def inits (p : Pics) : Nat := p.master.inits + p.slave.inits

/-- The masks follow the calls after `i8259_init`, which leaves those it finds;
    none of the calls starts an initialisation. -/
structure Follows (p : Pics) (events : List Event) (last : Pics) : Prop where
  found : SameMasks p (i8259Init p)
  bits : ∀ irqNum, maskBit last irqNum = wanted (maskBit p irqNum) events irqNum
  quiet : inits last = inits (i8259Init p)

/-- A call whose command has bit 4 clear. -/
def Harmless (p : Pics) : Event → Prop
  | .enable irqNum => (p.of irqNum).irr.getLsbD 4 = false ∨ pinOf irqNum = 4
  | .disable irqNum => (p.of irqNum).irr.getLsbD 4 = false ∧ pinOf irqNum ≠ 4
  | _ => True

instance (p : Pics) : (e : Event) → Decidable (Harmless p e)
  | .enable irqNum => inferInstanceAs (Decidable ((p.of irqNum).irr.getLsbD 4 = false ∨ pinOf irqNum = 4))
  | .disable irqNum => inferInstanceAs (Decidable ((p.of irqNum).irr.getLsbD 4 = false ∧ pinOf irqNum ≠ 4))
  | .sendEoi _ => .isTrue trivial
  | .requests _ _ => .isTrue trivial

section
variable {p last : Pics} {events : List Event}

theorem inb_portOf (p : Pics) (irqNum : Nat) : inb p (portOf irqNum) = (p.of irqNum).irr := by
  unfold portOf Pics.of
  split <;> rfl

theorem pinOf_lt (irqNum : Fin 16) : pinOf irqNum < 8 := by
  unfold pinOf picMaxPins
  split <;> omega

theorem command_cases (c : Controller) (b : Byte) :
    (b.getLsbD 4 = false ∧ c.command b = c) ∨ (b.getLsbD 4 = true ∧ (c.command b).inits = c.inits + 1) := by
  unfold Controller.command
  by_cases first : b.getLsbD 4 = true
  · rw [if_pos first]
    exact .inr ⟨first,rfl⟩
  · rw [if_neg first]
    exact .inl ⟨by simpa using first,rfl⟩

/-- A command leaves the masks and starts no initialisation, or starts one. -/
theorem outb_command (p : Pics) (b : Byte) (irqNum : Nat) :
    (b.getLsbD 4 = false ∧ outb p b (portOf irqNum) = p) ∨
      (b.getLsbD 4 = true ∧ inits (outb p b (portOf irqNum)) = inits p + 1) := by
  unfold portOf
  by_cases low : irqNum < picMaxPins
  · rw [if_pos low]
    show (_ ∧ ({ p with master := p.master.command b } : Pics) = p) ∨ (_ ∧ inits { p with master := p.master.command b } = _)
    rcases command_cases p.master b with ⟨clear,same⟩ | ⟨first,more⟩
    · exact .inl ⟨clear,by rw [same]⟩
    · refine .inr ⟨first,?_⟩
      simp only [inits,more]
      omega
  · rw [if_neg low]
    show (_ ∧ ({ p with slave := p.slave.command b } : Pics) = p) ∨ (_ ∧ inits { p with slave := p.slave.command b } = _)
    rcases command_cases p.slave b with ⟨clear,same⟩ | ⟨first,more⟩
    · exact .inl ⟨clear,by rw [same]⟩
    · refine .inr ⟨first,?_⟩
      simp only [inits,more]
      omega

theorem shifted_bit {pin : Nat} (inside : pin < 8) : (1#8 <<< pin).getLsbD 4 = decide (pin = 4) := by
  interval_cases pin <;> rfl

theorem enable_bit (b : Byte) {pin : Nat} (inside : pin < 8) :
    (b &&& ~~~(1#8 <<< pin)).getLsbD 4 = false ↔ b.getLsbD 4 = false ∨ pin = 4 := by
  rw [BitVec.getLsbD_and,BitVec.getLsbD_not,shifted_bit inside]
  cases b.getLsbD 4 <;> simp

theorem disable_bit (b : Byte) {pin : Nat} (inside : pin < 8) :
    (b ||| (1#8 <<< pin)).getLsbD 4 = false ↔ b.getLsbD 4 = false ∧ pin ≠ 4 := by
  rw [BitVec.getLsbD_or,shifted_bit inside]
  simp

theorem eoi_bit {pin : Nat} (inside : pin < 8) : (eoi ||| BitVec.ofNat 8 pin).getLsbD 4 = false := by
  interval_cases pin <;> rfl

theorem sendEoi_nothing (p : Pics) (irqNum : Fin 16) : InterruptMask.sendEoi p irqNum = p := by
  have single : ∀ (p : Pics) (b : Byte) (i : Nat), b.getLsbD 4 = false → outb p b (portOf i) = p := by
    intro p b i clear
    rcases outb_command p b i with ⟨_,same⟩ | ⟨first,_⟩
    · exact same
    · rw [clear] at first; cases first
  unfold InterruptMask.sendEoi
  simp only [single p _ irqNum (eoi_bit (pinOf_lt irqNum))]
  split
  · exact single p (eoi ||| 2) 0 (by decide)
  · rfl

theorem outb_masks (p : Pics) {b : Byte} (irqNum : Nat) {harmless : Prop} (bit : b.getLsbD 4 = false ↔ harmless) :
    (harmless ∧ SameMasks p (outb p b (portOf irqNum)) ∧ inits (outb p b (portOf irqNum)) = inits p) ∨
      (¬ harmless ∧ inits (outb p b (portOf irqNum)) = inits p + 1) := by
  rw [← bit]
  rcases outb_command p b irqNum with ⟨clear,same⟩ | ⟨first,more⟩
  · rw [same]
    exact .inl ⟨clear,⟨rfl,rfl⟩,rfl⟩
  · exact .inr ⟨by rw [first]; decide,more⟩

/-- A call that is harmless leaves the masks alone; any other starts an
    initialisation. -/
theorem act_masks (p : Pics) (e : Event) :
    (Harmless p e ∧ SameMasks p (act p e) ∧ inits (act p e) = inits p) ∨
      (¬ Harmless p e ∧ inits (act p e) = inits p + 1) := by
  cases e with
  | enable irqNum =>
    have written : act p (.enable irqNum) =
        outb p ((p.of irqNum).irr &&& ~~~(1#8 <<< pinOf irqNum)) (portOf irqNum) := by
      rw [act,enableIrq,inb_portOf]
    rw [written]
    exact outb_masks p irqNum (enable_bit _ (pinOf_lt irqNum))
  | disable irqNum =>
    have written : act p (.disable irqNum) =
        outb p ((p.of irqNum).irr ||| (1#8 <<< pinOf irqNum)) (portOf irqNum) := by
      rw [act,disableIrq,inb_portOf]
    rw [written]
    exact outb_masks p irqNum (disable_bit _ (pinOf_lt irqNum))
  | sendEoi irqNum =>
    rw [act,sendEoi_nothing]
    exact .inl ⟨trivial,⟨rfl,rfl⟩,rfl⟩
  | requests master slave => exact .inl ⟨trivial,⟨rfl,rfl⟩,rfl⟩

/-- Over a run, either every call is harmless and the masks stay, or an
    initialisation is started. -/
theorem run_masks (ran : run step p events = .ok last) :
    (EachStep step Harmless p events ∧ SameMasks p last ∧ inits last = inits p) ∨
      (¬ EachStep step Harmless p events ∧ inits p < inits last) := by
  induction events generalizing p with
  | nil =>
    cases ran
    exact .inl ⟨trivial,⟨rfl,rfl⟩,rfl⟩
  | cons e rest ih =>
    obtain ⟨t,taken,further⟩ := (run_cons p e rest last).mp ran
    cases taken
    have onward : EachStep step Harmless p (e :: rest) ↔ Harmless p e ∧ EachStep step Harmless (act p e) rest := by
      constructor
      · rintro ⟨first,others⟩; exact ⟨first,others _ rfl⟩
      · rintro ⟨first,others⟩; exact ⟨first,fun t taken => by cases taken; exact others⟩
    rw [onward]
    rcases act_masks p e with ⟨harmless,kept,count⟩ | ⟨harmful,count⟩
    · rcases ih further with ⟨all,kept',count'⟩ | ⟨broken,more⟩
      · exact .inl ⟨⟨harmless,all⟩,⟨kept'.1.trans kept.1,kept'.2.trans kept.2⟩,count'.trans count⟩
      · exact .inr ⟨fun all => broken all.2,by omega⟩
    · refine .inr ⟨fun all => harmful all.1,?_⟩
      rcases ih further with ⟨_,_,count'⟩ | ⟨_,more⟩ <;> omega

/-- `i8259_init` makes the request registers the masks. -/
theorem i8259Init_masks (p : Pics) :
    (i8259Init p).master.imr = p.master.irr ∧ (i8259Init p).slave.imr = p.slave.irr := by
  obtain ⟨master,slave⟩ := p
  constructor
  · simp [i8259Init,inb,outb,master8259Port,slave8259Port,Controller.data,Controller.command,icw1]
  · simp [i8259Init,inb,outb,master8259Port,slave8259Port,Controller.data,Controller.command,icw1]

theorem maskBit_same (same : SameMasks p last) (irqNum : Fin 16) : maskBit last irqNum = maskBit p irqNum := by
  unfold maskBit Pics.of
  split
  · rw [same.1]
  · rw [same.2]

/-- The masks are right after a sequence of calls exactly when the request
    registers equal the masks at `i8259_init`, no call finds a command with bit 4
    set, and the last call for each interrupt asks for the mask bit that is there
    already. -/
theorem mask_follows_iff (p : Pics) (events : List Event) (last : Pics) (ran : run step (i8259Init p) events = .ok last) :
    Follows p events last ↔
      (p.master.irr = p.master.imr ∧ p.slave.irr = p.slave.imr) ∧
      EachStep step Harmless (i8259Init p) events ∧
      ∀ irqNum, wanted (maskBit p irqNum) events irqNum = maskBit p irqNum := by
  have found : SameMasks p (i8259Init p) ↔ p.master.irr = p.master.imr ∧ p.slave.irr = p.slave.imr := by
    unfold SameMasks
    rw [(i8259Init_masks p).1,(i8259Init_masks p).2]
  constructor
  · rintro ⟨left,bits,quiet⟩
    rcases run_masks ran with ⟨all,kept,_⟩ | ⟨_,more⟩
    · refine ⟨found.mp left,all,fun irqNum => ?_⟩
      rw [← bits irqNum,maskBit_same kept,maskBit_same left]
    · omega
  · rintro ⟨registers,all,agrees⟩
    have left := found.mpr registers
    rcases run_masks ran with ⟨_,kept,count⟩ | ⟨broken,_⟩
    · refine ⟨left,fun irqNum => ?_,count⟩
      rw [maskBit_same kept,maskBit_same left,agrees irqNum]
    · exact absurd all broken

end

/-- Controllers as `i8259_init` finds them: all lines masked, none requested. -/
def idle : Pics := ⟨⟨0xFF,0,0,0⟩,⟨0xFF,0,0,0⟩⟩

/-- Controllers whose request registers show what their mask registers do. -/
def mirrored : Pics := ⟨⟨0xED,0xED,0,0⟩,⟨0xEE,0xEE,0,0⟩⟩

/-- A key is pressed; the keyboard and the RTC are disabled and enabled again. -/
def maskEvents : List Event := [.requests 2 0,.disable 1,.sendEoi 1,.enable 1,.disable 8,.sendEoi 8,.enable 8]

theorem mask_follows_some : ∃ last, run step (i8259Init mirrored) maskEvents = .ok last ∧ Follows mirrored maskEvents last ∧
    maskBit last 1 = false ∧ maskBit last 8 = false := by
  have leads : Leads (run step (i8259Init mirrored) maskEvents) fun last => maskBit last 1 = false ∧ maskBit last 8 = false :=
    by decide +kernel
  obtain ⟨last,ran,keyboard,rtc⟩ := leads
  have harmless : EachStep step Harmless (i8259Init mirrored) maskEvents := by decide +kernel
  have agrees : ∀ irqNum, wanted (maskBit mirrored irqNum) maskEvents irqNum = maskBit mirrored irqNum := by decide
  exact ⟨last,ran,(mask_follows_iff mirrored _ last ran).mpr ⟨by decide,harmless,agrees⟩,keyboard,rtc⟩

/-- With no request pending, `i8259_init` unmasks every line, and `disable_irq`
    of the keyboard leaves it so; `disable_irq` of line 4 starts an initialisation. -/
theorem mask_follows_fails :
    ¬ SameMasks idle (i8259Init idle) ∧
    (∃ last, run step (i8259Init idle) [.disable 1] = .ok last ∧ maskBit last 1 = false ∧
      ¬ Follows idle [.disable 1] last) ∧
    ∃ last, run step (i8259Init idle) [.disable 4] = .ok last ∧ inits last = inits (i8259Init idle) + 1 := by
  refine ⟨by decide,⟨_,rfl,by decide,fun follows => ?_⟩,_,rfl,by decide⟩
  exact absurd follows.found (by decide)

end MazeOS.InterruptMask
