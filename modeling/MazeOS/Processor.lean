import MazeOS.Words

/-!
A processor in protected mode with flat segments, as far as the entry of a kernel
needs it: stack instructions, calls and jumps, data segment registers, and the
ways in and out of the kernel. `enter` goes through a gate of the interrupt table,
on another stack when the privilege changes, and `iret` comes back, also to code
of less privilege, for which it empties data segment registers of more privilege.
Instructions have addresses of their own (`Loaded`), and their lengths are left
open. A stack is described from its top down (`place`): words at different places
do not overlap (`load32_store32_place`).
-/
namespace MazeOS.Processor
open MazeOS.Assembly MazeOS.Words
universe u

/-! ### Registers and flags -/

inductive Reg where
  | eax
  | ecx
  | edx
  | ebx
  | esp
  | ebp
  | esi
  | edi
  deriving DecidableEq

inductive Seg where
  | cs
  | ss
  | ds
  | es
  deriving DecidableEq

structure Machine where
  eip : BitVec 32
  regs : Reg → BitVec 32
  segs : Seg → BitVec 16
  flags : BitVec 32
  mem : Memory

def carryFlag : Nat := 0
def parityFlag : Nat := 2
def adjustFlag : Nat := 4
def zeroFlag : Nat := 6
def signFlag : Nat := 7
def trapFlag : Nat := 8
def interruptFlag : Nat := 9
def overflowFlag : Nat := 11
def nestedFlag : Nat := 14
def resumeFlag : Nat := 16
def virtualFlag : Nat := 17

def setBit (word : BitVec 32) (bit : Nat) (value : Bool) : BitVec 32 :=
  if value then word ||| BitVec.twoPow 32 bit else word &&& ~~~BitVec.twoPow 32 bit

theorem getLsbD_setBit {bit : Nat} (inside : bit < 32) (word : BitVec 32) (value : Bool) (i : Nat) :
    (setBit word bit value).getLsbD i = if i = bit then value else word.getLsbD i := by
  by_cases here : i = bit
  · subst here
    cases value <;> simp [setBit,inside]
  · have apart : ¬ bit = i := fun same => here same.symm
    cases value with
    | true => simp [setBit,here,apart]
    | false =>
      by_cases small : i < 32
      · simp [setBit,here,small]
      · have large : 32 ≤ i := Nat.le_of_not_lt small
        simp [setBit,here,large]

/-- The flags after an arithmetic instruction. -/
def resultFlags (flags result : BitVec 32) (carry adjust overflow : Bool) : BitVec 32 :=
  let ones := (List.range 8).countP result.getLsbD
  setBit (setBit (setBit (setBit (setBit (setBit flags parityFlag (ones % 2 == 0)) adjustFlag adjust)
    signFlag result.msb) overflowFlag overflow) zeroFlag (result == 0)) carryFlag carry

theorem resultFlags_carry (flags result : BitVec 32) (carry adjust overflow : Bool) :
    (resultFlags flags result carry adjust overflow).getLsbD carryFlag = carry := by
  rw [resultFlags,getLsbD_setBit (by decide),if_pos rfl]

theorem resultFlags_zero (flags result : BitVec 32) (carry adjust overflow : Bool) :
    (resultFlags flags result carry adjust overflow).getLsbD zeroFlag = (result == 0) := by
  rw [resultFlags,getLsbD_setBit (by decide),if_neg (by decide),getLsbD_setBit (by decide),if_pos rfl]

def subFlags (flags a b : BitVec 32) : BitVec 32 :=
  resultFlags flags (a - b) (a.ult b) ((a &&& 15).ult (b &&& 15)) (BitVec.ssubOverflow a b)

def addFlags (flags a b : BitVec 32) : BitVec 32 :=
  resultFlags flags (a + b) (BitVec.uaddOverflow a b) (decide (15 < (a &&& 15).toNat + (b &&& 15).toNat))
    (BitVec.saddOverflow a b)

/-- What `popf` loads at privilege 0. -/
def popFlags (flags word : BitVec 32) : BitVec 32 :=
  setBit (setBit word resumeFlag false) virtualFlag (flags.getLsbD virtualFlag)

/-- What `pushf` stores. -/
def pushFlags (flags : BitVec 32) : BitVec 32 := setBit (setBit flags resumeFlag false) virtualFlag false

/-! ### Instructions -/

inductive Instr (L : Type u) where
  | pushl (r : Reg)
  | popl (r : Reg)
  | pushSeg (s : Seg)
  | popSeg (s : Seg)
  | pushfl
  | popfl
  | pushal
  | popal
  | movwImm (value : BitVec 16) (r : Reg)
  | movwTo (r : Reg) (s : Seg)
  | movlImm (value : BitVec 32) (r : Reg)
  | addl (value : BitVec 32) (r : Reg)
  | cmpl (value : BitVec 32) (r : Reg)
  | jb (l : L)
  | ja (l : L)
  | jmp (l : L)
  | call (l : L)
  /-- `call *table(,r,4)`; the table is part of the code, `none` is a word 0. -/
  | callTable (table : List (Option L)) (r : Reg)
  | int (vector : Nat)
  | iret

inductive Item (L : Type u) where
  | label (l : L)
  | instr (i : Instr L)

/-- An entry of the interrupt table. -/
structure Gate where
  offset : BitVec 32
  selector : BitVec 16
  kind : Nat
  dpl : Nat
  present : Bool

def interruptGate : Nat := 14
def trapGate : Nat := 15

/-- The fields of the two words of an entry. -/
def gateOf (low high : Nat) : Gate where
  offset := BitVec.ofNat 32 (bits high 16 16 * 2 ^ 16 + bits low 0 16)
  selector := BitVec.ofNat 16 (bits low 16 16)
  kind := bits high 8 5
  dpl := bits high 13 2
  present := bits high 15 1 == 1

/-- What does not change while the processor runs: the code with the address
    behind each instruction, the interrupt table, the place of the task state, the
    privileges of the descriptors, how a selector is widened when it is pushed, and
    how many bytes a stack of the kernel may take. -/
structure System (L : Type u) where
  fetch : BitVec 32 → Option (Instr L × BitVec 32)
  address : L → BitVec 32
  gates : Nat → Gate
  tss : BitVec 32
  privilege : BitVec 16 → Nat
  widen : BitVec 16 → BitVec 32
  widen_low : ∀ selector, (widen selector).setWidth 16 = selector
  room : Nat
  room_small : room ≤ 2 ^ 31

/-- The code from an address on is a listing. -/
def Loaded {L : Type u} (sys : System L) : BitVec 32 → List (Item L) → Prop
  | _, [] => True
  | a, .label l :: rest => sys.address l = a ∧ Loaded sys a rest
  | a, .instr i :: rest => ∃ next, sys.fetch a = some (i,next) ∧ Loaded sys next rest

/-! ### Stack and segment registers -/

/-- The stack pointer with some words on a stack. -/
def place (top : BitVec 32) (words : Nat) : BitVec 32 := top - BitVec.ofNat 32 (4 * words)

theorem place_zero (top : BitVec 32) : place top 0 = top := BitVec.sub_zero top

theorem place_succ (top : BitVec 32) (n : Nat) : place top n - 4 = place top (n + 1) := by
  unfold place
  bv_omega

theorem place_pred (top : BitVec 32) (n : Nat) : place top (n + 1) + 4 = place top n := by
  unfold place
  bv_omega

/-- How many bytes are on the stack. -/
theorem sub_place {top : BitVec 32} {n : Nat} (small : 4 * n < 2 ^ 32) : (top - place top n).toNat = 4 * n := by
  unfold place
  bv_omega

theorem place_add_ne {top : BitVec 32} {i j k l : Nat} (small : 4 * i < 2 ^ 32) (small' : 4 * j < 2 ^ 32)
    (apart : i ≠ j) (byte : k < 4) (byte' : l < 4) :
    place top i + BitVec.ofNat 32 k ≠ place top j + BitVec.ofNat 32 l := by
  unfold place
  bv_omega

/-- Words at different places do not overlap. -/
theorem load32_store32_place {top : BitVec 32} {i j : Nat} (mem : Memory) (word : BitVec 32) (small : 4 * i < 2 ^ 32)
    (small' : 4 * j < 2 ^ 32) (apart : i ≠ j) :
    load32 (store32 mem (place top i) word) (place top j) = load32 mem (place top j) := by
  have same (l : Nat) (byte : l < 4) : store32 mem (place top i) word (place top j + BitVec.ofNat 32 l) =
      mem (place top j + BitVec.ofNat 32 l) := by
    have differs (k : Nat) (byte' : k < 4) : place top j + BitVec.ofNat 32 l ≠ place top i + BitVec.ofNat 32 k :=
      place_add_ne small' small apart.symm byte byte'
    refine (store32_apply mem (place top i) word).2.2.2.2 _ ?_ (differs 1 (by decide)) (differs 2 (by decide))
      (differs 3 (by decide))
    simpa using differs 0 (by decide)
  have zeroth : store32 mem (place top i) word (place top j) = mem (place top j) := by simpa using same 0 (by decide)
  have first := same 1 (by decide)
  have second := same 2 (by decide)
  have third := same 3 (by decide)
  simp only [load32]
  rw [zeroth,show (1 : BitVec 32) = BitVec.ofNat 32 1 from rfl,first,show (2 : BitVec 32) = BitVec.ofNat 32 2 from rfl,
    second,show (3 : BitVec 32) = BitVec.ofNat 32 3 from rfl,third]

/-- A selector that names no segment. -/
def Null (selector : BitVec 16) : Prop := selector.toNat / 4 = 0

instance (selector : BitVec 16) : Decidable (Null selector) := inferInstanceAs (Decidable (_ = _))

/-- The privilege that a selector asks for. -/
def requested (selector : BitVec 16) : Nat := selector.toNat % 4

namespace Machine

/-- The privilege of the code that runs. -/
def cpl (m : Machine) : Nat := requested (m.segs .cs)

def push (m : Machine) (word : BitVec 32) : Machine :=
  { m with regs := Function.update m.regs .esp (m.regs .esp - 4), mem := store32 m.mem (m.regs .esp - 4) word }

/-- The word at the stack pointer. -/
def top (m : Machine) : BitVec 32 := load32 m.mem (m.regs .esp)

def pop (m : Machine) : Machine := { m with regs := Function.update m.regs .esp (m.regs .esp + 4) }

def setReg (m : Machine) (r : Reg) (value : BitVec 32) : Machine := { m with regs := Function.update m.regs r value }

section
variable (m : Machine) (word value : BitVec 32) (r : Reg)

@[simp] theorem push_eip : (m.push word).eip = m.eip := rfl
@[simp] theorem push_segs : (m.push word).segs = m.segs := rfl
@[simp] theorem push_flags : (m.push word).flags = m.flags := rfl
@[simp] theorem push_mem : (m.push word).mem = store32 m.mem (m.regs .esp - 4) word := rfl
@[simp] theorem push_esp : (m.push word).regs .esp = m.regs .esp - 4 := by simp [push]
@[simp] theorem pop_eip : m.pop.eip = m.eip := rfl
@[simp] theorem pop_segs : m.pop.segs = m.segs := rfl
@[simp] theorem pop_flags : m.pop.flags = m.flags := rfl
@[simp] theorem pop_mem : m.pop.mem = m.mem := rfl
@[simp] theorem pop_esp : m.pop.regs .esp = m.regs .esp + 4 := by simp [pop]
@[simp] theorem setReg_segs : (m.setReg r value).segs = m.segs := rfl
@[simp] theorem setReg_flags : (m.setReg r value).flags = m.flags := rfl
@[simp] theorem setReg_mem : (m.setReg r value).mem = m.mem := rfl

theorem push_regs {r : Reg} (other : r ≠ .esp) : (m.push word).regs r = m.regs r := Function.update_of_ne other _ _

theorem pop_regs {r : Reg} (other : r ≠ .esp) : m.pop.regs r = m.regs r := Function.update_of_ne other _ _

theorem setReg_regs (q : Reg) : (m.setReg r value).regs q = if q = r then value else m.regs q := by
  simp [setReg,Function.update_apply]

end

end Machine

section
variable {L : Type u} (sys : System L)

/-- Data segments that code of a privilege may use. -/
def Loadable (cpl : Nat) (selector : BitVec 16) : Prop :=
  Null selector ∨ max cpl (requested selector) ≤ sys.privilege selector

instance (cpl : Nat) (selector : BitVec 16) : Decidable (Loadable sys cpl selector) := inferInstanceAs (Decidable (_ ∨ _))

/-- A data segment register is loaded, or the processor raises an exception,
    which is not followed. -/
def loadSeg (m : Machine) (s : Seg) (selector : BitVec 16) : Option Machine :=
  if s ≠ .cs ∧ s ≠ .ss ∧ Loadable sys m.cpl selector then some { m with segs := Function.update m.segs s selector } else none

/-! ### Into the kernel and back -/

/-- `esp0` and `ss0` of the task. -/
def kernelStack (mem : Memory) : BitVec 32 × BitVec 16 :=
  (load32 mem (sys.tss + 4),(load32 mem (sys.tss + 8)).setWidth 16)

/-- The flags of a handler. -/
def handlerFlags (g : Gate) (flags : BitVec 32) : BitVec 32 :=
  let cleared := setBit (setBit (setBit (setBit flags trapFlag false) nestedFlag false) resumeFlag false) virtualFlag false
  if g.kind = interruptGate then setBit cleared interruptFlag false else cleared

/-- The stack that a handler runs on: its own if it has more privilege. -/
def onStack (g : Gate) (m : Machine) : Machine :=
  if sys.privilege g.selector < m.cpl then
    let (esp,ss) := kernelStack sys m.mem
    (({ m with segs := Function.update m.segs .ss ss }.setReg .esp esp).push (sys.widen (m.segs .ss))).push (m.regs .esp)
  else m

/-- The processor goes through a gate, with the address to come back to. An
    exception on the way is not followed. -/
def enter (m : Machine) (vector : Nat) (error : Option (BitVec 32)) (back : BitVec 32) : Option Machine :=
  let g := sys.gates vector
  if g.present ∧ (g.kind = interruptGate ∨ g.kind = trapGate) ∧ ¬ Null g.selector ∧
      sys.privilege g.selector ≤ m.cpl then
    let framed := (((onStack sys g m).push m.flags).push (sys.widen (m.segs .cs))).push back
    let framed := match error with
      | none => framed
      | some code => framed.push code
    some { framed with
      eip := g.offset
      segs := Function.update framed.segs .cs
        (BitVec.ofNat 16 (g.selector.toNat / 4 * 4 + sys.privilege g.selector))
      flags := handlerFlags g m.flags }
  else none

/-- General protection, the exception on a gate that code may not use. -/
def protectionVector : Nat := 13

/-- `int`; the error code names the entry of the interrupt table. -/
def interrupt (m : Machine) (vector : Nat) (next : BitVec 32) : Option Machine :=
  if (sys.gates vector).dpl < m.cpl then
    enter sys m protectionVector (some (BitVec.ofNat 32 (vector * 8 + 2))) m.eip
  else enter sys m vector none next

/-- What is left of a data segment register for code of less privilege. -/
def demoted (cpl : Nat) (selector : BitVec 16) : BitVec 16 :=
  if ¬ Null selector ∧ sys.privilege selector < cpl then 0 else selector

/-- `iret` at privilege 0. -/
def iret (m : Machine) : Option Machine :=
  let cs : BitVec 16 := m.pop.top.setWidth 16
  if m.cpl ≠ 0 ∨ Null cs ∨ sys.privilege cs ≠ requested cs then none
  else
    let same := { m.pop.pop.pop with
      eip := m.top
      segs := Function.update m.segs .cs cs
      flags := m.pop.pop.top }
    if requested cs = 0 then some same
    else
      let esp := m.pop.pop.pop.top
      let ss : BitVec 16 := m.pop.pop.pop.pop.top.setWidth 16
      if requested ss ≠ requested cs ∨ sys.privilege ss ≠ requested cs then none
      else some { same.setReg .esp esp with
        segs := fun
          | .cs => cs
          | .ss => ss
          | .ds => demoted sys (requested cs) (m.segs .ds)
          | .es => demoted sys (requested cs) (m.segs .es) }

/-! ### Instructions at work -/

def allRegs : List Reg := [.eax,.ecx,.edx,.ebx,.esp,.ebp,.esi,.edi]

def pushAll (m : Machine) : Machine := (allRegs.map m.regs).foldl Machine.push m

/-- The stack pointer that `pushal` stored is skipped. -/
def popInto (m : Machine) (r : Reg) : Machine := if r = .esp then m.pop else m.pop.setReg r m.top

def popAll (m : Machine) : Machine := allRegs.reverse.foldl popInto m

def exec (m : Machine) (next : BitVec 32) : Instr L → Option Machine
  | .pushl r => some { m.push (m.regs r) with eip := next }
  | .popl r => some { m.pop.setReg r m.top with eip := next }
  | .pushSeg s => some { m.push (sys.widen (m.segs s)) with eip := next }
  | .popSeg s => loadSeg sys { m.pop with eip := next } s (m.top.setWidth 16)
  | .pushfl => some { m.push (pushFlags m.flags) with eip := next }
  | .popfl => if m.cpl = 0 then some { m.pop with eip := next, flags := popFlags m.flags m.top } else none
  | .pushal => some { pushAll m with eip := next }
  | .popal => some { popAll m with eip := next }
  | .movwImm value r => some { m.setReg r ((m.regs r).extractLsb' 16 16 ++ value) with eip := next }
  | .movwTo r s => loadSeg sys { m with eip := next } s ((m.regs r).setWidth 16)
  | .movlImm value r => some { m.setReg r value with eip := next }
  | .addl value r => some { m.setReg r (m.regs r + value) with eip := next, flags := addFlags m.flags (m.regs r) value }
  | .cmpl value r => some { m with eip := next, flags := subFlags m.flags (m.regs r) value }
  | .jb l => some { m with eip := if m.flags.getLsbD carryFlag then sys.address l else next }
  | .ja l => some { m with
      eip := if !m.flags.getLsbD carryFlag && !m.flags.getLsbD zeroFlag then sys.address l else next }
  | .jmp l => some { m with eip := sys.address l }
  | .call l => some { m.push next with eip := sys.address l }
  | .callTable table r =>
    if Null (m.segs .ds) then none
    else table[(m.regs r).toNat]?.map fun entry => { m.push next with eip := (entry.map sys.address).getD 0 }
  | .int vector => interrupt sys m vector next
  | .iret => iret sys m

/-- One instruction. -/
def step (m : Machine) : Option Machine := (sys.fetch m.eip).bind fun found => exec sys m found.2 found.1

end

end MazeOS.Processor
