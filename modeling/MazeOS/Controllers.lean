import Mathlib.Data.List.FinRange
import Mathlib.Data.List.TakeWhile
import Mathlib.Data.BitVec
import Mathlib.Tactic.FinCases

/-!
Interrupt controllers of the 8259 family. A chip latches requests, holds back the
masked ones and those that do not outrank the lines in service, and is told by
command words what to forget. Two chips are cascaded when the output of one is a
line of the other. A chip in its plain mode (`normal`) stays in it under words
that mean nothing (`command_small`) and under ends of interrupts that name their
line (`command_eoi`), and passes on the first line that is requested
(`pending_normal`). The poll command, level-triggered lines and the modes of other
processors are left out.
-/
namespace MazeOS.Controllers

abbrev Byte := BitVec 8

/-- The initialisation words that follow the first one. -/
inductive InitWord where
  | icw2 | icw3 | icw4
  deriving DecidableEq

structure Chip where
  /-- The request register. -/
  irr : Byte
  /-- The in-service register. -/
  isr : Byte
  /-- The mask register. -/
  imr : Byte
  /-- The vector of line 0. -/
  base : Nat
  /-- The initialisation words still to come on the data port. -/
  awaiting : List InitWord
  /-- The command port reads the in-service register. -/
  readIsr : Bool
  specialMask : Bool
  /-- Interrupts end when they are acknowledged. -/
  autoEoi : Bool
  autoRotate : Bool
  /-- The line of lowest priority. -/
  lowest : Fin 8

/-- The line of a number. -/
def line (n : Nat) : Fin 8 := Fin.ofNat 8 n

/-- The byte of a line. -/
def lineBit (l : Fin 8) : Byte := 1#8 <<< l.val

/-- A register with the bit of a line given a value. -/
def setLine (register : Byte) (l : Fin 8) (value : Bool) : Byte :=
  if value then register ||| lineBit l else register &&& ~~~lineBit l

namespace Chip

/-! ### Priorities -/

/-- The lines, the one of highest priority first. -/
def order (c : Chip) : List (Fin 8) := (List.finRange 8).map (c.lowest + 1 + ·)

/-- A line in service that holds back the lines behind it. -/
def blocks (c : Chip) (l : Fin 8) : Bool := c.isr.getLsbD l && !(c.specialMask && c.imr.getLsbD l)

/-- The line that the chip passes on. -/
def pending (c : Chip) : Option (Fin 8) :=
  (c.order.takeWhile fun l => !c.blocks l).find? fun l => c.irr.getLsbD l && !c.imr.getLsbD l

/-- The line in service of highest priority. -/
def highest (c : Chip) : Option (Fin 8) := c.order.find? c.blocks

/-- A line is requested. -/
def raise (c : Chip) (l : Fin 8) : Chip := { c with irr := setLine c.irr l true }

/-- The processor acknowledges a line. -/
def acknowledge (c : Chip) (l : Fin 8) : Chip :=
  let c := { c with irr := setLine c.irr l false }
  if c.autoEoi then (if c.autoRotate then { c with lowest := l } else c) else { c with isr := setLine c.isr l true }

/-! ### Command words -/

def finish (c : Chip) (l : Fin 8) : Chip := { c with isr := setLine c.isr l false }

def finishHighest (c : Chip) (rotate : Bool) : Chip :=
  match c.highest with
  | none => c
  | some l => { c.finish l with lowest := if rotate then l else c.lowest }

/-- The second operation command word: rotation, a level that is named, and the
    end of an interrupt, by its bits 7, 6 and 5. -/
def ocw2 (c : Chip) (b : Byte) : Chip :=
  let l := line b.toNat
  match b.getLsbD 7, b.getLsbD 6, b.getLsbD 5 with
  | false,false,false => { c with autoRotate := false }
  | false,false,true => c.finishHighest false
  | false,true,false => c
  | false,true,true => c.finish l
  | true,false,false => { c with autoRotate := true }
  | true,false,true => c.finishHighest true
  | true,true,false => { c with lowest := l }
  | true,true,true => { c.finish l with lowest := l }

/-- The third operation command word. -/
def ocw3 (c : Chip) (b : Byte) : Option Chip :=
  if b.getLsbD 2 then none else some { c with
    specialMask := if b.getLsbD 6 then b.getLsbD 5 else c.specialMask
    readIsr := if b.getLsbD 1 then b.getLsbD 0 else c.readIsr }

/-- The first initialisation word. -/
def icw1 (c : Chip) (b : Byte) : Option Chip :=
  if b.getLsbD 3 || !b.getLsbD 0 then none else some { c with
    irr := 0
    imr := 0
    awaiting := if b.getLsbD 1 then [.icw2,.icw4] else [.icw2,.icw3,.icw4]
    readIsr := false
    specialMask := false
    autoEoi := false
    autoRotate := false
    lowest := 7 }

/-- A byte on the command port. -/
def command (c : Chip) (b : Byte) : Option Chip :=
  if b.getLsbD 4 then c.icw1 b else if b.getLsbD 3 then c.ocw3 b else some (c.ocw2 b)

/-- A byte on the data port. -/
def data (c : Chip) (b : Byte) : Option Chip :=
  match c.awaiting with
  | [] => some { c with imr := b }
  | .icw2 :: rest => some { c with base := b.toNat / 8 * 8, awaiting := rest }
  | .icw3 :: rest => some { c with awaiting := rest }
  | .icw4 :: rest =>
    if b.getLsbD 4 || !b.getLsbD 0 then none else some { c with autoEoi := b.getLsbD 1, awaiting := rest }

/-- What the command port reads. -/
def read (c : Chip) : Byte := if c.readIsr then c.isr else c.irr

/-! ### The plain mode -/

/-- A chip in its plain mode, with a vector for line 0 and its registers. -/
def normal (base : Nat) (irr isr imr : Byte) : Chip := ⟨irr,isr,imr,base,[],false,false,false,false,7⟩

section
variable {base : Nat} {irr isr imr : Byte}

theorem order_normal : (normal base irr isr imr).order = List.finRange 8 := by
  simp [order,normal,List.finRange_succ]

/-- A plain chip with nothing in service passes on the first line that is requested
    and not masked. -/
theorem pending_normal :
    (normal base irr 0 imr).pending = (List.finRange 8).find? fun l : Fin 8 => irr.getLsbD l && !imr.getLsbD l := by
  have free : (List.finRange 8).takeWhile (fun l => !(normal base irr 0 imr).blocks l) = List.finRange 8 :=
    List.takeWhile_eq_self_iff.mpr fun l _ => by simp [blocks,normal]
  rw [pending,order_normal,free]
  rfl

/-- A byte with none of the upper five bits is no command. -/
theorem command_small {b : Byte} (small : b.toNat < 8) :
    (normal base irr isr imr).command b = some (normal base irr isr imr) := by
  have clear : ∀ i, 3 ≤ i → b.getLsbD i = false := by
    intro i large
    have below : b.toNat < 2 ^ i := Nat.lt_of_lt_of_le small (Nat.pow_le_pow_right (by decide : 2 > 0) large)
    rw [BitVec.getLsbD,Nat.testBit_lt_two_pow below]
  simp only [command,ocw2,clear 3 (by decide),clear 4 (by decide),clear 5 (by decide),clear 6 (by decide),
    clear 7 (by decide),Bool.false_eq_true,if_false]
  rfl

/-- The end of interrupt that names a line. -/
theorem command_eoi (l : Fin 8) : (normal base irr isr imr).command (0x60 ||| BitVec.ofNat 8 l) =
    some (normal base irr (setLine isr l false) imr) := by
  fin_cases l <;> rfl

end

end Chip

/-! ### Two chips -/

/-- Two chips, of which the output of the slave is a line of the master. -/
structure Pair where
  master : Chip
  slave : Chip

namespace Pair
variable (cascade : Fin 8)

/-- The master with its line from the slave. -/
def wired (p : Pair) : Chip := { p.master with irr := setLine p.master.irr cascade p.slave.pending.isSome }

/-- The processor acknowledges the interrupt of the master and gets a vector. -/
def acknowledge (p : Pair) : Option (Nat × Pair) :=
  (p.wired cascade).pending.bind fun l =>
    if l = cascade then
      p.slave.pending.map fun m : Fin 8 => (p.slave.base + m,⟨p.master.acknowledge l,p.slave.acknowledge m⟩)
    else some (p.master.base + l,⟨p.master.acknowledge l,p.slave⟩)

end Pair

end MazeOS.Controllers
