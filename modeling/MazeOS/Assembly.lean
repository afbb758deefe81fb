import MazeOS.Machines
import Mathlib.Algebra.Ring.Int.Defs
import Mathlib.Algebra.Ring.Nat
import Mathlib.Logic.Function.Basic

/-!
The part of the instruction set of the processor that copying loops need, in the
order of operands of the assembler: the source first. A program is a list of
instructions and labels (`exec`, `step`). A block without jumps runs to its end
(`reaches_block`), and a jump goes to its label (`reaches_jmp`,
`reaches_jz_taken`). A word in memory is four bytes, the lowest first; storing a
word that has been loaded copies four bytes (`store32_load32`).
-/
namespace MazeOS.Assembly
open MazeOS.Machines
universe u

/-! ### Words in memory -/

abbrev Memory := BitVec 32 → UInt8

/-- Byte `i` of a word. -/
def byteOf (word : BitVec 32) (i : Nat) : UInt8 := ⟨word.extractLsb' (8 * i) 8⟩

def load32 (mem : Memory) (a : BitVec 32) : BitVec 32 :=
  (mem (a + 3)).toBitVec ++ (mem (a + 2)).toBitVec ++ (mem (a + 1)).toBitVec ++ (mem a).toBitVec

/-- Four bytes, one after another. -/
def storeBytes (mem : Memory) (a : BitVec 32) (b0 b1 b2 b3 : UInt8) : Memory :=
  Function.update (Function.update (Function.update (Function.update mem a b0) (a + 1) b1) (a + 2) b2) (a + 3) b3

def store32 (mem : Memory) (a word : BitVec 32) : Memory :=
  storeBytes mem a (byteOf word 0) (byteOf word 1) (byteOf word 2) (byteOf word 3)

/-- The bytes of a word that is put together from bytes. -/
theorem byteOf_append (b0 b1 b2 b3 : UInt8) :
    let word : BitVec 32 := b3.toBitVec ++ b2.toBitVec ++ b1.toBitVec ++ b0.toBitVec
    byteOf word 0 = b0 ∧ byteOf word 1 = b1 ∧ byteOf word 2 = b2 ∧ byteOf word 3 = b3 := by
  have lowest : byteOf (b3.toBitVec ++ b2.toBitVec ++ b1.toBitVec ++ b0.toBitVec) 0 = b0 :=
    congrArg UInt8.ofBitVec BitVec.extractLsb'_append_eq_right
  refine ⟨lowest,?_,?_,?_⟩
  · refine congrArg UInt8.ofBitVec (?_ : _ = b1.toBitVec)
    rw [BitVec.extractLsb'_append_eq_of_le (by decide)]
    exact BitVec.extractLsb'_append_eq_right
  · refine congrArg UInt8.ofBitVec (?_ : _ = b2.toBitVec)
    rw [BitVec.extractLsb'_append_eq_of_le (by decide),BitVec.extractLsb'_append_eq_of_le (by decide)]
    exact BitVec.extractLsb'_append_eq_right
  · refine congrArg UInt8.ofBitVec (?_ : _ = b3.toBitVec)
    rw [BitVec.extractLsb'_append_eq_of_le (by decide),BitVec.extractLsb'_append_eq_of_le (by decide)]
    exact BitVec.extractLsb'_append_eq_left

theorem store32_load32 (mem source : Memory) (a b : BitVec 32) :
    store32 mem a (load32 source b) =
      storeBytes mem a (source b) (source (b + 1)) (source (b + 2)) (source (b + 3)) := by
  obtain ⟨lowest,low,high,highest⟩ := byteOf_append (source b) (source (b + 1)) (source (b + 2)) (source (b + 3))
  rw [store32,load32,lowest,low,high,highest]

/-! ### The processor -/

inductive Reg where
  | eax
  | ecx
  | edx
  | esi
  | edi
  deriving DecidableEq

/-- Segment registers. -/
inductive Seg where
  | ds
  | es
  deriving DecidableEq

/-- The zero flag is `zf`, and the direction flag `df`. -/
structure Machine where
  pc : Nat
  eax : BitVec 32
  ecx : BitVec 32
  edx : BitVec 32
  esi : BitVec 32
  edi : BitVec 32
  ds : BitVec 16
  es : BitVec 16
  zf : Bool
  df : Bool
  mem : Memory

namespace Machine

def get (m : Machine) : Reg → BitVec 32
  | .eax => m.eax
  | .ecx => m.ecx
  | .edx => m.edx
  | .esi => m.esi
  | .edi => m.edi

def set (m : Machine) (value : BitVec 32) : Reg → Machine
  | .eax => { m with eax := value }
  | .ecx => { m with ecx := value }
  | .edx => { m with edx := value }
  | .esi => { m with esi := value }
  | .edi => { m with edi := value }

def getSeg (m : Machine) : Seg → BitVec 16
  | .ds => m.ds
  | .es => m.es

def setSeg (m : Machine) (value : BitVec 16) : Seg → Machine
  | .ds => { m with ds := value }
  | .es => { m with es := value }

/-- The instruction after this one. -/
def next (m : Machine) : Machine := { m with pc := m.pc + 1 }

/-- The result of an arithmetic instruction. -/
def setResult (m : Machine) (value : BitVec 32) (r : Reg) : Machine := { m.set value r with zf := value == 0 }

end Machine

inductive Operand where
  | reg (r : Reg)
  | imm (value : BitVec 32)
  deriving DecidableEq

def Operand.value (m : Machine) : Operand → BitVec 32
  | .reg r => m.get r
  | .imm value => value

inductive Instr (L : Type u) where
  | label (l : L)
  | testl (a : Operand) (b : Reg)
  | jz (l : L)
  | jmp (l : L)
  /-- `movb (r), %al`. -/
  | movbLoad (r : Reg)
  /-- `movb %al, (r)`. -/
  | movbStore (r : Reg)
  | movl (a : Operand) (b : Reg)
  | addl (a : Operand) (b : Reg)
  | subl (a : Operand) (b : Reg)
  | andl (a : Operand) (b : Reg)
  /-- For a count from 1 to 31. -/
  | shrl (count : Nat) (b : Reg)
  | movwFrom (s : Seg) (r : Reg)
  | movwTo (r : Reg) (s : Seg)
  | cld
  | repMovsl
  | repStosl
  deriving DecidableEq

theorem fetch_next {L : Type u} {code rest : List (Instr L)} {m : Machine} {i : Instr L}
    (here : code.drop m.pc = i :: rest) : code.drop m.next.pc = rest := by
  change code.drop (m.pc + 1) = rest
  rw [← List.drop_drop,here]
  rfl

section
variable {L : Type u} [DecidableEq L] (base : BitVec 16 → BitVec 32) (code : List (Instr L))

/-- Where a label stands. -/
def target (l : L) : Nat := code.idxOf (.label l)

/-- The next address of a string instruction on words. -/
def advance (m : Machine) (a : BitVec 32) : BitVec 32 := if m.df then a - 4 else a + 4

/-- One instruction; `base` are the bases of the segments. A repeated instruction
    is one step for each repetition, and one when the counter is 0. -/
def exec (m : Machine) : Instr L → Machine
  | .label _ => m.next
  | .testl a b => { m.next with zf := a.value m &&& m.get b == 0 }
  | .jz l => if m.zf then { m with pc := target code l } else m.next
  | .jmp l => { m with pc := target code l }
  | .movbLoad r => { m.next with eax := m.eax.extractLsb' 8 24 ++ (m.mem (base m.ds + m.get r)).toBitVec }
  | .movbStore r => { m.next with mem := Function.update m.mem (base m.ds + m.get r) ⟨m.eax.setWidth 8⟩ }
  | .movl a b => m.next.set (a.value m) b
  | .addl a b => m.next.setResult (m.get b + a.value m) b
  | .subl a b => m.next.setResult (m.get b - a.value m) b
  | .andl a b => m.next.setResult (m.get b &&& a.value m) b
  | .shrl count b => m.next.setResult (m.get b >>> count) b
  | .movwFrom s r => m.next.set ((m.get r).extractLsb' 16 16 ++ m.getSeg s) r
  | .movwTo r s => m.next.setSeg ((m.get r).setWidth 16) s
  | .cld => { m.next with df := false }
  | .repMovsl =>
    if m.ecx = 0 then m.next
    else
      { m with
        ecx := m.ecx - 1
        esi := advance m m.esi
        edi := advance m m.edi
        mem := store32 m.mem (base m.es + m.edi) (load32 m.mem (base m.ds + m.esi)) }
  | .repStosl =>
    if m.ecx = 0 then m.next
    else { m with ecx := m.ecx - 1, edi := advance m m.edi, mem := store32 m.mem (base m.es + m.edi) m.eax }

/-- The machine stops behind the last instruction. -/
def step (m : Machine) : Option Machine := code[m.pc]?.map (exec base code m)

/-! ### Runs of blocks -/

/-- An instruction that goes to the next one. -/
def straight : Instr L → Bool
  | .jz _ | .jmp _ | .repMovsl | .repStosl => false
  | _ => true

/-- The instructions of a block, one after another. -/
def perform (block : List (Instr L)) (m : Machine) : Machine := block.foldl (exec base code) m

variable {code} {m : Machine} {block rest : List (Instr L)} {i : Instr L} {l : L}

theorem step_here (here : code.drop m.pc = i :: rest) : step base code m = some (exec base code m i) := by
  have first : (code.drop m.pc)[0]? = some i := by rw [here]; rfl
  rw [List.getElem?_drop,Nat.add_zero] at first
  rw [step,first]
  rfl

theorem reaches_exec (here : code.drop m.pc = i :: rest) : Reaches (step base code) m (exec base code m i) :=
  passes_step trivial (step_here base here) trivial

theorem exec_pc (code : List (Instr L)) (m : Machine) (plain : straight i = true) :
    (exec base code m i).pc = m.pc + 1 := by
  cases i with
  | label | testl | movbLoad | movbStore | cld => rfl
  | movl _ b | addl _ b | subl _ b | andl _ b | shrl _ b | movwFrom _ b => cases b <;> rfl
  | movwTo _ s => cases s <;> rfl
  | jz | jmp | repMovsl | repStosl => cases plain

/-- A block without jumps runs from its first to its last instruction. -/
theorem reaches_block (here : code.drop m.pc = block ++ rest) (plain : block.all straight = true) :
    Reaches (step base code) m (perform base code block m) ∧
      (perform base code block m).pc = m.pc + block.length ∧ code.drop (perform base code block m).pc = rest := by
  induction block generalizing m with
  | nil => exact ⟨.stay trivial,rfl,here⟩
  | cons i block ih =>
    rw [List.all_cons,Bool.and_eq_true] at plain
    have place := exec_pc base code m plain.1
    have behind : code.drop (exec base code m i).pc = block ++ rest := by
      rw [place]
      exact fetch_next here
    obtain ⟨reaches,pc,further⟩ := ih behind plain.2
    refine ⟨.next trivial (step_here base here) reaches,?_,further⟩
    rw [List.length_cons,← Nat.add_assoc,Nat.add_right_comm,← place]
    exact pc

theorem reaches_jmp (here : code.drop m.pc = .jmp l :: rest) :
    Reaches (step base code) m { m with pc := target code l } := reaches_exec base here

theorem reaches_jz_taken (here : code.drop m.pc = .jz l :: rest) (zero : m.zf = true) :
    Reaches (step base code) m { m with pc := target code l } := by
  have jumped := reaches_exec base here
  rwa [exec,if_pos zero] at jumped

theorem reaches_jz_passed (here : code.drop m.pc = .jz l :: rest) (nonzero : m.zf = false) :
    Reaches (step base code) m m.next := by
  have passed := reaches_exec base here
  rwa [exec,if_neg (by rw [nonzero]; decide)] at passed

end

end MazeOS.Assembly
