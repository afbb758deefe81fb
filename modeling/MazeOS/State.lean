import MazeOS.Filesystem
import MazeOS.Paging

/-!
The state of the kernel: the process control blocks of `process.h`, the
terminals of `terminal.h`, the static variables of `process.c`, `terminal.c`
and `keyboard.c`, the page tables, video memory, and the registers that the
kernel saves and restores. An address of a process control block is a number,
and 0 is the null pointer.

`esp` is the kernel stack pointer of the running process: the register while
the process is in the kernel, and the value that the next trap loads from the
TSS while it is in user mode. The interrupt controllers and the RTC are no part
of this state.
-/
namespace MazeOS.State
open MazeOS.Filesystem MazeOS.Paging

def maxProcesses : Nat := 6
def maxTerminals : Nat := 3
def maxOpenFiles : Nat := 8
def argsLength : Nat := 128
def returnException : Int := 256

theorem terminal_cases {t : Nat} (inside : t < maxTerminals) : t = 0 ∨ t = 1 ∨ t = 2 := by
  unfold maxTerminals at inside
  omega

/-- The four tables of file operations in `syscalls.c`. -/
inductive FileOps where
  | fs
  | rtc
  | stdin
  | stdout
  deriving DecidableEq, Inhabited

/-- `file_desc_t`; a null `file_ops` is `none`. -/
structure FileDesc where
  fileOps : Option FileOps
  inode : Nat
  pos : Nat
  flags : Nat
  deriving DecidableEq, Inhabited

/-- `pcb_t`. -/
structure Pcb where
  esp0 : Nat
  pid : Nat
  retval : Int
  pde : Pde4M
  pdeVirtAddr : Nat
  vidmemPte : Pte
  vidmemVirtAddr : Nat
  esp : Nat
  ebp : Nat
  kEsp : Nat
  kEbp : Nat
  fds : Nat → FileDesc
  args : Nat → UInt8
  argsLength : Nat
  parent : Nat
  deriving Inhabited

/-- The line buffer of a terminal and the flags of its handshake. -/
structure Line where
  bufferSize : Nat
  buffer : Nat → UInt8
  ack : Bool
  readAck : Bool
  deriving Inhabited

/-- The processes of a terminal, the first one first. -/
structure Procs where
  childProcs : Nat → Nat
  numProcs : Nat
  deriving Inhabited

/-- `terminal_t`. -/
structure Terminal extends Line, Procs where
  xPos : Nat
  yPos : Nat
  virtVidmemBackup : Nat
  physVidmemBackup : Nat
  attrib : UInt8
  deriving Inhabited

/-- The modifier flags of `keyboard.c`. -/
structure Modifiers where
  lShift : Bool
  rShift : Bool
  caps : Bool
  lCtrl : Bool
  rCtrl : Bool
  lAlt : Bool
  rAlt : Bool
  deriving DecidableEq, Inhabited

structure Kernel where
  availablePids : Nat → UInt8
  execTerm : Nat
  currTerminal : Nat
  terminals : Nat → Terminal
  /-- The process control block at each address of kernel memory. -/
  pcbs : Nat → Pcb
  /-- The 4MB page of each pid, by virtual address. -/
  pages : Nat → Nat → UInt8
  paging : PageTables
  tssEsp0 : Nat
  esp : Nat
  ebp : Nat
  /-- The value in `eax` at the last jump to `BIG_FAT_RETURN`. -/
  eax : Int
  /-- Physical memory, for the frames of video memory. -/
  phys : Nat → UInt8
  /-- The position in the cursor register of the VGA. -/
  cursor : Nat
  modifiers : Modifiers
  deriving Inhabited

def activeTerm (k : Kernel) : Terminal := k.terminals k.currTerminal
def executingTerm (k : Kernel) : Terminal := k.terminals k.execTerm

/-- `esp & ESP_PCB_MASK`: the start of the 8KB page of a kernel stack. -/
def pcbOf (esp : Nat) : Nat := esp &&& 0xFFFFE000

/-- `get_pcb`. -/
def getPcb (k : Kernel) : Nat := pcbOf k.esp

/-- `_8MB - _4B - (pid - 1) * _8KB`: the top of the kernel stack of a process. -/
def esp0Of (pid : Nat) : Nat := 0x800000 - 4 - (pid - 1) * 0x2000

def setTerminal (k : Kernel) (t : Nat) (terminal : Terminal) : Kernel :=
  { k with terminals := Function.update k.terminals t terminal }

def setPcb (k : Kernel) (address : Nat) (pcb : Pcb) : Kernel :=
  { k with pcbs := Function.update k.pcbs address pcb }

/-- The start of a page of 8KB is fixed by the mask. -/
theorem pcbOf_eq {esp : Nat} (small : esp < 2 ^ 32) : pcbOf esp = esp / 8192 * 8192 := by
  have mask : (0xFFFFE000 : Nat) = (2 ^ 19 - 1) <<< 13 := by decide
  have shifted : esp / 8192 * 8192 = (esp >>> 13) <<< 13 := by
    rw [Nat.shiftRight_eq_div_pow,Nat.shiftLeft_eq]
  rw [pcbOf,mask,shifted]
  apply Nat.eq_of_testBit_eq
  intro i
  simp only [Nat.testBit_and,Nat.testBit_shiftLeft,Nat.testBit_shiftRight,Nat.testBit_two_pow_sub_one]
  by_cases low : 13 ≤ i
  · have index : 13 + (i - 13) = i := by omega
    simp only [low,decide_true,Bool.true_and,index]
    by_cases high : i - 13 < 19
    · simp [high]
    · have zero : esp.testBit i = false := Nat.testBit_lt_two_pow (Nat.lt_of_lt_of_le small
        (Nat.pow_le_pow_right (by decide) (by omega)))
      simp [zero]
  · simp [low]

end MazeOS.State
