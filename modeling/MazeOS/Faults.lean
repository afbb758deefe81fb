import MazeOS.Runs

/-!
Where the meaning of the C code ends. A kernel function of the model either
returns or stops with a `Fault`: an access outside an array, a call through a
null pointer, a return on a stack that holds no return address, a stack that
leaves its page, or a loop that does not end within the number of iterations
it is given. Nothing is assumed about what the machine does after a fault.
-/
namespace MazeOS.Faults

/-- Why a kernel function does not return. An index is the one the code uses. -/
inductive Fault where
  /-- An entry outside `file_inode.data_blocks`. -/
  | dataBlocks (index : Nat)
  /-- An entry of `file_inode.data_blocks` that was not copied from the image. -/
  | uninitialised (index : Nat)
  /-- A `memcpy` of more bytes than its source array holds. -/
  | overrun (count : Nat)
  /-- A store outside the local array `args` of `execute`. -/
  | args (index : Nat)
  /-- A store outside the line buffer of a terminal. -/
  | buffer (index : Nat)
  /-- A column outside a row of `scan_code_1`. -/
  | column (index : Nat)
  /-- An entry outside `child_procs`, or a null entry that the code follows. -/
  | childProcs (terminal : Nat)
  /-- A call through a null `file_ops`. -/
  | nullOps (descriptor : Nat)
  /-- A jump to `BIG_FAT_RETURN` on the empty kernel stack of a new process. -/
  | badReturn
  /-- The kernel stack pointer leaves the page of its process. -/
  | stackOverflow
  /-- `get_term` spins on a terminal number that does not exist. -/
  | noTerminal (number : Nat)
  /-- The iterations given to a loop are used up. -/
  | diverges
  deriving DecidableEq, Repr

/-- A value, or the fault that prevents it. -/
abbrev Checked (α : Type) := Except Fault α

end MazeOS.Faults
