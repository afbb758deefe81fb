import MazeOS.State

/-!
The display functions of `lib.c`. They write video memory through virtual
addresses: `putc`, `do_backspace` and `clear` of the active terminal through
0xB8000, `putc_buffer` of the executing terminal through its backup page. The
loops are functions of an address translation, a memory and a cursor; the
kernel functions apply them to the page tables and the terminals. `Draws` says
that a function changes nothing but video memory, cursors and the cursor
register.
-/
namespace MazeOS.Display
open MazeOS.Paging MazeOS.State

def numCols : Nat := 80
def numRows : Nat := 25
def space : UInt8 := 32

/-- Memory, and the cursor of a terminal. -/
structure Screen where
  mem : Nat → UInt8
  xPos : Nat
  yPos : Nat

section
variable (tr : Nat → Option Nat)

/-- A store to an unmapped address would fault; it leaves memory unchanged. -/
def store (mem : Nat → UInt8) (address : Nat) (b : UInt8) : Nat → UInt8 :=
  match tr address with
  | some physical => Function.update mem physical b
  | none => mem

def load (mem : Nat → UInt8) (address : Nat) : UInt8 :=
  match tr address with
  | some physical => mem physical
  | none => 0

/-- `memcpy`, byte by byte. -/
def memcpy (mem : Nat → UInt8) (dest src : Nat) : Nat → Nat → UInt8
  | 0 => mem
  | n + 1 => store tr (memcpy mem dest src n) (dest + n) (load tr (memcpy mem dest src n) (src + n))

/-- The address of a cell of the display at `writeMem`. -/
def cellAddress (writeMem x y : Nat) : Nat := writeMem + (numCols * y + x) * 2

/-- A character and its attribute, stored in a cell. -/
def drawCell (mem : Nat → UInt8) (writeMem x y : Nat) (c attrib : UInt8) : Nat → UInt8 :=
  store tr (store tr mem (cellAddress writeMem x y) c) (cellAddress writeMem x y + 1) attrib

/-- The first loop of `shift_display`, after `n` rows have moved up. -/
def shiftRows (mem : Nat → UInt8) (writeMem : Nat) : Nat → Nat → UInt8
  | 0 => mem
  | n + 1 => memcpy tr (shiftRows mem writeMem n) (cellAddress writeMem 0 n) (cellAddress writeMem 0 (n + 1))
      (numCols * 2)

/-- The second loop of `shift_display`, after `n` cells of the last row. -/
def blankRow (mem : Nat → UInt8) (writeMem : Nat) (attrib : UInt8) : Nat → Nat → UInt8
  | 0 => mem
  | n + 1 => drawCell tr (blankRow mem writeMem attrib n) writeMem n (numRows - 1) space attrib

/-- `shift_display`, with the attribute that it chooses. -/
def shiftDisplay (mem : Nat → UInt8) (writeMem : Nat) (attrib : UInt8) : Nat → UInt8 :=
  blankRow tr (shiftRows tr mem writeMem (numRows - 1)) writeMem attrib numCols

/-- The cursor goes to the next row, which scrolls in the last row. -/
def nextRow (s : Screen) (writeMem : Nat) (fill : UInt8) : Screen :=
  if s.yPos = numRows - 1 then ⟨shiftDisplay tr s.mem writeMem fill,0,s.yPos⟩ else ⟨s.mem,0,s.yPos + 1⟩

/-- What `putc` and `putc_buffer` have in common: the display at `writeMem`, the
    attribute of the cell and the attribute of a scrolled row. -/
def putcAt (writeMem : Nat) (attrib fill : UInt8) (s : Screen) (c : UInt8) : Screen :=
  if c = 10 ∨ c = 13 then nextRow tr s writeMem fill
  else
    let drawn : Screen := ⟨drawCell tr s.mem writeMem s.xPos s.yPos c attrib,s.xPos + 1,s.yPos⟩
    if drawn.xPos ≥ numCols then nextRow tr drawn writeMem fill else drawn

/-- The cursor goes back one cell; `y_pos` is unsigned. -/
def backOne (s : Screen) : Screen :=
  if s.xPos ≠ 0 then { s with xPos := s.xPos - 1 }
  else { s with xPos := numCols - 1, yPos := (s.yPos + (2 ^ 32 - 1)) % 2 ^ 32 }

/-- `do_backspace` on the display at `writeMem`. -/
def backspaceAt (writeMem : Nat) (attrib : UInt8) (s : Screen) : Screen :=
  if s.xPos = 0 ∧ s.yPos = 0 then s
  else backOne (putcAt tr writeMem attrib attrib (backOne s) space)

/-- The loop of `clear`, after `n` cells. -/
def clearCells (mem : Nat → UInt8) (writeMem : Nat) (attrib : UInt8) : Nat → Nat → UInt8
  | 0 => mem
  | n + 1 => store tr (store tr (clearCells mem writeMem attrib n) (writeMem + n * 2) space)
      (writeMem + n * 2 + 1) attrib

end

/-! ### Functions of the kernel -/

/-- The screen that the kernel has for a terminal. -/
def screenOf (k : Kernel) (t : Nat) : Screen := ⟨k.phys,(k.terminals t).xPos,(k.terminals t).yPos⟩

/-- The kernel after a screen has changed. -/
def withScreen (k : Kernel) (t : Nat) (s : Screen) : Kernel :=
  { k with
    phys := s.mem
    terminals := Function.update k.terminals t { k.terminals t with xPos := s.xPos, yPos := s.yPos } }

/-- `update_cursor`; the position is an `unsigned short`. -/
def updateCursor (k : Kernel) (col row : Nat) : Kernel := { k with cursor := (row * numCols + col) % 2 ^ 16 }

/-- The attribute `shift_display` uses for the row it blanks. -/
def shiftAttrib (k : Kernel) (writeMem : Nat) : UInt8 :=
  if writeMem = videoMemStart then (activeTerm k).attrib else (executingTerm k).attrib

/-- `putc`. -/
def putc (k : Kernel) (c : UInt8) : Kernel :=
  let s := putcAt (translate k.paging) videoMemStart (activeTerm k).attrib (shiftAttrib k videoMemStart)
    (screenOf k k.currTerminal) c
  updateCursor (withScreen k k.currTerminal s) s.xPos s.yPos

/-- `putc_buffer`. -/
def putcBuffer (k : Kernel) (c : UInt8) : Kernel :=
  let writeMem := (executingTerm k).virtVidmemBackup
  let s := putcAt (translate k.paging) writeMem (executingTerm k).attrib (shiftAttrib k writeMem)
    (screenOf k k.execTerm) c
  let k' := withScreen k k.execTerm s
  if k.execTerm = k.currTerminal then updateCursor k' s.xPos s.yPos else k'

/-- `do_backspace`. It writes the cursor register three times; the last value is
    that of the final cursor. -/
def doBackspace (k : Kernel) : Kernel :=
  if (activeTerm k).xPos = 0 ∧ (activeTerm k).yPos = 0 then k
  else
    let s := backspaceAt (translate k.paging) videoMemStart (activeTerm k).attrib (screenOf k k.currTerminal)
    updateCursor (withScreen k k.currTerminal s) s.xPos s.yPos

/-- `clear`. -/
def clear (k : Kernel) : Kernel :=
  { k with phys := clearCells (translate k.paging) k.phys videoMemStart (activeTerm k).attrib (numRows * numCols) }

/-- `clear_setpos`. -/
def clearSetpos (k : Kernel) (x y : Nat) : Kernel :=
  updateCursor (withScreen (clear k) k.currTerminal ⟨(clear k).phys,x,y⟩) x y

/-- `printf` of a text without conversion specifiers. -/
def printf (k : Kernel) (text : List UInt8) : Kernel := text.foldl putc k

/-- `terminal_write` of the bytes of a buffer: its loop between masking and
    unmasking the keyboard. -/
def terminalWrite (k : Kernel) (text : List UInt8) : Kernel := text.foldl putcBuffer k

/-! ### Copies -/

theorem store_self (mem : Nat → UInt8) (address : Nat) (b : UInt8) :
    store some mem address b = Function.update mem address b :=
  rfl

/-- A copy to a destination apart from the source. -/
theorem memcpy_apart (mem : Nat → UInt8) {dest src n : Nat} (apart : dest + n ≤ src ∨ src + n ≤ dest) :
    memcpy some mem dest src n = Bytes.copyInto mem dest (fun i => mem (src + i)) n := by
  induction n with
  | zero =>
    funext a
    rw [Bytes.copyInto_outside (by omega)]
    rfl
  | succ n ih =>
    rw [memcpy,ih (by omega)]
    funext a
    simp only [store_self,load]
    by_cases last : a = dest + n
    · subst last
      rw [Function.update_self,Bytes.copyInto_outside (by omega),Bytes.copyInto_inside (by omega) (by omega)]
      congr 1
      omega
    · rw [Function.update_of_ne last]
      by_cases inside : dest ≤ a ∧ a < dest + n
      · rw [Bytes.copyInto_inside inside.1 inside.2,Bytes.copyInto_inside inside.1 (by omega)]
      · rw [Bytes.copyInto_outside inside,Bytes.copyInto_outside (by omega)]

/-! ### Nothing but the display changes -/

/-- The kernel with other video memory, cursor register and cursors. -/
def drawn (k : Kernel) (phys : Nat → UInt8) (cursor : Nat) (place : Nat → Nat × Nat) : Kernel :=
  { k with
    phys := phys
    cursor := cursor
    terminals := fun t => { k.terminals t with xPos := (place t).1, yPos := (place t).2 } }

/-- Nothing changes but video memory, the cursor register and cursors. -/
def Draws (k after : Kernel) : Prop := ∃ phys cursor place, after = drawn k phys cursor place

theorem draws_refl (k : Kernel) : Draws k k :=
  ⟨k.phys,k.cursor,fun t => ((k.terminals t).xPos,(k.terminals t).yPos),rfl⟩

theorem draws_trans {k l m : Kernel} (first : Draws k l) (second : Draws l m) : Draws k m := by
  obtain ⟨_,_,_,rfl⟩ := first
  obtain ⟨phys,cursor,place,rfl⟩ := second
  exact ⟨phys,cursor,place,rfl⟩

theorem withScreen_draws (k : Kernel) (t : Nat) (s : Screen) : Draws k (withScreen k t s) := by
  refine ⟨s.mem,k.cursor,fun u => if u = t then (s.xPos,s.yPos) else ((k.terminals u).xPos,(k.terminals u).yPos),?_⟩
  simp only [withScreen,drawn,Kernel.mk.injEq,true_and,and_true]
  funext u
  by_cases same : u = t
  · subst same; simp
  · simp [same]

theorem updateCursor_draws (k : Kernel) (col row : Nat) : Draws k (updateCursor k col row) :=
  ⟨k.phys,_,fun t => ((k.terminals t).xPos,(k.terminals t).yPos),rfl⟩

theorem putc_draws (k : Kernel) (c : UInt8) : Draws k (putc k c) :=
  draws_trans (withScreen_draws _ _ _) (updateCursor_draws _ _ _)

theorem putcBuffer_draws (k : Kernel) (c : UInt8) : Draws k (putcBuffer k c) := by
  simp only [putcBuffer]
  split
  · exact draws_trans (withScreen_draws _ _ _) (updateCursor_draws _ _ _)
  · exact withScreen_draws _ _ _

theorem doBackspace_draws (k : Kernel) : Draws k (doBackspace k) := by
  simp only [doBackspace]
  split
  · exact draws_refl k
  · exact draws_trans (withScreen_draws _ _ _) (updateCursor_draws _ _ _)

theorem clear_draws (k : Kernel) : Draws k (clear k) :=
  ⟨_,k.cursor,fun t => ((k.terminals t).xPos,(k.terminals t).yPos),rfl⟩

theorem clearSetpos_draws (k : Kernel) (x y : Nat) : Draws k (clearSetpos k x y) :=
  draws_trans (clear_draws k) (draws_trans (withScreen_draws _ _ _) (updateCursor_draws _ _ _))

theorem printf_draws (k : Kernel) (text : List UInt8) : Draws k (printf k text) := by
  induction text generalizing k with
  | nil => exact draws_refl k
  | cons c rest ih => exact draws_trans (putc_draws k c) (ih (putc k c))

theorem terminalWrite_draws (k : Kernel) (text : List UInt8) : Draws k (terminalWrite k text) := by
  induction text generalizing k with
  | nil => exact draws_refl k
  | cons c rest ih => exact draws_trans (putcBuffer_draws k c) (ih (putcBuffer k c))

end MazeOS.Display
