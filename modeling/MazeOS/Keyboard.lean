import MazeOS.Terminal

/-!
The keyboard driver of `keyboard.c`: the table of characters, the modifier and
function keys, the control codes, and `keyboard_interrupt_handler`, which edits
the line buffer of the active terminal. A store outside the buffer and a column
outside the table are faults. `strokeOf` says what a key means to the line and
`strokeLine` what it does to it; the handler does that, and draws
(`handler_stroke`).
-/
namespace MazeOS.Keyboard
open MazeOS.Runs MazeOS.Faults MazeOS.Filesystem MazeOS.State MazeOS.Display MazeOS.Terminal

def maxBufferSize : Nat := 128
def supportedKeys : Nat := 93
def releasedMask : UInt8 := 0x80
def offsetToUppercase : UInt8 := 32
def newlineChar : UInt8 := 10

def ctrlL : UInt8 := 12
def ctrlC : UInt8 := 3
def ctrlA : UInt8 := 1

def enterKeycode : UInt8 := 0x1C
def lShiftPressed : UInt8 := 0x2A
def rShiftPressed : UInt8 := 0x36
def lShiftReleased : UInt8 := 0xAA
def rShiftReleased : UInt8 := 0xB6
def capsPressed : UInt8 := 0x3A
def altPressed : UInt8 := 0x38
def altReleased : UInt8 := 0xB8
def ctrlPressed : UInt8 := 0x1D
def ctrlReleased : UInt8 := 0x9D
def extension : UInt8 := 0xE0
def scanTab : UInt8 := 0x0F
def scanL : UInt8 := 0x26
def scanA : UInt8 := 0x1E
def scanC : UInt8 := 0x2E
def cursorUp : UInt8 := 0x48
def cursorDown : UInt8 := 0x50
def cursorLeft : UInt8 := 0x4B
def cursorRight : UInt8 := 0x4D
def function1 : UInt8 := 0x3B
def function3 : UInt8 := 0x3D
def backspaceKey : UInt8 := 0x0E

/-- `scan_code_1`. -/
def scanCode1 : List (List UInt8) :=
  [[0,0,49,50,51,52,53,54,55,56,57,48,45,61,8,9,113,119,101,114,116,121,117,105,111,112,91,93,13,17,97,115,100,102,103,
      104,106,107,108,59,39,96,16,92,122,120,99,118,98,110,109,44,46,47,16,0,0,32,0,0,0,0,0,0,0,0,0,0,0,0,0,0,0,0,0,0,0,
      0,0,0,0,0,0,0,0,0,0,0,0,0,0,0,0],
    [0,0,33,64,35,36,37,94,38,42,40,41,95,43,8,9,113,119,101,114,116,121,117,105,111,112,123,125,13,17,97,115,100,102,
      103,104,106,107,108,58,34,126,16,124,122,120,99,118,98,110,109,60,62,63,16,0,0,32,0,0,0,0,0,0,0,0,0,0,0,0,0,0,0,0,
      0,0,0,0,0,0,0,0,0,0,0,0,0,0,0,0,0,0,0]]

/-- `scan_code_1[row][scan1]`. -/
def scanCode (row : Nat) (scan1 : UInt8) : Checked UInt8 :=
  if scan1.toNat < supportedKeys then .ok ((scanCode1.getD row []).getD scan1.toNat 0) else .error (.column scan1.toNat)

/-! ### Modifiers -/

def shiftHeld (m : Modifiers) : Bool := m.lShift || m.rShift
def ctrlHeld (m : Modifiers) : Bool := m.lCtrl || m.rCtrl
def altHeld (m : Modifiers) : Bool := m.lAlt || m.rAlt

/-- `check_modifier_keys`: the new flags, or `none` where it returns 0. Its tests
    for the right-hand keys come too late to be reached. -/
def checkModifierKeys (m : Modifiers) (scan1 scan2 : UInt8) : Option Modifiers :=
  if scan1 = ctrlPressed then some { m with lCtrl := true }
  else if scan1 = ctrlReleased then some { m with lCtrl := false }
  else if scan1 = ctrlPressed ∧ scan2 = extension then some { m with rCtrl := true }
  else if scan1 = ctrlReleased ∧ scan2 = extension then some { m with rCtrl := false }
  else if scan1 = altPressed then some { m with lAlt := true }
  else if scan1 = altReleased then some { m with lAlt := false }
  else if scan1 = altPressed ∧ scan2 = extension then some { m with rAlt := true }
  else if scan1 = altReleased ∧ scan2 = extension then some { m with rAlt := false }
  else if scan1 = lShiftPressed then some { m with lShift := true }
  else if scan1 = rShiftPressed then some { m with rShift := true }
  else if scan1 = lShiftReleased then some { m with lShift := false }
  else if scan1 = rShiftReleased then some { m with rShift := false }
  else if scan1 = capsPressed then some { m with caps := !m.caps }
  else none

/-- The combinations that `check_function_keys` takes for a switch. -/
def SwitchKey (m : Modifiers) (scan1 : UInt8) : Prop := altHeld m = true ∧ function1 ≤ scan1 ∧ scan1 ≤ function3

instance (m : Modifiers) (scan1 : UInt8) : Decidable (SwitchKey m scan1) := inferInstanceAs (Decidable (_ ∧ _ ∧ _))

/-! ### The line of the active terminal -/

def lineOf (k : Kernel) (t : Nat) : Line := (k.terminals t).toLine

def setLine (k : Kernel) (t : Nat) (line : Line) : Kernel :=
  setTerminal k t { k.terminals t with toLine := line }

/-- A store at `buffer_size`, which then grows. -/
def append (line : Line) (c : UInt8) : Checked Line :=
  if line.bufferSize < maxBufferSize then
    .ok { line with
      buffer := Function.update line.buffer line.bufferSize c
      bufferSize := line.bufferSize + 1 }
  else .error (.buffer line.bufferSize)

/-- `buffer_size` shrinks, and a store follows there. -/
def erase (line : Line) : Checked Line :=
  if line.bufferSize - 1 < maxBufferSize then
    .ok { line with
      buffer := Function.update line.buffer (line.bufferSize - 1) 0
      bufferSize := line.bufferSize - 1 }
  else .error (.buffer (line.bufferSize - 1))

def wake (line : Line) : Line := { line with ack := true }

/-- The line that `check_control_codes` stores. -/
def controlLine (line : Line) (code : UInt8) : Line :=
  { line with
    bufferSize := 1
    buffer := Function.update (fun _ => 0) 0 code
    ack := true }

/-- A change of the line of the active terminal. -/
def editLine (k : Kernel) (edit : Line → Checked Line) : Checked Kernel :=
  edit (lineOf k k.currTerminal) >>= fun line => .ok (setLine k k.currTerminal line)

/-- `check_control_codes`. -/
def checkControlCodes (k : Kernel) (scan1 : UInt8) : Bool × Kernel :=
  if ctrlHeld k.modifiers then
    (true,
      if scan1 = scanL then setLine k k.currTerminal (controlLine (lineOf k k.currTerminal) ctrlL)
      else if scan1 = scanA then setLine k k.currTerminal (controlLine (lineOf k k.currTerminal) ctrlA)
      else if scan1 = scanC then setLine k k.currTerminal (controlLine (lineOf k k.currTerminal) ctrlC)
      else k)
  else (false,k)

/-! ### Printing -/

def isLower (c : UInt8) : Bool := 97 ≤ c && c ≤ 122
def isUpper (c : UInt8) : Bool := 65 ≤ c && c ≤ 90

/-- A letter in the case that shift and caps lock ask for. -/
def letterCase (m : Modifiers) (output : UInt8) : UInt8 :=
  if (m.caps ^^ shiftHeld m) && isLower output then output - offsetToUppercase else output

/-- `output` in `print_character`. -/
def keyOutput (m : Modifiers) (scan1 : UInt8) : Checked UInt8 :=
  scanCode 0 scan1 >>= fun plain =>
    let output := letterCase m plain
    if shiftHeld m && !isUpper output && !isLower output then scanCode 1 scan1 else .ok output

/-- The keys that move a cursor in other systems. -/
def CursorKey (scan1 : UInt8) : Prop :=
  scan1 = cursorUp ∨ scan1 = cursorRight ∨ scan1 = cursorLeft ∨ scan1 = cursorDown

instance (scan1 : UInt8) : Decidable (CursorKey scan1) := inferInstanceAs (Decidable (_ ∨ _ ∨ _ ∨ _))

/-- A character goes to the line while a read waits for it. -/
def typeChar (line : Line) (c : UInt8) : Checked Line := if line.readAck then append line c else .ok line

/-- The loop for the tab key. -/
def putSpaces : Nat → Kernel → Checked Kernel
  | 0, k => .ok k
  | n + 1, k => editLine k (typeChar · space) >>= fun k => putSpaces n (putc k space)

/-- `print_character`. -/
def printCharacter (k : Kernel) (scan1 : UInt8) : Checked Kernel :=
  keyOutput k.modifiers scan1 >>= fun output =>
    if scan1 = scanTab then
      if (activeTerm k).bufferSize + 4 < maxBufferSize - 2 then putSpaces 4 k else .ok k
    else if output = 0 ∨ CursorKey scan1 then .ok k
    else editLine k (typeChar · output) >>= fun k => .ok (putc k output)

/-! ### The handler -/

/-- The part of `keyboard_interrupt_handler` for a key that is pressed. -/
def handlePress (k : Kernel) (c : UInt8) : Checked Kernel :=
  if c = backspaceKey then
    if (activeTerm k).bufferSize = 0 then .ok k
    else if (activeTerm k).readAck then editLine k erase >>= fun k => .ok (doBackspace k)
    else .ok k
  else if c = enterKeycode then
    editLine k (typeChar · newlineChar) >>= fun k =>
    editLine k (fun line => .ok (wake line)) >>= fun k => .ok (putc k newlineChar)
  else
    printCharacter k c >>= fun k =>
      if (activeTerm k).bufferSize ≥ maxBufferSize - 2 then
        editLine k (append · newlineChar) >>= fun k =>
        editLine k (fun line => .ok (wake line)) >>= fun k => .ok (putc k newlineChar)
      else .ok k

/-- `keyboard_interrupt_handler` for the two bytes that it reads from the port. -/
def keyboardInterruptHandler (fs : Fs) (fuel : Nat) (k : Kernel) (c c2 : UInt8) : Checked Kernel :=
  match checkModifierKeys k.modifiers c c2 with
  | some modifiers => .ok { k with modifiers := modifiers }
  | none =>
    if SwitchKey k.modifiers c then switchActiveTerminal fs fuel k (c - function1).toNat
    else if (activeTerm k).readAck ∧ (checkControlCodes k c).1 then .ok (checkControlCodes k c).2
    else if c &&& releasedMask = 0 then handlePress k c
    else .ok k

/-! ### What a key means to the line -/

inductive Stroke where
  | backspace
  | enter
  | tab
  | char (c : UInt8)
  /-- A key that is pressed and prints nothing. -/
  | dead
  | control (code : UInt8)
  /-- A key outside the table. -/
  | outside (scan1 : UInt8)
  deriving DecidableEq

/-- The stroke of a control code. -/
def controlStroke (scan1 : UInt8) : Option Stroke :=
  if scan1 = scanL then some (.control ctrlL)
  else if scan1 = scanA then some (.control ctrlA)
  else if scan1 = scanC then some (.control ctrlC)
  else none

/-- The stroke of a key that is pressed. -/
def pressStroke (m : Modifiers) (scan1 : UInt8) : Stroke :=
  if scan1 = backspaceKey then .backspace
  else if scan1 = enterKeycode then .enter
  else
    match keyOutput m scan1 with
    | .error _ => .outside scan1
    | .ok output =>
      if scan1 = scanTab then .tab else if output = 0 ∨ CursorKey scan1 then .dead else .char output

/-- What a key means to the line of the active terminal; modifiers, switches and
    released keys mean nothing. -/
def strokeOf (k : Kernel) (c c2 : UInt8) : Option Stroke :=
  if checkModifierKeys k.modifiers c c2 ≠ none ∨ SwitchKey k.modifiers c then none
  else if (activeTerm k).readAck ∧ ctrlHeld k.modifiers then controlStroke c
  else if c &&& releasedMask = 0 then some (pressStroke k.modifiers c)
  else none

/-- A line that is full gets its newline. -/
def fill (line : Line) : Checked Line :=
  if line.bufferSize ≥ maxBufferSize - 2 then append line newlineChar >>= fun line => .ok (wake line) else .ok line

def spaces : Nat → Line → Checked Line
  | 0, line => .ok line
  | n + 1, line => typeChar line space >>= spaces n

/-- What a stroke does to a line. -/
def strokeLine (line : Line) : Stroke → Checked Line
  | .backspace => if line.bufferSize ≠ 0 ∧ line.readAck then erase line else .ok line
  | .enter => typeChar line newlineChar >>= fun line => .ok (wake line)
  | .tab => (if line.bufferSize + 4 < maxBufferSize - 2 then spaces 4 line else .ok line) >>= fill
  | .char c => typeChar line c >>= fill
  | .dead => fill line
  | .control code => .ok (controlLine line code)
  | .outside scan1 => .error (.column scan1.toNat)

/-! ### The functions on lines -/

/-- The line with one more character. -/
def pushed (line : Line) (c : UInt8) : Line :=
  { line with
    buffer := Function.update line.buffer line.bufferSize c
    bufferSize := line.bufferSize + 1 }

section
variable {line after : Line} {c : UInt8}

theorem append_ok (c : UInt8) (room : line.bufferSize < maxBufferSize) : append line c = .ok (pushed line c) :=
  if_pos room

theorem append_full (c : UInt8) (full : maxBufferSize ≤ line.bufferSize) :
    append line c = .error (.buffer line.bufferSize) := if_neg (Nat.not_lt_of_le full)

theorem append_eq_ok (appended : append line c = .ok after) : after = pushed line c := by
  by_cases room : line.bufferSize < maxBufferSize
  · rw [append_ok c room] at appended
    cases appended
    rfl
  · rw [append_full c (Nat.le_of_not_lt room)] at appended
    cases appended

theorem typeChar_open (c : UInt8) (reads : line.readAck = true) : typeChar line c = append line c := if_pos reads

theorem typeChar_closed (c : UInt8) (closed : line.readAck = false) : typeChar line c = .ok line :=
  if_neg (by rw [closed]; simp)

theorem typeChar_eq_ok (typed : typeChar line c = .ok after) :
    (line.readAck = true ∧ after = pushed line c) ∨ (line.readAck = false ∧ after = line) := by
  cases reads : line.readAck with
  | true =>
    rw [typeChar_open c reads] at typed
    exact .inl ⟨rfl,append_eq_ok typed⟩
  | false =>
    rw [typeChar_closed c reads] at typed
    cases typed
    exact .inr ⟨rfl,rfl⟩

theorem fill_short (short : line.bufferSize < maxBufferSize - 2) : fill line = .ok line :=
  if_neg (Nat.not_le_of_lt short)

theorem fill_long (long : maxBufferSize - 2 ≤ line.bufferSize) :
    fill line = append line newlineChar >>= fun line => .ok (wake line) := if_pos long

theorem fill_eq_ok (filled : fill line = .ok after) :
    (maxBufferSize - 2 ≤ line.bufferSize ∧ after = wake (pushed line newlineChar)) ∨
      (line.bufferSize < maxBufferSize - 2 ∧ after = line) := by
  by_cases short : line.bufferSize < maxBufferSize - 2
  · rw [fill_short short] at filled
    cases filled
    exact .inr ⟨short,rfl⟩
  · rw [fill_long (Nat.le_of_not_lt short)] at filled
    obtain ⟨appended,appends,woken⟩ := bind_eq_ok.mp filled
    rw [append_eq_ok appends] at woken
    cases woken
    exact .inl ⟨Nat.le_of_not_lt short,rfl⟩

theorem erase_eq_ok (erased : erase line = .ok after) :
    after = { line with
      buffer := Function.update line.buffer (line.bufferSize - 1) 0
      bufferSize := line.bufferSize - 1 } := by
  simp only [erase] at erased
  split at erased
  · cases erased; rfl
  · cases erased

end

/-! ### The handler edits the line -/

/-- A computation changes the line of the active terminal and draws. -/
def Edits (k : Kernel) (line : Checked Line) (result : Checked Kernel) : Prop :=
  match line with
  | .error fault => result = .error fault
  | .ok line => ∃ after, result = .ok after ∧ Draws (setLine k k.currTerminal line) after

section
variable {k l : Kernel} {line : Line}

theorem setLine_self (k : Kernel) (t : Nat) : setLine k t (lineOf k t) = k := by
  simp only [setLine,lineOf,setTerminal,Function.update_eq_self]

/-- What does not depend on the display, once the line has been changed. -/
theorem setLine_drawn (draws : Draws (setLine k k.currTerminal line) l) :
    l.currTerminal = k.currTerminal ∧ l.modifiers = k.modifiers ∧ lineOf l l.currTerminal = line := by
  obtain ⟨_,_,_,rfl⟩ := draws
  refine ⟨rfl,rfl,?_⟩
  simp [lineOf,drawn,setLine,setTerminal]

theorem setLine_draws (draws : Draws (setLine k k.currTerminal line) l) (line' : Line) :
    Draws (setLine k k.currTerminal line') (setLine l l.currTerminal line') := by
  obtain ⟨phys,cursor,place,rfl⟩ := draws
  refine ⟨phys,cursor,place,?_⟩
  simp only [setLine,setTerminal,drawn,Kernel.mk.injEq,true_and,and_true]
  funext t
  by_cases here : t = k.currTerminal
  · subst here; simp
  · simp [here]

theorem edits_same (draws : Draws (setLine k k.currTerminal line) l) : Edits k (.ok line) (.ok l) := ⟨l,rfl,draws⟩

theorem edits_bind {line : Checked Line} {result : Checked Kernel} {next : Line → Checked Line}
    {next' : Kernel → Checked Kernel} (first : Edits k line result)
    (second : ∀ line' l, Draws (setLine k k.currTerminal line') l → Edits k (next line') (next' l)) :
    Edits k (line >>= next) (result >>= next') := by
  cases line with
  | error fault =>
    have failed : result = .error fault := first
    rw [failed]
    exact rfl
  | ok line' =>
    obtain ⟨l,rfl,draws⟩ := first
    simp only [ok_bind]
    exact second line' l draws

theorem edits_editLine (draws : Draws (setLine k k.currTerminal line) l) (edit : Line → Checked Line) :
    Edits k (edit line) (editLine l edit) := by
  obtain ⟨_,_,same⟩ := setLine_drawn draws
  rw [editLine,same]
  cases edit line with
  | error fault => exact rfl
  | ok line' => exact ⟨_,rfl,setLine_draws draws line'⟩

/-- Drawing after a change of the line. -/
theorem edits_draw {line : Checked Line} {result : Checked Kernel} {draw : Kernel → Kernel}
    (first : Edits k line result) (draws : ∀ l, Draws l (draw l)) :
    Edits k line (result >>= fun l => .ok (draw l)) := by
  cases line with
  | error fault =>
    have failed : result = .error fault := first
    rw [failed]
    exact rfl
  | ok line' =>
    obtain ⟨l,rfl,draws'⟩ := first
    exact edits_same (draws_trans draws' (draws l))

theorem edits_wake (draws : Draws (setLine k k.currTerminal line) l) :
    Edits k (.ok (wake line)) (editLine l (fun line => .ok (wake line)) >>= fun l => .ok (putc l newlineChar)) :=
  edits_draw (edits_editLine draws fun line => .ok (wake line)) fun l => putc_draws l newlineChar

theorem edits_spaces (n : Nat) (draws : Draws (setLine k k.currTerminal line) l) :
    Edits k (spaces n line) (putSpaces n l) := by
  induction n generalizing line l with
  | zero => exact edits_same draws
  | succ n ih =>
    refine edits_bind (edits_editLine draws (typeChar · space)) ?_
    intro line' l' draws'
    exact ih (draws_trans draws' (putc_draws l' space))

theorem edits_fill (draws : Draws (setLine k k.currTerminal line) l) :
    Edits k (fill line) (if (activeTerm l).bufferSize ≥ maxBufferSize - 2 then
      editLine l (append · newlineChar) >>= fun l =>
      editLine l (fun line => .ok (wake line)) >>= fun l => .ok (putc l newlineChar)
      else .ok l) := by
  obtain ⟨_,_,same⟩ := setLine_drawn draws
  have size : (activeTerm l).bufferSize = line.bufferSize := congrArg Line.bufferSize same
  rw [fill,size]
  split
  · exact edits_bind (edits_editLine draws (append · newlineChar)) fun _ _ draws' => edits_wake draws'
  · exact edits_same draws

end

theorem scanCode_error {row : Nat} {scan1 : UInt8} {fault : Fault} (failed : scanCode row scan1 = .error fault) :
    fault = .column scan1.toNat ∧ supportedKeys ≤ scan1.toNat := by
  simp only [scanCode] at failed
  split at failed
  · cases failed
  · cases failed
    exact ⟨rfl,by omega⟩

/-- The character of a key is not found exactly outside the table. -/
theorem keyOutput_error {m : Modifiers} {scan1 : UInt8} {fault : Fault} (failed : keyOutput m scan1 = .error fault) :
    fault = .column scan1.toNat ∧ supportedKeys ≤ scan1.toNat := by
  unfold keyOutput at failed
  cases plain : scanCode 0 scan1 with
  | error fault' =>
    rw [plain] at failed
    cases failed
    exact scanCode_error plain
  | ok c =>
    rw [plain,ok_bind] at failed
    simp only at failed
    split at failed
    · exact scanCode_error failed
    · cases failed

theorem handlePress_stroke (k : Kernel) (c : UInt8) :
    Edits k (strokeLine (lineOf k k.currTerminal) (pressStroke k.modifiers c)) (handlePress k c) := by
  have start : Draws (setLine k k.currTerminal (lineOf k k.currTerminal)) k := by
    rw [setLine_self]
    exact draws_refl k
  have size : (activeTerm k).bufferSize = (lineOf k k.currTerminal).bufferSize := rfl
  have reading : (activeTerm k).readAck = (lineOf k k.currTerminal).readAck := rfl
  simp only [handlePress,pressStroke,printCharacter]
  rw [size,reading]
  generalize lineOf k k.currTerminal = line at start
  by_cases back : c = backspaceKey
  · rw [if_pos back,if_pos back,strokeLine]
    by_cases empty : line.bufferSize = 0
    · rw [if_pos empty,if_neg fun both => both.1 empty]
      exact edits_same start
    · rw [if_neg empty]
      by_cases reads : line.readAck = true
      · rw [if_pos reads,if_pos ⟨empty,reads⟩]
        exact edits_draw (edits_editLine start erase) doBackspace_draws
      · rw [if_neg reads,if_neg fun both => reads both.2]
        exact edits_same start
  · rw [if_neg back,if_neg back]
    by_cases enter : c = enterKeycode
    · rw [if_pos enter,if_pos enter,strokeLine]
      exact edits_bind (edits_editLine start (typeChar · newlineChar)) fun _ _ draws => edits_wake draws
    · rw [if_neg enter,if_neg enter]
      cases found : keyOutput k.modifiers c with
      | error fault =>
        obtain ⟨rfl,_⟩ := keyOutput_error found
        exact rfl
      | ok output =>
        simp only [ok_bind]
        by_cases tab : c = scanTab
        · rw [if_pos tab,if_pos tab,strokeLine]
          refine edits_bind ?_ fun _ _ draws => edits_fill draws
          by_cases room : line.bufferSize + 4 < maxBufferSize - 2
          · rw [if_pos room,if_pos room]
            exact edits_spaces 4 start
          · rw [if_neg room,if_neg room]
            exact edits_same start
        · rw [if_neg tab,if_neg tab]
          by_cases quiet : output = 0 ∨ CursorKey c
          · rw [if_pos quiet,if_pos quiet,strokeLine]
            exact edits_fill start
          · rw [if_neg quiet,if_neg quiet,strokeLine]
            refine edits_bind ?_ fun _ _ draws => edits_fill draws
            exact edits_draw (edits_editLine start (typeChar · output)) fun l => putc_draws l output

theorem checkControlCodes_held (k : Kernel) (c : UInt8) : (checkControlCodes k c).1 = ctrlHeld k.modifiers := by
  simp only [checkControlCodes]
  by_cases held : ctrlHeld k.modifiers = true
  · rw [if_pos held,held]
  · rw [if_neg held]
    exact (Bool.not_eq_true _ ▸ held).symm

theorem checkControlCodes_stroke {k : Kernel} {c : UInt8} {stroke : Stroke} (held : ctrlHeld k.modifiers = true)
    (means : controlStroke c = some stroke) :
    Edits k (strokeLine (lineOf k k.currTerminal) stroke) (.ok (checkControlCodes k c).2) := by
  simp only [controlStroke] at means
  rw [checkControlCodes,if_pos held]
  split at means
  · rename_i l
    rw [if_pos l]
    cases means
    exact edits_same (draws_refl _)
  · rename_i notL
    rw [if_neg notL]
    split at means
    · rename_i a
      rw [if_pos a]
      cases means
      exact edits_same (draws_refl _)
    · rename_i notA
      rw [if_neg notA]
      split at means
      · rename_i c'
        rw [if_pos c']
        cases means
        exact edits_same (draws_refl _)
      · cases means

theorem checkControlCodes_none {k : Kernel} {c : UInt8} (held : ctrlHeld k.modifiers = true)
    (means : controlStroke c = none) : (checkControlCodes k c).2 = k := by
  simp only [controlStroke] at means
  split at means
  · cases means
  · rename_i notL
    split at means
    · cases means
    · rename_i notA
      split at means
      · cases means
      · rename_i notC
        rw [checkControlCodes,if_pos held,if_neg notL,if_neg notA,if_neg notC]

/-- A key with a stroke makes it on the line of the active terminal, and draws. -/
theorem handler_stroke (fs : Fs) (fuel : Nat) {k : Kernel} {c c2 : UInt8} {stroke : Stroke}
    (means : strokeOf k c c2 = some stroke) :
    Edits k (strokeLine (lineOf k k.currTerminal) stroke) (keyboardInterruptHandler fs fuel k c c2) := by
  simp only [strokeOf] at means
  simp only [keyboardInterruptHandler]
  rw [checkControlCodes_held]
  split at means
  · cases means
  · rename_i special
    obtain ⟨plain,noSwitch⟩ := not_or.mp special
    rw [not_not.mp plain]
    simp only
    rw [if_neg noSwitch]
    split at means
    · rename_i control
      rw [if_pos control]
      exact checkControlCodes_stroke control.2 means
    · rename_i control
      rw [if_neg control]
      split at means
      · rename_i pressed
        rw [if_pos pressed]
        cases means
        exact handlePress_stroke k c
      · cases means

/-- The keys of a switch are no modifiers. -/
theorem switchKey_plain {m m' : Modifiers} {c c2 : UInt8} (switch : SwitchKey m c) :
    checkModifierKeys m' c c2 = none := by
  obtain ⟨_,low,high⟩ := switch
  have apart : ∀ key : UInt8, key < function1 ∨ function3 < key → c ≠ key := by
    rintro key outside rfl
    rcases outside with below | above
    · exact UInt8.not_lt.mpr low below
    · exact UInt8.not_lt.mpr high above
  simp only [checkModifierKeys]
  simp only [apart ctrlPressed (by decide),apart ctrlReleased (by decide),apart altPressed (by decide),
    apart altReleased (by decide),apart lShiftPressed (by decide),apart rShiftPressed (by decide),
    apart lShiftReleased (by decide),apart rShiftReleased (by decide),apart capsPressed (by decide),
    false_and,if_false]

/-- The keys of a switch go to `switch_active_terminal`. -/
theorem handler_switch (fs : Fs) (fuel : Nat) {k : Kernel} {c : UInt8} (c2 : UInt8) (switch : SwitchKey k.modifiers c) :
    keyboardInterruptHandler fs fuel k c c2 = switchActiveTerminal fs fuel k (c - function1).toNat := by
  simp only [keyboardInterruptHandler]
  rw [switchKey_plain switch]
  simp only
  rw [if_pos switch]

/-- A key without a stroke switches the terminal, or changes at most the
    modifiers. -/
theorem handler_other (fs : Fs) (fuel : Nat) {k : Kernel} {c c2 : UInt8} (means : strokeOf k c c2 = none) :
    (SwitchKey k.modifiers c ∧
      keyboardInterruptHandler fs fuel k c c2 = switchActiveTerminal fs fuel k (c - function1).toNat) ∨
    (¬ SwitchKey k.modifiers c ∧
      ∃ modifiers, keyboardInterruptHandler fs fuel k c c2 = .ok { k with modifiers := modifiers }) := by
  simp only [strokeOf] at means
  by_cases switch : SwitchKey k.modifiers c
  · exact .inl ⟨switch,handler_switch fs fuel c2 switch⟩
  · refine .inr ⟨switch,?_⟩
    simp only [keyboardInterruptHandler]
    rw [checkControlCodes_held]
    cases modifier : checkModifierKeys k.modifiers c c2 with
    | some modifiers => exact ⟨modifiers,rfl⟩
    | none =>
      refine ⟨k.modifiers,?_⟩
      have special : ¬ (checkModifierKeys k.modifiers c c2 ≠ none ∨ SwitchKey k.modifiers c) :=
        not_or.mpr ⟨not_not.mpr modifier,switch⟩
      rw [if_neg special] at means
      simp only
      rw [if_neg switch]
      split at means
      · rename_i control
        rw [if_pos control,checkControlCodes_none control.2 means]
      · rename_i control
        rw [if_neg control]
        split at means
        · cases means
        · rename_i released
          rw [if_neg released]

/-- A key that switches no terminal edits the line and draws, or changes the
    modifiers. -/
theorem handler_plain_cases {fs : Fs} {fuel : Nat} {k after : Kernel} {c c2 : UInt8} (plain : ¬ SwitchKey k.modifiers c)
    (handled : keyboardInterruptHandler fs fuel k c c2 = .ok after) :
    (∃ line, Draws (setLine k k.currTerminal line) after) ∨ ∃ modifiers, after = { k with modifiers := modifiers } := by
  cases means : strokeOf k c c2 with
  | some stroke =>
    have edits := handler_stroke fs fuel means
    rw [handled] at edits
    cases edited : strokeLine (lineOf k k.currTerminal) stroke with
    | error fault =>
      rw [edited] at edits
      cases edits
    | ok line =>
      rw [edited] at edits
      obtain ⟨_,same,draws⟩ := edits
      cases same
      exact .inl ⟨line,draws⟩
  | none =>
    rcases handler_other fs fuel means with ⟨switch,_⟩ | ⟨_,modifiers,unchanged⟩
    · exact absurd switch plain
    · rw [unchanged] at handled
      cases handled
      exact .inr ⟨modifiers,rfl⟩

/-! ### What a stroke can store -/

/-- A stroke that stores no newline as a character. -/
def Plain : Stroke → Prop
  | .char c => c ≠ newlineChar
  | .control code => code ≠ newlineChar
  | _ => True

theorem scanCode_plain {row : Nat} {scan1 c : UInt8} (found : scanCode row scan1 = .ok c) : c ≠ newlineChar := by
  have all : (scanCode1.all fun line => line.all fun c => c != newlineChar) = true := by decide +kernel
  have entries : ∀ line, line ∈ scanCode1 → ∀ c, c ∈ line → c ≠ newlineChar := by
    simpa only [List.all_eq_true,bne_iff_ne] using all
  simp only [scanCode] at found
  split at found
  · cases found
    rw [List.getD_eq_getElem?_getD]
    cases entry : (scanCode1.getD row [])[scan1.toNat]? with
    | none => decide
    | some c =>
      have member := List.mem_of_getElem? entry
      rw [List.getD_eq_getElem?_getD] at member
      cases line : scanCode1[row]? with
      | none => rw [line] at member; cases member
      | some cs =>
        rw [line] at member
        exact entries cs (List.mem_of_getElem? line) c member
  · cases found

theorem letterCase_plain (m : Modifiers) {c : UInt8} (plain : c ≠ newlineChar) : letterCase m c ≠ newlineChar := by
  simp only [letterCase]
  split
  · rename_i lower
    simp only [Bool.and_eq_true,isLower,decide_eq_true_eq] at lower
    obtain ⟨_,low,_⟩ := lower
    intro same
    have code : c = newlineChar + offsetToUppercase := by
      have sum := congrArg (· + offsetToUppercase) same
      simpa using sum
    rw [code] at low
    exact absurd low (by decide)
  · exact plain

theorem keyOutput_plain {m : Modifiers} {scan1 output : UInt8} (found : keyOutput m scan1 = .ok output) :
    output ≠ newlineChar := by
  unfold keyOutput at found
  obtain ⟨plain,first,found⟩ := bind_eq_ok.mp found
  simp only at found
  split at found
  · exact scanCode_plain found
  · cases found
    exact letterCase_plain m (scanCode_plain first)

/-- A stroke is a control code, taken while a read waits, or that of a key that
    is pressed. -/
theorem strokeOf_cases {k : Kernel} {c c2 : UInt8} {stroke : Stroke} (means : strokeOf k c c2 = some stroke) :
    ((activeTerm k).readAck = true ∧ controlStroke c = some stroke) ∨ stroke = pressStroke k.modifiers c := by
  simp only [strokeOf] at means
  split at means
  · cases means
  · split at means
    · rename_i control
      exact .inl ⟨control.1,means⟩
    · split at means
      · exact .inr (Option.some.inj means).symm
      · cases means

theorem controlStroke_cases {c : UInt8} {stroke : Stroke} (means : controlStroke c = some stroke) :
    stroke = .control ctrlL ∨ stroke = .control ctrlA ∨ stroke = .control ctrlC := by
  simp only [controlStroke] at means
  split at means
  · exact .inl (Option.some.inj means).symm
  · split at means
    · exact .inr (.inl (Option.some.inj means).symm)
    · split at means
      · exact .inr (.inr (Option.some.inj means).symm)
      · cases means

/-- A key that is pressed is no control code, and its character no newline. -/
theorem pressStroke_plain (m : Modifiers) (c : UInt8) :
    Plain (pressStroke m c) ∧ ∀ code, pressStroke m c ≠ .control code := by
  simp only [pressStroke]
  split
  · exact ⟨trivial,by simp⟩
  · split
    · exact ⟨trivial,by simp⟩
    · cases found : keyOutput m c with
      | error fault => exact ⟨trivial,by simp⟩
      | ok output =>
        simp only
        split
        · exact ⟨trivial,by simp⟩
        · split
          · exact ⟨trivial,by simp⟩
          · exact ⟨keyOutput_plain found,by simp⟩

/-- No key but Enter has a newline for its character. -/
theorem strokeOf_plain {k : Kernel} {c c2 : UInt8} {stroke : Stroke} (means : strokeOf k c c2 = some stroke) :
    Plain stroke := by
  rcases strokeOf_cases means with ⟨_,control⟩ | rfl
  · rcases controlStroke_cases control with rfl | rfl | rfl
    · exact (by decide : ctrlL ≠ newlineChar)
    · exact (by decide : ctrlA ≠ newlineChar)
    · exact (by decide : ctrlC ≠ newlineChar)
  · exact (pressStroke_plain k.modifiers c).1

/-- A control code is taken only while a read waits. -/
theorem strokeOf_control {k : Kernel} {c c2 code : UInt8} (means : strokeOf k c c2 = some (.control code)) :
    (activeTerm k).readAck = true := by
  rcases strokeOf_cases means with ⟨reads,_⟩ | pressed
  · exact reads
  · exact absurd pressed.symm ((pressStroke_plain k.modifiers c).2 code)

end MazeOS.Keyboard
