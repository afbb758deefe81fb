import MazeOS.TerminalOutput
import MazeOS.ScreenSteps
import MazeOS.LineEditor

/-!
A line that is edited, and its echo on the screen. A `Sheet` is the text of the
line beside the paper that it is written on, and what a stroke does to both;
the text stands on the paper from where the line started, and what was erased is
blank (`Ruled`, `stroke_ruled`). The handler keeps the buffer and the screen of
the active terminal in step with the sheet (`Typed`, `key_typed`), although it
stores and prints each character by separate code (`line_echoed`).
-/
namespace MazeOS.Echo
open MazeOS.Runs MazeOS.Bytes MazeOS.Faults MazeOS.Filesystem MazeOS.State MazeOS.Display MazeOS.Terminal
  MazeOS.Windows MazeOS.Screens MazeOS.ScreenSteps MazeOS.Keyboard MazeOS.LineEditor MazeOS.Paper MazeOS.TerminalOutput

/-! ### A line on paper -/

/-- A text, the paper that it is typed on, and the cells that were erased and not
    written again. -/
structure Sheet where
  paper : Roll Cell
  text : List UInt8
  erased : List Nat

def fresh (paper : Roll Cell) : Sheet := ⟨paper,[],[]⟩

def Sheet.typed (attrib : UInt8) (sheet : Sheet) (c : UInt8) : Sheet :=
  ⟨put numCols numRows sheet.paper (c,attrib),sheet.text ++ [c],sheet.erased.filter (· ≠ sheet.paper.pos)⟩

/-- The paper whose last cell is erased. -/
def blanked (attrib : UInt8) (p : Roll Cell) : Roll Cell :=
  { p with cells := Function.update p.cells (p.pos - 1) (blankCell attrib), pos := p.pos - 1 }

def Sheet.rubbed (attrib : UInt8) (sheet : Sheet) : Sheet :=
  ⟨blanked attrib sheet.paper,sheet.text.dropLast,(sheet.paper.pos - 1) :: sheet.erased⟩

def Sheet.spaced (attrib : UInt8) : Nat → Sheet → Sheet
  | 0, sheet => sheet
  | n + 1, sheet => Sheet.spaced attrib n (sheet.typed attrib space)

/-- What a stroke does to a line that is being edited. -/
def Sheet.stroke (attrib : UInt8) (sheet : Sheet) : Stroke → Sheet
  | .char c => sheet.typed attrib c
  | .tab => if sheet.text.length + 4 < maxBufferSize - 2 then sheet.spaced attrib 4 else sheet
  | .backspace => if sheet.text = [] then sheet else sheet.rubbed attrib
  | .enter | .dead | .control _ | .outside _ => sheet

/-- The text stands on the paper from the cell where it started; the cells that
    were erased are blank and follow it, and those before it are as they were.
    The window starts no lower than the line. -/
structure Ruled (attrib : UInt8) (first : Roll Cell) (sheet : Sheet) : Prop where
  pos : sheet.paper.pos = first.pos + sheet.text.length
  shown : ∀ i (inside : i < sheet.text.length), sheet.paper.cells (first.pos + i) = (sheet.text[i],attrib)
  erased : ∀ i, i ∈ sheet.erased → first.pos + sheet.text.length ≤ i ∧ i < (sheet.paper.top + numRows) * numCols ∧
    sheet.paper.cells i = blankCell attrib
  before : ∀ i, i < first.pos → sheet.paper.cells i = first.cells i
  top : sheet.paper.top = 0 ∨ (sheet.paper.top + (numRows - 1)) * numCols < first.pos + (maxBufferSize - 2)

section
variable {attrib : UInt8} {first : Roll Cell} {sheet : Sheet}

theorem fresh_ruled (attrib : UInt8) {first : Roll Cell} (top : first.top = 0) : Ruled attrib first (fresh first) :=
  ⟨rfl,by simp [fresh],by simp [fresh],fun _ _ => rfl,.inl top⟩

/-- The line has not left the window: it is shorter than the window is high. -/
theorem ruled_top (ruled : Ruled attrib first sheet) : sheet.paper.top * numCols ≤ first.pos := by
  have top := ruled.top
  simp only [numCols,numRows,maxBufferSize] at *
  omega

theorem typed_ruled (ruled : Ruled attrib first sheet) (short : sheet.text.length + 1 < maxBufferSize - 2)
    (c : UInt8) : Ruled attrib first (sheet.typed attrib c) := by
  have pos := ruled.pos
  have size : (sheet.typed attrib c).text.length = sheet.text.length + 1 := by simp [Sheet.typed]
  have cells : (sheet.typed attrib c).paper.cells = Function.update sheet.paper.cells sheet.paper.pos (c,attrib) :=
    put_cells _ _
  have top : (sheet.typed attrib c).paper.top = sheet.paper.top ∨
      ((sheet.typed attrib c).paper.top = sheet.paper.top + 1 ∧
      (sheet.paper.top + numRows) * numCols ≤ sheet.paper.pos + 1) := put_top sheet.paper (c,attrib)
  refine ⟨?_,?_,?_,?_,?_⟩
  · rw [size,← Nat.add_assoc,← pos]
    exact put_pos _ _
  · intro i inside
    rw [size] at inside
    rw [cells]
    simp only [Sheet.typed]
    by_cases last : i = sheet.text.length
    · subst last
      rw [← pos,Function.update_self,List.getElem_concat_length rfl]
    · have earlier : i < sheet.text.length := by omega
      rw [Function.update_of_ne (by omega),ruled.shown i earlier,List.getElem_append_left earlier]
  · intro i member
    obtain ⟨member,other⟩ := List.mem_filter.mp member
    obtain ⟨low,high,blank⟩ := ruled.erased i member
    have apart : i ≠ sheet.paper.pos := by simpa using other
    rw [size,cells,Function.update_of_ne apart]
    refine ⟨by omega,Nat.lt_of_lt_of_le high (Nat.mul_le_mul_right numCols ?_),blank⟩
    omega
  · intro i before
    rw [cells,Function.update_of_ne (by omega)]
    exact ruled.before i before
  · have above := ruled.top
    simp only [numCols,numRows,maxBufferSize] at *
    omega

theorem rubbed_ruled (ruled : Ruled attrib first sheet) (some : sheet.text ≠ [])
    (visible : sheet.paper.pos ≤ (sheet.paper.top + numRows) * numCols) :
    Ruled attrib first (sheet.rubbed attrib) := by
  have long := List.length_pos_of_ne_nil some
  have pos := ruled.pos
  have size : (sheet.rubbed attrib).text.length = sheet.text.length - 1 := by simp [Sheet.rubbed]
  refine ⟨?_,?_,?_,?_,ruled.top⟩
  · rw [size]
    simp only [Sheet.rubbed,blanked]
    omega
  · intro i inside
    rw [size] at inside
    simp only [Sheet.rubbed,blanked]
    rw [Function.update_of_ne (by omega),ruled.shown i (by omega),List.getElem_dropLast]
  · intro i member
    rw [size]
    simp only [Sheet.rubbed,blanked]
    rcases List.mem_cons.mp member with rfl | earlier
    · exact ⟨by omega,by omega,Function.update_self ..⟩
    · obtain ⟨low,high,blank⟩ := ruled.erased i earlier
      refine ⟨by omega,high,?_⟩
      rw [Function.update_of_ne (by omega)]
      exact blank
  · intro i before
    simp only [Sheet.rubbed,blanked]
    rw [Function.update_of_ne (by omega)]
    exact ruled.before i before

theorem spaced_ruled (n : Nat) (ruled : Ruled attrib first sheet) (short : sheet.text.length + n < maxBufferSize - 2) :
    Ruled attrib first (sheet.spaced attrib n) := by
  induction n generalizing sheet with
  | zero => exact ruled
  | succ n ih =>
    refine ih (typed_ruled ruled (by omega) space) ?_
    simp only [Sheet.typed,List.length_append,List.length_singleton]
    omega

/-! ### The screen shows the sheet -/

variable {s : Screen} {p : Roll Cell}

theorem backOne_window (row : s.yPos < numRows) (notFirst : ¬ (s.xPos = 0 ∧ s.yPos = 0)) :
    windowOf (backOne s) = stepBack numCols (windowOf s) := by
  have place : (windowOf s).x = s.xPos := rfl
  rw [backOne,stepBack,place]
  by_cases start : s.xPos = 0
  · have above : (s.yPos + (2 ^ 32 - 1)) % 2 ^ 32 = s.yPos - 1 := by
      simp only [numRows] at row
      omega
    rw [if_neg (not_not_intro start),if_neg (not_not_intro start),above]
    rfl
  · rw [if_pos start,if_pos start]
    rfl

/-- `do_backspace` blanks the last cell of the paper, from anywhere but the start
    of the window. -/
theorem backspace_shows (shows : OnPaper attrib p s) (inside : p.top * numCols < p.pos) :
    OnPaper attrib (blanked attrib p) (Write.on attrib s .backspace) := by
  have notFirst : ¬ (s.xPos = 0 ∧ s.yPos = 0) := by
    rintro ⟨column,row⟩
    have pos : p.pos = (p.top + s.yPos) * numCols + s.xPos := shows.pos
    rw [pos,column,row] at inside
    simp at inside
  have stepped : OnPaper attrib (back p) (backOne s) := by
    rw [OnPaper,backOne_window shows.row notFirst]
    exact shows_back shows inside
  have printed := putc_shows stepped space
  have drawn : writeChar attrib (back p) space = put numCols numRows (back p) (blankCell attrib) := by
    rw [writeChar,if_neg (by decide),blankCell]
  rw [drawn] at printed
  have erased : back (put numCols numRows (back p) (blankCell attrib)) = blanked attrib p :=
    back_put_back shows (Nat.lt_of_le_of_lt (Nat.zero_le _) inside) (blankCell attrib)
  have top : (back (put numCols numRows (back p) (blankCell attrib))).top = p.top := by rw [erased]; rfl
  have pos : (put numCols numRows (back p) (blankCell attrib)).pos = p.pos := by
    rw [put_pos,back]
    simp only
    omega
  have last := shows_back printed (by rw [pos]; exact top ▸ inside)
  have window := backOne_window printed.row (putcAt_notFirst some 0 attrib attrib (backOne s))
  rw [erased,← window] at last
  rw [Write.on,Write.at,backspaceAt,if_neg notFirst]
  exact last

end

/-! ### The terminal follows the sheet -/

/-- A read of the active terminal waits; its buffer holds the text of the sheet,
    and its screen shows the paper. -/
structure Typed (k : Kernel) (sheet : Sheet) : Prop where
  arranged : Arranged k
  reads : (lineOf k k.currTerminal).readAck = true
  waits : (lineOf k k.currTerminal).ack = false
  text : content (lineOf k k.currTerminal) = sheet.text
  paper : OnPaper (attribs k.currTerminal) sheet.paper (logical k k.currTerminal)

section
variable {k after : Kernel} {line : Line} {sheet : Sheet} {c : UInt8}

theorem typed_size (typed : Typed k sheet) : (activeTerm k).bufferSize = sheet.text.length := by
  rw [← typed.text,content_length]
  rfl

@[simp] theorem lineOf_setLine (k : Kernel) (t : Nat) (line : Line) : lineOf (setLine k t line) t = line := by
  simp [lineOf,setLine,setTerminal]

/-- The line has changed, and then the active terminal is written to. -/
theorem typed_drew {w : Write} {sheet' : Sheet} (typed : Typed k sheet) (line : Line)
    (drew : Drew (setLine k k.currTerminal line) [(k.currTerminal,w)] after)
    (draws : Draws (setLine k k.currTerminal line) after) (reads : line.readAck = true) (waits : line.ack = false)
    (text : content line = sheet'.text) (paper : OnPaper (attribs k.currTerminal) sheet'.paper
      (Write.on (attribs k.currTerminal) (logical k k.currTerminal) w)) :
    Typed after sheet' ∧ after.currTerminal = k.currTerminal := by
  obtain ⟨current,_,same⟩ := setLine_drawn draws
  have screen := drew.screens k.currTerminal typed.arranged.current
  rw [logical_same (setLine_same k k.currTerminal line)] at screen
  refine ⟨⟨drew.arranged,?_,?_,?_,?_⟩,current⟩
  · rw [same]; exact reads
  · rw [same]; exact waits
  · rw [same]; exact text
  · rw [current,screen]
    simpa [alone,writesTo] using paper

/-- A character goes to the buffer and to the screen. -/
theorem char_typed (typed : Typed k sheet) (drawn : ¬ (c = 10 ∨ c = 13)) (room : sheet.text.length < maxBufferSize) :
    ∃ l, editLine k (typeChar · c) = .ok l ∧ Typed (putc l c) (sheet.typed (attribs k.currTerminal) c) ∧
      (putc l c).currTerminal = k.currTerminal := by
  have size : (lineOf k k.currTerminal).bufferSize < maxBufferSize := by
    rw [← content_length,typed.text]
    exact room
  refine ⟨setLine k k.currTerminal (pushed (lineOf k k.currTerminal) c),?_,?_⟩
  · rw [editLine,typeChar_open c typed.reads,append_ok c size]
    rfl
  · refine typed_drew typed _ (putc_drew (setLine_arranged typed.arranged _ _) c) (putc_draws _ _) typed.reads
      typed.waits ?_ ?_
    · rw [pushed_content,typed.text]
      rfl
    · have shown := putc_shows typed.paper c
      rw [writeChar,if_neg drawn] at shown
      exact shown

theorem spaces_typed (n : Nat) (typed : Typed k sheet) (room : sheet.text.length + n ≤ maxBufferSize) :
    ∃ after, putSpaces n k = .ok after ∧ Typed after (sheet.spaced (attribs k.currTerminal) n) ∧
      after.currTerminal = k.currTerminal := by
  induction n generalizing k sheet with
  | zero => exact ⟨k,rfl,typed,rfl⟩
  | succ n ih =>
    obtain ⟨l,edited,typed',current⟩ := char_typed typed (c := space) (by decide) (by omega)
    obtain ⟨after,put,typed'',current'⟩ := ih typed' (by
      simp only [Sheet.typed,List.length_append,List.length_singleton]
      omega)
    rw [current] at typed'' current'
    refine ⟨after,?_,typed'',current'⟩
    rw [putSpaces,edited]
    exact put

/-- The last character leaves the buffer and the screen. -/
theorem rub_typed (typed : Typed k sheet) (some : sheet.text ≠ []) (room : sheet.text.length ≤ maxBufferSize)
    (inside : sheet.paper.top * numCols < sheet.paper.pos) :
    ∃ l, editLine k erase = .ok l ∧ Typed (doBackspace l) (sheet.rubbed (attribs k.currTerminal)) ∧
      (doBackspace l).currTerminal = k.currTerminal := by
  have size : (lineOf k k.currTerminal).bufferSize = sheet.text.length := typed_size typed
  have long := List.length_pos_of_ne_nil some
  obtain ⟨line,erased⟩ : ∃ line, erase (lineOf k k.currTerminal) = .ok line :=
    ⟨_,if_pos (by rw [size]; omega)⟩
  obtain ⟨text,reads,waits⟩ := erase_content (by omega) erased
  refine ⟨setLine k k.currTerminal line,?_,?_⟩
  · rw [editLine,erased]
    rfl
  · refine typed_drew typed line (doBackspace_drew (setLine_arranged typed.arranged _ _)) (doBackspace_draws _)
      (reads.trans typed.reads) (waits.trans typed.waits) ?_ ?_
    · rw [text,typed.text]
      rfl
    · exact backspace_shows typed.paper inside

/-! ### Keys -/

/-- A key that edits the line or does nothing to it: its code is in the table, it is
    not Enter, and the handler takes it neither for a control code nor for a switch
    to another terminal. -/
structure EditingKey (k : Kernel) (c : UInt8) : Prop where
  inTable : (c &&& 0x7F).toNat < supportedKeys
  notEnter : c ≠ enterKeycode
  noSwitch : SwitchKey k.modifiers c → (c - function1).toNat = k.currTerminal
  noControl : ¬ ((activeTerm k).readAck = true ∧ ctrlHeld k.modifiers = true ∧ (c = scanL ∨ c = scanA ∨ c = scanC))

instance (k : Kernel) (c : UInt8) : Decidable (EditingKey k c) :=
  decidable_of_iff ((c &&& 0x7F).toNat < supportedKeys ∧ c ≠ enterKeycode ∧
      (SwitchKey k.modifiers c → (c - function1).toNat = k.currTerminal) ∧
      ¬ ((activeTerm k).readAck = true ∧ ctrlHeld k.modifiers = true ∧ (c = scanL ∨ c = scanA ∨ c = scanC)))
    ⟨fun ⟨inTable,notEnter,noSwitch,noControl⟩ => ⟨inTable,notEnter,noSwitch,noControl⟩,
      fun edits => ⟨edits.inTable,edits.notEnter,edits.noSwitch,edits.noControl⟩⟩

/-- A key that is neither a switch nor a control code is pressed where it has a
    stroke. -/
theorem handler_press {fs : Fs} {fuel : Nat} {c2 : UInt8} {stroke : Stroke} (edits : EditingKey k c)
    (means : strokeOf k c c2 = some stroke) : c &&& releasedMask = 0 ∧ stroke = pressStroke k.modifiers c ∧
      keyboardInterruptHandler fs fuel k c c2 = handlePress k c := by
  simp only [strokeOf] at means
  split at means
  · cases means
  · rename_i special
    obtain ⟨plain,noSwitch⟩ := not_or.mp special
    split at means
    · rename_i control
      refine absurd ⟨control.1,control.2,?_⟩ edits.noControl
      simp only [controlStroke] at means
      split at means
      · rename_i l; exact .inl l
      · split at means
        · rename_i a; exact .inr (.inl a)
        · split at means
          · rename_i c'; exact .inr (.inr c')
          · cases means
    · rename_i control
      split at means
      · rename_i pressed
        refine ⟨pressed,(Option.some.inj means).symm,?_⟩
        simp only [keyboardInterruptHandler]
        rw [checkControlCodes_held,not_not.mp plain]
        simp only
        rw [if_neg noSwitch,if_neg control,if_pos pressed]
      · cases means

/-- A key of the table that is not released is below its size. -/
theorem pressed_inTable (inTable : (c &&& 0x7F).toNat < supportedKeys) (pressed : c &&& releasedMask = 0) :
    c.toNat < supportedKeys := by
  have keyPart : (c &&& 0x7F).toNat = c.toNat % 2 ^ 7 := by
    rw [UInt8.toNat_and,← Nat.and_two_pow_sub_one_eq_mod]
    rfl
  have masked : c.toNat &&& 128 = 0 := by
    have same := congrArg UInt8.toNat pressed
    rwa [UInt8.toNat_and] at same
  have bit : (c.toNat &&& 128).testBit 7 = false := by rw [masked]; exact Nat.zero_testBit 7
  have high : Nat.testBit 128 7 = true := by decide
  rw [Nat.testBit_and,high,Bool.and_true,Nat.testBit_eq_decide_div_mod_eq,decide_eq_false_iff_not] at bit
  have byte := c.toNat_lt
  rw [keyPart] at inTable
  omega

theorem scanCode_return {row : Nat} (shift : row < 2) (found : scanCode row c = .ok 13) : c = enterKeycode := by
  have entries : ∀ row, row < 2 → ∀ i, i < supportedKeys → (scanCode1.getD row []).getD i 0 = 13 →
      i = enterKeycode.toNat := by decide +kernel
  simp only [scanCode] at found
  split at found
  · rename_i inside
    exact UInt8.toNat_inj.mp (entries row shift _ inside (Except.ok.inj found))
  · cases found

/-- No key of the table but Enter prints a carriage return, and none a newline. -/
theorem keyOutput_drawn {m : Modifiers} {output : UInt8} (notEnter : c ≠ enterKeycode)
    (found : keyOutput m c = .ok output) : ¬ (output = 10 ∨ output = 13) := by
  rintro (rfl | rfl)
  · exact keyOutput_plain found rfl
  · unfold keyOutput at found
    obtain ⟨plain,first,found⟩ := bind_eq_ok.mp found
    simp only at found
    split at found
    · exact notEnter (scanCode_return (by decide) found)
    · have letter := Except.ok.inj found
      simp only [letterCase] at letter
      split at letter
      -- A lower case letter is above 45.
      · rename_i lower
        simp only [Bool.and_eq_true,isLower,decide_eq_true_eq] at lower
        have code : plain = 13 + offsetToUppercase := by
          have sum := congrArg (· + offsetToUppercase) letter
          simpa using sum
        rw [code] at lower
        exact absurd lower.2.1 (by decide)
      · rw [letter] at first
        exact notEnter (scanCode_return (by decide) first)

/-- The state while a line is edited: the terminal follows the sheet, and the line
    is not yet full. -/
structure Editing (first : Roll Cell) (k : Kernel) (sheet : Sheet) : Prop where
  typed : Typed k sheet
  ruled : Ruled (attribs k.currTerminal) first sheet
  short : sheet.text.length < maxBufferSize - 2

/-- A step of the editing: the active terminal stays the same. -/
def Edited (first : Roll Cell) (k : Kernel) (result : Checked Kernel) (sheet : Sheet) : Prop :=
  ∃ after, result = .ok after ∧ after.currTerminal = k.currTerminal ∧ Editing first after sheet

theorem edited_same {first : Roll Cell} (editing : Editing first k sheet) : Edited first k (.ok k) sheet :=
  ⟨k,rfl,rfl,editing⟩

/-- A line that is not full gets no newline. -/
theorem edited_fill {first : Roll Cell} {result : Checked Kernel} {next : Kernel → Checked Kernel}
    (edited : Edited first k result sheet) :
    Edited first k (result >>= fun l => if (activeTerm l).bufferSize ≥ maxBufferSize - 2 then next l else .ok l)
      sheet := by
  obtain ⟨l,rfl,current,editing⟩ := edited
  have short := editing.short
  rw [ok_bind,if_neg (by rw [typed_size editing.typed]; omega)]
  exact ⟨l,rfl,current,editing⟩

theorem press_backspace {first : Roll Cell} (editing : Editing first k sheet) :
    Edited first k (handlePress k backspaceKey) (sheet.stroke (attribs k.currTerminal) .backspace) := by
  obtain ⟨typed,ruled,short⟩ := editing
  have size := typed_size typed
  have reads : (activeTerm k).readAck = true := typed.reads
  simp only [handlePress,if_true,Sheet.stroke]
  by_cases empty : sheet.text = []
  · rw [if_pos empty,if_pos (by rw [size,empty]; rfl)]
    exact edited_same ⟨typed,ruled,short⟩
  · have long := List.length_pos_of_ne_nil empty
    have pos := ruled.pos
    have top := ruled_top ruled
    obtain ⟨l,erased,typed',current⟩ := rub_typed typed empty (by omega) (by omega)
    rw [if_neg empty,if_neg (by rw [size]; omega),if_pos reads,erased]
    have visible : sheet.paper.pos ≤ (sheet.paper.top + numRows) * numCols := by
      rw [typed.paper.pos]
      exact Nat.le_of_lt (place_lt typed.paper.column (Nat.add_lt_add_left typed.paper.row _))
    refine ⟨_,rfl,current,typed',?_,?_⟩
    · rw [current]
      exact rubbed_ruled ruled empty visible
    · simp only [Sheet.rubbed,List.length_dropLast]
      omega

theorem press_tab {first : Roll Cell} (editing : Editing first k sheet) :
    Edited first k (if (activeTerm k).bufferSize + 4 < maxBufferSize - 2 then putSpaces 4 k else .ok k)
      (sheet.stroke (attribs k.currTerminal) .tab) := by
  have size := typed_size editing.typed
  simp only [Sheet.stroke,size]
  by_cases room : sheet.text.length + 4 < maxBufferSize - 2
  · rw [if_pos room,if_pos room]
    obtain ⟨after,put,typed,current⟩ := spaces_typed 4 editing.typed (by simp only [maxBufferSize] at *; omega)
    refine ⟨after,put,current,typed,?_,?_⟩
    · rw [current]
      exact spaced_ruled 4 editing.ruled room
    · simp only [Sheet.spaced,Sheet.typed,List.length_append,List.length_singleton]
      omega
  · rw [if_neg room,if_neg room]
    exact edited_same editing

/-- A character is typed, if the line is not full after it. -/
theorem press_char {first : Roll Cell} (editing : Editing first k sheet) (drawn : ¬ (c = 10 ∨ c = 13))
    (room : sheet.text.length + 1 < maxBufferSize - 2) :
    Edited first k (editLine k (typeChar · c) >>= fun k => .ok (putc k c))
      (sheet.stroke (attribs k.currTerminal) (.char c)) := by
  obtain ⟨l,edited,typed,current⟩ := char_typed editing.typed drawn (by simp only [maxBufferSize] at *; omega)
  rw [edited]
  refine ⟨_,rfl,current,typed,?_,?_⟩
  · rw [current]
    exact typed_ruled editing.ruled room c
  · simp only [Sheet.stroke,Sheet.typed,List.length_append,List.length_singleton]
    exact room

/-- A character that would fill the line is followed by a newline. -/
theorem char_fills (output : UInt8) (typed : Typed k sheet) (full : ¬ sheet.text.length + 1 < maxBufferSize - 2)
    (short : sheet.text.length < maxBufferSize - 2) :
    ∃ line, strokeLine (lineOf k k.currTerminal) (.char output) = .ok line ∧ maxBufferSize - 2 ≤ line.bufferSize := by
  have size : (lineOf k k.currTerminal).bufferSize = sheet.text.length := typed_size typed
  simp only [maxBufferSize] at full short
  have room : (lineOf k k.currTerminal).bufferSize < maxBufferSize := by simp only [maxBufferSize]; omega
  have long : maxBufferSize - 2 ≤ (pushed (lineOf k k.currTerminal) output).bufferSize := by
    simp only [pushed,maxBufferSize]
    omega
  have room' : (pushed (lineOf k k.currTerminal) output).bufferSize < maxBufferSize := by
    simp only [pushed,maxBufferSize]
    omega
  refine ⟨wake (pushed (pushed (lineOf k k.currTerminal) output) newlineChar),?_,?_⟩
  · rw [strokeLine,typeChar_open output typed.reads,append_ok output room,ok_bind,fill_long long,
      append_ok newlineChar room',ok_bind]
  · exact Nat.le_succ_of_le long

/-- A key that is pressed and leaves room in the line makes its stroke on the
    sheet. -/
theorem press_edited {first : Roll Cell} (editing : Editing first k sheet) (inTable : c.toNat < supportedKeys)
    (notEnter : c ≠ enterKeycode)
    (stays : ∀ after, handlePress k c = .ok after → (activeTerm after).bufferSize < maxBufferSize - 2) :
    Edited first k (handlePress k c) (sheet.stroke (attribs k.currTerminal) (pressStroke k.modifiers c)) := by
  by_cases back : c = backspaceKey
  · subst back
    rw [pressStroke,if_pos rfl]
    exact press_backspace editing
  · obtain ⟨output,found⟩ : ∃ output, keyOutput k.modifiers c = .ok output := by
      cases found : keyOutput k.modifiers c with
      | ok output => exact ⟨output,rfl⟩
      | error fault => exact absurd (keyOutput_error found).2 (by omega)
    have stroke := handlePress_stroke k c
    have reads : (activeTerm k).readAck = true := editing.typed.reads
    rw [pressStroke,if_neg back,if_neg notEnter,found] at stroke ⊢
    simp only [handlePress,if_neg back,if_neg notEnter,printCharacter,found,ok_bind] at stroke stays ⊢
    by_cases tab : c = scanTab
    · simp only [if_pos tab]
      exact edited_fill (press_tab editing)
    · simp only [if_neg tab] at stroke stays ⊢
      by_cases quiet : output = 0 ∨ CursorKey c
      · simp only [if_pos quiet]
        exact edited_fill (edited_same editing)
      · simp only [if_neg quiet] at stroke stays ⊢
        refine edited_fill (press_char editing (keyOutput_drawn notEnter found) ?_)
        by_contra full
        obtain ⟨line,filled,long⟩ := char_fills output editing.typed full editing.short
        rw [filled] at stroke
        obtain ⟨after,handled,draws⟩ := stroke
        obtain ⟨_,_,same⟩ := setLine_drawn draws
        have size := stays after handled
        have size' : (activeTerm after).bufferSize = line.bufferSize := congrArg Line.bufferSize same
        omega

/-! ### Runs -/

/-- One call of the keyboard interrupt handler. -/
def keyStep (fs : Fs) (fuel : Nat) (k : Kernel) (key : UInt8 × UInt8) : Checked Kernel :=
  keyboardInterruptHandler fs fuel k key.1 key.2

/-- The monitor that makes the strokes of a run on a sheet. -/
def noteStroke (k : Kernel) (key : UInt8 × UInt8) (_ : Kernel) (sheet : Sheet) : Sheet :=
  match strokeOf k key.1 key.2 with
  | some stroke => sheet.stroke (attribs k.currTerminal) stroke
  | none => sheet

/-- A key that edits the line and does not fill it. -/
def EditsLine (fs : Fs) (fuel : Nat) (k : Kernel) (key : UInt8 × UInt8) : Prop :=
  EditingKey k key.1 ∧
    ∀ after, keyStep fs fuel k key = .ok after → (activeTerm after).bufferSize < maxBufferSize - 2

instance (fs : Fs) (fuel : Nat) (k : Kernel) (key : UInt8 × UInt8) : Decidable (EditsLine fs fuel k key) :=
  match handled : keyStep fs fuel k key with
  | .ok after =>
    decidable_of_iff (EditingKey k key.1 ∧ (activeTerm after).bufferSize < maxBufferSize - 2) (by simp [EditsLine,handled])
  | .error _ => decidable_of_iff (EditingKey k key.1) (by simp [EditsLine,handled])

/-- The modifiers are no part of the terminal. -/
theorem modifiers_edited {first : Roll Cell} (editing : Editing first k sheet) (modifiers : Modifiers) :
    Edited first k (.ok { k with modifiers := modifiers }) sheet := by
  obtain ⟨typed,ruled,short⟩ := editing
  have same : SameDisplay k { k with modifiers := modifiers } := unchanged_same rfl rfl rfl rfl
  have arranged := arranged_same typed.arranged same typed.arranged.exec typed.arranged.vids
  refine ⟨_,rfl,rfl,⟨arranged,typed.reads,typed.waits,typed.text,?_⟩,ruled,short⟩
  rw [logical_same same]
  exact typed.paper

/-- The handler makes the stroke of a key on the sheet. -/
theorem key_edited {fs : Fs} {fuel : Nat} {first : Roll Cell} {key : UInt8 × UInt8} (editing : Editing first k sheet)
    (edits : EditsLine fs fuel k key) : Edited first k (keyStep fs fuel k key) (noteStroke k key k sheet) := by
  obtain ⟨edits,stays⟩ := edits
  simp only [keyStep] at stays ⊢
  cases means : strokeOf k key.1 key.2 with
  | none =>
    rcases handler_other fs fuel means with ⟨switch,handled⟩ | ⟨_,modifiers,unchanged⟩
    · -- A switch to the active terminal does nothing.
      rw [handled,edits.noSwitch switch,switchActiveTerminal,if_neg (Nat.not_le.mpr editing.typed.arranged.current),
        if_pos rfl,noteStroke,means]
      exact edited_same editing
    · rw [unchanged,noteStroke,means]
      exact modifiers_edited editing modifiers
  | some stroke =>
    have pressed : key.1 &&& releasedMask = 0 ∧ stroke = pressStroke k.modifiers key.1 ∧
        keyboardInterruptHandler fs fuel k key.1 key.2 = handlePress k key.1 := handler_press edits means
    obtain ⟨pressed,rfl,handled⟩ := pressed
    rw [handled] at stays ⊢
    rw [noteStroke,means]
    exact press_edited editing (pressed_inTable edits.inTable pressed) edits.notEnter stays

theorem run_edited {fs : Fs} {fuel : Nat} {first : Roll Cell} {keys : List (UInt8 × UInt8)}
    (editing : Editing first k sheet) (edits : EachStep (keyStep fs fuel) (EditsLine fs fuel) k keys) :
    ∃ last sheet', run (watched (keyStep fs fuel) noteStroke) (k,sheet) keys = .ok (last,sheet') ∧
      last.currTerminal = k.currTerminal ∧ Editing first last sheet' := by
  induction keys generalizing k sheet with
  | nil => exact ⟨k,sheet,rfl,rfl,editing⟩
  | cons key rest ih =>
    obtain ⟨l,handled,current,editing'⟩ := key_edited editing edits.1
    obtain ⟨last,sheet',ran,current',editing''⟩ := ih editing' (edits.2 l handled)
    exact ⟨last,sheet',(run_cons _ _ _ _).mpr ⟨_,watched_eq_ok.mpr ⟨handled,rfl⟩,ran⟩,current'.trans current,editing''⟩

/-! ### The echo -/

/-- The cells of a screen, row by row. -/
def cellFrom (s : Screen) (i : Nat) : Cell := cellOf s.mem (i % numCols) (i / numCols)

/-- The number of the cell that is written next. -/
def placeOf (s : Screen) : Nat := s.yPos * numCols + s.xPos

/-- A screen shows a line that was started on the screen `first`, which has
    scrolled since: the bytes of the buffer stand in the cells from the start on,
    the cursor is behind them, the erased cells follow the line and are blank,
    and what stood before the line still stands there. -/
structure Echoes (attrib : UInt8) (first : Screen) (line : Line) (scrolls : Nat) (erased : List Nat) (s : Screen) :
    Prop where
  start : scrolls * numCols ≤ placeOf first
  shown : ∀ i, i < line.bufferSize → cellFrom s (placeOf first + i - scrolls * numCols) = (line.buffer i,attrib)
  cursor : placeOf s + scrolls * numCols = placeOf first + line.bufferSize
  erased : ∀ i, i ∈ erased → placeOf first + line.bufferSize ≤ i ∧ i < (scrolls + numRows) * numCols ∧
    cellFrom s (i - scrolls * numCols) = blankCell attrib
  before : ∀ i, scrolls * numCols ≤ i → i < placeOf first → cellFrom s (i - scrolls * numCols) = cellFrom first i

/-- A cell of the paper that is in the window, on the screen. -/
theorem paper_cell {attrib : UInt8} {p : Roll Cell} {s : Screen} (shows : OnPaper attrib p s) {i : Nat}
    (low : p.top * numCols ≤ i) (high : i < (p.top + numRows) * numCols) :
    cellFrom s (i - p.top * numCols) = p.cells i := by
  have column : (i - p.top * numCols) % numCols < numCols := Nat.mod_lt _ (by decide)
  have row : (i - p.top * numCols) / numCols < numRows := by
    rw [Nat.div_lt_iff_lt_mul (by decide)]
    rw [Nat.add_mul] at high
    omega
  have place : (p.top + (i - p.top * numCols) / numCols) * numCols + (i - p.top * numCols) % numCols = i := by
    rw [Nat.add_mul,Nat.add_assoc,Nat.div_add_mod']
    omega
  have cell := shows.cell _ _ column row
  rw [cellAt,place] at cell
  exact cell

theorem editing_echoes {s : Screen} {t : Nat} (inRange : InRange s) (current : k.currTerminal = t)
    (editing : Editing (paperOf (attribs t) s) k sheet) :
    Echoes (attribs t) s (lineOf k t) sheet.paper.top sheet.erased (logical k t) := by
  subst current
  obtain ⟨typed,ruled,short⟩ := editing
  have size : (lineOf k k.currTerminal).bufferSize = sheet.text.length := typed_size typed
  have begins : (paperOf (attribs k.currTerminal) s).pos = placeOf s := rfl
  have top := ruled_top ruled
  have pos := ruled.pos
  have window := typed.paper.pos
  have inside : sheet.paper.pos < (sheet.paper.top + numRows) * numCols := by
    rw [window]
    exact place_lt typed.paper.column (Nat.add_lt_add_left typed.paper.row _)
  rw [begins] at top pos
  refine ⟨top,?_,?_,?_,?_⟩
  · intro i below
    have shown := ruled.shown i (by omega)
    rw [paper_cell typed.paper (by omega) (by omega),← begins,shown]
    simp only [← typed.text,content,taken_getElem]
  · rw [size,← pos,window,Nat.add_mul,placeOf]
    simp only [windowOf]
    omega
  · intro i member
    obtain ⟨low,high,blank⟩ := ruled.erased i member
    rw [begins] at low
    exact ⟨by omega,high,by rw [paper_cell typed.paper (by omega) high,blank]⟩
  · intro i visible before
    have first : placeOf s < numRows * numCols := place_lt inRange.1 inRange.2
    have kept := ruled.before i (by rw [begins]; exact before)
    rw [paper_cell typed.paper visible (by omega),kept]
    simp only [paperOf]
    rw [if_pos (by omega)]
    rfl

/-- From a read that waits with an empty line, whatever the cursor of the active
    terminal, keys that edit the line and do not fill it keep the screen an echo
    of the buffer. -/
theorem line_echoed {fs : Fs} {fuel : Nat} {keys : List (UInt8 × UInt8)} (arranged : Arranged k)
    (reads : (activeTerm k).readAck = true) (waits : (activeTerm k).ack = false) (empty : (activeTerm k).bufferSize = 0)
    (edits : EachStep (keyStep fs fuel) (EditsLine fs fuel) k keys) :
    ∃ last sheet, run (watched (keyStep fs fuel) noteStroke)
        (k,fresh (paperOf (attribs k.currTerminal) (logical k k.currTerminal))) keys = .ok (last,sheet) ∧
      last.currTerminal = k.currTerminal ∧ (activeTerm last).readAck = true ∧ (activeTerm last).ack = false ∧
      Echoes (attribs k.currTerminal) (logical k k.currTerminal) (lineOf last k.currTerminal) sheet.paper.top
        sheet.erased (logical last k.currTerminal) := by
  have inRange := arranged.inRange _ arranged.current
  have nothing : content (lineOf k k.currTerminal) = [] :=
    List.eq_nil_of_length_eq_zero (by rw [content_length]; exact empty)
  have typed : Typed k (fresh (paperOf (attribs k.currTerminal) (logical k k.currTerminal))) :=
    ⟨arranged,reads,waits,nothing,paperOf_shows inRange _⟩
  have start : Editing (paperOf (attribs k.currTerminal) (logical k k.currTerminal)) k _ :=
    ⟨typed,fresh_ruled _ rfl,Nat.zero_lt_succ _⟩
  obtain ⟨last,sheet,ran,current,editing⟩ := run_edited start edits
  exact ⟨last,sheet,ran,current,editing.typed.reads,editing.typed.waits,editing_echoes inRange current editing⟩

/-- The first kernel, with a read that waits on terminal 0. -/
def waiting : Kernel := setLine (Screens.start default) 0 ⟨0,fun _ => 0,false,true⟩

/-- The letters `a` and `s`, Alt-F1 on the first terminal, and Backspace. -/
def editingKeys : List (UInt8 × UInt8) :=
  [(0x1E,0),(0x1F,0),(altPressed,0),(function1,0),(altReleased,0),(backspaceKey,0)]

theorem line_echoed_waiting : ∃ last sheet,
    run (watched (keyStep ReadData.shellFs 0) noteStroke) (waiting,fresh (paperOf (attribs 0) (logical waiting 0)))
        editingKeys = .ok (last,sheet) ∧ content (lineOf last 0) = [97] ∧
      Echoes (attribs 0) (logical waiting 0) (lineOf last 0) sheet.paper.top sheet.erased (logical last 0) := by
  have leads : Leads (run (watched (keyStep ReadData.shellFs 0) noteStroke)
      (waiting,fresh (paperOf (attribs 0) (logical waiting 0))) editingKeys) fun s => content (lineOf s.1 0) = [97] := by
    decide +kernel
  obtain ⟨⟨after,typed⟩,ran',line⟩ := leads
  have edits : EachStep (keyStep ReadData.shellFs 0) (EditsLine ReadData.shellFs 0) waiting editingKeys := by decide +kernel
  obtain ⟨last,sheet,ran,_,_,_,echoes⟩ := line_echoed (setLine_arranged (start_arranged default) _ _) rfl rfl rfl edits
  cases ran'.symm.trans ran
  exact ⟨after,typed,ran',line,echoes⟩

end

end MazeOS.Echo
