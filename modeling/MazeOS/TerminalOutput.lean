import MazeOS.Paper
import MazeOS.Screens
import MazeOS.Files

/-!
Terminal output as writing on an endless roll of paper. The loops of
`shift_display` move the rows of a screen up and blank the last one
(`shiftDisplay_cell`), so a character that is written to a screen is written to
the window that it is (`putcAt_alike`), and the screen shows the paper
(`putc_shows`, `text_shows`). The backup page of the active terminal is mapped
to the visible one, so `putc_buffer` and `putc` are then one function
(`putc_eq_putcBuffer`).
-/
namespace MazeOS.TerminalOutput
open MazeOS.Bytes MazeOS.Paging MazeOS.State MazeOS.Display MazeOS.Syscalls MazeOS.Files MazeOS.Terminal
  MazeOS.Windows MazeOS.Screens MazeOS.Paper

/-! ### Screens as windows -/

/-- A character and its attribute. -/
abbrev Cell := UInt8 × UInt8

def blankCell (attrib : UInt8) : Cell := (space,attrib)

/-- The cell of the display at address 0. -/
def cellOf (mem : Nat → UInt8) (x y : Nat) : Cell := (mem (cellAddress 0 x y),mem (cellAddress 0 x y + 1))

def windowOf (s : Screen) : Window Cell := ⟨cellOf s.mem,s.xPos,s.yPos⟩

/-- The paper of a screen: its rows, followed by blank ones. -/
def paperOf (attrib : UInt8) (s : Screen) : Roll Cell where
  cells := fun i => if i < numRows * numCols then cellOf s.mem (i % numCols) (i / numCols) else blankCell attrib
  pos := s.yPos * numCols + s.xPos
  top := 0

/-- A byte written on the paper of a terminal. -/
def writeChar (attrib : UInt8) (p : Roll Cell) (c : UInt8) : Roll Cell :=
  if c = 10 ∨ c = 13 then newline numCols numRows p else put numCols numRows p (c,attrib)

def writeText (attrib : UInt8) (p : Roll Cell) (text : List UInt8) : Roll Cell := text.foldl (writeChar attrib) p

/-- The screen shows the paper. -/
abbrev OnPaper (attrib : UInt8) (p : Roll Cell) (s : Screen) : Prop :=
  Shows numCols numRows (blankCell attrib) p (windowOf s)

theorem paperOf_shows {s : Screen} (inRange : InRange s) (attrib : UInt8) : OnPaper attrib (paperOf attrib s) s := by
  refine ⟨?_,?_,by simp only [paperOf,windowOf,Nat.zero_add],inRange.1,inRange.2⟩
  · intro x y column row
    have inside : y * numCols + x < numRows * numCols := place_lt column row
    simp only [cellAt,paperOf,windowOf,Nat.zero_add,if_pos inside,row_of y column,column_of y column]
  · intro i low
    simp only [paperOf,Nat.zero_add] at low ⊢
    exact if_neg (Nat.not_lt_of_le low)

/-! ### The display on a page of its own -/

section
variable {mem : Nat → UInt8} {x y x' y' : Nat}

theorem address_inj (column : x < numCols) (column' : x' < numCols) :
    cellAddress 0 x y = cellAddress 0 x' y' ↔ x = x' ∧ y = y' := by
  simp only [cellAddress,numCols] at *
  omega

theorem drawCell_cell (column : x < numCols) (column' : x' < numCols) (c attrib : UInt8) :
    cellOf (drawCell some mem 0 x y c attrib) x' y' = if x' = x ∧ y' = y then (c,attrib) else cellOf mem x' y' := by
  have place : cellAddress 0 x y = cellAddress 0 x' y' ↔ x = x' ∧ y = y' := address_inj column column'
  simp only [cellOf,drawCell,store_self]
  by_cases here : x' = x ∧ y' = y
  · obtain ⟨rfl,rfl⟩ := here
    simp
  · have apart : cellAddress 0 x' y' ≠ cellAddress 0 x y := fun same => here ((address_inj column' column).mp same)
    have even : cellAddress 0 x' y' % 2 = 0 ∧ cellAddress 0 x y % 2 = 0 := by
      simp only [cellAddress]
      omega
    rw [if_neg here,Function.update_of_ne (by omega),Function.update_of_ne apart,Function.update_of_ne (by omega),
      Function.update_of_ne (by omega)]

/-- The first loop of `shift_display` moves the rows after the first ones up. -/
theorem shiftRows_eq (mem : Nat → UInt8) (n : Nat) :
    shiftRows some mem 0 n = copyInto mem 0 (fun a => mem (a + numCols * 2)) (n * (numCols * 2)) := by
  induction n with
  | zero => simp [shiftRows]
  | succ n ih =>
    have dest : cellAddress 0 0 n = 0 + n * (numCols * 2) := by simp only [cellAddress,numCols]; omega
    have src : cellAddress 0 0 (n + 1) = n * (numCols * 2) + numCols * 2 := by simp only [cellAddress,numCols]; omega
    rw [shiftRows,memcpy_apart _ (.inl (by omega)),ih,dest,src,Nat.succ_mul]
    refine copyInto_append mem 0 (n * (numCols * 2)) (numCols * 2) (fun i _ => rfl) ?_
    intro i inside
    rw [copyInto_outside (by omega)]
    congr 1
    omega

theorem shiftRows_cell (column : x < numCols) (row : y < numRows) :
    cellOf (shiftRows some mem 0 (numRows - 1)) x y =
      if y + 1 < numRows then cellOf mem x (y + 1) else cellOf mem x y := by
  have next : cellAddress 0 x (y + 1) = cellAddress 0 x y + numCols * 2 := by simp only [cellAddress,numCols]; omega
  simp only [cellOf,shiftRows_eq]
  split
  · have inside : cellAddress 0 x y + 1 < (numRows - 1) * (numCols * 2) := by
      simp only [cellAddress,numCols,numRows] at *
      omega
    rw [copyInto_inside (Nat.zero_le _) (by omega),copyInto_inside (Nat.zero_le _) (by omega),next]
    simp only [Nat.sub_zero,Nat.add_right_comm]
  · have outside : (numRows - 1) * (numCols * 2) ≤ cellAddress 0 x y := by
      simp only [cellAddress,numCols,numRows] at *
      omega
    rw [copyInto_outside (by omega),copyInto_outside (by omega)]

/-- The second loop of `shift_display`, after `n` cells. -/
theorem blankRow_cell (attrib : UInt8) (column : x < numCols) {n : Nat} (columns : n ≤ numCols) :
    cellOf (blankRow some mem 0 attrib n) x y =
      if y = numRows - 1 ∧ x < n then blankCell attrib else cellOf mem x y := by
  induction n with
  | zero => simp [blankRow]
  | succ n ih =>
    rw [blankRow,drawCell_cell (by omega) column,ih (by omega)]
    by_cases last : y = numRows - 1
    · by_cases here : x = n
      · rw [if_pos ⟨here,last⟩,if_pos ⟨last,by omega⟩,blankCell]
      · rw [if_neg fun both => here both.1]
        by_cases before : x < n
        · rw [if_pos ⟨last,before⟩,if_pos ⟨last,by omega⟩]
        · rw [if_neg fun both => before both.2,if_neg fun both => before (by omega)]
    · rw [if_neg fun both => last both.2,if_neg fun both => last both.1,if_neg fun both => last both.1]

/-- `shift_display` moves the rows up and blanks the last one. -/
theorem shiftDisplay_cell (attrib : UInt8) (column : x < numCols) (row : y < numRows) :
    cellOf (shiftDisplay some mem 0 attrib) x y =
      if y + 1 < numRows then cellOf mem x (y + 1) else blankCell attrib := by
  rw [shiftDisplay,blankRow_cell attrib column (Nat.le_refl numCols),shiftRows_cell column row]
  by_cases more : y + 1 < numRows
  · rw [if_neg (by omega),if_pos more,if_pos more]
  · rw [if_pos ⟨by omega,column⟩,if_neg more]

end

/-! ### A character on the screen -/

section
variable {s : Screen} {attrib : UInt8} {p : Roll Cell}

/-- The screen goes to its next row as the window does; the column is forgotten. -/
theorem nextRow_alike {w : Window Cell} (cell : ∀ x y, x < numCols → y < numRows → cellOf s.mem x y = w.cell x y)
    (row : s.yPos = w.y) (attrib : UInt8) :
    Alike numCols numRows (windowOf (Display.nextRow some s 0 attrib))
      (Paper.nextRow numRows (blankCell attrib) w) := by
  have last : s.yPos = numRows - 1 ↔ w.y + 1 = numRows := by
    simp only [row,numRows]
    omega
  by_cases here : s.yPos = numRows - 1
  · rw [Display.nextRow,if_pos here,Paper.nextRow,if_pos (last.mp here)]
    refine ⟨?_,rfl,row⟩
    intro x y column inside
    simp only [windowOf,scroll]
    rw [shiftDisplay_cell attrib column inside]
    split
    · rename_i more
      exact cell x (y + 1) column more
    · rfl
  · rw [Display.nextRow,if_neg here,Paper.nextRow,if_neg fun next => here (last.mpr next)]
    exact ⟨cell,rfl,congrArg (· + 1) row⟩

/-- A character that is drawn on the screen is written in the window. -/
theorem putcAt_alike (column : s.xPos < numCols) {c : UInt8} (line : ¬ (c = 10 ∨ c = 13)) (attrib : UInt8) :
    Alike numCols numRows (windowOf (putcAt some 0 attrib attrib s c))
      (type numCols numRows (blankCell attrib) (windowOf s) (c,attrib)) := by
  have drawn : ∀ x y, x < numCols → y < numRows →
      cellOf (drawCell some s.mem 0 s.xPos s.yPos c attrib) x y = (draw (windowOf s) (c,attrib)).cell x y :=
    fun _ _ column' _ => drawCell_cell column column' c attrib
  have place : (windowOf s).x = s.xPos := rfl
  rw [putcAt,if_neg line,type,place]
  simp only
  by_cases full : s.xPos + 1 ≥ numCols
  · rw [if_pos full,if_neg (Nat.not_lt_of_le full)]
    exact nextRow_alike drawn rfl attrib
  · rw [if_neg full,if_pos (Nat.lt_of_not_le full)]
    exact ⟨drawn,rfl,rfl⟩

/-- A character that is written to the screen is written on the paper. -/
theorem putc_shows (shows : OnPaper attrib p s) (c : UInt8) :
    OnPaper attrib (writeChar attrib p c) (Write.on attrib s (.putc c)) := by
  simp only [Write.on,Write.at,writeChar]
  by_cases line : c = 10 ∨ c = 13
  · rw [putcAt,if_pos line,if_pos line]
    exact shows_alike (shows_newline shows) (nextRow_alike (fun _ _ _ _ => rfl) rfl attrib)
  · rw [if_neg line]
    exact shows_alike (shows_put shows (c,attrib)) (putcAt_alike shows.column line attrib)

/-- A text that is written to the screen is written on the paper. -/
theorem text_shows (shows : OnPaper attrib p s) (text : List UInt8) :
    OnPaper attrib (writeText attrib p text) (text.foldl (fun s c => Write.on attrib s (.putc c)) s) := by
  induction text generalizing p s with
  | nil => exact shows
  | cons c rest ih => exact ih (putc_shows shows c)

end

/-! ### Functions of the kernel -/

/-- The loop of `terminal_write`, from byte `i` of the buffer on. -/
def writeFrom (buf : Nat → UInt8) : Nat → Nat → Kernel → Kernel
  | 0, _, k => k
  | left + 1, i, k => writeFrom buf left (i + 1) (putcBuffer k (buf i))

/-- `terminal_write`: its return value, and the kernel after the loop. -/
def terminalWriteBytes (k : Kernel) (buf : Nat → UInt8) (nbytes : Int) : Int × Kernel :=
  (nbytes,writeFrom buf nbytes.toNat 0 k)

section
variable {k : Kernel}

theorem writeFrom_eq (buf : Nat → UInt8) (left i : Nat) (k : Kernel) :
    writeFrom buf left i k = terminalWrite k (taken (fun j => buf (i + j)) left) := by
  induction left generalizing i k with
  | zero => rfl
  | succ left ih =>
    have first : taken (fun j => buf (i + j)) (left + 1) = buf i :: taken (fun j => buf (i + 1 + j)) left := by
      simp only [taken,List.range_succ_eq_map,List.map_cons,List.map_map,Nat.add_zero]
      refine congrArg (buf i :: ·) (List.map_congr_left fun j _ => ?_)
      simp only [Function.comp_apply,Nat.succ_eq_add_one,Nat.add_assoc,Nat.add_comm 1 j]
    rw [writeFrom,ih,first]
    rfl

/-- `terminal_write` writes the first bytes of its buffer one by one. -/
theorem terminalWriteBytes_eq (k : Kernel) (buf : Nat → UInt8) (nbytes : Int) :
    terminalWriteBytes k buf nbytes = (nbytes,terminalWrite k (taken buf nbytes.toNat)) := by
  rw [terminalWriteBytes,writeFrom_eq]
  simp only [Nat.zero_add]

/-- A `write` to the standard output is `terminal_write`. -/
theorem sysWrite_terminal {fd address : Nat} (inside : fd < maxOpenFiles) (valid : address ≠ 0)
    (inUse : InUse (fdsOf k fd)) (stdout : (fdsOf k fd).fileOps = some .stdout) (buf : Nat → UInt8) (nbytes : Int) :
    sysWrite k fd address buf nbytes = .ok (terminalWriteBytes k buf nbytes) := by
  have inRange : ¬ ((fd : Int) < 0 ∨ (fd : Int) ≥ maxOpenFiles) := by omega
  simp only [sysWrite,inRange,valid,if_false,Int.toNat_natCast,inUse,if_true,stdout,terminalWriteBytes_eq]

theorem terminalWrite_drew (arranged : Arranged k) (text : List UInt8) :
    Drew k (text.map fun c => (k.execTerm,Write.putc c)) (terminalWrite k text) := by
  induction text generalizing k with
  | nil => exact drew_nothing arranged
  | cons c rest ih =>
    have first := putcBuffer_drew arranged c
    have exec : (putcBuffer k c).execTerm = k.execTerm := by
      obtain ⟨_,_,_,drew⟩ := putcBuffer_draws k c
      rw [drew]
      rfl
    have further := ih first.arranged
    rw [exec] at further
    exact drew_trans first further

/-- What the writes of a text to terminal `t` make of a screen. -/
theorem alone_text (t u : Nat) (s : Screen) (text : List UInt8) :
    alone u s (writesTo u (text.map fun c => (t,Write.putc c))) =
      if u = t then text.foldl (fun s c => Write.on (attribs u) s (.putc c)) s else s := by
  by_cases here : u = t
  · subst here
    simp [alone,writesTo,List.filter_map,Function.comp_def,List.foldl_map]
  · simp [alone,writesTo,List.filter_map,Function.comp_def,Ne.symm here,if_neg here]

/-- Two displays of one screen in a frame of memory are the same. -/
theorem shown_unique {frame : Nat} {rest : Nat → UInt8} {s s' page : Screen} (shown : Shown frame rest s page)
    (shown' : Shown frame rest s' page) : s = s' := by
  obtain ⟨mem,x,y⟩ := s
  obtain ⟨mem',x',y'⟩ := s'
  have same : mem = mem' := by
    funext a
    by_cases inside : frame ≤ a ∧ a < frame + pageSize
    · have place : frame + (a - frame) = a := by omega
      have here := shown.mirrors.inside (a - frame) (by omega)
      have there := shown'.mirrors.inside (a - frame) (by omega)
      rw [place] at here there
      exact here.trans there.symm
    · exact (shown.mirrors.outside a inside).trans (shown'.mirrors.outside a inside).symm
  have column : x = x' := shown.xPos.trans shown'.xPos.symm
  have row : y = y' := shown.yPos.trans shown'.yPos.symm
  rw [same,column,row]

/-- For the active terminal `putc_buffer` does what `putc` does: the backup page
    is mapped to the visible one. -/
theorem putc_eq_putcBuffer (arranged : Arranged k) (active : k.execTerm = k.currTerminal) (c : UInt8) :
    putc k c = putcBuffer k c := by
  have same : executingTerm k = activeTerm k := by rw [executingTerm,activeTerm,active]
  have virt : (activeTerm k).virtVidmemBackup = vidBkupMemStartVirt + k.currTerminal * 4096 :=
    arranged.virt _ arranged.current
  have apart : (activeTerm k).virtVidmemBackup ≠ videoMemStart := by
    rw [virt]
    simp only [vidBkupMemStartVirt,_128MB,_8MB,videoMemStart]
    omega
  have shown : Shown (frameOf k k.currTerminal) k.phys (screenOf k k.currTerminal) (logical k k.currTerminal) :=
    ⟨mirrors_pageAt _ _,rfl,rfl⟩
  have inRange := arranged.inRange _ arranged.current
  have visible := putcAt_shown (visible_window arranged) shown inRange (activeTerm k).attrib (activeTerm k).attrib c
  have backup := putcAt_shown (backup_window arranged arranged.current) shown inRange (activeTerm k).attrib
    (activeTerm k).attrib c
  have drawn := shown_unique visible.1 backup.1
  simp only [putc,putcBuffer,shiftAttrib,same,if_true,if_neg apart,active]
  rw [drawn]
  rfl

/-- A kernel that executes the process of another terminal. -/
def executing (k : Kernel) (t : Nat) : Kernel := { k with execTerm := t }

theorem executing_arranged (arranged : Arranged k) {t : Nat} (inside : t < maxTerminals) :
    Arranged (executing k t) := by
  have same : SameDisplay k (executing k t) :=
    ⟨rfl,rfl,fun _ => ⟨rfl,rfl⟩,fun _ => ⟨rfl,rfl⟩,fun _ => rfl,rfl,rfl,⟨rfl,rfl⟩⟩
  exact arranged_same arranged same inside arranged.vids

/-- `putc` does not depend on the process that is executed. -/
theorem putc_executing (k : Kernel) (t : Nat) (c : UInt8) : putc (executing k t) c = executing (putc k c) t := by
  simp only [putc,shiftAttrib,if_true]
  rfl

/-- Printing on the active terminal is what a process of that terminal does with
    `putc_buffer`. -/
theorem print_eq_terminalWrite (arranged : Arranged k) (text : List UInt8) :
    executing (text.foldl putc k) k.currTerminal = terminalWrite (executing k k.currTerminal) text := by
  induction text generalizing k with
  | nil => rfl
  | cons c rest ih =>
    have first := putc_drew arranged c
    have current : (putc k c).currTerminal = k.currTerminal := by
      obtain ⟨_,_,_,drew⟩ := putc_draws k c
      rw [drew]
      rfl
    have further := ih first.arranged
    rw [current] at further
    have step : putcBuffer (executing k k.currTerminal) c = executing (putc k c) k.currTerminal := by
      rw [← putc_executing]
      exact (putc_eq_putcBuffer (executing_arranged arranged arranged.current) rfl c).symm
    simp only [List.foldl_cons,terminalWrite,step]
    exact further

/-- `terminal_write` returns the number of bytes and writes them on the paper of
    the screen of its terminal, which then shows the paper again; it changes no
    other screen. On the active terminal, whoever is executed, `putc` leaves the
    same screen and cursor as `putc_buffer` when its process is executed. -/
theorem terminal_write_on_paper (arranged : Arranged k) (buf : Nat → UInt8) (nbytes : Int) :
    (terminalWriteBytes k buf nbytes).1 = nbytes ∧
    OnPaper (executingTerm k).attrib
      (writeText (executingTerm k).attrib (paperOf (executingTerm k).attrib (logical k k.execTerm))
        (taken buf nbytes.toNat))
      (logical (terminalWriteBytes k buf nbytes).2 k.execTerm) ∧
    (∀ t, t < maxTerminals → t ≠ k.execTerm → logical (terminalWriteBytes k buf nbytes).2 t = logical k t) ∧
    ∀ text : List UInt8,
      logical (text.foldl putc k) k.currTerminal =
        logical (text.foldl putcBuffer (executing k k.currTerminal)) k.currTerminal ∧
      (text.foldl putc k).cursor = (text.foldl putcBuffer (executing k k.currTerminal)).cursor := by
  have attrib : (executingTerm k).attrib = attribs k.execTerm := arranged.attrib _ arranged.exec
  have drew := terminalWrite_drew arranged (taken buf nbytes.toNat)
  rw [terminalWriteBytes_eq,attrib]
  refine ⟨rfl,?_,?_,?_⟩
  · rw [drew.screens _ arranged.exec,alone_text,if_pos rfl]
    exact text_shows (paperOf_shows (arranged.inRange _ arranged.exec) _) _
  · intro t inside other
    rw [drew.screens t inside,alone_text,if_neg other]
  · intro text
    have same : executing (text.foldl putc k) k.currTerminal = text.foldl putcBuffer (executing k k.currTerminal) :=
      print_eq_terminalWrite arranged text
    rw [← same]
    exact ⟨rfl,rfl⟩

/-- A row of letters and one more, and the ends of 25 rows. -/
def sampleText : Nat → UInt8 := fun i => if i < 81 then 65 else 10

/-- This text on the paper of the first terminal. -/
def samplePaper : Roll Cell :=
  writeText (attribs 0) (paperOf (attribs 0) (logical (start default) 0)) (taken sampleText 106)

/-- The letters go on in the next row, and the screen scrolls twice: the row with
    the last letter is gone, and the cursor is in the last row. -/
theorem terminal_write_on_paper_start : (terminalWriteBytes (start default) sampleText 106).1 = 106 ∧
    samplePaper.top = 2 ∧ samplePaper.cells 80 = (65,attribs 0) ∧
    OnPaper (attribs 0) samplePaper (logical (terminalWriteBytes (start default) sampleText 106).2 0) ∧
    (logical (terminalWriteBytes (start default) sampleText 106).2 0).yPos = 24 := by
  have scrolled : samplePaper.top = 2 ∧ samplePaper.cells 80 = (65,attribs 0) ∧ samplePaper.pos = 26 * 80 := by
    decide +kernel
  obtain ⟨top,letter,pos⟩ := scrolled
  obtain ⟨value,shows,_⟩ := terminal_write_on_paper (start_arranged default) sampleText 106
  have onPaper : OnPaper (attribs 0) samplePaper (logical (terminalWriteBytes (start default) sampleText 106).2 0) := shows
  have place := onPaper.pos
  have column := onPaper.column
  rw [top,pos] at place
  simp only [windowOf,numCols] at place column
  exact ⟨value,top,letter,onPaper,by omega⟩

end

end MazeOS.TerminalOutput
