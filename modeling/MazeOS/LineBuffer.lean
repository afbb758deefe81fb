import MazeOS.Sessions

/-!
The bounds of the line buffer. A store of the keyboard driver goes outside the
buffer, or a key is looked up outside the table, exactly when a key comes for
which there is no room (`StrokeFits`): characters and the newline of a full
line are stored without a test once 126 bytes are in the buffer, and the table
ends at column 93. No other function of the kernel has such a fault
(`op_inside`). `line_bounds` is about whole runs.
-/
namespace MazeOS.LineBuffer
open MazeOS.Runs MazeOS.Bytes MazeOS.Faults MazeOS.Filesystem MazeOS.Paging MazeOS.State MazeOS.Display MazeOS.Process
  MazeOS.Files MazeOS.Syscalls MazeOS.Terminal MazeOS.Steps MazeOS.Boot MazeOS.Keyboard MazeOS.KeyboardRead
  MazeOS.Sessions

/-! ### Faults outside the line buffer and the table -/

/-- A store outside a line buffer, or a column outside the table. -/
def OutOfLine : Fault → Prop
  | .buffer _ => True
  | .column _ => True
  | _ => False

/-- A computation does not end with such a fault. -/
def Inside {α : Type} (value : Checked α) : Prop := ∀ fault, value = .error fault → ¬ OutOfLine fault

section
variable {α β : Type}

@[simp] theorem inside_ok (a : α) : Inside (.ok a : Checked α) := by
  intro fault failed
  cases failed

@[simp] theorem inside_error (fault : Fault) : Inside (.error fault : Checked α) ↔ ¬ OutOfLine fault := by
  constructor
  · intro inside; exact inside fault rfl
  · intro inLine fault' failed; cases failed; exact inLine

theorem inside_bind {value : Checked α} {next : α → Checked β} (first : Inside value)
    (second : ∀ a, Inside (next a)) : Inside (value >>= next) := by
  cases value with
  | ok a => exact second a
  | error fault => simpa using first

theorem inside_ite {c : Prop} [Decidable c] {yes no : Checked α} (first : Inside yes) (second : Inside no) :
    Inside (if c then yes else no) := by
  split
  · exact first
  · exact second

end

/-! ### The functions that leave the line alone -/

section
variable (fs : Fs)

theorem loadDataBlocks_inside (inodeBlockPtr count : Nat) : Inside (loadDataBlocks fs inodeBlockPtr count) := by
  induction count with
  | zero => simp [loadDataBlocks]
  | succ i ih =>
    refine inside_bind ih ?_
    intro table
    split
    · simp
    · simp [OutOfLine]

theorem dataBlock_inside (table : DataBlocks) (i : Nat) : Inside (dataBlock table i) := by
  simp only [dataBlock]
  split
  · split
    · simp
    · simp [OutOfLine]
  · simp [OutOfLine]

theorem readBlocks_inside (table : DataBlocks) (length block blockPtr bytesRead : Nat) (buf : Nat → UInt8) :
    Inside (readBlocks fs table length block blockPtr bytesRead buf) := by
  fun_induction readBlocks fs table length block blockPtr bytesRead buf with
  | case1 => simp
  | case2 => simp
  | case3 _ _ _ _ _ _ _ _ ih =>
    apply inside_bind
    · apply dataBlock_inside
    · exact ih
  | case4 => simp

theorem readData_inside (inode offset : Nat) (buf : Nat → UInt8) (length : Nat) :
    Inside (readData fs inode offset buf length) := by
  unfold readData
  split
  · simp
  · simp only
    split
    · simp
    · refine inside_bind (loadDataBlocks_inside fs _ _) ?_
      intro table
      split
      · simp
      · refine inside_bind (dataBlock_inside _ _) ?_
        intro number
        refine inside_ite (by simp) (inside_ite (by simp) ?_)
        refine inside_bind (dataBlock_inside _ _) ?_
        intro next
        apply readBlocks_inside

theorem getElfHeader_inside (inode : Nat) : Inside (getElfHeader fs inode) :=
  inside_bind (readData_inside fs _ _ _ _) fun _ => inside_ok _

theorem getElfEntrypoint_inside (inode : Nat) : Inside (getElfEntrypoint fs inode) :=
  inside_bind (readData_inside fs _ _ _ _) fun _ => inside_ok _

theorem skipSpaces_inside (command : Nat → UInt8) (fuel i : Nat) : Inside (skipSpaces command fuel i) := by
  induction fuel generalizing i with
  | zero => simp [skipSpaces,OutOfLine]
  | succ fuel ih =>
    simp only [skipSpaces]
    split
    · apply ih
    · simp

theorem stripSpaces_inside (command : Nat → UInt8) (fuel i length : Nat) :
    Inside (stripSpaces command fuel i length) := by
  induction fuel generalizing i length with
  | zero => simp [stripSpaces,OutOfLine]
  | succ fuel ih =>
    simp only [stripSpaces]
    split
    · apply ih
    · simp

theorem parseCommand_inside (fuel : Nat) (command : Nat → UInt8) : Inside (parseCommand fuel command) := by
  refine inside_bind (skipSpaces_inside command fuel _) ?_
  intro start
  split
  split
  · refine inside_bind (stripSpaces_inside command fuel _ _) ?_
    intro stripped
    split
    · simp
    · simp [OutOfLine]
  · simp

theorem loadProgram_inside (inode fuel loadAddr bytesRead : Nat) (mem : Nat → UInt8) :
    Inside (loadProgram fs inode fuel loadAddr bytesRead mem) := by
  induction fuel generalizing loadAddr bytesRead mem with
  | zero => simp [loadProgram,OutOfLine]
  | succ fuel ih =>
    refine inside_bind (readData_inside fs _ _ _ _) ?_
    intro result
    simp only
    split
    · simp
    · apply ih

theorem startProcess_inside (fuel : Nat) (k : Kernel) (pid : Nat) (parsed : Parsed) (inode : Nat) :
    Inside (startProcess fs fuel k pid parsed inode) := by
  refine inside_bind (loadProgram_inside fs _ _ _ _ _) ?_
  intro page
  apply inside_ite
  · simp [OutOfLine]
  · simp

theorem execute_inside (fuel : Nat) (k : Kernel) (command : Command) :
    Inside (Syscalls.execute fs fuel k command) := by
  unfold Syscalls.execute
  split
  · simp
  · refine inside_bind (parseCommand_inside fuel _) ?_
    intro parsed
    split
    · simp
    · refine inside_bind (getElfHeader_inside fs _) ?_
      intro header
      split
      · simp
      · refine inside_bind (getElfEntrypoint_inside fs _) ?_
        intro eip
        simp only
        split
        · simp
        · exact inside_bind (startProcess_inside fs _ _ _ _ _) fun _ => inside_ok _

theorem closeFds_inside (fds : Nat → FileDesc) (count : Nat) : Inside (closeFds fds count) := by
  induction count with
  | zero => simp [closeFds]
  | succ i ih =>
    refine inside_bind ih ?_
    intro _
    split
    · simp [OutOfLine]
    · simp

theorem popProcess_inside (k : Kernel) : Inside (popProcess k) := by
  unfold popProcess
  simp only
  split
  · simp [OutOfLine]
  · simp

theorem halt_inside (fuel : Nat) (k : Kernel) (status : UInt8) : Inside (Syscalls.halt fs fuel k status) := by
  refine inside_bind (closeFds_inside _ _) ?_
  intro _
  refine inside_bind (popProcess_inside _) ?_
  intro popped
  split
  · refine inside_bind (execute_inside fs _ _ _) ?_
    intro result
    cases result with
    | returned _ _ => simp [OutOfLine]
    | started _ _ => simp
  · simp

theorem lastProc_inside (k : Kernel) (t : Nat) : Inside (lastProc k t) := by
  unfold lastProc
  simp only
  split
  · simp [OutOfLine]
  · split
    · simp [OutOfLine]
    · simp

theorem contextSwitch_inside (k : Kernel) (nextTerm : Nat) : Inside (contextSwitch k nextTerm) := by
  simp only [contextSwitch]
  split
  · simp [OutOfLine]
  · exact inside_bind (lastProc_inside k nextTerm) fun _ => inside_ok _

theorem pitInterruptHandler_inside (k : Kernel) : Inside (pitInterruptHandler k) := by
  simp only [pitInterruptHandler]
  split
  · apply contextSwitch_inside
  · simp

theorem resumeTerminal_inside (fuel : Nat) (k : Kernel) : Inside (resumeTerminal fs fuel k) := by
  simp only [resumeTerminal]
  split
  · refine inside_bind (lastProc_inside _ _) ?_
    intro running
    refine inside_bind (execute_inside fs _ _ _) ?_
    intro result
    cases result with
    | returned _ _ => simp
    | started _ _ => simp
  · exact inside_bind (lastProc_inside _ _) fun _ => inside_ok _

theorem switchActiveTerminal_inside (fuel : Nat) (k : Kernel) (termNum : Nat) :
    Inside (switchActiveTerminal fs fuel k termNum) := by
  unfold switchActiveTerminal
  split
  · simp [OutOfLine]
  · split
    · simp
    · simp only
      split
      · simp
      · refine inside_bind (inside_bind (lastProc_inside _ _) fun _ => inside_ok _) ?_
        intro hidden
        apply resumeTerminal_inside

/-- No step of the processes stores outside a line buffer. -/
theorem op_inside (k : Kernel) (op : Op) : Inside (Steps.step fs k op) := by
  cases op with
  | trap => simp [Steps.step]
  | frame esp ebp =>
    apply inside_ite
    · simp
    · simp [OutOfLine]
  | execute fuel command =>
    refine inside_bind (execute_inside fs fuel k command) ?_
    intro result
    cases result with
    | returned _ _ => simp
    | started _ _ => simp
  | halt fuel status => apply halt_inside
  | exception fuel text => apply halt_inside
  | vidmap screenStart => simp [Steps.step]
  | pit => apply pitInterruptHandler_inside
  | switchTo fuel termNum => apply switchActiveTerminal_inside

end

/-! ### Room for a stroke -/

/-- There is room for a stroke: a character leaves a place for the newline that
    may follow it, and a key that prints nothing can still complete a line. -/
def StrokeFits (line : Line) : Stroke → Prop
  | .backspace => True
  | .control _ => True
  | .enter => line.readAck = true → line.bufferSize < maxBufferSize
  | .char _ => line.bufferSize + line.readAck.toNat < maxBufferSize
  | .tab => line.bufferSize < maxBufferSize
  | .dead => line.bufferSize < maxBufferSize
  | .outside _ => False

section
variable {line : Line}

theorem typeChar_fits (c : UInt8) (room : line.bufferSize + line.readAck.toNat ≤ maxBufferSize) :
    ∃ after, typeChar line c = .ok after ∧ after.bufferSize = line.bufferSize + line.readAck.toNat ∧
      after.readAck = line.readAck := by
  cases reads : line.readAck with
  | true =>
    rw [reads] at room
    rw [typeChar_open c reads,append_ok c room]
    exact ⟨_,rfl,rfl,reads⟩
  | false =>
    rw [typeChar_closed c reads]
    exact ⟨line,rfl,rfl,reads⟩

theorem typeChar_full (c : UInt8) (reads : line.readAck = true) (full : maxBufferSize ≤ line.bufferSize) :
    typeChar line c = .error (.buffer line.bufferSize) := by
  rw [typeChar_open c reads,append_full c full]

theorem fill_fits (room : line.bufferSize < maxBufferSize) :
    ∃ after, fill line = .ok after ∧ after.bufferSize ≤ maxBufferSize := by
  by_cases short : line.bufferSize < maxBufferSize - 2
  · exact ⟨line,fill_short short,Nat.le_of_lt room⟩
  · rw [fill_long (Nat.le_of_not_lt short),append_ok newlineChar room]
    exact ⟨_,rfl,room⟩

theorem fill_full (full : maxBufferSize ≤ line.bufferSize) : fill line = .error (.buffer line.bufferSize) := by
  rw [fill_long (Nat.le_trans (Nat.sub_le _ _) full),append_full newlineChar full,error_bind]

theorem spaces_fits (n : Nat) (room : line.bufferSize + n ≤ maxBufferSize) :
    ∃ after, spaces n line = .ok after ∧ after.bufferSize ≤ line.bufferSize + n := by
  induction n generalizing line with
  | zero => exact ⟨line,rfl,Nat.le_refl _⟩
  | succ n ih =>
    have flag := Bool.toNat_le line.readAck
    have first : line.bufferSize + line.readAck.toNat ≤ maxBufferSize := by omega
    obtain ⟨typed,types,size,_⟩ := typeChar_fits space first
    have later : typed.bufferSize + n ≤ maxBufferSize := by omega
    obtain ⟨after,rest,bound⟩ := ih later
    rw [spaces,types]
    exact ⟨after,rest,by omega⟩

/-- A stroke with room for it keeps the line in the buffer. -/
theorem stroke_fits {stroke : Stroke} (bounded : line.bufferSize ≤ maxBufferSize) (fits : StrokeFits line stroke) :
    ∃ after, strokeLine line stroke = .ok after ∧ after.bufferSize ≤ maxBufferSize := by
  cases stroke with
  | backspace =>
    rw [strokeLine]
    split
    · rename_i erases
      have room : line.bufferSize - 1 < maxBufferSize := by omega
      rw [erase,if_pos room]
      exact ⟨_,rfl,Nat.le_of_lt room⟩
    · exact ⟨line,rfl,bounded⟩
  | enter =>
    have room : line.bufferSize + line.readAck.toNat ≤ maxBufferSize := by
      cases reads : line.readAck with
      | true => exact fits reads
      | false => exact bounded
    obtain ⟨typed,types,size,_⟩ := typeChar_fits newlineChar room
    rw [strokeLine,types]
    exact ⟨wake typed,rfl,size.trans_le room⟩
  | tab =>
    rw [strokeLine]
    split
    · rename_i room
      simp only [maxBufferSize] at room
      have four : line.bufferSize + 4 ≤ maxBufferSize := by simp only [maxBufferSize]; omega
      obtain ⟨spaced,types,size⟩ := spaces_fits 4 four
      rw [types]
      exact fill_fits (by simp only [maxBufferSize]; omega)
    · exact fill_fits fits
  | char c =>
    obtain ⟨typed,types,size,_⟩ := typeChar_fits c (Nat.le_of_lt fits)
    rw [strokeLine,types]
    exact fill_fits (size.trans_lt fits)
  | dead => exact fill_fits fits
  | control code => exact ⟨controlLine line code,rfl,by simp [controlLine,maxBufferSize]⟩
  | outside scan1 => exact absurd fits id

/-- A stroke without room stores outside the buffer, or is not in the table. -/
theorem stroke_overflows {stroke : Stroke} (bounded : line.bufferSize ≤ maxBufferSize)
    (full : ¬ StrokeFits line stroke) : ∃ fault, strokeLine line stroke = .error fault ∧ OutOfLine fault := by
  cases stroke with
  | backspace => exact absurd trivial full
  | enter =>
    obtain ⟨reads,full⟩ := Classical.not_imp.mp full
    rw [strokeLine,typeChar_full newlineChar reads (Nat.le_of_not_lt full)]
    exact ⟨_,rfl,trivial⟩
  | tab =>
    have full' := Nat.le_of_not_lt full
    rw [strokeLine,if_neg (by simp only [maxBufferSize] at full' ⊢; omega),ok_bind,fill_full full']
    exact ⟨_,rfl,trivial⟩
  | char c =>
    have full' := Nat.le_of_not_lt full
    by_cases room : line.bufferSize + line.readAck.toNat ≤ maxBufferSize
    · obtain ⟨typed,types,size,_⟩ := typeChar_fits c room
      rw [strokeLine,types,ok_bind,fill_full (size ▸ full')]
      exact ⟨_,rfl,trivial⟩
    · cases reads : line.readAck with
      | true =>
        rw [reads] at room
        simp only [Bool.toNat_true] at room
        rw [strokeLine,typeChar_full c reads (by omega)]
        exact ⟨_,rfl,trivial⟩
      | false =>
        rw [reads] at room
        exact absurd bounded room
  | dead =>
    rw [strokeLine,fill_full (Nat.le_of_not_lt full)]
    exact ⟨_,rfl,trivial⟩
  | control code => exact absurd trivial full
  | outside scan1 => exact ⟨_,rfl,trivial⟩

/-- A stroke stays in the buffer and in the table exactly when there is room. -/
theorem stroke_inside_iff (stroke : Stroke) (bounded : line.bufferSize ≤ maxBufferSize) :
    Inside (strokeLine line stroke) ↔ StrokeFits line stroke := by
  constructor
  · intro inside
    by_contra full
    obtain ⟨fault,failed,out⟩ := stroke_overflows bounded full
    exact inside fault failed out
  · intro fits
    obtain ⟨after,typed,_⟩ := stroke_fits bounded fits
    rw [typed]
    simp

/-- A stroke that is made keeps the line in the buffer. -/
theorem stroke_bounded {after : Line} {stroke : Stroke} (bounded : line.bufferSize ≤ maxBufferSize)
    (made : strokeLine line stroke = .ok after) : after.bufferSize ≤ maxBufferSize := by
  have fits : StrokeFits line stroke := by
    rw [← stroke_inside_iff stroke bounded,made]
    simp
  obtain ⟨after',made',bounded'⟩ := stroke_fits bounded fits
  rw [made] at made'
  cases made'
  exact bounded'

end

/-! ### Runs -/

/-- No line is longer than its buffer. -/
def Bounded (m : Machine) : Prop := ∀ t, t < maxTerminals → (m.line t).bufferSize ≤ maxBufferSize

/-- A step stores inside the line buffers, and looks up keys inside the table. -/
def InBounds (fs : Fs) (m : Machine) (e : Event) : Prop := Inside (KeyboardRead.step fs m e)

/-- A key that reaches the active line has room on it. -/
def Fits (m : Machine) : Event → Prop
  | .key _ c c2 => m.masked = false → ∀ stroke, strokeOf m.kernel c c2 = some stroke →
      StrokeFits (m.line m.kernel.currTerminal) stroke
  | _ => True

/-- One of the three terminals is active, and no line is longer than its buffer. -/
def Sound (m : Machine) : Prop := m.kernel.currTerminal < maxTerminals ∧ Bounded m

section
variable {fs : Fs} {m m' : Machine} {e : Event}

theorem statement_size {line line' : Line} {r r' : Reader} (goes : statement line r = .ok (line',r')) :
    line'.bufferSize = line.bufferSize ∨ line'.bufferSize = 0 := by
  simp only [statement] at goes
  split at goes
  case h_9 =>
    split at goes
    · cases goes; exact .inl rfl
    · cases goes
  case h_11 => cases goes; exact .inr rfl
  all_goals cases goes; exact .inl rfl

theorem statement_inside (line : Line) (r : Reader) : Inside (statement line r) := by
  simp only [statement]
  split
  case h_9 =>
    apply inside_ite
    · simp
    · simp [OutOfLine]
  all_goals simp

theorem handler_current {fuel : Nat} {k after : Kernel} {c c2 : UInt8}
    (result : keyboardInterruptHandler fs fuel k c c2 = .ok after) :
    after.currTerminal = k.currTerminal ∨ after.currTerminal < maxTerminals := by
  cases means : strokeOf k c c2 with
  | some stroke =>
    have edits := handler_stroke fs fuel means
    rw [result] at edits
    cases edited : strokeLine (lineOf k k.currTerminal) stroke with
    | error fault => rw [edited] at edits; cases edits
    | ok line =>
      rw [edited] at edits
      obtain ⟨after',same,draws⟩ := edits
      cases same
      exact .inl (setLine_drawn draws).1
  | none =>
    rcases handler_other fs fuel means with ⟨_,switches⟩ | ⟨_,modifiers,unchanged⟩
    · rw [switches] at result
      rcases switch_lines result with ⟨_,_,current⟩ | ⟨_,current,_⟩
      · exact current
      · exact .inl current
    · rw [unchanged] at result
      cases result
      exact .inl rfl

/-- The active terminal stays one of the three. -/
theorem step_current (stepped : KeyboardRead.step fs m e = .ok m') (inside : m.kernel.currTerminal < maxTerminals) :
    m'.kernel.currTerminal < maxTerminals := by
  cases e with
  | op op =>
    simp only [KeyboardRead.step] at stepped
    split at stepped
    · cases stepped; exact inside
    · obtain ⟨k,taken,same⟩ := bind_eq_ok.mp stepped
      cases same
      rcases op_lines taken with ⟨⟨_,current⟩,_⟩ | ⟨fuel,termNum,_,switched⟩
      · exact current ▸ inside
      · rcases switch_lines switched with ⟨_,_,current | current⟩ | ⟨_,current,_⟩
        · exact current ▸ inside
        · exact current
        · exact current ▸ inside
  | key fuel c c2 =>
    simp only [KeyboardRead.step] at stepped
    split at stepped
    · cases stepped; exact inside
    · obtain ⟨k,result,same⟩ := bind_eq_ok.mp stepped
      cases same
      rcases handler_current result with current | current
      · exact current ▸ inside
      · exact current
  | call nbytes =>
    simp only [KeyboardRead.step] at stepped
    split at stepped <;> cases stepped <;> exact inside
  | read =>
    obtain ⟨result,_,same⟩ := bind_eq_ok.mp stepped
    cases same
    exact inside
  | irq masked => cases stepped; exact inside

/-- A step that does not fail keeps the lines in their buffers. -/
theorem step_sound (sound : Sound m) (stepped : KeyboardRead.step fs m e = .ok m') : Sound m' := by
  refine ⟨step_current stepped sound.1,?_⟩
  intro t inside
  have bounded := sound.2 t inside
  cases step_happens stepped t with
  | nothing _ _ line _ => rw [line]; exact bounded
  | call _ _ _ line _ => rw [line]; exact bounded
  | read _ _ goes => rcases statement_size goes with size | size <;> omega
  | input input _ _ edits _ =>
    cases input with
    | stroke stroke => exact stroke_bounded bounded edits
    | refused =>
      have woken : wake (m.line t) = m'.line t := Except.ok.inj edits
      rw [← woken]
      exact bounded

/-- A step stays in bounds exactly when its key has room. -/
theorem inBounds_iff (sound : Sound m) : InBounds fs m e ↔ Fits m e := by
  cases e with
  | key fuel c c2 =>
    simp only [InBounds,Fits,KeyboardRead.step]
    cases masked : m.masked with
    | true => simp
    | false =>
      simp only [Bool.false_eq_true,if_false,true_imp_iff]
      cases means : strokeOf m.kernel c c2 with
      | some stroke =>
        have edits := handler_stroke fs fuel means
        have exactly := stroke_inside_iff stroke (sound.2 m.kernel.currTerminal sound.1)
        simp only [Option.some.injEq,forall_eq']
        rw [← exactly]
        simp only [Machine.line]
        cases edited : strokeLine (lineOf m.kernel m.kernel.currTerminal) stroke with
        | error fault =>
          rw [edited] at edits
          have failed : keyboardInterruptHandler fs fuel m.kernel c c2 = .error fault := edits
          rw [failed,error_bind,inside_error,inside_error]
        | ok line =>
          rw [edited] at edits
          obtain ⟨after,done,_⟩ := edits
          rw [done]
          simp
      | none =>
        have quiet : Inside (keyboardInterruptHandler fs fuel m.kernel c c2) := by
          rcases handler_other fs fuel means with ⟨_,switches⟩ | ⟨_,modifiers,unchanged⟩
          · rw [switches]
            apply switchActiveTerminal_inside
          · rw [unchanged]
            simp
        constructor
        · intro _ stroke impossible; cases impossible
        · intro _; exact inside_bind quiet fun _ => inside_ok _
  | op op =>
    refine iff_of_true ?_ trivial
    exact inside_ite (by simp) (inside_bind (op_inside fs m.kernel op) fun _ => inside_ok _)
  | call nbytes => exact iff_of_true (inside_ite (by simp) (by simp)) trivial
  | read => exact iff_of_true (inside_bind (statement_inside _ _) fun _ => inside_ok _) trivial
  | irq masked => exact iff_of_true (inside_ok _) trivial

end

theorem booted_sound {fs : Fs} {m : Machine} (booted : Booted fs m) : Sound m := by
  constructor
  · rw [(started_crowd booted.started).current]
    decide
  · intro t inside
    rw [booted_line booted inside]
    exact Nat.zero_le _

/-- In a run from the first shell on, every store of the keyboard driver is
    inside a line buffer, every column inside the table and no line longer than
    its buffer, exactly when every key has room. -/
theorem line_bounds {fs : Fs} {m : Machine} (booted : Booted fs m) (events : List Event) :
    (Throughout (KeyboardRead.step fs) Bounded m events ∧ EachStep (KeyboardRead.step fs) (InBounds fs) m events) ↔
      EachStep (KeyboardRead.step fs) Fits m events := by
  have keeps : ∀ m e m', Sound m → KeyboardRead.step fs m e = .ok m' → Sound m' :=
    fun _ _ _ sound stepped => step_sound sound stepped
  have sound := booted_sound booted
  have bounded : Throughout (KeyboardRead.step fs) Bounded m events :=
    throughout_mono (fun _ sound => sound.2) (throughout_invariant keeps sound events)
  rw [← eachStep_iff keeps (fun _ _ sound => inBounds_iff sound) sound events]
  exact and_iff_right bounded

theorem line_bounds_shell : ∃ m, Booted ReadData.shellFs m ∧ ∀ events,
    (Throughout (KeyboardRead.step ReadData.shellFs) Bounded m events ∧
      EachStep (KeyboardRead.step ReadData.shellFs) (InBounds ReadData.shellFs) m events) ↔
      EachStep (KeyboardRead.step ReadData.shellFs) Fits m events := by
  obtain ⟨k,started⟩ := started_exists shellFs_image default
  have booted := quietMachine_booted started
  exact ⟨_,booted,fun events => line_bounds booted events⟩

/-! ### Two runs out of bounds -/

/-- The key A is pressed again and again. -/
def keys (n : Nat) : List Act := List.replicate n (.key scanA)

theorem keys_simple (n : Nat) : (keys n).all simple = true := by
  rw [List.all_eq_true]
  intro act member
  rw [List.eq_of_mem_replicate member]
  decide

theorem keys_succ (line : Line) (r : Reader) (n : Nat) :
    run deskStep ⟨false,line,r⟩ (keys (n + 1)) =
      (typeChar line 97 >>= fill) >>= fun line => run deskStep ⟨false,line,r⟩ (keys n) := by
  have char : pressStroke noModifiers scanA = .char 97 := by rfl
  simp only [keys,List.replicate_succ,run,deskStep,Bool.false_eq_true,if_false,char,strokeLine]
  cases typeChar line 97 >>= fill with
  | error fault => rfl
  | ok line => rfl

/-- While the line is short, a key appends its character and no more. -/
theorem keys_append {r : Reader} (n more : Nat) {line : Line} (reads : line.readAck = true)
    (short : line.bufferSize + n < maxBufferSize - 2) :
    ∃ line', line'.readAck = true ∧ line'.bufferSize = line.bufferSize + n ∧
      run deskStep ⟨false,line,r⟩ (keys (n + more)) = run deskStep ⟨false,line',r⟩ (keys more) := by
  induction n generalizing line with
  | zero => exact ⟨line,reads,rfl,by rw [Nat.zero_add]⟩
  | succ n ih =>
    simp only [maxBufferSize] at short
    have room : line.bufferSize + line.readAck.toNat ≤ maxBufferSize := by
      rw [reads,Bool.toNat_true,maxBufferSize]
      omega
    obtain ⟨typed,types,size,reads'⟩ := typeChar_fits 97 room
    rw [reads] at size
    simp only [Bool.toNat_true] at size
    have short' : typed.bufferSize + n < maxBufferSize - 2 := by simp only [maxBufferSize]; omega
    obtain ⟨line',reads'',size',rest⟩ := ih (reads'.trans reads) short'
    have stays : fill typed = .ok typed := fill_short (by simp only [maxBufferSize]; omega)
    have first : n + 1 + more = (n + more) + 1 := by omega
    refine ⟨line',reads'',by omega,?_⟩
    rw [first,keys_succ,types,ok_bind,stays,ok_bind,rest]

/-- The 127th key after a line of 125 characters goes two places too far. -/
theorem keys_overflow {r : Reader} {line : Line} (reads : line.readAck = true) (empty : line.bufferSize = 0) :
    run deskStep ⟨false,line,r⟩ (keys 127) = .error (.buffer 128) := by
  obtain ⟨line,reads,size,rest⟩ := keys_append (r := r) 125 2 reads (by rw [empty]; decide)
  rw [empty,Nat.zero_add] at size
  rw [rest]
  obtain ⟨bufferSize,buffer,ack,readAck⟩ := line
  simp only at reads size
  subst reads size
  rfl

/-- A read starts on an empty line. -/
theorem read_starts (acts : List Act) :
    run deskStep ⟨false,emptyLine,default⟩ (.call 128 :: .read :: acts) =
      run deskStep ⟨false,{ emptyLine with readAck := true },⟨.clearAck,unsigned 128,0,[]⟩⟩ acts := rfl

/-- A read starts, and the key A is pressed 127 times before its process runs
    again; or one key comes from beyond the table. -/
theorem line_bounds_fails : ∃ m, Booted ReadData.shellFs m ∧
    run (KeyboardRead.step ReadData.shellFs) m (.call 128 :: .read :: List.replicate 127 (.key 0 scanA 0)) =
      .error (.buffer 128) ∧
    run (KeyboardRead.step ReadData.shellFs) m [.key 0 0x5D 0] = .error (.column 93) ∧
    ¬ (∀ events, Throughout (KeyboardRead.step ReadData.shellFs) Bounded m events ∧
      EachStep (KeyboardRead.step ReadData.shellFs) (InBounds ReadData.shellFs) m events) := by
  obtain ⟨k,started⟩ := started_exists shellFs_image default
  have attended := started_attended started
  have typed : ∀ act, act ∈ (Act.call 128 :: .read :: keys 127) → Possible k act := by
    apply simple_possible
    rw [List.all_cons,List.all_cons,keys_simple]
    rfl
  have overflows : run deskStep ⟨false,emptyLine,default⟩ (Act.call 128 :: .read :: keys 127) =
      .error (.buffer 128) := by
    rw [read_starts]
    exact keys_overflow rfl rfl
  have long : Follows k (run deskStep _ (.call 128 :: .read :: keys 127)) (run (KeyboardRead.step ReadData.shellFs) _ _) :=
    run_attended attended typed
  rw [overflows] at long
  simp only [List.map_cons,keys,List.map_replicate,Act.event] at long
  have failed : run (KeyboardRead.step ReadData.shellFs) (quietMachine k)
      (.call 128 :: .read :: List.replicate 127 (.key 0 scanA 0)) = .error (.buffer 128) := long
  have key : ∀ act, act ∈ [Act.key 0x5D] → Possible k act := simple_possible (by decide)
  have outside : Follows k (run deskStep _ [.key 0x5D]) (run (KeyboardRead.step ReadData.shellFs) _ _) :=
    run_attended attended key
  refine ⟨_,quietMachine_booted started,failed,outside,?_⟩
  intro always
  obtain ⟨_,_,inside,failing⟩ := eachStep_error (always _).2 failed
  exact inside _ failing trivial

end MazeOS.LineBuffer
