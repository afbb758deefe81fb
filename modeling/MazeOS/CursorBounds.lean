import MazeOS.ScreenSteps

/-!
The cursors and the bytes of the display. The stores of each display function
are listed in their order (`putcAt_stores`, `backspaceAt_stores`,
`clearCells_stores`), and stay in the 4000 bytes of 25 rows of 80 cells while
the cursor is on the display. The VGA cursor is that of the active terminal
after every operation (`step_placed`), a completed switch included
(`cursor_bounds`).
-/
namespace MazeOS.CursorBounds
open MazeOS.Runs MazeOS.Faults MazeOS.Filesystem MazeOS.Paging MazeOS.State MazeOS.Display MazeOS.Process
  MazeOS.Syscalls MazeOS.Terminal MazeOS.Steps MazeOS.Windows MazeOS.Screens MazeOS.ScreenSteps

/-! ### The stores of the display functions -/

/-- A store of a byte, or of the byte that is read at another address. -/
inductive Store where
  | byte (address : Nat) (b : UInt8)
  | copy (address source : Nat)

def Store.address : Store → Nat
  | .byte address _ => address
  | .copy address _ => address

section
variable (tr : Nat → Option Nat)

def perform (mem : Nat → UInt8) : Store → Nat → UInt8
  | .byte address b => store tr mem address b
  | .copy address source => store tr mem address (load tr mem source)

/-- Some stores, one after the other. -/
def performAll (mem : Nat → UInt8) (stores : List Store) : Nat → UInt8 := stores.foldl (perform tr) mem

end

def memcpyStores (dest src n : Nat) : List Store := (List.range n).map fun i => .copy (dest + i) (src + i)

def cellStores (writeMem x y : Nat) (c attrib : UInt8) : List Store :=
  [.byte (cellAddress writeMem x y) c,.byte (cellAddress writeMem x y + 1) attrib]

def shiftRowsStores (writeMem n : Nat) : List Store :=
  (List.range n).flatMap fun j => memcpyStores (cellAddress writeMem 0 j) (cellAddress writeMem 0 (j + 1)) (numCols * 2)

def blankRowStores (writeMem : Nat) (attrib : UInt8) (n : Nat) : List Store :=
  (List.range n).flatMap fun j => cellStores writeMem j (numRows - 1) space attrib

/-- The stores of `shift_display`. -/
def shiftDisplayStores (writeMem : Nat) (attrib : UInt8) : List Store :=
  shiftRowsStores writeMem (numRows - 1) ++ blankRowStores writeMem attrib numCols

def nextRowStores (s : Screen) (writeMem : Nat) (fill : UInt8) : List Store :=
  if s.yPos = numRows - 1 then shiftDisplayStores writeMem fill else []

/-- The stores of `putc` and `putc_buffer`. -/
def putcStores (writeMem : Nat) (attrib fill : UInt8) (s : Screen) (c : UInt8) : List Store :=
  if c = 10 ∨ c = 13 then nextRowStores s writeMem fill
  else cellStores writeMem s.xPos s.yPos c attrib ++
    if s.xPos + 1 ≥ numCols then nextRowStores s writeMem fill else []

/-- The stores of `do_backspace`. -/
def backspaceStores (writeMem : Nat) (attrib : UInt8) (s : Screen) : List Store :=
  if s.xPos = 0 ∧ s.yPos = 0 then [] else putcStores writeMem attrib attrib (backOne s) space

/-- The stores of `clear`. -/
def clearStores (writeMem : Nat) (attrib : UInt8) (n : Nat) : List Store :=
  (List.range n).flatMap fun i => [.byte (writeMem + i * 2) space,.byte (writeMem + i * 2 + 1) attrib]

section
variable (tr : Nat → Option Nat) (mem : Nat → UInt8) (writeMem : Nat)

theorem performAll_append (first second : List Store) :
    performAll tr mem (first ++ second) = performAll tr (performAll tr mem first) second :=
  List.foldl_append

theorem memcpy_stores (dest src n : Nat) : memcpy tr mem dest src n = performAll tr mem (memcpyStores dest src n) := by
  induction n with
  | zero => rfl
  | succ n ih =>
    have last : memcpyStores dest src (n + 1) = memcpyStores dest src n ++ [.copy (dest + n) (src + n)] := by
      simp [memcpyStores,List.range_succ]
    rw [last,performAll_append,← ih]
    rfl

theorem shiftRows_stores (n : Nat) : shiftRows tr mem writeMem n = performAll tr mem (shiftRowsStores writeMem n) := by
  induction n with
  | zero => rfl
  | succ n ih =>
    have last : shiftRowsStores writeMem (n + 1) = shiftRowsStores writeMem n ++
        memcpyStores (cellAddress writeMem 0 n) (cellAddress writeMem 0 (n + 1)) (numCols * 2) := by
      simp [shiftRowsStores,List.range_succ]
    rw [last,performAll_append,← ih,← memcpy_stores]
    rfl

theorem blankRow_stores (attrib : UInt8) (n : Nat) :
    blankRow tr mem writeMem attrib n = performAll tr mem (blankRowStores writeMem attrib n) := by
  induction n with
  | zero => rfl
  | succ n ih =>
    have last : blankRowStores writeMem attrib (n + 1) =
        blankRowStores writeMem attrib n ++ cellStores writeMem n (numRows - 1) space attrib := by
      simp [blankRowStores,List.range_succ]
    rw [last,performAll_append,← ih]
    rfl

theorem nextRow_stores (s : Screen) (fill : UInt8) :
    (nextRow tr s writeMem fill).mem = performAll tr s.mem (nextRowStores s writeMem fill) := by
  unfold nextRow nextRowStores
  by_cases last : s.yPos = numRows - 1
  · rw [if_pos last,if_pos last,shiftDisplayStores,performAll_append,← shiftRows_stores,← blankRow_stores]
    rfl
  · rw [if_neg last,if_neg last]
    rfl

theorem putcAt_stores (attrib fill : UInt8) (s : Screen) (c : UInt8) :
    (putcAt tr writeMem attrib fill s c).mem = performAll tr s.mem (putcStores writeMem attrib fill s c) := by
  unfold putcAt putcStores
  by_cases line : c = 10 ∨ c = 13
  · rw [if_pos line,if_pos line,nextRow_stores]
  · rw [if_neg line,if_neg line,performAll_append]
    by_cases full : s.xPos + 1 ≥ numCols
    · simp only [full,if_true]
      rw [nextRow_stores]
      rfl
    · simp only [full,if_false]
      rfl

theorem backspaceAt_stores (attrib : UInt8) (s : Screen) :
    (backspaceAt tr writeMem attrib s).mem = performAll tr s.mem (backspaceStores writeMem attrib s) := by
  have still : ∀ s : Screen, (backOne s).mem = s.mem := by
    intro s
    unfold backOne
    split <;> rfl
  unfold backspaceAt backspaceStores
  by_cases first : s.xPos = 0 ∧ s.yPos = 0
  · rw [if_pos first,if_pos first]
    rfl
  · rw [if_neg first,if_neg first,still,putcAt_stores,still]

theorem clearCells_stores (attrib : UInt8) (n : Nat) :
    clearCells tr mem writeMem attrib n = performAll tr mem (clearStores writeMem attrib n) := by
  induction n with
  | zero => rfl
  | succ n ih =>
    have last : clearStores writeMem attrib (n + 1) = clearStores writeMem attrib n ++
        [.byte (writeMem + n * 2) space,.byte (writeMem + n * 2 + 1) attrib] := by
      simp [clearStores,List.range_succ]
    rw [last,performAll_append,← ih]
    rfl

end

/-! ### Where they go -/

/-- Every store goes to the first 4000 bytes of a page. -/
def Within (base : Nat) (stores : List Store) : Prop :=
  ∀ st, st ∈ stores → base ≤ st.address ∧ st.address < base + 4000

section
variable {base : Nat}

theorem within_append {first second : List Store} (left : Within base first) (right : Within base second) :
    Within base (first ++ second) := by
  rintro st member
  rcases List.mem_append.mp member with before | after
  · exact left st before
  · exact right st after

theorem within_flatMap {n : Nat} {stores : Nat → List Store} (each : ∀ i, i < n → Within base (stores i)) :
    Within base ((List.range n).flatMap stores) := by
  rintro st member
  obtain ⟨i,below,here⟩ := List.mem_flatMap.mp member
  exact each i (List.mem_range.mp below) st here

theorem cellStores_within {x y : Nat} (column : x < numCols) (row : y < numRows) (c attrib : UInt8) :
    Within base (cellStores base x y c attrib) := by
  have inside : cellAddress 0 x y + 1 < 4000 := by
    simp only [cellAddress,numCols,numRows] at *
    omega
  have address := cellAddress_base base x y
  rintro st member
  simp only [cellStores,List.mem_cons,List.not_mem_nil,or_false] at member
  rcases member with rfl | rfl
  · show base ≤ cellAddress base x y ∧ cellAddress base x y < base + 4000
    omega
  · show base ≤ cellAddress base x y + 1 ∧ cellAddress base x y + 1 < base + 4000
    omega

theorem shiftDisplayStores_within (attrib : UInt8) : Within base (shiftDisplayStores base attrib) := by
  apply within_append
  · apply within_flatMap
    rintro j row st member
    obtain ⟨i,below,rfl⟩ := List.mem_map.mp member
    have column : i < numCols * 2 := List.mem_range.mp below
    show base ≤ cellAddress base 0 j + i ∧ cellAddress base 0 j + i < base + 4000
    simp only [cellAddress,numCols,numRows] at *
    omega
  · apply within_flatMap
    rintro j column
    exact cellStores_within column (by decide) space attrib

theorem nextRowStores_within (s : Screen) (fill : UInt8) : Within base (nextRowStores s base fill) := by
  unfold nextRowStores
  split
  · exact shiftDisplayStores_within fill
  · rintro st member
    cases member

theorem putcStores_within {s : Screen} (inRange : InRange s) (attrib fill c : UInt8) :
    Within base (putcStores base attrib fill s c) := by
  unfold putcStores
  split
  · exact nextRowStores_within s fill
  · refine within_append (cellStores_within inRange.1 inRange.2 c attrib) ?_
    split
    · exact nextRowStores_within s fill
    · rintro st member
      cases member

theorem backspaceStores_within {s : Screen} (inRange : InRange s) (attrib : UInt8) :
    Within base (backspaceStores base attrib s) := by
  unfold backspaceStores
  by_cases first : s.xPos = 0 ∧ s.yPos = 0
  · rw [if_pos first]
    rintro st member
    cases member
  · rw [if_neg first]
    exact putcStores_within (backOne_inRange inRange first) attrib attrib space

theorem clearStores_within (attrib : UInt8) : Within base (clearStores base attrib (numRows * numCols)) := by
  apply within_flatMap
  rintro i below st member
  simp only [numRows,numCols] at below
  simp only [List.mem_cons,List.not_mem_nil,or_false] at member
  rcases member with rfl | rfl
  · show base ≤ base + i * 2 ∧ base + i * 2 < base + 4000
    omega
  · show base ≤ base + i * 2 + 1 ∧ base + i * 2 + 1 < base + 4000
    omega

end

/-- Stores to the first bytes of a page change those of its frame alone. -/
theorem performAll_outside {tr : Nat → Option Nat} {base frame : Nat} (maps : Maps tr base frame) (stores : List Store)
    (within : Within base stores) (mem : Nat → UInt8) {a : Nat} (outside : ¬ (frame ≤ a ∧ a < frame + 4000)) :
    performAll tr mem stores a = mem a := by
  induction stores generalizing mem with
  | nil => rfl
  | cons st rest ih =>
    have first := within st List.mem_cons_self
    have others : Within base rest := fun st member => within st (List.mem_cons_of_mem _ member)
    have mapped := maps (st.address - base) (by simp only [pageSize]; omega)
    rw [show base + (st.address - base) = st.address by omega] at mapped
    have away : a ≠ frame + (st.address - base) := by omega
    have kept : perform tr mem st a = mem a := by
      cases st with
      | byte address b =>
        simp only [Store.address] at mapped away
        simp only [perform,store,mapped,Function.update_of_ne away]
      | copy address source =>
        simp only [Store.address] at mapped away
        simp only [perform,store,mapped,Function.update_of_ne away]
    show performAll tr (perform tr mem st) rest a = mem a
    rw [ih others,kept]

/-! ### The machine -/

inductive Event where
  | display (event : Screens.Event)
  | clearSetpos

def step (fs : Fs) (k : Kernel) : Event → Checked Kernel
  | .display event => Screens.step fs k event
  | .clearSetpos => .ok (Display.clearSetpos k 0 0)

/-- The terminal that an event draws on, and the page that it draws through. -/
def target (k : Kernel) : Event → Option (Nat × Nat)
  | .display (.putc _) | .display .doBackspace | .display .clear | .clearSetpos => some (k.currTerminal,videoMemStart)
  | .display (.putcBuffer _) => some (k.execTerm,(executingTerm k).virtVidmemBackup)
  | _ => none

def storesOf (k : Kernel) : Event → List Store
  | .display (.putc c) =>
    putcStores videoMemStart (activeTerm k).attrib (shiftAttrib k videoMemStart) (screenOf k k.currTerminal) c
  | .display .doBackspace => backspaceStores videoMemStart (activeTerm k).attrib (screenOf k k.currTerminal)
  | .display .clear | .clearSetpos => clearStores videoMemStart (activeTerm k).attrib (numRows * numCols)
  | .display (.putcBuffer c) =>
    putcStores (executingTerm k).virtVidmemBackup (executingTerm k).attrib
      (shiftAttrib k (executingTerm k).virtVidmemBackup) (screenOf k k.execTerm) c
  | _ => []

/-- The VGA cursor is at the cursor of the active terminal. -/
def CursorShown (k : Kernel) : Prop := k.cursor = numCols * (activeTerm k).yPos + (activeTerm k).xPos

/-- The cursors are on the display, and that of the active terminal is shown. -/
structure Placed (k : Kernel) : Prop where
  onDisplay : ∀ t, t < maxTerminals → (k.terminals t).xPos < numCols ∧ (k.terminals t).yPos < numRows
  shown : CursorShown k

/-- What an event draws: its stores, in their order, are all that it does to
    memory; they go to the first 4000 bytes of the page that it draws through,
    which is mapped to the screen of its terminal. -/
structure DrawsWithin (k : Kernel) (event : Event) (after : Kernel) (t base : Nat) : Prop where
  stores : after.phys = performAll (translate k.paging) k.phys (storesOf k event)
  within : Within base (storesOf k event)
  mapped : Maps (translate k.paging) base (frameOf k t)
  outside : ∀ a, ¬ (frameOf k t ≤ a ∧ a < frameOf k t + 4000) → after.phys a = k.phys a

/-! ### The cursor register -/

section
variable {k l after : Kernel}

theorem shown_same (shown : CursorShown k) (same : SameDisplay k after) (cursor : after.cursor = k.cursor) :
    CursorShown after := by
  unfold CursorShown activeTerm at *
  rw [cursor,same.current,(same.cursors k.currTerminal).1,(same.cursors k.currTerminal).2]
  exact shown

theorem updateCursor_shown {x y : Nat} (column : (activeTerm k).xPos = x) (row : (activeTerm k).yPos = y)
    (inRange : x < numCols ∧ y < numRows) : CursorShown (updateCursor k x y) := by
  show (y * numCols + x) % 2 ^ 16 = numCols * (activeTerm k).yPos + (activeTerm k).xPos
  rw [column,row]
  simp only [numCols,numRows] at *
  omega

/-- The active terminal is drawn on, and the cursor register follows it. -/
theorem withScreen_shown {s : Screen} (arranged : Arranged (updateCursor (withScreen k k.currTerminal s) s.xPos s.yPos)) :
    CursorShown (updateCursor (withScreen k k.currTerminal s) s.xPos s.yPos) := by
  have column : (activeTerm (withScreen k k.currTerminal s)).xPos = s.xPos := by simp [activeTerm,withScreen]
  have row : (activeTerm (withScreen k k.currTerminal s)).yPos = s.yPos := by simp [activeTerm,withScreen]
  have inRange := arranged.inRange _ arranged.current
  refine updateCursor_shown column row ?_
  rw [← column,← row]
  exact inRange

theorem putc_shown (arranged : Arranged k) (c : UInt8) : CursorShown (Display.putc k c) :=
  withScreen_shown (putc_drew arranged c).arranged

theorem doBackspace_shown (arranged : Arranged k) (shown : CursorShown k) : CursorShown (Display.doBackspace k) := by
  have after := (doBackspace_drew arranged).arranged
  unfold Display.doBackspace at *
  by_cases first : (activeTerm k).xPos = 0 ∧ (activeTerm k).yPos = 0
  · rw [if_pos first]
    exact shown
  · rw [if_neg first] at after ⊢
    exact withScreen_shown after

theorem clearSetpos_shown (arranged : Arranged k) : CursorShown (Display.clearSetpos k 0 0) := by
  have active : (Display.clear k).currTerminal = k.currTerminal := rfl
  have after := (clearSetpos_screens arranged).1
  unfold Display.clearSetpos at *
  rw [← active] at after ⊢
  exact withScreen_shown after

theorem putcBuffer_shown (arranged : Arranged k) (shown : CursorShown k) (c : UInt8) :
    CursorShown (Display.putcBuffer k c) := by
  have after := (putcBuffer_drew arranged c).arranged
  unfold Display.putcBuffer at *
  by_cases active : k.execTerm = k.currTerminal
  · simp only [active,if_true] at after ⊢
    exact withScreen_shown after
  · simp only [active,if_false]
    have other : k.currTerminal ≠ k.execTerm := Ne.symm active
    show k.cursor = numCols * (activeTerm (withScreen k k.execTerm _)).yPos +
      (activeTerm (withScreen k k.execTerm _)).xPos
    simp only [activeTerm,withScreen,Function.update_of_ne other]
    exact shown

theorem printf_shown (arranged : Arranged k) (shown : CursorShown k) (text : List UInt8) :
    CursorShown (printf k text) := by
  induction text generalizing k with
  | nil => exact shown
  | cons c rest ih => exact ih (putc_drew arranged c).arranged (putc_shown arranged c)

theorem ack_shown (shown : CursorShown k) (t : Nat) :
    CursorShown (setTerminal k t { k.terminals t with ack := true }) :=
  shown_same shown (ack_same k t) rfl

theorem showTerminal_shown {t : Nat} (arranged : Arranged (showTerminal k t)) : CursorShown (showTerminal k t) :=
  updateCursor_shown rfl rfl (arranged.inRange t arranged.current)

theorem switch_shown {fs : Fs} {fuel termNum : Nat} (arranged : Arranged k) (shown : CursorShown k)
    (switched : switchActiveTerminal fs fuel k termNum = .ok after) : CursorShown after := by
  obtain ⟨inside,⟨_,rfl⟩ | ⟨_,_,rfl⟩ | ⟨other,accepted,hidden,hid,resumed⟩⟩ := switchActiveTerminal_ok switched
  · exact shown
  · exact ack_shown (printf_shown arranged shown notAvailableMessage) k.currTerminal
  · obtain ⟨drew,terminals,pids⟩ := exchanged arranged inside other hid
    have exchangedShown := showTerminal_shown drew.arranged
    have room : (∃ i, i < maxProcesses ∧ (showTerminal hidden termNum).availablePids i = 0) ∨
        (activeTerm (showTerminal hidden termNum)).numProcs ≠ 0 := by
      rw [pids,show activeTerm (showTerminal hidden termNum) = k.terminals termNum from congrFun terminals termNum]
      exact accepted_room accepted
    rcases resumed_cases room resumed with ⟨running,rfl | ⟨pid,parsed,page,rfl⟩⟩ | ⟨process,_,rfl⟩
    · exact exchangedShown
    · have saved : CursorShown (handedOver (showTerminal hidden termNum) running) := exchangedShown
      exact shown_same saved (spawned_same _ pid parsed page) rfl
    · obtain ⟨paging,only⟩ := remapVidmem_only (showTerminal hidden termNum) process videoMemIndex
      rw [only]
      exact exchangedShown

/-! ### Steps and runs -/

/-- Every event keeps the display arranged and the cursor of the active terminal
    shown. -/
theorem step_shown {fs : Fs} {event : Event} (arranged : Arranged k) (shown : CursorShown k)
    (stepped : step fs k event = .ok after) : Arranged after ∧ CursorShown after := by
  cases event with
  | clearSetpos =>
    cases stepped
    exact ⟨(clearSetpos_screens arranged).1,clearSetpos_shown arranged⟩
  | display event =>
    have taken : Screens.step fs k event = .ok after := stepped
    have drew : Arranged after := (step_drew arranged taken).arranged
    refine ⟨drew,?_⟩
    cases event with
    | putc c => cases stepped; exact putc_shown arranged c
    | doBackspace => cases stepped; exact doBackspace_shown arranged shown
    | clear => cases stepped; exact shown
    | putcBuffer c => cases stepped; exact putcBuffer_shown arranged shown c
    | switchTo fuel termNum => exact switch_shown arranged shown stepped
    | elsewhere rest => cases stepped; exact shown
    | setExecTerm t =>
      simp only [step,Screens.step] at stepped
      split at stepped
      · cases stepped; exact shown
      · cases stepped

/-- An event that draws does so in the first 4000 bytes of its page. -/
theorem step_within {fs : Fs} {event : Event} {t base : Nat} (arranged : Arranged k) (drawn : target k event = some (t,base))
    (stepped : step fs k event = .ok after) : DrawsWithin k event after t base := by
  have inRange : InRange (screenOf k k.currTerminal) := arranged.inRange _ arranged.current
  have inRange' : InRange (screenOf k k.execTerm) := arranged.inRange _ arranged.exec
  have facts : after.phys = performAll (translate k.paging) k.phys (storesOf k event) ∧ Within base (storesOf k event) ∧
      Maps (translate k.paging) base (frameOf k t) := by
    cases event with
    | clearSetpos =>
      cases drawn
      cases stepped
      exact ⟨clearCells_stores _ _ _ _ _,clearStores_within _,visible_window arranged⟩
    | display event =>
      cases event with
      | putc c =>
        cases drawn
        cases stepped
        exact ⟨putcAt_stores _ _ _ _ _ c,putcStores_within inRange _ _ c,visible_window arranged⟩
      | doBackspace =>
        cases drawn
        cases stepped
        refine ⟨?_,backspaceStores_within inRange _,visible_window arranged⟩
        unfold Display.doBackspace
        by_cases first : (activeTerm k).xPos = 0 ∧ (activeTerm k).yPos = 0
        · have nothing : storesOf k (.display .doBackspace) = [] := if_pos first
          rw [if_pos first,nothing]
          rfl
        · rw [if_neg first]
          exact backspaceAt_stores _ _ _ _
      | clear =>
        cases drawn
        cases stepped
        exact ⟨clearCells_stores _ _ _ _ _,clearStores_within _,visible_window arranged⟩
      | putcBuffer c =>
        cases drawn
        cases stepped
        refine ⟨?_,putcStores_within inRange' _ _ c,backup_window arranged arranged.exec⟩
        unfold Display.putcBuffer
        split <;> exact putcAt_stores _ _ _ _ _ c
      | switchTo fuel termNum => cases drawn
      | elsewhere rest => cases drawn
      | setExecTerm t => cases drawn
  obtain ⟨stores,within,mapped⟩ := facts
  refine ⟨stores,within,mapped,?_⟩
  intro a outside
  rw [stores]
  exact performAll_outside mapped _ within k.phys outside

theorem placed_of_shown (arranged : Arranged k) (shown : CursorShown k) : Placed k := ⟨arranged.inRange,shown⟩

end

/-- After any run of display operations and completed switches the cursors are on
    the display, and the VGA cursor is that of the active terminal. One more
    event keeps this, and draws in the first 4000 bytes of its page. -/
theorem cursor_bounds {fs : Fs} {m k : Kernel} {events : List Event}
    (ran : run (step fs) (Display.clearSetpos (start m) 0 0) events = .ok k) :
    Placed k ∧ ∀ event after, step fs k event = .ok after →
      Placed after ∧ ∀ t base, target k event = some (t,base) → DrawsWithin k event after t base := by
  have first := start_arranged m
  have keeps : ∀ s e s', Arranged s ∧ CursorShown s → step fs s e = .ok s' → Arranged s' ∧ CursorShown s' := by
    rintro s e s' ⟨arranged,shown⟩ stepped
    exact step_shown arranged shown stepped
  obtain ⟨arranged,shown⟩ := run_invariant keeps ⟨(clearSetpos_screens first).1,clearSetpos_shown first⟩ ran
  refine ⟨placed_of_shown arranged shown,?_⟩
  rintro event after stepped
  obtain ⟨arranged',shown'⟩ := step_shown arranged shown stepped
  refine ⟨placed_of_shown arranged' shown',?_⟩
  rintro t base drawn
  exact step_within arranged drawn stepped

theorem cursor_bounds_switch : ∃ k,
    run (step ReadData.shellFs) (Display.clearSetpos (start default) 0 0)
        [.display .doBackspace,.display (.putc 65),.display (.elsewhere busy),.display (.switchTo 0 1),
          .display (.putcBuffer 66),.clearSetpos] = .ok k ∧ Placed k := by
  have ran : run (step ReadData.shellFs) (Display.clearSetpos (start default) 0 0)
      [.display .doBackspace,.display (.putc 65),.display (.elsewhere busy),.display (.switchTo 0 1),
        .display (.putcBuffer 66),.clearSetpos] = .ok _ := rfl
  exact ⟨_,ran,(cursor_bounds ran).1⟩

end MazeOS.CursorBounds
