import MazeOS.ScreenSteps
import MazeOS.KeyboardRead

/-!
What the calls of a process on one terminal do to the screens of the others.
`terminal_read` and `terminal_write` run statement by statement, with interrupts
between any two statements. A write goes to the executing terminal; the stores
of `clear_setpos`, which Ctrl-L and the end of a first process lead to, go to
the active one. `isolation_iff` says that a run changes no other screen exactly
when each of these statements is executed on the active terminal, or finds there
what it stores.

`putc_buffer` is one statement, although masking the keyboard around it does not
keep a switch away. It stores through the window of the backup page of the
terminal that executes, which is its screen on the display and off it, and its
process runs only while this terminal executes: whatever comes between two of its
stores, they go to the same screen. The cursor of the display is no part of a
screen.
-/
namespace MazeOS.Isolation
open MazeOS.Runs MazeOS.Faults MazeOS.Filesystem MazeOS.Paging MazeOS.State MazeOS.Display MazeOS.Process
  MazeOS.Files MazeOS.Syscalls MazeOS.Terminal MazeOS.Steps MazeOS.Tables MazeOS.ProcessTable MazeOS.Windows
  MazeOS.Screens MazeOS.ScreenSteps MazeOS.Keyboard
open MazeOS.KeyboardRead (Reader statement maskAfter ownCall)

/-! ### The statements of the calls -/

/-- The next statement of `terminal_read` or `terminal_write`. -/
inductive Place where
  | idle
  /-- Inside `keyboard_read`, with the first byte that the buffer held before. -/
  | reading (r : Reader) (first : UInt8)
  | test (first : UInt8)
  /-- Inside `clear`, after some of its stores. -/
  | clearing (stores : Nat)
  | setX
  | setY
  | moveCursor
  | wipe
  | disable (text : List UInt8)
  | writing (text : List UInt8)
  deriving Inhabited

structure Machine where
  kernel : Kernel
  masked : Bool
  places : Nat → Place

def Machine.place (m : Machine) : Place := m.places m.kernel.execTerm

/-- The byte that a store of `clear` writes. -/
def clearByte (attrib : UInt8) (n : Nat) : UInt8 := if n % 2 = 0 then space else attrib

/-- The number of stores of `clear`. -/
def clearStores : Nat := numRows * numCols * 2

/-- One store of `clear`. -/
def clearStep (k : Kernel) (n : Nat) : Kernel :=
  { k with phys := store (translate k.paging) k.phys (videoMemStart + n) (clearByte (activeTerm k).attrib n) }

/-- One statement: the kernel, the mask of the keyboard, and the next statement. -/
def advance (k : Kernel) (masked : Bool) : Place → Checked (Kernel × Bool × Place)
  | .idle => .ok (k,masked,.idle)
  | .reading r first =>
    statement (lineOf k k.execTerm) r >>= fun (line,r') =>
      .ok (setLine k k.execTerm line,maskAfter masked r.place,
        if r'.place = .idle then .test (r'.delivered.headD first) else .reading r' first)
  | .test first => .ok (k,masked,if first = Files.ctrlL then .clearing 0 else .idle)
  | .clearing n =>
    if n < clearStores then .ok (clearStep k n,masked,.clearing (n + 1)) else .ok (k,masked,.setX)
  | .setX => .ok (setTerminal k k.currTerminal { activeTerm k with xPos := 0 },masked,.setY)
  | .setY => .ok (setTerminal k k.currTerminal { activeTerm k with yPos := 0 },masked,.moveCursor)
  | .moveCursor => .ok (updateCursor k (activeTerm k).xPos (activeTerm k).yPos,masked,.wipe)
  | .wipe => .ok (k,masked,.idle)
  | .disable text => .ok (k,true,.writing text)
  | .writing (c :: rest) => .ok (putcBuffer k c,masked,.writing rest)
  | .writing [] => .ok (k,false,.idle)

inductive Event where
  | op (op : Op)
  /-- The keyboard interrupt, with the two bytes that its handler reads. -/
  | key (fuel : Nat) (c c2 : UInt8)
  /-- The keyboard is masked or unmasked by a handler that goes on. -/
  | irq (masked : Bool)
  /-- The executing process calls `terminal_read`, on a buffer that holds a byte. -/
  | read (nbytes : Int) (first : UInt8)
  /-- The executing process calls `terminal_write`. -/
  | write (text : List UInt8)
  /-- The executing process goes on in its call. -/
  | go

def inCall : Place → Bool
  | .idle => false
  | _ => true

/-- The executing process is in a call. -/
def Machine.Busy (m : Machine) : Prop := inCall m.place = true

instance (m : Machine) : Decidable m.Busy := inferInstanceAs (Decidable (_ = _))

/-- The executing process goes to a statement. -/
def Machine.at (m : Machine) (place : Place) : Machine :=
  { m with places := Function.update m.places m.kernel.execTerm place }

def go (m : Machine) : Checked Machine :=
  advance m.kernel m.masked m.place >>= fun (k,masked,place) =>
    .ok ⟨k,masked,Function.update m.places m.kernel.execTerm place⟩

/-- One step. An event that cannot occur leaves the machine as it is. -/
def step (fs : Fs) (m : Machine) : Event → Checked Machine
  | .op op =>
    if ownCall op ∧ m.Busy then .ok m
    else Steps.step fs m.kernel op >>= fun k => .ok { m with kernel := k }
  | .key fuel c c2 =>
    if m.masked then .ok m
    else keyboardInterruptHandler fs fuel m.kernel c c2 >>= fun k => .ok { m with kernel := k }
  | .irq masked => .ok { m with masked := masked }
  | .read nbytes first => .ok (if m.Busy then m else m.at (.reading ⟨.setReadAck,unsigned nbytes,0,[]⟩ first))
  | .write text => .ok (if m.Busy then m else m.at (.disable text))
  | .go => go m

/-- The machine when the first shell has been started, and no process is in a call. -/
structure Booted (fs : Fs) (m : Machine) : Prop where
  started : Started fs m.kernel
  unmasked : m.masked = false
  idle : ∀ t, m.places t = .idle

/-! ### What should hold, and when it does -/

/-- No screen and no cursor has changed but that of one terminal. -/
def OnlyTouches (t : Nat) (k after : Kernel) : Prop :=
  ∀ u, u < maxTerminals → u ≠ t → logical after u = logical k u

/-- A step that the process on a terminal makes in `terminal_read`,
    `terminal_write` or `halt` touches the screen of that terminal alone. -/
def Isolated (fs : Fs) (m : Machine) : Event → Prop
  | .go => ∀ after, step fs m .go = .ok after → OnlyTouches m.kernel.execTerm m.kernel after.kernel
  | .op (.halt fuel status) => ∀ after, step fs m (.op (.halt fuel status)) = .ok after →
      OnlyTouches m.kernel.execTerm m.kernel after.kernel
  | _ => True

/-- The active terminal shows what the next statement stores. -/
def Shows (k : Kernel) : Place → Prop
  | .clearing n => clearStores ≤ n ∨
      (logical k k.currTerminal).mem n = clearByte (attribs k.currTerminal) n
  | .setX => (k.terminals k.currTerminal).xPos = 0
  | .setY => (k.terminals k.currTerminal).yPos = 0
  | _ => True

/-- The screen of the active terminal is blank, and its cursor is in the first cell. -/
def Blank (k : Kernel) : Prop :=
  (∀ n, n < clearStores → (logical k k.currTerminal).mem n = clearByte (attribs k.currTerminal) n) ∧
    (k.terminals k.currTerminal).xPos = 0 ∧ (k.terminals k.currTerminal).yPos = 0

/-- The steps that touch no other screen, by the state before them. -/
def StaysHome (m : Machine) : Event → Prop
  | .go => m.kernel.execTerm = m.kernel.currTerminal ∨ Shows m.kernel m.place
  | .op (.halt _ _) =>
    m.Busy ∨ m.kernel.execTerm = m.kernel.currTerminal ∨ (m.kernel.pcbs (getPcb m.kernel)).parent ≠ 0 ∨ Blank m.kernel
  | _ => True

/-! ### One statement -/

/-- What a statement makes of the screen of a terminal. -/
def redrawn (k : Kernel) (place : Place) (u : Nat) (s : Screen) : Screen :=
  match place with
  | .clearing n =>
    if n < clearStores ∧ u = k.currTerminal then { s with mem := Function.update s.mem n (clearByte (attribs u) n) }
    else s
  | .setX => if u = k.currTerminal then { s with xPos := 0 } else s
  | .setY => if u = k.currTerminal then { s with yPos := 0 } else s
  | .writing (c :: _) => if u = k.execTerm then (Write.putc c).on (attribs u) s else s
  | _ => s

section
variable {k after : Kernel}

theorem displayed_same (displayed : Displayed k) (table : tableOf after = tableOf k) (arranged : Arranged after) :
    Displayed after := by
  obtain ⟨S,represents⟩ := displayed.represents
  exact ⟨⟨S,table ▸ represents⟩,arranged⟩

theorem setLine_logical (k : Kernel) (t : Nat) (line : Line) (u : Nat) : logical (setLine k t line) u = logical k u := by
  by_cases here : u = t
  · subst here; simp [logical,frameOf,setLine,setTerminal]
  · simp [logical,frameOf,setLine,setTerminal,here]

theorem setPlace_eq (k : Kernel) (x y : Nat) :
    setTerminal k k.currTerminal { activeTerm k with xPos := x, yPos := y } = withScreen k k.currTerminal ⟨k.phys,x,y⟩ := rfl

/-- The cursor of the active terminal is moved. -/
theorem setPlace_redrawn (displayed : Displayed k) {x y : Nat} (column : x < numCols) (row : y < numRows) :
    Displayed (setTerminal k k.currTerminal { activeTerm k with xPos := x, yPos := y }) ∧ ∀ u, u < maxTerminals →
      logical (setTerminal k k.currTerminal { activeTerm k with xPos := x, yPos := y }) u =
        if u = k.currTerminal then ⟨(logical k u).mem,x,y⟩ else logical k u := by
  obtain ⟨placed,screens⟩ := place_screens displayed.arranged displayed.arranged.current column row
  rw [setPlace_eq]
  refine ⟨displayed_same displayed (tableOf_draws (withScreen_draws k _ _)) placed,?_⟩
  intro u within
  rw [screens u within]
  by_cases active : u = k.currTerminal
  · rw [if_pos active,if_pos active,active]
  · rw [if_neg active,if_neg active]

/-- A store of `clear` reaches the page of the active terminal only. -/
theorem clearing_redrawn {masked masked' : Bool} {n : Nat} {place' : Place} (displayed : Displayed k)
    (advanced : advance k masked (.clearing n) = .ok (after,masked',place')) :
    Displayed after ∧ ∀ u, u < maxTerminals → logical after u = redrawn k (.clearing n) u (logical k u) := by
  have current := displayed.arranged.current
  simp only [advance] at advanced
  by_cases more : n < clearStores
  · rw [if_pos more] at advanced
    cases advanced
    have within : n < pageSize := by
      simp only [clearStores,numRows,numCols] at more
      simp only [pageSize]
      omega
    have attrib : (activeTerm k).attrib = attribs k.currTerminal := displayed.arranged.attrib _ current
    obtain ⟨stored,screens⟩ := store_screens displayed.arranged current (visible_window displayed.arranged) within
      (clearByte (activeTerm k).attrib n)
    refine ⟨displayed_same displayed rfl stored,?_⟩
    intro u inside
    refine (screens u inside).trans ?_
    rw [attrib]
    simp only [redrawn,more,true_and]
    by_cases active : u = k.currTerminal
    · rw [if_pos active,if_pos active,active]
    · rw [if_neg active,if_neg active]
  · rw [if_neg more] at advanced
    cases advanced
    refine ⟨displayed,fun u _ => ?_⟩
    simp only [redrawn,more,false_and,if_false]

/-- A statement keeps the display arranged, and redraws the screens. -/
theorem advance_redrawn {masked masked' : Bool} {place place' : Place} (displayed : Displayed k)
    (advanced : advance k masked place = .ok (after,masked',place')) :
    Displayed after ∧ ∀ u, u < maxTerminals → logical after u = redrawn k place u (logical k u) := by
  have inRange : ∀ u, u < maxTerminals → (k.terminals u).xPos < numCols ∧ (k.terminals u).yPos < numRows :=
    fun u within => displayed.arranged.inRange u within
  have current := displayed.arranged.current
  cases place with
  | reading r first =>
    obtain ⟨⟨line,r'⟩,_,same⟩ := bind_eq_ok.mp advanced
    cases same
    refine ⟨displayed_same displayed (tableOf_setLine k _ line) (setLine_arranged displayed.arranged _ line),?_⟩
    intro u _
    exact setLine_logical k k.execTerm line u
  | clearing n => exact clearing_redrawn displayed advanced
  | setX =>
    cases advanced
    have placed := setPlace_redrawn displayed (x := 0) columns_pos (inRange _ current).2
    refine ⟨placed.1,fun u within => ?_⟩
    refine (placed.2 u within).trans ?_
    simp only [redrawn]
    by_cases active : u = k.currTerminal
    · rw [if_pos active,if_pos active,active]
      rfl
    · rw [if_neg active,if_neg active]
  | setY =>
    cases advanced
    have placed := setPlace_redrawn displayed (y := 0) (inRange _ current).1 (by decide)
    refine ⟨placed.1,fun u within => ?_⟩
    refine (placed.2 u within).trans ?_
    simp only [redrawn]
    by_cases active : u = k.currTerminal
    · rw [if_pos active,if_pos active,active]
      rfl
    · rw [if_neg active,if_neg active]
  | moveCursor =>
    cases advanced
    have moved := updateCursor_same k (activeTerm k).xPos (activeTerm k).yPos
    refine ⟨displayed_same displayed rfl (arranged_same displayed.arranged moved displayed.arranged.exec
      displayed.arranged.vids),?_⟩
    intro u _
    exact logical_same moved u
  | writing text =>
    cases text with
    | nil => cases advanced; exact ⟨displayed,fun u _ => rfl⟩
    | cons c rest =>
      cases advanced
      have drew := putcBuffer_drew displayed.arranged c
      refine ⟨displayed_same displayed (tableOf_draws (putcBuffer_draws k c)) drew.arranged,?_⟩
      intro u within
      rw [drew.screens u within]
      simp only [redrawn]
      by_cases own : u = k.execTerm
      · rw [if_pos own]
        simp [alone,writesTo,own]
      · rw [if_neg own]
        simp [alone,writesTo,Ne.symm own]
  | idle => cases advanced; exact ⟨displayed,fun u _ => rfl⟩
  | test first => cases advanced; exact ⟨displayed,fun u _ => rfl⟩
  | wipe => cases advanced; exact ⟨displayed,fun u _ => rfl⟩
  | disable text => cases advanced; exact ⟨displayed,fun u _ => rfl⟩

/-- A statement leaves the active terminal, when that is another one, as it is
    exactly when it finds there what it stores. -/
theorem redrawn_active {place : Place} (other : k.execTerm ≠ k.currTerminal) :
    redrawn k place k.currTerminal (logical k k.currTerminal) = logical k k.currTerminal ↔ Shows k place := by
  cases place with
  | clearing n =>
    simp only [redrawn,Shows,and_true]
    by_cases more : n < clearStores
    · have less : ¬ clearStores ≤ n := by omega
      simp only [more,if_true,less,false_or]
      constructor
      · intro same
        have stored := congrFun (congrArg Screen.mem same) n
        simpa using stored.symm
      · intro found
        rw [← found,Function.update_eq_self]
    · have all : clearStores ≤ n := by omega
      simp [more,all]
  | setX =>
    simp only [redrawn,Shows,if_true]
    constructor
    · intro same
      exact (congrArg Screen.xPos same).symm
    · intro zero
      rw [← zero]
      rfl
  | setY =>
    simp only [redrawn,Shows,if_true]
    constructor
    · intro same
      exact (congrArg Screen.yPos same).symm
    · intro zero
      rw [← zero]
      rfl
  | writing text =>
    cases text with
    | nil => simp [redrawn,Shows]
    | cons c rest => simp [redrawn,Shows,Ne.symm other]
  | _ => simp [redrawn,Shows]

/-- A statement redraws no terminal but the active and the executing one. -/
theorem redrawn_other {place : Place} {u : Nat} (notActive : u ≠ k.currTerminal) (notOwn : u ≠ k.execTerm) (s : Screen) :
    redrawn k place u s = s := by
  cases place with
  | writing text =>
    cases text with
    | nil => rfl
    | cons c rest => simp [redrawn,notOwn]
  | _ => simp [redrawn,notActive]

theorem advance_isolated {masked masked' : Bool} {place place' : Place} (displayed : Displayed k)
    (advanced : advance k masked place = .ok (after,masked',place')) :
    OnlyTouches k.execTerm k after ↔ k.execTerm = k.currTerminal ∨ Shows k place := by
  obtain ⟨_,screens⟩ := advance_redrawn displayed advanced
  constructor
  · intro touches
    by_cases own : k.execTerm = k.currTerminal
    · exact .inl own
    · have kept := touches k.currTerminal displayed.arranged.current (Ne.symm own)
      rw [screens _ displayed.arranged.current,redrawn_active own] at kept
      exact .inr kept
  · intro home u within other
    rw [screens u within]
    by_cases active : u = k.currTerminal
    · subst active
      have notOwn : k.execTerm ≠ k.currTerminal := Ne.symm other
      exact (redrawn_active notOwn).mpr (home.resolve_left notOwn)
    · exact redrawn_other active other _

/-! ### Clearing the screen -/

theorem clearByte_even (attrib : UInt8) (n : Nat) : clearByte attrib (n * 2) = space := if_pos (by omega)

theorem clearByte_odd (attrib : UInt8) (n : Nat) : clearByte attrib (n * 2 + 1) = attrib := if_neg (by omega)

theorem clearStep_stores (k : Kernel) (n : Nat) :
    (List.range (n * 2)).foldl clearStep k =
      { k with phys := clearCells (translate k.paging) k.phys videoMemStart (activeTerm k).attrib n } := by
  induction n with
  | zero => rfl
  | succ n ih =>
    have two : (n + 1) * 2 = n * 2 + 1 + 1 := by omega
    rw [two,List.range_succ,List.range_succ,List.foldl_append,List.foldl_append,ih]
    simp only [List.foldl_cons,List.foldl_nil,clearStep,activeTerm,clearByte_even,clearByte_odd,clearCells,Nat.add_assoc]

/-- The statements of `clear`, one after the other, are the function. -/
theorem clearStep_clear (k : Kernel) : (List.range clearStores).foldl clearStep k = clear k :=
  clearStep_stores k (numRows * numCols)

theorem clearCells_page (page : Nat → UInt8) (attrib : UInt8) (n i : Nat) :
    clearCells some page 0 attrib n i = if i < n * 2 then clearByte attrib i else page i := by
  induction n with
  | zero => rfl
  | succ n ih =>
    simp only [clearCells,store,Nat.zero_add]
    by_cases odd : i = n * 2 + 1
    · rw [odd,Function.update_self,if_pos (by omega),clearByte_odd]
    · rw [Function.update_of_ne odd]
      by_cases even : i = n * 2
      · rw [even,Function.update_self,if_pos (by omega),clearByte_even]
      · rw [Function.update_of_ne even,ih]
        by_cases before : i < n * 2
        · rw [if_pos before,if_pos (by omega)]
        · rw [if_neg before,if_neg (by omega)]

/-- Clearing a screen leaves it as it is exactly when it is blank already. -/
theorem homed_iff (t : Nat) (s : Screen) :
    homed t s = s ↔ (∀ n, n < clearStores → s.mem n = clearByte (attribs t) n) ∧ s.xPos = 0 ∧ s.yPos = 0 := by
  have mem : (homed t s).mem = clearCells some s.mem 0 (attribs t) (numRows * numCols) := rfl
  constructor
  · intro same
    refine ⟨?_,(congrArg Screen.xPos same).symm,(congrArg Screen.yPos same).symm⟩
    intro n inside
    have cleared := congrFun (congrArg Screen.mem same) n
    rw [mem,clearCells_page,← clearStores,if_pos inside] at cleared
    exact cleared.symm
  · rintro ⟨blank,x,y⟩
    have page : (homed t s).mem = s.mem := by
      rw [mem]
      funext i
      rw [clearCells_page]
      split
      · rename_i inside
        exact (blank i inside).symm
      · rfl
    obtain ⟨mem,xPos,yPos⟩ := s
    simp only at x y
    subst x y
    exact congrArg (fun mem => (⟨mem,0,0⟩ : Screen)) page

end

/-! ### Runs -/

section
variable {fs : Fs} {m after : Machine} {e : Event}

theorem step_displayed (valid : ValidShell fs) (displayed : Displayed m.kernel) (taken : step fs m e = .ok after) :
    Displayed after.kernel := by
  cases e with
  | op op =>
    simp only [step] at taken
    split at taken
    · cases taken; exact displayed
    · obtain ⟨k,stepped,same⟩ := bind_eq_ok.mp taken
      cases same
      exact op_displayed valid displayed stepped
  | key fuel c c2 =>
    simp only [step] at taken
    split at taken
    · cases taken; exact displayed
    · obtain ⟨k,handled,same⟩ := bind_eq_ok.mp taken
      cases same
      exact key_displayed valid displayed handled
  | irq masked => cases taken; exact displayed
  | read nbytes first =>
    cases taken
    split
    · exact displayed
    · exact displayed
  | write text =>
    cases taken
    split
    · exact displayed
    · exact displayed
  | go =>
    obtain ⟨⟨k,masked,place⟩,advanced,same⟩ := bind_eq_ok.mp taken
    cases same
    exact (advance_redrawn displayed advanced).1

/-- The end of a process on the terminal that executes. -/
theorem halt_isolated {fuel : Nat} {status : UInt8} {k after : Kernel} (valid : ValidShell fs) (displayed : Displayed k)
    (halted : Steps.step fs k (.halt fuel status) = .ok after) :
    OnlyTouches k.execTerm k after ↔
      k.execTerm = k.currTerminal ∨ (k.pcbs (getPcb k)).parent ≠ 0 ∨ Blank k := by
  obtain ⟨⟨S,represents⟩,arranged⟩ := displayed
  obtain ⟨S',_,represents'⟩ := step_represents valid represents halted
  obtain ⟨_,screens⟩ := halt_screens represents arranged (.inl rfl) ⟨S',represents'⟩ halted
  constructor
  · intro touches
    by_cases own : k.execTerm = k.currTerminal
    · exact .inl own
    · by_cases root : (k.pcbs (getPcb k)).parent = 0
      · have kept := touches k.currTerminal arranged.current (Ne.symm own)
        rw [screens _ arranged.current,if_pos ⟨root,rfl⟩] at kept
        exact .inr (.inr ((homed_iff _ _).mp kept))
      · exact .inr (.inl root)
  · intro home u within other
    rw [screens u within]
    split
    · rename_i both
      obtain ⟨root,rfl⟩ := both
      have blank := (home.resolve_left (Ne.symm other)).resolve_left (not_not_intro root)
      exact (homed_iff _ _).mpr blank
    · rfl

/-- A step is isolated exactly when it is not taken or stays at home. -/
theorem isolated_iff (valid : ValidShell fs) (displayed : Displayed m.kernel) :
    Isolated fs m e ↔ ∀ after, step fs m e = .ok after → StaysHome m e := by
  cases e with
  | go =>
    simp only [Isolated,StaysHome]
    constructor
    · intro isolated after taken
      have touches := isolated after taken
      obtain ⟨⟨k,masked,place⟩,advanced,same⟩ := bind_eq_ok.mp taken
      cases same
      exact (advance_isolated displayed advanced).mp touches
    · intro home after taken
      have stays := home after taken
      obtain ⟨⟨k,masked,place⟩,advanced,same⟩ := bind_eq_ok.mp taken
      cases same
      exact (advance_isolated displayed advanced).mpr stays
  | op op =>
    cases op with
    | halt fuel status =>
      simp only [Isolated,StaysHome]
      by_cases busy : m.Busy
      · constructor
        · intro _ _ _; exact .inl busy
        · intro _ after taken
          simp only [step,ownCall,busy,and_self,if_true] at taken
          cases taken
          exact fun _ _ _ => rfl
      · simp only [busy,false_or]
        have stepped : ∀ after, step fs m (.op (.halt fuel status)) = .ok after →
            Steps.step fs m.kernel (.halt fuel status) = .ok after.kernel := by
          intro after taken
          simp only [step,busy,and_false,if_false] at taken
          obtain ⟨k,halted,same⟩ := bind_eq_ok.mp taken
          cases same
          exact halted
        constructor
        · intro isolated after taken
          exact (halt_isolated valid displayed (stepped after taken)).mp (isolated after taken)
        · intro home after taken
          exact (halt_isolated valid displayed (stepped after taken)).mpr (home after taken)
    | _ => simp [Isolated,StaysHome]
  | _ => simp [Isolated,StaysHome]

end

/-- The machine with a kernel in which no process is in a call. -/
def quiet (k : Kernel) : Machine := ⟨k,false,fun _ => .idle⟩

theorem quiet_booted {fs : Fs} {k : Kernel} (started : Started fs k) : Booted fs (quiet k) := ⟨started,rfl,fun _ => rfl⟩

/-- The cursor of the second terminal and the executing terminal, after a run. -/
def observed (m : Checked Machine) : Option (Nat × Nat) :=
  match m with
  | .ok m => some ((m.kernel.terminals 1).xPos,m.kernel.execTerm)
  | .error _ => none

theorem observed_some {m : Checked Machine} {x t : Nat} (seen : observed m = some (x,t)) :
    ∃ m', m = .ok m' ∧ (m'.kernel.terminals 1).xPos = x ∧ m'.kernel.execTerm = t := by
  cases m with
  | error fault => cases seen
  | ok m' =>
    cases seen
    exact ⟨m',rfl,rfl,rfl⟩

/-- A shell starts on the second terminal and writes a character there; then the
    first shell, in the background, ends. -/
def background : List Event := [.op (.switchTo 253 1),.write [65],.go,.go,.go,.op .pit]

end MazeOS.Isolation
