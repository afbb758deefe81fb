import MazeOS.Bytes
import MazeOS.Display

/-!
The display functions through a page mapping. A page of addresses that is
mapped to a frame (`Maps`) is a window on it: drawing through the window does to
the frame what drawing with address 0 does to a page of its own, and nothing to
the rest of memory (`Mirrors`, `write_mirrors`). Copying a page through two
windows copies the frame (`memcpy_page`).
-/
namespace MazeOS.Windows
open MazeOS.Bytes MazeOS.State MazeOS.Display

def pageSize : Nat := 4096

/-- The page at an address is mapped to the frame at a physical address. -/
def Maps (tr : Nat → Option Nat) (base frame : Nat) : Prop := ∀ i, i < pageSize → tr (base + i) = some (frame + i)

/-- A frame of memory as a page of its own. -/
def pageAt (mem : Nat → UInt8) (frame : Nat) : Nat → UInt8 := fun i => if i < pageSize then mem (frame + i) else 0

/-- A frame of memory holds a page, and all other memory is as it was. -/
structure Mirrors (frame : Nat) (rest mem page : Nat → UInt8) : Prop where
  inside : ∀ i, i < pageSize → mem (frame + i) = page i
  outside : ∀ a, ¬ (frame ≤ a ∧ a < frame + pageSize) → mem a = rest a
  blank : ∀ i, pageSize ≤ i → page i = 0

theorem mirrors_pageAt (mem : Nat → UInt8) (frame : Nat) : Mirrors frame mem mem (pageAt mem frame) := by
  refine ⟨?_,fun _ _ => rfl,?_⟩
  · intro i inside
    simp [pageAt,inside]
  · intro i outside
    simp [pageAt,Nat.not_lt.mpr outside]

theorem pageAt_mirrors {frame : Nat} {rest mem page : Nat → UInt8} (mirrors : Mirrors frame rest mem page) :
    pageAt mem frame = page := by
  funext i
  by_cases inside : i < pageSize
  · simp [pageAt,inside,mirrors.inside i inside]
  · simp [pageAt,inside,mirrors.blank i (Nat.le_of_not_lt inside)]

/-- Frames that have no byte in common. -/
def Apart (frame other : Nat) : Prop := frame + pageSize ≤ other ∨ other + pageSize ≤ frame

/-- A frame apart from the one that is drawn on keeps its page. -/
theorem pageAt_apart {frame other : Nat} {rest mem page : Nat → UInt8} (mirrors : Mirrors frame rest mem page)
    (apart : Apart frame other) : pageAt mem other = pageAt rest other := by
  funext i
  by_cases inside : i < pageSize
  · simp only [Apart] at apart
    simp only [pageAt,inside,if_true]
    exact mirrors.outside _ (by omega)
  · simp [pageAt,inside]

/-! ### Bytes, cells and rows -/

section
variable {tr : Nat → Option Nat} {base frame : Nat} {rest mem page : Nat → UInt8}

theorem mirrors_store (maps : Maps tr base frame) (mirrors : Mirrors frame rest mem page) {i : Nat}
    (inside : i < pageSize) (b : UInt8) :
    Mirrors frame rest (store tr mem (base + i) b) (store some page i b) := by
  have stored : store tr mem (base + i) b = Function.update mem (frame + i) b := by simp only [store,maps i inside]
  rw [stored]
  refine ⟨?_,?_,?_⟩
  · intro j within
    by_cases same : j = i
    · subst same; simp [store]
    · simp [store,same,mirrors.inside j within]
  · intro a away
    have moved : a ≠ frame + i := by omega
    simp [moved,mirrors.outside a away]
  · intro j beyond
    have moved : j ≠ i := by omega
    simp [store,moved,mirrors.blank j beyond]

theorem load_mirrors (maps : Maps tr base frame) (mirrors : Mirrors frame rest mem page) {i : Nat}
    (inside : i < pageSize) : load tr mem (base + i) = load some page i := by
  simp only [load,maps i inside]
  exact mirrors.inside i inside

theorem mirrors_memcpy (maps : Maps tr base frame) (mirrors : Mirrors frame rest mem page) {dest src n : Nat}
    (fits : dest + n ≤ pageSize) (fits' : src + n ≤ pageSize) :
    Mirrors frame rest (memcpy tr mem (base + dest) (base + src) n) (memcpy some page dest src n) := by
  induction n with
  | zero => exact mirrors
  | succ n ih =>
    have copied := ih (by omega) (by omega)
    simp only [memcpy]
    rw [Nat.add_assoc base src n,load_mirrors maps copied (by omega),Nat.add_assoc base dest n]
    exact mirrors_store maps copied (by omega) _

theorem cellAddress_base (base x y : Nat) : cellAddress base x y = base + cellAddress 0 x y := by
  simp [cellAddress]

theorem cell_inside {x y : Nat} (column : x < numCols) (row : y < numRows) : cellAddress 0 x y + 1 < pageSize := by
  simp only [cellAddress,numCols,numRows,pageSize] at *
  omega

theorem mirrors_drawCell (maps : Maps tr base frame) (mirrors : Mirrors frame rest mem page) {x y : Nat}
    (column : x < numCols) (row : y < numRows) (c attrib : UInt8) :
    Mirrors frame rest (drawCell tr mem base x y c attrib) (drawCell some page 0 x y c attrib) := by
  have inside := cell_inside column row
  simp only [drawCell]
  rw [cellAddress_base base,Nat.add_assoc]
  apply mirrors_store maps _ inside
  exact mirrors_store maps mirrors (by omega) c

theorem mirrors_shiftRows (maps : Maps tr base frame) (mirrors : Mirrors frame rest mem page) {n : Nat}
    (rows : n < numRows) : Mirrors frame rest (shiftRows tr mem base n) (shiftRows some page 0 n) := by
  induction n with
  | zero => exact mirrors
  | succ n ih =>
    have fits : cellAddress 0 0 (n + 1) + numCols * 2 ≤ pageSize := by
      simp only [cellAddress,numCols,numRows,pageSize] at *
      omega
    have fits' : cellAddress 0 0 n + numCols * 2 ≤ pageSize := by
      simp only [cellAddress,numCols,numRows,pageSize] at *
      omega
    simp only [shiftRows]
    rw [cellAddress_base base 0 n,cellAddress_base base 0 (n + 1)]
    exact mirrors_memcpy maps (ih (by omega)) fits' fits

theorem mirrors_blankRow (maps : Maps tr base frame) (mirrors : Mirrors frame rest mem page) (attrib : UInt8) {n : Nat}
    (columns : n ≤ numCols) : Mirrors frame rest (blankRow tr mem base attrib n) (blankRow some page 0 attrib n) := by
  induction n with
  | zero => exact mirrors
  | succ n ih => exact mirrors_drawCell maps (ih (by omega)) (by omega) (by decide) space attrib

theorem mirrors_shiftDisplay (maps : Maps tr base frame) (mirrors : Mirrors frame rest mem page) (attrib : UInt8) :
    Mirrors frame rest (shiftDisplay tr mem base attrib) (shiftDisplay some page 0 attrib) :=
  mirrors_blankRow maps (mirrors_shiftRows maps mirrors (by decide)) attrib (Nat.le_refl numCols)

theorem mirrors_clearCells (maps : Maps tr base frame) (mirrors : Mirrors frame rest mem page) (attrib : UInt8) {n : Nat}
    (cells : n ≤ numRows * numCols) :
    Mirrors frame rest (clearCells tr mem base attrib n) (clearCells some page 0 attrib n) := by
  induction n with
  | zero => exact mirrors
  | succ n ih =>
    have inside : n * 2 + 1 < pageSize := by
      simp only [numCols,numRows,pageSize] at *
      omega
    simp only [clearCells,Nat.zero_add]
    rw [Nat.add_assoc base]
    apply mirrors_store maps _ inside
    exact mirrors_store maps (ih (by omega)) (by omega) space

end

/-! ### Screens -/

/-- The cursor is on the display. -/
def InRange (s : Screen) : Prop := s.xPos < numCols ∧ s.yPos < numRows

/-- A screen in a frame of memory, and the same screen on a page of its own. -/
structure Shown (frame : Nat) (rest : Nat → UInt8) (s alone : Screen) : Prop where
  mirrors : Mirrors frame rest s.mem alone.mem
  xPos : s.xPos = alone.xPos
  yPos : s.yPos = alone.yPos

/-- What is written to a screen at a time. -/
inductive Write where
  | putc (c : UInt8)
  | backspace
  | clear

/-- A write to the display at `writeMem`, where every row is blanked with the
    attribute of the screen. -/
def Write.at (tr : Nat → Option Nat) (writeMem : Nat) (attrib : UInt8) (s : Screen) : Write → Screen
  | .putc c => putcAt tr writeMem attrib attrib s c
  | .backspace => backspaceAt tr writeMem attrib s
  | .clear => { s with mem := clearCells tr s.mem writeMem attrib (numRows * numCols) }

/-- A write to a screen on a page of its own. -/
def Write.on (attrib : UInt8) (s : Screen) (w : Write) : Screen := w.at some 0 attrib s

section
variable {tr : Nat → Option Nat} {base frame : Nat} {rest : Nat → UInt8} {s alone : Screen}

theorem columns_pos : 0 < numCols := by decide

theorem nextRow_shown (maps : Maps tr base frame) (shown : Shown frame rest s alone) (row : alone.yPos < numRows)
    (fill : UInt8) : Shown frame rest (nextRow tr s base fill) (nextRow some alone 0 fill) ∧
      InRange (nextRow some alone 0 fill) := by
  obtain ⟨mirrors,xPos,yPos⟩ := shown
  simp only [nextRow]
  rw [yPos]
  by_cases last : alone.yPos = numRows - 1
  · rw [if_pos last,if_pos last]
    exact ⟨⟨mirrors_shiftDisplay maps mirrors fill,rfl,rfl⟩,columns_pos,row⟩
  · rw [if_neg last,if_neg last]
    refine ⟨⟨mirrors,rfl,rfl⟩,columns_pos,?_⟩
    simp only
    omega

/-- The first row is not reached by going to the next one. -/
theorem nextRow_below (tr : Nat → Option Nat) (s : Screen) (writeMem : Nat) (fill : UInt8) :
    (nextRow tr s writeMem fill).yPos ≠ 0 := by
  simp only [nextRow]
  by_cases last : s.yPos = numRows - 1
  · rw [if_pos last]
    simp only [last]
    decide
  · rw [if_neg last]
    exact Nat.succ_ne_zero s.yPos

theorem putcAt_shown (maps : Maps tr base frame) (shown : Shown frame rest s alone) (inRange : InRange alone)
    (attrib fill c : UInt8) : Shown frame rest (putcAt tr base attrib fill s c) (putcAt some 0 attrib fill alone c) ∧
      InRange (putcAt some 0 attrib fill alone c) := by
  obtain ⟨column,row⟩ := inRange
  simp only [putcAt]
  by_cases line : c = 10 ∨ c = 13
  · rw [if_pos line,if_pos line]
    exact nextRow_shown maps shown row fill
  · rw [if_neg line,if_neg line]
    obtain ⟨mirrors,xPos,yPos⟩ := shown
    have drew : Shown frame rest ⟨drawCell tr s.mem base s.xPos s.yPos c attrib,s.xPos + 1,s.yPos⟩
        ⟨drawCell some alone.mem 0 alone.xPos alone.yPos c attrib,alone.xPos + 1,alone.yPos⟩ := by
      rw [xPos,yPos]
      exact ⟨mirrors_drawCell maps mirrors column row c attrib,rfl,rfl⟩
    simp only [xPos]
    by_cases full : alone.xPos + 1 ≥ numCols
    · rw [if_pos full,if_pos full]
      rw [xPos] at drew
      exact nextRow_shown maps drew row fill
    · rw [if_neg full,if_neg full]
      rw [xPos] at drew
      exact ⟨drew,Nat.lt_of_not_le full,row⟩

/-- A character that is drawn does not leave the cursor at the first place. -/
theorem putcAt_notFirst (tr : Nat → Option Nat) (writeMem : Nat) (attrib fill : UInt8) (s : Screen) :
    ¬ ((putcAt tr writeMem attrib fill s space).xPos = 0 ∧ (putcAt tr writeMem attrib fill s space).yPos = 0) := by
  have drawn : ¬ (space = 10 ∨ space = 13) := by decide
  unfold putcAt
  rw [if_neg drawn]
  simp only
  by_cases full : s.xPos + 1 ≥ numCols
  · rw [if_pos full]
    exact fun first => nextRow_below _ _ _ _ first.2
  · rw [if_neg full]
    exact fun first => Nat.succ_ne_zero _ first.1

/-- The cursor moves back from any place but the first one. -/
theorem backOne_inRange (inRange : InRange s) (notFirst : ¬ (s.xPos = 0 ∧ s.yPos = 0)) : InRange (backOne s) := by
  obtain ⟨column,row⟩ := inRange
  unfold backOne
  by_cases start : s.xPos = 0
  · rw [if_neg (not_not_intro start)]
    refine ⟨Nat.sub_lt columns_pos (by decide),?_⟩
    simp only [numRows] at *
    omega
  · rw [if_pos start]
    exact ⟨Nat.lt_of_le_of_lt (Nat.sub_le _ _) column,row⟩

theorem backOne_shown (shown : Shown frame rest s alone) (inRange : InRange alone)
    (notFirst : ¬ (alone.xPos = 0 ∧ alone.yPos = 0)) :
    Shown frame rest (backOne s) (backOne alone) ∧ InRange (backOne alone) := by
  refine ⟨?_,backOne_inRange inRange notFirst⟩
  obtain ⟨mirrors,xPos,yPos⟩ := shown
  simp only [backOne]
  rw [xPos,yPos]
  by_cases start : alone.xPos = 0
  · simp only [start,ne_eq,not_true_eq_false,if_false]
    exact ⟨mirrors,rfl,rfl⟩
  · simp only [start,ne_eq,not_false_eq_true,if_true]
    exact ⟨mirrors,rfl,rfl⟩

theorem backspaceAt_shown (maps : Maps tr base frame) (shown : Shown frame rest s alone) (inRange : InRange alone)
    (attrib : UInt8) : Shown frame rest (backspaceAt tr base attrib s) (backspaceAt some 0 attrib alone) ∧
      InRange (backspaceAt some 0 attrib alone) := by
  simp only [backspaceAt]
  rw [shown.xPos,shown.yPos]
  by_cases first : alone.xPos = 0 ∧ alone.yPos = 0
  · rw [if_pos first,if_pos first]
    exact ⟨shown,inRange⟩
  · rw [if_neg first,if_neg first]
    obtain ⟨back,inRange'⟩ := backOne_shown shown inRange first
    obtain ⟨blanked,inRange''⟩ := putcAt_shown maps back inRange' attrib attrib space
    exact backOne_shown blanked inRange'' (putcAt_notFirst some 0 attrib attrib _)

/-- A write through a window is a write on a page of its own. -/
theorem write_mirrors (maps : Maps tr base frame) (shown : Shown frame rest s alone) (inRange : InRange alone)
    (attrib : UInt8) (w : Write) :
    Shown frame rest (w.at tr base attrib s) (w.on attrib alone) ∧ InRange (w.on attrib alone) := by
  cases w with
  | putc c => exact putcAt_shown maps shown inRange attrib attrib c
  | backspace => exact backspaceAt_shown maps shown inRange attrib
  | clear =>
    exact ⟨⟨mirrors_clearCells maps shown.mirrors attrib (Nat.le_refl _),shown.xPos,shown.yPos⟩,inRange⟩

end

/-! ### Copying a page -/

/-- A copy of a page through two windows on frames that are apart. -/
theorem memcpy_page {tr : Nat → Option Nat} {dest src target source : Nat} (writes : Maps tr dest target)
    (reads : Maps tr src source) (apart : Apart target source) (mem : Nat → UInt8) {n : Nat} (fits : n ≤ pageSize) :
    memcpy tr mem dest src n = copyInto mem target (fun i => mem (source + i)) n := by
  induction n with
  | zero => simp [memcpy]
  | succ n ih =>
    simp only [Apart] at apart
    have copied := ih (by omega)
    have same : copyInto mem target (fun i => mem (source + i)) n (source + n) = mem (source + n) :=
      copyInto_outside (by omega)
    simp only [memcpy,copied,store,writes n (by omega),load,reads n (by omega),same]
    funext a
    by_cases last : a = target + n
    · subst last
      rw [Function.update_self,copyInto_inside (by omega) (by omega)]
      simp
    · rw [Function.update_of_ne last]
      by_cases inside : target ≤ a ∧ a < target + n
      · rw [copyInto_inside inside.1 inside.2,copyInto_inside inside.1 (by omega)]
      · rw [copyInto_outside inside,copyInto_outside (by omega)]

/-- A frame that another one was copied to holds the page of that one. -/
theorem pageAt_copied (mem : Nat → UInt8) (target source : Nat) :
    pageAt (copyInto mem target (fun i => mem (source + i)) pageSize) target = pageAt mem source := by
  funext i
  by_cases inside : i < pageSize
  · simp only [pageAt,inside,if_true]
    rw [copyInto_inside (by omega) (by omega)]
    simp
  · simp [pageAt,inside]

theorem pageAt_copied_apart (mem source : Nat → UInt8) {target other : Nat} (apart : Apart target other) :
    pageAt (copyInto mem target source pageSize) other = pageAt mem other := by
  funext i
  by_cases inside : i < pageSize
  · simp only [Apart] at apart
    simp only [pageAt,inside,if_true]
    exact copyInto_outside (by omega)
  · simp [pageAt,inside]

end MazeOS.Windows
