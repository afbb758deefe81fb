import Mathlib.Data.Nat.Init
import Mathlib.Logic.Function.Basic

/-!
A screen that scrolls, and an endless roll of paper. A window of some columns
and rows is written cell by cell; when its cursor leaves the last row, its rows
move up and the last one is blanked. A paper is never moved: its cells are
numbered row by row without end, and only the row with which the window starts
goes down. A window that shows a paper does so after every cell that is written
(`shows_put`), every new row (`shows_newline`) and every step back
(`shows_back`).
-/
namespace MazeOS.Paper
universe u
variable {α : Type u}

/-- The cells of a roll of paper, the number of the cell that is written next,
    and the row with which the window starts. -/
structure Roll (α : Type u) where
  cells : Nat → α
  pos : Nat
  top : Nat

/-- The cells of a screen by column and row, and the place that is written next. -/
structure Window (α : Type u) where
  cell : Nat → Nat → α
  x : Nat
  y : Nat

section
variable (cols rows : Nat)

/-! ### Papers -/

/-- The window goes down one row when the cursor has passed its last one. -/
def follow (p : Roll α) : Roll α := if p.top + rows ≤ p.pos / cols then { p with top := p.top + 1 } else p

/-- One cell is written, and the cursor goes on to the next. -/
def put (p : Roll α) (a : α) : Roll α :=
  follow cols rows { p with cells := Function.update p.cells p.pos a, pos := p.pos + 1 }

/-- The cursor goes to the start of the next row. -/
def newline (p : Roll α) : Roll α := follow cols rows { p with pos := (p.pos / cols + 1) * cols }

/-- The cell of the paper at a place of the window. -/
def cellAt (p : Roll α) (x y : Nat) : α := p.cells ((p.top + y) * cols + x)

/-- The cursor goes back one cell. -/
def back (p : Roll α) : Roll α := { p with pos := p.pos - 1 }

/-! ### Windows -/

/-- The rows move up, and the last one is blanked. -/
def scroll (blank : α) (w : Window α) : Window α :=
  { w with cell := fun x y => if y + 1 < rows then w.cell x (y + 1) else blank }

def nextRow (blank : α) (w : Window α) : Window α :=
  if w.y + 1 = rows then { scroll rows blank w with x := 0 } else { w with x := 0, y := w.y + 1 }

/-- One cell is drawn. -/
def draw (w : Window α) (a : α) : Window α :=
  { w with cell := fun x y => if x = w.x ∧ y = w.y then a else w.cell x y }

/-- One cell is written, and the cursor goes on to the next. -/
def type (blank : α) (w : Window α) (a : α) : Window α :=
  if w.x + 1 < cols then { draw w a with x := w.x + 1 } else nextRow rows blank (draw w a)

/-- The cursor goes back one cell. -/
def stepBack (w : Window α) : Window α :=
  if w.x ≠ 0 then { w with x := w.x - 1 } else { w with x := cols - 1, y := w.y - 1 }

/-- Windows that look alike. -/
structure Alike (w v : Window α) : Prop where
  cell : ∀ x y, x < cols → y < rows → w.cell x y = v.cell x y
  x : w.x = v.x
  y : w.y = v.y

/-- The window shows the rows of the paper from `top` on, and what follows them
    on the paper is blank. -/
structure Shows (blank : α) (p : Roll α) (w : Window α) : Prop where
  cell : ∀ x y, x < cols → y < rows → w.cell x y = cellAt cols p x y
  below : ∀ i, (p.top + rows) * cols ≤ i → p.cells i = blank
  pos : p.pos = (p.top + w.y) * cols + w.x
  column : w.x < cols
  row : w.y < rows

end

section
variable {cols rows : Nat} {blank : α} {p : Roll α} {w v : Window α}

/-! ### Rows and columns of a cell -/

theorem row_of (r : Nat) {x : Nat} (column : x < cols) : (r * cols + x) / cols = r := by
  rw [Nat.mul_comm,Nat.mul_add_div (by omega),Nat.div_eq_of_lt column,Nat.add_zero]

theorem column_of (r : Nat) {x : Nat} (column : x < cols) : (r * cols + x) % cols = x := by
  rw [Nat.mul_comm,Nat.mul_add_mod,Nat.mod_eq_of_lt column]

/-- Places of a row that differ have different cells. -/
theorem place_inj {r r' x x' : Nat} (column : x < cols) (column' : x' < cols) :
    r * cols + x = r' * cols + x' ↔ x = x' ∧ r = r' := by
  constructor
  · intro same
    have rows := congrArg (· / cols) same
    have columns := congrArg (· % cols) same
    simp only [row_of _ column,row_of _ column',column_of _ column,column_of _ column'] at rows columns
    exact ⟨columns,rows⟩
  · rintro ⟨rfl,rfl⟩; rfl

/-- A cell above a row comes before the row. -/
theorem place_lt {r s x : Nat} (column : x < cols) (above : r < s) : r * cols + x < s * cols := by
  have further : (r + 1) * cols ≤ s * cols := Nat.mul_le_mul_right cols above
  rw [Nat.succ_mul] at further
  omega

/-! ### What is written on a paper -/

theorem put_cells (p : Roll α) (a : α) : (put cols rows p a).cells = Function.update p.cells p.pos a := by
  simp only [put,follow]
  split <;> rfl

theorem put_pos (p : Roll α) (a : α) : (put cols rows p a).pos = p.pos + 1 := by
  simp only [put,follow]
  split <;> rfl

/-- The window goes down at most one row, to the one of the cursor. -/
theorem put_top (p : Roll α) (a : α) : (put cols rows p a).top = p.top ∨
    ((put cols rows p a).top = p.top + 1 ∧ (p.top + rows) * cols ≤ p.pos + 1) := by
  simp only [put,follow]
  split
  · rename_i passed
    refine .inr ⟨rfl,Nat.le_trans (Nat.mul_le_mul_right cols passed) ?_⟩
    exact Nat.div_mul_le_self (p.pos + 1) cols
  · exact .inl rfl

/-! ### The window shows the paper -/

theorem shows_alike (shows : Shows cols rows blank p w) (alike : Alike cols rows v w) :
    Shows cols rows blank p v := by
  refine ⟨?_,shows.below,?_,?_,?_⟩
  · intro x y column row
    rw [alike.cell x y column row,shows.cell x y column row]
  · rw [alike.x,alike.y]; exact shows.pos
  · rw [alike.x]; exact shows.column
  · rw [alike.y]; exact shows.row

theorem shows_row (shows : Shows cols rows blank p w) : p.pos / cols = p.top + w.y := by
  rw [shows.pos,row_of _ shows.column]

/-- The window has room for the row below its cursor, or it scrolls. -/
theorem shows_newline (shows : Shows cols rows blank p w) :
    Shows cols rows blank (newline cols rows p) (nextRow rows blank w) := by
  have columns : 0 < cols := Nat.lt_of_le_of_lt (Nat.zero_le _) shows.column
  have row := shows.row
  have next : (p.pos / cols + 1) * cols / cols = p.top + w.y + 1 := by
    rw [Nat.mul_div_cancel _ columns,shows_row shows]
  simp only [newline,nextRow,follow,next]
  by_cases last : w.y + 1 = rows
  · rw [if_pos last,if_pos (by omega)]
    refine ⟨?_,?_,?_,columns,row⟩
    · intro x y column row'
      simp only [scroll,cellAt]
      by_cases more : y + 1 < rows
      · rw [if_pos more,shows.cell x (y + 1) column more,cellAt,Nat.add_right_comm p.top 1 y,Nat.add_assoc p.top y 1]
      · have bottom : p.top + 1 + y = p.top + rows := by omega
        rw [if_neg more,bottom]
        exact (shows.below _ (Nat.le_add_right _ _)).symm
    · intro i low
      refine shows.below i (Nat.le_trans (Nat.mul_le_mul_right cols ?_) low)
      simp only
      omega
    · simp only [scroll,shows_row shows,Nat.add_zero]
      congr 1
      omega
  · rw [if_neg last,if_neg (by omega)]
    refine ⟨shows.cell,shows.below,?_,columns,by simp only; omega⟩
    simp only [shows_row shows,Nat.add_zero,Nat.add_assoc]

/-- What is drawn in the window is written on the paper. -/
theorem draw_cell (shows : Shows cols rows blank p w) (a : α) {x y : Nat} (column : x < cols) (row : y < rows) :
    (draw w a).cell x y = Function.update p.cells p.pos a ((p.top + y) * cols + x) := by
  have place : (p.top + y) * cols + x = p.pos ↔ x = w.x ∧ y = w.y := by
    rw [shows.pos,place_inj column shows.column,Nat.add_left_cancel_iff]
  simp only [draw]
  by_cases here : x = w.x ∧ y = w.y
  · rw [if_pos here,place.mpr here,Function.update_self]
  · rw [if_neg here,Function.update_of_ne fun same => here (place.mp same)]
    exact shows.cell x y column row

theorem draw_below (shows : Shows cols rows blank p w) (a : α) {i : Nat} (low : (p.top + rows) * cols ≤ i) :
    Function.update p.cells p.pos a i = blank := by
  have before : p.pos < (p.top + rows) * cols := by
    rw [shows.pos]
    exact place_lt shows.column (Nat.add_lt_add_left shows.row p.top)
  rw [Function.update_of_ne (by omega)]
  exact shows.below i low

/-- A window that shows a paper shows it when a cell is written. -/
theorem shows_put (shows : Shows cols rows blank p w) (a : α) :
    Shows cols rows blank (put cols rows p a) (type cols rows blank w a) := by
  have column := shows.column
  have row := shows.row
  by_cases more : w.x + 1 < cols
  · have same : (p.pos + 1) / cols = p.top + w.y := by rw [shows.pos,Nat.add_assoc,row_of _ more]
    have stays : ¬ p.top + rows ≤ (p.pos + 1) / cols := by omega
    rw [type,if_pos more,put,follow,if_neg stays]
    refine ⟨fun x y => draw_cell shows a,fun i => draw_below shows a,?_,more,row⟩
    simp only [shows.pos,draw]
    omega
  -- The last column: the paper goes on to the next cell, which starts a row.
  · have drawn : Shows cols rows blank { p with cells := Function.update p.cells p.pos a } (draw w a) :=
      ⟨fun x y => draw_cell shows a,fun i => draw_below shows a,shows.pos,column,row⟩
    have next : p.pos + 1 = (p.pos / cols + 1) * cols := by
      rw [shows_row shows,Nat.succ_mul,shows.pos]
      omega
    rw [type,if_neg more,put,next]
    exact shows_newline drawn

/-- A window that shows a paper shows it when the cursor goes back, from
    anywhere but the start of the window. -/
theorem shows_back (shows : Shows cols rows blank p w) (inside : p.top * cols < p.pos) :
    Shows cols rows blank (back p) (stepBack cols w) := by
  have column := shows.column
  have row := shows.row
  have pos := shows.pos
  simp only [back,stepBack]
  by_cases start : w.x = 0
  · rw [if_neg (not_not_intro start)]
    have below : w.y ≠ 0 := by
      intro first
      rw [pos,first,start] at inside
      simp only [Nat.add_zero,Nat.lt_irrefl] at inside
    obtain ⟨r,above⟩ := Nat.exists_eq_succ_of_ne_zero below
    refine ⟨shows.cell,shows.below,?_,by simp only; omega,by simp only; omega⟩
    simp only [pos,start,above,Nat.succ_eq_add_one,Nat.add_sub_cancel,← Nat.add_assoc,Nat.succ_mul]
    omega
  · rw [if_pos start]
    refine ⟨shows.cell,shows.below,?_,by simp only; omega,row⟩
    simp only [pos]
    omega

/-- Going back, writing a cell and going back again changes one cell and never
    moves the window. -/
theorem back_put_back (shows : Shows cols rows blank p w) (inside : 0 < p.pos) (a : α) :
    back (put cols rows (back p) a) = { p with cells := Function.update p.cells (p.pos - 1) a, pos := p.pos - 1 } := by
  have again : p.pos - 1 + 1 = p.pos := Nat.sub_add_cancel inside
  have stays : ¬ p.top + rows ≤ p.pos / cols := by
    rw [shows_row shows]
    have row := shows.row
    omega
  simp only [put,follow,back,again,if_neg stays]

end

end MazeOS.Paper
