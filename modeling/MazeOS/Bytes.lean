import Mathlib.Algebra.Ring.Int.Defs
import Mathlib.Algebra.Ring.Nat
import Mathlib.Data.List.Basic
import Mathlib.Data.List.Flatten

/-!
Copies between buffers, and lists made of blocks of one size. A buffer is a
function from positions to values. `copyInto` is a block copy; two adjacent
copies from adjacent sources are one copy (`copyInto_append`). The element of a
list of blocks at a position is found by division (`blocks_getElem`). `streak`
counts the positions before the first one that fails a test (`lt_streak`).
-/
namespace MazeOS.Bytes
universe u
variable {α : Type u}

/-- The buffer `target` after `count` values of `source` are copied to `start`. -/
def copyInto (target : Nat → α) (start : Nat) (source : Nat → α) (count : Nat) : Nat → α :=
  fun i => if start ≤ i ∧ i < start + count then source (i - start) else target i

theorem copyInto_inside {target source : Nat → α} {start count i : Nat} (low : start ≤ i) (high : i < start + count) :
    copyInto target start source count i = source (i - start) := by
  simp [copyInto,low,high]

theorem copyInto_outside {target source : Nat → α} {start count i : Nat} (out : ¬ (start ≤ i ∧ i < start + count)) :
    copyInto target start source count i = target i := by
  simp [copyInto,out]

@[simp] theorem copyInto_zero (target source : Nat → α) (start : Nat) : copyInto target start source 0 = target := by
  funext i
  exact copyInto_outside (by omega)

/-- Sources that agree on the copied positions give the same copy. -/
theorem copyInto_congr (target : Nat → α) (start : Nat) {source other : Nat → α} {count : Nat}
    (same : ∀ i, i < count → source i = other i) :
    copyInto target start source count = copyInto target start other count := by
  funext i
  by_cases inside : start ≤ i ∧ i < start + count
  · rw [copyInto_inside inside.1 inside.2,copyInto_inside inside.1 inside.2,same _ (by omega)]
  · rw [copyInto_outside inside,copyInto_outside inside]

/-- Two adjacent copies are one copy, when the values of the second follow those
    of the first. -/
theorem copyInto_append (target : Nat → α) (start m n : Nat) {first second whole : Nat → α}
    (before : ∀ i, i < m → first i = whole i) (after : ∀ i, i < n → second i = whole (m + i)) :
    copyInto (copyInto target start first m) (start + m) second n = copyInto target start whole (m + n) := by
  funext i
  by_cases inSecond : start + m ≤ i ∧ i < start + m + n
  · rw [copyInto_inside inSecond.1 inSecond.2,copyInto_inside (by omega) (by omega),after _ (by omega)]
    congr 1; omega
  · rw [copyInto_outside inSecond]
    by_cases inFirst : start ≤ i ∧ i < start + m
    · rw [copyInto_inside inFirst.1 inFirst.2,copyInto_inside (by omega) (by omega),before _ (by omega)]
    · rw [copyInto_outside inFirst,copyInto_outside (by omega)]

/-- A second copy to the same place covers a shorter first one. -/
theorem copyInto_cover (target : Nat → α) (start : Nat) {m n : Nat} (shorter : m ≤ n) (first second : Nat → α) :
    copyInto (copyInto target start first m) start second n = copyInto target start second n := by
  funext i
  by_cases inside : start ≤ i ∧ i < start + n
  · rw [copyInto_inside inside.1 inside.2,copyInto_inside inside.1 inside.2]
  · rw [copyInto_outside inside,copyInto_outside inside,copyInto_outside (by omega)]

/-- The first `count` values of a buffer, as a list. -/
def taken (buffer : Nat → α) (count : Nat) : List α := (List.range count).map buffer

@[simp] theorem taken_length (buffer : Nat → α) (count : Nat) : (taken buffer count).length = count := by
  simp [taken]

@[simp] theorem taken_getElem (buffer : Nat → α) (count i : Nat) (inside : i < (taken buffer count).length) :
    (taken buffer count)[i] = buffer i := by
  simp [taken]

theorem taken_succ (buffer : Nat → α) (count : Nat) : taken buffer (count + 1) = taken buffer count ++ [buffer count] := by
  simp [taken,List.range_succ]

theorem taken_congr {buffer other : Nat → α} {count : Nat} (same : ∀ i, i < count → buffer i = other i) :
    taken buffer count = taken other count := by
  apply List.map_congr_left
  intro i inside
  exact same i (List.mem_range.mp inside)

theorem taken_take (buffer : Nat → α) (count size : Nat) : (taken buffer count).take size = taken buffer (min size count) := by
  rw [taken,← List.map_take,List.take_range,taken]

/-- The concatenation of `count` blocks of `size` values. -/
def blocks (block : Nat → Nat → α) (size count : Nat) : List α :=
  (List.range count).flatMap fun b => (List.range size).map (block b)

@[simp] theorem blocks_length (block : Nat → Nat → α) (size count : Nat) :
    (blocks block size count).length = count * size := by
  induction count with
  | zero => simp [blocks]
  | succ n ih =>
    have grown : blocks block size (n+1) = blocks block size n ++ (List.range size).map (block n) := by
      simp [blocks,List.range_succ]
    rw [grown,List.length_append,ih]
    simp [Nat.succ_mul]

/-- The element at `i` is in block `i / size`, at `i % size`. -/
theorem blocks_getElem (block : Nat → Nat → α) (size count i : Nat) (inside : i < (blocks block size count).length) :
    (blocks block size count)[i] = block (i / size) (i % size) := by
  have positive : 0 < size := by
    rcases Nat.eq_zero_or_pos size with none | some
    · simp [none] at inside
    · exact some
  induction count with
  | zero => simp at inside
  | succ n ih =>
    have grown : blocks block size (n+1) = blocks block size n ++ (List.range size).map (block n) := by
      simp [blocks,List.range_succ]
    simp only [grown]
    by_cases earlier : i < n * size
    · rw [List.getElem_append_left (by simpa using earlier)]
      exact ih (by simpa using earlier)
    · rw [List.getElem_append_right (by simpa using earlier)]
      have late : n * size ≤ i := Nat.le_of_not_lt earlier
      have early : i < (n+1) * size := by simpa using inside
      have quotient : i / size = n := by
        rw [Nat.div_eq_iff positive]
        constructor
        · exact late
        · rw [Nat.succ_mul] at early; omega
      have remainder : i % size = i - n * size := by
        have split := Nat.div_add_mod i size
        rw [quotient,Nat.mul_comm] at split
        omega
      simp [quotient,remainder]

/-! ### The first position that fails -/

section
variable {good : Nat → Prop} [DecidablePred good]

/-- How many of the first `count` positions come before the first that is not
    good. -/
def streak (good : Nat → Prop) [DecidablePred good] : Nat → Nat
  | 0 => 0
  | n + 1 => if streak good n = n ∧ good n then n + 1 else streak good n

theorem streak_le (count : Nat) : streak good count ≤ count := by
  induction count with
  | zero => exact Nat.le_refl 0
  | succ n ih =>
    rw [streak]
    split
    · exact Nat.le_refl _
    · exact Nat.le_succ_of_le ih

/-- A position belongs to the streak when it and all before it are good. -/
theorem lt_streak {i count : Nat} : i < streak good count ↔ i < count ∧ ∀ j, j ≤ i → good j := by
  induction count generalizing i with
  | zero => simp [streak]
  | succ n ih =>
    have short : streak good n ≤ n := streak_le n
    rw [streak]
    split
    · rename_i whole
      have all : ∀ j, j < n + 1 → good j := by
        intro j inside
        rcases Nat.lt_succ_iff_lt_or_eq.mp inside with before | rfl
        · exact (ih.mp (Nat.lt_of_lt_of_eq before whole.1.symm)).2 j (Nat.le_refl j)
        · exact whole.2
      exact ⟨fun inside => ⟨inside,fun j before => all j (by omega)⟩,fun found => found.1⟩
    · rename_i broken
      constructor
      · intro inside
        obtain ⟨below,before⟩ := ih.mp inside
        exact ⟨by omega,before⟩
      · rintro ⟨below,before⟩
        by_cases last : i < n
        · exact ih.mpr ⟨last,before⟩
        -- The streak would reach `n` and go on.
        · have here : i = n := by omega
          subst here
          have reaches : ¬ streak good i < i := by
            intro stops
            have within := ih.mpr ⟨stops,fun j before' => before j (by omega)⟩
            omega
          exact absurd ⟨by omega,before i (Nat.le_refl i)⟩ broken

/-- The streak ends at a position that is not good. -/
theorem not_good_streak {count : Nat} (short : streak good count < count) : ¬ good (streak good count) := by
  intro here
  refine absurd (lt_streak.mpr ⟨short,fun j before => ?_⟩) (Nat.lt_irrefl (streak good count))
  rcases Nat.lt_or_eq_of_le before with earlier | rfl
  · exact (lt_streak.mp earlier).2 j (Nat.le_refl j)
  · exact here

/-- Some number of positions at the start are good, and the next one is not. -/
theorem streak_exists (good : Nat → Prop) [DecidablePred good] (count : Nat) :
    ∃ n, n ≤ count ∧ (∀ i, i < n → good i) ∧ (n < count → ¬ good n) :=
  ⟨streak good count,streak_le count,fun i inside => (lt_streak.mp inside).2 i (Nat.le_refl i),not_good_streak⟩

theorem streak_pos {count : Nat} : 0 < streak good count ↔ 0 < count ∧ good 0 := by
  rw [lt_streak]
  constructor
  · rintro ⟨some,all⟩; exact ⟨some,all 0 (Nat.le_refl 0)⟩
  · rintro ⟨some,first⟩
    refine ⟨some,fun j before => ?_⟩
    obtain rfl : j = 0 := by omega
    exact first

theorem streak_zero {count : Nat} : streak good count = 0 ↔ count = 0 ∨ ¬ good 0 := by
  rw [← Nat.le_zero,← Nat.not_lt,streak_pos,not_and_or,Nat.not_lt,Nat.le_zero]

theorem streak_eq {count size : Nat} (within : size ≤ count) (all : ∀ i, i < size → good i)
    (stops : size < count → ¬ good size) : streak good count = size := by
  have reaches : ¬ streak good count < size := by
    intro short
    have more := lt_streak.mpr ⟨Nat.lt_of_lt_of_le short within,fun j before => all j (by omega)⟩
    omega
  have ends : ¬ size < streak good count := by
    intro long
    obtain ⟨inside,before⟩ := lt_streak.mp long
    exact stops inside (before size (Nat.le_refl size))
  omega

end

end MazeOS.Bytes
