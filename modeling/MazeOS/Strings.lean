import MazeOS.Bytes

/-!
Strings in buffers. A string ends before the first `stop`, or where its field
does (`text`). Two fields have the same string exactly when they agree up to
the first `stop` (`text_eq_iff`). A buffer of any length holds a string and a
`stop` after it (`Holds`); cut to the size of a field, it is that string's
first part (`text_holds`).
-/
namespace MazeOS.Strings
open MazeOS.Bytes
universe u
variable {α : Type u} {stop : α} {buffer other : Nat → α} {size : Nat}

section
variable [DecidableEq α]

/-- How many positions of a field come before its first `stop`. -/
def textLength (stop : α) (buffer : Nat → α) (size : Nat) : Nat := streak (fun i => buffer i ≠ stop) size

/-- The string in a field. -/
def text (stop : α) (buffer : Nat → α) (size : Nat) : List α := taken buffer (textLength stop buffer size)

@[simp] theorem text_length : (text stop buffer size).length = textLength stop buffer size := taken_length _ _

theorem textLength_le : textLength stop buffer size ≤ size := streak_le size

theorem text_length_le : (text stop buffer size).length ≤ size := by
  rw [text_length]
  exact textLength_le

theorem text_getElem {i : Nat} (inside : i < (text stop buffer size).length) : (text stop buffer size)[i] = buffer i :=
  taken_getElem _ _ _ _

theorem text_clean : stop ∉ text stop buffer size := by
  intro among
  obtain ⟨i,inside,here⟩ := List.getElem_of_mem among
  rw [text_getElem] at here
  rw [text_length] at inside
  exact (lt_streak.mp inside).2 i (Nat.le_refl i) here

theorem text_within {i : Nat} (inside : i < textLength stop buffer size) : buffer i ≠ stop :=
  (lt_streak.mp inside).2 i (Nat.le_refl i)

theorem text_stops (short : textLength stop buffer size < size) : buffer (textLength stop buffer size) = stop :=
  not_not.mp (not_good_streak short)

/-- A string ends at the first `stop`. -/
theorem textLength_eq {n : Nat} (inside : n ≤ size) (clean : ∀ i, i < n → buffer i ≠ stop)
    (ends : n < size → buffer n = stop) : textLength stop buffer size = n :=
  streak_eq inside clean fun short => not_not_intro (ends short)

/-- Two fields have the same string when they agree up to the first `stop`. -/
theorem text_eq_iff : text stop buffer size = text stop other size ↔
    ∀ i, i < size → (∀ j, j < i → buffer j ≠ stop) → buffer i = other i := by
  constructor
  · intro same i inside clean
    have lengths : textLength stop buffer size = textLength stop other size := by
      simpa using congrArg List.length same
    by_cases within : i < textLength stop buffer size
    · have here : (text stop buffer size)[i]? = (text stop other size)[i]? := by rw [same]
      rw [List.getElem?_eq_getElem (by simpa using within),List.getElem?_eq_getElem (by simpa [← lengths] using within),
        text_getElem,text_getElem] at here
      exact Option.some.inj here
    -- Both strings end here.
    · have short : textLength stop buffer size < size := by omega
      have stops := text_stops short
      have stops' : other (textLength stop other size) = stop := text_stops (lengths ▸ short)
      have ends : textLength stop buffer size = i := by
        by_contra apart
        exact clean _ (by omega) stops
      rw [← lengths] at stops'
      rw [← ends,stops,stops']
  · intro agree
    have before : ∀ i, i < textLength stop buffer size → buffer i = other i := fun i inside =>
      agree i (Nat.lt_of_lt_of_le inside textLength_le) fun j earlier => text_within (Nat.lt_trans earlier inside)
    have lengths : textLength stop other size = textLength stop buffer size := by
      refine textLength_eq textLength_le ?_ ?_
      · intro i inside
        rw [← before i inside]
        exact text_within inside
      · intro short
        rw [← agree _ short fun j earlier => text_within earlier]
        exact text_stops short
    rw [text,text,lengths]
    exact taken_congr before

end

/-! ### Strings of any length -/

/-- A buffer starts with a string and a `stop` after it. -/
structure Holds (stop : α) (buffer : Nat → α) (s : List α) : Prop where
  clean : stop ∉ s
  chars : ∀ i (inside : i < s.length), buffer i = s[i]
  ends : buffer s.length = stop

theorem holds_before {s : List α} (holds : Holds stop buffer s) {i : Nat} (inside : i < s.length) : buffer i ≠ stop := by
  rw [holds.chars i inside]
  intro here
  exact holds.clean (here ▸ List.getElem_mem inside)

/-- The values of a list, and `stop` after them. -/
def padded (stop : α) (s : List α) : Nat → α := fun i => s.getD i stop

theorem padded_inside {s : List α} {i : Nat} (inside : i < s.length) : padded stop s i = s[i] := by
  rw [padded,List.getD_eq_getElem?_getD,List.getElem?_eq_getElem inside,Option.getD_some]

theorem padded_outside {s : List α} {i : Nat} (outside : s.length ≤ i) : padded stop s i = stop := by
  rw [padded,List.getD_eq_getElem?_getD,List.getElem?_eq_none outside,Option.getD_none]

theorem holds_padded {s : List α} (clean : stop ∉ s) : Holds stop (padded stop s) s :=
  ⟨clean,fun _ inside => padded_inside inside,padded_outside (Nat.le_refl _)⟩

/-- What a list has behind its first values of a kind is of another kind. -/
theorem takeWhile_stops (p : α → Bool) {l : List α} {a : α} (here : l[(l.takeWhile p).length]? = some a) : ¬ p a := by
  induction l with
  | nil => cases here
  | cons b rest ih =>
    by_cases good : p b
    · rw [List.takeWhile_cons_of_pos good] at here
      exact ih here
    · rw [List.takeWhile_cons_of_neg good] at here
      cases here
      exact good

section
variable [DecidableEq α]

/-- A field cuts a string off at its size. -/
theorem text_holds {s : List α} (holds : Holds stop buffer s) (size : Nat) : text stop buffer size = s.take size := by
  have lengths : textLength stop buffer size = min size s.length := by
    refine textLength_eq (Nat.min_le_left _ _) ?_ ?_
    · intro i inside
      exact holds_before holds (by omega)
    · intro short
      have whole : min size s.length = s.length := by omega
      rw [whole]
      exact holds.ends
  apply List.ext_getElem
  · rw [text_length,lengths,List.length_take]
  · intro i inside _
    rw [text_length,lengths] at inside
    rw [text_getElem,List.getElem_take]
    exact holds.chars i (by omega)

/-- The values of a list before its first `stop`. -/
theorem takeWhile_holds {l s : List α} (holds : Holds stop (padded stop l) s) : l.takeWhile (· ≠ stop) = s := by
  induction l generalizing s with
  | nil =>
    cases s with
    | nil => rfl
    | cons c rest => exact absurd (padded_outside (Nat.zero_le 0)) (holds_before holds (Nat.succ_pos rest.length))
  | cons a l ih =>
    cases s with
    | nil =>
      have first : a = stop := holds.ends
      simp [first]
    | cons c rest =>
      have first : a = c := holds.chars 0 (Nat.succ_pos rest.length)
      have more : a ≠ stop := holds_before holds (Nat.succ_pos rest.length)
      have tail : Holds stop (padded stop l) rest := by
        refine ⟨fun among => holds.clean (List.mem_cons_of_mem c among),?_,holds.ends⟩
        intro i inside
        exact holds.chars (i + 1) (Nat.succ_lt_succ inside)
      rw [List.takeWhile_cons_of_pos (by simpa using more),ih tail,first]

end

end MazeOS.Strings
