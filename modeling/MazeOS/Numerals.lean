import Mathlib.Data.List.Induction
import Mathlib.Data.Nat.Digits.Lemmas

/-!
Conversion of numbers to text in `lib.c`. A buffer is the list of the bytes from
a pointer to the end of its array, and a function that leaves the array has no
result. `itoa` produces digits by division, lowest first, and reverses them in
place (`putDigits_eq`, `swapLoop_eq`); the text is the numeral of the value
(`itoa_eq`), in any buffer with room for it.
-/
namespace MazeOS.Numerals

/-! ### Functions of `lib.c` -/

/-- The table `lookup` of `itoa`: the ten digits and the capital letters. -/
def lookup : List UInt8 :=
  [48,49,50,51,52,53,54,55,56,57,65,66,67,68,69,70,71,72,73,74,75,76,77,78,79,80,81,82,83,84,85,86,87,88,89,90]

/-- `strlen` of the string at the start of a buffer. -/
def strlen : List UInt8 → Option Nat
  | [] => none
  | c :: rest => if c = 0 then some 0 else (strlen rest).map (· + 1)

/-- `s[i] = c`. -/
def storeAt (s : List UInt8) (i : Nat) (c : UInt8) : Option (List UInt8) :=
  if i < s.length then some (s.set i c) else none

/-- The loop of `strrev` that swaps the characters at both ends. -/
def swapLoop (s : List UInt8) (first last : Int) : Option (List UInt8) :=
  if first < last then
    s[last.toNat]?.bind fun tmp =>
    s[first.toNat]?.bind fun c =>
    (storeAt s last.toNat c).bind fun s =>
    (storeAt s first.toNat tmp).bind fun s => swapLoop s (first + 1) (last - 1)
  else some s
termination_by (last - first).toNat
decreasing_by omega

/-- `strrev`. -/
def strrev (s : List UInt8) : Option (List UInt8) := (strlen s).bind fun length => swapLoop s 0 ((length : Int) - 1)

/-- The loop of `itoa` from `newbuf` on, and the NUL after it, for a radix other
    than 0. -/
def putDigits (radix : Nat) : Nat → List UInt8 → Option (List UInt8)
  | _, [] => none
  | newval, _ :: rest =>
    if newval > 0 then
      lookup[newval % radix]?.bind fun c => (putDigits radix (newval / radix) rest).map (c :: ·)
    else some (0 :: rest)

/-- `itoa`. -/
def itoa (value : UInt32) (buf : List UInt8) (radix : Nat) : Option (List UInt8) :=
  if value = 0 then (storeAt buf 0 48).bind fun buf => storeAt buf 1 0
  else (putDigits radix value.toNat buf).bind strrev

/-! ### Numerals -/

/-- The character of a digit. -/
def digitChar (digit : Nat) : UInt8 := lookup.getD digit 0

/-- The digits of a number, the highest first; those of 0 are a single 0. -/
def digitsOf (radix n : Nat) : List Nat := if n = 0 then [0] else (Nat.digits radix n).reverse

def numeral (radix n : Nat) : List UInt8 := (digitsOf radix n).map digitChar

section
variable {radix n : Nat}

theorem digitsOf_lt (valid : 2 ≤ radix) {digit : Nat} (among : digit ∈ digitsOf radix n) : digit < radix := by
  simp only [digitsOf] at among
  split at among
  · obtain rfl := List.mem_singleton.mp among
    omega
  · exact Nat.digits_lt_base valid (List.mem_reverse.mp among)

/-- The digits denote the number. -/
theorem digitsOf_value (radix n : Nat) : Nat.ofDigits radix (digitsOf radix n).reverse = n := by
  simp only [digitsOf]
  split
  · rename_i zero
    simp [zero]
  · rw [List.reverse_reverse,Nat.ofDigits_digits]

/-- Only 0 starts with a 0. -/
theorem digitsOf_head (nonzero : n ≠ 0) : (digitsOf radix n).head? ≠ some 0 := by
  rw [digitsOf,if_neg nonzero,List.head?_reverse]
  intro zero
  have last := Nat.getLast_digit_ne_zero radix nonzero
  rw [List.getLast?_eq_some_getLast (Nat.digits_ne_nil_iff_ne_zero.mpr nonzero)] at zero
  exact last (Option.some.inj zero)

theorem digitsOf_ne_nil : digitsOf radix n ≠ [] := by
  simp only [digitsOf]
  split
  · simp
  · rename_i nonzero
    simpa using Nat.digits_ne_nil_iff_ne_zero.mpr nonzero

/-- A number below `radix ^ count` has at most `count` digits. -/
theorem digitsOf_length (valid : 2 ≤ radix) {count : Nat} (some : 1 ≤ count) (small : n < radix ^ count) :
    (digitsOf radix n).length ≤ count := by
  simp only [digitsOf]
  split
  · exact some
  · rw [List.length_reverse]
    exact (Nat.digits_length_le_iff valid n).mpr small

end

/-! ### The loops -/

theorem strlen_text {text : List UInt8} (clean : (0 : UInt8) ∉ text) (rest : List UInt8) :
    strlen (text ++ 0 :: rest) = some text.length := by
  induction text with
  | nil => rfl
  | cons c text ih =>
    obtain ⟨nonzero,clean⟩ := List.ne_and_not_mem_of_not_mem_cons clean
    rw [List.cons_append,strlen,if_neg (Ne.symm nonzero),ih clean]
    rfl

theorem storeAt_middle (before after : List UInt8) (old c : UInt8) :
    storeAt (before ++ old :: after) before.length c = some (before ++ c :: after) := by
  have inside : before.length < (before ++ old :: after).length := by simp
  rw [storeAt,if_pos inside,List.set_append_right _ _ (Nat.le_refl _),Nat.sub_self,List.set_cons_zero]

theorem load_middle (before after : List UInt8) (c : UInt8) : (before ++ c :: after)[before.length]? = some c := by
  simp

/-- One turn of the loop, for characters that have `inner` between them. -/
theorem swapLoop_step (before inner after : List UInt8) (first last : UInt8) :
    swapLoop (before ++ first :: (inner ++ last :: after)) before.length (before.length + inner.length + 1) =
      swapLoop (before ++ last :: (inner ++ first :: after)) (before.length + 1) (before.length + inner.length) := by
  have more : (before.length : Int) < before.length + inner.length + 1 := by omega
  have place : ((before.length : Int) + inner.length + 1).toNat = (before ++ first :: inner).length := by
    simp only [List.length_append,List.length_cons]
    omega
  have shape (c : UInt8) : before ++ first :: (inner ++ c :: after) = (before ++ first :: inner) ++ c :: after := by
    simp
  have again : (before.length : Int) + inner.length + 1 - 1 = before.length + inner.length := by omega
  rw [swapLoop,if_pos more,place,Int.toNat_natCast,shape,load_middle,Option.bind_some,← shape,load_middle,
    Option.bind_some,shape,storeAt_middle,Option.bind_some,← shape,storeAt_middle,Option.bind_some,again]

/-- The loop swaps the ends of what is not yet reversed, until they meet. -/
theorem swapLoop_eq (before middle after : List UInt8) :
    swapLoop (before ++ (middle ++ after)) before.length (before.length + middle.length - 1) =
      some (before ++ (middle.reverse ++ after)) := by
  induction middle using List.bidirectionalRec generalizing before after with
  | nil =>
    rw [swapLoop,if_neg (by simp only [List.length_nil]; omega)]
    rfl
  | singleton c =>
    rw [swapLoop,if_neg (by simp only [List.length_singleton]; omega)]
    rfl
  | cons_append first inner last ih =>
    have shape : before ++ (first :: (inner ++ [last]) ++ after) = before ++ first :: (inner ++ last :: after) := by
      simp
    have ends : (before.length : Int) + (first :: (inner ++ [last])).length - 1 = before.length + inner.length + 1 := by
      simp only [List.length_cons,List.length_append,List.length_nil]
      omega
    have further := ih (before ++ [last]) (first :: after)
    have start : ((before ++ [last]).length : Int) = before.length + 1 := by simp
    have stop : (before.length : Int) + 1 + inner.length - 1 = before.length + inner.length := by omega
    rw [start,stop,List.append_assoc,List.append_assoc,List.singleton_append,List.singleton_append] at further
    rw [shape,ends,swapLoop_step,further]
    simp

theorem strrev_text {text : List UInt8} (clean : (0 : UInt8) ∉ text) (rest : List UInt8) :
    strrev (text ++ 0 :: rest) = some (text.reverse ++ 0 :: rest) := by
  have reversed := swapLoop_eq [] text (0 :: rest)
  simp only [List.nil_append,List.length_nil,Int.natCast_zero,Int.zero_add] at reversed
  rw [strrev,strlen_text clean,Option.bind_some,reversed]

/-! ### `itoa` -/

theorem lookup_digit {digit : Nat} (small : digit < 36) : lookup[digit]? = some (digitChar digit) := by
  have inside : digit < lookup.length := small
  rw [digitChar,List.getD_eq_getElem?_getD,List.getElem?_eq_getElem inside]
  rfl

theorem digitChar_nonzero {digit : Nat} (small : digit < 36) : digitChar digit ≠ 0 := by
  have all : ∀ digit, digit < 36 → digitChar digit ≠ 0 := by decide
  exact all digit small

/-- The division loop writes the digits, the lowest first, and a NUL. -/
theorem putDigits_eq {radix : Nat} (low : 2 ≤ radix) (high : radix ≤ 36) (n : Nat) {buf : List UInt8}
    (room : (Nat.digits radix n).length < buf.length) : putDigits radix n buf =
      some ((Nat.digits radix n).map digitChar ++ 0 :: buf.drop ((Nat.digits radix n).length + 1)) := by
  induction n using Nat.strong_induction_on generalizing buf with
  | _ n ih =>
  cases buf with
  | nil => simp at room
  | cons c rest =>
    rcases Nat.eq_zero_or_pos n with zero | positive
    · subst zero
      simp [putDigits]
    · have digit : n % radix < radix := Nat.mod_lt _ (by omega)
      rw [Nat.digits_def' (by omega) positive,List.length_cons] at room
      rw [List.length_cons] at room
      rw [putDigits,if_pos positive,lookup_digit (by omega),Option.bind_some,
        ih (n / radix) (Nat.div_lt_self positive (by omega)) (by omega),Nat.digits_def' (by omega) positive]
      rfl

theorem numeral_clean {radix : Nat} (low : 2 ≤ radix) (high : radix ≤ 36) (n : Nat) :
    (0 : UInt8) ∉ numeral radix n := by
  intro among
  obtain ⟨digit,inside,same⟩ := List.mem_map.mp among
  have small := digitsOf_lt low inside
  exact digitChar_nonzero (by omega) same

/-- `itoa` writes the numeral of the value and a NUL into any buffer with room
    for them, and nothing else. -/
theorem itoa_eq {radix : Nat} (low : 2 ≤ radix) (high : radix ≤ 36) (value : UInt32) {buf : List UInt8}
    (room : (numeral radix value.toNat).length < buf.length) : itoa value buf radix =
      some (numeral radix value.toNat ++ 0 :: buf.drop ((numeral radix value.toNat).length + 1)) := by
  by_cases zero : value = 0
  · subst zero
    have single : numeral radix (0 : UInt32).toNat = [48] := rfl
    rw [single] at room ⊢
    match buf,room with
    | _ :: _ :: rest,_ => rfl
  · have nonzero : value.toNat ≠ 0 := fun same => zero (UInt32.toNat_inj.mp same)
    have reversed : numeral radix value.toNat = ((Nat.digits radix value.toNat).map digitChar).reverse := by
      rw [numeral,digitsOf,if_neg nonzero,List.map_reverse]
    rw [reversed,List.length_reverse,List.length_map] at room ⊢
    have clean := numeral_clean low high value.toNat
    rw [reversed,List.mem_reverse] at clean
    rw [itoa,if_neg zero,putDigits_eq low high _ room,Option.bind_some,strrev_text clean]

end MazeOS.Numerals
