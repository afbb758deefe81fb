import Mathlib.Data.List.DropRight
import MazeOS.Strings
import MazeOS.Steps

/-!
How `execute` splits a command. Its four loops share one index of 16 bits, so
that they read the first 65536 bytes in a circle. `Starts` and `Takes` say where
each loop stops, and `split_parse` what comes out. There are such places unless
all of these bytes are spaces (`split_exists`), and the loops keep to their
arrays unless the arguments fill one (`parse_ok_iff`). On a command that is a
line of text they are the ends of its first word and of its arguments, so the
loops take the line apart into these (`parse_line`).
-/
namespace MazeOS.Commands
open MazeOS.Runs MazeOS.Bytes MazeOS.Strings MazeOS.Faults MazeOS.Filesystem MazeOS.State MazeOS.Display MazeOS.Syscalls
  MazeOS.Steps

/-! ### Lines -/

/-- A byte that ends a command. -/
def Ends (c : UInt8) : Prop := c = newline ∨ c = 0

/-- A byte that ends the first word. -/
def WordEnds (c : UInt8) : Prop := c = space ∨ c = newline ∨ c = 0

instance (c : UInt8) : Decidable (Ends c) := inferInstanceAs (Decidable (_ ∨ _))
instance (c : UInt8) : Decidable (WordEnds c) := inferInstanceAs (Decidable (_ ∨ _))

/-- The first word of a command: the bytes before the one that ends it. -/
structure Begins (command : Nat → UInt8) (word : List UInt8) : Prop where
  clean : ∀ c, c ∈ word → ¬ WordEnds c
  chars : ∀ i (inside : i < word.length), command i = word[i]
  ends : WordEnds (command word.length)

/-- The command is a line of text and the byte that ends it. -/
structure Typed (command : Nat → UInt8) (input : List UInt8) : Prop where
  clean : ∀ c, c ∈ input → ¬ Ends c
  chars : ∀ i (inside : i < input.length), command i = input[i]
  ends : Ends (command input.length)

def firstWord (input : List UInt8) : List UInt8 := input.takeWhile (· ≠ space)

/-- A text without the spaces around it. -/
def trim (text : List UInt8) : List UInt8 := (text.dropWhile (· = space)).rdropWhile (· = space)

/-- The arguments: what follows the first word, without the spaces around it. -/
def argText (input : List UInt8) : List UInt8 := trim (input.dropWhile (· ≠ space))

/-! ### The loops -/

section
variable {command : Nat → UInt8}

theorem space_not_ends {c : UInt8} (ends : Ends c) : c ≠ space := by
  rcases ends with rfl | rfl <;> decide

theorem wordEnd_eq {left i n : Nat} (few : n ≤ left) (word : ∀ j, j < n → ¬ WordEnds (command (i + j)))
    (ends : n < left → WordEnds (command (i + n))) : wordEnd command left i = i + n := by
  induction left generalizing i n with
  | zero =>
    obtain rfl : n = 0 := by omega
    rfl
  | succ left ih =>
    cases n with
    | zero => exact if_pos (ends (Nat.succ_pos left))
    | succ n =>
      have more : ¬ (command i = space ∨ command i = newline ∨ command i = 0) := word 0 (Nat.succ_pos n)
      have shift : ∀ j, i + 1 + j = i + (j + 1) := fun j => by omega
      rw [wordEnd,if_neg more,← shift n]
      refine ih (show n ≤ left by omega) ?_ ?_
      · intro j inside
        rw [shift]
        exact word (j + 1) (by omega)
      · intro inside
        rw [shift]
        exact ends (by omega)

/-- The next index of 16 bits. -/
theorem next_index (i j : Nat) : ((i + 1) % 2 ^ 16 + j) % 2 ^ 16 = (i + (j + 1)) % 2 ^ 16 := by omega

theorem skipSpaces_eq {fuel i n : Nat} (enough : n < fuel) (small : i < 2 ^ 16)
    (spaces : ∀ j, j < n → command ((i + j) % 2 ^ 16) = space) (ends : command ((i + n) % 2 ^ 16) ≠ space) :
    skipSpaces command fuel i = .ok ((i + n) % 2 ^ 16) := by
  induction fuel generalizing i n with
  | zero => omega
  | succ fuel ih =>
    have here : (i + 0) % 2 ^ 16 = i := Nat.mod_eq_of_lt small
    cases n with
    | zero =>
      rw [here] at ends
      rw [skipSpaces,if_neg ends,here]
    | succ n =>
      have first := spaces 0 (Nat.succ_pos n)
      rw [here] at first
      have rest : ∀ j, j < n → command (((i + 1) % 2 ^ 16 + j) % 2 ^ 16) = space := by
        intro j inside
        rw [next_index]
        exact spaces (j + 1) (by omega)
      rw [← next_index] at ends ⊢
      rw [skipSpaces,if_pos first]
      exact ih (by omega) (Nat.mod_lt _ (by decide)) rest ends

/-- Where all bytes are spaces, the loop over the spaces does not end. -/
theorem skipSpaces_diverges (spaces : ∀ i, i < 2 ^ 16 → command i = space) (fuel : Nat) {i : Nat} (small : i < 2 ^ 16) :
    skipSpaces command fuel i = .error .diverges := by
  induction fuel generalizing i with
  | zero => rfl
  | succ fuel ih =>
    rw [skipSpaces,if_pos (spaces i small)]
    exact ih (Nat.mod_lt _ (by decide))

/-- A single store is a copy of one value. -/
theorem update_eq_copyInto (args : Nat → UInt8) (length : Nat) (c : UInt8) :
    Function.update args length c = copyInto args length (fun _ => c) 1 := by
  funext a
  by_cases same : a = length
  · subst same
    rw [Function.update_self,copyInto_inside (Nat.le_refl a) (Nat.lt_succ_self a)]
  · rw [Function.update_of_ne same,copyInto_outside (by omega)]

theorem copyArgs_eq {left i n : Nat} (args : Nat → UInt8) (length : Nat) (few : n ≤ left) (small : i < 2 ^ 16)
    (inside : ∀ j, j < n → ¬ Ends (command ((i + j) % 2 ^ 16))) (ends : n < left → Ends (command ((i + n) % 2 ^ 16))) :
    copyArgs command left i args length =
      ((i + n) % 2 ^ 16,copyInto args length (fun j => command ((i + j) % 2 ^ 16)) n,length + n) := by
  have here : (i + 0) % 2 ^ 16 = i := Nat.mod_eq_of_lt small
  induction left generalizing i n args length with
  | zero =>
    obtain rfl : n = 0 := by omega
    rw [copyArgs,here,copyInto_zero,Nat.add_zero]
  | succ left ih =>
    cases n with
    | zero =>
      have stops := ends (Nat.succ_pos left)
      rw [here] at stops
      have stops' : command i = newline ∨ command i = 0 := stops
      rw [copyArgs,if_pos stops',here,copyInto_zero,Nat.add_zero]
    | succ n =>
      have more := inside 0 (Nat.succ_pos n)
      rw [here] at more
      have more' : ¬ (command i = newline ∨ command i = 0) := more
      have rest : ∀ j, j < n → ¬ Ends (command (((i + 1) % 2 ^ 16 + j) % 2 ^ 16)) := by
        intro j before
        rw [next_index]
        exact inside (j + 1) (by omega)
      have small' : (i + 1) % 2 ^ 16 < 2 ^ 16 := Nat.mod_lt _ (by decide)
      have next := ih (Function.update args length (command i)) (length + 1) (show n ≤ left by omega) small' rest
        (fun short => by rw [next_index]; exact ends (by omega)) (Nat.mod_eq_of_lt small')
      rw [copyArgs,if_neg more',next,next_index,update_eq_copyInto,copyInto_append args length 1 n,Nat.add_comm 1 n,
        Nat.add_assoc,Nat.add_comm 1 n]
      · intro j first
        obtain rfl : j = 0 := by omega
        rw [here]
      · intro j _
        rw [next_index,Nat.add_comm 1 j]

/-- The loop that strips the spaces goes back to the last byte that is none. -/
theorem stripSpaces_eq {fuel start count kept : Nat} (enough : count - kept < fuel) (small : count < 2 ^ 16)
    (some : 0 < kept) (within : kept ≤ count)
    (spaces : ∀ j, kept ≤ j → j < count → command ((start + j) % 2 ^ 16) = space)
    (last : command ((start + (kept - 1)) % 2 ^ 16) ≠ space) :
    stripSpaces command fuel ((start + (count - 1)) % 2 ^ 16) count = .ok kept := by
  induction fuel generalizing count with
  | zero => omega
  | succ fuel ih =>
    by_cases ended : kept = count
    · subst ended
      rw [stripSpaces,if_neg last]
    · have index : ((start + (count - 1)) % 2 ^ 16 + (2 ^ 16 - 1)) % 2 ^ 16 = (start + (count - 1 - 1)) % 2 ^ 16 := by omega
      have length : (count + (2 ^ 16 - 1)) % 2 ^ 16 = count - 1 := by omega
      rw [stripSpaces,if_pos (spaces (count - 1) (by omega) (by omega)),index,length]
      exact ih (by omega) (by omega) (by omega) fun j low high => spaces j low (by omega)

end

/-! ### Where the loops stop -/

/-- The first `w` bytes are taken as the first word, and `n` spaces follow. -/
structure Starts (command : Nat → UInt8) (w n : Nat) : Prop where
  short : w ≤ filenameSize
  word : ∀ i, i < w → ¬ WordEnds (command i)
  wordEnds : w < filenameSize → WordEnds (command w)
  few : n < 2 ^ 16
  spaces : ∀ j, j < n → command ((w + j) % 2 ^ 16) = space
  first : command ((w + n) % 2 ^ 16) ≠ space

/-- From the index `start` on, `count` bytes are copied as arguments, of which
    `kept` are left when the spaces at the end are stripped. -/
structure Takes (command : Nat → UInt8) (start count kept : Nat) : Prop where
  within : count ≤ argsLength
  inside : ∀ j, j < count → ¬ Ends (command ((start + j) % 2 ^ 16))
  ends : count < argsLength → Ends (command ((start + count) % 2 ^ 16))
  fewer : kept ≤ count
  spaces : ∀ j, kept ≤ j → j < count → command ((start + j) % 2 ^ 16) = space
  last : 0 < count → 0 < kept ∧ command ((start + (kept - 1)) % 2 ^ 16) ≠ space

theorem starts_congr {command other : Nat → UInt8} {w n : Nat} (starts : Starts command w n)
    (word : ∀ i, i ≤ w → other i = command i)
    (gap : ∀ j, j ≤ n → other ((w + j) % 2 ^ 16) = command ((w + j) % 2 ^ 16)) : Starts other w n := by
  refine ⟨starts.short,?_,?_,starts.few,?_,?_⟩
  · intro i inside
    rw [word i (Nat.le_of_lt inside)]
    exact starts.word i inside
  · intro inside
    rw [word w (Nat.le_refl w)]
    exact starts.wordEnds inside
  · intro j inside
    rw [gap j (Nat.le_of_lt inside)]
    exact starts.spaces j inside
  · rw [gap n (Nat.le_refl n)]
    exact starts.first

theorem takes_congr {command other : Nat → UInt8} {start count kept : Nat} (takes : Takes command start count kept)
    (same : ∀ j, j ≤ count → other ((start + j) % 2 ^ 16) = command ((start + j) % 2 ^ 16)) :
    Takes other start count kept := by
  have fewer := takes.fewer
  refine ⟨takes.within,?_,?_,fewer,?_,?_⟩
  · intro j inside
    rw [same j (Nat.le_of_lt inside)]
    exact takes.inside j inside
  · intro inside
    rw [same count (Nat.le_refl count)]
    exact takes.ends inside
  · intro j low high
    rw [same j (Nat.le_of_lt high)]
    exact takes.spaces j low high
  · intro some
    rw [same (kept - 1) (by omega)]
    exact takes.last some

/-- The local array `args` after the loops. -/
def argsArray (command : Nat → UInt8) (start count kept : Nat) : Nat → UInt8 :=
  Function.update (copyInto (fun _ => 0) 0 (fun j => command ((start + j) % 2 ^ 16)) count) kept 0

section
variable {command : Nat → UInt8} {w n count kept fuel : Nat}

/-- What the loops make of a command. -/
theorem split_parse (starts : Starts command w n) (takes : Takes command (w + n) count kept) (enough : 2 ^ 16 ≤ fuel) :
    parseCommand fuel command =
      if kept < argsLength then .ok ⟨copyInto (fun _ => 0) 0 command w,argsArray command (w + n) count kept,kept⟩
      else .error (.args kept) := by
  have short : w ≤ 32 := starts.short
  have few := starts.few
  have within : count ≤ 128 := takes.within
  have word : wordEnd command filenameSize 0 = w := by
    rw [wordEnd_eq starts.short,Nat.zero_add]
    · intro j inside
      rw [Nat.zero_add]
      exact starts.word j inside
    · intro inside
      rw [Nat.zero_add]
      exact starts.wordEnds inside
  have start : skipSpaces command fuel w = .ok ((w + n) % 2 ^ 16) :=
    skipSpaces_eq (by omega) (by omega) starts.spaces starts.first
  have index : ∀ j, ((w + n) % 2 ^ 16 + j) % 2 ^ 16 = (w + n + j) % 2 ^ 16 := fun j => Nat.mod_add_mod _ _ _
  have copied : copyArgs command argsLength ((w + n) % 2 ^ 16) (fun _ => 0) 0 =
      ((w + n + count) % 2 ^ 16,copyInto (fun _ => 0) 0 (fun j => command ((w + n + j) % 2 ^ 16)) count,count) := by
    rw [copyArgs_eq _ _ takes.within (Nat.mod_lt _ (by decide))]
    · simp only [index,Nat.zero_add]
    · intro j inside
      rw [index]
      exact takes.inside j inside
    · intro inside
      rw [index]
      exact takes.ends inside
  simp only [parseCommand,word,start,ok_bind,copied]
  by_cases none : count = 0
  · subst none
    have nothing : kept = 0 := Nat.le_zero.mp takes.fewer
    subst nothing
    have array : argsArray command (w + n) 0 0 = fun _ => 0 := by
      rw [argsArray,copyInto_zero]
      exact Function.update_eq_self _ _
    rw [if_neg (not_not.mpr rfl),if_pos (show 0 < argsLength by decide),array,copyInto_zero]
  · obtain ⟨some,last⟩ := takes.last (Nat.pos_of_ne_zero none)
    have back : ((w + n + count) % 2 ^ 16 + (2 ^ 16 - 1)) % 2 ^ 16 = (w + n + (count - 1)) % 2 ^ 16 := by omega
    rw [if_pos none,back,stripSpaces_eq (by omega) (by omega) some takes.fewer takes.spaces last,ok_bind]
    rfl

theorem starts_exists (other : ∃ i, i < 2 ^ 16 ∧ command i ≠ space) : ∃ w n, Starts command w n := by
  obtain ⟨w,short,word,ends⟩ := streak_exists (fun i => ¬ WordEnds (command i)) filenameSize
  obtain ⟨n,atMost,spaces,first⟩ := streak_exists (fun j => command ((w + j) % 2 ^ 16) = space) (2 ^ 16)
  have small : w ≤ 32 := short
  have few : n < 2 ^ 16 := by
    refine Nat.lt_of_le_of_ne atMost fun all => ?_
    obtain ⟨i,inside,differs⟩ := other
    have index : (w + (i + (2 ^ 16 - w)) % 2 ^ 16) % 2 ^ 16 = i := by omega
    have here := spaces ((i + (2 ^ 16 - w)) % 2 ^ 16) (by omega)
    rw [index] at here
    exact differs here
  exact ⟨w,n,short,word,fun inside => not_not.mp (ends inside),few,spaces,first few⟩

theorem takes_exists {start : Nat} (first : command (start % 2 ^ 16) ≠ space) :
    ∃ count kept, Takes command start count kept := by
  obtain ⟨count,within,inside,ends⟩ := streak_exists (fun j => ¬ Ends (command ((start + j) % 2 ^ 16))) argsLength
  obtain ⟨m,atMost,spaces,last⟩ := streak_exists (fun j => command ((start + (count - 1 - j)) % 2 ^ 16) = space) count
  refine ⟨count,count - m,within,inside,fun short => not_not.mp (ends short),Nat.sub_le _ _,?_,?_⟩
  · intro j low high
    have here := spaces (count - 1 - j) (by omega)
    have index : count - 1 - (count - 1 - j) = j := by omega
    rwa [index] at here
  · intro some
    have fewer : m < count := by
      refine Nat.lt_of_le_of_ne atMost fun all => ?_
      have here := spaces (count - 1) (by omega)
      rw [Nat.sub_self,Nat.add_zero] at here
      exact first here
    have index : count - m - 1 = count - 1 - m := by omega
    rw [index]
    exact ⟨by omega,last fewer⟩

/-- Where there is a byte that is no space, the loops stop somewhere. -/
theorem split_exists (other : ∃ i, i < 2 ^ 16 ∧ command i ≠ space) :
    ∃ w n count kept, Starts command w n ∧ Takes command (w + n) count kept := by
  obtain ⟨w,n,starts⟩ := starts_exists other
  obtain ⟨count,kept,takes⟩ := takes_exists starts.first
  exact ⟨w,n,count,kept,starts,takes⟩

end

/-- The arguments are at least 128 bytes, the last of which is no space. -/
def ArgsFull (command : Nat → UInt8) : Prop :=
  ∃ w n, Starts command w n ∧ (∀ j, j < argsLength → ¬ Ends (command ((w + n + j) % 2 ^ 16))) ∧
    command ((w + n + (argsLength - 1)) % 2 ^ 16) ≠ space

section
variable {command : Nat → UInt8} {fuel : Nat}

theorem parse_diverges (spaces : ∀ i, i < 2 ^ 16 → command i = space) (fuel : Nat) :
    parseCommand fuel command = .error .diverges := by
  have word : wordEnd command filenameSize 0 = 0 := if_pos (.inl (spaces 0 (by decide)))
  have loops : skipSpaces command fuel 0 = .error .diverges := skipSpaces_diverges spaces fuel (by decide)
  simp only [parseCommand,word,loops]
  rfl

/-- The terminator of arguments that fill their array is stored after it. -/
theorem parse_overflows (full : ArgsFull command) (enough : 2 ^ 16 ≤ fuel) :
    parseCommand fuel command = .error (.args argsLength) := by
  obtain ⟨w,n,starts,inside,last⟩ := full
  have takes : Takes command (w + n) argsLength argsLength :=
    ⟨Nat.le_refl _,inside,fun less => absurd less (Nat.lt_irrefl _),Nat.le_refl _,fun j low high => absurd high (by omega),
      fun _ => ⟨by decide,last⟩⟩
  rw [split_parse starts takes enough,if_neg (Nat.lt_irrefl _)]

/-- The loops end, and keep to their arrays, exactly if not all bytes are spaces
    and the arguments leave room for their terminator. -/
theorem parse_ok_iff (enough : 2 ^ 16 ≤ fuel) : (∃ parsed, parseCommand fuel command = .ok parsed) ↔
    (∃ i, i < 2 ^ 16 ∧ command i ≠ space) ∧ ¬ ArgsFull command := by
  constructor
  · rintro ⟨parsed,parses⟩
    constructor
    · by_contra none
      have spaces : ∀ i, i < 2 ^ 16 → command i = space := fun i inside => by_contra fun other => none ⟨i,inside,other⟩
      rw [parse_diverges spaces] at parses
      cases parses
    · intro full
      rw [parse_overflows full enough] at parses
      cases parses
  · rintro ⟨other,room⟩
    obtain ⟨w,n,count,kept,starts,takes⟩ := split_exists other
    by_cases short : kept < argsLength
    · exact ⟨_,(split_parse starts takes enough).trans (if_pos short)⟩
    · have within := takes.within
      have fewer := takes.fewer
      obtain rfl : count = argsLength := by omega
      obtain rfl : kept = argsLength := by omega
      exact absurd ⟨w,n,starts,takes.inside,(takes.last (by decide)).2⟩ room

/-- The name that is looked up. -/
theorem parse_filename {parsed : Parsed} (parses : parseCommand fuel command = .ok parsed) :
    parsed.filename = copyInto (fun _ => 0) 0 command (wordEnd command filenameSize 0) := by
  obtain ⟨start,_,rest⟩ := bind_eq_ok.mp parses
  generalize copyArgs command argsLength start (fun _ => 0) 0 = copied at rest
  obtain ⟨i,args,length⟩ := copied
  simp only at rest
  split at rest
  · obtain ⟨stripped,_,ended⟩ := bind_eq_ok.mp rest
    split at ended
    · cases ended
      rfl
    · cases ended
  · cases rest
    rfl

theorem begins_not {word : List UInt8} (begins : Begins command word) {i : Nat} (inside : i < word.length) :
    ¬ WordEnds (command i) := by
  rw [begins.chars i inside]
  exact begins.clean _ (List.getElem_mem inside)

/-- The name is the first word, or its first 32 bytes. -/
theorem filename_eq {word : List UInt8} {parsed : Parsed} (begins : Begins command word)
    (parses : parseCommand fuel command = .ok parsed) : parsed.filename = padded 0 (word.take filenameSize) := by
  have ends : wordEnd command filenameSize 0 = (word.take filenameSize).length := by
    rw [List.length_take,wordEnd_eq (Nat.min_le_left _ _),Nat.zero_add]
    · intro j inside
      rw [Nat.zero_add]
      exact begins_not begins (by omega)
    · intro short
      have whole : min filenameSize word.length = word.length := by omega
      rw [Nat.zero_add,whole]
      exact begins.ends
  rw [parse_filename parses,ends]
  funext i
  by_cases inside : i < (word.take filenameSize).length
  · have within : i < word.length := by
      rw [List.length_take] at inside
      omega
    rw [copyInto_inside (Nat.zero_le i) (by omega),padded_inside inside,Nat.sub_zero,List.getElem_take]
    exact begins.chars i within
  · rw [copyInto_outside (by omega),padded_outside (by omega)]

end

/-! ### The parts of a line -/

/-- The spaces after the first word. -/
def gap (input : List UInt8) : List UInt8 := (input.dropWhile (· ≠ space)).takeWhile (· = space)

/-- What follows these spaces. -/
def body (input : List UInt8) : List UInt8 := (input.dropWhile (· ≠ space)).dropWhile (· = space)

section
variable {input : List UInt8}

theorem input_eq (input : List UInt8) : input = firstWord input ++ (gap input ++ body input) := by
  rw [gap,body,List.takeWhile_append_dropWhile,firstWord,List.takeWhile_append_dropWhile]

theorem body_eq (input : List UInt8) : body input = argText input ++ (body input).rtakeWhile (· = space) := by
  rw [argText,trim,← body,List.rdropWhile_append_rtakeWhile]

theorem gap_spaces {c : UInt8} (among : c ∈ gap input) : c = space := by
  simpa using List.mem_takeWhile_imp among

theorem body_head {c : UInt8} (first : (body input)[0]? = some c) : c ≠ space := by
  rintro rfl
  have head := List.head?_dropWhile_not (· = space) (input.dropWhile (· ≠ space))
  rw [List.head?_eq_getElem?] at head
  rw [body] at first
  rw [first] at head
  simp at head

/-- The body has an argument unless it is empty. -/
theorem body_empty (none : argText input = []) : body input = [] := by
  by_contra some
  have all := List.rdropWhile_eq_nil_iff.mp none
  have positive : 0 < (body input).length := List.length_pos_iff.mpr some
  have first := List.getElem?_eq_getElem positive
  have here := all _ (List.getElem_mem positive)
  exact body_head first (by simpa using here)

theorem argText_last {c : UInt8} (last : (argText input)[(argText input).length - 1]? = some c) : c ≠ space := by
  have nonempty : argText input ≠ [] := by
    intro none
    rw [none] at last
    cases last
  have stops : ¬ decide ((argText input).getLast nonempty = space) := List.rdropWhile_last_not (· = space) _ nonempty
  rw [← List.getLast?_eq_getElem?,List.getLast?_eq_getLast_of_ne_nil nonempty] at last
  rw [← Option.some.inj last]
  simpa using stops

/-! ### A line is taken apart into its parts -/

variable {command : Nat → UInt8}

theorem typed_get (typed : Typed command input) (small : input.length < 2 ^ 16) {i : Nat} (inside : i < input.length) :
    input[i]? = some (command (i % 2 ^ 16)) := by
  rw [Nat.mod_eq_of_lt (by omega),typed.chars i inside]
  exact List.getElem?_eq_getElem inside

theorem word_get {i : Nat} (inside : i < (firstWord input).length) : input[i]? = (firstWord input)[i]? :=
  (congrArg (fun l : List UInt8 => l[i]?) (input_eq input)).trans (List.getElem?_append_left inside)

/-- What follows the first word is a space. -/
theorem after_word {c : UInt8} (here : input[(firstWord input).length]? = some c) : c = space := by
  simpa using takeWhile_stops _ here

theorem gap_get {j : Nat} (inside : j < (gap input).length) : input[(firstWord input).length + j]? = (gap input)[j]? :=
  calc input[(firstWord input).length + j]?
      = (firstWord input ++ (gap input ++ body input))[(firstWord input).length + j]? :=
        congrArg (fun l : List UInt8 => l[(firstWord input).length + j]?) (input_eq input)
    _ = (gap input ++ body input)[j]? := by rw [List.getElem?_append_right (Nat.le_add_right _ _),Nat.add_sub_cancel_left]
    _ = (gap input)[j]? := List.getElem?_append_left inside

theorem body_get (input : List UInt8) (j : Nat) :
    input[(firstWord input).length + (gap input).length + j]? = (body input)[j]? :=
  calc input[(firstWord input).length + (gap input).length + j]?
      = (firstWord input ++ (gap input ++ body input))[(firstWord input).length + (gap input).length + j]? :=
        congrArg (fun l : List UInt8 => l[(firstWord input).length + (gap input).length + j]?) (input_eq input)
    _ = (body input)[j]? := by
        rw [← List.append_assoc,List.getElem?_append_right (by rw [List.length_append]; omega),List.length_append,
          Nat.add_sub_cancel_left]

theorem argText_get {j : Nat} (inside : j < (argText input).length) : (body input)[j]? = (argText input)[j]? :=
  calc (body input)[j]? = (argText input ++ (body input).rtakeWhile (· = space))[j]? :=
        congrArg (fun l : List UInt8 => l[j]?) (body_eq input)
    _ = (argText input)[j]? := List.getElem?_append_left inside

/-- After the arguments there are only spaces. -/
theorem trailing_get {j : Nat} (after : (argText input).length ≤ j) {c : UInt8} (here : (body input)[j]? = some c) :
    c = space := by
  have whole : (body input)[j]? = (argText input ++ (body input).rtakeWhile (· = space))[j]? :=
    congrArg (fun l : List UInt8 => l[j]?) (body_eq input)
  rw [here,List.getElem?_append_right after] at whole
  simpa using List.mem_rtakeWhile_imp (List.mem_of_getElem? whole.symm)

theorem argText_length_le (input : List UInt8) : (argText input).length ≤ (body input).length := by
  have parts := congrArg List.length (body_eq input)
  rw [List.length_append] at parts
  omega

theorem input_length (input : List UInt8) :
    input.length = (firstWord input).length + (gap input).length + (body input).length := by
  have long := congrArg List.length (input_eq input)
  simp only [List.length_append] at long
  omega

theorem typed_begins (typed : Typed command input) : Begins command (firstWord input) := by
  have size := input_length input
  have get : ∀ i, i < input.length → input[i]? = some (command i) := by
    intro i inside
    rw [typed.chars i inside]
    exact List.getElem?_eq_getElem inside
  refine ⟨?_,?_,?_⟩
  · rintro c among (blank | ends)
    · have solid := List.mem_takeWhile_imp among
      exact absurd blank (by simpa using solid)
    · exact typed.clean c (List.takeWhile_subset _ among) ends
  · intro i inside
    have here := (word_get inside).symm.trans (get i (by omega))
    rw [List.getElem?_eq_getElem inside] at here
    exact (Option.some.inj here).symm
  · by_cases more : (firstWord input).length < input.length
    · exact .inl (after_word (get _ more))
    · have index : (firstWord input).length = input.length := by omega
      rw [index]
      exact .inr typed.ends

theorem typed_starts (typed : Typed command input) (small : input.length < 2 ^ 16)
    (short : (firstWord input).length ≤ filenameSize) : Starts command (firstWord input).length (gap input).length := by
  have size := input_length input
  have begins := typed_begins typed
  refine ⟨short,fun _ inside => begins_not begins inside,fun _ => begins.ends,by omega,?_,?_⟩
  · intro j inside
    have here := gap_get inside
    rw [typed_get typed small (by omega)] at here
    exact gap_spaces (List.mem_of_getElem? here.symm)
  · -- Behind the gap comes the first byte of the body, or the end of the command.
    by_cases more : 0 < (body input).length
    · have here := body_get input 0
      rw [Nat.add_zero,typed_get typed small (by omega)] at here
      exact body_head here.symm
    · have index : ((firstWord input).length + (gap input).length) % 2 ^ 16 = input.length := by omega
      rw [index]
      exact space_not_ends typed.ends

theorem typed_takes (typed : Typed command input) (small : input.length < 2 ^ 16)
    (short : (argText input).length < argsLength) :
    Takes command ((firstWord input).length + (gap input).length) (min (body input).length argsLength)
      (argText input).length := by
  have size := input_length input
  have longer := argText_length_le input
  have get : ∀ j, j < (body input).length →
      (body input)[j]? = some (command (((firstWord input).length + (gap input).length + j) % 2 ^ 16)) := by
    intro j inside
    rw [← body_get,typed_get typed small (by omega)]
  refine ⟨Nat.min_le_right _ _,?_,?_,by omega,?_,?_⟩
  · intro j inside
    have here := typed_get typed small (show (firstWord input).length + (gap input).length + j < input.length by omega)
    exact typed.clean _ (List.mem_of_getElem? here)
  · intro inside
    have index : ((firstWord input).length + (gap input).length + min (body input).length argsLength) % 2 ^ 16 =
        input.length := by omega
    rw [index]
    exact typed.ends
  · intro j low high
    exact trailing_get low (get j (by omega))
  · intro some
    have positive : 0 < (argText input).length := by
      by_contra none
      have empty := body_empty (List.eq_nil_of_length_eq_zero (Nat.eq_zero_of_not_pos none))
      rw [empty] at some
      exact absurd some (Nat.lt_irrefl 0)
    have here := argText_get (show (argText input).length - 1 < (argText input).length by omega)
    rw [get _ (by omega)] at here
    exact ⟨positive,argText_last here.symm⟩

/-- A line whose first word and arguments have room is taken apart into them. -/
theorem parse_line (typed : Typed command input) (small : input.length < 2 ^ 16)
    (word : (firstWord input).length ≤ filenameSize) (args : (argText input).length < argsLength) {fuel : Nat}
    (enough : 2 ^ 16 ≤ fuel) :
    ∃ parsed, parseCommand fuel command = .ok parsed ∧ parsed.filename = padded 0 (firstWord input) ∧
      parsed.argsLength = (argText input).length ∧
      ∀ pid parent, (newPcb pid parent parsed).args = padded 0 (argText input) := by
  have size := input_length input
  have parses := split_parse (typed_starts typed small word) (typed_takes typed small args) enough
  rw [if_pos args] at parses
  refine ⟨_,parses,?_,rfl,?_⟩
  · rw [filename_eq (typed_begins typed) parses,List.take_of_length_le word]
  · intro pid parent
    funext i
    simp only [newPcb]
    by_cases none : (argText input).length = 0
    · rw [if_neg (not_not.mpr none),padded_outside (by omega)]
    · rw [if_pos none,argsArray]
      by_cases inside : i < (argText input).length
      · have longer := argText_length_le input
        rw [copyInto_inside (Nat.zero_le i) (by omega),Nat.sub_zero,Function.update_of_ne (by omega),
          copyInto_inside (Nat.zero_le i) (by omega),Nat.sub_zero,padded_inside inside]
        have here := argText_get inside
        rw [← body_get,typed_get typed small (by omega),List.getElem?_eq_getElem inside] at here
        exact Option.some.inj here
      · rw [padded_outside (by omega)]
        by_cases last : i = (argText input).length
        · subst last
          rw [copyInto_inside (Nat.zero_le _) (by omega),Nat.sub_zero,Function.update_self]
        · rw [copyInto_outside (by omega)]

end

end MazeOS.Commands
