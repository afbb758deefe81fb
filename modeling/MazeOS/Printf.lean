import MazeOS.Display
import MazeOS.Machines
import MazeOS.Numerals
import MazeOS.Strings

/-!
`printf` of `lib.c`. The scan of the format is a machine whose states are the
position in the format, whether a conversion specifier is being read, the next
argument and what has been printed so far (`stepScan`). A format is a list of
pieces (`pieces`), each of which prints something and takes one argument or none
(`emitted`, `arguments`). The scan prints the pieces and stops at the NUL, unless
the format ends inside a specifier, and then it goes on behind the NUL
(`scan_pieces`, `scan_escapes`).
-/
namespace MazeOS.Printf
open MazeOS.Bytes MazeOS.Strings MazeOS.Machines MazeOS.Numerals

/-! ### Conversions -/

/-- The bytes that `puts` passes to `putc`, from a buffer. -/
def puts : List UInt8 → Option (List UInt8)
  | [] => none
  | c :: rest => if c = 0 then some [] else (puts rest).map (c :: ·)

/-- The loop that puts zeros before a converted number. -/
def padZeros (s : List UInt8) (i : Nat) : Option (List UInt8) :=
  if i < 8 then (storeAt s i 48).bind fun s => padZeros s (i + 1) else some s
termination_by 8 - i

/-- `%x`, and `%#x` where the specifier is alternate. -/
def printHex (alternate : Bool) (arg : UInt32) (convBuf : List UInt8) : Option (List UInt8) :=
  if alternate = false then (itoa arg convBuf 16).bind puts
  else
    (itoa arg (convBuf.drop 8) 16).bind fun converted =>
    (strlen converted).bind fun startingIndex =>
    (padZeros (convBuf.take 8 ++ converted) startingIndex).bind fun convBuf => puts (convBuf.drop startingIndex)

/-- `%u`. -/
def printUnsigned (arg : UInt32) (convBuf : List UInt8) : Option (List UInt8) := (itoa arg convBuf 10).bind puts

/-- `%d`. -/
def printSigned (arg : UInt32) (convBuf : List UInt8) : Option (List UInt8) :=
  let value := arg.toInt32
  if value < 0 then
    (storeAt convBuf 0 45).bind fun convBuf =>
    (itoa (-value).toUInt32 (convBuf.drop 1) 10).bind fun converted => puts (convBuf.take 1 ++ converted)
  else (itoa value.toUInt32 convBuf 10).bind puts

/-- `puts` of a pointer, for a string of fewer than `left` bytes. -/
def putsAt (mem : UInt32 → UInt8) : Nat → UInt32 → Option (List UInt8)
  | 0, _ => none
  | left + 1, s => if mem s = 0 then some [] else (putsAt mem left (s + 1)).map (mem s :: ·)

/-! ### The scan -/

/-- The conversions that take an argument. -/
inductive Kind where
  | hex
  | unsigned
  | signed
  | char
  | string
  deriving DecidableEq

/-- Memory when `printf` is called, none of which `putc` changes: the bytes at each
    address, the address of the format, the words that follow it on the stack, and
    what the arrays `conv_buf` hold when a position of the format is reached. -/
structure Call where
  mem : UInt32 → UInt8
  format : UInt32
  args : Nat → UInt32
  convHex : Nat → Vector UInt8 64
  convDec : Nat → Vector UInt8 36

/-- Where the scan is: in the main loop, or in the inner `switch`. -/
inductive Phase where
  | text
  | specifier (alternate : Bool)
  deriving DecidableEq

/-- The state of the scan; `buf` is counted from the format, and `esp` from the
    first argument. -/
structure Scan where
  buf : Nat
  phase : Phase
  esp : Nat
  out : List UInt8

/-- `buf[i]`. -/
def charAt (call : Call) (i : Nat) : UInt8 := call.mem (call.format + UInt32.ofNat i)

/-- The kind of a conversion character. -/
def kindOf (c : UInt8) : Option Kind :=
  if c = 120 then some .hex
  else if c = 117 then some .unsigned
  else if c = 100 then some .signed
  else if c = 99 then some .char
  else if c = 115 then some .string
  else none

/-- What is printed for an argument. -/
def convert (call : Call) (i : Nat) (alternate : Bool) (arg : UInt32) : Kind → Option (List UInt8)
  | .hex => printHex alternate arg (call.convHex i).toList
  | .unsigned => printUnsigned arg (call.convDec i).toList
  | .signed => printSigned arg (call.convDec i).toList
  | .char => some [arg.toUInt8]
  | .string => putsAt call.mem (2 ^ 32) arg

/-- One character of the format. -/
def stepScan (call : Call) (s : Scan) : Option Scan :=
  let c := charAt call s.buf
  match s.phase with
  | .text =>
    if c = 0 then none
    else if c = 37 then some { s with buf := s.buf + 1, phase := .specifier false }
    else some { s with buf := s.buf + 1, out := s.out ++ [c] }
  | .specifier alternate =>
    if c = 37 then some { s with buf := s.buf + 1, phase := .text, out := s.out ++ [37] }
    else if c = 35 then some { s with buf := s.buf + 1, phase := .specifier true }
    else
      match kindOf c with
      | some kind =>
        (convert call s.buf alternate (call.args s.esp) kind).map fun text =>
          ⟨s.buf + 1,.text,s.esp + 1,s.out ++ text⟩
      -- The default leaves the `switch`, also at the NUL of the format.
      | none => some { s with buf := s.buf + 1, phase := .text }

def startScan : Scan := ⟨0,.text,0,[]⟩

/-- The main loop ends at a NUL. -/
def Returned (call : Call) (s : Scan) : Prop := s.phase = .text ∧ charAt call s.buf = 0

/-- `buf - format`. -/
def returnValue (s : Scan) : Int32 := (UInt32.ofNat s.buf).toInt32

/-! ### What a format says -/

inductive Piece where
  | text (c : UInt8)
  | percent
  | conversion (kind : Kind) (alternate : Bool)
  /-- A specifier with another character, which prints nothing. -/
  | other (c : UInt8)
  deriving DecidableEq

/-- The phase behind a character. -/
def nextPhase : Phase → UInt8 → Phase
  | .text, c => if c = 37 then .specifier false else .text
  | .specifier _, c => if c = 35 then .specifier true else .text

/-- The phase at the end of a text. -/
def phaseAfter (phase : Phase) (format : List UInt8) : Phase := format.foldl nextPhase phase

/-- The piece that a character completes. -/
def pieceOf : Phase → UInt8 → Option Piece
  | .text, c => if c = 37 then none else some (.text c)
  | .specifier alternate, c =>
    if c = 37 then some .percent
    else if c = 35 then none
    else
      match kindOf c with
      | some kind => some (.conversion kind alternate)
      | none => some (.other c)

def pieces (phase : Phase) : List UInt8 → List Piece
  | [] => []
  | c :: rest => (pieceOf phase c).toList ++ pieces (nextPhase phase c) rest

/-- The string that a pointer points to. -/
def stringAt (mem : UInt32 → UInt8) (s : UInt32) : List UInt8 := text 0 (fun i => mem (s + UInt32.ofNat i)) (2 ^ 32)

/-- The eight hexadecimal digits of a word. -/
def hexDigits (n : Nat) : List Nat := List.replicate (8 - (digitsOf 16 n).length) 0 ++ digitsOf 16 n

/-- What a conversion prints for an argument. -/
def expansion (mem : UInt32 → UInt8) (arg : UInt32) : Kind → Bool → List UInt8
  | .hex, false => numeral 16 arg.toNat
  | .hex, true => (hexDigits arg.toNat).map digitChar
  | .unsigned, _ => numeral 10 arg.toNat
  | .signed, _ => (if arg.toInt32.toInt < 0 then [45] else []) ++ numeral 10 arg.toInt32.toInt.natAbs
  | .char, _ => [arg.toUInt8]
  | .string, _ => stringAt mem arg

/-- What the pieces print, one after another, the next argument being number
    `esp`. -/
def emitted (mem : UInt32 → UInt8) (args : Nat → UInt32) : List Piece → Nat → List UInt8
  | [], _ => []
  | .text c :: rest, esp => c :: emitted mem args rest esp
  | .percent :: rest, esp => 37 :: emitted mem args rest esp
  | .conversion kind alternate :: rest, esp =>
    expansion mem (args esp) kind alternate ++ emitted mem args rest (esp + 1)
  | .other _ :: rest, esp => emitted mem args rest esp

def takesArgument : Piece → Bool
  | .conversion _ _ => true
  | .text _ | .percent | .other _ => false

/-- The number of arguments that the pieces take. -/
def arguments (pieces : List Piece) : Nat := pieces.countP takesArgument

/-! ### Conversions print numerals -/

section
variable {convBuf : List UInt8}

theorem puts_text {text : List UInt8} (clean : (0 : UInt8) ∉ text) (rest : List UInt8) :
    puts (text ++ 0 :: rest) = some text := by
  induction text with
  | nil => rfl
  | cons c text ih =>
    obtain ⟨nonzero,clean⟩ := List.ne_and_not_mem_of_not_mem_cons clean
    rw [List.cons_append,puts,if_neg (Ne.symm nonzero),ih clean]
    rfl

/-- A word has at most `count` digits, when `radix ^ count` words or more have. -/
theorem numeral_length (radix count : Nat) (low : 2 ≤ radix) (some : 1 ≤ count) (enough : 2 ^ 32 ≤ radix ^ count)
    (arg : UInt32) : (numeral radix arg.toNat).length ≤ count := by
  rw [numeral,List.length_map]
  exact digitsOf_length low some (Nat.lt_of_lt_of_le arg.toNat_lt enough)

/-- A number that fits in the buffer is printed as its numeral. -/
theorem print_numeral (radix count : Nat) (low : 2 ≤ radix) (high : radix ≤ 36) (some : 1 ≤ count)
    (enough : 2 ^ 32 ≤ radix ^ count) (room : count < convBuf.length) (arg : UInt32) :
    (itoa arg convBuf radix).bind puts = .some (numeral radix arg.toNat) := by
  have short := numeral_length radix count low some enough arg
  rw [itoa_eq low high arg (by omega),Option.bind_some,puts_text (numeral_clean low high _)]

theorem printHex_plain (arg : UInt32) (size : convBuf.length = 64) :
    printHex false arg convBuf = some (numeral 16 arg.toNat) :=
  print_numeral 16 8 (by decide) (by decide) (by decide) (by decide) (by omega) arg

theorem printUnsigned_eq (arg : UInt32) (size : convBuf.length = 36) :
    printUnsigned arg convBuf = some (numeral 10 arg.toNat) :=
  print_numeral 10 10 (by decide) (by decide) (by decide) (by decide) (by omega) arg

/-- The loop writes zeros over what comes before position 8. -/
theorem padZeros_eq (before middle after : List UInt8) (eight : before.length + middle.length = 8) :
    padZeros (before ++ (middle ++ after)) before.length =
      some (before ++ (List.replicate middle.length 48 ++ after)) := by
  induction middle generalizing before with
  | nil =>
    rw [padZeros,if_neg (by rw [← eight]; simp)]
    rfl
  | cons c middle ih =>
    rw [List.length_cons] at eight
    have further := ih (before ++ [48]) (by rw [List.length_append,List.length_singleton]; omega)
    rw [List.length_append,List.length_singleton,List.append_assoc,List.append_assoc] at further
    rw [padZeros,if_pos (by omega),List.cons_append,storeAt_middle,Option.bind_some]
    exact further

theorem hexDigits_length (arg : UInt32) : (hexDigits arg.toNat).length = 8 := by
  have short : (digitsOf 16 arg.toNat).length ≤ 8 := digitsOf_length (by decide) (by decide) arg.toNat_lt
  rw [hexDigits,List.length_append,List.length_replicate]
  omega

/-- `%#x` puts zeros before the digits, which start at position 8. -/
theorem printHex_alternate (arg : UInt32) (size : convBuf.length = 64) :
    printHex true arg convBuf = some ((hexDigits arg.toNat).map digitChar) := by
  have clean : (0 : UInt8) ∉ numeral 16 arg.toNat := numeral_clean (by decide) (by decide) _
  have short := numeral_length 16 8 (by decide) (by decide) (by decide) arg
  have room : (numeral 16 arg.toNat).length < (convBuf.drop 8).length := by
    rw [List.length_drop]
    omega
  have padded : (hexDigits arg.toNat).map digitChar =
      List.replicate (8 - (numeral 16 arg.toNat).length) 48 ++ numeral 16 arg.toNat := by
    rw [hexDigits,List.map_append,List.map_replicate,numeral,List.length_map]
    rfl
  rw [padded]
  simp only [printHex,Bool.true_eq_false,if_false,itoa_eq (by decide) (by decide) arg room,Option.bind_some,
    strlen_text clean]
  generalize numeral 16 arg.toNat = digits at *
  generalize (convBuf.drop 8).drop (digits.length + 1) = rest
  have first : ((convBuf.take 8).take digits.length).length = digits.length := by
    simp only [List.length_take]
    omega
  have second : ((convBuf.take 8).drop digits.length).length = 8 - digits.length := by
    simp only [List.length_drop,List.length_take]
    omega
  have padding := padZeros_eq ((convBuf.take 8).take digits.length) ((convBuf.take 8).drop digits.length)
    (digits ++ 0 :: rest) (by rw [first,second]; omega)
  rw [← List.append_assoc,List.take_append_drop,first,second] at padding
  rw [padding,Option.bind_some,List.drop_left' first,← List.append_assoc,puts_text]
  rw [List.mem_append,not_or]
  exact ⟨fun among => absurd (List.eq_of_mem_replicate among) (by decide),clean⟩

/-- The absolute value of a word, which is unsigned where the code converts it. -/
theorem natAbs_word (arg : UInt32) : (arg.toInt32 < 0 ↔ arg.toInt32.toInt < 0) ∧
    (arg.toInt32.toInt < 0 → (-arg.toInt32).toUInt32.toNat = arg.toInt32.toInt.natAbs) ∧
    (¬ arg.toInt32.toInt < 0 → arg.toInt32.toUInt32.toNat = arg.toInt32.toInt.natAbs) := by
  have word : arg.toInt32.toInt = arg.toBitVec.toInt := rfl
  have plain : arg.toInt32.toUInt32.toNat = arg.toBitVec.toNat := rfl
  have negated : (-arg.toInt32).toUInt32.toNat = (-arg.toBitVec).toNat := rfl
  have small := arg.toBitVec.isLt
  refine ⟨Int32.lt_iff_toInt_lt,?_,?_⟩
  · rw [word,negated,BitVec.toNat_neg,BitVec.toInt_eq_toNat_cond]
    split <;> omega
  · rw [word,plain,BitVec.toInt_eq_toNat_cond]
    split <;> omega

/-- `%d` prints a minus sign before the numeral of a negative number, the least
    one included. -/
theorem printSigned_eq (arg : UInt32) (size : convBuf.length = 36) : printSigned arg convBuf =
    some ((if arg.toInt32.toInt < 0 then [45] else []) ++ numeral 10 arg.toInt32.toInt.natAbs) := by
  obtain ⟨negative,below,above⟩ := natAbs_word arg
  by_cases minus : arg.toInt32.toInt < 0
  · rw [printSigned,if_pos (negative.mpr minus),if_pos minus,← below minus]
    generalize (-arg.toInt32).toUInt32 = value
    cases convBuf with
    | nil => simp at size
    | cons c rest =>
      have short := numeral_length 10 10 (by decide) (by decide) (by decide) value
      have clean : (0 : UInt8) ∉ numeral 10 value.toNat := numeral_clean (by decide) (by decide) _
      have stored : storeAt (c :: rest) 0 45 = some (45 :: rest) := storeAt_middle [] rest c 45
      have room : (numeral 10 value.toNat).length < rest.length := by
        rw [List.length_cons] at size
        omega
      rw [stored,Option.bind_some,List.drop_one,List.tail_cons,itoa_eq (by decide) (by decide) value room,
        Option.bind_some,← List.append_assoc,puts_text]
      · rfl
      · rw [List.mem_append,not_or]
        exact ⟨by simp,clean⟩
  · rw [printSigned,if_neg fun less => minus (negative.mp less),if_neg minus,← above minus]
    exact print_numeral 10 10 (by decide) (by decide) (by decide) (by decide) (by omega) _

theorem hexDigits_lt {n digit : Nat} (among : digit ∈ hexDigits n) : digit < 16 := by
  rcases List.mem_append.mp among with zero | own
  · rw [List.eq_of_mem_replicate zero]
    decide
  · exact digitsOf_lt (by decide) own

theorem hexDigits_value (n : Nat) : Nat.ofDigits 16 (hexDigits n).reverse = n := by
  rw [hexDigits,List.reverse_append,List.reverse_replicate,Nat.ofDigits_append_replicate_zero,digitsOf_value]

theorem natAbs_nonzero {arg : UInt32} (nonzero : arg ≠ 0) : arg.toInt32.toInt.natAbs ≠ 0 := by
  obtain ⟨_,below,above⟩ := natAbs_word arg
  intro zero
  have still : arg.toInt32.toInt = 0 := Int.natAbs_eq_zero.mp zero
  have same : arg.toInt32.toUInt32.toNat = 0 := (above (by omega)).trans zero
  exact nonzero (UInt32.toNat_inj.mp same)

/-- Numbers are formatted exactly. In any buffer with room `itoa` writes the
    digits of the value and a NUL, at most 32 digits and no leading zero but that
    of 0, and changes nothing behind them; `%#x` prints the eight digits of its
    argument, and `%d` a minus sign where the value is negative and the digits of
    its absolute value. None of them leaves its buffer. -/
theorem numbers_exact :
    (∀ (value : UInt32) (radix : Nat), 2 ≤ radix → radix ≤ 36 → ∃ digits : List Nat,
      digits ≠ [] ∧ digits.length ≤ 32 ∧ (∀ digit, digit ∈ digits → digit < radix) ∧
      (value ≠ 0 → digits.head? ≠ some 0) ∧ Nat.ofDigits radix digits.reverse = value.toNat ∧
      ∀ buf : List UInt8, digits.length < buf.length →
        itoa value buf radix = some (digits.map digitChar ++ 0 :: buf.drop (digits.length + 1))) ∧
    (∀ (arg : UInt32) (convBuf : Vector UInt8 64), ∃ digits : List Nat,
      digits.length = 8 ∧ (∀ digit, digit ∈ digits → digit < 16) ∧ Nat.ofDigits 16 digits.reverse = arg.toNat ∧
      printHex true arg convBuf.toList = some (digits.map digitChar)) ∧
    ∀ (arg : UInt32) (convBuf : Vector UInt8 36), ∃ digits : List Nat,
      digits ≠ [] ∧ (∀ digit, digit ∈ digits → digit < 10) ∧ (arg ≠ 0 → digits.head? ≠ some 0) ∧
      Nat.ofDigits 10 digits.reverse = arg.toInt32.toInt.natAbs ∧
      printSigned arg convBuf.toList =
        some ((if arg.toInt32.toInt < 0 then [45] else []) ++ digits.map digitChar) := by
  refine ⟨?_,?_,?_⟩
  · intro value radix low high
    have many : 2 ^ 32 ≤ radix ^ 32 := Nat.pow_le_pow_left low 32
    have small : value.toNat < radix ^ 32 := Nat.lt_of_lt_of_le value.toNat_lt many
    refine ⟨digitsOf radix value.toNat,digitsOf_ne_nil,digitsOf_length low (by decide) small,
      fun _ => digitsOf_lt low,?_,digitsOf_value _ _,?_⟩
    · intro nonzero
      exact digitsOf_head fun zero => nonzero (UInt32.toNat_inj.mp zero)
    · intro buf room
      have size : (numeral radix value.toNat).length = (digitsOf radix value.toNat).length := List.length_map _
      rw [itoa_eq low high value (by rw [size]; exact room),size]
      rfl
  · intro arg convBuf
    exact ⟨hexDigits arg.toNat,hexDigits_length arg,fun _ => hexDigits_lt,hexDigits_value _,
      printHex_alternate arg (by simp)⟩
  · intro arg convBuf
    refine ⟨digitsOf 10 arg.toInt32.toInt.natAbs,digitsOf_ne_nil,fun _ => digitsOf_lt (by decide),?_,
      digitsOf_value _ _,?_⟩
    · intro nonzero
      exact digitsOf_head (natAbs_nonzero nonzero)
    · rw [printSigned_eq arg (by simp)]
      rfl

theorem numbers_exact_byte : ∃ digits : List Nat, digits ≠ [] ∧ digits.length ≤ 32 ∧
    (∀ digit, digit ∈ digits → digit < 16) ∧ ((255 : UInt32) ≠ 0 → digits.head? ≠ some 0) ∧
    Nat.ofDigits 16 digits.reverse = (255 : UInt32).toNat ∧
    ∀ buf : List UInt8, digits.length < buf.length →
      itoa 255 buf 16 = some (digits.map digitChar ++ 0 :: buf.drop (digits.length + 1)) :=
  numbers_exact.1 255 16 (by decide) (by decide)

end

/-! ### The scan prints the pieces -/

section
variable {call : Call} {format : List UInt8}

/-- The bytes of a string are printed up to its NUL. -/
theorem putsAt_eq {mem : UInt32 → UInt8} {n left : Nat} {s : UInt32}
    (clean : ∀ i, i < n → mem (s + UInt32.ofNat i) ≠ 0) (ends : mem (s + UInt32.ofNat n) = 0) (room : n < left) :
    putsAt mem left s = some (taken (fun i => mem (s + UInt32.ofNat i)) n) := by
  induction n generalizing left s with
  | zero =>
    obtain ⟨left,rfl⟩ := Nat.exists_eq_succ_of_ne_zero (Nat.pos_iff_ne_zero.mp room)
    have here : mem s = 0 := by simpa using ends
    rw [putsAt,if_pos here]
    rfl
  | succ n ih =>
    obtain ⟨left,rfl⟩ := Nat.exists_eq_succ_of_ne_zero (by omega : left ≠ 0)
    have next (i : Nat) : s + UInt32.ofNat (i + 1) = s + 1 + UInt32.ofNat i := by
      rw [Nat.add_comm,UInt32.ofNat_add,UInt32.add_assoc]
      rfl
    have start : s + UInt32.ofNat 0 = s := UInt32.add_zero s
    have here : mem s ≠ 0 := start ▸ clean 0 (Nat.succ_pos n)
    rw [next] at ends
    rw [putsAt,if_neg here,ih (fun i inside => next i ▸ clean (i + 1) (by omega)) ends (by omega)]
    simp only [taken,List.range_succ_eq_map,List.map_cons,List.map_map,Option.map_some,Function.comp_def,
      Nat.succ_eq_add_one,next,start]

/-- `%s` prints the string of its argument, when there is a NUL anywhere in
    memory. -/
theorem putsAt_string {mem : UInt32 → UInt8} {z : UInt32} (zero : mem z = 0) (s : UInt32) :
    putsAt mem (2 ^ 32) s = some (stringAt mem s) := by
  let chars : Nat → UInt8 := fun i => mem (s + UInt32.ofNat i)
  have there : chars (z - s).toNat = 0 := by
    change mem (s + UInt32.ofNat (z - s).toNat) = 0
    rw [UInt32.ofNat_toNat,UInt32.add_comm,UInt32.sub_add_cancel,zero]
  have short : textLength 0 chars (2 ^ 32) < 2 ^ 32 := by
    by_contra long
    exact text_within (Nat.lt_of_lt_of_le (z - s).toNat_lt (Nat.le_of_not_lt long)) there
  exact putsAt_eq (fun _ => text_within) (text_stops short) short

/-- A conversion prints the expansion of its argument. -/
theorem convert_eq {z : UInt32} (zero : call.mem z = 0) (i : Nat) (alternate : Bool) (arg : UInt32) (kind : Kind) :
    convert call i alternate arg kind = some (expansion call.mem arg kind alternate) := by
  cases kind with
  | hex =>
    cases alternate with
    | false => exact printHex_plain arg (by simp)
    | true => exact printHex_alternate arg (by simp)
  | unsigned => exact printUnsigned_eq arg (by simp)
  | signed => exact printSigned_eq arg (by simp)
  | char => rfl
  | string => exact putsAt_string zero arg

theorem arguments_cons (piece : Piece) (rest : List Piece) :
    arguments (piece :: rest) = (if takesArgument piece then 1 else 0) + arguments rest := by
  rw [arguments,List.countP_cons,Nat.add_comm]
  rfl

theorem arguments_append (first second : List Piece) :
    arguments (first ++ second) = arguments first + arguments second := List.countP_append

theorem emitted_append (mem : UInt32 → UInt8) (args : Nat → UInt32) (first second : List Piece) (esp : Nat) :
    emitted mem args (first ++ second) esp =
      emitted mem args first esp ++ emitted mem args second (esp + arguments first) := by
  induction first generalizing esp with
  | nil => rfl
  | cons piece first ih =>
    cases piece with
    | text c => simp [emitted,arguments_cons,takesArgument,ih]
    | percent => simp [emitted,arguments_cons,takesArgument,ih]
    | conversion kind alternate => simp [emitted,arguments_cons,takesArgument,ih,Nat.add_assoc]
    | other c => simp [emitted,arguments_cons,takesArgument,ih]

/-- A character other than the NUL: the scan goes to the next phase, and prints
    the piece that the character completes. -/
theorem stepScan_char {z : UInt32} (zero : call.mem z = 0) {i : Nat} {c : UInt8} (here : charAt call i = c)
    (nonzero : c ≠ 0) (phase : Phase) (esp : Nat) (out : List UInt8) : stepScan call ⟨i,phase,esp,out⟩ =
      some ⟨i + 1,nextPhase phase c,esp + arguments (pieceOf phase c).toList,
        out ++ emitted call.mem call.args (pieceOf phase c).toList esp⟩ := by
  cases phase with
  | text =>
    simp only [stepScan,here,if_neg nonzero,nextPhase,pieceOf]
    split <;> simp [arguments,takesArgument,emitted]
  | specifier alternate =>
    simp only [stepScan,here,nextPhase,pieceOf]
    by_cases percent : c = 37
    · simp [percent,arguments,takesArgument,emitted]
    · by_cases hash : c = 35
      · simp [hash,arguments,emitted]
      · simp only [if_neg percent,if_neg hash,convert_eq zero]
        cases kindOf c with
        | some kind => simp [arguments,takesArgument,emitted]
        | none => simp [arguments,takesArgument,emitted]

/-- The scan of what is left of a format: it comes to the NUL, with the pieces
    printed and their arguments taken. -/
theorem scan_pieces (stored : Holds 0 (charAt call) format) (before rest : List UInt8)
    (split : format = before ++ rest) (phase : Phase) (esp : Nat) (out : List UInt8) :
    Passes (stepScan call) (fun s => s.buf ≤ format.length) ⟨before.length,phase,esp,out⟩
      ⟨format.length,phaseAfter phase rest,esp + arguments (pieces phase rest),
        out ++ emitted call.mem call.args (pieces phase rest) esp⟩ := by
  induction rest generalizing before phase esp out with
  | nil =>
    have all : before.length = format.length := by rw [split,List.append_nil]
    rw [all,pieces,emitted,List.append_nil]
    exact .stay (Nat.le_refl _)
  | cons c rest ih =>
    have inside : before.length < format.length := by
      rw [split,List.length_append,List.length_cons]
      omega
    have here : charAt call before.length = c := by
      rw [stored.chars _ inside]
      simp [split]
    have nonzero : c ≠ 0 := here ▸ holds_before stored inside
    have further := ih (before ++ [c]) (by rw [split,List.append_assoc,List.singleton_append])
      (nextPhase phase c) (esp + arguments (pieceOf phase c).toList)
      (out ++ emitted call.mem call.args (pieceOf phase c).toList esp)
    rw [List.length_append,List.length_singleton,Nat.add_assoc,List.append_assoc,← arguments_append,
      ← emitted_append] at further
    exact .next (Nat.le_of_lt inside) (stepScan_char stored.ends here nonzero phase esp out) further

theorem scan_format (stored : Holds 0 (charAt call) format) :
    Passes (stepScan call) (fun s => s.buf ≤ format.length) startScan
      ⟨format.length,phaseAfter .text format,arguments (pieces .text format),
        emitted call.mem call.args (pieces .text format) 0⟩ := by
  have scanned := scan_pieces stored [] format rfl .text 0 []
  rw [Nat.zero_add,List.nil_append] at scanned
  exact scanned

theorem returned_stops {s : Scan} (returned : Returned call s) : stepScan call s = none := by
  obtain ⟨phase,zero⟩ := returned
  simp [stepScan,phase,zero]

/-- When the format ends inside a specifier, the scan goes on behind the NUL. -/
theorem scan_escapes (stored : Holds 0 (charAt call) format) {alternate : Bool}
    (inside : phaseAfter .text format = .specifier alternate) {last : Scan}
    (within : Passes (stepScan call) (fun s => s.buf ≤ format.length) startScan last) : ¬ Returned call last := by
  intro returned
  have stops := returned_stops returned
  have behind := passes_rest (scan_format stored) within stops
  rw [inside] at behind
  have beyond := passes_first (passes_tail behind (by simp [stepScan,stored.ends,kindOf]; rfl) stops)
  exact Nat.not_succ_le_self _ beyond

theorem phaseAfter_append (phase : Phase) (first second : List UInt8) :
    phaseAfter phase (first ++ second) = phaseAfter (phaseAfter phase first) second := List.foldl_append

theorem phaseAfter_hashes (alternate : Bool) (count : Nat) :
    ∃ alternate', phaseAfter (.specifier alternate) (List.replicate count 35) = .specifier alternate' := by
  induction count generalizing alternate with
  | zero => exact ⟨alternate,rfl⟩
  | succ count ih => exact ih true

/-- A format ends inside a specifier when it ends in a `%` of its text and any
    number of `#`. -/
theorem phaseAfter_specifier_iff : (∃ alternate, phaseAfter .text format = .specifier alternate) ↔
    ∃ before count, format = before ++ 37 :: List.replicate count 35 ∧ phaseAfter .text before = .text := by
  constructor
  · intro inside
    induction format using List.reverseRecOn with
    | nil =>
      obtain ⟨_,absent⟩ := inside
      cases absent
    | append_singleton format c ih =>
      obtain ⟨alternate,inside⟩ := inside
      rw [phaseAfter_append] at inside
      change nextPhase (phaseAfter .text format) c = _ at inside
      cases before : phaseAfter .text format with
      | text =>
        rw [before,nextPhase] at inside
        split at inside
        · rename_i percent
          exact ⟨format,0,by rw [percent]; rfl,before⟩
        · cases inside
      | specifier alternate =>
        rw [before,nextPhase] at inside
        split at inside
        · rename_i hash
          obtain ⟨text,count,parts,ends⟩ := ih ⟨alternate,before⟩
          refine ⟨text,count + 1,?_,ends⟩
          rw [parts,hash,List.replicate_succ',List.append_assoc,List.cons_append]
        · cases inside
  · rintro ⟨before,count,parts,ends⟩
    rw [parts,phaseAfter_append,ends]
    exact phaseAfter_hashes false count

/-- A text without `%` is its own pieces. -/
theorem plain_format (plain : (37 : UInt8) ∉ format) (mem : UInt32 → UInt8) (args : Nat → UInt32) (esp : Nat) :
    phaseAfter .text format = .text ∧ emitted mem args (pieces .text format) esp = format := by
  induction format with
  | nil => exact ⟨rfl,rfl⟩
  | cons c format ih =>
    obtain ⟨other,plain⟩ := List.ne_and_not_mem_of_not_mem_cons plain
    obtain ⟨ends,same⟩ := ih plain
    have next : nextPhase .text c = .text := if_neg (Ne.symm other)
    have piece : pieceOf .text c = some (.text c) := if_neg (Ne.symm other)
    constructor
    · rw [phaseAfter,List.foldl_cons,next]
      exact ends
    · rw [pieces,piece,next]
      exact congrArg (c :: ·) same

/-- A text without `%` is passed to `putc` as it is. -/
theorem printf_plain (stored : Holds 0 (charAt call) format) (plain : (37 : UInt8) ∉ format) (k : State.Kernel) :
    ∃ last, Reaches (stepScan call) startScan last ∧ Returned call last ∧
      last.out.foldl Display.putc k = Display.printf k format := by
  obtain ⟨ends,same⟩ := plain_format plain call.mem call.args 0
  have scanned := scan_format stored
  rw [ends,same] at scanned
  exact ⟨_,passes_mono (fun _ _ => trivial) scanned,⟨rfl,stored.ends⟩,rfl⟩

/-- What `printf` does with a format from its first to its last state. -/
structure Printed (call : Call) (format : List UInt8) (last : Scan) : Prop where
  returned : Returned call last
  consumed : last.esp = arguments (pieces .text format)
  text : last.out = emitted call.mem call.args (pieces .text format) 0
  length : (returnValue last).toInt = format.length

/-- `printf` returns from a format without reading behind its NUL. -/
def Prints (call : Call) (format : List UInt8) : Prop :=
  ∃ last, Passes (stepScan call) (fun s => s.buf ≤ format.length) startScan last ∧ Printed call format last

/-- `printf` prints the pieces of a format, takes one argument for each of its
    conversions and returns its length exactly when the format does not end inside
    a specifier, and its length is an `int32_t`. -/
theorem prints_iff (stored : Holds 0 (charAt call) format) :
    Prints call format ↔ phaseAfter .text format = .text ∧ format.length < 2 ^ 31 := by
  constructor
  · rintro ⟨last,within,printed⟩
    constructor
    · cases ends : phaseAfter .text format with
      | text => rfl
      | specifier alternate => exact absurd printed.returned (scan_escapes stored ends within)
    · have small := (returnValue last).toInt_lt
      rw [printed.length] at small
      exact_mod_cast small
  · rintro ⟨ends,short⟩
    have scanned := scan_format stored
    rw [ends] at scanned
    exact ⟨_,scanned,⟨rfl,stored.ends⟩,rfl,rfl,Int32.toInt_ofNat_of_lt short⟩

/-- The bytes of a list in memory, from address 0 on, and zeros behind them. -/
def laidOut (bytes : List UInt8) : UInt32 → UInt8 := fun address => bytes.getD address.toNat 0

/-- A call of `printf` with a format at address 0 of a memory. -/
def callOn (bytes : List UInt8) (args : Nat → UInt32) : Call :=
  ⟨laidOut bytes,0,args,fun _ => Vector.replicate 64 0,fun _ => Vector.replicate 36 0⟩

/-- `%d%%` with the argument -1. -/
theorem prints_decimal : Prints (callOn [37,100,37,37] fun _ => 0xFFFFFFFF) [37,100,37,37] :=
  (prints_iff ⟨by decide,by decide,by decide⟩).mpr ⟨by decide,by decide⟩

/-- A format `%` with an `A` behind its NUL: `printf` prints the `A`, returns 3 and
    does not stay within the format. -/
theorem lone_percent_escapes : Holds 0 (charAt (callOn [37,0,65] fun _ => 0)) [37] ∧
    ¬ Prints (callOn [37,0,65] fun _ => 0) [37] ∧
    ∃ last, Reaches (stepScan (callOn [37,0,65] fun _ => 0)) startScan last ∧
      Returned (callOn [37,0,65] fun _ => 0) last ∧ last.out = [65] ∧ returnValue last = 3 := by
  have stored : Holds 0 (charAt (callOn [37,0,65] fun _ => 0)) [37] := ⟨by decide,by decide,by decide⟩
  refine ⟨stored,?_,⟨3,.text,0,[65]⟩,?_,⟨rfl,by decide⟩,rfl,by decide⟩
  · rintro ⟨last,within,printed⟩
    have inside : phaseAfter .text [37] = .specifier false := by decide
    exact scan_escapes stored inside within printed.returned
  · exact .next trivial rfl (.next trivial rfl (.next trivial rfl (.stay trivial)))

end

end MazeOS.Printf
