import MazeOS.Assembly
import Mathlib.Data.Nat.Bitwise

/-!
Words that are made of bit-fields, and words in a memory of bytes. `pack` lays
fields out from the lowest bit on, and `bits` cuts some bits out of a word, so
that each field is found at the sum of the widths before it (`bits_pack`). Setting
one bit changes no bits beside it (`bits_or`). A word that was stored is loaded
again (`word_setWord`), and stores elsewhere leave it alone (`word_setWord_other`,
`word_update`).
-/
namespace MazeOS.Words
open MazeOS.Assembly

/-! ### Bit-fields -/

structure Field where
  width : Nat
  value : Nat

/-- Fields from the lowest bit on. -/
def pack : List Field → Nat
  | [] => 0
  | field :: rest => field.value % 2 ^ field.width + 2 ^ field.width * pack rest

def widthOf (fields : List Field) : Nat := (fields.map Field.width).sum

/-- `count` bits of a word from bit `start` on. -/
def bits (word start count : Nat) : Nat := word / 2 ^ start % 2 ^ count

theorem pack_lt (fields : List Field) : pack fields < 2 ^ widthOf fields := by
  induction fields with
  | nil => exact Nat.one_pos
  | cons field rest ih =>
    have low : field.value % 2 ^ field.width < 2 ^ field.width := Nat.mod_lt _ (Nat.two_pow_pos _)
    have high : 2 ^ field.width * (pack rest + 1) ≤ 2 ^ field.width * 2 ^ widthOf rest := Nat.mul_le_mul_left _ ih
    rw [show widthOf (field :: rest) = field.width + widthOf rest from List.sum_cons,Nat.pow_add]
    rw [Nat.mul_add,Nat.mul_one] at high
    rw [pack]
    omega

/-- The fields behind some others. -/
theorem pack_drop (before after : List Field) : pack (before ++ after) / 2 ^ widthOf before = pack after := by
  induction before with
  | nil => exact Nat.div_one _
  | cons field rest ih =>
    have low : field.value % 2 ^ field.width < 2 ^ field.width := Nat.mod_lt _ (Nat.two_pow_pos _)
    rw [show widthOf (field :: rest) = field.width + widthOf rest from List.sum_cons,Nat.pow_add,← Nat.div_div_eq_div_mul,
      List.cons_append,pack,Nat.add_mul_div_left _ _ (Nat.two_pow_pos _),Nat.div_eq_of_lt low,Nat.zero_add]
    exact ih

/-- A field is found behind the fields before it. -/
theorem bits_pack {fields : List Field} (n : Nat) {width value start : Nat} (place : fields[n]? = some ⟨width,value⟩)
    (before : widthOf (fields.take n) = start) : bits (pack fields) start width = value % 2 ^ width := by
  obtain ⟨inside,at_n⟩ := List.getElem?_eq_some_iff.mp place
  have split : fields = fields.take n ++ ⟨width,value⟩ :: fields.drop (n + 1) := by
    rw [← at_n,← List.drop_eq_getElem_cons inside,List.take_append_drop]
  rw [split,bits,← before,pack_drop,pack,Nat.add_mul_mod_self_left,Nat.mod_mod]

theorem pack_append (fields rest : List Field) : pack (fields ++ rest) = pack fields + 2 ^ widthOf fields * pack rest := by
  induction fields with
  | nil => simp [pack,widthOf]
  | cons field fields ih =>
    rw [List.cons_append,pack,ih,pack,show widthOf (field :: fields) = field.width + widthOf fields from List.sum_cons,
      Nat.pow_add,Nat.mul_add,Nat.mul_assoc,Nat.add_assoc]

/-- Neighbouring fields, taken together. -/
theorem bits_packs (before fields after : List Field) :
    bits (pack (before ++ (fields ++ after))) (widthOf before) (widthOf fields) = pack fields := by
  rw [bits,pack_drop,pack_append,Nat.add_mul_mod_self_left,Nat.mod_eq_of_lt (pack_lt fields)]

/-- A field of one bit. -/
theorem flag_mod (b : Bool) : b.toNat % 2 ^ 1 = b.toNat := by cases b <;> rfl

theorem testBit_bits (word start count i : Nat) :
    (bits word start count).testBit i = (decide (i < count) && word.testBit (start + i)) := by
  rw [bits,Nat.testBit_mod_two_pow,Nat.testBit_div_two_pow,Nat.add_comm i start]

/-- A bit that is set changes only the bits that it is one of. -/
theorem bits_or {word start count bit : Nat} (beside : bit < start ∨ start + count ≤ bit) :
    bits (word ||| 2 ^ bit) start count = bits word start count := by
  apply Nat.eq_of_testBit_eq
  intro i
  rw [testBit_bits,testBit_bits,Nat.testBit_or,Nat.testBit_two_pow]
  by_cases inside : i < count
  · have apart : ¬ bit = start + i := by omega
    simp [apart]
  · simp [inside]

theorem or_lt {word bit size : Nat} (small : word < 2 ^ size) (inside : bit < size) : word ||| 2 ^ bit < 2 ^ size :=
  Nat.or_lt_two_pow small (Nat.pow_lt_pow_right Nat.one_lt_two inside)

/-! ### Words in memory -/

def word (mem : Memory) (a : Nat) : Nat := (load32 mem (BitVec.ofNat 32 a)).toNat

def setWord (mem : Memory) (a value : Nat) : Memory := store32 mem (BitVec.ofNat 32 a) (BitVec.ofNat 32 value)

theorem word_lt (mem : Memory) (a : Nat) : word mem a < 2 ^ 32 := BitVec.isLt _

/-- The bytes of a word are the word. -/
theorem bytes_append (value : BitVec 32) :
    (byteOf value 3).toBitVec ++ (byteOf value 2).toBitVec ++ (byteOf value 1).toBitVec ++ (byteOf value 0).toBitVec =
      value := by
  have high : value.extractLsb' 24 8 ++ value.extractLsb' 16 8 = value.extractLsb' 16 16 :=
    BitVec.extractLsb'_append_extractLsb'_eq_extractLsb' rfl
  have higher : value.extractLsb' 16 16 ++ value.extractLsb' 8 8 = value.extractLsb' 8 24 :=
    BitVec.extractLsb'_append_extractLsb'_eq_extractLsb' rfl
  have whole : value.extractLsb' 8 24 ++ value.extractLsb' 0 8 = value.extractLsb' 0 32 :=
    BitVec.extractLsb'_append_extractLsb'_eq_extractLsb' rfl
  calc value.extractLsb' 24 8 ++ value.extractLsb' 16 8 ++ value.extractLsb' 8 8 ++ value.extractLsb' 0 8
      = value.extractLsb' 0 32 := by rw [high,higher,whole]
    _ = value := BitVec.extractLsb'_eq_self

/-- The bytes that a word is stored in. -/
theorem store32_apply (mem : Memory) (a value : BitVec 32) :
    store32 mem a value a = byteOf value 0 ∧ store32 mem a value (a + 1) = byteOf value 1 ∧
    store32 mem a value (a + 2) = byteOf value 2 ∧ store32 mem a value (a + 3) = byteOf value 3 ∧
    ∀ b, b ≠ a → b ≠ a + 1 → b ≠ a + 2 → b ≠ a + 3 → store32 mem a value b = mem b := by
  have apart (i j : BitVec 32) (different : i ≠ j) : a + i ≠ a + j := fun same => different ((BitVec.add_right_inj a).mp same)
  have first (i : BitVec 32) (different : 0 ≠ i) : a ≠ a + i := by simpa using apart 0 i different
  refine ⟨?_,?_,?_,?_,?_⟩
  · rw [store32,storeBytes,Function.update_of_ne (first 3 (by decide)),Function.update_of_ne (first 2 (by decide)),
      Function.update_of_ne (first 1 (by decide)),Function.update_self]
  · rw [store32,storeBytes,Function.update_of_ne (apart 1 3 (by decide)),Function.update_of_ne (apart 1 2 (by decide)),
      Function.update_self]
  · rw [store32,storeBytes,Function.update_of_ne (apart 2 3 (by decide)),Function.update_self]
  · rw [store32,storeBytes,Function.update_self]
  · intro b zeroth first second third
    rw [store32,storeBytes,Function.update_of_ne third,Function.update_of_ne second,Function.update_of_ne first,
      Function.update_of_ne zeroth]

theorem load32_store32 (mem : Memory) (a value : BitVec 32) : load32 (store32 mem a value) a = value := by
  obtain ⟨lowest,low,high,highest,_⟩ := store32_apply mem a value
  rw [load32,lowest,low,high,highest,bytes_append]

theorem word_setWord (mem : Memory) (a : Nat) {value : Nat} (small : value < 2 ^ 32) :
    word (setWord mem a value) a = value := by
  rw [word,setWord,load32_store32,BitVec.toNat_ofNat,Nat.mod_eq_of_lt small]

/-- Addresses of bytes that do not wrap around are different. -/
theorem address_ne {a b : Nat} (first : a < 2 ^ 32) (second : b < 2 ^ 32) (apart : a ≠ b) :
    BitVec.ofNat 32 a ≠ BitVec.ofNat 32 b := by
  intro same
  have equal := congrArg BitVec.toNat same
  rw [BitVec.toNat_ofNat,BitVec.toNat_ofNat,Nat.mod_eq_of_lt first,Nat.mod_eq_of_lt second] at equal
  exact apart equal

theorem address_add (a i : Nat) : BitVec.ofNat 32 a + BitVec.ofNat 32 i = BitVec.ofNat 32 (a + i) :=
  (BitVec.ofNat_add a i).symm

/-- A byte outside a word that is stored. -/
theorem setWord_apply (mem : Memory) {a b : Nat} (value : Nat) (inside : a + 4 ≤ 2 ^ 32) (below : b < 2 ^ 32)
    (apart : b < a ∨ a + 4 ≤ b) : setWord mem a value (BitVec.ofNat 32 b) = mem (BitVec.ofNat 32 b) := by
  have different (i : Nat) (small : i < 4) : BitVec.ofNat 32 b ≠ BitVec.ofNat 32 a + BitVec.ofNat 32 i := by
    rw [address_add]
    exact address_ne below (by omega) (by omega)
  have zeroth : BitVec.ofNat 32 b ≠ BitVec.ofNat 32 a := address_ne below (by omega) (by omega)
  exact (store32_apply mem _ _).2.2.2.2 _ zeroth (different 1 (by decide)) (different 2 (by decide)) (different 3 (by decide))

/-- Memories with the same bytes at a word have the same word. -/
theorem word_congr {mem mem' : Memory} {a : Nat}
    (same : ∀ i, i < 4 → mem (BitVec.ofNat 32 (a + i)) = mem' (BitVec.ofNat 32 (a + i))) : word mem a = word mem' a := by
  have at_i (i : Nat) (small : i < 4) : mem (BitVec.ofNat 32 a + BitVec.ofNat 32 i) =
      mem' (BitVec.ofNat 32 a + BitVec.ofNat 32 i) := by
    rw [address_add]
    exact same i small
  have zeroth : mem (BitVec.ofNat 32 a) = mem' (BitVec.ofNat 32 a) := same 0 (by decide)
  have first : mem (BitVec.ofNat 32 a + 1) = mem' (BitVec.ofNat 32 a + 1) := at_i 1 (by decide)
  have second : mem (BitVec.ofNat 32 a + 2) = mem' (BitVec.ofNat 32 a + 2) := at_i 2 (by decide)
  have third : mem (BitVec.ofNat 32 a + 3) = mem' (BitVec.ofNat 32 a + 3) := at_i 3 (by decide)
  rw [word,word,load32,load32,zeroth,first,second,third]

theorem word_setWord_other (mem : Memory) {a b : Nat} (value : Nat) (inside : a + 4 ≤ 2 ^ 32) (below : b + 4 ≤ 2 ^ 32)
    (apart : b + 4 ≤ a ∨ a + 4 ≤ b) : word (setWord mem a value) b = word mem b :=
  word_congr fun i small => setWord_apply mem value inside (by omega) (by omega)

theorem word_update (mem : Memory) {a b : Nat} (byte : UInt8) (inside : a + 4 ≤ 2 ^ 32) (below : b < 2 ^ 32)
    (apart : b < a ∨ a + 4 ≤ b) : word (Function.update mem (BitVec.ofNat 32 b) byte) a = word mem a :=
  word_congr fun i small => Function.update_of_ne (address_ne (by omega) below (by omega)) _ _

end MazeOS.Words
