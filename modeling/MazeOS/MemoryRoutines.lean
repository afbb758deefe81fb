import MazeOS.Assembly
import MazeOS.Display

/-!
`memset` and `memcpy` of `lib.c`. Both move single bytes until the destination is
aligned, then words with a string instruction, then the bytes that remain
(`wordwise`); they differ in how a byte and a word move. A run from the first
label comes to the last one with all bytes moved (`wordwise_run`), for every
alignment and every number of bytes.
-/
namespace MazeOS.MemoryRoutines
open MazeOS.Machines MazeOS.Assembly

/-! ### The code -/

inductive Label where
  | top
  | aligned
  | bottom
  | done
  deriving DecidableEq

/-- What the routines have in common: `move` moves a byte, and `rep` the words. -/
def wordwise (move : List (Instr Label)) (rep : Instr Label) : List (Instr Label) :=
  [.label .top,
    .testl (.reg .ecx) .ecx,
    .jz .done,
    .testl (.imm 0x3) .edi,
    .jz .aligned] ++
  (move ++
  ([.subl (.imm 1) .ecx,
    .jmp .top,
    .label .aligned,
    .movwFrom .ds .edx,
    .movwTo .edx .es,
    .movl (.reg .ecx) .edx,
    .shrl 2 .ecx,
    .andl (.imm 0x3) .edx,
    .cld,
    rep,
    .label .bottom,
    .testl (.reg .edx) .edx,
    .jz .done] ++
  (move ++
  [.subl (.imm 1) .edx,
    .jmp .bottom,
    .label .done])))

/-- The instructions of `memset`. -/
def memsetCode : List (Instr Label) := wordwise [.movbStore .edi,.addl (.imm 1) .edi] .repStosl

/-- The instructions of `memcpy`. -/
def memcpyCode : List (Instr Label) :=
  wordwise [.movbLoad .esi,.movbStore .edi,.addl (.imm 1) .edi,.addl (.imm 1) .esi] .repMovsl

/-- `memset` before its first instruction. -/
def callMemset (s c n : BitVec 32) (m : Machine) : Machine :=
  let c := c &&& 0xFF
  { m with pc := 0, eax := c <<< 24 ||| c <<< 16 ||| c <<< 8 ||| c, edi := s, ecx := n }

/-- `memcpy` before its first instruction. -/
def callMemcpy (dest src n : BitVec 32) (m : Machine) : Machine :=
  { m with pc := 0, esi := src, edi := dest, ecx := n }

/-! ### Bytes that are written one after another -/

/-- Memory with the first `count` bytes of a sequence written from `dest` on. -/
def written (mem : Memory) (dest : BitVec 32) (bytes : Nat → UInt8) (count : Nat) : Memory := fun a =>
  if (a - dest).toNat < count then bytes (a - dest).toNat else mem a

section
variable {mem : Memory} {dest : BitVec 32} {bytes : Nat → UInt8} {count : Nat}

theorem written_next (mem : Memory) (dest : BitVec 32) (bytes : Nat → UInt8) (small : count < 2 ^ 32) :
    Function.update (written mem dest bytes count) (dest + BitVec.ofNat 32 count) (bytes count) =
      written mem dest bytes (count + 1) := by
  funext a
  by_cases here : a = dest + BitVec.ofNat 32 count
  · have offset : (a - dest).toNat = count := by
      rw [here,BitVec.add_comm,BitVec.add_sub_cancel,BitVec.toNat_ofNat,Nat.mod_eq_of_lt small]
    rw [← here,Function.update_self,written,if_pos (by omega),offset]
  · have offset : (a - dest).toNat ≠ count := by
      intro same
      apply here
      rw [← same,BitVec.ofNat_toNat,BitVec.setWidth_eq,BitVec.add_comm,BitVec.sub_add_cancel]
    rw [Function.update_of_ne here,written,written]
    by_cases inside : (a - dest).toNat < count
    · rw [if_pos inside,if_pos (by omega)]
    · rw [if_neg inside,if_neg (by omega)]

/-- A word is four bytes. -/
theorem written_word (small : count + 4 ≤ 2 ^ 32) : storeBytes (written mem dest bytes count)
    (dest + BitVec.ofNat 32 count) (bytes count) (bytes (count + 1)) (bytes (count + 2)) (bytes (count + 3)) =
      written mem dest bytes (count + 4) := by
  have place (i : Nat) : dest + BitVec.ofNat 32 count + BitVec.ofNat 32 i = dest + BitVec.ofNat 32 (count + i) := by
    rw [BitVec.ofNat_add,BitVec.add_assoc]
  have first := written_next mem dest bytes (by omega : count < 2 ^ 32)
  have second := written_next mem dest bytes (by omega : count + 1 < 2 ^ 32)
  have third := written_next mem dest bytes (by omega : count + 2 < 2 ^ 32)
  have fourth := written_next mem dest bytes (by omega : count + 3 < 2 ^ 32)
  rw [← place 1] at second
  rw [← place 2] at third
  rw [← place 3] at fourth
  rw [← fourth,← third,← second,← first]
  rfl

/-- The bytes are where they have been written, and nothing else changes. -/
theorem written_apply (mem : Memory) (dest : BitVec 32) (bytes : Nat → UInt8) (small : count ≤ 2 ^ 32) :
    (∀ i, i < count → written mem dest bytes count (dest + BitVec.ofNat 32 i) = bytes i) ∧
    ∀ a, (∀ i, i < count → a ≠ dest + BitVec.ofNat 32 i) → written mem dest bytes count a = mem a := by
  constructor
  · intro i inside
    have offset : (dest + BitVec.ofNat 32 i - dest).toNat = i := by
      rw [BitVec.add_comm,BitVec.add_sub_cancel,BitVec.toNat_ofNat,Nat.mod_eq_of_lt (by omega)]
    rw [written,offset,if_pos inside]
  · intro a outside
    refine if_neg fun inside => outside _ inside ?_
    rw [BitVec.ofNat_toNat,BitVec.setWidth_eq,BitVec.add_comm,BitVec.sub_add_cancel]

/-- The same of offsets in a segment. -/
theorem written_offset (mem : Memory) (dest : BitVec 32) (bytes : Nat → UInt8) (b : BitVec 32)
    (small : count ≤ 2 ^ 32) :
    (∀ i, i < count → written mem (b + dest) bytes count (b + (dest + BitVec.ofNat 32 i)) = bytes i) ∧
    ∀ a, (∀ i, i < count → a ≠ dest + BitVec.ofNat 32 i) →
      written mem (b + dest) bytes count (b + a) = mem (b + a) := by
  obtain ⟨inside,outside⟩ := written_apply mem (b + dest) bytes small
  constructor
  · intro i before
    rw [← BitVec.add_assoc]
    exact inside i before
  · intro a apart
    refine outside _ fun i before same => apart i before ?_
    rw [BitVec.add_assoc] at same
    exact (BitVec.add_right_inj _).mp same

end

/-! ### A run of the common code -/

/-- What the instructions that move bytes work on. -/
structure View where
  eax : BitVec 32
  esi : BitVec 32
  edi : BitVec 32
  ds : BitVec 16
  mem : Memory

def view (m : Machine) : View := ⟨m.eax,m.esi,m.edi,m.ds,m.mem⟩

/-- The code from `.bottom` on. -/
def fromBottom (move : List (Instr Label)) : List (Instr Label) :=
  [.label .bottom,.testl (.reg .edx) .edx] ++
    (.jz .done :: (move ++ ([.subl (.imm 1) .edx] ++ [.jmp .bottom,.label .done])))

/-- The code from `.aligned` on. -/
def fromAligned (move : List (Instr Label)) (rep : Instr Label) : List (Instr Label) :=
  [.label .aligned,.movwFrom .ds .edx,.movwTo .edx .es,.movl (.reg .ecx) .edx,.shrl 2 .ecx,.andl (.imm 0x3) .edx,
    .cld] ++ (rep :: fromBottom move)

section
variable {base : BitVec 16 → BitVec 32} {move : List (Instr Label)} {rep : Instr Label} {n : Nat}
  {Data : Nat → View → Prop} {k w r : Nat} {m : Machine}

/-- `move` moves a byte and `rep` words, where `Data k` says that the first `k` of
    `n` bytes have been moved. -/
structure Moves (base : BitVec 16 → BitVec 32) (move : List (Instr Label)) (rep : Instr Label) (n : Nat)
    (Data : Nat → View → Prop) : Prop where
  aligned : target (wordwise move rep) .aligned = move.length + 7
  bottom : target (wordwise move rep) .bottom = move.length + 15
  done : target (wordwise move rep) .done = 2 * move.length + 20
  plain : move.all straight = true
  byte : ∀ {k : Nat} {m : Machine}, k < n → Data k (view m) →
    let t := perform base (wordwise move rep) move m
    Data (k + 1) (view t) ∧ t.ecx = m.ecx ∧ t.edx = m.edx
  word : ∀ {k : Nat} {m : Machine}, k + 4 ≤ n → Data k (view m) → m.ecx ≠ 0 → m.df = false → m.es = m.ds →
    ∃ t, exec base (wordwise move rep) m rep = t ∧ Data (k + 4) (view t) ∧ t.pc = m.pc ∧ t.ecx = m.ecx - 1 ∧
      t.edx = m.edx ∧ t.df = false ∧ t.es = t.ds
  last : ∀ {m : Machine}, m.ecx = 0 → exec base (wordwise move rep) m rep = m.next

/-- At `.top`; `ecx` bytes are left. -/
structure AtTop (n : Nat) (Data : Nat → View → Prop) (k : Nat) (m : Machine) : Prop where
  pc : m.pc = 0
  data : Data k (view m)
  left : k + m.ecx.toNat = n

/-- At the string instruction; `w` words and `r` bytes are left. -/
structure AtWords (move : List (Instr Label)) (Data : Nat → View → Prop) (k w r : Nat) (m : Machine) : Prop where
  pc : m.pc = move.length + 14
  data : Data k (view m)
  words : m.ecx.toNat = w
  bytes : m.edx.toNat = r
  up : m.df = false
  segments : m.es = m.ds

/-- At `.bottom`; `r` bytes are left. -/
structure AtBottom (move : List (Instr Label)) (Data : Nat → View → Prop) (k r : Nat) (m : Machine) : Prop where
  pc : m.pc = move.length + 15
  data : Data k (view m)
  bytes : m.edx.toNat = r

/-- Behind `.done`. -/
structure AtEnd (move : List (Instr Label)) (rep : Instr Label) (n : Nat) (Data : Nat → View → Prop) (m : Machine) :
    Prop where
  pc : m.pc = (wordwise move rep).length
  data : Data n (view m)

theorem fetch_top (here : m.pc = 0) : (wordwise move rep).drop m.pc = [.label .top,.testl (.reg .ecx) .ecx] ++
    (.jz .done :: ([.testl (.imm 0x3) .edi] ++ (.jz .aligned :: (move ++ ([.subl (.imm 1) .ecx] ++
      (.jmp .top :: fromAligned move rep)))))) := by
  rw [here]
  rfl

theorem fetch_aligned (move : List (Instr Label)) (rep : Instr Label) :
    (wordwise move rep).drop (move.length + 7) = fromAligned move rep := by
  have split : wordwise move rep = ([.label .top,.testl (.reg .ecx) .ecx,.jz .done,.testl (.imm 0x3) .edi,
      .jz .aligned] ++ move ++ [.subl (.imm 1) .ecx,.jmp .top]) ++ fromAligned move rep := by
    simp [wordwise,fromAligned,fromBottom]
  rw [split]
  exact List.drop_left' (by simp)

theorem fetch_words (move : List (Instr Label)) (rep : Instr Label) :
    (wordwise move rep).drop (move.length + 14) = rep :: fromBottom move := by
  rw [← List.drop_drop (i := 7) (j := move.length + 7),fetch_aligned]
  rfl

theorem fetch_bottom (move : List (Instr Label)) (rep : Instr Label) :
    (wordwise move rep).drop (move.length + 15) = fromBottom move := by
  rw [← List.drop_drop (i := 1) (j := move.length + 14),fetch_words]
  rfl

theorem fetch_done (move : List (Instr Label)) (rep : Instr Label) :
    (wordwise move rep).drop (2 * move.length + 20) = [.label .done] := by
  have split : fromBottom move = ([.label .bottom,.testl (.reg .edx) .edx,.jz .done] ++ move ++
      [.subl (.imm 1) .edx,.jmp .bottom]) ++ [.label .done] := by
    simp [fromBottom]
  have place : 2 * move.length + 20 = move.length + 15 + (move.length + 5) := by omega
  rw [place,← List.drop_drop,fetch_bottom,split]
  exact List.drop_left' (by simp)

/-- From a jump to `.done` to the end. -/
theorem done_end (moves : Moves base move rep n Data) (data : Data n (view m)) :
    ∃ t, Reaches (step base (wordwise move rep)) { m with pc := target (wordwise move rep) .done } t ∧
      AtEnd move rep n Data t := by
  have here : (wordwise move rep).drop (target (wordwise move rep) .done) = .label .done :: [] := by
    rw [moves.done]
    exact fetch_done move rep
  have size : (wordwise move rep).length = 2 * move.length + 21 := by
    simp [wordwise]
    omega
  refine ⟨_,reaches_exec base here,?_,data⟩
  rw [size]
  exact congrArg (· + 1) moves.done

/-- The test of a counter: at the end the code jumps to `.done`. -/
theorem counted_out {r : BitVec 32} (zero : r.toNat = 0) : (r &&& r == 0) = true := by
  rw [BitVec.and_self,beq_iff_eq]
  exact BitVec.eq_of_toNat_eq zero

theorem counted_on {r : BitVec 32} (more : r.toNat ≠ 0) : (r &&& r == 0) = false := by
  rw [BitVec.and_self,beq_eq_false_iff_ne]
  intro zero
  exact more (congrArg BitVec.toNat zero)

theorem minus_one {r : BitVec 32} (more : r.toNat ≠ 0) : (r - 1).toNat = r.toNat - 1 := by
  bv_omega

/-- No byte is left. -/
theorem top_done (moves : Moves base move rep n Data) (top : AtTop n Data n m) :
    ∃ t, Reaches (step base (wordwise move rep)) m t ∧ AtEnd move rep n Data t := by
  have zero : m.ecx.toNat = 0 := by
    have left := top.left
    omega
  obtain ⟨tested,_,here⟩ := reaches_block base (fetch_top top.pc) rfl
  have jumped := reaches_jz_taken base here (counted_out zero)
  obtain ⟨t,ended,at_end⟩ := done_end (m := perform base (wordwise move rep) [.label .top,.testl (.reg .ecx) .ecx] m)
    moves top.data
  exact ⟨t,passes_trans tested (passes_trans jumped ended),at_end⟩

/-- A byte is left: the code comes to the test of the destination. -/
theorem top_more (base : BitVec 16 → BitVec 32) (move : List (Instr Label)) (rep : Instr Label)
    (top : AtTop n Data k m) (more : k < n) :
    ∃ t, Reaches (step base (wordwise move rep)) m t ∧ Data k (view t) ∧ t.ecx = m.ecx ∧ t.zf = (3 &&& m.edi == 0) ∧
      (wordwise move rep).drop t.pc =
        .jz .aligned :: (move ++ ([.subl (.imm 1) .ecx] ++ (.jmp .top :: fromAligned move rep))) := by
  have nonzero : m.ecx.toNat ≠ 0 := by
    have left := top.left
    omega
  obtain ⟨tested,_,here⟩ := reaches_block base (fetch_top top.pc) rfl
  have passed := reaches_jz_passed base here (counted_on nonzero)
  obtain ⟨compared,_,here⟩ := reaches_block base (fetch_next here) rfl
  exact ⟨_,passes_trans tested (passes_trans passed compared),top.data,rfl,rfl,here⟩

/-- A byte is moved, a counter is lowered and the code jumps back. -/
theorem byte_turn (moves : Moves base move rep n Data) {c : Reg} (counter : c = .ecx ∨ c = .edx) {l : Label}
    {rest : List (Instr Label)}
    (here : (wordwise move rep).drop m.pc = move ++ ([.subl (.imm 1) c] ++ (.jmp l :: rest)))
    (data : Data k (view m)) (more : k < n) :
    ∃ t, Reaches (step base (wordwise move rep)) m t ∧ t.pc = target (wordwise move rep) l ∧ Data (k + 1) (view t) ∧
      t.get c = m.get c - 1 := by
  obtain ⟨moved,_,here⟩ := reaches_block base here moves.plain
  obtain ⟨counted,_,here⟩ := reaches_block base here rfl
  have jumped := reaches_jmp base here
  obtain ⟨data,ecx,edx⟩ := moves.byte more data
  refine ⟨_,passes_trans moved (passes_trans counted jumped),rfl,?_,?_⟩
  · obtain rfl | rfl := counter
    · exact data
    · exact data
  · obtain rfl | rfl := counter
    · exact congrArg (· - 1) ecx
    · exact congrArg (· - 1) edx

theorem target_top : target (wordwise move rep) .top = 0 := List.idxOf_cons_self

/-- One turn of the first loop. -/
theorem top_byte (moves : Moves base move rep n Data) (top : AtTop n Data k m) (more : k < n)
    (unaligned : (3 &&& m.edi == 0) = false) :
    ∃ t, Reaches (step base (wordwise move rep)) m t ∧ AtTop n Data (k + 1) t := by
  obtain ⟨t,first,data,counter,flag,here⟩ := top_more base move rep top more
  have passed := reaches_jz_passed base here (flag.trans unaligned)
  obtain ⟨u,turned,pc,data,ecx⟩ := byte_turn (m := t.next) moves (.inl rfl) (fetch_next here) data more
  have lowered : u.ecx = m.ecx - 1 := ecx.trans (congrArg (· - 1) counter)
  have left := top.left
  refine ⟨u,passes_trans first (passes_trans passed turned),pc.trans target_top,data,?_⟩
  rw [lowered,minus_one (by omega)]
  omega

theorem quarter (r : BitVec 32) : (r >>> 2).toNat * 4 + (r &&& 3).toNat = r.toNat := by
  have rest : r.toNat &&& 3 = r.toNat % 4 := Nat.and_two_pow_sub_one_eq_mod r.toNat 2
  rw [BitVec.toNat_ushiftRight,Nat.shiftRight_eq_div_pow,BitVec.toNat_and]
  change r.toNat / 4 * 4 + (r.toNat &&& 3) = r.toNat
  omega

/-- From the first loop to the string instruction. -/
theorem top_words (moves : Moves base move rep n Data) (top : AtTop n Data k m) (more : k < n)
    (aligned : (3 &&& m.edi == 0) = true) :
    ∃ t w r, Reaches (step base (wordwise move rep)) m t ∧ AtWords move Data k w r t ∧ k + 4 * w + r = n := by
  obtain ⟨t,first,data,counter,flag,here⟩ := top_more base move rep top more
  have jumped := reaches_jz_taken base here (flag.trans aligned)
  have there : (wordwise move rep).drop (target (wordwise move rep) .aligned) = fromAligned move rep := by
    rw [moves.aligned]
    exact fetch_aligned move rep
  obtain ⟨prepared,place,_⟩ := reaches_block base
    (m := { t with pc := target (wordwise move rep) .aligned }) there rfl
  have left := top.left
  have split := quarter t.ecx
  refine ⟨_,(t.ecx >>> 2).toNat,(t.ecx &&& 3).toNat,passes_trans first (passes_trans jumped prepared),
    ⟨?_,data,rfl,rfl,rfl,?_⟩,?_⟩
  · rw [place]
    exact congrArg (· + 7) moves.aligned
  · have low : (t.edx.extractLsb' 16 16 ++ t.ds).setWidth 16 = t.ds := BitVec.setWidth_append_eq_right
    exact low
  · rw [counter] at split ⊢
    omega

/-- One repetition of the string instruction. -/
theorem words_turn (moves : Moves base move rep n Data) (words : AtWords move Data k w r m) (more : w ≠ 0)
    (within : k + 4 * w + r = n) :
    ∃ t, Reaches (step base (wordwise move rep)) m t ∧ AtWords move Data (k + 4) (w - 1) r t := by
  have counter := words.words
  have nonzero : m.ecx ≠ 0 := by
    intro zero
    rw [zero] at counter
    exact more counter.symm
  have here : (wordwise move rep).drop m.pc = rep :: fromBottom move := by
    rw [words.pc]
    exact fetch_words move rep
  obtain ⟨t,moved,data,pc,ecx,edx,up,segments⟩ :=
    moves.word (by omega) words.data nonzero words.up words.segments
  have turned := reaches_exec base here
  rw [moved] at turned
  refine ⟨t,turned,pc.trans words.pc,data,?_,?_,up,segments⟩
  · rw [ecx,minus_one (by omega),counter]
  · rw [edx]
    exact words.bytes

theorem words_bottom (moves : Moves base move rep n Data) (words : AtWords move Data k 0 r m) :
    ∃ t, Reaches (step base (wordwise move rep)) m t ∧ AtBottom move Data k r t := by
  have here : (wordwise move rep).drop m.pc = rep :: fromBottom move := by
    rw [words.pc]
    exact fetch_words move rep
  have turned := reaches_exec base here
  rw [moves.last (BitVec.eq_of_toNat_eq words.words)] at turned
  exact ⟨_,turned,congrArg (· + 1) words.pc,words.data,words.bytes⟩

theorem bottom_done (moves : Moves base move rep n Data) (bottom : AtBottom move Data n 0 m) :
    ∃ t, Reaches (step base (wordwise move rep)) m t ∧ AtEnd move rep n Data t := by
  have here : (wordwise move rep).drop m.pc = fromBottom move := by
    rw [bottom.pc]
    exact fetch_bottom move rep
  obtain ⟨tested,_,here⟩ := reaches_block base here rfl
  have jumped := reaches_jz_taken base here (counted_out bottom.bytes)
  obtain ⟨t,ended,at_end⟩ := done_end
    (m := perform base (wordwise move rep) [.label .bottom,.testl (.reg .edx) .edx] m) moves bottom.data
  exact ⟨t,passes_trans tested (passes_trans jumped ended),at_end⟩

/-- One turn of the last loop. -/
theorem bottom_byte (moves : Moves base move rep n Data) (bottom : AtBottom move Data k r m) (more : r ≠ 0)
    (within : k + r = n) :
    ∃ t, Reaches (step base (wordwise move rep)) m t ∧ AtBottom move Data (k + 1) (r - 1) t := by
  have here : (wordwise move rep).drop m.pc = fromBottom move := by
    rw [bottom.pc]
    exact fetch_bottom move rep
  have counter := bottom.bytes
  have nonzero : m.edx.toNat ≠ 0 := by omega
  obtain ⟨tested,_,here⟩ := reaches_block base here rfl
  have passed := reaches_jz_passed base here (counted_on nonzero)
  obtain ⟨t,turned,pc,data,edx⟩ := byte_turn moves (.inr rfl) (fetch_next here) bottom.data (by omega)
  have lowered : t.edx = m.edx - 1 := edx
  refine ⟨t,passes_trans tested (passes_trans passed turned),pc.trans moves.bottom,data,?_⟩
  rw [lowered,minus_one nonzero,counter]

theorem bottom_run (moves : Moves base move rep n Data) (bottom : AtBottom move Data k r m) (within : k + r = n) :
    ∃ t, Reaches (step base (wordwise move rep)) m t ∧ AtEnd move rep n Data t := by
  refine reaches_loop (fun r m => ∃ k, AtBottom move Data k r m ∧ k + r = n) ?_ ⟨k,bottom,within⟩
  rintro r m ⟨k,bottom,within⟩
  by_cases more : r = 0
  · subst more
    obtain rfl : k = n := within
    obtain ⟨t,reaches,at_end⟩ := bottom_done moves bottom
    exact ⟨t,reaches,.inl at_end⟩
  · obtain ⟨t,reaches,bottom⟩ := bottom_byte moves bottom more within
    exact ⟨t,reaches,.inr ⟨r - 1,by omega,k + 1,bottom,by omega⟩⟩

theorem words_run (moves : Moves base move rep n Data) (words : AtWords move Data k w r m)
    (within : k + 4 * w + r = n) :
    ∃ t, Reaches (step base (wordwise move rep)) m t ∧ AtEnd move rep n Data t := by
  refine reaches_loop (fun w m => ∃ k, AtWords move Data k w r m ∧ k + 4 * w + r = n) ?_ ⟨k,words,within⟩
  rintro w m ⟨k,words,within⟩
  by_cases more : w = 0
  · subst more
    obtain ⟨t,first,bottom⟩ := words_bottom moves words
    obtain ⟨u,rest,at_end⟩ := bottom_run moves bottom (by omega)
    exact ⟨u,passes_trans first rest,.inl at_end⟩
  · obtain ⟨t,reaches,words⟩ := words_turn moves words more within
    exact ⟨t,reaches,.inr ⟨w - 1,by omega,k + 4,words,by omega⟩⟩

/-- The loops end, for every number of bytes and every alignment, with all bytes
    moved. -/
theorem wordwise_run (moves : Moves base move rep n Data) (top : AtTop n Data k m) :
    ∃ t, Reaches (step base (wordwise move rep)) m t ∧ AtEnd move rep n Data t := by
  refine reaches_loop (fun left m => ∃ k, AtTop n Data k m ∧ k + left = n) ?_ ⟨k,top,top.left⟩
  rintro left m ⟨k,top,within⟩
  by_cases more : left = 0
  · subst more
    obtain rfl : k = n := within
    obtain ⟨t,reaches,at_end⟩ := top_done moves top
    exact ⟨t,reaches,.inl at_end⟩
  · cases aligned : 3 &&& m.edi == 0 with
    | true =>
      obtain ⟨t,w,r,first,words,within⟩ := top_words moves top (by omega) aligned
      obtain ⟨u,rest,at_end⟩ := words_run moves words within
      exact ⟨u,passes_trans first rest,.inl at_end⟩
    | false =>
      obtain ⟨t,reaches,top⟩ := top_byte moves top (by omega) aligned
      exact ⟨t,reaches,.inr ⟨left - 1,by omega,k + 1,top,by omega⟩⟩

end

/-! ### `memcpy` -/

section
variable {base : BitVec 16 → BitVec 32} {start : View} {n k j : Nat}

/-- The next address. -/
theorem place_next (a : BitVec 32) (k i : Nat) :
    a + BitVec.ofNat 32 k + BitVec.ofNat 32 i = a + BitVec.ofNat 32 (k + i) := by
  rw [BitVec.ofNat_add,BitVec.add_assoc]

/-- An address in a segment that has moved by `k` bytes. -/
theorem place_offset (base : BitVec 16 → BitVec 32) {s t : BitVec 16} {a b : BitVec 32} (same : s = t)
    (moved : a = b + BitVec.ofNat 32 k) : base s + a = base t + b + BitVec.ofNat 32 k := by
  rw [same,moved,BitVec.add_assoc]

/-- `memcpy` has copied `k` bytes. -/
structure Copied (base : BitVec 16 → BitVec 32) (start : View) (k : Nat) (v : View) : Prop where
  esi : v.esi = start.esi + BitVec.ofNat 32 k
  edi : v.edi = start.edi + BitVec.ofNat 32 k
  ds : v.ds = start.ds
  mem : v.mem = written start.mem (base start.ds + start.edi)
    (fun i => start.mem (base start.ds + start.esi + BitVec.ofNat 32 i)) k

/-- No byte of the source is written. -/
def Apart (start : View) (n : Nat) : Prop := ∀ i j, i < n → j < n →
  start.esi + BitVec.ofNat 32 i ≠ start.edi + BitVec.ofNat 32 j

theorem copied_source {v : View} (apart : Apart start n) (copied : Copied base start k v) (within : k ≤ n)
    (small : n ≤ 2 ^ 32) (inside : j < n) : v.mem (base start.ds + start.esi + BitVec.ofNat 32 j) =
      start.mem (base start.ds + start.esi + BitVec.ofNat 32 j) := by
  rw [copied.mem]
  refine (written_apply _ _ _ (by omega)).2 _ fun i before same => apart j i inside (by omega) ?_
  rw [BitVec.add_assoc,BitVec.add_assoc] at same
  exact (BitVec.add_right_inj _).mp same

theorem advance_up {m : Machine} (up : m.df = false) (a : BitVec 32) : advance m a = a + 4 := by
  rw [advance,up]
  rfl

/-- One byte goes through `al`. -/
theorem low_byte (high : BitVec 24) (b : UInt8) : UInt8.ofBitVec ((high ++ b.toBitVec).setWidth 8) = b :=
  congrArg UInt8.ofBitVec BitVec.setWidth_append_eq_right

theorem memcpy_moves (base : BitVec 16 → BitVec 32) (apart : Apart start n) (small : n ≤ 2 ^ 32) :
    Moves base [.movbLoad .esi,.movbStore .edi,.addl (.imm 1) .edi,.addl (.imm 1) .esi] .repMovsl n
      (Copied base start) where
  aligned := rfl
  bottom := rfl
  done := rfl
  plain := rfl
  byte := by
    intro k m more copied
    have source := copied_source apart copied (by omega) small more
    refine ⟨⟨?_,?_,copied.ds,?_⟩,rfl,rfl⟩
    · exact (congrArg (· + 1) copied.esi).trans (place_next start.esi k 1)
    · exact (congrArg (· + 1) copied.edi).trans (place_next start.edi k 1)
    · have read : m.mem (base m.ds + m.esi) = start.mem (base start.ds + start.esi + BitVec.ofNat 32 k) := by
        rw [← source,← place_offset base copied.ds copied.esi]
        rfl
      have place : base m.ds + m.edi = base start.ds + start.edi + BitVec.ofNat 32 k :=
        place_offset base copied.ds copied.edi
      change Function.update m.mem (base m.ds + m.edi)
        (UInt8.ofBitVec ((m.eax.extractLsb' 8 24 ++ (m.mem (base m.ds + m.esi)).toBitVec).setWidth 8)) = _
      rw [low_byte,read,place,← written_next _ _ _ (by omega),← copied.mem]
      rfl
  word := by
    intro k m within copied nonzero up segments
    have read (i : Nat) (inside : i < 4) : m.mem (base start.ds + start.esi + BitVec.ofNat 32 k + BitVec.ofNat 32 i) =
        start.mem (base start.ds + start.esi + BitVec.ofNat 32 (k + i)) := by
      rw [place_next]
      exact copied_source apart copied (by omega) small (by omega)
    have source : base m.ds + m.esi = base start.ds + start.esi + BitVec.ofNat 32 k :=
      place_offset base copied.ds copied.esi
    have place : base m.es + m.edi = base start.ds + start.edi + BitVec.ofNat 32 k :=
      place_offset base (segments.trans copied.ds) copied.edi
    refine ⟨_,if_neg nonzero,⟨?_,?_,copied.ds,?_⟩,rfl,rfl,rfl,up,segments⟩
    · exact (advance_up up m.esi).trans ((congrArg (· + 4) copied.esi).trans (place_next start.esi k 4))
    · exact (advance_up up m.edi).trans ((congrArg (· + 4) copied.edi).trans (place_next start.edi k 4))
    · change store32 m.mem (base m.es + m.edi) (load32 m.mem (base m.ds + m.esi)) = _
      have first := copied_source apart copied (by omega) small (by omega : k < n)
      have second := read 1 (by decide)
      have third := read 2 (by decide)
      have fourth := read 3 (by decide)
      change m.mem _ = _ at first
      rw [source,place,store32_load32,first]
      change storeBytes m.mem _ _ (m.mem (_ + BitVec.ofNat 32 1)) (m.mem (_ + BitVec.ofNat 32 2))
        (m.mem (_ + BitVec.ofNat 32 3)) = _
      rw [second,third,fourth,← written_word (by omega),← copied.mem]
      rfl
  last := by
    intro m zero
    exact if_pos zero

/-- The registers and the memory of a call of `memcpy`. -/
theorem memcpy_run (base : BitVec 16 → BitVec 32) (dest src n : BitVec 32) (m : Machine)
    (apart : Apart (view (callMemcpy dest src n m)) n.toNat) :
    ∃ last, Reaches (step base memcpyCode) (callMemcpy dest src n m) last ∧ last.pc = memcpyCode.length ∧
      last.mem = written m.mem (base m.ds + dest) (fun i => m.mem (base m.ds + src + BitVec.ofNat 32 i)) n.toNat := by
  have moves := memcpy_moves base apart (Nat.le_of_lt n.isLt)
  have start : Copied base (view (callMemcpy dest src n m)) 0 (view (callMemcpy dest src n m)) :=
    ⟨(BitVec.add_zero _).symm,(BitVec.add_zero _).symm,rfl,rfl⟩
  obtain ⟨last,reaches,at_end⟩ := wordwise_run (m := callMemcpy dest src n m) moves ⟨rfl,start,Nat.zero_add _⟩
  exact ⟨last,reaches,at_end.pc,at_end.data.mem⟩

/-! ### `memset` -/

/-- `memset` has set `k` bytes to `b`. -/
structure Filled (base : BitVec 16 → BitVec 32) (start : View) (b : UInt8) (k : Nat) (v : View) : Prop where
  eax : v.eax = b.toBitVec ++ b.toBitVec ++ b.toBitVec ++ b.toBitVec
  edi : v.edi = start.edi + BitVec.ofNat 32 k
  ds : v.ds = start.ds
  mem : v.mem = written start.mem (base start.ds + start.edi) (fun _ => b) k

theorem memset_moves (base : BitVec 16 → BitVec 32) (start : View) (b : UInt8) (small : n ≤ 2 ^ 32) :
    Moves base [.movbStore .edi,.addl (.imm 1) .edi] .repStosl n (Filled base start b) where
  aligned := rfl
  bottom := rfl
  done := rfl
  plain := rfl
  byte := by
    intro k m more filled
    refine ⟨⟨filled.eax,?_,filled.ds,?_⟩,rfl,rfl⟩
    · exact (congrArg (· + 1) filled.edi).trans (place_next start.edi k 1)
    · have value : m.eax = _ := filled.eax
      have place : base m.ds + m.edi = base start.ds + start.edi + BitVec.ofNat 32 k :=
        place_offset base filled.ds filled.edi
      change Function.update m.mem (base m.ds + m.edi) (UInt8.ofBitVec (m.eax.setWidth 8)) = _
      rw [value,low_byte,place,← written_next _ _ _ (by omega),← filled.mem]
      rfl
  word := by
    intro k m within filled nonzero up segments
    have value : m.eax = _ := filled.eax
    have place : base m.es + m.edi = base start.ds + start.edi + BitVec.ofNat 32 k :=
      place_offset base (segments.trans filled.ds) filled.edi
    refine ⟨_,if_neg nonzero,⟨filled.eax,?_,filled.ds,?_⟩,rfl,rfl,rfl,up,segments⟩
    · exact (advance_up up m.edi).trans ((congrArg (· + 4) filled.edi).trans (place_next start.edi k 4))
    · obtain ⟨first,second,third,fourth⟩ := byteOf_append b b b b
      change store32 m.mem (base m.es + m.edi) m.eax = _
      rw [value,store32,first,second,third,fourth,place,← written_word (by omega),← filled.mem]
      rfl
  last := by
    intro m zero
    exact if_pos zero

/-- The low byte of a word, alone. -/
theorem low_mask (c : BitVec 32) : c &&& 0xFF = (c.setWidth 8).setWidth 32 := by
  apply BitVec.eq_of_toNat_eq
  have low : c.toNat &&& 255 = c.toNat % 256 := Nat.and_two_pow_sub_one_eq_mod c.toNat 8
  rw [BitVec.toNat_and,BitVec.toNat_setWidth,BitVec.toNat_setWidth]
  change c.toNat &&& 255 = c.toNat % 256 % 4294967296
  omega

/-- `memset` puts the low byte of its argument into each byte of `eax`. -/
theorem callMemset_eax (s c n : BitVec 32) (m : Machine) : let b := c.setWidth 8
    (callMemset s c n m).eax = b ++ b ++ b ++ b := by
  intro b
  have joined : (b ++ b ++ b ++ b : BitVec (8 + 8 + 8 + 8)).setWidth 32 = b.setWidth 32 <<< (8 + 8 + 8) |||
      b.setWidth 32 <<< (8 + 8) ||| b.setWidth 32 <<< 8 ||| b.setWidth 32 :=
    BitVec.setWidth_append_append_append_eq_shiftLeft_setWidth_or
  rw [BitVec.setWidth_eq] at joined
  simp only [callMemset,low_mask]
  exact joined.symm

theorem memset_run (base : BitVec 16 → BitVec 32) (s c n : BitVec 32) (m : Machine) :
    ∃ last, Reaches (step base memsetCode) (callMemset s c n m) last ∧ last.pc = memsetCode.length ∧
      last.mem = written m.mem (base m.ds + s) (fun _ => ⟨c.setWidth 8⟩) n.toNat := by
  have moves := memset_moves base (view (callMemset s c n m)) ⟨c.setWidth 8⟩ (Nat.le_of_lt n.isLt)
  have start : Filled base (view (callMemset s c n m)) ⟨c.setWidth 8⟩ 0 (view (callMemset s c n m)) :=
    ⟨callMemset_eax s c n m,(BitVec.add_zero _).symm,rfl,rfl⟩
  obtain ⟨last,reaches,at_end⟩ := wordwise_run (m := callMemset s c n m) moves ⟨rfl,start,Nat.zero_add _⟩
  exact ⟨last,reaches,at_end.pc,at_end.data.mem⟩

/-! ### The routines move bytes -/

/-- Two ranges of `n` bytes that neither wrap around the address space nor overlap. -/
structure Ranges (dest src n : BitVec 32) : Prop where
  destFits : dest.toNat + n.toNat ≤ 2 ^ 32
  srcFits : src.toNat + n.toNat ≤ 2 ^ 32
  apart : dest.toNat + n.toNat ≤ src.toNat ∨ src.toNat + n.toNat ≤ dest.toNat

theorem ranges_apart {dest src n : BitVec 32} (ranges : Ranges dest src n) (m : Machine) :
    Apart (view (callMemcpy dest src n m)) n.toNat := by
  intro i j before before' same
  have destFits := ranges.destFits
  have srcFits := ranges.srcFits
  have place := congrArg BitVec.toNat same
  change (src + BitVec.ofNat 32 i).toNat = (dest + BitVec.ofNat 32 j).toNat at place
  rw [BitVec.toNat_add,BitVec.toNat_add,BitVec.toNat_ofNat,BitVec.toNat_ofNat,Nat.mod_eq_of_lt (by omega : i < 2 ^ 32),
    Nat.mod_eq_of_lt (by omega : j < 2 ^ 32),Nat.mod_eq_of_lt (by omega),Nat.mod_eq_of_lt (by omega)] at place
  rcases ranges.apart with below | above
  · omega
  · omega

/-- The word-wise routines do what the byte-wise ones do, for every alignment and
    every number of bytes. Their loops end. `memcpy` leaves in its destination what
    its source held, and `memset` the low byte of `c`; all other bytes of memory
    stay. Addresses are offsets in the data segment. -/
theorem wordwise_moves_bytes (base : BitVec 16 → BitVec 32) (m : Machine) :
    (∀ dest src n, Ranges dest src n → ∃ last, Reaches (step base memcpyCode) (callMemcpy dest src n m) last ∧
      last.pc = memcpyCode.length ∧
      (∀ i, i < n.toNat → last.mem (base m.ds + (dest + BitVec.ofNat 32 i)) =
        m.mem (base m.ds + (src + BitVec.ofNat 32 i))) ∧
      ∀ a, (∀ i, i < n.toNat → a ≠ dest + BitVec.ofNat 32 i) → last.mem (base m.ds + a) = m.mem (base m.ds + a)) ∧
    ∀ s c n, ∃ last, Reaches (step base memsetCode) (callMemset s c n m) last ∧ last.pc = memsetCode.length ∧
      (∀ i, i < n.toNat → last.mem (base m.ds + (s + BitVec.ofNat 32 i)) = ⟨c.setWidth 8⟩) ∧
      ∀ a, (∀ i, i < n.toNat → a ≠ s + BitVec.ofNat 32 i) → last.mem (base m.ds + a) = m.mem (base m.ds + a) := by
  constructor
  · intro dest src n ranges
    obtain ⟨last,reaches,pc,mem⟩ := memcpy_run base dest src n m (ranges_apart ranges m)
    obtain ⟨inside,outside⟩ := written_offset m.mem dest
      (fun i => m.mem (base m.ds + src + BitVec.ofNat 32 i)) (base m.ds) (Nat.le_of_lt n.isLt)
    rw [← mem] at inside outside
    refine ⟨last,reaches,pc,?_,outside⟩
    intro i before
    rw [inside i before,BitVec.add_assoc]
  · intro s c n
    obtain ⟨last,reaches,pc,mem⟩ := memset_run base s c n m
    obtain ⟨inside,outside⟩ := written_offset m.mem s (fun _ => ⟨c.setWidth 8⟩) (base m.ds) (Nat.le_of_lt n.isLt)
    rw [← mem] at inside outside
    exact ⟨last,reaches,pc,inside,outside⟩

/-- A machine with all registers 0, whose memory holds the low bytes of its
    addresses. -/
def idle : Machine := ⟨0,0,0,0,0,0,0,0,false,true,fun a => ⟨a.setWidth 8⟩⟩

/-- Eleven bytes to an address that is not aligned. -/
theorem wordwise_moves_bytes_eleven : ∃ last, Reaches (step (fun _ => 0) memcpyCode) (callMemcpy 5 100 11 idle) last ∧
    last.pc = memcpyCode.length ∧
    (∀ i, i < 11 → last.mem (0 + (5 + BitVec.ofNat 32 i)) = idle.mem (0 + (100 + BitVec.ofNat 32 i))) ∧
    ∀ a, (∀ i, i < 11 → a ≠ 5 + BitVec.ofNat 32 i) → last.mem (0 + a) = idle.mem (0 + a) :=
  (wordwise_moves_bytes (fun _ => 0) idle).1 5 100 11 ⟨by decide,by decide,by decide⟩

/-- In a flat address space `memcpy` leaves the memory that the copy byte by byte
    leaves. -/
theorem memcpy_bytewise (mem : Nat → UInt8) {dest src n : BitVec 32} (ranges : Ranges dest src n) (m : Machine) :
    ∃ last, Reaches (step (fun _ => 0) memcpyCode) (callMemcpy dest src n { m with mem := fun a => mem a.toNat })
      last ∧ last.pc = memcpyCode.length ∧
      ∀ a, last.mem a = Display.memcpy some mem dest.toNat src.toNat n.toNat a.toNat := by
  obtain ⟨last,reaches,pc,after⟩ :=
    memcpy_run (fun _ => 0) dest src n { m with mem := fun a => mem a.toNat } (ranges_apart ranges _)
  have flat (a : BitVec 32) : 0 + a = a := BitVec.zero_add a
  change last.mem = written (fun a => mem a.toNat) (0 + dest) (fun i => mem (0 + src + BitVec.ofNat 32 i).toNat)
    n.toNat at after
  refine ⟨last,reaches,pc,fun a => ?_⟩
  have destFits := ranges.destFits
  have srcFits := ranges.srcFits
  have offset := BitVec.toNat_sub a dest
  have high := a.isLt
  rw [after,Display.memcpy_apart mem ranges.apart,flat,flat,written]
  by_cases inside : dest.toNat ≤ a.toNat ∧ a.toNat < dest.toNat + n.toNat
  · have place : (a - dest).toNat = a.toNat - dest.toNat := by omega
    rw [place,if_pos (by omega),Bytes.copyInto_inside inside.1 inside.2]
    rw [BitVec.toNat_add,BitVec.toNat_ofNat,Nat.mod_eq_of_lt (by omega : a.toNat - dest.toNat < 2 ^ 32),
      Nat.mod_eq_of_lt (by omega)]
  · rw [if_neg (by omega),Bytes.copyInto_outside inside]

end

end MazeOS.MemoryRoutines
