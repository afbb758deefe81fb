import MazeOS.Files
import Mathlib.Tactic.IntervalCases

/-!
The registers of the RTC behind its two ports: a byte on port 0x70 selects a
register, port 0x71 reads or writes the selected one. `rtc_write` and `rtc_init`
select and access, and `rtc_interrupt_handler`, which selects register C, may
run between the two. `register_accesses_iff` says which interrupts do no harm.
-/
namespace MazeOS.RtcRegisters
open MazeOS.Files (halvesToOne)

abbrev Byte := BitVec 8

def rtcPort1 : Nat := 0x70
def rtcPort2 : Nat := 0x71
def statusRegA : Byte := 0x8A
def statusRegB : Byte := 0x8B
def statusRegC : Byte := 0x0C
def maskPie : Byte := 0x40
def maskLower : Byte := 0xF0
def dividerSettingCeil : Nat := 16
def dividerSetting : Byte := 15
def rtcMaxFreq : Nat := 1024
def rtcMinFreq : Nat := 2

/-- The chip, the registers that were written (the last one first), and the flag
    of `rtc.c`. -/
structure Rtc where
  index : Byte
  regs : Byte → Byte
  written : List Byte
  rtcInterruptOccurred : Bool

/-- The register that a byte selects, by its low seven bits. -/
def selected (value : Byte) : Byte := value &&& 0x7F

/-- `outb`. -/
def outb (d : Rtc) (value : Byte) (port : Nat) : Rtc :=
  if port = rtcPort1 then { d with index := selected value }
  else if port = rtcPort2 then
    { d with regs := Function.update d.regs d.index value, written := d.index :: d.written }
  else d

/-- `inb` of the data port. -/
def inb (d : Rtc) : Byte := d.regs d.index

/-- `rtc_interrupt_handler`; what it reads from register C is not used. -/
def rtcInterruptHandler (d : Rtc) : Rtc := outb { d with rtcInterruptOccurred := true } statusRegC rtcPort1

/-- Interrupts are handled, one after another. -/
def interrupted (d : Rtc) : Nat → Rtc
  | 0 => d
  | n + 1 => rtcInterruptHandler (interrupted d n)

/-! ### The functions of `rtc.c` -/

/-- The loop of `rtc_write`: how often the frequency is halved, or `none` when an
    odd number is reached. -/
def halvings : Nat → Nat → Option Nat
  | 0, _ => none
  | left + 1, freq => if freq = 1 then some 0 else if freq % 2 ≠ 0 then none else (halvings left (freq / 2)).map (· + 1)

/-- `rtc_write` with four bytes; `irqs i` interrupts are handled before its port
    access `i`, or its end. Its loop makes at most ten halvings. -/
def rtcWrite (irqs : Nat → Nat) (d : Rtc) (freq : Nat) : Int × Rtc :=
  let d := outb (interrupted d (irqs 0)) statusRegA rtcPort1
  let d := interrupted d (irqs 1)
  let prevSaved := inb d
  let d := interrupted d (irqs 2)
  if freq < rtcMinFreq ∨ freq > rtcMaxFreq then (-1,d)
  else
    match halvings 11 freq with
    | none => (-1,d)
    | some count =>
      let setDivider := BitVec.ofNat 8 (dividerSettingCeil - count)
      let d := outb d statusRegA rtcPort1
      let d := outb (interrupted d (irqs 3)) ((prevSaved &&& maskLower) ||| setDivider) rtcPort2
      (4,interrupted d (irqs 4))

/-- `rtc_init`, up to its `enable_irq`. -/
def rtcInit (irqs : Nat → Nat) (d : Rtc) : Rtc :=
  let d := { d with rtcInterruptOccurred := false }
  let d := outb (interrupted d (irqs 0)) statusRegB rtcPort1
  let d := interrupted d (irqs 1)
  let prevSaved := inb d
  let d := outb (interrupted d (irqs 2)) statusRegB rtcPort1
  let d := outb (interrupted d (irqs 3)) (prevSaved ||| maskPie) rtcPort2
  let d := outb (interrupted d (irqs 4)) statusRegA rtcPort1
  let d := interrupted d (irqs 5)
  let prevSaved := inb d
  let d := outb (interrupted d (irqs 6)) statusRegA rtcPort1
  let d := outb (interrupted d (irqs 7)) ((prevSaved &&& maskLower) ||| dividerSetting) rtcPort2
  interrupted d (irqs 8)

/-! ### What is claimed, and when it holds -/

def regA : Byte := 0x0A
def regB : Byte := 0x0B
def regC : Byte := 0x0C

/-- A power of two between 2 and 1024, and its exponent. -/
def Rate (freq e : Nat) : Prop := 1 ≤ e ∧ e ≤ 10 ∧ freq = 2 ^ e

/-- `rtc_write` returns 4 for a rate, which is then set in register A, and -1
    otherwise; it writes no other register. -/
structure WriteRight (freq : Nat) (before : Rtc) (value : Int) (after : Rtc) : Prop where
  rate : ∀ e, Rate freq e → value = 4 ∧
    after.regs regA = (before.regs regA &&& maskLower) ||| BitVec.ofNat 8 (16 - e)
  refused : (¬ ∃ e, Rate freq e) → value = -1 ∧ after.regs regA = before.regs regA
  others : ∀ r, r ∈ after.written → r = regA

/-- `rtc_init` sets the periodic interrupt in register B and the rate 15 in
    register A; it writes no other register. -/
structure InitRight (before after : Rtc) : Prop where
  regB : after.regs regB = before.regs regB ||| maskPie
  regA : after.regs regA = (before.regs regA &&& maskLower) ||| 15
  others : ∀ r, r ∈ after.written → r = RtcRegisters.regA ∨ r = RtcRegisters.regB

/-- No interrupt comes between the selection and the write of register A, and
    none between its selection and its read that changes what is read. -/
def WriteSafe (irqs : Nat → Nat) (before : Rtc) : Prop :=
  irqs 3 = 0 ∧ (irqs 1 = 0 ∨ before.regs regC &&& maskLower = before.regs regA &&& maskLower)

def InitSafe (irqs : Nat → Nat) (before : Rtc) : Prop :=
  irqs 3 = 0 ∧ irqs 7 = 0 ∧ (irqs 1 = 0 ∨ before.regs regC ||| maskPie = before.regs regB ||| maskPie) ∧
    (irqs 5 = 0 ∨ before.regs regC &&& maskLower = before.regs regA &&& maskLower)

section
variable {d : Rtc} {n : Nat}

@[simp] theorem interrupted_regs (d : Rtc) (n : Nat) : (interrupted d n).regs = d.regs := by
  induction n with
  | zero => rfl
  | succ n ih => exact ih

@[simp] theorem interrupted_written (d : Rtc) (n : Nat) : (interrupted d n).written = d.written := by
  induction n with
  | zero => rfl
  | succ n ih => exact ih

/-- The handler leaves register C selected. -/
theorem interrupted_index (d : Rtc) (n : Nat) : (interrupted d n).index = if n = 0 then d.index else regC := by
  cases n with
  | zero => rfl
  | succ n => rfl

theorem halvings_some {left freq c : Nat} : halvings left freq = some c ↔ freq = 2 ^ c ∧ c < left := by
  induction left generalizing freq c with
  | zero => simp [halvings]
  | succ n ih =>
    rw [halvings]
    by_cases one : freq = 1
    · subst one
      rw [if_pos rfl,Option.some.injEq]
      constructor
      · rintro rfl
        exact ⟨rfl,Nat.succ_pos n⟩
      · rintro ⟨power,_⟩
        by_contra some
        have := Nat.one_lt_two_pow (fun zero => some zero.symm)
        omega
    · rw [if_neg one]
      cases c with
      | zero =>
        refine iff_of_false ?_ (fun both => one both.1)
        split
        · exact fun found => by cases found
        · intro found
          obtain ⟨c,_,next⟩ := Option.map_eq_some_iff.mp found
          cases next
      | succ c =>
        by_cases odd : freq % 2 ≠ 0
        · rw [if_pos odd]
          refine iff_of_false (fun found => by cases found) ?_
          rintro ⟨power,_⟩
          rw [power,Nat.pow_succ] at odd
          omega
        · rw [if_neg odd,Option.map_eq_some_iff]
          constructor
          · rintro ⟨e,found,next⟩
            cases next
            obtain ⟨power,below⟩ := ih.mp found
            exact ⟨by rw [Nat.pow_succ]; omega,by omega⟩
          · rintro ⟨power,below⟩
            rw [Nat.pow_succ] at power
            exact ⟨c,ih.mpr ⟨by omega,by omega⟩,rfl⟩

/-- The loop ends at 1 exactly when it counts halvings. -/
theorem halvesToOne_iff {left freq : Nat} : halvesToOne left freq = (halvings left freq).isSome := by
  induction left generalizing freq with
  | zero => rfl
  | succ n ih =>
    rw [halvesToOne,halvings]
    split
    · rfl
    · split
      · rfl
      · rw [ih,Option.isSome_map]

@[simp] theorem outb_select (d : Rtc) (value : Byte) : outb d value rtcPort1 = { d with index := selected value } := rfl

@[simp] theorem outb_store (d : Rtc) (value : Byte) : outb d value rtcPort2 =
    { d with regs := Function.update d.regs d.index value, written := d.index :: d.written } := rfl

/-- The register that an access reaches after the selection of another and some
    interrupts. -/
def reached (irqs : Nat) (r : Byte) : Byte := if irqs = 0 then r else regC

theorem reached_eq (n : Nat) (r : Byte) (view : Byte → Byte) (regs : Byte → Byte) :
    view (regs (reached n r)) = view (regs r) ↔ n = 0 ∨ view (regs regC) = view (regs r) := by
  unfold reached
  by_cases none : n = 0
  · rw [if_pos none]
    exact iff_of_true rfl (.inl none)
  · rw [if_neg none]
    exact (or_iff_right none).symm

theorem rate_range {freq e : Nat} (rate : Rate freq e) : rtcMinFreq ≤ freq ∧ freq ≤ rtcMaxFreq := by
  obtain ⟨low,high,rfl⟩ := rate
  constructor
  · show 2 ^ 1 ≤ 2 ^ e
    exact Nat.pow_le_pow_right (by decide) low
  · show 2 ^ e ≤ 2 ^ 10
    exact Nat.pow_le_pow_right (by decide) high

theorem rtcWrite_stores {freq e : Nat} (irqs : Nat → Nat) (d : Rtc) (rate : Rate freq e) :
    (rtcWrite irqs d freq).1 = 4 ∧
    (rtcWrite irqs d freq).2.regs = Function.update d.regs (reached (irqs 3) regA)
      ((d.regs (reached (irqs 1) regA) &&& maskLower) ||| BitVec.ofNat 8 (16 - e)) ∧
    (rtcWrite irqs d freq).2.written = reached (irqs 3) regA :: d.written := by
  obtain ⟨low,high⟩ := rate_range rate
  have counted : halvings 11 freq = some e := halvings_some.mpr ⟨rate.2.2,by have := rate.2.1; omega⟩
  have inside : ¬ (freq < rtcMinFreq ∨ freq > rtcMaxFreq) := by omega
  have chosen : selected statusRegA = regA := rfl
  simp only [rtcWrite,if_neg inside,counted,inb,outb_select,outb_store,interrupted_regs,interrupted_written,
    interrupted_index,chosen,reached,dividerSettingCeil,and_self]

theorem rtcWrite_refuses {freq : Nat} (irqs : Nat → Nat) (d : Rtc) (refused : ¬ ∃ e, Rate freq e) :
    (rtcWrite irqs d freq).1 = -1 ∧ (rtcWrite irqs d freq).2.regs = d.regs ∧
    (rtcWrite irqs d freq).2.written = d.written := by
  by_cases outside : freq < rtcMinFreq ∨ freq > rtcMaxFreq
  · simp only [rtcWrite,if_pos outside,outb_select,interrupted_regs,interrupted_written,and_self]
  · cases counted : halvings 11 freq with
    | none =>
      simp only [rtcWrite,if_neg outside,counted,outb_select,interrupted_regs,interrupted_written,and_self]
    | some e =>
      obtain ⟨power,below⟩ := halvings_some.mp counted
      refine absurd ⟨e,?_,by omega,power⟩ refused
      by_contra none
      have zero : e = 0 := by omega
      subst zero
      simp only [rtcMinFreq] at outside
      omega

/-- The value is the one that `write` returns, whatever is interrupted. -/
theorem rtcWrite_value (irqs : Nat → Nat) (d : Rtc) (buf : Nat → UInt8) :
    Files.rtcWrite buf 4 = (rtcWrite irqs d (Filesystem.littleEndian buf)).1 := by
  unfold Files.rtcWrite rtcWrite
  rw [if_neg (by decide),halvesToOne_iff]
  by_cases outside : Filesystem.littleEndian buf < 2 ∨ Filesystem.littleEndian buf > 1024
  · have refused : Filesystem.littleEndian buf < rtcMinFreq ∨ Filesystem.littleEndian buf > rtcMaxFreq := outside
    rw [if_pos outside,if_pos refused]
  · have inside : ¬ (Filesystem.littleEndian buf < rtcMinFreq ∨ Filesystem.littleEndian buf > rtcMaxFreq) := outside
    rw [if_neg outside,if_neg inside]
    cases halvings 11 (Filesystem.littleEndian buf) <;> rfl

/-- A low nibble is kept apart from a high one. -/
theorem nibble_or {x y low : Byte} (clear : low &&& maskLower = 0) :
    (x &&& maskLower) ||| low = (y &&& maskLower) ||| low ↔ x &&& maskLower = y &&& maskLower := by
  have high : ∀ z : Byte, ((z &&& maskLower) ||| low) &&& maskLower = z &&& maskLower := by
    intro z
    rw [BitVec.and_or_distrib_right,clear,BitVec.and_assoc,BitVec.and_self]
    exact BitVec.or_zero
  constructor
  · intro same
    rw [← high x,same,high y]
  · intro same
    rw [same]

theorem divider_low {e : Nat} (low : 1 ≤ e) (high : e ≤ 10) : BitVec.ofNat 8 (16 - e) &&& maskLower = 0 := by
  interval_cases e <;> rfl

/-- A call that sets a rate is right exactly when no interrupt does harm. -/
theorem rtcWrite_right {freq e : Nat} (irqs : Nat → Nat) (fresh : d.written = []) (rate : Rate freq e) :
    WriteRight freq d (rtcWrite irqs d freq).1 (rtcWrite irqs d freq).2 ↔ WriteSafe irqs d := by
  obtain ⟨value,regs,written⟩ := rtcWrite_stores irqs d rate
  rw [fresh] at written
  have unique : ∀ e', Rate freq e' → e' = e := by
    intro e' other
    exact Nat.pow_right_injective (show 2 ≤ 2 by decide) (other.2.2.symm.trans rate.2.2)
  have nibbles := nibble_or (x := d.regs (reached (irqs 1) regA)) (y := d.regs regA) (divider_low rate.1 rate.2.1)
  have stale := reached_eq (irqs 1) regA (· &&& maskLower) d.regs
  unfold WriteSafe
  by_cases calm : irqs 3 = 0
  · have here : reached (irqs 3) regA = regA := if_pos calm
    rw [here] at regs written
    rw [← stale,← nibbles]
    constructor
    · intro right
      have stored := (right.rate e rate).2
      rw [regs,Function.update_self] at stored
      exact ⟨calm,stored⟩
    · rintro ⟨_,same⟩
      refine ⟨?_,fun refused => absurd ⟨e,rate⟩ refused,?_⟩
      · intro e' other
        obtain rfl := unique e' other
        rw [regs,Function.update_self]
        exact ⟨value,same⟩
      · intro r wrote
        rw [written] at wrote
        exact List.mem_singleton.mp wrote
  · have there : reached (irqs 3) regA = regC := if_neg calm
    rw [there] at written
    refine iff_of_false (fun right => ?_) (fun safe => calm safe.1)
    have wrong := right.others regC (by rw [written]; exact List.mem_singleton.mpr rfl)
    exact absurd wrong (by decide)

theorem rtcInit_stores (irqs : Nat → Nat) (d : Rtc) : ∃ regs,
    regs = Function.update d.regs (reached (irqs 3) regB) (d.regs (reached (irqs 1) regB) ||| maskPie) ∧
    (rtcInit irqs d).regs = Function.update regs (reached (irqs 7) regA)
      ((regs (reached (irqs 5) regA) &&& maskLower) ||| dividerSetting) ∧
    (rtcInit irqs d).written = reached (irqs 7) regA :: reached (irqs 3) regB :: d.written := by
  have first : selected statusRegA = regA := rfl
  have second : selected statusRegB = regB := rfl
  refine ⟨_,rfl,?_⟩
  simp only [rtcInit,inb,outb_select,outb_store,interrupted_regs,interrupted_written,interrupted_index,first,second,
    reached,and_self]

/-- `rtc_init` is right exactly when no interrupt does harm. -/
theorem rtcInit_right (irqs : Nat → Nat) (fresh : d.written = []) : InitRight d (rtcInit irqs d) ↔ InitSafe irqs d := by
  obtain ⟨between,stored,regs,written⟩ := rtcInit_stores irqs d
  rw [fresh] at written
  -- A write that an interrupt diverts goes to register C.
  have diverted : regC ∈ (rtcInit irqs d).written → ¬ InitRight d (rtcInit irqs d) := by
    intro wrote right
    exact absurd (right.others regC wrote) (by decide)
  unfold InitSafe
  by_cases calmB : irqs 3 = 0
  · by_cases calmA : irqs 7 = 0
    · have hereB : reached (irqs 3) regB = regB := if_pos calmB
      have hereA : reached (irqs 7) regA = regA := if_pos calmA
      rw [hereB] at stored written
      rw [hereA] at regs written
      have apart : regB ≠ regA := by decide
      have finalB : (rtcInit irqs d).regs regB = d.regs (reached (irqs 1) regB) ||| maskPie := by
        rw [regs,Function.update_of_ne apart,stored,Function.update_self]
      have other : ∀ r, r ≠ regB → between r = d.regs r := by
        intro r elsewhere
        rw [stored,Function.update_of_ne elsewhere]
      have finalA : (rtcInit irqs d).regs regA = (d.regs (reached (irqs 5) regA) &&& maskLower) ||| dividerSetting := by
        rw [regs,Function.update_self,other]
        unfold reached
        split <;> decide
      have staleB := reached_eq (irqs 1) regB (· ||| maskPie) d.regs
      have staleA := reached_eq (irqs 5) regA (· &&& maskLower) d.regs
      rw [← staleB,← staleA,← nibble_or (show dividerSetting &&& maskLower = 0 by decide),← finalA,← finalB]
      constructor
      · intro right
        exact ⟨calmB,calmA,right.regB,right.regA⟩
      · rintro ⟨_,_,b,a⟩
        refine ⟨b,a,fun r wrote => ?_⟩
        rw [written] at wrote
        simpa using wrote
    · refine iff_of_false (diverted ?_) (fun safe => calmA safe.2.1)
      rw [written,show reached (irqs 7) regA = regC from if_neg calmA]
      exact List.mem_cons_self
  · refine iff_of_false (diverted ?_) (fun safe => calmB safe.1)
    rw [written,show reached (irqs 3) regB = regC from if_neg calmB]
    exact List.mem_cons_of_mem _ List.mem_cons_self

end

/-- Whatever interrupts come between the port accesses: `rtc_write` is right
    exactly when the frequency is refused or no interrupt does harm, and
    `rtc_init` exactly when none does. -/
theorem register_accesses_iff (irqs : Nat → Nat) (d : Rtc) (fresh : d.written = []) :
    (∀ freq, WriteRight freq d (rtcWrite irqs d freq).1 (rtcWrite irqs d freq).2 ↔
      (¬ ∃ e, Rate freq e) ∨ WriteSafe irqs d) ∧
    (InitRight d (rtcInit irqs d) ↔ InitSafe irqs d) := by
  refine ⟨fun freq => ?_,rtcInit_right irqs fresh⟩
  by_cases allowed : ∃ e, Rate freq e
  · obtain ⟨e,rate⟩ := allowed
    rw [rtcWrite_right irqs fresh rate]
    exact ⟨.inr,fun either => either.resolve_left (not_not_intro ⟨e,rate⟩)⟩
  · obtain ⟨value,regs,written⟩ := rtcWrite_refuses irqs d allowed
    refine iff_of_true ⟨fun e rate => absurd ⟨e,rate⟩ allowed,fun _ => ⟨value,by rw [regs]⟩,fun r wrote => ?_⟩
      (.inl allowed)
    rw [written,fresh] at wrote
    cases wrote

/-- A chip with the registers A, B and C as after a start of the machine. -/
def chip : Rtc := ⟨0,fun r => if r = regA then 0x26 else if r = regB then 0x02 else if r = regC then 0xC0 else 0,[],false⟩

theorem register_accesses_calm : WriteRight 1024 chip (rtcWrite (fun _ => 0) chip 1024).1 (rtcWrite (fun _ => 0) chip 1024).2 ∧
    InitRight chip (rtcInit (fun _ => 0) chip) :=
  ⟨((register_accesses_iff (fun _ => 0) chip rfl).1 1024).mpr (.inr ⟨rfl,.inl rfl⟩),
    (register_accesses_iff (fun _ => 0) chip rfl).2.mpr ⟨rfl,rfl,.inl rfl,.inl rfl⟩⟩

/-- An interrupt just before the last access of `rtc_write` has the rate written
    to register C, and one before its first read puts the high nibble of register
    C into register A; one before the last access of `rtc_init` leaves register A
    as it is. -/
theorem register_accesses_fail :
    (rtcWrite (fun i => if i = 3 then 1 else 0) chip 1024).1 = 4 ∧
      (rtcWrite (fun i => if i = 3 then 1 else 0) chip 1024).2.written = [regC] ∧
    (rtcWrite (fun i => if i = 1 then 1 else 0) chip 1024).2.regs regA = 0xC6 ∧
    (rtcInit (fun i => if i = 7 then 1 else 0) chip).regs regA = 0x26 ∧
    ¬ WriteRight 1024 chip (rtcWrite (fun i => if i = 3 then 1 else 0) chip 1024).1
      (rtcWrite (fun i => if i = 3 then 1 else 0) chip 1024).2 ∧
    ¬ InitRight chip (rtcInit (fun i => if i = 7 then 1 else 0) chip) := by
  have wrote : (rtcWrite (fun i => if i = 3 then 1 else 0) chip 1024).2.written = [regC] := by decide
  have left : (rtcInit (fun i => if i = 7 then 1 else 0) chip).regs regA = 0x26 := by decide
  refine ⟨by decide,wrote,by decide,left,fun right => ?_,fun right => ?_⟩
  · exact absurd (right.others regC (by rw [wrote]; exact List.mem_singleton.mpr rfl)) (by decide)
  · have rate := right.regA
    rw [left] at rate
    exact absurd rate (by decide)

end MazeOS.RtcRegisters
