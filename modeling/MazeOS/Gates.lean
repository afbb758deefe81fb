import MazeOS.Processor

/-!
The descriptors of the kernel, as the processor reads them. `initializeIdt` is the
loop of `initialize_idt` and the assignments behind it, on entries with the
bit-fields of `idt_desc_t`. A gate that the processor takes from the two words of
an entry has the handler and the privilege that the kernel meant
(`gate_initializeIdt`): code of users may enter through one gate only.
-/
namespace MazeOS.Gates
open MazeOS.Processor MazeOS.Words

/-! ### Selectors -/

def kernelCs : BitVec 16 := 0x10
def kernelDs : BitVec 16 := 0x18
def userCs : BitVec 16 := 0x23
def userDs : BitVec 16 := 0x2B

/-- The segments of the table in `x86_desc.S`; those of the LDT and the task are
    filled in by `entry`. -/
def gdt : List Nat := [0,0,0x00CF9A000000FFFF,0x00CF92000000FFFF,0x00CFFA000000FFFF,0x00CFF2000000FFFF]

/-- The privilege of the descriptor of a selector. -/
def descriptorPrivilege (selector : BitVec 16) : Nat := bits (gdt.getD (selector.toNat / 8) 0) 45 2

/-! ### The interrupt table -/

/-- The functions and labels that the table and the assembly files name. -/
inductive Symbol where
  | intelDivideError | intelDebug | intelNmi | intelInt3 | intelOverflow | intelBounds | intelInvalidOp
  | intelDeviceNotAvailable | intelDoublefaultFn | intelCoprocessorSegOverrun | intelInvalidTss | intelSegNotPresent
  | intelStackFault | intelGpf | intelPageFault | intelFpuCoprocessorError | intelAlignmentCheck | intelMachineCheck
  | intelSimdCoprocessorError
  | keyboardIrq | rtcIrq | pitIrq | picIrqMaster | picIrqSlave
  | keyboardInterruptHandler | rtcInterruptHandler | pitInterruptHandler | picMasterIrqHandler | picSlaveIrqHandler
  | syscallHandler | invalidSyscall | finishSyscall | genericInterruptHandler
  | halt | execute | read | write | open | close | getargs | vidmap | setHandler | sigreturn
  deriving DecidableEq

/-- An `idt_desc_t`. -/
structure IdtDesc where
  offset1500 : Nat
  segSelector : Nat
  reserved4 : Nat
  reserved3 : Nat
  reserved2 : Nat
  reserved1 : Nat
  size : Nat
  reserved0 : Nat
  dpl : Nat
  present : Nat
  offset3116 : Nat

def setIdtEntry (str : IdtDesc) (handler : BitVec 32) : IdtDesc :=
  { str with
    offset3116 := ((handler &&& 0xFFFF0000) >>> 16).toNat
    offset1500 := (handler &&& 0xFFFF).toNat }

def numVectors : Nat := 256
def intelExceptionsStart : Nat := 0x00
def intelExceptionsEnd : Nat := 0x1F
def picIrqStart : Nat := 0x20
def picIrqEnd : Nat := 0x2F
def picIrqMasterEnd : Nat := 0x27
def systemCall : Nat := 0x80
def pitIrqNum : Nat := 0
def keyboardIrqNum : Nat := 1
def rtcIrqNum : Nat := 8
def idtGateSupervisor : Nat := 0
def idtGateUser : Nat := 3

/-- One turn of the loop. -/
def initializeEntry (address : Symbol → BitVec 32) (i : Nat) (str : IdtDesc) : IdtDesc :=
  let str := { str with
    segSelector := kernelCs.toNat
    reserved4 := 0
    reserved3 := 0
    reserved2 := 1
    reserved1 := 1
    size := 1
    reserved0 := 0
    present := 1 }
  if i ≥ intelExceptionsStart ∧ i ≤ intelExceptionsEnd then { str with dpl := idtGateSupervisor }
  else if i ≥ picIrqStart ∧ i ≤ picIrqEnd then
    let str := { str with dpl := idtGateSupervisor }
    if i = picIrqStart + keyboardIrqNum then setIdtEntry str (address .keyboardIrq)
    else if i = picIrqStart + rtcIrqNum then setIdtEntry str (address .rtcIrq)
    else if i = picIrqStart + pitIrqNum then setIdtEntry str (address .pitIrq)
    else if i ≤ picIrqMasterEnd then setIdtEntry str (address .picIrqMaster)
    else setIdtEntry str (address .picIrqSlave)
  else if i = systemCall then setIdtEntry { str with dpl := idtGateUser, reserved3 := 1 } (address .syscallHandler)
  else setIdtEntry { str with dpl := idtGateSupervisor } (address .genericInterruptHandler)

/-- The assignments behind the loop. -/
def intelExceptions : List (Nat × Symbol) :=
  [(0,.intelDivideError),(1,.intelDebug),(2,.intelNmi),(3,.intelInt3),(4,.intelOverflow),(5,.intelBounds),
    (6,.intelInvalidOp),(7,.intelDeviceNotAvailable),(8,.intelDoublefaultFn),(9,.intelCoprocessorSegOverrun),
    (10,.intelInvalidTss),(11,.intelSegNotPresent),(12,.intelStackFault),(13,.intelGpf),(14,.intelPageFault),
    (16,.intelFpuCoprocessorError),(17,.intelAlignmentCheck),(18,.intelMachineCheck),(19,.intelSimdCoprocessorError)]

def initializeIdt (address : Symbol → BitVec 32) (idt : Nat → IdtDesc) : Nat → IdtDesc :=
  let idt := (List.range numVectors).foldl (fun idt i => Function.update idt i (initializeEntry address i (idt i))) idt
  intelExceptions.foldl (fun idt e => Function.update idt e.1 (setIdtEntry (idt e.1) (address e.2))) idt

/-! ### What the processor finds -/

/-- The two words of an entry. -/
def lowWord (str : IdtDesc) : Nat := pack [⟨16,str.offset1500⟩,⟨16,str.segSelector⟩]

def highWord (str : IdtDesc) : Nat := pack
  [⟨8,str.reserved4⟩,⟨1,str.reserved3⟩,⟨1,str.reserved2⟩,⟨1,str.reserved1⟩,⟨1,str.size⟩,⟨1,str.reserved0⟩,⟨2,str.dpl⟩,
    ⟨1,str.present⟩,⟨16,str.offset3116⟩]

/-- An entry of `.quad 0`. -/
def emptyEntry : IdtDesc := ⟨0,0,0,0,0,0,0,0,0,0,0⟩

/-- The gates of the table that `initialize_idt` leaves in memory. -/
def gates (address : Symbol → BitVec 32) (vector : Nat) : Gate :=
  let str := initializeIdt address (fun _ => emptyEntry) vector
  gateOf (lowWord str) (highWord str)

/-- The handler of a vector; some entries get none. -/
def handlerOf (vector : Nat) : Option Symbol :=
  if vector ≤ intelExceptionsEnd then (intelExceptions.find? (·.1 == vector)).map Prod.snd
  else if vector = 0x20 then some .pitIrq
  else if vector = 0x21 then some .keyboardIrq
  else if vector = 0x28 then some .rtcIrq
  else if vector ≤ 0x27 then some .picIrqMaster
  else if vector ≤ 0x2F then some .picIrqSlave
  else if vector = 0x80 then some .syscallHandler
  else some .genericInterruptHandler

section
variable {α β : Type} {address : Symbol → BitVec 32} {vector : Nat}

theorem range_updates (f : Nat → α → α) (array : Nat → α) (n i : Nat) :
    (List.range n).foldl (fun array j => Function.update array j (f j (array j))) array i =
      if i < n then f i (array i) else array i := by
  induction n with
  | zero => rfl
  | succ n ih =>
    rw [List.range_succ,List.foldl_append,List.foldl_cons,List.foldl_nil,Function.update_apply]
    by_cases last : i = n
    · subst last
      rw [if_pos rfl,ih,if_neg (Nat.lt_irrefl i),if_pos (Nat.lt_succ_self i)]
    · rw [if_neg last,ih]
      have same : i < n + 1 ↔ i < n := by omega
      simp only [same]

theorem list_updates (f : α → β → α) (entries : List (Nat × β)) (array : Nat → α) (i : Nat)
    (distinct : (entries.map Prod.fst).Nodup) :
    entries.foldl (fun array e => Function.update array e.1 (f (array e.1) e.2)) array i =
      ((entries.find? (·.1 == i)).map Prod.snd).elim (array i) (f (array i)) := by
  induction entries generalizing array with
  | nil => rfl
  | cons entry entries ih =>
    obtain ⟨j,b⟩ := entry
    rw [List.map_cons,List.nodup_cons] at distinct
    rw [List.foldl_cons,ih _ distinct.2,List.find?_cons]
    by_cases here : j = i
    · subst here
      have absent : entries.find? (·.1 == j) = none := by
        rw [List.find?_eq_none]
        intro e member same
        exact distinct.1 (List.mem_map.mpr ⟨e,member,eq_of_beq same⟩)
      simp [absent]
    · have differs : (j == i) = false := by simpa using here
      simp [differs,Ne.symm here]

/-- The entry of a vector without the address of its handler. -/
def withoutHandler (vector : Nat) : IdtDesc :=
  ⟨0,kernelCs.toNat,0,if vector = systemCall then 1 else 0,1,1,1,0,if vector = systemCall then idtGateUser else idtGateSupervisor,
    1,0⟩

theorem find_none (large : intelExceptionsEnd < vector) : intelExceptions.find? (·.1 == vector) = none := by
  have few : ∀ e ∈ intelExceptions, e.1 ≤ intelExceptionsEnd := by decide
  rw [List.find?_eq_none]
  intro e member same
  have bound := few e member
  rw [eq_of_beq same] at bound
  exact Nat.not_le_of_lt large bound

theorem initializeIdt_entry (inside : vector < numVectors) : initializeIdt address (fun _ => emptyEntry) vector =
    (handlerOf vector).elim (withoutHandler vector) fun handler => setIdtEntry (withoutHandler vector) (address handler) := by
  rw [initializeIdt,list_updates (fun str handler => setIdtEntry str (address handler)) intelExceptions _ _ (by decide),
    range_updates,if_pos inside]
  by_cases exception : vector ≤ intelExceptionsEnd
  · have other : vector ≠ systemCall := by
      rintro rfl
      exact absurd exception (by decide)
    have entry : initializeEntry address vector emptyEntry = withoutHandler vector := by
      rw [initializeEntry,if_pos ⟨Nat.zero_le _,exception⟩,withoutHandler,if_neg other,if_neg other]
      rfl
    rw [entry,handlerOf,if_pos exception]
  · rw [find_none (Nat.lt_of_not_le exception)]
    have low : ¬ (vector ≥ intelExceptionsStart ∧ vector ≤ intelExceptionsEnd) := fun h => exception h.2
    rw [Option.map_none,Option.elim_none,initializeEntry,if_neg low,handlerOf,if_neg exception]
    have large : 32 ≤ vector := Nat.lt_of_not_le exception
    have keyboard : vector = picIrqStart + keyboardIrqNum ↔ vector = 0x21 := Iff.rfl
    have rtc : vector = picIrqStart + rtcIrqNum ↔ vector = 0x28 := Iff.rfl
    have pit : vector = picIrqStart + pitIrqNum ↔ vector = 0x20 := Iff.rfl
    have master : vector ≤ picIrqMasterEnd ↔ vector ≤ 0x27 := Iff.rfl
    have pic : vector ≥ picIrqStart ∧ vector ≤ picIrqEnd ↔ vector ≤ 0x2F := ⟨And.right,fun below => ⟨large,below⟩⟩
    have call : vector = systemCall ↔ vector = 0x80 := Iff.rfl
    simp only [keyboard,rtc,pit,master,pic,call,withoutHandler]
    by_cases below : vector ≤ 0x2F
    · have other : vector ≠ 0x80 := by omega
      simp only [below,other,if_true,if_false]
      by_cases isPit : vector = 0x20
      · subst isPit
        rfl
      by_cases isKeyboard : vector = 0x21
      · subst isKeyboard
        rfl
      by_cases isRtc : vector = 0x28
      · subst isRtc
        rfl
      simp only [isPit,isKeyboard,isRtc,if_false]
      by_cases isMaster : vector ≤ 0x27
      · simp only [isMaster,if_true]
        rfl
      · simp only [isMaster,if_false]
        rfl
    · have notPit : vector ≠ 0x20 := by omega
      have notKeyboard : vector ≠ 0x21 := by omega
      have notRtc : vector ≠ 0x28 := by omega
      have notMaster : ¬ vector ≤ 0x27 := by omega
      simp only [below,notPit,notKeyboard,notRtc,notMaster,if_false]
      by_cases isCall : vector = 0x80
      · simp only [isCall,if_true]
        rfl
      · simp only [isCall,if_false]
        rfl

/-- The two halves of an address are the address. -/
theorem halves (handler : BitVec 32) : ((handler &&& 0xFFFF0000) >>> 16).toNat % 2 ^ 16 * 2 ^ 16 +
    (handler &&& 0xFFFF).toNat % 2 ^ 16 = handler.toNat := by
  have low : (handler &&& 0xFFFF).toNat = handler.toNat % 2 ^ 16 := by
    rw [BitVec.toNat_and,show (0xFFFF : BitVec 32).toNat = 2 ^ 16 - 1 from rfl,Nat.and_two_pow_sub_one_eq_mod]
  have high : ((handler &&& 0xFFFF0000) >>> 16).toNat = handler.toNat / 2 ^ 16 := by
    have cut : (handler &&& 0xFFFF0000) >>> 16 = handler >>> 16 := by
      apply BitVec.eq_of_getLsbD_eq
      intro i inside
      rw [BitVec.getLsbD_ushiftRight,BitVec.getLsbD_ushiftRight,BitVec.getLsbD_and]
      by_cases small : i < 16
      · have ones : ∀ i, i < 16 → (0xFFFF0000 : BitVec 32).getLsbD (16 + i) = true := by decide
        rw [ones i small,Bool.and_true]
      · rw [BitVec.getLsbD_of_ge handler (16 + i) (by omega),Bool.false_and]
    rw [cut,BitVec.toNat_ushiftRight,Nat.shiftRight_eq_div_pow]
  have bound := handler.isLt
  rw [low,high]
  omega

/-- The fields of an entry, for a handler at an address. -/
theorem gate_setIdtEntry (handler : BitVec 32) : gateOf (lowWord (setIdtEntry (withoutHandler vector) handler))
    (highWord (setIdtEntry (withoutHandler vector) handler)) =
    { offset := handler
      selector := kernelCs
      kind := if vector = systemCall then trapGate else interruptGate
      dpl := if vector = systemCall then 3 else 0
      present := true } := by
  have offset : bits (lowWord (setIdtEntry (withoutHandler vector) handler)) 0 16 = (handler &&& 0xFFFF).toNat % 2 ^ 16 :=
    bits_pack 0 rfl rfl
  have selector : bits (lowWord (setIdtEntry (withoutHandler vector) handler)) 16 16 = kernelCs.toNat % 2 ^ 16 :=
    bits_pack 1 rfl rfl
  have offset' : bits (highWord (setIdtEntry (withoutHandler vector) handler)) 16 16 =
      ((handler &&& 0xFFFF0000) >>> 16).toNat % 2 ^ 16 := bits_pack 8 rfl rfl
  have present : bits (highWord (setIdtEntry (withoutHandler vector) handler)) 15 1 = 1 % 2 ^ 1 := bits_pack 7 rfl rfl
  have dpl : bits (highWord (setIdtEntry (withoutHandler vector) handler)) 13 2 = (withoutHandler vector).dpl % 2 ^ 2 :=
    bits_pack 6 rfl rfl
  have kind : bits (highWord (setIdtEntry (withoutHandler vector) handler)) 8 5 =
      pack [⟨1,(withoutHandler vector).reserved3⟩,⟨1,1⟩,⟨1,1⟩,⟨1,1⟩,⟨1,0⟩] :=
    bits_packs [⟨8,0⟩] [⟨1,(withoutHandler vector).reserved3⟩,⟨1,1⟩,⟨1,1⟩,⟨1,1⟩,⟨1,0⟩] _
  rw [gateOf,offset,offset',selector,present,dpl,kind,halves,BitVec.ofNat_toNat,BitVec.setWidth_eq]
  by_cases call : vector = systemCall
  · simp only [withoutHandler,call,if_true]
    rfl
  · simp only [withoutHandler,call,if_false]
    rfl

/-- Every gate leads to its handler in the code segment of the kernel, and code of
    users may go through that of system calls only. -/
theorem gate_initializeIdt (inside : vector < numVectors) : gates address vector =
    { offset := (handlerOf vector).elim 0 address
      selector := kernelCs
      kind := if vector = systemCall then trapGate else interruptGate
      dpl := if vector = systemCall then 3 else 0
      present := true } := by
  rw [gates,initializeIdt_entry inside]
  cases handlerOf vector with
  | none =>
    by_cases call : vector = systemCall
    · simp only [Option.elim_none,withoutHandler,call,if_true]
      rfl
    · simp only [Option.elim_none,withoutHandler,call,if_false]
      rfl
  | some handler => exact gate_setIdtEntry (address handler)

end

end MazeOS.Gates
