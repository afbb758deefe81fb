import MazeOS.Gates
import MazeOS.Nesting

/-!
The ways into the kernel and out of it: `syscall_handler` and the wrappers of the
interrupt handlers, in a kernel that is in memory (`Image`). The wrapper of a device
calls its function once and leads back to the code that was interrupted
(`device_leads`), so interrupts are transparent; `syscall_handler` calls the
function that the process names, or none, and restores what it has saved
(`handler_leads`).
-/
namespace MazeOS.KernelEntry
open MazeOS.Processor MazeOS.KernelStack MazeOS.Nesting MazeOS.Gates

/-! ### The code -/

def syscallJmpTable : List (Option Symbol) :=
  [none,some .halt,some .execute,some .read,some .write,some .open,some .close,some .getargs,some .vidmap,some .setHandler,
    some .sigreturn]

/-- From the entry to the check that the number is at least 1. -/
def saveBlock : List (Instr Symbol) :=
  -- save all registers and EFLAGS
  [.pushSeg .es,.pushSeg .ds,.pushl .ebx,.pushl .ecx,.pushl .edx,.pushl .esi,.pushl .edi,.pushl .ebp,.pushfl,
    -- KERNEL_DS
    .movwImm 0x18 .edi,.movwTo .edi .ds,
    -- the arguments
    .pushl .edx,.pushl .ecx,.pushl .ebx,
    .cmpl 1 .eax]

/-- The arguments are popped, and all registers but `eax` are restored. -/
def restoreBlock : List (Instr Symbol) :=
  [.addl 12 .esp,.popfl,.popl .ebp,.popl .edi,.popl .esi,.popl .edx,.popl .ecx,.popl .ebx,.popSeg .ds,.popSeg .es]

def syscallHandler : List (Item Symbol) :=
  .label .syscallHandler :: (saveBlock.map .instr ++
    [.instr (.jb .invalidSyscall),.instr (.cmpl 10 .eax),.instr (.ja .invalidSyscall),
      .instr (.callTable syscallJmpTable .eax),.instr (.jmp .finishSyscall),
      .label .invalidSyscall,.instr (.movlImm (-1) .eax),.label .finishSyscall] ++
    (restoreBlock.map .instr ++ [.instr .iret]))

/-- An interrupt wrapper with its C function. -/
def irqWrapper (wrapper handler : Symbol) : List (Item Symbol) :=
  [.label wrapper,.instr .pushal,.instr (.call handler),.instr .popal,.instr .iret]

def keyboardIrq : List (Item Symbol) := irqWrapper .keyboardIrq .keyboardInterruptHandler
def rtcIrq : List (Item Symbol) := irqWrapper .rtcIrq .rtcInterruptHandler
def pitIrq : List (Item Symbol) := irqWrapper .pitIrq .pitInterruptHandler
def picIrqMaster : List (Item Symbol) := irqWrapper .picIrqMaster .picMasterIrqHandler
def picIrqSlave : List (Item Symbol) := irqWrapper .picIrqSlave .picSlaveIrqHandler

/-- The C functions that this code calls; each system call gets three words. -/
def functions : Functions Symbol
  | .halt | .execute | .read | .write | .open | .close | .getargs | .vidmap | .setHandler | .sigreturn => some 3
  | .keyboardInterruptHandler | .rtcInterruptHandler | .pitInterruptHandler | .picMasterIrqHandler | .picSlaveIrqHandler =>
    some 0
  | _ => none

/-- The kernel is in memory, and its tables are those of `x86_desc.S` and
    `initialize_idt`. -/
structure Image (sys : System Symbol) : Prop where
  gates : sys.gates = Gates.gates sys.address
  privilege : sys.privilege = descriptorPrivilege
  syscallHandler : Loaded sys (sys.address .syscallHandler) syscallHandler
  keyboardIrq : Loaded sys (sys.address .keyboardIrq) keyboardIrq
  rtcIrq : Loaded sys (sys.address .rtcIrq) rtcIrq
  pitIrq : Loaded sys (sys.address .pitIrq) pitIrq
  picIrqMaster : Loaded sys (sys.address .picIrqMaster) picIrqMaster
  picIrqSlave : Loaded sys (sys.address .picIrqSlave) picIrqSlave
  linked : Linked sys functions
  room : 128 ≤ sys.room

section
variable {sys : System Symbol} {top : BitVec 32} {s : Shape} {log : List (Call Symbol)}

/-! ### Interrupts -/

/-- A wrapper calls its function once and leaves the stack and the registers as
    they were. -/
theorem wrapper_leads {wrapper handler : Symbol} (loaded : Loaded sys s.eip (irqWrapper wrapper handler))
    (function : functions handler = some 0) (roomy : 4 * s.stack.length + 68 ≤ sys.room) :
    Leads sys functions top (fun log' t => (t.stack = s.stack ∧ (∀ r, r ≠ .esp → t.regs r = s.regs r) ∧
      t.segs .ss = s.segs .ss ∧ t.segs .cs = s.segs .cs) ∧ ∃ value, log' = log ++ [⟨handler,[],value⟩]) log s := by
  have length : ((allRegs.map (valueOf top s)).reverse.map known ++ s.stack).length = s.stack.length + 8 := by
    rw [List.length_append,Nat.add_comm]
    rfl
  have saving : Performs sys top [.pushal] s (s.setStack ((allRegs.map (valueOf top s)).reverse.map known ++ s.stack)) :=
    ⟨by rw [Roomy]; omega,trivial,_,rfl,rfl⟩
  refine leads_block loaded.2 saving ?_
  rintro a ⟨next,fetched,loaded'⟩
  refine .instr fetched ?_ trivial rfl ?_
  · rw [Roomy,Shape.goto_stack,Shape.setStack_stack,length]
    omega
  have noArguments : functions handler = some ([] : List (BitVec 32)).length := function
  refine .call rfl noArguments rfl ?_
  intro t eip _ cs ss changed none pushed
  rw [List.length_eq_zero_iff.mp none] at pushed
  have stack : t.stack = (allRegs.map (valueOf top s)).reverse.map known ++ s.stack := pushed
  obtain ⟨u,popped,place,value,_,segs⟩ := pops_known (s := t) (by decide)
    (show t.stack = (allRegs.reverse.map (valueOf top s)).map known ++ s.stack from stack)
  have restoring : Performs sys top [.popal] t u := ⟨by rw [Roomy,stack,length]; omega,trivial,u,popped,rfl⟩
  refine leads_block (by rw [eip]; exact loaded') restoring ?_
  rintro a ⟨next,fetched,_⟩
  refine .arrived fetched ⟨⟨place,?_,(congrFun segs .ss).trans ss,(congrFun segs .cs).trans cs⟩,_,rfl⟩
  intro r other
  have member : r ∈ allRegs.reverse := by cases r <;> decide
  exact (value r member other).trans (if_neg other)

/-- The C function for a device's vector. -/
def deviceHandler (vector : Nat) : Symbol :=
  if vector = 0x20 then .pitInterruptHandler
  else if vector = 0x21 then .keyboardInterruptHandler
  else if vector = 0x28 then .rtcInterruptHandler
  else if vector ≤ 0x27 then .picMasterIrqHandler
  else .picSlaveIrqHandler

theorem image_gate {vector : Nat} (image : Image sys) (inside : vector < numVectors) : sys.gates vector =
    { offset := (handlerOf vector).elim 0 sys.address
      selector := kernelCs
      kind := if vector = systemCall then trapGate else interruptGate
      dpl := if vector = systemCall then 3 else 0
      present := true } := by
  rw [image.gates]
  exact gate_initializeIdt inside

/-- Every gate leads to privilege 0. -/
theorem image_lower {vector : Nat} (image : Image sys) (inside : vector < numVectors) :
    sys.privilege (sys.gates vector).selector = 0 := by
  rw [image_gate image inside,image.privilege]
  change descriptorPrivilege kernelCs = 0
  decide

theorem entered_kernel {vector : Nat} (image : Image sys) (inside : vector < numVectors) (s : Shape) (back : BitVec 32) :
    requested ((entered sys s (sys.gates vector) back).segs .cs) = 0 := by
  have cs : (entered sys s (sys.gates vector) back).segs .cs = BitVec.ofNat 16
      ((sys.gates vector).selector.toNat / 4 * 4 + sys.privilege (sys.gates vector).selector) := by simp [entered]
  rw [cs,image_lower image inside,image_gate image inside]
  change requested (BitVec.ofNat 16 (kernelCs.toNat / 4 * 4 + 0)) = 0
  decide

/-- The vector of a device has a wrapper of its C function. -/
theorem image_wrapper {vector : Nat} (image : Image sys) (raised : hardware vector) : ∃ wrapper,
    (sys.gates vector).offset = sys.address wrapper ∧ functions (deviceHandler vector) = some 0 ∧
      Loaded sys (sys.address wrapper) (irqWrapper wrapper (deviceHandler vector)) := by
  obtain ⟨low,high⟩ := raised
  rw [image_gate image (Nat.lt_trans high (by decide))]
  simp only [handlerOf,deviceHandler,intelExceptionsEnd]
  have large : ¬ vector ≤ 0x1F := by omega
  have small : vector ≤ 0x2F := by omega
  simp only [large,small,if_true,if_false]
  by_cases isPit : vector = 0x20
  · simp only [isPit,if_true]
    exact ⟨_,rfl,rfl,image.pitIrq⟩
  by_cases isKeyboard : vector = 0x21
  · simp only [isKeyboard,if_true]
    exact ⟨_,rfl,rfl,image.keyboardIrq⟩
  by_cases isRtc : vector = 0x28
  · simp only [isRtc,if_true]
    exact ⟨_,rfl,rfl,image.rtcIrq⟩
  simp only [isPit,isKeyboard,isRtc,if_false]
  by_cases isMaster : vector ≤ 0x27
  · simp only [isMaster,if_true]
    exact ⟨_,rfl,rfl,image.picIrqMaster⟩
  · simp only [isMaster,if_false]
    exact ⟨_,rfl,rfl,image.picIrqSlave⟩

/-- The handler of a device calls its function once and leads back to the code that
    it interrupts. -/
theorem device_leads {vector : Nat} {back : BitVec 32} (image : Image sys) (raised : hardware vector) (here : s.eip = back)
    (roomy : 4 * s.stack.length + 80 ≤ sys.room) : Leads sys functions top
      (fun log t => BackTo sys s t ∧ ∃ value, log = [⟨deviceHandler vector,[],value⟩]) []
      (entered sys s (sys.gates vector) back) := by
  subst here
  obtain ⟨wrapper,offset,function,loaded⟩ := image_wrapper image raised
  have there : Loaded sys (entered sys s (sys.gates vector) s.eip).eip (irqWrapper wrapper (deviceHandler vector)) := by
    simpa [entered,offset] using loaded
  refine leads_mono ?_ (wrapper_leads there function ?_)
  · rintro _ t ⟨⟨stack,regs,ss,cs⟩,value,rfl⟩
    refine ⟨⟨?_,?_,?_,?_⟩,value,rfl⟩
    · simpa [entered] using stack
    · intro r other
      simpa [entered] using regs r other
    · simpa [entered,Function.update_apply] using ss
    · rw [cs]
      exact entered_kernel image (Nat.lt_trans raised.2 (by decide)) _ _
  · simp only [entered,Shape.push,Shape.setFlags_stack,Shape.setSeg_stack,Shape.goto_stack,Shape.setStack_stack,
      List.length_cons]
    omega

theorem image_transparent (image : Image sys) : Transparent sys functions top :=
  fun _ _ raised _ roomy => leads_mono (fun _ _ both => both.1) (device_leads image raised rfl roomy)

/-! ### System calls -/

/-- The function that a number names. -/
def callOf (number : Nat) : Option Symbol := syscallJmpTable.getD number none

/-- The words that the handler saves above its arguments, and those above them. -/
structure Saves (sys : System Symbol) (regs : Reg → BitVec 32) (ds es : BitVec 16) (frame : List Slot)
    (s : Shape) : Prop where
  stack : ∃ changed : List (BitVec 32), changed.length = 3 ∧ ∃ flags, s.stack = changed.map known ++
    known flags :: known (regs .ebp) :: known (regs .edi) :: known (regs .esi) :: known (regs .edx) ::
      known (regs .ecx) :: known (regs .ebx) :: ⟨sys.widen ds,false⟩ :: ⟨sys.widen es,false⟩ :: frame
  kernel : requested (s.segs .cs) = 0

/-- All registers but `eax` are those that were saved. -/
structure Restored (regs : Reg → BitVec 32) (ds es : BitVec 16) (frame : List Slot) (s : Shape) : Prop where
  stack : s.stack = frame
  regs : ∀ r, r ≠ .esp → r ≠ .eax → s.regs r = regs r
  ds : s.segs .ds = ds
  es : s.segs .es = es
  kernel : requested (s.segs .cs) = 0

theorem restore_leads {regs : Reg → BitVec 32} {ds es : BitVec 16} {frame : List Slot}
    (loaded : Loaded sys s.eip (restoreBlock.map .instr ++ [.instr .iret])) (saves : Saves sys regs ds es frame s)
    (image : Image sys) (few : frame.length ≤ 5) (loadable : Loadable sys 0 ds ∧ Loadable sys 0 es) :
    Leads sys functions top (fun log' t => log' = log ∧ Restored regs ds es frame t ∧ t.regs .eax = s.regs .eax) log s := by
  obtain ⟨changed,three,flags,stack⟩ := saves.stack
  obtain ⟨x,y,z,rfl⟩ : ∃ x y z, changed = [x,y,z] := by
    match changed, three with
    | [x,y,z], _ => exact ⟨x,y,z,rfl⟩
  have kernel := saves.kernel
  have wide := image.room
  have room : ∀ t : Shape, t.stack.length ≤ frame.length + 12 → Roomy sys t := by
    intro t short
    rw [Roomy]
    omega
  have drop : act sys top s (.addl 12 .esp) = some ((s.setStack (s.stack.drop 3)).setFlags
      (addFlags s.flags (place top s.stack.length) 12)) := by
    have words : (12 : BitVec 32).toNat % 4 = 0 ∧ (12 : BitVec 32).toNat / 4 ≤ s.stack.length := by
      rw [stack]
      simp
    simp only [act,if_true,if_pos words]
    rfl
  have popfl : ∀ (t : Shape) word rest, t.stack = known word :: rest → requested (t.segs .cs) = 0 →
      act sys top t .popfl = some ((t.setStack rest).setFlags (popFlags t.flags word)) := by
    intro t word rest here kernel
    simp only [act,here,known,if_pos kernel]
  have short : ∀ {seg : Seg} {selector : BitVec 16} {t : Shape} {rest : List Slot}, seg ≠ .cs ∧ seg ≠ .ss →
      Loadable sys 0 selector → requested (t.segs .cs) = 0 → t.stack = ⟨sys.widen selector,false⟩ :: rest →
      Allowed sys t (.popSeg seg) := by
    intro seg selector t rest data fits kernel here
    refine ⟨data.1,data.2,fun slot rest' same => ?_⟩
    cases here.symm.trans same
    rw [kernel,sys.widen_low]
    exact fits
  rw [stack] at drop
  have performs : ∃ t, Performs sys top restoreBlock s t ∧ Restored regs ds es frame t ∧ t.regs .eax = s.regs .eax := by
    refine ⟨_,⟨room s (by simp [stack]),trivial,_,drop,room _ (by simp),trivial,_,popfl _ _ _ rfl kernel,
      room _ (by simp),trivial,_,rfl,room _ (by simp),trivial,_,rfl,room _ (by simp),trivial,_,rfl,
      room _ (by simp),trivial,_,rfl,room _ (by simp),trivial,_,rfl,room _ (by simp),trivial,_,rfl,
      room _ (by simp),short (by decide) loadable.1 kernel rfl,_,rfl,
      room _ (by simp),short (by decide) loadable.2 kernel rfl,_,rfl,rfl⟩,?_,?_⟩
    · refine ⟨rfl,?_,?_,?_,kernel⟩
      · intro r notEsp notEax
        cases r <;> first | exact absurd rfl notEsp | exact absurd rfl notEax | rfl
      · simp [sys.widen_low]
      · simp [sys.widen_low]
    · rfl
  obtain ⟨t,performs,restored,eax⟩ := performs
  refine leads_block loaded performs ?_
  rintro a ⟨next,fetched,_⟩
  exact .arrived fetched ⟨rfl,⟨restored.stack,restored.regs,restored.ds,restored.es,restored.kernel⟩,eax⟩

/-- What `saveBlock` leaves. -/
structure Ready (sys : System Symbol) (s t : Shape) : Prop where
  stack : t.stack = [s.regs .ebx,s.regs .ecx,s.regs .edx].map known ++ known (pushFlags s.flags) :: known (s.regs .ebp) ::
    known (s.regs .edi) :: known (s.regs .esi) :: known (s.regs .edx) :: known (s.regs .ecx) :: known (s.regs .ebx) ::
    ⟨sys.widen (s.segs .ds),false⟩ :: ⟨sys.widen (s.segs .es),false⟩ :: s.stack
  eax : t.regs .eax = s.regs .eax
  cs : t.segs .cs = s.segs .cs
  ds : t.segs .ds = kernelDs
  flags : t.flags = subFlags s.flags (s.regs .eax) 1

theorem save_performs (image : Image sys) (few : s.stack.length ≤ 5) (kernel : requested (s.segs .cs) = 0) :
    ∃ t, Performs sys top saveBlock s t ∧ Ready sys s t := by
  have wide := image.room
  have room : ∀ t : Shape, t.stack.length ≤ s.stack.length + 12 → Roomy sys t := by
    intro t short
    rw [Roomy]
    omega
  have loads : ∀ word : BitVec 32, Loadable sys 0 ((word.extractLsb' 16 16 ++ kernelDs).setWidth 16) := by
    intro word
    have low : (word.extractLsb' 16 16 ++ kernelDs).setWidth 16 = kernelDs := BitVec.setWidth_append_eq_right ..
    rw [low,Loadable,image.privilege]
    exact .inr (by decide)
  refine ⟨_,⟨room _ (by simp),trivial,_,rfl,room _ (by simp),trivial,_,rfl,room _ (by simp),trivial,_,rfl,
    room _ (by simp),trivial,_,rfl,room _ (by simp),trivial,_,rfl,room _ (by simp),trivial,_,rfl,
    room _ (by simp),trivial,_,rfl,room _ (by simp),trivial,_,rfl,room _ (by simp),trivial,_,rfl,
    room _ (by simp),trivial,_,rfl,room _ (by simp),?_,_,rfl,room _ (by simp),trivial,_,rfl,
    room _ (by simp),trivial,_,rfl,room _ (by simp),trivial,_,rfl,room _ (by simp),trivial,_,rfl,rfl⟩,?_⟩
  · refine ⟨by decide,by decide,?_⟩
    change Loadable sys (requested (s.segs .cs)) (((s.regs .edi).extractLsb' 16 16 ++ kernelDs).setWidth 16)
    rw [kernel]
    exact loads _
  · refine ⟨?_,?_,?_,?_,?_⟩
    · simp
    · simp
    · simp
    · simp [kernelDs]
      exact BitVec.setWidth_append_eq_right
    · simp

theorem ready_saves {t : Shape} (kernel : requested (s.segs .cs) = 0) (ready : Ready sys s t) :
    Saves sys s.regs (s.segs .ds) (s.segs .es) s.stack t :=
  ⟨⟨_,rfl,_,ready.stack⟩,by rw [ready.cs]; exact kernel⟩

/-- The numbers of the table, and no others, name functions. -/
theorem callOf_table {number : Nat} (low : 1 ≤ number) (high : number ≤ 10) :
    ∃ f, callOf number = some f ∧ syscallJmpTable[number]? = some (some f) ∧ functions f = some 3 := by
  have all : ∀ n, n < 11 → 1 ≤ n → (callOf n).isSome ∧ syscallJmpTable[n]? = some (callOf n) ∧
      (callOf n).bind functions = some 3 := by decide
  obtain ⟨is_some,entry,words⟩ := all number (by omega) low
  obtain ⟨f,found⟩ := Option.isSome_iff_exists.mp is_some
  rw [found] at entry words
  exact ⟨f,found,entry,words⟩

theorem callOf_none {number : Nat} (outside : number < 1 ∨ 10 < number) : callOf number = none := by
  rcases outside with low | high
  · obtain rfl : number = 0 := by omega
    rfl
  · rw [callOf,List.getD_eq_default]
    exact high

/-- What the process gets: the value of the function, called once with the three
    registers, or -1 when there is none. -/
def Answers (regs : Reg → BitVec 32) (log : List (Call Symbol)) (value : BitVec 32) : Prop :=
  match callOf (regs .eax).toNat with
  | some f => log = [⟨f,[regs .ebx,regs .ecx,regs .edx],value⟩]
  | none => log = [] ∧ value = -1

/-- No function: -1, without a call. -/
theorem invalid_leads {regs : Reg → BitVec 32} {ds es : BitVec 16} {frame : List Slot} {next : BitVec 32} (image : Image sys)
    (here : sys.fetch s.eip = some (.movlImm (-1) .eax,next))
    (loaded : Loaded sys next (restoreBlock.map .instr ++ [.instr .iret])) (saves : Saves sys regs ds es frame s)
    (few : frame.length ≤ 5) (loadable : Loadable sys 0 ds ∧ Loadable sys 0 es) (roomy : Roomy sys s) :
    Leads sys functions top (fun log' t => log' = log ∧ Restored regs ds es frame t ∧ t.regs .eax = -1) log s := by
  refine .instr here roomy trivial rfl ?_
  exact restore_leads (s := (s.setReg .eax (-1)).goto next) loaded ⟨saves.stack,saves.kernel⟩ image few loadable

/-- A function of the table is called, and its value is kept. -/
theorem call_leads {regs : Reg → BitVec 32} {ds es : BitVec 16} {frame : List Slot} {f : Symbol}
    {next4 next5 next6 : BitVec 32}
    (image : Image sys) (call : sys.fetch s.eip = some (.callTable syscallJmpTable .eax,next4))
    (jmp : sys.fetch next4 = some (.jmp .finishSyscall,next5)) (finish : sys.address .finishSyscall = next6)
    (loaded : Loaded sys next6 (restoreBlock.map .instr ++ [.instr .iret])) (ready : s.stack =
      [regs .ebx,regs .ecx,regs .edx].map known ++ s.stack.drop 3) (saves : Saves sys regs ds es frame s)
    (few : frame.length ≤ 5) (loadable : Loadable sys 0 ds ∧ Loadable sys 0 es) (data : s.segs .ds = kernelDs)
    (entry : syscallJmpTable[(s.regs .eax).toNat]? = some (some f)) (words : functions f = some 3) :
    Leads sys functions top (fun log' t => log' = log ++ [⟨f,[regs .ebx,regs .ecx,regs .edx],t.regs .eax⟩] ∧
      Restored regs ds es frame t) log s := by
  obtain ⟨pushed,three,flags,stack⟩ := saves.stack
  have wide := image.room
  have length : s.stack.length = frame.length + 12 := by
    rw [stack,List.length_append,List.length_map,three]
    simp only [List.length_cons]
    omega
  have follows : follow sys top s next4 (.callTable syscallJmpTable .eax) =
      some ((s.push (known next4)).goto (sys.address f)) := by
    simp [follow,entry]
  refine .instr call (by rw [Roomy]; omega) (by rw [Allowed,data]; decide) follows ?_
  have function : functions f = some [regs .ebx,regs .ecx,regs .edx].length := words
  have arguments : ((s.push (known next4)).goto (sys.address f)).stack = known next4 ::
      ([regs .ebx,regs .ecx,regs .edx].map known ++ s.stack.drop 3) := congrArg (known next4 :: ·) ready
  refine .call rfl function arguments ?_
  intro t eip _ cs _ changed changedLength changedStack
  rw [stack,List.drop_left' (by rw [List.length_map,three])] at changedStack
  have tLength : t.stack.length = frame.length + 12 := by
    rw [changedStack,List.length_append,List.length_map,changedLength]
    simp only [List.length_cons,List.length_nil]
    omega
  refine .instr (i := .jmp .finishSyscall) (by rw [eip]; exact jmp) (by rw [Roomy]; omega) trivial rfl ?_
  have returned : Saves sys regs ds es frame (t.goto (sys.address .finishSyscall)) :=
    ⟨⟨changed,changedLength,flags,changedStack⟩,(congrArg requested cs).trans saves.kernel⟩
  refine leads_mono ?_ (restore_leads (by rw [Shape.goto_eip,finish]; exact loaded) returned image few loadable)
  rintro _ u ⟨rfl,restored,value⟩
  rw [value]
  exact ⟨rfl,restored⟩

/-- The carry flag and the zero flag after a comparison. -/
theorem subFlags_carry (flags a b : BitVec 32) : (subFlags flags a b).getLsbD carryFlag = a.ult b := resultFlags_carry ..

theorem subFlags_zero (flags a b : BitVec 32) : (subFlags flags a b).getLsbD zeroFlag = (a - b == 0) := resultFlags_zero ..

/-- The numbers that the second comparison lets pass. -/
theorem not_above {number : BitVec 32} : (!number.ult 10 && !(number - 10 == 0)) = false ↔ number.toNat ≤ 10 := by
  simp only [Bool.and_eq_false_iff,Bool.not_eq_false',beq_iff_eq,BitVec.ult_iff_lt]
  bv_omega

/-- A system call gives back what it was called for and changes no other register. -/
theorem handler_leads (image : Image sys) (here : s.eip = sys.address .syscallHandler) (few : s.stack.length ≤ 5)
    (kernel : requested (s.segs .cs) = 0) (loadable : Loadable sys 0 (s.segs .ds) ∧ Loadable sys 0 (s.segs .es)) :
    Leads sys functions top (fun log t => Restored s.regs (s.segs .ds) (s.segs .es) s.stack t ∧
      Answers s.regs log (t.regs .eax)) [] s := by
  have loaded := image.syscallHandler
  rw [← here] at loaded
  obtain ⟨t,performs,ready⟩ : ∃ t, Performs sys top saveBlock s t ∧ Ready sys s t := save_performs image few kernel
  have saves := ready_saves kernel ready
  have wide := image.room
  have length : t.stack.length = s.stack.length + 12 := by simp [ready.stack]
  have roomy : Roomy sys t := by
    rw [Roomy]
    omega
  refine leads_block loaded.2 performs ?_
  rintro a ⟨next1,jb,next2,cmpl,next3,ja,next4,call,next5,jmp,invalid,next6,movl,finish,restore⟩
  -- both checks jump here
  have refused (u : Shape) (uEip : u.eip = next5) (uStack : u.stack = t.stack) (uCs : u.segs .cs = t.segs .cs)
      (outside : (s.regs .eax).toNat < 1 ∨ 10 < (s.regs .eax).toNat) :
      Leads sys functions top (fun log t => Restored s.regs (s.segs .ds) (s.segs .es) s.stack t ∧
        Answers s.regs log (t.regs .eax)) [] u := by
    have saves' : Saves sys s.regs (s.segs .ds) (s.segs .es) s.stack u :=
      ⟨by rw [uStack]; exact saves.stack,by rw [uCs]; exact saves.kernel⟩
    refine leads_mono ?_ (invalid_leads image (by rw [uEip]; exact movl) restore saves' few loadable
      (by rw [Roomy,uStack]; exact roomy))
    rintro _ v ⟨rfl,restored,value⟩
    refine ⟨restored,?_⟩
    rw [Answers,callOf_none outside]
    exact ⟨rfl,value⟩
  refine .instr (i := .jb .invalidSyscall) jb roomy trivial rfl ?_
  have below : (t.goto a).flags.getLsbD carryFlag = (s.regs .eax).ult 1 := by
    rw [Shape.goto_flags,ready.flags,subFlags_carry]
  rw [below,invalid]
  by_cases low : (s.regs .eax).ult 1 = true
  · rw [if_pos low]
    refine refused _ rfl rfl rfl (.inl ?_)
    rw [BitVec.ult_iff_lt] at low
    bv_omega
  rw [if_neg low]
  refine .instr (i := .cmpl 10 .eax) cmpl roomy trivial rfl ?_
  refine .instr (i := .ja .invalidSyscall) ja roomy trivial rfl ?_
  simp only [Shape.goto_flags,Shape.setFlags_flags,Shape.goto_regs,subFlags_carry,subFlags_zero,ready.eax,invalid]
  by_cases high : (s.regs .eax).toNat ≤ 10
  · rw [not_above.mpr high]
    have atLeast : 1 ≤ (s.regs .eax).toNat := by
      rw [BitVec.ult_iff_lt] at low
      bv_omega
    obtain ⟨f,is_call,entry,words⟩ := callOf_table atLeast high
    let u := ((((t.goto a).goto next1).setFlags (subFlags t.flags (s.regs .eax) 10)).goto next2).goto next3
    have arguments : u.stack = [s.regs .ebx,s.regs .ecx,s.regs .edx].map known ++ u.stack.drop 3 := by
      change t.stack = _ ++ t.stack.drop 3
      rw [ready.stack]
      rfl
    have saves' : Saves sys s.regs (s.segs .ds) (s.segs .es) s.stack u := ⟨saves.stack,saves.kernel⟩
    refine leads_mono ?_ (call_leads image call jmp finish restore arguments saves' few loadable ready.ds
      (by rw [← entry,← ready.eax]; rfl) words)
    rintro _ v ⟨rfl,restored⟩
    refine ⟨restored,?_⟩
    rw [Answers,is_call]
    rfl
  · have above : (!(s.regs .eax).ult 10 && !(s.regs .eax - 10 == 0)) = true := by
      rw [← Bool.not_eq_false,not_above]
      exact high
    rw [above,if_pos rfl]
    exact refused _ rfl rfl rfl (.inr (Nat.lt_of_not_le high))

end

end MazeOS.KernelEntry
