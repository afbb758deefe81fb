import MazeOS.KernelEntry

/-!
Processes and the kernel. A process comes into the kernel at `syscall_handler` only
(`process_enters`); a system call gives it the value of the one function that it
names and leaves the rest of it as it was, whatever interrupts come on the way
(`system_call`), and can always come back (`system_call_completes`). Code that an
interrupt interrupts goes on as it was, in the kernel (`kernel_resumes`) and in a
process (`process_resumes`), where only the data segments are at risk: a process
loses them to a handler that comes back with those of the kernel.
-/
namespace MazeOS.Privilege
open MazeOS.Processor MazeOS.KernelStack MazeOS.Nesting MazeOS.Gates MazeOS.KernelEntry
open MazeOS.Assembly (load32 store32)

/-! ### A kernel in memory -/

def instrOf? {L : Type} : Item L → Option (Instr L)
  | .label _ => none
  | .instr i => some i

/-- The listings one behind the other, each instruction in one byte. -/
def sampleCode : List (Instr Symbol) :=
  (syscallHandler ++ keyboardIrq ++ rtcIrq ++ pitIrq ++ picIrqMaster ++ picIrqSlave).filterMap instrOf?

def sampleFunctions : List Symbol :=
  [.halt,.execute,.read,.write,.open,.close,.getargs,.vidmap,.setHandler,.sigreturn,.keyboardInterruptHandler,
    .rtcInterruptHandler,.pitInterruptHandler,.picMasterIrqHandler,.picSlaveIrqHandler]

def sampleAddress : Symbol → BitVec 32
  | .syscallHandler => 0
  | .invalidSyscall => 20
  | .finishSyscall => 21
  | .keyboardIrq => 32
  | .rtcIrq => 36
  | .pitIrq => 40
  | .picIrqMaster => 44
  | .picIrqSlave => 48
  | f => BitVec.ofNat 32 (0x1000 + sampleFunctions.idxOf f)

def sampleSystem : System Symbol where
  fetch a :=
    if a = 0x2000 then some (.int systemCall,0x2002)
    else if a = 0x2002 then some (.int 0x21,0x2004)
    else sampleCode[a.toNat]?.map (·,a + 1)
  address := sampleAddress
  gates := gates sampleAddress
  tss := 0x3000
  privilege := descriptorPrivilege
  widen := BitVec.setWidth 32
  widen_low selector := by simp
  room := 0x1000
  room_small := by decide

/-- The function at an address. -/
def sampleName (a : BitVec 32) : Symbol := sampleFunctions.getD (a.toNat - 0x1000) .halt

theorem sample_image : Image sampleSystem where
  gates := rfl
  privilege := rfl
  syscallHandler := ⟨rfl,_,rfl,_,rfl,_,rfl,_,rfl,_,rfl,_,rfl,_,rfl,_,rfl,_,rfl,_,rfl,_,rfl,_,rfl,_,rfl,_,rfl,_,rfl,
    _,rfl,_,rfl,_,rfl,_,rfl,_,rfl,rfl,_,rfl,rfl,_,rfl,_,rfl,_,rfl,_,rfl,_,rfl,_,rfl,_,rfl,_,rfl,_,rfl,_,rfl,_,rfl,trivial⟩
  keyboardIrq := ⟨rfl,_,rfl,_,rfl,_,rfl,_,rfl,trivial⟩
  rtcIrq := ⟨rfl,_,rfl,_,rfl,_,rfl,_,rfl,trivial⟩
  pitIrq := ⟨rfl,_,rfl,_,rfl,_,rfl,_,rfl,trivial⟩
  picIrqMaster := ⟨rfl,_,rfl,_,rfl,_,rfl,_,rfl,trivial⟩
  picIrqSlave := ⟨rfl,_,rfl,_,rfl,_,rfl,_,rfl,trivial⟩
  linked := by
    have name : ∀ f n, functions f = some n → sampleName (sampleAddress f) = f := by
      intro f n function
      cases f <;> cases function <;> decide
    constructor
    · intro f n function
      cases f <;> cases function <;> rfl
    · intro f g n n' function function' same
      rw [← name f n function,← name g n' function']
      exact congrArg sampleName same
  room := by decide

/-- A process at its system call `open`. -/
def sampleProcess : Machine where
  eip := 0x2000
  regs
    | .eax => 5
    | .esp => 0x83FFFFC
    | _ => 0
  segs
    | .cs => userCs
    | _ => userDs
  flags := 0x202
  mem := store32 (store32 (fun _ => 0) 0x3004 0x800000) 0x3008 0x18

/-- The kernel, called by that process. -/
def sampleKernel : Machine := { sampleProcess with
  eip := 0
  regs := Function.update sampleProcess.regs .esp (place 0x800000 5)
  segs
    | .cs => kernelCs
    | .ss => kernelDs
    | _ => userDs }

/-- The gate that is found for a vector of the table. -/
def gateFor (vector : Nat) : Gate where
  offset := (handlerOf vector).elim 0 sampleAddress
  selector := kernelCs
  kind := if vector = systemCall then trapGate else interruptGate
  dpl := if vector = systemCall then 3 else 0
  present := true

/-- The same system with its gates as they are found. -/
def gatedSystem : System Symbol := { sampleSystem with
  gates := fun vector => if vector < numVectors then gateFor vector else gates sampleAddress vector }

theorem sampleSystem_gated : sampleSystem = gatedSystem := by
  have same : sampleSystem.gates = gatedSystem.gates := by
    funext vector
    simp only [gatedSystem]
    split
    · rename_i inside
      exact gate_initializeIdt inside
    · rfl
  change { sampleSystem with gates := sampleSystem.gates } = gatedSystem
  rw [same]
  rfl

/-- The handler of a device calls its function, which comes back with the data
    segments of the kernel; more events may follow before the handler ends. -/
def wrapperCourse (handler : Symbol) (flags : BitVec 32) (further : Course Symbol → Course Symbol) : Course Symbol :=
  Course.instrs (.call handler 0 flags kernelDs (further (.instr .done))) 2

/-- The timer, whose function enables interrupts; then the keyboard comes. -/
def timerCourse : Course Symbol :=
  wrapperCourse .pitInterruptHandler 0x202 (.interrupt 0x21 (wrapperCourse .keyboardInterruptHandler 2 id))

/-- The handler of system calls calls `open`, with the timer before that and the RTC
    behind it. -/
def openCourse : Course Symbol :=
  .interrupt 0x20 timerCourse (Course.instrs (.call .open 3 0x202 kernelDs
    (.interrupt 0x28 (wrapperCourse .rtcInterruptHandler 2 id) (Course.instrs .done 11))) 19)

/-- The machines at the start, at the end and behind the end of a course, with the
    calls that it makes. -/
def comesBack (entry : Option Machine) (course : Course Symbol) :
    Option (Machine × List (Call Symbol) × Machine × Machine) :=
  entry.bind fun first => (perform gatedSystem functions 0x800000 course first).bind fun (log,last) =>
    (step gatedSystem last).map fun m' => (first,log,last,m')

theorem comesBack_eq {entry : Option Machine} {course : Course Symbol} {first last m' : Machine}
    {log : List (Call Symbol)} (came : comesBack entry course = some (first,log,last,m')) : entry = some first ∧
      perform sampleSystem functions 0x800000 course first = some (log,last) ∧ step sampleSystem last = some m' := by
  obtain ⟨first',entered,came⟩ := Option.bind_eq_some_iff.mp came
  obtain ⟨⟨log',last'⟩,performed,came⟩ := Option.bind_eq_some_iff.mp came
  obtain ⟨_,left,same⟩ := Option.map_eq_some_iff.mp came
  cases same
  rw [sampleSystem_gated]
  exact ⟨entered,performed,left⟩

/-! ### Users -/

/-- Code of users has segments of users. -/
structure User (sys : System Symbol) (m : Machine) : Prop where
  cs : requested (m.segs .cs) = 3 ∧ sys.privilege (m.segs .cs) = 3
  ss : requested (m.segs .ss) = 3 ∧ sys.privilege (m.segs .ss) = 3
  ds : Loadable sys 3 (m.segs .ds)
  es : Loadable sys 3 (m.segs .es)

theorem sample_user : User sampleSystem sampleProcess where
  cs := by decide
  ss := by decide
  ds := by decide
  es := by decide

section
variable {sys : System Symbol} {top next after : BitVec 32} {log : List (Call Symbol)} {interrupts exact : Prop}
  {u first last m m' : Machine} {vector : Nat}

theorem loadable_user {selector : BitVec 16} (loadable : Loadable sys 3 selector) :
    Loadable sys 0 selector ∧ demoted sys 3 selector = selector := by
  constructor
  · refine loadable.imp_right fun allowed => ?_
    omega
  · apply if_neg
    rintro ⟨some_segment,lower⟩
    rcases loadable with isNull | allowed
    · exact some_segment isNull
    · omega

theorem user_lower (image : Image sys) (user : User sys u) (inside : vector < numVectors) :
    sys.privilege (sys.gates vector).selector < u.cpl := by
  rw [image_lower image inside,Machine.cpl,user.cs.1]
  decide

/-- No gate is closed to what comes from the processor. -/
theorem enter_goes (image : Image sys) (inside : vector < numVectors) (m : Machine) (back : BitVec 32) :
    ∃ first, enter sys m vector none back = some first := by
  refine ⟨_,if_pos ⟨?_,?_,?_,(image_lower image inside).trans_le (Nat.zero_le _)⟩⟩
  · rw [image_gate image inside]
  · rw [image_gate image inside]
    by_cases call : vector = systemCall
    · exact .inr (if_pos call)
    · exact .inl (if_neg call)
  · rw [image_gate image inside]
    change ¬ Null kernelCs
    decide

/-- The frame of a process that has come into the kernel. -/
def frameOf (sys : System Symbol) (u : Machine) (back : BitVec 32) : List (BitVec 32) :=
  [back,sys.widen (u.segs .cs),u.flags,u.regs .esp,sys.widen (u.segs .ss)]

/-- A system call comes to `syscall_handler` with its frame. -/
theorem call_enters (image : Image sys) (user : User sys u) (here : sys.fetch u.eip = some (.int systemCall,next)) :
    ∃ first, step sys u = some first ∧ enter sys u systemCall none next = some first := by
  have allowed : ¬ (sys.gates systemCall).dpl < u.cpl := by
    rw [image_gate image (by decide),Machine.cpl,user.cs.1]
    exact Nat.lt_irrefl 3
  obtain ⟨first,enters⟩ := enter_goes image (show systemCall < numVectors by decide) u next
  refine ⟨first,?_,enters⟩
  rw [step,here]
  exact (if_neg allowed).trans enters

/-- What a system call leads to. -/
theorem frame_leads (image : Image sys) (user : User sys u) : Leads sys functions top (fun log t =>
    Restored u.regs (u.segs .ds) (u.segs .es) ((frameOf sys u next).map known) t ∧ Answers u.regs log (t.regs .eax)) []
    (entered sys (outer sys u) (sys.gates systemCall) next) := by
  have here : (sys.gates systemCall).offset = sys.address .syscallHandler := by
    rw [image_gate image (by decide)]
    rfl
  have ds : (entered sys (outer sys u) (sys.gates systemCall) next).segs .ds = u.segs .ds := by
    simp [entered,outer]
  have es : (entered sys (outer sys u) (sys.gates systemCall) next).segs .es = u.segs .es := by
    simp [entered,outer]
  have leads : Leads sys functions top _ [] (entered sys (outer sys u) (sys.gates systemCall) next) :=
    handler_leads image here (Nat.le_refl 5) (entered_kernel image (by decide) _ _)
      (by rw [ds,es]; exact ⟨(loadable_user user.ds).1,(loadable_user user.es).1⟩)
  rw [ds,es] at leads
  exact leads

/-- The frame takes the processor back to the process. -/
theorem iret_goes {t : Shape} (image : Image sys) (user : User sys u) (sees : Sees sys.room exact top last t)
    (stack : t.stack = (frameOf sys u next).map known) (kernel : requested (t.segs .cs) = 0) :
    ∃ m', iret sys last = some m' := by
  obtain ⟨_,is_cs,_,third⟩ := frame_tops sees stack
  obtain ⟨fourth,_⟩ := sees_pop third rfl
  obtain ⟨_,is_ss⟩ := sees_pop fourth rfl
  have level : last.cpl = 0 := by
    rw [Machine.cpl,sees.cs]
    exact kernel
  have some_segment : ¬ Null (u.segs .cs) := by
    intro isNull
    have privilege := user.cs.2
    have first : (u.segs .cs).toNat / 8 = 0 := by
      rw [Null] at isNull
      omega
    rw [image.privilege,descriptorPrivilege,first] at privilege
    exact absurd privilege (by decide)
  have code : ¬ (last.cpl ≠ 0 ∨ Null (u.segs .cs) ∨ sys.privilege (u.segs .cs) ≠ requested (u.segs .cs)) := by
    rw [user.cs.1,user.cs.2]
    simp [level,some_segment]
  have data : ¬ (requested (u.segs .ss) ≠ requested (u.segs .cs) ∨ sys.privilege (u.segs .ss) ≠ requested (u.segs .cs)) := by
    rw [user.cs.1,user.ss.1,user.ss.2]
    simp
  have ss : last.pop.pop.pop.pop.top = sys.widen (u.segs .ss) := is_ss (.inl rfl)
  simp only [iret,is_cs,ss,sys.widen_low,code,data,if_false]
  split
  · exact ⟨_,rfl⟩
  · exact ⟨_,rfl⟩

/-- From any point of a system call without interrupts the processor comes back. -/
theorem call_returns (image : Image sys) (user : User sys u) (here : sys.fetch u.eip = some (.int systemCall,next))
    (taken : step sys u = some first) (activity : Activity sys functions False (kernelStack sys u.mem).1 first log last) :
    ∃ log' last' after m', Activity sys functions False (kernelStack sys u.mem).1 last log' last' ∧
      sys.fetch last'.eip = some (.iret,after) ∧ step sys last' = some m' := by
  obtain ⟨first',taken',enters⟩ := call_enters image user here
  cases taken.symm.trans taken'
  have wide := image.room
  have seen : Sees sys.room (¬ False) (kernelStack sys u.mem).1 first _ :=
    enter_outer (user_lower image user (by decide)) (by omega) enters
  obtain ⟨t,seen',leads⟩ := activity_leads image.linked (image_transparent image) activity _ [] _ seen
    (frame_leads image user)
  obtain ⟨log',last',t',after,activity',seen'',⟨restored,_⟩,finished⟩ :=
    leads_goes (sees_weaken (fun _ => not_false) seen') leads
  obtain ⟨m',left⟩ := iret_goes image user seen'' restored.stack restored.kernel
  rw [← seen''.eip] at finished
  refine ⟨log',last',after,m',activity',finished,?_⟩
  rw [step,finished]
  exact left

/-- A system call of a process that has returned: whatever interrupts came, the
    process goes on behind its `int` with the value of the function that it named,
    called once with its three words, or with -1; the rest of its state is as it
    was. Its data segments are as they were if no interrupt came. -/
theorem system_call (image : Image sys) (user : User sys u) (here : sys.fetch u.eip = some (.int systemCall,next))
    (taken : step sys u = some first)
    (activity : Activity sys functions interrupts (kernelStack sys u.mem).1 first log last)
    (finished : sys.fetch last.eip = some (.iret,after)) (left : step sys last = some m') :
    m'.eip = next ∧ (∀ r, r ≠ .eax → m'.regs r = u.regs r) ∧ m'.flags = u.flags ∧ m'.segs .cs = u.segs .cs ∧
      m'.segs .ss = u.segs .ss ∧ Answers u.regs log (m'.regs .eax) ∧ (¬ interrupts → m'.segs = u.segs) := by
  obtain ⟨first',taken',enters⟩ := call_enters image user here
  cases taken.symm.trans taken'
  have wide := image.room
  have seen : Sees sys.room (¬ interrupts) (kernelStack sys u.mem).1 first _ :=
    enter_outer (user_lower image user (by decide)) (by omega) enters
  obtain ⟨t,seen',arrived⟩ := activity_leads image.linked (image_transparent image) activity _ [] _ seen
    (frame_leads image user)
  rw [seen'.eip] at finished
  obtain ⟨restored,answers⟩ := leads_arrived image.linked arrived finished
  rw [step,seen'.eip,finished] at left
  have outside : requested ((sys.widen (u.segs .cs)).setWidth 16) ≠ 0 := by
    rw [sys.widen_low,user.cs.1]
    decide
  obtain ⟨eip,esp,regs,cs,ss,ds,es,flags,_⟩ := iret_outer seen' restored.stack outside left
  rw [sys.widen_low] at cs ss ds es
  refine ⟨eip,?_,flags,cs,ss,?_,?_⟩
  · intro r notEax
    by_cases stackPointer : r = .esp
    · subst stackPointer
      exact esp
    · exact (regs r stackPointer).trans (restored.regs r stackPointer notEax)
  · rw [regs .eax (by decide)]
    exact answers
  · intro quiet
    obtain ⟨same_ds,same_es⟩ := seen'.data quiet
    rw [same_ds,restored.ds,user.cs.1,(loadable_user user.ds).2] at ds
    rw [same_es,restored.es,user.cs.1,(loadable_user user.es).2] at es
    funext seg
    cases seg with
    | cs => exact cs
    | ss => exact ss
    | ds => exact ds
    | es => exact es

theorem system_call_open : ∃ first log last m', step sampleSystem sampleProcess = some first ∧
    perform sampleSystem functions 0x800000 openCourse first = some (log,last) ∧ step sampleSystem last = some m' ∧
      m'.eip = 0x2002 ∧ m'.regs .eax = 3 ∧ log = [⟨.open,[0,0,0],3⟩] ∧
      (∀ r, r ≠ .eax → m'.regs r = sampleProcess.regs r) ∧ m'.flags = sampleProcess.flags := by
  have back : (comesBack (step gatedSystem sampleProcess) openCourse).any
      (fun (_,_,last,m') => last.eip = 31 ∧ m'.regs .eax = 3) = true := by decide +kernel
  obtain ⟨⟨first,log,last,m'⟩,came,facts⟩ := (Option.any_eq_true _ _).mp back
  simp only [decide_eq_true_eq] at facts
  obtain ⟨here,value⟩ := facts
  obtain ⟨taken,performed,left⟩ := comesBack_eq came
  rw [← sampleSystem_gated] at taken
  have finished : sampleSystem.fetch last.eip = some (.iret,32) := by
    rw [here]
    rfl
  have stack : (kernelStack sampleSystem sampleProcess.mem).1 = 0x800000 := by decide +kernel
  have activity := perform_activity performed
  rw [← stack] at activity
  obtain ⟨eip,regs,flags,_,_,answers,_⟩ := system_call sample_image sample_user rfl taken activity finished left
  rw [value] at answers
  exact ⟨first,log,last,m',taken,performed,left,eip,value,answers,regs,flags⟩

/-- A system call never gets stuck: it starts, and from every point of it, whatever
    the functions did up to there, the processor can come back to the process. -/
theorem system_call_completes (image : Image sys) (user : User sys u)
    (here : sys.fetch u.eip = some (.int systemCall,next)) : ∃ first, step sys u = some first ∧
      ∀ log last, Activity sys functions False (kernelStack sys u.mem).1 first log last →
        ∃ log' last' after m', Activity sys functions False (kernelStack sys u.mem).1 last log' last' ∧
          sys.fetch last'.eip = some (.iret,after) ∧ step sys last' = some m' := by
  obtain ⟨first,taken,_⟩ := call_enters image user here
  exact ⟨first,taken,fun log last activity => call_returns image user here taken activity⟩

theorem system_call_completes_open : ∃ first, step sampleSystem sampleProcess = some first ∧
    ∃ log last after m', Activity sampleSystem functions False (kernelStack sampleSystem sampleProcess.mem).1 first log last ∧
      sampleSystem.fetch last.eip = some (.iret,after) ∧ step sampleSystem last = some m' := by
  obtain ⟨first,taken,completes⟩ := system_call_completes sample_image sample_user rfl
  exact ⟨first,taken,completes [] first (.done first)⟩

/-- Kernel code with all of its stack. -/
def stackShape (top : BitVec 32) (m : Machine) (n : Nat) : Shape :=
  ⟨m.eip,m.regs,m.segs,m.flags,(wordsAbove m.mem top 0 n).map known ++ []⟩

theorem stackShape_length (top : BitVec 32) (m : Machine) (n : Nat) : (stackShape top m n).stack.length = n := by
  simp [stackShape,wordsAbove_length]

theorem stackShape_sees {n room : Nat} (esp : m.regs .esp = place top n) (small : 4 * n ≤ room) :
    Sees room exact top m (stackShape top m n) := by
  have empty : Holds exact top m.mem [] := trivial
  have length := stackShape_length top m n
  exact ⟨rfl,by rw [length]; exact esp,fun _ _ => rfl,rfl,rfl,fun _ => ⟨rfl,rfl⟩,rfl,holds_wordsAbove n empty,
    by rw [length]; exact small⟩

/-- Kernel code that an interrupt interrupts, with interrupts in its handler to any
    depth, goes on with its registers, its flags and its stack as they were; the
    function of the device was called once. -/
theorem kernel_resumes {n : Nat} (image : Image sys) (raised : hardware vector) (kernel : m.cpl = 0)
    (esp : m.regs .esp = place top n) (roomy : 4 * n + 80 ≤ sys.room) (enters : enter sys m vector none m.eip = some first)
    (activity : Activity sys functions interrupts top first log last) (finished : sys.fetch last.eip = some (.iret,after))
    (left : step sys last = some m') :
    m'.eip = m.eip ∧ m'.regs = m.regs ∧ m'.flags = m.flags ∧ m'.segs .cs = m.segs .cs ∧ m'.segs .ss = m.segs .ss ∧
      (∀ i, i < n → load32 m'.mem (place top (i + 1)) = load32 m.mem (place top (i + 1))) ∧
      ∃ value, log = [⟨deviceHandler vector,[],value⟩] := by
  have length : (stackShape top m n).stack.length = n := stackShape_length top m n
  have below := sys.room_small
  have seen : Sees sys.room (¬ interrupts) top m (stackShape top m n) := stackShape_sees esp (by omega)
  have level : requested ((stackShape top m n).segs .cs) = 0 := kernel
  have roomy' : 4 * (stackShape top m n).stack.length + 80 ≤ sys.room := by omega
  obtain ⟨t,seen',arrived⟩ := activity_leads image.linked (image_transparent image) activity _ [] _
    (enter_inner seen kernel (by omega) enters) (device_leads image raised rfl roomy')
  rw [seen'.eip] at finished
  obtain ⟨back,value,call⟩ := leads_arrived image.linked arrived finished
  rw [step,seen'.eip,finished] at left
  have again := backTo_sees level (by omega) back (sees_weaken False.elim seen') left
  refine ⟨again.eip,?_,again.flags,again.cs,again.ss,?_,value,call⟩
  · funext r
    by_cases stackPointer : r = .esp
    · subst stackPointer
      rw [again.esp,length,esp]
    · exact again.regs r stackPointer
  · intro i inside
    have words : Holds False top m'.mem ((wordsAbove m.mem top 0 n).map known ++ []) := again.holds
    exact wordsAbove_holds (rfl : ([] : List Slot).length = 0) words inside

theorem kernel_resumes_timer : ∃ first log last m', enter sampleSystem sampleKernel 0x20 none 0 = some first ∧
    perform sampleSystem functions 0x800000 timerCourse first = some (log,last) ∧ step sampleSystem last = some m' ∧
      m'.eip = 0 ∧ m'.regs = sampleKernel.regs ∧ m'.flags = sampleKernel.flags ∧
      ∃ value, log = [⟨.pitInterruptHandler,[],value⟩] := by
  have back : (comesBack (enter gatedSystem sampleKernel 0x20 none 0) timerCourse).any
      (fun (_,_,last,_) => last.eip = 43) = true := by decide +kernel
  obtain ⟨⟨first,log,last,m'⟩,came,here⟩ := (Option.any_eq_true _ _).mp back
  simp only [decide_eq_true_eq] at here
  obtain ⟨enters,performed,left⟩ := comesBack_eq came
  rw [← sampleSystem_gated] at enters
  have finished : sampleSystem.fetch last.eip = some (.iret,44) := by
    rw [here]
    rfl
  have raised : hardware 0x20 := ⟨by decide,by decide⟩
  have esp : sampleKernel.regs .esp = place 0x800000 5 := rfl
  have room : 4 * 5 + 80 ≤ sampleSystem.room := by decide
  obtain ⟨eip,regs,flags,_,_,_,call⟩ :=
    kernel_resumes sample_image raised rfl esp room enters (perform_activity performed) finished left
  exact ⟨first,log,last,m',enters,performed,left,eip,regs,flags,call⟩

/-- A process that an interrupt interrupts goes on as it was, except that data
    segment registers in which the handler has come back with segments of the kernel
    are empty. -/
theorem process_resumes (image : Image sys) (raised : hardware vector) (user : User sys u)
    (enters : enter sys u vector none u.eip = some first)
    (activity : Activity sys functions interrupts (kernelStack sys u.mem).1 first log last)
    (finished : sys.fetch last.eip = some (.iret,after)) (left : step sys last = some m') :
    m'.eip = u.eip ∧ m'.regs = u.regs ∧ m'.flags = u.flags ∧ m'.segs .cs = u.segs .cs ∧ m'.segs .ss = u.segs .ss ∧
      (∀ seg, seg = .ds ∨ seg = .es → (last.segs seg = u.segs seg → m'.segs seg = u.segs seg) ∧
        (last.segs seg = kernelDs → m'.segs seg = 0)) ∧
      m'.mem = last.mem ∧ ∃ value, log = [⟨deviceHandler vector,[],value⟩] := by
  have wide := image.room
  have inside : vector < numVectors := Nat.lt_trans raised.2 (by decide)
  have seen : Sees sys.room (¬ interrupts) (kernelStack sys u.mem).1 first _ :=
    enter_outer (user_lower image user inside) (by omega) enters
  have two : (outer sys u).stack.length = 2 := rfl
  have few : 4 * (outer sys u).stack.length + 80 ≤ sys.room := by omega
  obtain ⟨t,seen',arrived⟩ := activity_leads image.linked (image_transparent image) activity _ [] _ seen
    (device_leads image raised rfl few)
  rw [seen'.eip] at finished
  obtain ⟨back,value,call⟩ := leads_arrived image.linked arrived finished
  rw [step,seen'.eip,finished] at left
  have data : (outer sys u).segs .cs = u.segs .cs := by simp [outer]
  have outside : requested ((sys.widen ((outer sys u).segs .cs)).setWidth 16) ≠ 0 := by
    rw [sys.widen_low,data,user.cs.1]
    decide
  obtain ⟨eip,esp,regs,cs,ss,ds,es,flags,mem⟩ := iret_outer seen' back.stack outside left
  rw [sys.widen_low] at ss
  rw [sys.widen_low,data] at cs
  rw [sys.widen_low,data,user.cs.1] at ds es
  have demotes : demoted sys 3 kernelDs = 0 := by
    refine if_pos ⟨by decide,?_⟩
    rw [image.privilege]
    decide
  refine ⟨eip,?_,flags,cs,ss,?_,mem,value,call⟩
  · funext r
    by_cases stackPointer : r = .esp
    · subst stackPointer
      exact esp
    · exact (regs r stackPointer).trans (back.regs r stackPointer)
  · rintro seg (rfl | rfl)
    · exact ⟨fun same => by rw [ds,same,(loadable_user user.ds).2],fun same => by rw [ds,same,demotes]⟩
    · exact ⟨fun same => by rw [es,same,(loadable_user user.es).2],fun same => by rw [es,same,demotes]⟩

theorem process_resumes_timer : ∃ first log last m', enter sampleSystem sampleProcess 0x20 none 0x2000 = some first ∧
    perform sampleSystem functions 0x800000 timerCourse first = some (log,last) ∧ step sampleSystem last = some m' ∧
      m'.eip = 0x2000 ∧ m'.regs = sampleProcess.regs ∧ m'.flags = sampleProcess.flags ∧ m'.segs .ds = 0 ∧
      ∃ value, log = [⟨.pitInterruptHandler,[],value⟩] := by
  have back : (comesBack (enter gatedSystem sampleProcess 0x20 none 0x2000) timerCourse).any
      (fun (_,_,last,_) => last.eip = 43 ∧ last.segs .ds = kernelDs) = true := by decide +kernel
  obtain ⟨⟨first,log,last,m'⟩,came,facts⟩ := (Option.any_eq_true _ _).mp back
  simp only [decide_eq_true_eq] at facts
  obtain ⟨here,data⟩ := facts
  obtain ⟨enters,performed,left⟩ := comesBack_eq came
  rw [← sampleSystem_gated] at enters
  have finished : sampleSystem.fetch last.eip = some (.iret,44) := by
    rw [here]
    rfl
  have raised : hardware 0x20 := ⟨by decide,by decide⟩
  have stack : (kernelStack sampleSystem sampleProcess.mem).1 = 0x800000 := by decide +kernel
  have activity := perform_activity performed
  rw [← stack] at activity
  obtain ⟨eip,regs,flags,_,_,segs,_,call⟩ := process_resumes sample_image raised sample_user enters activity finished left
  exact ⟨first,log,last,m',enters,performed,left,eip,regs,flags,(segs .ds (.inl rfl)).2 data,call⟩

theorem handlerFlags_interrupt (g : Gate) (flags : BitVec 32) : (handlerFlags g flags).getLsbD interruptFlag =
    if g.kind = interruptGate then false else flags.getLsbD interruptFlag := by
  have others : ∀ bit, bit < 32 → interruptFlag ≠ bit → ∀ word : BitVec 32,
      (setBit word bit false).getLsbD interruptFlag = word.getLsbD interruptFlag := by
    intro bit inside other word
    rw [getLsbD_setBit inside,if_neg other]
  rw [handlerFlags]
  split
  · rw [getLsbD_setBit (by decide),if_pos rfl]
  · rw [others _ (by decide) (by decide),others _ (by decide) (by decide),others _ (by decide) (by decide),
      others _ (by decide) (by decide)]

/-- A process in the kernel, behind a gate. -/
theorem process_frame {back : BitVec 32} (image : Image sys) (user : User sys u) (inside : vector < numVectors)
    (enters : enter sys u vector none back = some first) : first.cpl = 0 ∧ first.segs .ss = (kernelStack sys u.mem).2 ∧
      (∀ r, r ≠ .esp → first.regs r = u.regs r) ∧ first.eip = (handlerOf vector).elim 0 sys.address ∧
      first.flags.getLsbD interruptFlag = (if vector = systemCall then u.flags.getLsbD interruptFlag else false) ∧
      Sees sys.room True (kernelStack sys u.mem).1 first (entered sys (outer sys u) (sys.gates vector) back) := by
  have wide := image.room
  have seen : Sees sys.room True (kernelStack sys u.mem).1 first _ :=
    enter_outer (user_lower image user inside) (by omega) enters
  have gate := image_gate image inside
  refine ⟨?_,?_,seen.regs,?_,?_,seen⟩
  · rw [Machine.cpl,seen.cs]
    exact entered_kernel image inside _ _
  · rw [seen.ss]
    simp [entered,outer]
  · rw [seen.eip]
    exact congrArg Gate.offset gate
  · rw [seen.flags]
    refine (handlerFlags_interrupt _ _).trans ?_
    rw [gate]
    by_cases call : vector = systemCall
    · simp only [call,if_true]
      rfl
    · simp only [call,if_false,if_true]

/-- A process comes into the kernel where the kernel wants it, whatever `int` it
    runs: at `syscall_handler`, with its interrupts as they were, or at the handler
    of general protection, with an error code and without interrupts; always on the
    stack of the kernel, with a frame to come back. -/
theorem process_enters (image : Image sys) (user : User sys u) (inside : vector < numVectors)
    (here : sys.fetch u.eip = some (.int vector,next)) : ∃ first, step sys u = some first ∧ first.cpl = 0 ∧
      first.segs .ss = (kernelStack sys u.mem).2 ∧ (∀ r, r ≠ .esp → first.regs r = u.regs r) ∧
      (vector = systemCall → first.eip = sys.address .syscallHandler ∧ topWords 5 first = frameOf sys u next ∧
        first.flags.getLsbD interruptFlag = u.flags.getLsbD interruptFlag) ∧
      (vector ≠ systemCall → first.eip = sys.address .intelGpf ∧
        topWords 6 first = BitVec.ofNat 32 (vector * 8 + 2) :: frameOf sys u u.eip ∧
        first.flags.getLsbD interruptFlag = false) := by
  by_cases call : vector = systemCall
  · subst call
    obtain ⟨first,taken,enters⟩ := call_enters image user here
    obtain ⟨level,ss,regs,eip,flag,seen⟩ := process_frame image user inside enters
    have frame : (entered sys (outer sys u) (sys.gates systemCall) next).stack =
      (frameOf sys u next).map known ++ [] := (List.append_nil _).symm
    exact ⟨first,taken,level,ss,regs,fun _ => ⟨eip,topWords_sees seen frame,flag⟩,absurd rfl⟩
  · have refused : (sys.gates vector).dpl < u.cpl := by
      rw [image_gate image inside,Machine.cpl,user.cs.1]
      simp only [call,if_false]
      decide
    obtain ⟨first,enters⟩ := enter_goes image (show protectionVector < numVectors by decide) u u.eip
    obtain ⟨level,ss,regs,eip,flag,seen⟩ := process_frame image user (by decide) enters
    let code : BitVec 32 := BitVec.ofNat 32 (vector * 8 + 2)
    have taken : step sys u = some (first.push code) := by
      rw [step,here]
      refine (if_pos refused).trans ?_
      rw [enter_error,enters]
      rfl
    have wide := image.room
    have pushed := sees_known sys.room_small seen (show 4 * 6 ≤ sys.room by omega) (rfl : code = code)
    have frame : ((entered sys (outer sys u) (sys.gates protectionVector) u.eip).push (known code)).stack =
      (code :: frameOf sys u u.eip).map known ++ [] := (List.append_nil _).symm
    exact ⟨first.push code,taken,level,ss,fun r other => (Machine.push_regs first code other).trans (regs r other),
      fun same => absurd same call,fun _ => ⟨eip,topWords_sees pushed frame,flag⟩⟩

theorem process_enters_keyboard : ∃ first, step sampleSystem { sampleProcess with eip := 0x2002 } = some first ∧
    first.cpl = 0 ∧ first.eip = sampleAddress .intelGpf ∧
      topWords 6 first = [0x10A,0x2002,0x23,0x202,0x83FFFFC,0x2B] := by
  have user : User sampleSystem { sampleProcess with eip := 0x2002 } :=
    ⟨sample_user.cs,sample_user.ss,sample_user.ds,sample_user.es⟩
  have here : sampleSystem.fetch 0x2002 = some (.int 0x21,0x2004) := rfl
  obtain ⟨first,taken,level,_,_,_,others⟩ :=
    process_enters sample_image user (show 0x21 < numVectors by decide) here
  obtain ⟨eip,frame,_⟩ := others (by decide)
  exact ⟨first,taken,level,eip,frame⟩

end

end MazeOS.Privilege
