import MazeOS.KernelStack

/-!
Kernel code that is interrupted. An `Activity` is what the processor does in the
kernel until an `iret`: instructions, calls of C functions that keep the calling
convention, and whole interrupts, in which the same may happen again. `Leads` is
about the code alone, on shapes and without interrupts. If each handler leads back
to what it interrupted, the code does in every activity what it leads to
(`activity_leads`): no interrupt, however deep they nest, is seen by the code that
it interrupts. An activity is computed from a course of events
(`perform_activity`).
-/
namespace MazeOS.Nesting
open MazeOS.Processor MazeOS.KernelStack
open MazeOS.Assembly (Memory load32 store32)
universe u

/-- A call of a C function, with the words that it got as arguments. -/
structure Call (L : Type u) where
  function : L
  arguments : List (BitVec 32)
  value : BitVec 32

/-- Registers that a C function keeps. -/
def Saved (r : Reg) : Prop := r = .ebx ∨ r = .ebp ∨ r = .esi ∨ r = .edi

section
variable {L : Type u} (sys : System L)

/-- A function was called with some words of arguments, and it has returned. It
    has kept what the calling convention asks for, the words of the stack above
    its arguments included; the data segment registers are left open. -/
structure Returns (top : BitVec 32) (arguments : Nat) (m m' : Machine) : Prop where
  eip : m'.eip = m.top
  esp : m'.regs .esp = m.regs .esp + 4
  saved : ∀ r, Saved r → m'.regs r = m.regs r
  cs : m'.segs .cs = m.segs .cs
  ss : m'.segs .ss = m.segs .ss
  kept : ∀ i n, m.regs .esp = place top n → 4 * n ≤ sys.room → i + arguments < n →
    load32 m'.mem (place top i) = load32 m.mem (place top i)

/-- The words at the stack pointer. -/
def topWords : Nat → Machine → List (BitVec 32)
  | 0, _ => []
  | n + 1, m => m.top :: topWords n m.pop

/-- The C functions, with the number of words that each one gets. -/
abbrev Functions (L : Type u) := L → Option Nat

/-- Interrupts that devices raise. -/
def hardware (vector : Nat) : Prop := 32 ≤ vector ∧ vector < 48

/-- The stack has room for an interrupt: twelve words, and those that an
    instruction may push. -/
def HasRoom (top : BitVec 32) (m : Machine) : Prop := (top - m.regs .esp).toNat + 80 ≤ sys.room

variable (functions : Functions L) (interrupts : Prop) (top : BitVec 32)

/-- What happens in the kernel, on the stack from `top` down, between two
    machines. -/
inductive Activity : Machine → List (Call L) → Machine → Prop where
  | done (m : Machine) : Activity m [] m
  | instr {m m' m'' : Machine} {log : List (Call L)} (plain : ∀ next, sys.fetch m.eip ≠ some (.iret,next))
    (taken : step sys m = some m') (rest : Activity m' log m'') : Activity m log m''
  | call {m m' m'' : Machine} {log : List (Call L)} {f : L} {n : Nat} (here : m.eip = sys.address f)
    (function : functions f = some n) (returns : Returns sys top n m m') (rest : Activity m' log m'') :
    Activity m (⟨f,topWords n m.pop,m'.regs .eax⟩ :: log) m''
  | interrupt {m first last m' m'' : Machine} {inner log : List (Call L)} {vector : Nat} {next : BitVec 32}
    (occur : interrupts) (raised : hardware vector) (enabled : m.flags.getLsbD interruptFlag = true)
    (kernel : m.cpl = 0) (room : HasRoom sys top m) (enters : enter sys m vector none m.eip = some first)
    (handled : Activity first inner last) (finished : sys.fetch last.eip = some (.iret,next))
    (left : step sys last = some m') (rest : Activity m' log m'') : Activity m log m''

/-- The code comes to an `iret` with a property of the calls that were made and of
    the shape. -/
inductive Leads (P : List (Call L) → Shape → Prop) : List (Call L) → Shape → Prop where
  | arrived {log : List (Call L)} {s : Shape} {next : BitVec 32} (here : sys.fetch s.eip = some (.iret,next))
    (holds : P log s) : Leads P log s
  | instr {log : List (Call L)} {s t : Shape} {i : Instr L} {next : BitVec 32} (here : sys.fetch s.eip = some (i,next))
    (roomy : Roomy sys s) (allowed : Allowed sys s i) (follows : follow sys top s next i = some t)
    (rest : Leads P log t) : Leads P log s
  | call {log : List (Call L)} {s : Shape} {f : L} {back : BitVec 32} {arguments : List (BitVec 32)} {above : List Slot}
    (here : s.eip = sys.address f) (function : functions f = some arguments.length)
    (stack : s.stack = known back :: (arguments.map known ++ above))
    (rest : ∀ t : Shape, t.eip = back → (∀ r, Saved r → t.regs r = s.regs r) → t.segs .cs = s.segs .cs →
      t.segs .ss = s.segs .ss → ∀ changed : List (BitVec 32), changed.length = arguments.length →
      t.stack = changed.map known ++ above → Leads P (log ++ [⟨f,arguments,t.regs .eax⟩]) t) : Leads P log s

/-- The instructions of C functions are not looked at, and each function has its
    own address. -/
structure Linked : Prop where
  outside : ∀ f n, functions f = some n → sys.fetch (sys.address f) = none
  apart : ∀ f g n n', functions f = some n → functions g = some n' → sys.address f = sys.address g → f = g

/-- A handler is about to leave for the code that it interrupted. -/
structure BackTo (s : Shape) (t : Shape) : Prop where
  stack : t.stack = known s.eip :: known (sys.widen (s.segs .cs)) :: known s.flags :: s.stack
  regs : ∀ r, r ≠ .esp → t.regs r = s.regs r
  ss : t.segs .ss = s.segs .ss
  kernel : requested (t.segs .cs) = 0

/-- The handlers of all devices lead back to the code that they interrupt. -/
def Transparent : Prop := ∀ vector s, hardware vector → requested (s.segs .cs) = 0 → 4 * s.stack.length + 80 ≤ sys.room →
  Leads sys functions top (fun _ => BackTo sys s) [] (entered sys s (sys.gates vector) s.eip)

end

section
variable {L : Type u} {sys : System L} {functions : Functions L} {interrupts exact : Prop} {top : BitVec 32}
  {m m' : Machine} {s : Shape} {log : List (Call L)} {P : List (Call L) → Shape → Prop}

/-! ### Calls -/

theorem topWords_sees {words : List (BitVec 32)} {above : List Slot} (sees : Sees sys.room exact top m s)
    (stack : s.stack = words.map known ++ above) : topWords words.length m = words := by
  induction words generalizing m s with
  | nil => rfl
  | cons word words ih =>
    obtain ⟨popped,same⟩ := sees_pop sees stack
    rw [List.length_cons,topWords,same (.inl rfl),ih popped rfl]
    rfl

/-- The words above some others on a stack. -/
def wordsAbove (mem : Memory) (top : BitVec 32) (base : Nat) : Nat → List (BitVec 32)
  | 0 => []
  | n + 1 => load32 mem (place top (n + base + 1)) :: wordsAbove mem top base n

theorem wordsAbove_length (mem : Memory) (top : BitVec 32) (base n : Nat) : (wordsAbove mem top base n).length = n := by
  induction n with
  | zero => rfl
  | succ n ih => rw [wordsAbove,List.length_cons,ih]

theorem holds_wordsAbove {mem : Memory} {above : List Slot} (n : Nat) (holds : Holds exact top mem above) :
    Holds exact top mem ((wordsAbove mem top above.length n).map known ++ above) := by
  induction n with
  | zero => exact holds
  | succ n ih =>
    have length : ((wordsAbove mem top above.length n).map known ++ above).length = n + above.length := by
      rw [List.length_append,List.length_map,wordsAbove_length]
    exact ⟨fun _ => congrArg (fun k => load32 mem (place top (k + 1))) length,ih⟩

theorem wordsAbove_holds {mem mem' : Memory} {base n : Nat} {above : List Slot} (same : above.length = base)
    (holds : Holds exact top mem' ((wordsAbove mem top base n).map known ++ above)) {i : Nat} (inside : i < n) :
    load32 mem' (place top (i + base + 1)) = load32 mem (place top (i + base + 1)) := by
  induction n with
  | zero => exact absurd inside (Nat.not_lt_zero i)
  | succ n ih =>
    obtain ⟨word,rest⟩ := holds
    rcases Nat.lt_succ_iff_lt_or_eq.mp inside with further | rfl
    · exact ih rest further
    · have length : ((wordsAbove mem top base i).map known ++ above).length = i + base := by
        rw [List.length_append,List.length_map,wordsAbove_length,same]
      have found : load32 mem' (place top (((wordsAbove mem top base i).map known ++ above).length + 1)) = _ := word (.inl rfl)
      rwa [length] at found

/-- A C function that has returned is seen as the shape of its call allows. -/
theorem returns_sees {back : BitVec 32} {arguments : List (BitVec 32)} {above : List Slot}
    (sees : Sees sys.room exact top m s) (stack : s.stack = known back :: (arguments.map known ++ above))
    (returns : Returns sys top arguments.length m m') :
    ∃ t : Shape, Sees sys.room exact top m' t ∧ t.eip = back ∧ (∀ r, Saved r → t.regs r = s.regs r) ∧
      t.segs .cs = s.segs .cs ∧ t.segs .ss = s.segs .ss ∧ t.regs .eax = m'.regs .eax ∧
      ∃ changed : List (BitVec 32), changed.length = arguments.length ∧ t.stack = changed.map known ++ above := by
  have length : s.stack.length = arguments.length + above.length + 1 := by simp [stack]
  have small := sees.small
  have esp : m.regs .esp = place top (arguments.length + above.length + 1) := by rw [sees.esp,length]
  obtain ⟨popped,is_back⟩ := sees_pop sees stack
  have holds : Holds exact top m'.mem above := by
    have before : Holds exact top m.mem above := by
      have dropped := holds_drop (arguments.length + 1) sees.holds
      rwa [stack,List.drop_succ_cons,List.drop_left' (by simp)] at dropped
    exact holds_congr (fun i inside => returns.kept i _ esp (by omega) (by omega)) before
  let changed := wordsAbove m'.mem top above.length arguments.length
  have changed_length : changed.length = arguments.length := wordsAbove_length ..
  have notEsp : ∀ r, Saved r → r ≠ .esp := by
    rintro r (rfl | rfl | rfl | rfl) <;> decide
  refine ⟨⟨back,m'.regs,m'.segs,m'.flags,changed.map known ++ above⟩,?_,rfl,?_,?_,?_,rfl,changed,changed_length,rfl⟩
  · refine ⟨returns.eip.trans (is_back (.inl rfl)),?_,fun _ _ => rfl,rfl,rfl,fun _ => ⟨rfl,rfl⟩,rfl,
      holds_wordsAbove _ holds,?_⟩
    · rw [returns.esp,esp,place_pred,List.length_append,List.length_map,changed_length]
    · rw [List.length_append,List.length_map,changed_length]
      omega
  · intro r saved
    exact (returns.saved r saved).trans (sees.regs r (notEsp r saved))
  · exact returns.cs.trans sees.cs
  · exact returns.ss.trans sees.ss

/-! ### Activities and what the code leads to -/

/-- A handler that has come back has changed nothing that the code sees. -/
theorem backTo_sees {t : Shape} (kernel : requested (s.segs .cs) = 0) (small : 4 * s.stack.length ≤ sys.room)
    (back : BackTo sys s t) (sees : Sees sys.room False top m t) (left : iret sys m = some m') :
    Sees sys.room False top m' s := by
  have widened : (sys.widen (s.segs .cs)).setWidth 16 = s.segs .cs := sys.widen_low _
  have gone := iret_inner sees back.stack (by rw [widened]; exact kernel) left
  refine ⟨gone.eip,gone.esp,?_,?_,?_,False.elim,gone.flags,gone.holds,small⟩
  · exact fun r other => (gone.regs r other).trans (back.regs r other)
  · exact gone.cs.trans (by simp [widened])
  · exact gone.ss.trans (by simp [back.ss])

/-- At an `iret` the code has come to where it leads. -/
theorem leads_arrived {next : BitVec 32} (linked : Linked sys functions) (leads : Leads sys functions top P log s)
    (here : sys.fetch s.eip = some (.iret,next)) : P log s := by
  cases leads with
  | arrived _ holds => exact holds
  | instr here' _ _ follows _ =>
    cases here.symm.trans here'
    cases follows
  | call here' function _ _ =>
    rw [here',linked.outside _ _ function] at here
    cases here

/-- Whatever interrupts come, and however they nest, the code does what it leads
    to. -/
theorem activity_leads (linked : Linked sys functions) (transparent : Transparent sys functions top)
    (activity : Activity sys functions interrupts top m log m') :
    ∀ (P : List (Call L) → Shape → Prop) (before : List (Call L)) (s : Shape), Sees sys.room (¬ interrupts) top m s →
      Leads sys functions top P before s →
      ∃ t, Sees sys.room (¬ interrupts) top m' t ∧ Leads sys functions top P (before ++ log) t := by
  induction activity with
  | done m =>
    intro P before s sees leads
    exact ⟨s,sees,(List.append_nil before).symm ▸ leads⟩
  | instr plain taken _ ih =>
    intro P before s sees leads
    cases leads with
    | arrived here _ => exact absurd (sees.eip ▸ here) (plain _)
    | instr here roomy _ follows rest =>
      rw [step,sees.eip,here] at taken
      exact ih P before _ (follow_sees sees roomy follows taken) rest
    | call here function _ _ =>
      rw [step,sees.eip,here,linked.outside _ _ function] at taken
      cases taken
  | call here function returns _ ih =>
    intro P before s sees leads
    have outside := linked.outside _ _ function
    rw [← here,sees.eip] at outside
    cases leads with
    | arrived here' _ =>
      rw [outside] at here'
      cases here'
    | instr here' _ _ _ _ =>
      rw [outside] at here'
      cases here'
    | call here' function' stack rest =>
      have same := linked.apart _ _ _ _ function function' (here.symm.trans (sees.eip.trans here'))
      subst same
      cases function.symm.trans function'
      obtain ⟨t,sees',eip,saved,cs,ss,value,changed,length,stack'⟩ := returns_sees sees stack returns
      have arguments := topWords_sees (sees_pop sees stack).1 rfl
      have later := ih P _ t sees' (rest t eip saved cs ss changed length stack')
      rw [arguments,← value]
      simpa using later
  | interrupt occur raised enabled kernel room enters handled finished left _ ih_inner ih_rest =>
    intro P before s sees leads
    have level : requested (s.segs .cs) = 0 := by
      rw [← sees.cs]
      exact kernel
    have below := sys.room_small
    have small := sees.small
    have roomy : 4 * s.stack.length + 80 ≤ sys.room := by
      rwa [HasRoom,sees.esp,sub_place (by omega)] at room
    have first := enter_inner sees kernel (by omega) enters
    rw [sees.eip] at first
    obtain ⟨t,seen,arrived⟩ := ih_inner _ [] _ first (transparent _ s raised level roomy)
    rw [seen.eip] at finished
    have back := leads_arrived linked arrived finished
    rw [step,seen.eip,finished] at left
    have again := backTo_sees level small back (sees_weaken False.elim seen) left
    exact ih_rest P before s (sees_weaken (fun quiet => quiet occur) again) leads

theorem leads_mono {Q : List (Call L) → Shape → Prop} (weaker : ∀ log t, P log t → Q log t)
    (leads : Leads sys functions top P log s) : Leads sys functions top Q log s := by
  induction leads with
  | arrived here holds => exact .arrived here (weaker _ _ holds)
  | instr here roomy allowed follows _ ih => exact .instr here roomy allowed follows ih
  | call here function stack _ ih => exact .call here function stack ih

/-- A C function may return at once. -/
theorem returns_exists (n : Nat) (m : Machine) : ∃ m', Returns sys top n m m' := by
  refine ⟨{ m.pop with eip := m.top },rfl,Machine.pop_esp m,fun r saved => Machine.pop_regs m ?_,rfl,rfl,fun _ _ _ _ _ => rfl⟩
  rcases saved with rfl | rfl | rfl | rfl <;> decide

/-- Without interrupts nothing keeps the processor from coming to the end. -/
theorem leads_goes {before : List (Call L)} (sees : Sees sys.room True top m s)
    (leads : Leads sys functions top P before s) :
    ∃ log last t next, Activity sys functions False top m log last ∧ Sees sys.room True top last t ∧ P (before ++ log) t ∧
      sys.fetch t.eip = some (.iret,next) := by
  induction leads generalizing m with
  | @arrived before s next here holds =>
    exact ⟨[],m,s,next,.done m,sees,by rwa [List.append_nil],here⟩
  | @instr before s t i next here roomy allowed follows _ ih =>
    obtain ⟨m',taken⟩ := follow_goes sees follows allowed
    have fetched : sys.fetch m.eip = some (i,next) := sees.eip ▸ here
    have stepped : step sys m = some m' := by rw [step,fetched]; exact taken
    obtain ⟨log,last,t',next',activity,rest⟩ := ih (follow_sees sees roomy follows taken)
    refine ⟨log,last,t',next',.instr (fun next'' same => ?_) stepped activity,rest⟩
    cases fetched.symm.trans same
    cases follows
  | @call before s f back arguments above here function stack _ ih =>
    obtain ⟨m',returns⟩ : ∃ m', Returns sys top arguments.length m m' := returns_exists _ m
    obtain ⟨t,sees',eip,saved,cs,ss,value,changed,length,stack'⟩ := returns_sees sees stack returns
    obtain ⟨log,last,t',next',activity,seen,holds,finished⟩ := ih t eip saved cs ss changed length stack' sees'
    have words := topWords_sees (sees_pop sees stack).1 rfl
    refine ⟨_,last,t',next',.call (sees.eip.trans here) function returns activity,seen,?_,finished⟩
    rw [words,← value]
    simpa using holds

/-! ### Blocks -/

theorem popSlot_goto (s : Shape) (r : Reg) (a : BitVec 32) : popSlot (s.goto a) r = (popSlot s r).map (·.goto a) := by
  unfold popSlot
  rw [Shape.goto_stack]
  split
  · split
    · rfl
    · split <;> rfl
  · rfl

theorem pops_goto (rs : List Reg) (s : Shape) (a : BitVec 32) :
    rs.foldlM popSlot (s.goto a) = (rs.foldlM popSlot s).map (·.goto a) := by
  induction rs generalizing s with
  | nil => rfl
  | cons r rs ih =>
    rw [List.foldlM_cons,List.foldlM_cons,popSlot_goto]
    cases popSlot s r with
    | none => rfl
    | some t => exact ih t

theorem act_goto (i : Instr L) (s : Shape) (a : BitVec 32) : act sys top (s.goto a) i = (act sys top s i).map (·.goto a) := by
  cases i with
  | popl r =>
    simp only [act,popSlot_goto]
    split <;> rfl
  | popal => exact pops_goto _ s a
  | popSeg seg =>
    simp only [act,Shape.goto_stack]
    split <;> rfl
  | popfl =>
    simp only [act,Shape.goto_stack,Shape.goto_segs]
    split
    · by_cases kernel : requested (s.segs .cs) = 0
      · simp only [kernel,if_true]
        rfl
      · simp only [kernel,if_false]
        rfl
    · rfl
  | addl value r =>
    simp only [act,Shape.goto_stack]
    split
    · by_cases words : value.toNat % 4 = 0 ∧ value.toNat / 4 ≤ s.stack.length
      · simp only [words,and_self,if_true]
        rfl
      · simp only [words,if_false]
        rfl
    · rfl
  | pushl | movwImm | movwTo | movlImm | cmpl =>
    simp only [act]
    split <;> rfl
  | _ => rfl

theorem follow_act {i : Instr L} {t : Shape} (next : BitVec 32) (acts : act sys top s i = some t) :
    follow sys top s next i = some (t.goto next) := by
  cases i with
  | jb | ja | jmp | call | callTable => cases acts
  | _ =>
    simp only [follow,acts]
    rfl

/-- Words that were pushed from registers are popped into them. -/
theorem pops_known {rs : List Reg} {values : Reg → BitVec 32} {rest : List Slot} (distinct : rs.Nodup)
    (stack : s.stack = (rs.map values).map known ++ rest) : ∃ t, rs.foldlM popSlot s = some t ∧ t.stack = rest ∧
      (∀ r, r ∈ rs → r ≠ .esp → t.regs r = values r) ∧ (∀ r, r ∉ rs → t.regs r = s.regs r) ∧ t.segs = s.segs := by
  induction rs generalizing s with
  | nil => exact ⟨s,rfl,stack,fun _ none => (nomatch none),fun _ _ => rfl,rfl⟩
  | cons r rs ih =>
    obtain ⟨absent,distinct'⟩ := List.nodup_cons.mp distinct
    obtain ⟨next,popped,place,value,others,segs⟩ : ∃ next, popSlot s r = some next ∧
        next.stack = (rs.map values).map known ++ rest ∧ (r ≠ .esp → next.regs r = values r) ∧
        (∀ q, q ≠ r → next.regs q = s.regs q) ∧ next.segs = s.segs := by
      by_cases here : r = .esp
      · refine ⟨s.setStack _,?_,rfl,fun other => absurd here other,fun _ _ => rfl,rfl⟩
        simp [popSlot,stack,here,known]
      · refine ⟨(s.setStack _).setReg r (values r),?_,rfl,fun _ => Function.update_self ..,
          fun q other => Function.update_of_ne other _ _,rfl⟩
        simp [popSlot,stack,here,known]
    obtain ⟨t,done,place',values',others',segs'⟩ := ih distinct' place
    refine ⟨t,by rw [List.foldlM_cons,popped]; exact done,place',?_,?_,segs'.trans segs⟩
    · intro q member notEsp
      rcases List.mem_cons.mp member with rfl | later
      · exact (others' q absent).trans (value notEsp)
      · exact values' q later notEsp
    · intro q outside
      rw [List.mem_cons,not_or] at outside
      exact (others' q outside.2).trans (others q outside.1)

/-- The instructions of a block, one after another. -/
def Performs (sys : System L) (top : BitVec 32) : List (Instr L) → Shape → Shape → Prop
  | [], s, t => s = t
  | i :: block, s, t => Roomy sys s ∧ Allowed sys s i ∧ ∃ after, act sys top s i = some after ∧ Performs sys top block after t

theorem performs_goto {block : List (Instr L)} {t : Shape} (a : BitVec 32) (performs : Performs sys top block s t) :
    Performs sys top block (s.goto a) (t.goto a) := by
  induction block generalizing s with
  | nil => exact congrArg (·.goto a) performs
  | cons i block ih =>
    obtain ⟨roomy,allowed,after,acts,rest⟩ := performs
    refine ⟨roomy,?_,after.goto a,by rw [act_goto,acts]; rfl,ih rest⟩
    cases i <;> exact allowed

/-- A block leads to where the code behind it leads. -/
theorem leads_block {block : List (Instr L)} {rest : List (Item L)} {t : Shape}
    (loaded : Loaded sys s.eip (block.map .instr ++ rest)) (performs : Performs sys top block s t)
    (further : ∀ a, Loaded sys a rest → Leads sys functions top P log (t.goto a)) : Leads sys functions top P log s := by
  induction block generalizing s t with
  | nil =>
    cases performs
    exact further s.eip loaded
  | cons i block ih =>
    obtain ⟨next,fetched,loaded'⟩ := loaded
    obtain ⟨roomy,allowed,after,acts,performs'⟩ := performs
    refine .instr fetched roomy allowed (follow_act next acts) (ih loaded' (performs_goto next performs') ?_)
    exact fun a loaded'' => further a loaded''

end

/-! ### Courses of events -/

/-- What happens in the kernel, event after event: instructions, C functions that
    return a value in EAX with flags and data segments, and interrupts with what
    happens in their handlers. -/
inductive Course (L : Type u) where
  | done
  | instr (rest : Course L)
  | call (f : L) (value flags : BitVec 32) (data : BitVec 16) (rest : Course L)
  | interrupt (vector : Nat) (inner rest : Course L)

/-- Some instructions one after another. -/
def Course.instrs {L : Type u} (rest : Course L) : Nat → Course L
  | 0 => rest
  | n + 1 => .instr (rest.instrs n)

/-- A C function has returned. -/
def returned (m : Machine) (value flags : BitVec 32) (data : BitVec 16) : Machine :=
  { m.pop.setReg .eax value with
    eip := m.top
    flags := flags
    segs := fun seg => if seg = .ds ∨ seg = .es then data else m.segs seg }

section
variable {L : Type u} (sys : System L) (functions : Functions L) (top : BitVec 32)

instance (m : Machine) : Decidable (HasRoom sys top m) := inferInstanceAs (Decidable (_ ≤ _))

instance (vector : Nat) : Decidable (hardware vector) := inferInstanceAs (Decidable (_ ∧ _))

/-- The calls that a course makes and the machine that it ends with. -/
def perform : Course L → Machine → Option (List (Call L) × Machine)
  | .done, m => some ([],m)
  | .instr rest, m =>
    match sys.fetch m.eip with
    | some (.iret,_) => none
    | _ => (step sys m).bind (perform rest)
  | .call f value flags data rest, m =>
    match functions f with
    | some n =>
      if m.eip = sys.address f then
        (perform rest (returned m value flags data)).map fun (log,last) => (⟨f,topWords n m.pop,value⟩ :: log,last)
      else none
    | none => none
  | .interrupt vector inner rest, m =>
    if hardware vector ∧ m.flags.getLsbD interruptFlag = true ∧ m.cpl = 0 ∧ HasRoom sys top m then
      ((enter sys m vector none m.eip).bind (perform inner)).bind fun (_,last) =>
        match sys.fetch last.eip with
        | some (.iret,_) => (step sys last).bind (perform rest)
        | _ => none
    else none

end

section
variable {L : Type u} {sys : System L} {functions : Functions L} {top : BitVec 32}

theorem returned_returns (arguments : Nat) (m : Machine) (value flags : BitVec 32) (data : BitVec 16) :
    Returns sys top arguments m (returned m value flags data) := by
  refine ⟨rfl,?_,fun r saved => ?_,rfl,rfl,fun _ _ _ _ _ => rfl⟩
  · simp [returned,Machine.setReg_regs]
  · have other : r ≠ .eax ∧ r ≠ .esp := by rcases saved with rfl | rfl | rfl | rfl <;> decide
    simp [returned,Machine.setReg_regs,other.1,Machine.pop_regs m other.2]

/-- What a course performs may happen. -/
theorem perform_activity {course : Course L} {m last : Machine} {log : List (Call L)}
    (performed : perform sys functions top course m = some (log,last)) : Activity sys functions True top m log last := by
  induction course generalizing m log last with
  | done =>
    cases performed
    exact .done m
  | instr rest ih =>
    simp only [perform] at performed
    split at performed
    · cases performed
    · rename_i plain
      obtain ⟨m',taken,further⟩ := Option.bind_eq_some_iff.mp performed
      exact .instr (fun next fetched => plain next fetched) taken (ih further)
  | call f value flags data rest ih =>
    simp only [perform] at performed
    split at performed
    · rename_i n function
      split at performed
      · rename_i here
        obtain ⟨⟨log',last'⟩,further,same⟩ := Option.map_eq_some_iff.mp performed
        cases same
        exact .call here function (returned_returns n m value flags data) (ih further)
      · cases performed
    · cases performed
  | interrupt vector inner rest ih_inner ih_rest =>
    simp only [perform] at performed
    split at performed
    · rename_i fit
      obtain ⟨raised,enabled,kernel,room⟩ := fit
      obtain ⟨⟨log',last'⟩,handled,further⟩ := Option.bind_eq_some_iff.mp performed
      obtain ⟨first,enters,handled⟩ := Option.bind_eq_some_iff.mp handled
      split at further
      · rename_i finished
        obtain ⟨m',left,further⟩ := Option.bind_eq_some_iff.mp further
        exact .interrupt trivial raised enabled kernel room enters (ih_inner handled) finished left (ih_rest further)
      · cases further
    · cases performed

end
end MazeOS.Nesting
