import MazeOS.Processor

/-!
Code of a kernel seen from its stack. A `Shape` is a machine whose memory is its
stack alone, as a list of words; each instruction acts on it (`act`, `follow`), and
a machine that a shape stands for goes on with it (`follow_sees`). Words that were
pushed from data segment registers count as known only in runs that are `exact`.
-/
namespace MazeOS.KernelStack
open MazeOS.Processor
open MazeOS.Assembly (Memory load32 store32)
open MazeOS.Words (load32_store32)
universe u

/-! ### Stacks as lists -/

/-- A word on the stack, and whether it is known in every run. -/
structure Slot where
  word : BitVec 32
  sure : Bool

def known (word : BitVec 32) : Slot := ⟨word,true⟩

/-- The stack pointer and the memory are those of the list. -/
structure Shape where
  eip : BitVec 32
  regs : Reg → BitVec 32
  segs : Seg → BitVec 16
  flags : BitVec 32
  stack : List Slot

namespace Shape

def goto (s : Shape) (eip : BitVec 32) : Shape := { s with eip := eip }
def setReg (s : Shape) (r : Reg) (value : BitVec 32) : Shape := { s with regs := Function.update s.regs r value }
def setSeg (s : Shape) (seg : Seg) (selector : BitVec 16) : Shape :=
  { s with segs := Function.update s.segs seg selector }
def setFlags (s : Shape) (flags : BitVec 32) : Shape := { s with flags := flags }
def setStack (s : Shape) (stack : List Slot) : Shape := { s with stack := stack }
def push (s : Shape) (slot : Slot) : Shape := s.setStack (slot :: s.stack)

section
variable (s : Shape) (eip value flags : BitVec 32) (r : Reg) (seg : Seg) (selector : BitVec 16)
  (stack : List Slot) (slot : Slot)

@[simp] theorem goto_eip : (s.goto eip).eip = eip := rfl
@[simp] theorem goto_regs : (s.goto eip).regs = s.regs := rfl
@[simp] theorem goto_segs : (s.goto eip).segs = s.segs := rfl
@[simp] theorem goto_flags : (s.goto eip).flags = s.flags := rfl
@[simp] theorem goto_stack : (s.goto eip).stack = s.stack := rfl
@[simp] theorem setReg_eip : (s.setReg r value).eip = s.eip := rfl
@[simp] theorem setReg_regs : (s.setReg r value).regs = Function.update s.regs r value := rfl
@[simp] theorem setReg_segs : (s.setReg r value).segs = s.segs := rfl
@[simp] theorem setReg_flags : (s.setReg r value).flags = s.flags := rfl
@[simp] theorem setReg_stack : (s.setReg r value).stack = s.stack := rfl
@[simp] theorem setSeg_eip : (s.setSeg seg selector).eip = s.eip := rfl
@[simp] theorem setSeg_regs : (s.setSeg seg selector).regs = s.regs := rfl
@[simp] theorem setSeg_segs : (s.setSeg seg selector).segs = Function.update s.segs seg selector := rfl
@[simp] theorem setSeg_flags : (s.setSeg seg selector).flags = s.flags := rfl
@[simp] theorem setSeg_stack : (s.setSeg seg selector).stack = s.stack := rfl
@[simp] theorem setFlags_eip : (s.setFlags flags).eip = s.eip := rfl
@[simp] theorem setFlags_regs : (s.setFlags flags).regs = s.regs := rfl
@[simp] theorem setFlags_segs : (s.setFlags flags).segs = s.segs := rfl
@[simp] theorem setFlags_flags : (s.setFlags flags).flags = flags := rfl
@[simp] theorem setFlags_stack : (s.setFlags flags).stack = s.stack := rfl
@[simp] theorem setStack_eip : (s.setStack stack).eip = s.eip := rfl
@[simp] theorem setStack_regs : (s.setStack stack).regs = s.regs := rfl
@[simp] theorem setStack_segs : (s.setStack stack).segs = s.segs := rfl
@[simp] theorem setStack_flags : (s.setStack stack).flags = s.flags := rfl
@[simp] theorem setStack_stack : (s.setStack stack).stack = stack := rfl
@[simp] theorem push_regs : (s.push slot).regs = s.regs := rfl
@[simp] theorem push_segs : (s.push slot).segs = s.segs := rfl
@[simp] theorem push_flags : (s.push slot).flags = s.flags := rfl
@[simp] theorem push_stack : (s.push slot).stack = slot :: s.stack := rfl

end

end Shape

/-- The words on the stack, the top one first. -/
def Holds (exact : Prop) (top : BitVec 32) (mem : Memory) : List Slot → Prop
  | [] => True
  | slot :: rest =>
    (slot.sure = true ∨ exact → load32 mem (place top (rest.length + 1)) = slot.word) ∧ Holds exact top mem rest

/-- The machine is the one that the shape stands for. -/
structure Sees (room : Nat) (exact : Prop) (top : BitVec 32) (m : Machine) (s : Shape) : Prop where
  eip : m.eip = s.eip
  esp : m.regs .esp = place top s.stack.length
  regs : ∀ r, r ≠ .esp → m.regs r = s.regs r
  cs : m.segs .cs = s.segs .cs
  ss : m.segs .ss = s.segs .ss
  data : exact → m.segs .ds = s.segs .ds ∧ m.segs .es = s.segs .es
  flags : m.flags = s.flags
  holds : Holds exact top m.mem s.stack
  small : 4 * s.stack.length ≤ room

section
variable {room : Nat} {exact : Prop} {top : BitVec 32} {m : Machine} {s : Shape}

/-- Less is claimed of runs that are not exact. -/
theorem sees_weaken {exact' : Prop} (weaker : exact' → exact) (sees : Sees room exact top m s) :
    Sees room exact' top m s := by
  have holds : ∀ stack, Holds exact top m.mem stack → Holds exact' top m.mem stack := by
    intro stack
    induction stack with
    | nil => exact id
    | cons slot rest ih => exact fun h => ⟨fun counts => h.1 (counts.imp_right weaker),ih h.2⟩
  exact ⟨sees.eip,sees.esp,sees.regs,sees.cs,sees.ss,fun h => sees.data (weaker h),sees.flags,holds _ sees.holds,sees.small⟩

theorem holds_congr {mem mem' : Memory} {stack : List Slot}
    (same : ∀ i, i ≤ stack.length → load32 mem' (place top i) = load32 mem (place top i))
    (holds : Holds exact top mem stack) : Holds exact top mem' stack := by
  induction stack with
  | nil => trivial
  | cons slot rest ih =>
    obtain ⟨word,others⟩ := holds
    refine ⟨fun counts => ?_,ih (fun i inside => same i (Nat.le_succ_of_le inside)) others⟩
    rw [same (rest.length + 1) (Nat.le_refl _)]
    exact word counts

/-- Words are pushed below the others. -/
theorem sees_push {word : BitVec 32} {slot : Slot} (small : room ≤ 2 ^ 31) (sees : Sees room exact top m s)
    (roomy : 4 * (s.stack.length + 1) ≤ room) (same : slot.sure = true ∨ exact → word = slot.word) :
    Sees room exact top (m.push word) (s.push slot) := by
  have below : m.regs .esp - 4 = place top (s.stack.length + 1) := by rw [sees.esp,place_succ]
  refine ⟨sees.eip,?_,?_,sees.cs,sees.ss,sees.data,sees.flags,⟨fun counts => ?_,?_⟩,roomy⟩
  · rw [Machine.push_esp]
    exact below
  · intro r other
    rw [Machine.push_regs m word other]
    exact sees.regs r other
  · rw [Machine.push_mem,below,load32_store32]
    exact same counts
  · refine holds_congr (fun i inside => ?_) sees.holds
    rw [Machine.push_mem,below]
    exact load32_store32_place _ _ (by omega) (by omega) (by omega)

theorem sees_known {word value : BitVec 32} (small : room ≤ 2 ^ 31) (sees : Sees room exact top m s)
    (roomy : 4 * (s.stack.length + 1) ≤ room) (same : word = value) :
    Sees room exact top (m.push word) (s.push (known value)) :=
  sees_push small sees roomy fun _ => same

theorem sees_pop {slot : Slot} {rest : List Slot} (sees : Sees room exact top m s) (stack : s.stack = slot :: rest) :
    Sees room exact top m.pop (s.setStack rest) ∧ (slot.sure = true ∨ exact → m.top = slot.word) := by
  have place_here : m.regs .esp = place top (rest.length + 1) := by rw [sees.esp,stack,List.length_cons]
  have holds := sees.holds
  have small := sees.small
  rw [stack] at holds small
  rw [List.length_cons] at small
  refine ⟨⟨sees.eip,?_,?_,sees.cs,sees.ss,sees.data,sees.flags,holds.2,by rw [Shape.setStack_stack]; omega⟩,?_⟩
  · rw [Machine.pop_esp,place_here,place_pred,Shape.setStack_stack]
  · intro r other
    rw [Machine.pop_regs m other]
    exact sees.regs r other
  · rw [Machine.top,place_here]
    exact holds.1

theorem sees_setReg {r : Reg} (sees : Sees room exact top m s) (other : r ≠ .esp) (value : BitVec 32) :
    Sees room exact top (m.setReg r value) (s.setReg r value) := by
  refine ⟨sees.eip,?_,?_,sees.cs,sees.ss,sees.data,sees.flags,sees.holds,sees.small⟩
  · rw [Machine.setReg_regs,if_neg other.symm]
    exact sees.esp
  · intro q notEsp
    simp only [Machine.setReg_regs,Shape.setReg_regs,Function.update_apply]
    split
    · rfl
    · exact sees.regs q notEsp

theorem sees_popl {word : BitVec 32} {rest : List Slot} {r : Reg} (sees : Sees room exact top m s)
    (stack : s.stack = known word :: rest) (other : r ≠ .esp) :
    Sees room exact top (m.pop.setReg r m.top) ((s.setStack rest).setReg r word) := by
  obtain ⟨popped,same⟩ := sees_pop sees stack
  rw [same (.inl rfl)]
  exact sees_setReg popped other word

theorem holds_drop {mem : Memory} {stack : List Slot} (n : Nat) (holds : Holds exact top mem stack) :
    Holds exact top mem (stack.drop n) := by
  induction n generalizing stack with
  | zero => exact holds
  | succ n ih =>
    cases stack with
    | nil => exact holds
    | cons slot rest => exact ih holds.2

/-- The stack pointer is moved up past some words. -/
theorem sees_drop {n : Nat} (sees : Sees room exact top m s) (inside : n ≤ s.stack.length) :
    Sees room exact top (m.setReg .esp (m.regs .esp + BitVec.ofNat 32 (4 * n))) (s.setStack (s.stack.drop n)) := by
  have small := sees.small
  refine ⟨sees.eip,?_,?_,sees.cs,sees.ss,sees.data,sees.flags,holds_drop n sees.holds,?_⟩
  · simp only [Machine.setReg_regs,if_true,sees.esp,Shape.setStack_stack,List.length_drop]
    unfold place
    bv_omega
  · intro r other
    rw [Machine.setReg_regs,if_neg other]
    exact sees.regs r other
  · rw [Shape.setStack_stack,List.length_drop]
    omega

theorem sees_at (sees : Sees room exact top m s) (eip : BitVec 32) :
    Sees room exact top { m with eip := eip } (s.goto eip) :=
  ⟨rfl,sees.esp,sees.regs,sees.cs,sees.ss,sees.data,sees.flags,sees.holds,sees.small⟩

theorem sees_flags (sees : Sees room exact top m s) (flags : BitVec 32) :
    Sees room exact top { m with flags := flags } (s.setFlags flags) :=
  ⟨sees.eip,sees.esp,sees.regs,sees.cs,sees.ss,sees.data,rfl,sees.holds,sees.small⟩

/-- A data segment register is loaded with a selector that is known in exact runs. -/
theorem sees_loadSeg {L : Type u} {sys : System L} {seg : Seg} {selector selector' : BitVec 16} {m' : Machine}
    (sees : Sees room exact top m s) (same : exact → selector = selector') (taken : loadSeg sys m seg selector = some m') :
    Sees room exact top m' (s.setSeg seg selector') := by
  rw [loadSeg] at taken
  split at taken
  · rename_i fits
    obtain ⟨notCs,notSs,_⟩ := fits
    cases taken
    refine ⟨sees.eip,sees.esp,sees.regs,?_,?_,fun is_exact => ?_,sees.flags,sees.holds,sees.small⟩
    · simp only [Shape.setSeg_segs,Function.update_of_ne notCs.symm]
      exact sees.cs
    · simp only [Shape.setSeg_segs,Function.update_of_ne notSs.symm]
      exact sees.ss
    · obtain ⟨ds,es⟩ := sees.data is_exact
      simp only [same is_exact,Shape.setSeg_segs,Function.update_apply,ds,es,and_self]
  · cases taken

end

/-! ### Instructions on shapes -/

section
variable {L : Type u} (sys : System L) (top : BitVec 32)

def valueOf (s : Shape) (r : Reg) : BitVec 32 := if r = .esp then place top s.stack.length else s.regs r

def popSlot (s : Shape) (r : Reg) : Option Shape := match s.stack with
  | ⟨word,sure⟩ :: rest =>
    if r = .esp then some (s.setStack rest) else if sure then some ((s.setStack rest).setReg r word) else none
  | [] => none

/-- What an instruction that goes to the next one does. -/
def act (s : Shape) : Instr L → Option Shape
  | .pushl r => if r = .esp then none else some (s.push (known (s.regs r)))
  | .popl r => if r = .esp then none else popSlot s r
  | .pushSeg seg => some (s.push ⟨sys.widen (s.segs seg),decide (seg = .cs ∨ seg = .ss)⟩)
  | .popSeg seg => match s.stack with
    | ⟨word,_⟩ :: rest => some ((s.setStack rest).setSeg seg (word.setWidth 16))
    | [] => none
  | .pushfl => some (s.push (known (pushFlags s.flags)))
  | .popfl => match s.stack with
    | ⟨word,true⟩ :: rest =>
      if requested (s.segs .cs) = 0 then some ((s.setStack rest).setFlags (popFlags s.flags word)) else none
    | _ => none
  | .pushal => some (s.setStack ((allRegs.map (valueOf top s)).reverse.map known ++ s.stack))
  | .popal => allRegs.reverse.foldlM popSlot s
  | .movwImm value r =>
    if r = .esp then none
    else some (s.setReg r ((s.regs r).extractLsb' 16 16 ++ value))
  | .movwTo r seg =>
    if r = .esp then none else some (s.setSeg seg ((s.regs r).setWidth 16))
  | .movlImm value r => if r = .esp then none else some (s.setReg r value)
  | .addl value r =>
    if r = .esp then
      if value.toNat % 4 = 0 ∧ value.toNat / 4 ≤ s.stack.length then
        some ((s.setStack (s.stack.drop (value.toNat / 4))).setFlags (addFlags s.flags (place top s.stack.length) value))
      else none
    else some ((s.setReg r (s.regs r + value)).setFlags (addFlags s.flags (s.regs r) value))
  | .cmpl value r => if r = .esp then none else some (s.setFlags (subFlags s.flags (s.regs r) value))
  | _ => none

/-- One instruction that is not `iret`. -/
def follow (s : Shape) (next : BitVec 32) : Instr L → Option Shape
  | .jb l => some (s.goto (if s.flags.getLsbD carryFlag then sys.address l else next))
  | .ja l => some (s.goto
      (if !s.flags.getLsbD carryFlag && !s.flags.getLsbD zeroFlag then sys.address l else next))
  | .jmp l => some (s.goto (sys.address l))
  | .call l => some ((s.push (known next)).goto (sys.address l))
  | .callTable table r =>
    if r = .esp then none
    else table[(s.regs r).toNat]?.map fun entry =>
      (s.push (known next)).goto ((entry.map sys.address).getD 0)
  | i => (act sys top s i).map fun s => s.goto next

end

section
variable {L : Type u} {sys : System L} {exact : Prop} {top next : BitVec 32} {m m' : Machine} {s t : Shape} {i : Instr L}

/-- Room for the words that one instruction pushes. -/
def Roomy (sys : System L) (s : Shape) : Prop := 4 * s.stack.length + 32 ≤ sys.room

theorem sees_pushes {words values : List (BitVec 32)} (same : words = values) (sees : Sees sys.room exact top m s)
    (roomy : 4 * (s.stack.length + words.length) ≤ sys.room) :
    Sees sys.room exact top (words.foldl Machine.push m) (s.setStack (values.reverse.map known ++ s.stack)) := by
  subst same
  induction words generalizing m s with
  | nil => exact sees
  | cons word words ih =>
    rw [List.length_cons] at roomy
    have pushed := sees_known sys.room_small sees (by omega) (rfl : word = word)
    have rest := ih pushed (by simp only [Shape.push,Shape.setStack_stack,List.length_cons]; omega)
    rw [List.foldl_cons,List.reverse_cons,List.map_append,List.append_assoc]
    exact rest

theorem sees_valueOf (sees : Sees sys.room exact top m s) (r : Reg) : m.regs r = valueOf top s r := by
  rw [valueOf]
  split
  · rename_i here
    subst here
    exact sees.esp
  · rename_i other
    exact sees.regs r other

theorem sees_popInto {r : Reg} (sees : Sees sys.room exact top m s) (popped : popSlot s r = some t) :
    Sees sys.room exact top (popInto m r) t := by
  rw [popSlot] at popped
  rw [popInto]
  split at popped
  · rename_i word sure rest stack
    split at popped
    · rename_i here
      cases popped
      rw [if_pos here]
      exact (sees_pop sees stack).1
    · rename_i other
      split at popped
      · rename_i isSure
        cases popped
        rw [if_neg other]
        subst isSure
        exact sees_popl sees stack other
      · cases popped
  · cases popped

theorem sees_pops {rs : List Reg} (sees : Sees sys.room exact top m s) (popped : rs.foldlM popSlot s = some t) :
    Sees sys.room exact top (rs.foldl popInto m) t := by
  induction rs generalizing m s with
  | nil =>
    cases popped
    exact sees
  | cons r rs ih =>
    rw [List.foldlM_cons] at popped
    obtain ⟨next,first,rest⟩ := Option.bind_eq_some_iff.mp popped
    exact ih (sees_popInto sees first) rest

theorem act_sees (sees : Sees sys.room exact top m s) (roomy : Roomy sys s) (acts : act sys top s i = some t)
    (taken : exec sys m next i = some m') : Sees sys.room exact top m' (t.goto next) := by
  have small := sys.room_small
  have one : 4 * (s.stack.length + 1) ≤ sys.room := by
    have roomy' : 4 * s.stack.length + 32 ≤ sys.room := roomy
    omega
  cases i with
  | pushl r =>
    simp only [act] at acts
    split at acts
    · cases acts
    · rename_i other
      cases acts
      cases taken
      exact sees_at (sees_known small sees one (sees.regs r other)) next
  | popl r =>
    simp only [act] at acts
    split at acts
    · cases acts
    · rename_i other
      cases taken
      have popped := sees_popInto sees acts
      rw [popInto,if_neg other] at popped
      exact sees_at popped next
  | pushSeg seg =>
    cases acts
    cases taken
    refine sees_at (sees_push small sees one ?_) next
    rintro (core | is_exact)
    · rcases of_decide_eq_true core with rfl | rfl
      · rw [sees.cs]
      · rw [sees.ss]
    · cases seg with
      | cs => rw [sees.cs]
      | ss => rw [sees.ss]
      | ds => rw [(sees.data is_exact).1]
      | es => rw [(sees.data is_exact).2]
  | popSeg seg =>
    simp only [act] at acts
    split at acts
    · rename_i word sure rest stack
      cases acts
      obtain ⟨popped,same⟩ := sees_pop sees stack
      exact sees_loadSeg (sees_at popped next) (fun is_exact => by rw [same (.inr is_exact)]) taken
    · cases acts
  | pushfl =>
    cases acts
    cases taken
    exact sees_at (sees_known small sees one (by rw [sees.flags])) next
  | popfl =>
    simp only [act] at acts
    split at acts
    · rename_i word rest stack
      split at acts
      · cases acts
        simp only [exec] at taken
        split at taken
        · cases taken
          obtain ⟨popped,same⟩ := sees_pop sees stack
          rw [same (.inl rfl),sees.flags]
          exact sees_flags (sees_at popped next) _
        · cases taken
      · cases acts
    · cases acts
  | pushal =>
    cases acts
    cases taken
    have words : allRegs.map m.regs = allRegs.map (valueOf top s) := List.map_congr_left fun r _ => sees_valueOf sees r
    have room : 4 * (s.stack.length + (allRegs.map m.regs).length) ≤ sys.room := by
      have roomy' : 4 * s.stack.length + 32 ≤ sys.room := roomy
      rw [List.length_map,show allRegs.length = 8 from rfl]
      omega
    exact sees_at (sees_pushes words sees room) next
  | popal =>
    cases taken
    exact sees_at (sees_pops sees acts) next
  | movwImm value r =>
    simp only [act] at acts
    split at acts
    · cases acts
    · rename_i other
      cases acts
      cases taken
      rw [sees.regs r other]
      exact sees_at (sees_setReg sees other _) next
  | movwTo r seg =>
    simp only [act] at acts
    split at acts
    · cases acts
    · rename_i other
      cases acts
      exact sees_loadSeg (sees_at sees next) (fun _ => by rw [sees.regs r other]) taken
  | movlImm value r =>
    simp only [act] at acts
    split at acts
    · cases acts
    · rename_i other
      cases acts
      cases taken
      exact sees_at (sees_setReg sees other _) next
  | addl value r =>
    simp only [act] at acts
    split at acts
    · rename_i here
      subst here
      split at acts
      · rename_i whole
        obtain ⟨words,inside⟩ := whole
        cases acts
        cases taken
        have moved := sees_drop sees inside
        rw [show BitVec.ofNat 32 (4 * (value.toNat / 4)) = value by bv_omega] at moved
        rw [← sees.esp,← sees.flags]
        exact sees_flags (sees_at moved next) _
      · cases acts
    · rename_i other
      cases acts
      cases taken
      rw [sees.regs r other,sees.flags]
      exact sees_flags (sees_at (sees_setReg sees other _) next) _
  | cmpl value r =>
    simp only [act] at acts
    split at acts
    · cases acts
    · rename_i other
      cases acts
      cases taken
      rw [sees.regs r other,sees.flags]
      exact sees_flags (sees_at sees next) _
  | jb | ja | jmp | call | callTable | int | iret => cases acts

theorem follow_sees (sees : Sees sys.room exact top m s) (roomy : Roomy sys s) (follows : follow sys top s next i = some t)
    (taken : exec sys m next i = some m') : Sees sys.room exact top m' t := by
  have one : 4 * (s.stack.length + 1) ≤ sys.room := by
    have roomy' : 4 * s.stack.length + 32 ≤ sys.room := roomy
    omega
  cases i with
  | jb l | ja l =>
    cases follows
    cases taken
    rw [← sees.flags]
    exact sees_at sees _
  | jmp l =>
    cases follows
    cases taken
    exact sees_at sees _
  | call l =>
    cases follows
    cases taken
    exact sees_at (sees_known sys.room_small sees one rfl) _
  | callTable table r =>
    simp only [follow] at follows
    split at follows
    · cases follows
    · rename_i other
      obtain ⟨entry,found,same⟩ := Option.map_eq_some_iff.mp follows
      subst same
      simp only [exec,sees.regs r other,found,Option.map_some] at taken
      split at taken
      · cases taken
      · cases taken
        exact sees_at (sees_known sys.room_small sees one rfl) _
  | _ =>
    simp only [follow,Option.map_eq_some_iff] at follows
    obtain ⟨after,acts,same⟩ := follows
    subst same
    exact act_sees sees roomy acts taken

/-- Nothing keeps the instruction from its work: it loads selectors that it may
    load, and reads its table through a data segment. -/
def Allowed (sys : System L) (s : Shape) : Instr L → Prop
  | .popSeg seg => seg ≠ .cs ∧ seg ≠ .ss ∧
      ∀ slot rest, s.stack = slot :: rest → Loadable sys (requested (s.segs .cs)) (slot.word.setWidth 16)
  | .movwTo r seg => seg ≠ .cs ∧ seg ≠ .ss ∧ Loadable sys (requested (s.segs .cs)) ((s.regs r).setWidth 16)
  | .callTable _ _ => ¬ Null (s.segs .ds)
  | _ => True

theorem loadSeg_goes {seg : Seg} {selector : BitVec 16} (data : seg ≠ .cs ∧ seg ≠ .ss)
    (loadable : Loadable sys m.cpl selector) : ∃ m', loadSeg sys m seg selector = some m' :=
  ⟨_,if_pos ⟨data.1,data.2,loadable⟩⟩

/-- In an exact run the machine does not stop at an instruction that its shape
    follows. -/
theorem follow_goes (sees : Sees sys.room True top m s) (follows : follow sys top s next i = some t)
    (allowed : Allowed sys s i) : ∃ m', exec sys m next i = some m' := by
  have level : m.cpl = requested (s.segs .cs) := by rw [Machine.cpl,sees.cs]
  cases i with
  | popSeg seg =>
    obtain ⟨notCs,notSs,loadable⟩ := allowed
    simp only [follow,Option.map_eq_some_iff] at follows
    obtain ⟨after,acts,_⟩ := follows
    simp only [act] at acts
    split at acts
    · rename_i word sure rest stack
      have same := (sees_pop sees stack).2 (.inr trivial)
      refine loadSeg_goes ⟨notCs,notSs⟩ ?_
      rw [same]
      exact level ▸ loadable _ _ stack
    · cases acts
  | popfl =>
    simp only [follow,Option.map_eq_some_iff] at follows
    obtain ⟨after,acts,_⟩ := follows
    simp only [act] at acts
    split at acts
    · split at acts
      · rename_i kernel
        exact ⟨_,if_pos (level.trans kernel)⟩
      · cases acts
    · cases acts
  | movwTo r seg =>
    obtain ⟨notCs,notSs,loadable⟩ := allowed
    simp only [follow,Option.map_eq_some_iff] at follows
    obtain ⟨after,acts,_⟩ := follows
    simp only [act] at acts
    split at acts
    · cases acts
    · rename_i other
      refine loadSeg_goes ⟨notCs,notSs⟩ ?_
      rw [sees.regs r other]
      exact level ▸ loadable
  | callTable table r =>
    simp only [follow] at follows
    split at follows
    · cases follows
    · rename_i other
      obtain ⟨entry,found,_⟩ := Option.map_eq_some_iff.mp follows
      have data : ¬ Null (m.segs .ds) := (sees.data trivial).1 ▸ allowed
      simp only [exec,if_neg data,sees.regs r other,found,Option.map_some]
      exact ⟨_,rfl⟩
  | int | iret => cases follows
  | _ => exact ⟨_,rfl⟩

/-! ### Interrupts on shapes -/

/-- A handler starts on the stack of the code that it interrupts. -/
def entered (sys : System L) (s : Shape) (g : Gate) (back : BitVec 32) : Shape :=
  ((((((s.push (known s.flags)).push (known (sys.widen (s.segs .cs)))).push (known back)).goto g.offset).setSeg .cs
    (BitVec.ofNat 16 (g.selector.toNat / 4 * 4 + sys.privilege g.selector))).setFlags (handlerFlags g s.flags))

theorem enter_frame {vector : Nat} {back : BitVec 32} (sees : Sees sys.room exact top (onStack sys (sys.gates vector) m) s)
    (flags : m.flags = s.flags) (cs : m.segs .cs = s.segs .cs) (roomy : 4 * s.stack.length + 12 ≤ sys.room)
    (taken : enter sys m vector none back = some m') :
    Sees sys.room exact top m' (entered sys s (sys.gates vector) back) := by
  have small := sys.room_small
  simp only [enter] at taken
  split at taken
  · cases taken
    have first := sees_known small sees (by omega) flags
    have second := sees_known small first (by simp only [Shape.push,Shape.setStack_stack,List.length_cons]; omega)
      (show sys.widen (m.segs .cs) = sys.widen (s.segs .cs) by rw [cs])
    have third := sees_known small second (by simp only [Shape.push,Shape.setStack_stack,List.length_cons]; omega)
      (rfl : back = back)
    refine ⟨rfl,third.esp,third.regs,?_,?_,?_,?_,third.holds,third.small⟩
    · simp [entered]
    · simpa [entered,Function.update_apply] using third.ss
    · intro is_exact
      simpa [entered,Function.update_apply] using third.data is_exact
    · simp only [entered,Shape.setFlags_flags,flags]
  · cases taken

/-- Kernel code that is interrupted stays on its stack. -/
theorem enter_inner {vector : Nat} {back : BitVec 32} (sees : Sees sys.room exact top m s) (kernel : m.cpl = 0)
    (roomy : 4 * s.stack.length + 12 ≤ sys.room) (taken : enter sys m vector none back = some m') :
    Sees sys.room exact top m' (entered sys s (sys.gates vector) back) := by
  have same : onStack sys (sys.gates vector) m = m := if_neg (by rw [kernel]; exact Nat.not_lt_zero _)
  exact enter_frame (by rw [same]; exact sees) sees.flags sees.cs roomy taken

/-- Code of less privilege that leaves its stack, as the handler finds it below its
    own. -/
def outer (sys : System L) (m : Machine) : Shape where
  eip := m.eip
  regs := m.regs
  segs := Function.update m.segs .ss (kernelStack sys m.mem).2
  flags := m.flags
  stack := [known (m.regs .esp),known (sys.widen (m.segs .ss))]

theorem onStack_sees {g : Gate} (lower : sys.privilege g.selector < m.cpl) (roomy : 8 ≤ sys.room) :
    Sees sys.room exact (kernelStack sys m.mem).1 (onStack sys g m) (outer sys m) := by
  have small := sys.room_small
  have bare : Sees sys.room exact (kernelStack sys m.mem).1
      ({ m with segs := Function.update m.segs .ss (kernelStack sys m.mem).2 }.setReg .esp (kernelStack sys m.mem).1)
      ((outer sys m).setStack []) := by
    refine ⟨rfl,?_,?_,rfl,rfl,fun _ => ⟨rfl,rfl⟩,rfl,trivial,Nat.zero_le _⟩
    · simp [Machine.setReg_regs,place_zero]
    · intro r other
      simp [Machine.setReg_regs,other,outer]
  have first := sees_known small bare (show 4 * 1 ≤ sys.room by omega) (rfl : sys.widen (m.segs .ss) = _)
  have second := sees_known small first (show 4 * 2 ≤ sys.room by omega) (rfl : m.regs .esp = _)
  rw [onStack,if_pos lower]
  exact second

/-- Code of less privilege that is interrupted goes to the stack of the kernel. -/
theorem enter_outer {vector : Nat} {back : BitVec 32} (lower : sys.privilege (sys.gates vector).selector < m.cpl)
    (roomy : 20 ≤ sys.room) (taken : enter sys m vector none back = some m') :
    Sees sys.room exact (kernelStack sys m.mem).1 m' (entered sys (outer sys m) (sys.gates vector) back) :=
  enter_frame (onStack_sees lower (by omega)) rfl rfl roomy taken

/-- An error code is pushed below the frame. -/
theorem enter_error (vector : Nat) (code back : BitVec 32) :
    enter sys m vector (some code) back = (enter sys m vector none back).map (·.push code) := by
  unfold enter
  dsimp only
  split <;> rfl

/-- What `iret` takes from the stack: where to go on, the code segment and the flags. -/
theorem frame_tops {back cs flags : BitVec 32} {rest : List Slot} (sees : Sees sys.room exact top m s)
    (stack : s.stack = known back :: known cs :: known flags :: rest) :
    m.top = back ∧ m.pop.top = cs ∧ m.pop.pop.top = flags ∧ Sees sys.room exact top m.pop.pop.pop (s.setStack rest) := by
  obtain ⟨first,is_back⟩ := sees_pop sees stack
  obtain ⟨second,is_cs⟩ := sees_pop first rfl
  obtain ⟨third,is_flags⟩ := sees_pop second rfl
  exact ⟨is_back (.inl rfl),is_cs (.inl rfl),is_flags (.inl rfl),third⟩

/-- The code that was interrupted has the privilege of the handler. -/
theorem iret_inner {back cs flags : BitVec 32} {rest : List Slot} (sees : Sees sys.room exact top m s)
    (stack : s.stack = known back :: known cs :: known flags :: rest) (inner : requested (cs.setWidth 16) = 0)
    (left : iret sys m = some m') :
    Sees sys.room exact top m' ((((s.setStack rest).goto back).setSeg .cs (cs.setWidth 16)).setFlags flags) := by
  obtain ⟨is_back,is_cs,is_flags,popped⟩ := frame_tops sees stack
  simp only [iret,is_back,is_cs,is_flags,inner,if_true] at left
  split at left
  · cases left
  · cases left
    refine ⟨rfl,popped.esp,popped.regs,?_,?_,fun is_exact => ?_,rfl,popped.holds,popped.small⟩
    · simp
    · simpa [Function.update_apply] using sees.ss
    · simpa [Function.update_apply] using sees.data is_exact

/-- The code that was interrupted has less privilege. -/
theorem iret_outer {back cs flags esp ss : BitVec 32} {rest : List Slot} (sees : Sees sys.room exact top m s)
    (stack : s.stack = known back :: known cs :: known flags :: known esp :: known ss :: rest)
    (outer : requested (cs.setWidth 16) ≠ 0) (left : iret sys m = some m') :
    m'.eip = back ∧ m'.regs .esp = esp ∧ (∀ r, r ≠ .esp → m'.regs r = s.regs r) ∧ m'.segs .cs = cs.setWidth 16 ∧
      m'.segs .ss = ss.setWidth 16 ∧
      m'.segs .ds = demoted sys (requested (cs.setWidth 16)) (m.segs .ds) ∧
      m'.segs .es = demoted sys (requested (cs.setWidth 16)) (m.segs .es) ∧ m'.flags = flags ∧ m'.mem = m.mem := by
  obtain ⟨is_back,is_cs,is_flags,third⟩ := frame_tops sees stack
  obtain ⟨fourth,is_esp⟩ := sees_pop third rfl
  obtain ⟨_,is_ss⟩ := sees_pop fourth rfl
  simp only [iret,is_back,is_cs,is_flags,is_esp (.inl rfl),is_ss (.inl rfl),if_neg outer] at left
  split at left
  · cases left
  · split at left
    · cases left
    · cases left
      refine ⟨rfl,by simp [Machine.setReg_regs,known],?_,rfl,rfl,rfl,rfl,rfl,rfl⟩
      intro r other
      simpa [Machine.setReg_regs,other] using third.regs r other

end

end MazeOS.KernelStack
