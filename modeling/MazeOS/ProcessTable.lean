import MazeOS.Tables
import MazeOS.Boot
import MazeOS.Stacks
import Mathlib.Order.Interval.Finset.Nat

/-!
The process table against what it stands for: a stack of process IDs for each
terminal and the terminal that executes (`Schedule`), which change only by the
six moves of a scheduler (`Move`). `Represents` says that a table stands for a
schedule. Every change of the table is a move of the schedule
(`change_represents`), so every reachable kernel represents some schedule
(`reachable_represents`) and its table is consistent
(`consistent_of_represents`).
-/
namespace MazeOS.ProcessTable
open MazeOS.Runs MazeOS.Faults MazeOS.Filesystem MazeOS.Paging MazeOS.State MazeOS.Display MazeOS.Process
  MazeOS.Syscalls MazeOS.Terminal MazeOS.Steps MazeOS.Tables MazeOS.Stacks

/-! ### Schedules -/

structure Schedule where
  family : Family Nat Nat
  exec : Nat

/-- What a scheduler may do. Only the newest process of a terminal runs. -/
inductive Move : Schedule → Schedule → Prop
  | goes (S : Schedule) : Move S S
  | calls (S : Schedule) (pid : Nat) (fresh : ¬ Held S.family pid) : Move S ⟨push S.family S.exec pid fresh,S.exec⟩
  | opens (S : Schedule) (t pid : Nat) (fresh : ¬ Held S.family pid) (bare : S.family.stack t = []) :
      Move S ⟨push S.family t pid fresh,t⟩
  | switches (S : Schedule) (t : Nat) (other : t ≠ S.exec) (some : S.family.stack t ≠ []) : Move S ⟨S.family,t⟩
  | returns (S : Schedule) (child : 2 ≤ (S.family.stack S.exec).length) : Move S ⟨pop S.family S.exec,S.exec⟩
  | restarts (S : Schedule) (pid : Nat) (only : (S.family.stack S.exec).length = 1)
      (fresh : ¬ Held (pop S.family S.exec) pid) :
      Move S ⟨push (pop S.family S.exec) S.exec pid fresh,S.exec⟩

/-! ### Tables that stand for stacks -/

/-- The control block of a live process. -/
structure Block (pid : Nat) (core : Core) : Prop where
  number : core.pid = pid
  esp0 : core.esp0 = esp0Of pid
  pde : core.pde = (newCore pid 0).pde
  pdeVirtAddr : core.pdeVirtAddr = _128MB
  retval : core.retval = 0
  saved : pcbOf core.kEsp = pcbAddress pid

structure Tabled (s : Family Nat Nat) (T : Table) : Prop where
  inside : ∀ t p, p ∈ s.stack t → t < maxTerminals
  valid : ∀ p, Held s p → 1 ≤ p ∧ p ≤ maxProcesses
  used : ∀ p, Held s p → T.pids (p - 1) = 1
  unused : ∀ p, 1 ≤ p → p ≤ maxProcesses → ¬ Held s p → T.pids (p - 1) = 0
  sizes : ∀ t, t < maxTerminals → (T.procs t).numProcs = (s.stack t).length
  places : ∀ t i p, (s.stack t)[i]? = some p → (T.procs t).childProcs i = pcbAddress p
  blocks : ∀ p, Held s p → Block p (T.cores (pcbAddress p))
  parents : ∀ t i p, (s.stack t)[i]? = some p →
    (T.cores (pcbAddress p)).parent = if i = 0 then 0 else (T.procs t).childProcs (i - 1)
  vids : ∀ p, Held s p → T.vids (pcbAddress p) = 0 ∨ T.vids (pcbAddress p) = userVideoMemAddr

/-- A table stands for a schedule: the running process is the newest one of the
    executing terminal. -/
structure Represents (S : Schedule) (T : Table) : Prop where
  tabled : Tabled S.family T
  exec : T.execTerm = S.exec
  running : ∃ p, top S.family S.exec = some p ∧ T.running = pcbAddress p ∧ T.tssEsp0 = esp0Of p

section
variable {s : Family Nat Nat} {T : Table}

theorem held_of_get {t i p : Nat} (place : (s.stack t)[i]? = some p) : Held s p :=
  ⟨t,List.mem_of_getElem? place⟩

/-- Different live processes have different control blocks. -/
theorem address_inj (tabled : Tabled s T) {p q : Nat} (first : Held s p) (second : Held s q)
    (same : pcbAddress p = pcbAddress q) : p = q :=
  pcbAddress_inj (tabled.valid p first).1 (tabled.valid p first).2 (tabled.valid q second).1 (tabled.valid q second).2 same

theorem pid_of_used {p q : Nat} (low : 1 ≤ p) (low' : 1 ≤ q) (other : p ≠ q) : p - 1 ≠ q - 1 := by omega

/-- Storing the stack pointers of a live process in its own block. -/
theorem tabled_save (tabled : Tabled s T) {p : Nat} (live : Held s p) (running : T.running = pcbAddress p) :
    Tabled s T.save := by
  have block := tabled.blocks p live
  have unchanged : ∀ a, (T.save.cores a).parent = (T.cores a).parent := by
    intro a
    by_cases same : a = T.running
    · subst same; simp [Table.save]
    · simp [Table.save,same]
  refine ⟨tabled.inside,tabled.valid,tabled.used,tabled.unused,tabled.sizes,tabled.places,?_,?_,tabled.vids⟩
  · intro q held
    by_cases same : q = p
    · subst same
      simp only [Table.save,running,Function.update_self]
      exact ⟨block.number,block.esp0,block.pde,block.pdeVirtAddr,block.retval,running⟩
    · have other : pcbAddress q ≠ T.running := by
        rw [running]
        exact fun equal => same (address_inj tabled held live equal)
      simp only [Table.save,Function.update_of_ne other]
      exact tabled.blocks q held
  · intro t i q place
    rw [unchanged]
    exact tabled.parents t i q place

/-- A free process ID goes on the stack of the executing terminal. -/
theorem tabled_push (tabled : Tabled s T) {pid parent : Nat} (fresh : ¬ Held s pid) (low : 1 ≤ pid)
    (high : pid ≤ maxProcesses) (inside : T.execTerm < maxTerminals)
    (newest : parent = if (s.stack T.execTerm).length = 0 then 0 else
      (T.procs T.execTerm).childProcs ((s.stack T.execTerm).length - 1)) :
    Represents ⟨push s T.execTerm pid fresh,T.execTerm⟩ (T.push pid parent) := by
  have size := tabled.sizes T.execTerm inside
  have other : ∀ p, Held s p → pcbAddress p ≠ pcbAddress pid := by
    intro p held same
    have equal := pcbAddress_inj (tabled.valid p held).1 (tabled.valid p held).2 low high same
    exact fresh (equal ▸ held)
  have older : ∀ t i p, (s.stack t)[i]? = some p →
      ((T.push pid parent).procs t).childProcs i = (T.procs t).childProcs i := by
    intro t i p place
    by_cases here : t = T.execTerm
    · subst here
      have before : i < (s.stack T.execTerm).length := (List.getElem?_eq_some_iff.mp place).1
      simp only [Table.push,Function.update_self]
      rw [Function.update_of_ne (by omega)]
    · simp [Table.push,here]
  refine ⟨⟨?_,?_,?_,?_,?_,?_,?_,?_,?_⟩,rfl,pid,top_push _ _ _ fresh,rfl,rfl⟩
  · intro t p member
    rcases mem_push.mp member with old | ⟨rfl,_⟩
    · exact tabled.inside t p old
    · exact inside
  · intro p held
    rcases (held_push fresh).mp held with old | rfl
    · exact tabled.valid p old
    · exact ⟨low,high⟩
  · intro p held
    rcases (held_push fresh).mp held with old | rfl
    · have apart : p - 1 ≠ pid - 1 :=
        pid_of_used (tabled.valid p old).1 low (fun equal => fresh (equal ▸ old))
      simp only [Table.push,Function.update_of_ne apart]
      exact tabled.used p old
    · simp [Table.push]
  · intro p low' high' absent
    have old : ¬ Held s p := fun held => absent ((held_push fresh).mpr (.inl held))
    have apart : p - 1 ≠ pid - 1 := pid_of_used low' low (fun equal => absent ((held_push fresh).mpr (.inr equal)))
    simp only [Table.push,Function.update_of_ne apart]
    exact tabled.unused p low' high' old
  · intro t below
    by_cases here : t = T.execTerm
    · subst here; simp [Table.push,size]
    · rw [stack_push_other here]
      simp only [Table.push,Function.update_of_ne here]
      exact tabled.sizes t below
  · intro t i p place
    rcases get_push fresh place with old | ⟨rfl,rfl,rfl⟩
    · rw [older t i p old]
      exact tabled.places t i p old
    · simp [Table.push,size]
  · intro p held
    rcases (held_push fresh).mp held with old | rfl
    · simp only [Table.push,Function.update_of_ne (other p old)]
      exact tabled.blocks p old
    · simp only [Table.push,Function.update_self]
      exact ⟨rfl,rfl,rfl,rfl,rfl,rfl⟩
  · intro t i p place
    rcases get_push fresh place with old | ⟨rfl,rfl,rfl⟩
    · have parent' : ((T.push pid parent).cores (pcbAddress p)).parent = (T.cores (pcbAddress p)).parent := by
        simp only [Table.push,Function.update_of_ne (other p (held_of_get old))]
      rw [parent',tabled.parents t i p old]
      split
      · rfl
      · rename_i later
        obtain ⟨inside',_⟩ := List.getElem?_eq_some_iff.mp old
        have below : i - 1 < (s.stack t).length := by omega
        exact (older t (i - 1) _ (List.getElem?_eq_getElem below)).symm
    · have parent' : ((T.push p parent).cores (pcbAddress p)).parent = parent := by
        simp only [Table.push,Function.update_self]
        rfl
      rw [parent',newest]
      split
      · rfl
      · have below : (s.stack T.execTerm).length - 1 < (s.stack T.execTerm).length := by omega
        exact (older T.execTerm _ _ (List.getElem?_eq_getElem below)).symm
  · intro p held
    rcases (held_push fresh).mp held with old | rfl
    · simp only [Table.push,Function.update_of_ne (other p old)]
      exact tabled.vids p old
    · simp [Table.push]

/-- The running process leaves the stack of the executing terminal. -/
theorem tabled_pop (tabled : Tabled s T) {p : Nat} (newest : top s T.execTerm = some p)
    (running : T.running = pcbAddress p) {U : Table} (ended : U = T ∨ U = T.raise) :
    Tabled (pop s T.execTerm) U.pop := by
  have live : Held s p := ⟨T.execTerm,top_mem newest⟩
  obtain ⟨pids,procs,exec,vids,others,number⟩ : U.pids = T.pids ∧ U.procs = T.procs ∧ U.execTerm = T.execTerm ∧
      U.vids = T.vids ∧ (∀ a, a ≠ T.running → U.cores a = T.cores a) ∧ (U.cores U.running).pid = p := by
    have number := (tabled.blocks p live).number
    rcases ended with rfl | rfl
    · exact ⟨rfl,rfl,rfl,rfl,fun _ _ => rfl,running ▸ number⟩
    · refine ⟨rfl,rfl,rfl,rfl,fun a other => Function.update_of_ne other _ _,?_⟩
      have core : (T.raise.cores T.raise.running).pid = (T.cores T.running).pid := by
        show (Function.update T.cores T.running _ T.running).pid = _
        rw [Function.update_self]
      rw [core]
      exact running ▸ number
  have kept : ∀ q, Held (pop s T.execTerm) q → Held s q ∧ q ≠ p := fun q => (held_pop newest).mp
  have core : ∀ q, Held (pop s T.execTerm) q → U.pop.cores (pcbAddress q) = T.cores (pcbAddress q) := by
    intro q held
    refine others _ ?_
    rw [running]
    exact fun same => (kept q held).2 (address_inj tabled (kept q held).1 live same)
  have child : ∀ t i q, ((pop s T.execTerm).stack t)[i]? = some q →
      (U.pop.procs t).childProcs i = (T.procs t).childProcs i := by
    intro t i q place
    by_cases here : t = T.execTerm
    · subst here
      have below := (get_pop place).2 rfl
      have size := tabled.sizes T.execTerm (tabled.inside T.execTerm p (top_mem newest))
      simp only [Table.pop,procs,exec,Function.update_self]
      rw [Function.update_of_ne (by omega)]
    · simp [Table.pop,procs,exec,here]
  refine ⟨?_,?_,?_,?_,?_,?_,?_,?_,?_⟩
  · intro t q member
    exact tabled.inside t q (mem_pop member)
  · intro q held
    exact tabled.valid q (kept q held).1
  · intro q held
    have apart : q - 1 ≠ p - 1 :=
      pid_of_used (tabled.valid q (kept q held).1).1 (tabled.valid p live).1 (kept q held).2
    simp only [Table.pop,pids,number,Function.update_of_ne apart]
    exact tabled.used q (kept q held).1
  · intro q low high absent
    simp only [Table.pop,pids,number]
    by_cases same : q = p
    · subst same; rw [Function.update_self]
    · rw [Function.update_of_ne (pid_of_used low (tabled.valid p live).1 same)]
      exact tabled.unused q low high (fun held => absent ((held_pop newest).mpr ⟨held,same⟩))
  · intro t below
    by_cases here : t = T.execTerm
    · subst here; simp [Table.pop,procs,exec,tabled.sizes T.execTerm below]
    · rw [stack_pop_other here]
      simp only [Table.pop,procs,exec,Function.update_of_ne here]
      exact tabled.sizes t below
  · intro t i q place
    rw [child t i q place]
    exact tabled.places t i q (get_pop place).1
  · intro q held
    rw [core q held]
    exact tabled.blocks q (kept q held).1
  · intro t i q place
    rw [core q (held_of_get place),tabled.parents t i q (get_pop place).1]
    split
    · rfl
    · obtain ⟨inside,_⟩ := List.getElem?_eq_some_iff.mp place
      exact (child t (i - 1) _ (List.getElem?_eq_getElem (by omega))).symm
  · intro q held
    have same : U.pop.vids = T.vids := vids
    rw [same]
    exact tabled.vids q (kept q held).1

end

/-! ### Every change is a move -/

section
variable {S : Schedule} {T : Table}

theorem running_live (represents : Represents S T) :
    ∃ p, Held S.family p ∧ top S.family T.execTerm = some p ∧ T.running = pcbAddress p ∧ T.tssEsp0 = esp0Of p := by
  obtain ⟨p,newest,running,stack⟩ := represents.running
  rw [← represents.exec] at newest
  exact ⟨p,⟨T.execTerm,top_mem newest⟩,newest,running,stack⟩

theorem steady_of_represents (represents : Represents S T) : Steady T := by
  obtain ⟨p,live,newest,running,stack⟩ := running_live represents
  obtain ⟨some,last⟩ := top_get newest
  have inside := represents.tabled.inside T.execTerm p (top_mem newest)
  have size := represents.tabled.sizes T.execTerm inside
  have valid := represents.tabled.valid p live
  have number : (T.cores T.running).pid = p := running ▸ (represents.tabled.blocks p live).number
  refine ⟨inside,size ▸ some,?_,number ▸ valid.1,number ▸ valid.2,?_,?_,?_⟩
  · rw [size,running]
    exact represents.tabled.places _ _ _ last
  · rw [number,represents.tabled.used p live]
    decide
  · intro root
    have parent := represents.tabled.parents _ _ _ last
    rw [← running,root] at parent
    split at parent
    · omega
    · have before := List.getElem?_eq_getElem
        (show (S.family.stack T.execTerm).length - 1 - 1 < (S.family.stack T.execTerm).length by omega)
      have valid' := represents.tabled.valid _ (held_of_get before)
      rw [represents.tabled.places _ _ _ before] at parent
      exact absurd parent.symm (pcbAddress_ne_zero valid'.1 valid'.2)
  · rw [stack,running]
    rfl

theorem fresh_of_free (tabled : Tabled S.family T) {pid : Nat} (free : T.pids (pid - 1) = 0) : ¬ Held S.family pid := by
  intro held
  rw [tabled.used pid held] at free
  exact absurd free (by decide)

/-- With a free process ID there is room for the process on every terminal. -/
theorem room_of_free (tabled : Tabled S.family T) {t pid : Nat} (inside : t < maxTerminals) (low : 1 ≤ pid)
    (high : pid ≤ maxProcesses) (free : T.pids (pid - 1) = 0) : (T.procs t).numProcs < maxProcesses := by
  have fresh := fresh_of_free tabled free
  have most := sum_length_le (push S.family t pid fresh) [t] (List.nodup_singleton t) (Finset.Icc 1 maxProcesses) (by
    intro u p member
    apply Finset.mem_Icc.mpr
    rcases (held_push fresh).mp ⟨u,member⟩ with held | rfl
    · exact tabled.valid p held
    · exact ⟨low,high⟩)
  rw [tabled.sizes t inside]
  simp only [List.map_cons,List.map_nil,List.sum_cons,List.sum_nil,stack_push_self,List.length_append,
    List.length_singleton,Nat.card_Icc] at most
  omega

theorem represents_goes (represents : Represents S T) {esp ebp : Nat} (inPage : pcbOf esp = T.running) :
    Represents S { T with esp := esp, ebp := ebp } := by
  obtain ⟨p,newest,running,stack⟩ := represents.running
  have tabled := represents.tabled
  exact ⟨⟨tabled.inside,tabled.valid,tabled.used,tabled.unused,tabled.sizes,tabled.places,tabled.blocks,
    tabled.parents,tabled.vids⟩,represents.exec,p,newest,inPage.trans running,stack⟩

theorem represents_maps (represents : Represents S T) : Represents S T.map := by
  have tabled := represents.tabled
  refine ⟨⟨tabled.inside,tabled.valid,tabled.used,tabled.unused,tabled.sizes,tabled.places,tabled.blocks,
    tabled.parents,?_⟩,represents.exec,represents.running⟩
  intro p held
  by_cases same : pcbAddress p = T.running
  · simp [Table.map,same]
  · simp only [Table.map,Function.update_of_ne same]
    exact tabled.vids p held

theorem represents_calls (represents : Represents S T) {pid : Nat} (low : 1 ≤ pid) (high : pid ≤ maxProcesses)
    (free : T.pids (pid - 1) = 0) :
    ∃ fresh : ¬ Held S.family pid, Represents ⟨push S.family S.exec pid fresh,S.exec⟩ (T.save.push pid T.running) := by
  have fresh := fresh_of_free represents.tabled free
  have steady := steady_of_represents represents
  obtain ⟨p,live,_,running,_⟩ := running_live represents
  have saved := tabled_save represents.tabled live running
  have size := represents.tabled.sizes T.execTerm steady.exec
  refine ⟨fresh,?_⟩
  rw [← represents.exec]
  refine tabled_push saved fresh low high steady.exec ?_
  have some : (S.family.stack T.execTerm).length ≠ 0 := by
    have := steady.some
    omega
  show T.running = if (S.family.stack T.execTerm).length = 0 then 0 else _
  rw [if_neg some,← steady.last,size]
  rfl

theorem represents_opens (represents : Represents S T) {t pid : Nat} (inside : t < maxTerminals) (low : 1 ≤ pid)
    (high : pid ≤ maxProcesses) (free : T.pids (pid - 1) = 0) (bare : (T.procs t).numProcs = 0) :
    ∃ fresh : ¬ Held S.family pid, Represents ⟨push S.family t pid fresh,t⟩ ((T.save.on t).push pid 0) := by
  have fresh := fresh_of_free represents.tabled free
  obtain ⟨p,live,_,running,_⟩ := running_live represents
  have saved := tabled_save represents.tabled live running
  have moved : Tabled S.family (T.save.on t) :=
    ⟨saved.inside,saved.valid,saved.used,saved.unused,saved.sizes,saved.places,saved.blocks,saved.parents,saved.vids⟩
  have size := represents.tabled.sizes t inside
  refine ⟨fresh,tabled_push moved fresh low high inside ?_⟩
  exact (if_pos (show (S.family.stack t).length = 0 by omega)).symm

theorem represents_switches (represents : Represents S T) {t : Nat} (inside : t < maxTerminals)
    (some : 0 < (T.procs t).numProcs) :
    S.family.stack t ≠ [] ∧
      Represents ⟨S.family,t⟩ ((T.on t).save.load ((T.procs t).childProcs ((T.procs t).numProcs - 1))) := by
  obtain ⟨p,live,_,running,_⟩ := running_live represents
  have saved := tabled_save represents.tabled live running
  have size := represents.tabled.sizes t inside
  have filled : S.family.stack t ≠ [] := by
    intro empty
    rw [empty] at size
    simp only [List.length_nil] at size
    omega
  obtain ⟨q,newest⟩ := List.getLast?_isSome.mpr filled |> Option.isSome_iff_exists.mp
  have place := (top_get newest).2
  have address : (T.procs t).childProcs ((T.procs t).numProcs - 1) = pcbAddress q := by
    rw [size]
    exact represents.tabled.places t _ q place
  have block := saved.blocks q (held_of_get place)
  refine ⟨filled,?_⟩
  rw [address]
  exact ⟨⟨saved.inside,saved.valid,saved.used,saved.unused,saved.sizes,saved.places,saved.blocks,saved.parents,saved.vids⟩,
    rfl,q,newest,block.saved,block.esp0⟩

/-- A process with a parent is the second one of its terminal or a later one,
    and its parent is the one before it. -/
theorem parent_below (represents : Represents S T) (child : (T.cores T.running).parent ≠ 0) :
    2 ≤ (S.family.stack S.exec).length ∧ ∃ q, Held S.family q ∧ top (pop S.family S.exec) S.exec = some q ∧
      (T.cores T.running).parent = pcbAddress q := by
  obtain ⟨p,live,newest,running,_⟩ := running_live represents
  rw [represents.exec] at newest
  have place := (top_get newest).2
  have parent := represents.tabled.parents _ _ _ place
  rw [← running] at parent
  have later : ¬ (S.family.stack S.exec).length - 1 = 0 := by
    intro first
    rw [if_pos first] at parent
    exact child parent
  rw [if_neg later] at parent
  have before := List.getElem?_eq_getElem
    (show (S.family.stack S.exec).length - 1 - 1 < (S.family.stack S.exec).length by omega)
  rw [represents.tabled.places _ _ _ before] at parent
  refine ⟨by omega,_,held_of_get before,?_,parent⟩
  rw [top,stack_pop_self,List.getLast?_eq_getElem?,List.length_dropLast,List.getElem?_dropLast,if_pos (by omega)]
  exact before

theorem parent_apart (represents : Represents S T) (child : (T.cores T.running).parent ≠ 0) :
    (T.cores T.running).parent ≠ T.running := by
  intro same
  obtain ⟨_,q,live,newest,parent⟩ := parent_below represents child
  obtain ⟨p,alive,isTop,running,_⟩ := running_live represents
  have equal := address_inj represents.tabled live alive (parent.symm.trans (same.trans running))
  subst equal
  rw [represents.exec] at isTop
  exact ((held_pop isTop).mp ⟨S.exec,top_mem newest⟩).2 rfl

theorem represents_returns (represents : Represents S T) {U : Table} (ended : U = T ∨ U = T.raise)
    (child : (T.cores T.running).parent ≠ 0) :
    Represents ⟨pop S.family S.exec,S.exec⟩ (U.pop.load (T.cores T.running).parent) := by
  obtain ⟨p,live,newest,running,_⟩ := running_live represents
  have popped := tabled_pop represents.tabled newest running ended
  rw [represents.exec] at popped
  obtain ⟨_,q,_,next,parent⟩ := parent_below represents child
  have block := popped.blocks q ⟨S.exec,top_mem next⟩
  have exec : U.execTerm = S.exec := by
    rcases ended with same | same
    · rw [same]; exact represents.exec
    · rw [same]; exact represents.exec
  rw [parent]
  exact ⟨⟨popped.inside,popped.valid,popped.used,popped.unused,popped.sizes,popped.places,popped.blocks,
    popped.parents,popped.vids⟩,exec,q,next,block.saved,block.esp0⟩

theorem represents_restarts (represents : Represents S T) {U : Table} {pid : Nat} (ended : U = T ∨ U = T.raise)
    (root : (T.cores T.running).parent = 0) (low : 1 ≤ pid) (high : pid ≤ maxProcesses)
    (free : U.pop.pids (pid - 1) = 0) :
    ∃ fresh : ¬ Held (pop S.family S.exec) pid,
      Represents ⟨push (pop S.family S.exec) S.exec pid fresh,S.exec⟩ (U.pop.push pid 0) := by
  obtain ⟨p,live,newest,running,_⟩ := running_live represents
  have steady := steady_of_represents represents
  have size := represents.tabled.sizes T.execTerm steady.exec
  have popped := tabled_pop represents.tabled newest running ended
  rw [represents.exec] at popped size
  have fresh : ¬ Held (pop S.family S.exec) pid := by
    intro held
    rw [popped.used pid held] at free
    exact absurd free (by decide)
  have exec : U.pop.execTerm = S.exec := by
    rcases ended with same | same
    · rw [same]; exact represents.exec
    · rw [same]; exact represents.exec
  have only := steady.root root
  rw [represents.exec] at only
  have bare : 0 = if ((pop S.family S.exec).stack U.pop.execTerm).length = 0 then 0 else
      (U.pop.procs U.pop.execTerm).childProcs (((pop S.family S.exec).stack U.pop.execTerm).length - 1) := by
    rw [exec,stack_pop_self,List.length_dropLast,if_pos (by omega)]
  have pushed := tabled_push popped fresh low high (exec ▸ represents.exec ▸ steady.exec) bare
  refine ⟨fresh,?_⟩
  have same : push (pop S.family S.exec) U.pop.execTerm pid fresh = push (pop S.family S.exec) S.exec pid fresh := by
    rw [exec]
  rwa [same,exec] at pushed

/-- Every change of the table is a move of the schedule that it stands for. -/
theorem change_represents {T' : Table} (represents : Represents S T) (change : Change T T') :
    ∃ S', Move S S' ∧ Represents S' T' := by
  cases change with
  | goes esp ebp inPage => exact ⟨S,Move.goes S,represents_goes represents inPage⟩
  | maps => exact ⟨S,Move.goes S,represents_maps represents⟩
  | calls pid low high free room =>
    obtain ⟨fresh,next⟩ := represents_calls represents low high free
    exact ⟨_,Move.calls S pid fresh,next⟩
  | opens t pid inside low high free bare =>
    obtain ⟨fresh,next⟩ := represents_opens represents inside low high free bare
    have size := represents.tabled.sizes t inside
    exact ⟨_,Move.opens S t pid fresh (List.length_eq_zero_iff.mp (by omega)),next⟩
  | switches t inside other some =>
    obtain ⟨filled,next⟩ := represents_switches represents inside some
    exact ⟨_,Move.switches S t (represents.exec ▸ other) filled,next⟩
  | returns U ended child =>
    exact ⟨_,Move.returns S (parent_below represents child).1,represents_returns represents ended child⟩
  | restarts U pid ended root low high free =>
    obtain ⟨fresh,next⟩ := represents_restarts represents ended root low high free
    have steady := steady_of_represents represents
    have size := represents.tabled.sizes T.execTerm steady.exec
    rw [represents.exec] at size
    have only := steady.root root
    rw [represents.exec] at only
    exact ⟨_,Move.restarts S pid (by omega) fresh,next⟩

end

/-! ### The end of a process -/

section
variable {S : Schedule} {k before after : Kernel}

/-- Noting an exception changes no block but for its return value. -/
theorem ending_core (ended : tableOf before = tableOf k ∨ tableOf before = (tableOf k).raise) (a : Nat) :
    ∃ retval, coreOf (before.pcbs a) = { coreOf (k.pcbs a) with retval := retval } := by
  have core : coreOf (before.pcbs a) = (tableOf before).cores a := rfl
  rw [core]
  rcases ended with same | same
  · rw [same]
    exact ⟨(k.pcbs a).retval,rfl⟩
  · rw [same]
    by_cases here : a = (tableOf k).running
    · subst here
      refine ⟨returnException,?_⟩
      simp only [Table.raise,Function.update_self]
      rfl
    · refine ⟨(k.pcbs a).retval,?_⟩
      simp only [Table.raise,Function.update_of_ne here]
      rfl

theorem ending_same (ended : tableOf before = tableOf k ∨ tableOf before = (tableOf k).raise) :
    before.execTerm = k.execTerm ∧ getPcb before = getPcb k ∧ before.availablePids = k.availablePids ∧
      ∀ a, (before.pcbs a).vidmemVirtAddr = (k.pcbs a).vidmemVirtAddr := by
  rcases ended with same | same
  · exact ⟨congrArg Table.execTerm same,congrArg Table.running same,congrArg Table.pids same,
      congrFun (congrArg Table.vids same)⟩
  · exact ⟨congrArg Table.execTerm same,congrArg Table.running same,congrArg Table.pids same,
      congrFun (congrArg Table.vids same)⟩

/-- `halt` from a kernel with the same table, or with an exception noted in it:
    the parent goes on, with its own page, or a new shell starts. -/
theorem ending_cases {fs : Fs} {fuel : Nat} {status : UInt8} (represents : Represents S (tableOf k))
    (ended : tableOf before = tableOf k ∨ tableOf before = (tableOf k).raise)
    (halted : Syscalls.halt fs fuel before status = .ok after) :
    ((k.pcbs (getPcb k)).parent ≠ 0 ∧ getPcb after = (k.pcbs (getPcb k)).parent ∧
      (∃ retval, after = resumed (popped before) (k.pcbs (getPcb k)).parent retval) ∧
      after.paging = mapPage4MB (popped before).paging _128MB (k.pcbs (k.pcbs (getPcb k)).parent).pde) ∨
    ((k.pcbs (getPcb k)).parent = 0 ∧
      ∃ eip, Syscalls.execute fs fuel (clearSetpos (popped before) 0 0) shellCommand = .ok (.started eip after)) := by
  have steady := steady_of_represents represents
  obtain ⟨_,address,pids,_⟩ := ending_same ended
  obtain ⟨_,own⟩ := ending_core ended (getPcb k)
  have pid : (before.pcbs (getPcb before)).pid = (k.pcbs (getPcb k)).pid := by
    rw [address]
    exact congrArg Core.pid own
  have parent : (before.pcbs (getPcb before)).parent = (k.pcbs (getPcb k)).parent := by
    rw [address]
    exact congrArg Core.parent own
  have used : before.availablePids ((before.pcbs (getPcb before)).pid - 1) ≠ 0 := by
    rw [pid,pids]
    exact steady.used
  have cases := halt_cases (pid ▸ steady.low) (pid ▸ steady.high) used halted
  rw [parent] at cases
  rcases cases with ⟨child,same⟩ | restarted
  · obtain ⟨_,q,alive,_,isParent⟩ := parent_below represents child
    have isParent' : (k.pcbs (getPcb k)).parent = pcbAddress q := isParent
    have block := represents.tabled.blocks q alive
    obtain ⟨_,core⟩ := ending_core ended (k.pcbs (getPcb k)).parent
    refine .inl ⟨child,?_,⟨_,same⟩,?_⟩
    · have stack : (before.pcbs (k.pcbs (getPcb k)).parent).kEsp = (k.pcbs (k.pcbs (getPcb k)).parent).kEsp :=
        congrArg Core.kEsp core
      rw [same]
      show pcbOf (before.pcbs (k.pcbs (getPcb k)).parent).kEsp = _
      rw [stack,isParent']
      exact block.saved
    · have pde : (before.pcbs (k.pcbs (getPcb k)).parent).pde = (k.pcbs (k.pcbs (getPcb k)).parent).pde :=
        congrArg Core.pde core
      have virt : (before.pcbs (k.pcbs (getPcb k)).parent).pdeVirtAddr = _128MB := by
        have stored : (before.pcbs (k.pcbs (getPcb k)).parent).pdeVirtAddr =
            (k.pcbs (k.pcbs (getPcb k)).parent).pdeVirtAddr := congrArg Core.pdeVirtAddr core
        rw [stored,isParent']
        exact block.pdeVirtAddr
      rw [same]
      show mapPage4MB (popped before).paging (before.pcbs (k.pcbs (getPcb k)).parent).pdeVirtAddr
        (before.pcbs (k.pcbs (getPcb k)).parent).pde = _
      rw [pde,virt]
  · exact .inr restarted

end

/-! ### Reachable kernels -/

theorem bare_table {k : Kernel} (bare : Boot.Bare k) : Tabled empty (tableOf k) := by
  have none : ∀ p, ¬ Held (empty : Family Nat Nat) p := fun p held => by
    obtain ⟨_,member⟩ := held
    cases member
  refine ⟨?_,fun p held => absurd held (none p),fun p held => absurd held (none p),fun p _ _ _ => bare.pids (p - 1),
    bare.bare,?_,fun p held => absurd held (none p),?_,fun p held => absurd held (none p)⟩
  · intro t p member; cases member
  · intro t i p place; cases place
  · intro t i p place; cases place

/-- The first process is the only one. -/
theorem first_represents {fs : Fs} {fuel eip : Nat} {first k : Kernel} {command : Command} (bare : Boot.Bare first)
    (executed : Syscalls.execute fs fuel first command = .ok (.started eip k)) :
    ∃ S, Represents S (tableOf k) ∧ ∀ p, Held S.family p → pcbAddress p = getPcb k := by
  obtain ⟨pid,low,high,free,_,pushed⟩ := execute_change executed
  have none : (executingTerm first).numProcs = 0 := by
    rw [executingTerm,bare.exec]
    exact bare.bare 0 (by decide)
  have fresh : ¬ Held (empty : Family Nat Nat) pid := by
    rintro ⟨_,member⟩
    cases member
  rw [if_pos none] at pushed
  rw [pushed]
  refine ⟨_,tabled_push (bare_table bare) fresh low high (show first.execTerm < maxTerminals by rw [bare.exec]; decide)
    rfl,?_⟩
  intro p held
  rcases (held_push fresh).mp held with ⟨_,member⟩ | rfl
  · cases member
  · exact (congrArg Table.running pushed).symm

/-- The first shell is the only process. -/
theorem started_represents {fs : Fs} {k : Kernel} (started : Started fs k) :
    ∃ S, Represents S (tableOf k) ∧ ∀ p, Held S.family p → pcbAddress p = getPcb k := by
  obtain ⟨m,fuel,eip,executed⟩ := started
  exact first_represents (Boot.idle_bare (Boot.boot_idle m)) executed

theorem step_represents {fs : Fs} (valid : ValidShell fs) {k after : Kernel} {op : Op} {S : Schedule}
    (represents : Represents S (tableOf k)) (taken : step fs k op = .ok after) :
    ∃ S', Move S S' ∧ Represents S' (tableOf after) :=
  change_represents represents (step_change (steady_of_represents represents) valid taken)

/-- The kernel refines the scheduler: every reachable kernel stands for a
    schedule. -/
theorem reachable_represents {fs : Fs} (valid : ValidShell fs) {k : Kernel}
    (reached : Reachable (step fs) (Started fs) k) : ∃ S, Represents S (tableOf k) := by
  have initially : ∀ k, Started fs k → ∃ S, Represents S (tableOf k) := by
    intro k started
    obtain ⟨S,represents,_⟩ := started_represents started
    exact ⟨S,represents⟩
  have keeps : ∀ k op after, (∃ S, Represents S (tableOf k)) → step fs k op = .ok after →
      ∃ S, Represents S (tableOf after) := by
    rintro k op after ⟨S,represents⟩ taken
    obtain ⟨S',_,next⟩ := step_represents valid represents taken
    exact ⟨S',next⟩
  exact reachable_invariant initially keeps reached

/-! ### The table is consistent -/

/-- An entry of `child_procs` below `num_procs`. -/
def Stored (k : Kernel) (t i : Nat) : Prop := t < maxTerminals ∧ i < (k.terminals t).numProcs

def child (k : Kernel) (t i : Nat) : Nat := (k.terminals t).childProcs i

/-- The process IDs in use are those of the stored processes, none of which is
    stored twice, parents are the processes below, and the last process of the
    executing terminal runs. -/
structure Consistent (k : Kernel) : Prop where
  used : ∀ p, 1 ≤ p → p ≤ maxProcesses →
    (k.availablePids (p - 1) = 1 ↔ ∃ t i, Stored k t i ∧ (k.pcbs (child k t i)).pid = p)
  unused : ∀ p, 1 ≤ p → p ≤ maxProcesses → k.availablePids (p - 1) = 0 ∨ k.availablePids (p - 1) = 1
  valid : ∀ t i, Stored k t i → 1 ≤ (k.pcbs (child k t i)).pid ∧ (k.pcbs (child k t i)).pid ≤ maxProcesses
  pidOnce : ∀ t i u j, Stored k t i → Stored k u j →
    (k.pcbs (child k t i)).pid = (k.pcbs (child k u j)).pid → t = u ∧ i = j
  addressOnce : ∀ t i u j, Stored k t i → Stored k u j → child k t i = child k u j → t = u ∧ i = j
  few : (k.terminals 0).numProcs + (k.terminals 1).numProcs + (k.terminals 2).numProcs ≤ maxProcesses
  root : ∀ t, Stored k t 0 → (k.pcbs (child k t 0)).parent = 0
  parent : ∀ t i, 0 < i → Stored k t i → (k.pcbs (child k t i)).parent = child k t (i - 1)
  exec : k.execTerm < maxTerminals ∧ 0 < (k.terminals k.execTerm).numProcs
  running : getPcb k = child k k.execTerm ((k.terminals k.execTerm).numProcs - 1)

/-- The process at an entry. -/
theorem stored_get {S : Schedule} {k : Kernel} (represents : Represents S (tableOf k)) {t i : Nat}
    (stored : Stored k t i) :
    ∃ p, (S.family.stack t)[i]? = some p ∧ child k t i = pcbAddress p ∧ (k.pcbs (child k t i)).pid = p := by
  have size : (k.terminals t).numProcs = (S.family.stack t).length := represents.tabled.sizes t stored.1
  have inside : i < (S.family.stack t).length := size ▸ stored.2
  have place := List.getElem?_eq_getElem inside
  have address : child k t i = pcbAddress (S.family.stack t)[i] := represents.tabled.places t i _ place
  refine ⟨_,place,address,?_⟩
  rw [address]
  exact (represents.tabled.blocks _ (held_of_get place)).number

theorem consistent_of_represents {S : Schedule} {k : Kernel} (represents : Represents S (tableOf k)) : Consistent k := by
  have tabled := represents.tabled
  have steady := steady_of_represents represents
  refine ⟨?_,?_,?_,?_,?_,?_,?_,?_,⟨steady.exec,steady.some⟩,steady.last.symm⟩
  · intro p low high
    constructor
    · intro one
      by_cases held : Held S.family p
      · obtain ⟨t,member⟩ := held
        obtain ⟨i,inside,at_i⟩ := List.mem_iff_getElem.mp member
        have place : (S.family.stack t)[i]? = some p := by rw [List.getElem?_eq_getElem inside,at_i]
        have stored : Stored k t i := by
          have below := tabled.inside t p member
          have size : (k.terminals t).numProcs = (S.family.stack t).length := tabled.sizes t below
          exact ⟨below,by omega⟩
        obtain ⟨q,place',_,number⟩ := stored_get represents stored
        rw [place] at place'
        cases place'
        exact ⟨t,i,stored,number⟩
      · have zero : k.availablePids (p - 1) = 0 := tabled.unused p low high held
        rw [zero] at one
        exact absurd one (by decide)
    · rintro ⟨t,i,stored,number⟩
      obtain ⟨q,place,_,number'⟩ := stored_get represents stored
      rw [number] at number'
      subst number'
      exact tabled.used p (held_of_get place)
  · intro p low high
    by_cases held : Held S.family p
    · exact .inr (tabled.used p held)
    · exact .inl (tabled.unused p low high held)
  · intro t i stored
    obtain ⟨p,place,_,number⟩ := stored_get represents stored
    rw [number]
    exact tabled.valid p (held_of_get place)
  · intro t i u j first second same
    obtain ⟨p,place,_,number⟩ := stored_get represents first
    obtain ⟨q,place',_,number'⟩ := stored_get represents second
    rw [number,number'] at same
    subst same
    exact position_unique place place'
  · intro t i u j first second same
    obtain ⟨p,place,address,_⟩ := stored_get represents first
    obtain ⟨q,place',address',_⟩ := stored_get represents second
    rw [address,address'] at same
    have equal := address_inj tabled (held_of_get place) (held_of_get place') same
    subst equal
    exact position_unique place place'
  · have most := sum_length_le S.family [0,1,2] (by decide) (Finset.Icc 1 maxProcesses) (by
      intro t p member
      exact Finset.mem_Icc.mpr (tabled.valid p ⟨t,member⟩))
    have sizes : ∀ t, t < maxTerminals → (k.terminals t).numProcs = (S.family.stack t).length := tabled.sizes
    simp only [List.map_cons,List.map_nil,List.sum_cons,List.sum_nil,Nat.card_Icc] at most
    rw [sizes 0 (by decide),sizes 1 (by decide),sizes 2 (by decide)]
    omega
  · intro t stored
    obtain ⟨p,place,address,_⟩ := stored_get represents stored
    rw [address]
    exact tabled.parents t 0 p place
  · intro t i later stored
    obtain ⟨p,place,address,_⟩ := stored_get represents stored
    rw [address]
    have parent := tabled.parents t i p place
    rwa [if_neg (by omega)] at parent

/-- The process IDs in use and the stacks of the terminals are the same. -/
structure SameTable (k after : Kernel) : Prop where
  pids : after.availablePids = k.availablePids
  procs : ∀ t, (after.terminals t).toProcs = (k.terminals t).toProcs
  exec : after.execTerm = k.execTerm

theorem sameTable_of_tableOf {k after : Kernel} (same : tableOf after = tableOf k) : SameTable k after :=
  ⟨congrArg Table.pids same,fun t => congrFun (congrArg Table.procs same) t,congrArg Table.execTerm same⟩

end MazeOS.ProcessTable
