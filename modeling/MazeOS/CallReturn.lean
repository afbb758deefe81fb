import MazeOS.Undisturbed

/-!
For the process that makes it, `execute` is a procedure call. From the call until
the process runs again its child stays above it on the stack of its terminal
(`waits_step`), so it can run again only when that very child ends
(`execute_returns`), and then it goes on where it called, with the value of its
child and with its control block, its page and the stack of its terminal as they
were.
-/
namespace MazeOS.CallReturn
open MazeOS.Runs MazeOS.Faults MazeOS.Filesystem MazeOS.Paging MazeOS.State MazeOS.Display MazeOS.Process
  MazeOS.Syscalls MazeOS.Tables MazeOS.Stacks MazeOS.ProcessTable MazeOS.StackDiscipline MazeOS.Descriptors
  MazeOS.Undisturbed
open MazeOS.Steps hiding step

section
variable {fs : Fs} {S : Schedule} {k after : Kernel} {below : List Nat} {p c t : Nat}

/-! ### While the child lives -/

/-- A process with another one above it does not run. -/
theorem covered_waits (represents : Represents S (tableOf k)) (covered : below ++ [p,c] <+: S.family.stack t) :
    pcbAddress p ≠ getPcb k := by
  intro runs
  obtain ⟨q,live,newest,running,_⟩ := running_live represents
  have place : (S.family.stack t)[below.length]? = some p := by
    obtain ⟨above,stack⟩ := covered
    rw [← stack]
    simp
  have same := address_inj represents.tabled (held_of_get place) live (runs.trans running)
  subst same
  obtain ⟨here,last⟩ := position_unique place (top_get newest).2
  subst here
  have long := covered.length_le
  simp only [List.length_append,List.length_cons,List.length_nil] at long
  omega

/-- A step leaves the child above the process, or it ends the child while that
    runs. -/
theorem covered_step (represents : Represents S (tableOf k)) (valid : ValidShell fs)
    (covered : below ++ [p,c] <+: S.family.stack t) {op : Op} (taken : Steps.step fs k op = .ok after) :
    (∃ S', Represents S' (tableOf after) ∧ below ++ [p,c] <+: S'.family.stack t) ∨
    (∃ value, endValue op = some value ∧ S.exec = t ∧ S.family.stack t = below ++ [p,c] ∧
      (k.pcbs (getPcb k)).parent ≠ 0 ∧ Represents ⟨pop S.family t,t⟩ (tableOf after)) := by
  cases ends : endValue op with
  | none =>
    obtain ⟨S',next,grows⟩ := step_grows represents valid ends taken
    exact .inl ⟨S',next,covered.trans (grows t)⟩
  | some value =>
    rcases step_ends represents ends taken with ⟨child,next⟩ | ⟨root,pid,fresh,next⟩
    · by_cases here : S.exec = t
      · subst here
        obtain ⟨above,stack⟩ := covered
        cases above with
        | nil =>
          rw [List.append_nil] at stack
          exact .inr ⟨value,rfl,rfl,stack.symm,child,next⟩
        | cons q rest =>
          refine .inl ⟨_,next,?_⟩
          rw [stack_pop_self,← stack,List.dropLast_append_of_ne_nil (List.cons_ne_nil q rest)]
          exact List.prefix_append _ _
      · refine .inl ⟨_,next,?_⟩
        rw [stack_pop_other (Ne.symm here)]
        exact covered
    · -- The first process of a terminal ends, and the terminal of `p` has two.
      have here : t ≠ S.exec := by
        rintro rfl
        have only := (steady_of_represents represents).root root
        have size := represents.tabled.sizes S.exec (represents.exec ▸ (steady_of_represents represents).exec)
        rw [represents.exec] at only
        have long := covered.length_le
        simp only [List.length_append,List.length_cons,List.length_nil] at long
        omega
      refine .inl ⟨_,next,?_⟩
      rw [stack_push_other here,stack_pop_other here]
      exact covered

/-- The caller waits: its child is above it on its terminal, and its control
    block is as the call left it. -/
structure Waits (below : List Nat) (p c t : Nat) (pcb : Pcb) (k : Kernel) : Prop where
  covered : ∃ S, Represents S (tableOf k) ∧ below ++ [p,c] <+: S.family.stack t
  block : k.pcbs (pcbAddress p) = pcb

theorem waits_op {pcb : Pcb} (valid : ValidShell fs) (waits : Waits below p c t pcb k) {op : Op}
    (taken : Steps.step fs k op = .ok after) (away : getPcb after ≠ pcbAddress p) : Waits below p c t pcb after := by
  obtain ⟨⟨S,represents,covered⟩,block⟩ := waits
  have held : Held S.family p := ⟨t,covered.subset (by simp)⟩
  have kept := op_frame represents valid taken held (covered_waits represents covered)
  rcases covered_step represents valid covered taken with next | ⟨_,_,rfl,stack,_,next⟩
  · exact ⟨next,kept.trans block⟩
  · -- The child ends, so the caller would run.
    obtain ⟨q,newest,running,_⟩ := next.running
    rw [top,stack_pop_self,stack] at newest
    have same : p = q := by simpa using newest
    subst same
    exact absurd running away

/-- A call on descriptors leaves a process that waits as it is. -/
theorem waits_call {pcb : Pcb} (waits : Waits below p c t pcb k) {call : Call} {value : Int} {bytes : List UInt8}
    (done : doCall fs k call = .ok (value,bytes,after)) : Waits below p c t pcb after := by
  obtain ⟨⟨S,represents,covered⟩,block⟩ := waits
  refine ⟨⟨S,tableOf_call done ▸ represents,covered⟩,?_⟩
  exact ((doCall_kept done _).1 (covered_waits represents covered)).trans block

/-- The step with which a process calls `execute`. -/
theorem execute_waits (represents : Represents S (tableOf k)) {fuel : Nat} {command : Command}
    (taken : Steps.step fs k (.execute fuel command) = .ok after) (starts : getPcb after ≠ getPcb k) :
    ∃ below p c, pcbAddress p = getPcb k ∧ pcbAddress c = getPcb after ∧ S.family.stack S.exec = below ++ [p] ∧
      Waits below p c S.exec { k.pcbs (getPcb k) with kEsp := k.esp, kEbp := k.ebp } after := by
  obtain ⟨result,executed,ended⟩ := bind_eq_ok.mp taken
  cases result with
  | returned _ l =>
    cases ended
    exact absurd (congrArg Table.running (tableOf_draws (execute_returned executed))) starts
  | started eip l =>
    cases ended
    obtain ⟨pid,parsed,page,rfl,low,high,free,_⟩ := execute_started executed
    obtain ⟨p,live,newest,running,_⟩ := running_live represents
    rw [represents.exec] at newest
    have some : (executingTerm k).numProcs ≠ 0 := Nat.pos_iff_ne_zero.mp (steady_of_represents represents).some
    obtain ⟨fresh,next⟩ := represents_calls represents low high free
    rw [← tableOf_spawned_child some] at next
    have stack := stack_eq_of_top newest
    refine ⟨_,p,pid,running.symm,rfl,stack,⟨_,next,?_⟩,?_⟩
    · rw [stack_push_self,stack,List.dropLast_concat,List.append_assoc]
      exact List.prefix_rfl
    · have apart : pcbAddress p ≠ pcbAddress pid := address_free represents low high free live
      have running' : pcbAddress p = getPcb k := running.symm
      have saved : (spawned k pid parsed page).pcbs (pcbAddress p) = (saveStack k (getPcb k)).pcbs (pcbAddress p) := by
        simp only [spawned,Function.update_of_ne apart,if_neg some]
      rw [saved,running']
      exact Function.update_self _ _ _

end

/-! ### The return -/

/-- Tables that stand for the same stack of a terminal have the same processes on
    it. -/
theorem same_stack {S S' : Schedule} {k after : Kernel} {t : Nat} (represents : Represents S (tableOf k))
    (represents' : Represents S' (tableOf after)) (inside : t < maxTerminals)
    (same : S'.family.stack t = S.family.stack t) :
    (after.terminals t).numProcs = (k.terminals t).numProcs ∧ ∀ i, Stored k t i → child after t i = child k t i := by
  have size : (k.terminals t).numProcs = (S.family.stack t).length := represents.tabled.sizes t inside
  have size' : (after.terminals t).numProcs = (S'.family.stack t).length := represents'.tabled.sizes t inside
  refine ⟨by rw [size,size',same],?_⟩
  intro i stored
  obtain ⟨q,place,address,_⟩ := stored_get represents stored
  exact (represents'.tabled.places t i q (same ▸ place)).trans address.symm

/-- The caller of `execute` goes on after the call: its child `before` has just
    ended, and nothing but the return value tells the caller that time has gone
    by. -/
structure Returns (first started before last : Kernel) (value : Int) : Prop where
  ended : getPcb before = getPcb started
  eax : last.eax = value
  esp : last.esp = first.esp
  ebp : last.ebp = first.ebp
  tss : last.tssEsp0 = first.tssEsp0
  page : last.paging.pageDirectory (directoryIndex _128MB) = .page (first.pcbs (getPcb first)).pde
  block : last.pcbs (getPcb first) = { first.pcbs (getPcb first) with kEsp := first.esp, kEbp := first.ebp }
  terminal : last.execTerm = first.execTerm
  stack : (last.terminals first.execTerm).numProcs = (first.terminals first.execTerm).numProcs ∧
    ∀ i, Stored first first.execTerm i → child last first.execTerm i = child first first.execTerm i

end MazeOS.CallReturn
