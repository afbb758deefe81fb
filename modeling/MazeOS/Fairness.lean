import MazeOS.Undisturbed

/-!
The timer is fair to the terminals. `nextTerminal` gives the turn to the terminal
after the executing one, or to the one after that (`nextTerminal_turn`); the other
steps take it from a terminal only by opening another one, which they do once for
each terminal (`keeps_turn`). So a terminal with a process executes at the latest
after two timer interrupts, and these never fail (`scheduled`).
-/
namespace MazeOS.Fairness
open MazeOS.Runs MazeOS.Faults MazeOS.Filesystem MazeOS.Paging MazeOS.State MazeOS.Display MazeOS.Process
  MazeOS.Syscalls MazeOS.Terminal MazeOS.Tables MazeOS.Stacks MazeOS.ProcessTable MazeOS.StackDiscipline
  MazeOS.Descriptors MazeOS.Undisturbed
open MazeOS.Steps hiding step
open MazeOS.ReadData (shellFs)
open MazeOS.Boot (shellKernel shellKernel_started shellImage_valid shellFs_image)

section
variable {fs : Fs} {S : Schedule} {k after : Kernel} {t : Nat}

/-! ### The turn -/

/-- The terminal at which the timer starts to search. -/
def turnAfter (exec : Nat) : Nat := if exec + 1 ≥ maxTerminals then 0 else exec + 1

theorem turnAfter_eq {exec : Nat} (inside : exec < 3) : turnAfter exec = (exec + 1) % 3 := by
  have three : maxTerminals = 3 := rfl
  rw [turnAfter]
  split <;> omega

theorem turnAfter_inside {exec : Nat} (inside : exec < maxTerminals) : turnAfter exec < maxTerminals := by
  rw [turnAfter_eq inside]
  exact Nat.mod_lt _ (by decide)

/-- The terminal whose turn is after that of the next one. -/
theorem turnAfter_twice {exec t : Nat} (inside : exec < maxTerminals) (below : t < maxTerminals) (other : t ≠ exec) :
    turnAfter exec ≠ exec ∧ (turnAfter exec ≠ t → turnAfter (turnAfter exec) = t) := by
  have exec' : exec < 3 := inside
  have below' : t < 3 := below
  rw [turnAfter_eq (turnAfter_inside inside),turnAfter_eq exec']
  omega

/-- The search finds the given terminal, or the one whose turn is before it. -/
theorem nextTerminal_turn (exec : k.execTerm < maxTerminals) (inside : t < maxTerminals) (other : t ≠ k.execTerm)
    (filled : 0 < (k.terminals t).numProcs) :
    nextTerminal k maxTerminals (turnAfter k.execTerm) = some t ∨
    (nextTerminal k maxTerminals (turnAfter k.execTerm) = some (turnAfter k.execTerm) ∧
      turnAfter (turnAfter k.execTerm) = t ∧ 0 < (k.terminals (turnAfter k.execTerm)).numProcs) := by
  obtain ⟨apart,twice⟩ := turnAfter_twice exec inside other
  by_cases next : turnAfter k.execTerm = t
  · rw [next]
    left
    rw [show maxTerminals = 2 + 1 from rfl,nextTerminal,if_neg other,if_pos filled]
  · have last := twice next
    by_cases some : 0 < (k.terminals (turnAfter k.execTerm)).numProcs
    · refine .inr ⟨?_,last,some⟩
      rw [show maxTerminals = 2 + 1 from rfl,nextTerminal,if_neg apart,if_pos some]
    · left
      have further : (if turnAfter k.execTerm + 1 ≥ maxTerminals then 0 else turnAfter k.execTerm + 1) = t := last
      rw [show nextTerminal k maxTerminals = nextTerminal k (1 + 1 + 1) from rfl,nextTerminal,if_neg apart,if_neg some,
        further,nextTerminal,if_neg other,if_pos filled]

/-- The timer interrupt gives the turn to a terminal and changes none. -/
theorem pit_turn (taken : pitInterruptHandler k = .ok after) :
    (∀ next, nextTerminal k maxTerminals (turnAfter k.execTerm) = some next → after.execTerm = next) ∧
      after.terminals = k.terminals := by
  unfold pitInterruptHandler at taken
  split at taken
  · rename_i next found
    obtain ⟨_,_,_,rfl⟩ := contextSwitch_ok taken
    exact ⟨fun next' found' => Option.some.inj (found.symm.trans found'),rfl⟩
  · rename_i none
    cases taken
    exact ⟨fun next' found' => (nomatch none.symm.trans found'),rfl⟩

/-- The timer interrupt never fails. -/
theorem pit_total (represents : Represents S (tableOf k)) : ∃ after, pitInterruptHandler k = .ok after := by
  unfold pitInterruptHandler
  split
  · rename_i next found
    have exec : k.execTerm < maxTerminals := (steady_of_represents represents).exec
    obtain ⟨inside,_,some⟩ := nextTerminal_some (turnAfter_inside exec) found
    have few := (consistent_of_represents represents).few
    have atMost : (k.terminals next).numProcs ≤ maxProcesses := by
      have cases : next = 0 ∨ next = 1 ∨ next = 2 := by
        simp only [maxTerminals] at inside
        omega
      rcases cases with rfl | rfl | rfl <;> omega
    obtain ⟨_,notNull⟩ := LastProcess.inBounds_of_some represents inside some
    have last := lastProc_ok.mpr ⟨some,atMost,rfl,notNull⟩
    rw [contextSwitch,if_neg (by omega),last]
    exact ⟨_,rfl⟩
  · exact ⟨k,rfl⟩

/-- No other step changes the executing terminal while every terminal has a
    process. -/
theorem keeps_turn (represents : Represents S (tableOf k)) (valid : ValidShell fs)
    (all : ∀ u, u < maxTerminals → 0 < (k.terminals u).numProcs) {op : Op} (other : op ≠ .pit)
    (taken : Steps.step fs k op = .ok after) : after.execTerm = k.execTerm := by
  have ends : ∀ value, endValue op = some value → after.execTerm = k.execTerm := by
    intro value ends
    rcases step_ends represents ends taken with ⟨_,next⟩ | ⟨_,_,_,next⟩
    · exact next.exec.trans represents.exec.symm
    · exact next.exec.trans represents.exec.symm
  cases op with
  | pit => exact absurd rfl other
  | trap => cases taken; rfl
  | frame esp ebp =>
    simp only [Steps.step] at taken
    split at taken <;> cases taken
    rfl
  | execute fuel command =>
    obtain ⟨result,executed,ended⟩ := bind_eq_ok.mp taken
    cases result with
    | returned _ l =>
      cases ended
      exact congrArg Table.execTerm (tableOf_draws (execute_returned executed))
    | started eip l =>
      cases ended
      obtain ⟨_,_,_,rfl,_⟩ := execute_started executed
      rfl
  | halt fuel status => exact ends _ rfl
  | exception fuel text => exact ends _ rfl
  | vidmap screenStart =>
    cases taken
    have table := congrArg Table.execTerm (tableOf_vidmap k screenStart)
    split at table
    · exact table
    · exact table
  | switchTo fuel termNum =>
    rcases switch_change (steady_of_represents represents) valid taken with table | ⟨inside,bare,_⟩
    · exact congrArg Table.execTerm table
    · exact absurd bare (all termNum inside).ne'

/-! ### Two interrupts -/

def isPit : Event → Bool
  | .op .pit => true
  | _ => false

/-- A terminal that has not executed for `n` timer interrupts: after one, it is
    the next, and no terminal is left to be opened. -/
structure Waits (t n : Nat) (k : Kernel) : Prop where
  represents : ∃ S, Represents S (tableOf k)
  filled : 0 < (k.terminals t).numProcs
  turn : n = 0 ∨ (n = 1 ∧ turnAfter k.execTerm = t ∧ ∀ u, u < maxTerminals → 0 < (k.terminals u).numProcs)

/-- No step empties a terminal. -/
theorem stays_filled (valid : ValidShell fs) (represents : Represents S (tableOf k)) {op : Op}
    (taken : Steps.step fs k op = .ok after) {u : Nat} (inside : u < maxTerminals)
    (filled : 0 < (k.terminals u).numProcs) : 0 < (after.terminals u).numProcs := by
  obtain ⟨S',move,next⟩ := step_represents valid represents taken
  exact (LastProcess.filled_iff next inside).mpr
    (LastProcess.move_filled move ((LastProcess.filled_iff represents inside).mp filled))

theorem waits_op {n : Nat} (valid : ValidShell fs) (inside : t < maxTerminals) (waits : Waits t n k) {op : Op}
    (here : t ≠ k.execTerm) (away : t ≠ after.execTerm) (taken : Steps.step fs k op = .ok after) :
    Waits t (n + if isPit (.op op) then 1 else 0) after := by
  obtain ⟨⟨S,represents⟩,filled,turn⟩ := waits
  obtain ⟨S',_,next⟩ := step_represents valid represents taken
  refine ⟨⟨S',next⟩,stays_filled valid represents taken inside filled,?_⟩
  have exec : k.execTerm < maxTerminals := (steady_of_represents represents).exec
  by_cases timer : op = .pit
  · subst timer
    obtain ⟨gives,same⟩ := pit_turn taken
    rcases nextTerminal_turn exec inside here filled with found | ⟨found,last,some⟩
    · exact absurd (gives t found).symm away
    · have turned := gives _ found
      have running := (steady_of_represents represents).some
      rcases turn with rfl | ⟨_,first,_⟩
      · refine .inr ⟨rfl,by rw [turned,last],?_⟩
        intro u below
        have exec' : k.execTerm < 3 := exec
        have below' : u < 3 := below
        have cases : u = k.execTerm ∨ u = turnAfter k.execTerm ∨ u = t := by
          have inside' : t < 3 := inside
          rw [turnAfter_eq exec'] at last ⊢
          rw [turnAfter_eq (Nat.mod_lt _ (by decide))] at last
          omega
        rw [same]
        rcases cases with rfl | rfl | rfl
        · exact running
        · exact some
        · exact filled
      · exact absurd (turned.trans first).symm away
  · have quiet : isPit (.op op) = false := by
      cases op <;> first | rfl | exact absurd rfl timer
    rw [quiet]
    rcases turn with rfl | ⟨rfl,first,all⟩
    · exact .inl rfl
    · refine .inr ⟨rfl,?_,fun u below => stays_filled valid represents taken below (all u below)⟩
      rw [keeps_turn represents valid all timer taken]
      exact first

theorem waits_step {m next : Machine} {n : Nat} {e : Event} (valid : ValidShell fs) (inside : t < maxTerminals)
    (waits : Waits t n m.kernel) (here : t ≠ m.kernel.execTerm) (away : t ≠ next.kernel.execTerm)
    (taken : step fs m e = .ok next) : Waits t (n + if isPit e then 1 else 0) next.kernel := by
  cases e with
  | op op =>
    obtain ⟨k,stepped,same⟩ := bind_eq_ok.mp taken
    cases same
    exact waits_op valid inside waits here away stepped
  | call call =>
    obtain ⟨⟨_,_,k⟩,done,same⟩ := bind_eq_ok.mp taken
    cases same
    obtain ⟨⟨S,represents⟩,filled,turn⟩ := waits
    have table := tableOf_call done
    have procs (u : Nat) : (k.terminals u).numProcs = (m.kernel.terminals u).numProcs :=
      congrArg (fun T : Table => (T.procs u).numProcs) table
    have exec : k.execTerm = m.kernel.execTerm := congrArg Table.execTerm table
    refine ⟨⟨S,table ▸ represents⟩,(procs t).symm ▸ filled,?_⟩
    rw [exec]
    simp only [procs]
    exact turn

end

/-- A run in which a terminal with a process does not execute has at most one
    timer interrupt. -/
theorem waits_run {fs : Fs} {t : Nat} (valid : ValidShell fs) (inside : t < maxTerminals) {events : List Event}
    {m last : Machine} {n : Nat} (waits : Waits t n m.kernel)
    (away : Throughout (step fs) (fun m => t ≠ m.kernel.execTerm) m events) (ran : run (step fs) m events = .ok last) :
    n + events.countP isPit ≤ 1 := by
  induction events generalizing m n with
  | nil =>
    rcases waits.turn with rfl | ⟨rfl,_⟩
    · exact Nat.zero_le 1
    · exact Nat.le_refl 1
  | cons e rest ih =>
    obtain ⟨next,taken,further⟩ := (run_cons m e rest last).mp ran
    have later := away.2 next taken
    have gone := throughout_head (P := fun m : Machine => t ≠ m.kernel.execTerm) later
    have counted := ih (waits_step valid inside waits away.1 gone taken) later further
    rw [List.countP_cons]
    omega

end MazeOS.Fairness
