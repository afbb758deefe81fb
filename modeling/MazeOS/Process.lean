import MazeOS.Display

/-!
The functions of `process.c`: the table of process IDs, the search of the timer
interrupt for the next terminal, and `context_switch`, which saves the stack
pointers of the running process in its control block and loads those of the
last process of another terminal.
-/
namespace MazeOS.Process
open MazeOS.Runs MazeOS.Faults MazeOS.Paging MazeOS.State MazeOS.Display

/-- `get_available_pid`: the return value and the kernel after the call. -/
def getAvailablePid (k : Kernel) : Int × Kernel :=
  match (List.range maxProcesses).find? fun i => k.availablePids i = 0 with
  | some i => (i + 1,{ k with availablePids := Function.update k.availablePids i 1 })
  | none => (-1,k)

/-- `free_pid`. -/
def freePid (k : Kernel) (pid : Nat) : Int × Kernel :=
  if pid = 0 ∨ pid > maxProcesses then (-1,k)
  else if k.availablePids (pid - 1) = 0 then (-1,k)
  else (0,{ k with availablePids := Function.update k.availablePids (pid - 1) 0 })

/-- `child_procs[num_procs - 1]` of a terminal, which the code then follows. -/
def lastProc (k : Kernel) (t : Nat) : Checked Nat :=
  let procs := (k.terminals t).toProcs
  if procs.numProcs = 0 ∨ procs.numProcs > maxProcesses then .error (.childProcs t)
  else if procs.childProcs (procs.numProcs - 1) = 0 then .error (.childProcs t)
  else .ok (procs.childProcs (procs.numProcs - 1))

/-- The stack pointers of the running process, stored in a control block. -/
def saveStack (k : Kernel) (address : Nat) : Kernel :=
  setPcb k address { k.pcbs address with kEsp := k.esp, kEbp := k.ebp }

/-- `context_switch`. -/
def contextSwitch (k : Kernel) (nextTerm : Nat) : Checked Kernel :=
  if nextTerm ≥ maxTerminals then .error (.noTerminal nextTerm)
  else do
    let newPcb ← lastProc k nextTerm
    let mapped := { k with
      paging := mapPage4MB k.paging (k.pcbs newPcb).pdeVirtAddr (k.pcbs newPcb).pde
      execTerm := nextTerm
      tssEsp0 := (k.pcbs newPcb).esp0 }
    let saved := saveStack mapped (getPcb k)
    .ok { saved with esp := (saved.pcbs newPcb).kEsp, ebp := (saved.pcbs newPcb).kEbp }

/-- The loop of `pit_interrupt_handler`: the first terminal from `next` on, before
    the executing one, that has a process. -/
def nextTerminal (k : Kernel) : Nat → Nat → Option Nat
  | 0, _ => none
  | left + 1, next =>
    if next = k.execTerm then none
    else if (k.terminals next).numProcs > 0 then some next
    else nextTerminal k left (if next + 1 ≥ maxTerminals then 0 else next + 1)

/-- `pit_interrupt_handler`. Its loop meets every terminal at most once. -/
def pitInterruptHandler (k : Kernel) : Checked Kernel :=
  match nextTerminal k maxTerminals (if k.execTerm + 1 ≥ maxTerminals then 0 else k.execTerm + 1) with
  | some next => contextSwitch k next
  | none => .ok k

/-! ### What the functions do -/

/-- A process ID is handed out exactly when one is free, and it is the lowest
    free one. -/
theorem getAvailablePid_cases (k : Kernel) :
    (∃ i, i < maxProcesses ∧ k.availablePids i = 0 ∧ (∀ j, j < i → k.availablePids j ≠ 0) ∧
      getAvailablePid k = ((i : Int) + 1,{ k with availablePids := Function.update k.availablePids i 1 })) ∨
    ((∀ i, i < maxProcesses → k.availablePids i ≠ 0) ∧ getAvailablePid k = (-1,k)) := by
  simp only [getAvailablePid]
  cases search : (List.range maxProcesses).find? fun i => k.availablePids i = 0 with
  | some i =>
    obtain ⟨free,bound,lowest⟩ := List.find?_range_eq_some.mp search
    refine .inl ⟨i,by simpa using bound,by simpa using free,?_,rfl⟩
    intro j lower
    simpa using lowest j lower
  | none =>
    refine .inr ⟨?_,rfl⟩
    intro i inside
    simpa using List.find?_range_eq_none.mp search i inside

theorem freePid_used {k : Kernel} {pid : Nat} (low : 1 ≤ pid) (high : pid ≤ maxProcesses)
    (used : k.availablePids (pid - 1) ≠ 0) :
    freePid k pid = (0,{ k with availablePids := Function.update k.availablePids (pid - 1) 0 }) := by
  have inside : ¬ (pid = 0 ∨ pid > maxProcesses) := by omega
  simp [freePid,inside,used]

/-- Probing for a process ID and giving it back changes nothing. -/
theorem probe_restores (k : Kernel) :
    (freePid (getAvailablePid k).2 ((getAvailablePid k).1 % 2 ^ 32).toNat).2 = k := by
  rcases getAvailablePid_cases k with ⟨i,inside,free,_,handed⟩ | ⟨_,refused⟩
  · rw [handed]
    have word : (((i : Int) + 1) % 2 ^ 32).toNat = i + 1 := by
      simp only [maxProcesses] at inside
      omega
    simp only [word]
    rw [freePid_used (by omega) (by omega) (by simp)]
    simp only [Nat.add_sub_cancel,Function.update_idem]
    rw [← free,Function.update_eq_self]
  · rw [refused]
    simp [freePid,maxProcesses]

theorem lastProc_ok {k : Kernel} {t address : Nat} :
    lastProc k t = .ok address ↔ 0 < (k.terminals t).numProcs ∧ (k.terminals t).numProcs ≤ maxProcesses ∧
      (k.terminals t).childProcs ((k.terminals t).numProcs - 1) = address ∧ address ≠ 0 := by
  unfold lastProc
  simp only
  split
  · constructor
    · intro impossible; cases impossible
    · rintro ⟨some,few,_,_⟩; omega
  · split
    · constructor
      · intro impossible; cases impossible
      · rintro ⟨_,_,same,nonNull⟩; omega
    · simp only [Except.ok.injEq]
      constructor
      · rintro rfl; exact ⟨by omega,by omega,rfl,by assumption⟩
      · rintro ⟨_,_,same,_⟩; exact same

/-- The timer switches to a terminal other than the executing one that has a
    process, or does nothing. -/
theorem nextTerminal_some {k : Kernel} {left start found : Nat} (inside : start < maxTerminals)
    (search : nextTerminal k left start = some found) :
    found < maxTerminals ∧ found ≠ k.execTerm ∧ 0 < (k.terminals found).numProcs := by
  induction left generalizing start with
  | zero => cases search
  | succ n ih =>
    simp only [nextTerminal] at search
    split at search
    · cases search
    · split at search
      · cases search
        exact ⟨inside,by assumption,by assumption⟩
      · refine ih ?_ search
        split
        · decide
        · omega

theorem contextSwitch_ok {k after : Kernel} {nextTerm : Nat} (switched : contextSwitch k nextTerm = .ok after) :
    ∃ newPcb, nextTerm < maxTerminals ∧ lastProc k nextTerm = .ok newPcb ∧
      after = { k with
        paging := mapPage4MB k.paging (k.pcbs newPcb).pdeVirtAddr (k.pcbs newPcb).pde
        execTerm := nextTerm
        tssEsp0 := (k.pcbs newPcb).esp0
        pcbs := (saveStack k (getPcb k)).pcbs
        esp := ((saveStack k (getPcb k)).pcbs newPcb).kEsp
        ebp := ((saveStack k (getPcb k)).pcbs newPcb).kEbp } := by
  simp only [contextSwitch] at switched
  split at switched
  · cases switched
  · obtain ⟨newPcb,found,equal⟩ := bind_eq_ok.mp switched
    cases equal
    exact ⟨newPcb,by omega,found,rfl⟩

/-- A timer interrupt is a context switch to another terminal, or nothing. -/
theorem pitInterruptHandler_ok {k after : Kernel} (handled : pitInterruptHandler k = .ok after) :
    after = k ∨ ∃ next, next ≠ k.execTerm ∧ contextSwitch k next = .ok after := by
  simp only [pitInterruptHandler] at handled
  split at handled
  · rename_i next found
    have inside : (if k.execTerm + 1 ≥ maxTerminals then 0 else k.execTerm + 1) < maxTerminals := by
      split
      · decide
      · omega
    exact .inr ⟨next,(nextTerminal_some inside found).2.1,handled⟩
  · cases handled
    exact .inl rfl

end MazeOS.Process
