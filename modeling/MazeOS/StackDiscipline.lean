import MazeOS.ProcessTable

/-!
The saved stack pointers of a process that does not run are those it had when
it last stopped running. A monitor beside the machine (`record`) notes the
stack pointers of the running process whenever another one starts to run. Every
change of the table keeps `Saved`: the blocks of the live processes that do not
run hold what the monitor noted. `stack_discipline` adds how a process resumes
when its child ends.
-/
namespace MazeOS.StackDiscipline
open MazeOS.Runs MazeOS.Faults MazeOS.Filesystem MazeOS.Paging MazeOS.State MazeOS.Display MazeOS.Process
  MazeOS.Syscalls MazeOS.Terminal MazeOS.Steps MazeOS.Tables MazeOS.Stacks MazeOS.ProcessTable
  MazeOS.ReadData
open MazeOS.Boot (shellKernel shellKernel_started shellImage_valid shellFs_image)

/-- The stack pointers of each process at its most recent suspension: when
    another process starts to run, those of the one that ran are noted. -/
def record (k : Kernel) (_ : Op) (after : Kernel) (noted : Nat → Nat × Nat) : Nat → Nat × Nat :=
  if getPcb after = getPcb k then noted else Function.update noted (getPcb k) (k.esp,k.ebp)

def savedOf (core : Core) : Nat × Nat := (core.kEsp,core.kEbp)

/-- The live processes that do not run have their stack pointers as noted. -/
def Saved (S : Schedule) (T : Table) (noted : Nat → Nat × Nat) : Prop :=
  ∀ p, Held S.family p → pcbAddress p ≠ T.running → savedOf (T.cores (pcbAddress p)) = noted (pcbAddress p)

section
variable {S : Schedule} {T T' : Table}

/-- A change stores stack pointers only in the process that runs before it or
    the one that runs after it. -/
theorem change_frame (change : Change T T') {a : Nat} (before : a ≠ T.running) (after : a ≠ T'.running) :
    savedOf (T'.cores a) = savedOf (T.cores a) := by
  have raised : ∀ U, (U = T ∨ U = T.raise) → U.cores a = T.cores a := by
    rintro U (rfl | rfl)
    · rfl
    · exact Function.update_of_ne before _ _
  cases change with
  | goes esp ebp inPage => rfl
  | maps => rfl
  | calls pid low high free room =>
    have new : a ≠ pcbAddress pid := after
    simp only [Table.push,Function.update_of_ne new,Table.save,Function.update_of_ne before]
  | opens t pid inside low high free bare =>
    have new : a ≠ pcbAddress pid := after
    simp only [Table.push,Function.update_of_ne new,Table.on,Table.save,Function.update_of_ne before]
  | switches t inside other some =>
    have old : a ≠ (T.on t).running := before
    simp only [Table.load,Table.save,Function.update_of_ne old]
    rfl
  | returns U ended child => rw [← raised U ended]; rfl
  | restarts U pid ended root low high free =>
    have new : a ≠ pcbAddress pid := after
    simp only [Table.push,Function.update_of_ne new]
    rw [← raised U ended]
    rfl

/-- What the monitor notes at a change. -/
def noteOf (T T' : Table) (noted : Nat → Nat × Nat) : Nat → Nat × Nat :=
  if T'.running = T.running then noted else Function.update noted T.running (T.esp,T.ebp)

theorem saved_next {S' : Schedule} {noted : Nat → Nat × Nat} (change : Change T T') (saved : Saved S T noted)
    (kept : ∀ p, Held S'.family p → pcbAddress p ≠ T'.running → Held S.family p ∧
      (pcbAddress p = T.running → savedOf (T'.cores (pcbAddress p)) = (T.esp,T.ebp))) :
    Saved S' T' (noteOf T T' noted) := by
  intro p held other
  obtain ⟨old,own⟩ := kept p held other
  by_cases suspended : pcbAddress p = T.running
  · have switched : T'.running ≠ T.running := fun same => other (suspended.trans same.symm)
    rw [own suspended,noteOf,if_neg switched,suspended,Function.update_self]
  · rw [change_frame change suspended other,saved p old suspended,noteOf]
    split
    · rfl
    · rw [Function.update_of_ne suspended]

theorem save_running (T : Table) : savedOf (T.save.cores T.running) = (T.esp,T.ebp) := by
  simp [Table.save,savedOf]

/-- Pushing a process after storing the one that runs keeps the latter stored. -/
theorem push_saved (T : Table) {t pid parent a : Nat} (suspended : a = T.running) (other : a ≠ pcbAddress pid) :
    savedOf ((((T.save).on t).push pid parent).cores a) = (T.esp,T.ebp) := by
  subst suspended
  simp only [Table.push,Table.on,Function.update_of_ne other]
  exact save_running T

/-- Every change of the table keeps the stored stack pointers as noted. -/
theorem change_saved {noted : Nat → Nat × Nat} (represents : Represents S T) (change : Change T T')
    (saved : Saved S T noted) : ∃ S', Represents S' T' ∧ Saved S' T' (noteOf T T' noted) := by
  have whole := change
  cases change with
  | goes esp ebp inPage =>
    refine ⟨S,represents_goes represents inPage,saved_next whole saved ?_⟩
    intro p held other
    exact ⟨held,fun suspended => absurd (suspended.trans inPage.symm) other⟩
  | maps =>
    refine ⟨S,represents_maps represents,saved_next whole saved ?_⟩
    intro p held other
    exact ⟨held,fun suspended => absurd suspended other⟩
  | calls pid low high free room =>
    obtain ⟨fresh,next⟩ := represents_calls represents low high free
    refine ⟨_,next,saved_next whole saved ?_⟩
    intro p held other
    rcases (held_push fresh).mp held with old | rfl
    · exact ⟨old,fun suspended => push_saved T (t := T.execTerm) suspended other⟩
    · exact absurd rfl other
  | opens t pid inside low high free bare =>
    obtain ⟨fresh,next⟩ := represents_opens represents inside low high free bare
    refine ⟨_,next,saved_next whole saved ?_⟩
    intro p held other
    rcases (held_push fresh).mp held with old | rfl
    · exact ⟨old,fun suspended => push_saved T suspended other⟩
    · exact absurd rfl other
  | switches t inside otherTerm some =>
    obtain ⟨_,next⟩ := represents_switches represents inside some
    refine ⟨_,next,saved_next whole saved ?_⟩
    intro p held other
    refine ⟨held,fun suspended => ?_⟩
    rw [suspended]
    exact save_running T
  | returns U ended child =>
    obtain ⟨q,_,newest,running,_⟩ := running_live represents
    rw [represents.exec] at newest
    refine ⟨_,represents_returns represents ended child,saved_next whole saved ?_⟩
    intro p held other
    obtain ⟨old,survives⟩ := (held_pop newest).mp held
    refine ⟨old,fun suspended => absurd ?_ survives⟩
    exact address_inj represents.tabled old ⟨S.exec,top_mem newest⟩ (suspended.trans running)
  | restarts U pid ended root low high free =>
    obtain ⟨q,_,newest,running,_⟩ := running_live represents
    rw [represents.exec] at newest
    obtain ⟨fresh,next⟩ := represents_restarts represents ended root low high free
    refine ⟨_,next,saved_next whole saved ?_⟩
    intro p held other
    rcases (held_push fresh).mp held with kept | rfl
    · obtain ⟨old,survives⟩ := (held_pop newest).mp kept
      refine ⟨old,fun suspended => absurd ?_ survives⟩
      exact address_inj represents.tabled old ⟨S.exec,top_mem newest⟩ (suspended.trans running)
    · exact absurd rfl other

end

/-! ### Runs -/

/-- The events that suspend a process: its own `execute`, a switch away from
    it, and a terminal switch that starts a shell. -/
def Suspends : Op → Prop
  | .execute _ _ | .pit | .switchTo _ _ => True
  | _ => False

/-- The value for the parent when the event ends the running process. -/
def endValue : Op → Option Int
  | .halt _ status => some status.toNat
  | .exception _ _ => some returnException
  | _ => none

/-- The parent of the process that ran goes on where it was suspended. -/
structure ParentResumes (k after : Kernel) : Prop where
  runs : getPcb after = (k.pcbs (getPcb k)).parent
  esp : after.esp = (k.pcbs (k.pcbs (getPcb k)).parent).kEsp
  ebp : after.ebp = (k.pcbs (k.pcbs (getPcb k)).parent).kEbp
  tss : after.tssEsp0 = (k.pcbs (k.pcbs (getPcb k)).parent).esp0
  page : after.paging.pageDirectory (directoryIndex _128MB) = .page (k.pcbs (k.pcbs (getPcb k)).parent).pde

section
variable {fs : Fs} {S : Schedule} {k : Kernel}

/-- `halt` from a kernel that differs at most in the block of the process that
    ends. -/
theorem halt_resumes {before after : Kernel} {fuel : Nat} {status : UInt8} (represents : Represents S (tableOf k))
    (halted : Syscalls.halt fs fuel before status = .ok after)
    (running : getPcb before = getPcb k) (pids : before.availablePids = k.availablePids)
    (pid : (before.pcbs (getPcb k)).pid = (k.pcbs (getPcb k)).pid)
    (parent : (before.pcbs (getPcb k)).parent = (k.pcbs (getPcb k)).parent)
    (others : ∀ a, a ≠ getPcb k → before.pcbs a = k.pcbs a) (child : (k.pcbs (getPcb k)).parent ≠ 0) :
    ParentResumes k after ∧ after.eax = returnValue (before.pcbs (getPcb k)) status := by
  have steady := steady_of_represents represents
  have child' : (before.pcbs (getPcb before)).parent ≠ 0 := by rw [running,parent]; exact child
  have cases := halt_cases (running ▸ pid ▸ steady.low) (running ▸ pid ▸ steady.high)
    (by rw [running,pid,pids]; exact steady.used) halted
  rcases cases with ⟨_,same⟩ | ⟨root,_⟩
  · obtain ⟨_,q,live,_,address⟩ := parent_below represents child
    have other : (k.pcbs (getPcb k)).parent ≠ getPcb k := parent_apart represents child
    have block := represents.tabled.blocks q live
    have address' : (k.pcbs (getPcb k)).parent = pcbAddress q := address
    have kept : (popped before).pcbs (k.pcbs (getPcb k)).parent = k.pcbs (k.pcbs (getPcb k)).parent := others _ other
    rw [running,parent] at same
    subst same
    refine ⟨⟨?_,?_,?_,?_,?_⟩,rfl⟩
    · have esp : (resumed (popped before) (k.pcbs (getPcb k)).parent
          (returnValue (before.pcbs (getPcb k)) status)).esp = (k.pcbs (k.pcbs (getPcb k)).parent).kEsp := by
        simp only [resumed,kept]
      rw [getPcb,esp,address']
      exact block.saved
    · simp only [resumed,kept]
    · simp only [resumed,kept]
    · simp only [resumed,kept]
    · have virt : (k.pcbs (k.pcbs (getPcb k)).parent).pdeVirtAddr = _128MB := by
        rw [address']
        exact block.pdeVirtAddr
      simp only [resumed,kept,mapPage4MB,virt,Function.update_self]
  · exact absurd root child'

/-- A process with a parent ends: the parent resumes with the value of its child. -/
theorem ends_resumes {after : Kernel} {op : Op} {value : Int} (represents : Represents S (tableOf k))
    (ends : endValue op = some value) (taken : step fs k op = .ok after) (child : (k.pcbs (getPcb k)).parent ≠ 0) :
    ParentResumes k after ∧ after.eax = value := by
  obtain ⟨p,live,_,running,_⟩ := running_live represents
  cases op with
  | halt fuel status =>
    cases ends
    have zero : (k.pcbs (getPcb k)).retval = 0 := by
      rw [show getPcb k = pcbAddress p from running]
      exact (represents.tabled.blocks p live).retval
    have normal : returnValue (k.pcbs (getPcb k)) status = status.toNat := by
      rw [returnValue,zero,if_neg (by decide)]
    rw [← normal]
    exact halt_resumes represents taken rfl rfl rfl rfl (fun _ _ => rfl) child
  | exception fuel text =>
    cases ends
    have drew := printf_draws k text
    obtain ⟨phys,cursor,place,same⟩ := drew
    simp only [step,exception,same] at taken
    have resumes := halt_resumes represents taken rfl rfl (by simp [setPcb,drawn,getPcb])
      (by simp [setPcb,drawn,getPcb]) (fun a other => Function.update_of_ne other _ _) child
    refine ⟨resumes.1,resumes.2.trans ?_⟩
    simp [returnValue,setPcb,drawn,getPcb]
  | trap => cases ends
  | frame _ _ => cases ends
  | execute _ _ => cases ends
  | vidmap _ => cases ends
  | pit => cases ends
  | switchTo _ _ => cases ends

/-- A process that stops running without ending has been suspended. -/
theorem stops_suspends {after : Kernel} {op : Op} (represents : Represents S (tableOf k))
    (taken : step fs k op = .ok after) (switched : getPcb after ≠ getPcb k) {t i : Nat}
    (stored : Stored after t i) (same : child after t i = getPcb k) : Suspends op := by
  have goes : ∀ {before : Kernel} {fuel : Nat} {status : UInt8},
      (tableOf before = tableOf k ∨ tableOf before = (tableOf k).raise) →
      Syscalls.halt fs fuel before status = .ok after → False := by
    intro before fuel status ended halted
    obtain ⟨p,live,isTop,running,_⟩ := running_live represents
    rw [represents.exec] at isTop
    have gone : ∀ q, Held (pop S.family S.exec) q → pcbAddress q ≠ getPcb k := by
      intro q held equal
      obtain ⟨old,survives⟩ := (held_pop isTop).mp held
      exact survives (address_inj represents.tabled old live (equal.trans running))
    rcases halt_change (steady_of_represents represents) ended halted with ⟨child',next⟩ | ⟨root,pid,low,high,free,next⟩
    · have later := represents_returns represents ended child'
      rw [← next] at later
      obtain ⟨q,place,address,_⟩ := stored_get later stored
      exact gone q (held_of_get place) (address.symm.trans same)
    · obtain ⟨fresh,later⟩ := represents_restarts represents ended root low high free
      rw [← next] at later
      obtain ⟨q,place,address,_⟩ := stored_get later stored
      rcases (held_push fresh).mp (held_of_get place) with old | rfl
      · exact gone q old (address.symm.trans same)
      · have started : getPcb after = pcbAddress q := congrArg Table.running next
        exact switched (started.trans (address.symm.trans same))
  cases op with
  | trap =>
    cases taken
    exact absurd (steady_of_represents represents).stack switched
  | frame esp ebp =>
    simp only [step] at taken
    split at taken
    · rename_i inPage
      cases taken
      exact absurd inPage switched
    · cases taken
  | vidmap screenStart =>
    cases taken
    refine absurd ?_ switched
    have table := congrArg Table.running (tableOf_vidmap k screenStart)
    split at table
    · exact table
    · exact table
  | halt fuel status => exact (goes (.inl rfl) taken).elim
  | exception fuel text => exact (goes (.inr (tableOf_raised k text)) taken).elim
  | execute _ _ => trivial
  | pit => trivial
  | switchTo _ _ => trivial

end

/-- In every run from the first shell: the stack pointers stored for a live
    process that does not run are those of its most recent suspension; no step
    overwrites those of a process that runs neither before nor after it, and a
    process stops running only by ending or by being suspended; when a process
    with a parent ends, that parent resumes where it was suspended, with its own
    stack and page, and gets the status byte, or 256 exactly for an exception. -/
theorem stack_discipline {fs : Fs} {k : Kernel} {noted : Nat → Nat × Nat} (valid : ValidShell fs)
    (reached : Reachable (watched (step fs) record) (fun s => Started fs s.1) (k,noted)) :
    (∀ t i, Stored k t i → child k t i ≠ getPcb k →
      ((k.pcbs (child k t i)).kEsp,(k.pcbs (child k t i)).kEbp) = noted (child k t i)) ∧
    (∀ op after, step fs k op = .ok after →
      (∀ a, a ≠ getPcb k → a ≠ getPcb after →
        (after.pcbs a).kEsp = (k.pcbs a).kEsp ∧ (after.pcbs a).kEbp = (k.pcbs a).kEbp) ∧
      (∀ t i, Stored after t i → child after t i = getPcb k → getPcb after ≠ getPcb k → Suspends op) ∧
      (∀ value, endValue op = some value → (k.pcbs (getPcb k)).parent ≠ 0 →
        ParentResumes k after ∧ after.eax = value ∧
          (after.eax = returnException ↔ ∃ fuel text, op = .exception fuel text))) := by
  have keeps : ∀ (s : Kernel × (Nat → Nat × Nat)) (op : Op) (s' : Kernel × (Nat → Nat × Nat)),
      (∃ S, Represents S (tableOf s.1) ∧ Saved S (tableOf s.1) s.2) → watched (step fs) record s op = .ok s' →
      ∃ S, Represents S (tableOf s'.1) ∧ Saved S (tableOf s'.1) s'.2 := by
    rintro ⟨k,noted⟩ op ⟨after,noted'⟩ ⟨S,represents,saved⟩ taken
    obtain ⟨moved,rfl⟩ := watched_eq_ok.mp taken
    exact change_saved represents (step_change (steady_of_represents represents) valid moved) saved
  have initially : ∀ s : Kernel × (Nat → Nat × Nat), Started fs s.1 →
      ∃ S, Represents S (tableOf s.1) ∧ Saved S (tableOf s.1) s.2 := by
    rintro ⟨k,noted⟩ started
    obtain ⟨S,represents,only⟩ := started_represents started
    exact ⟨S,represents,fun p held other => absurd (only p held) other⟩
  obtain ⟨S,represents,saved⟩ := reachable_invariant initially keeps reached
  constructor
  · intro t i stored other
    obtain ⟨p,place,address,_⟩ := stored_get represents stored
    rw [address] at other ⊢
    exact saved p (held_of_get place) other
  · intro op after taken
    have change := step_change (steady_of_represents represents) valid taken
    refine ⟨?_,?_,?_⟩
    · intro a before later
      have kept : savedOf ((tableOf after).cores a) = savedOf ((tableOf k).cores a) := change_frame change before later
      exact ⟨congrArg Prod.fst kept,congrArg Prod.snd kept⟩
    · intro t i stored same switched
      exact stops_suspends represents taken switched stored same
    · intro value ends child
      obtain ⟨resumes,eax⟩ := ends_resumes represents ends taken child
      refine ⟨resumes,eax,?_⟩
      rw [eax]
      cases op with
      | halt fuel status =>
        cases ends
        have byte := status.toNat_lt
        constructor
        · intro same
          simp only [returnException] at same
          omega
        · rintro ⟨_,_,impossible⟩; cases impossible
      | exception fuel text =>
        cases ends
        exact ⟨fun _ => ⟨fuel,text,rfl⟩,fun _ => rfl⟩
      | trap => cases ends
      | frame _ _ => cases ends
      | execute _ _ => cases ends
      | vidmap _ => cases ends
      | pit => cases ends
      | switchTo _ _ => cases ends

/-- The first shell executes another one, which is suspended by a timer interrupt
    while a shell on the second terminal runs, and goes on. -/
def familyOps : List Op :=
  [.frame 0x7FFF00 0x7FFF20,.execute 253 shellCommand,.frame 0x7FDF00 0x7FDF20,.switchTo 253 1,.pit]

/-- When the second shell ends, the first one goes on with the stack it had at its
    call. -/
theorem stack_discipline_shell : ∃ k noted after,
    Reachable (watched (step shellFs) record) (fun s => Started shellFs s.1) (k,noted) ∧ getPcb k = pcbAddress 2 ∧
    ((k.pcbs (pcbAddress 1)).kEsp,(k.pcbs (pcbAddress 1)).kEbp) = (0x7FFF00,0x7FFF20) ∧
    ((k.pcbs (pcbAddress 3)).kEsp,(k.pcbs (pcbAddress 3)).kEbp) = noted (pcbAddress 3) ∧
    step shellFs k (.halt 253 7) = .ok after ∧ getPcb after = pcbAddress 1 ∧
    (after.esp,after.ebp) = (0x7FFF00,0x7FFF20) ∧ after.eax = 7 := by
  have valid := shellImage_valid shellFs_image
  have leads : Leads (run (watched (step shellFs) record) (shellKernel,fun _ => (0,0)) familyOps) fun s =>
      getPcb s.1 = pcbAddress 2 ∧ (s.1.pcbs (pcbAddress 2)).parent = pcbAddress 1 ∧
      ((s.1.terminals 0).numProcs = 2 ∧ child s.1 0 0 = pcbAddress 1) ∧
      ((s.1.terminals 1).numProcs = 1 ∧ child s.1 1 0 = pcbAddress 3) ∧ s.2 (pcbAddress 1) = (0x7FFF00,0x7FFF20) ∧
      Leads (step shellFs s.1 (.halt 253 7)) fun _ => True := by decide +kernel
  obtain ⟨⟨k,noted⟩,ran,running,parent,⟨two,older⟩,⟨one,other⟩,called,after,halted,_⟩ := leads
  have start : Reachable (watched (step shellFs) record) (fun s => Started shellFs s.1) (shellKernel,fun _ => (0,0)) := by
    apply reachable_start
    simp only [shellKernel_started]
  have reached := reachable_run start ran
  obtain ⟨stored,further⟩ := stack_discipline valid reached
  have first := stored 0 0 ⟨by decide,by rw [two]; decide⟩ (by rw [older,running]; decide)
  have third := stored 1 0 ⟨by decide,by rw [one]; decide⟩ (by rw [other,running]; decide)
  rw [older] at first
  rw [other] at third
  obtain ⟨resumes,value,_⟩ := (further _ after halted).2.2 7 rfl (by rw [running,parent]; decide)
  have runs := resumes.runs
  have esp := resumes.esp
  have ebp := resumes.ebp
  rw [running,parent] at runs esp ebp
  have saved := first.trans called
  exact ⟨k,noted,after,reached,running,saved,third,halted,runs,by rw [esp,ebp,saved],value⟩

end MazeOS.StackDiscipline
