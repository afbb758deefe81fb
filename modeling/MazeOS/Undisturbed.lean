import MazeOS.Descriptors
import MazeOS.LastProcess

/-!
What a process has to itself. Its control block changes only while it runs, but
for the moment at which another process takes its place (`op_frame`), and its own
steps change neither its arguments nor, other than by calls on descriptors, its
descriptor table (`op_own`). The results of such calls depend on nothing else
(`doCall_same`), so between any steps of the other processes, terminal switches
and timer interrupts a process gets what it would get on its own
(`calls_undisturbed`).
-/
namespace MazeOS.Undisturbed
open MazeOS.Runs MazeOS.Bytes MazeOS.Faults MazeOS.Filesystem MazeOS.Paging MazeOS.State MazeOS.Display MazeOS.Process
  MazeOS.Files MazeOS.Syscalls MazeOS.Terminal MazeOS.Steps MazeOS.Tables MazeOS.Stacks MazeOS.ProcessTable
  MazeOS.StackDiscipline MazeOS.Descriptors
open MazeOS.ReadData (shellFs)
open MazeOS.Boot (shellKernel shellKernel_started shellImage_valid shellFs_image)

/-! ### The machine -/

/-- The kernel, and the calls that each process has made on its descriptors, by
    the address of its control block. -/
structure Machine where
  kernel : Kernel
  logs : Nat → List Done

inductive Event where
  | op (op : Op)
  /-- The running process makes a call on its descriptors. -/
  | call (call : Call)

def step (fs : Fs) (m : Machine) : Event → Checked Machine
  | .op op => Steps.step fs m.kernel op >>= fun k => .ok { m with kernel := k }
  | .call call => doCall fs m.kernel call >>= fun (value,bytes,k) =>
    .ok ⟨k,Function.update m.logs (getPcb m.kernel) (m.logs (getPcb m.kernel) ++ [⟨call,value,bytes⟩])⟩

/-- The first shell has been started, and no call was made. -/
structure Booted (fs : Fs) (m : Machine) : Prop where
  started : Started fs m.kernel
  silent : ∀ p, m.logs p = []

/-- The process with a control block is on the stack of a terminal. -/
def Live (k : Kernel) (p : Nat) : Prop := ∃ t i, Stored k t i ∧ child k t i = p

/-- The process with a control block does not end at a step. -/
def Stays (p : Nat) (m : Machine) : Event → Prop
  | .op op => endValue op = none ∨ getPcb m.kernel ≠ p
  | .call _ => True

instance (p : Nat) (m : Machine) : (e : Event) → Decidable (Stays p m e)
  | .op op => inferInstanceAs (Decidable (endValue op = none ∨ getPcb m.kernel ≠ p))
  | .call _ => .isTrue trivial

/-- What `execute` gave to a process, and what its calls on descriptors change. -/
structure Own where
  fds : Nat → FileDesc
  args : Nat → UInt8
  argsLength : Nat
  parent : Nat

def ownOf (pcb : Pcb) : Own := ⟨pcb.fds,pcb.args,pcb.argsLength,pcb.parent⟩

/-! ### Control blocks at one step -/

section
variable {fs : Fs} {S : Schedule} {k after : Kernel}

theorem live_iff (represents : Represents S (tableOf k)) {p : Nat} :
    Live k p ↔ ∃ q, Held S.family q ∧ pcbAddress q = p := by
  constructor
  · rintro ⟨t,i,stored,rfl⟩
    obtain ⟨q,place,address,_⟩ := stored_get represents stored
    exact ⟨q,held_of_get place,address.symm⟩
  · rintro ⟨q,⟨t,member⟩,rfl⟩
    obtain ⟨i,inside,at_i⟩ := List.mem_iff_getElem.mp member
    have below := represents.tabled.inside t q member
    have size : (k.terminals t).numProcs = (S.family.stack t).length := represents.tabled.sizes t below
    exact ⟨t,i,⟨below,by omega⟩,represents.tabled.places t i q (List.getElem?_eq_some_iff.mpr ⟨inside,at_i⟩)⟩

/-- The control block of a process that does not run is as it was, and what a
    process has of its own is. -/
structure Kept (k after : Kernel) (a : Nat) : Prop where
  frame : a ≠ getPcb k → after.pcbs a = k.pcbs a
  own : ownOf (after.pcbs a) = ownOf (k.pcbs a)

theorem kept_same {a : Nat} (same : after.pcbs a = k.pcbs a) : Kept k after a := ⟨fun _ => same,congrArg ownOf same⟩

theorem kept_draws (draws : Draws k after) (a : Nat) : Kept k after a := by
  obtain ⟨_,_,_,rfl⟩ := draws
  exact kept_same rfl

theorem kept_save (k : Kernel) (a : Nat) : Kept k (saveStack k (getPcb k)) a := by
  by_cases running : a = getPcb k
  · subst running
    refine ⟨fun other => absurd rfl other,?_⟩
    simp [saveStack,setPcb,ownOf]
  · exact kept_same (Function.update_of_ne running _ _)

/-- A new process gets a control block of its own. -/
theorem kept_spawned (k : Kernel) {pid a : Nat} (parsed : Parsed) (page : Nat → UInt8) (other : a ≠ pcbAddress pid) :
    Kept k (spawned k pid parsed page) a := by
  have stored : (spawned k pid parsed page).pcbs a =
      (if (executingTerm k).numProcs = 0 then k.pcbs else (saveStack k (getPcb k)).pcbs) a :=
    Function.update_of_ne other _ _
  have saved := kept_save k a
  split at stored
  · exact kept_same stored
  · exact ⟨fun apart => stored.trans (saved.frame apart),(congrArg ownOf stored).trans saved.own⟩

/-- A free process ID is that of no live process. -/
theorem address_free (represents : Represents S (tableOf k)) {pid q : Nat} (low : 1 ≤ pid) (high : pid ≤ maxProcesses)
    (free : k.availablePids (pid - 1) = 0) (held : Held S.family q) : pcbAddress q ≠ pcbAddress pid := by
  intro same
  have valid := represents.tabled.valid q held
  have equal := pcbAddress_inj valid.1 valid.2 low high same
  subst equal
  exact fresh_of_free represents.tabled free held

theorem kept_execute (represents : Represents S (tableOf k)) {fuel : Nat} {command : Command} {result : Executed}
    (executed : Syscalls.execute fs fuel k command = .ok result) {q : Nat} (held : Held S.family q) :
    Kept k (match result with | .returned _ k => k | .started _ k => k) (pcbAddress q) := by
  rcases execute_cases executed with ⟨_,_,rfl,_⟩ | ⟨_,pid,parsed,page,rfl,low,high,free,_⟩
  · exact kept_draws (execute_returned executed) _
  · exact kept_spawned k parsed page (address_free represents low high free held)

theorem kept_trans {shown : Kernel} {a : Nat} (first : Kept k shown a) (second : Kept shown after a)
    (running : getPcb shown = getPcb k) : Kept k after a :=
  ⟨fun other => (second.frame (running ▸ other)).trans (first.frame other),second.own.trans first.own⟩

theorem remapVidmem_pcbs (k : Kernel) (process frame : Nat) : (remapVidmem k process frame).pcbs = k.pcbs := by
  unfold remapVidmem
  split <;> rfl

/-- A switch stores the stack pointers of the running process at most. -/
theorem kept_switch (represents : Represents S (tableOf k)) (valid : ValidShell fs) {fuel termNum : Nat}
    (switched : switchActiveTerminal fs fuel k termNum = .ok after) {q : Nat} (held : Held S.family q) :
    Kept k after (pcbAddress q) := by
  obtain ⟨_,⟨_,rfl⟩ | ⟨_,_,rfl⟩ | ⟨_,available,hidden,hid,resumed⟩⟩ := switchActiveTerminal_ok switched
  · exact kept_same rfl
  · exact kept_trans (kept_draws (printf_draws k notAvailableMessage) _) (kept_same rfl)
      (congrArg Table.running (tableOf_draws (printf_draws k notAvailableMessage)))
  · have table := tableOf_shown hid termNum
    have running : getPcb (showTerminal hidden termNum) = getPcb k := congrArg Table.running table
    have shown : Kept k (showTerminal hidden termNum) (pcbAddress q) := by
      obtain ⟨process,_,rfl⟩ := hideActive_ok hid
      exact kept_same (congrFun (remapVidmem_pcbs (backedUp k) process _) _)
    refine kept_trans shown ?_ running
    by_cases bare : (activeTerm (showTerminal hidden termNum)).numProcs = 0
    · have empty : (k.terminals termNum).numProcs = 0 := (shown_numProcs table).symm.trans bare
      obtain ⟨eip,executed⟩ := resume_opens (steady_of_represents represents) valid table bare empty available resumed
      obtain ⟨pid,parsed,page,rfl,low,high,free,_⟩ := execute_started executed
      have free' : k.availablePids (pid - 1) = 0 := (congrFun (congrArg Table.pids table) _).symm.trans free
      have saved := kept_save (showTerminal hidden termNum) (pcbAddress q)
      have opened : Kept (showTerminal hidden termNum) (opening (showTerminal hidden termNum)) (pcbAddress q) :=
        ⟨saved.frame,saved.own⟩
      exact kept_trans opened (kept_spawned _ parsed page (address_free represents low high free' held)) rfl
    · obtain ⟨process,_,rfl⟩ := resume_maps bare resumed
      exact kept_same (congrFun (remapVidmem_pcbs _ process _) _)

/-- The end of a process changes no other control block, but for that of a new
    shell. -/
theorem frame_ending (represents : Represents S (tableOf k)) {before : Kernel} {fuel : Nat} {status : UInt8}
    (ended : tableOf before = tableOf k ∨ tableOf before = (tableOf k).raise)
    (others : ∀ a, a ≠ getPcb k → before.pcbs a = k.pcbs a) (halted : Syscalls.halt fs fuel before status = .ok after)
    {q : Nat} (held : Held S.family q) (other : pcbAddress q ≠ getPcb k) :
    after.pcbs (pcbAddress q) = k.pcbs (pcbAddress q) := by
  rcases ending_cases represents ended halted with ⟨_,_,⟨_,rfl⟩,_⟩ | ⟨_,eip,executed⟩
  · exact others _ other
  · obtain ⟨pid,parsed,page,rfl,low,high,free,_⟩ := execute_started executed
    obtain ⟨_,running,pids,_⟩ := ending_same ended
    have cleared := tableOf_draws (clearSetpos_draws (popped before) 0 0)
    have running' : getPcb (clearSetpos (popped before) 0 0) = getPcb k := (congrArg Table.running cleared).trans running
    have apart : pcbAddress q ≠ pcbAddress pid := by
      intro same
      have valid := represents.tabled.valid q held
      have equal := pcbAddress_inj valid.1 valid.2 low high same
      subst equal
      have pids' : (clearSetpos (popped before) 0 0).availablePids = (popped before).availablePids :=
        congrArg Table.pids cleared
      obtain ⟨p,live,_,isRunning,_⟩ := running_live represents
      have number : (before.pcbs (getPcb before)).pid = p := by
        obtain ⟨_,core⟩ := ending_core ended (getPcb k)
        rw [running]
        refine (congrArg Core.pid core).trans ?_
        have block := (represents.tabled.blocks p live).number
        rwa [← isRunning] at block
      have distinct : q - 1 ≠ (before.pcbs (getPcb before)).pid - 1 := by
        rw [number]
        refine pid_of_used valid.1 (represents.tabled.valid p live).1 ?_
        rintro rfl
        exact other isRunning.symm
      rw [pids'] at free
      simp only [popped,Function.update_of_ne distinct,pids] at free
      exact fresh_of_free represents.tabled free held
    have spawned := (kept_spawned (clearSetpos (popped before) 0 0) parsed page apart).frame (running' ▸ other)
    rw [spawned]
    obtain ⟨_,_,_,drew⟩ := clearSetpos_draws (popped before) 0 0
    rw [drew]
    exact others _ other

theorem kept_vidmap (k : Kernel) (screenStart a : Nat) : Kept k (vidmap k screenStart).2.1 a := by
  unfold vidmap
  split
  · exact kept_same rfl
  · by_cases running : a = getPcb k
    · subst running
      refine ⟨fun other => absurd rfl other,?_⟩
      simp [setPcb,ownOf,getPcb]
    · exact kept_same (Function.update_of_ne running _ _)

/-- A step that ends no process. -/
theorem kept_op (represents : Represents S (tableOf k)) (valid : ValidShell fs) {op : Op} (goesOn : endValue op = none)
    (taken : Steps.step fs k op = .ok after) {q : Nat} (held : Held S.family q) : Kept k after (pcbAddress q) := by
  cases op with
  | halt fuel status => cases goesOn
  | exception fuel text => cases goesOn
  | trap => cases taken; exact kept_same rfl
  | frame esp ebp =>
    simp only [Steps.step] at taken
    split at taken <;> cases taken
    exact kept_same rfl
  | execute fuel command =>
    obtain ⟨result,executed,ended⟩ := bind_eq_ok.mp taken
    have kept := kept_execute represents executed held
    cases result with
    | returned _ _ => cases ended; exact kept
    | started _ _ => cases ended; exact kept
  | vidmap screenStart => cases taken; exact kept_vidmap k screenStart _
  | pit =>
    rcases pitInterruptHandler_ok taken with rfl | ⟨next,_,switched⟩
    · exact kept_same rfl
    · obtain ⟨newPcb,_,_,rfl⟩ := contextSwitch_ok switched
      have saved := kept_save k (pcbAddress q)
      exact ⟨saved.frame,saved.own⟩
  | switchTo fuel termNum => exact kept_switch represents valid taken held

/-- A step changes no control block of a live process that does not run. -/
theorem op_frame (represents : Represents S (tableOf k)) (valid : ValidShell fs) {op : Op}
    (taken : Steps.step fs k op = .ok after) {q : Nat} (held : Held S.family q) (other : pcbAddress q ≠ getPcb k) :
    after.pcbs (pcbAddress q) = k.pcbs (pcbAddress q) := by
  cases op with
  | halt fuel status => exact frame_ending represents (.inl rfl) (fun _ _ => rfl) taken held other
  | exception fuel text =>
    refine frame_ending represents (.inr (tableOf_raised k text)) ?_ taken held other
    obtain ⟨_,_,_,drew⟩ := printf_draws k text
    intro a apart
    have running : getPcb (printf k text) = getPcb k := by rw [drew]; rfl
    rw [setPcb,running,drew]
    exact Function.update_of_ne apart _ _
  | trap | frame | execute | vidmap | pit | switchTo => exact (kept_op represents valid rfl taken held).frame other

/-! ### Calls -/

/-- A call on descriptors changes the descriptor table of the running process at
    most. -/
theorem doCall_fds {call : Call} {value : Int} {bytes : List UInt8} (done : doCall fs k call = .ok (value,bytes,after)) :
    ∃ fds drawn, Draws k drawn ∧ after = setPcb drawn (getPcb k) { k.pcbs (getPcb k) with fds := fds } := by
  have unchanged : ∀ {l : Kernel}, Draws k l →
      ∃ fds drawn, Draws k drawn ∧ l = setPcb drawn (getPcb k) { k.pcbs (getPcb k) with fds := fds } := by
    intro l draws
    refine ⟨fdsOf k,l,draws,?_⟩
    obtain ⟨_,_,_,rfl⟩ := draws
    exact congrArg (fun pcbs => { drawn k _ _ _ with pcbs := pcbs }) (Function.update_eq_self _ _).symm
  have stored : ∀ i file, ∃ fds drawn, Draws k drawn ∧
      setFd k i file = setPcb drawn (getPcb k) { k.pcbs (getPcb k) with fds := fds } :=
    fun i file => ⟨_,k,draws_refl k,rfl⟩
  cases call with
  | «open» filename =>
    simp only [doCall,Except.ok.injEq,Prod.mk.injEq] at done
    obtain ⟨_,_,rfl⟩ := done
    rcases sysOpen_cases fs k filename with ⟨refused,_⟩ | ⟨_,i,_,_,_,_,_,opened⟩
    · rw [refused]
      exact unchanged (draws_refl k)
    · rw [opened]
      exact stored i _
  | close fd =>
    obtain ⟨⟨_,_⟩,closed,same⟩ := bind_eq_ok.mp done
    cases same
    rcases sysClose_cases closed with ⟨_,rfl,_⟩ | ⟨i,_,_,_,_,rfl⟩
    · exact unchanged (draws_refl _)
    · exact stored i _
  | read fd address buf nbytes line =>
    obtain ⟨⟨_,_,_⟩,read,same⟩ := bind_eq_ok.mp done
    cases same
    rcases sysRead_cases read with draws | ⟨_,i,pos,_,_,_,_,rfl⟩
    · exact unchanged draws
    · exact stored i _
  | write fd address buf nbytes =>
    obtain ⟨⟨_,_⟩,written,same⟩ := bind_eq_ok.mp done
    cases same
    exact unchanged (sysWrite_draws written)

theorem draws_pcbs {drawn : Kernel} (draws : Draws k drawn) : drawn.pcbs = k.pcbs := by
  obtain ⟨_,_,_,rfl⟩ := draws
  rfl

/-- A call on descriptors changes the control block of the running process only,
    and there no more than the descriptor table. -/
theorem doCall_kept {call : Call} {value : Int} {bytes : List UInt8} (done : doCall fs k call = .ok (value,bytes,after))
    (a : Nat) : (a ≠ getPcb k → after.pcbs a = k.pcbs a) ∧
      ∃ fds, ownOf (after.pcbs a) = { ownOf (k.pcbs a) with fds := fds } := by
  obtain ⟨fds,drawn,draws,rfl⟩ := doCall_fds done
  by_cases running : a = getPcb k
  · subst running
    refine ⟨fun other => absurd rfl other,fds,?_⟩
    simp [setPcb,ownOf]
  · have kept : (setPcb drawn (getPcb k) { k.pcbs (getPcb k) with fds := fds }).pcbs a = k.pcbs a := by
      rw [← draws_pcbs draws]
      exact Function.update_of_ne running _ _
    exact ⟨fun _ => kept,(k.pcbs a).fds,congrArg ownOf kept⟩

/-- The results of a call, and the descriptor table after it. -/
def outcome (fs : Fs) (k : Kernel) (call : Call) : Checked (Int × List UInt8 × (Nat → FileDesc)) :=
  doCall fs k call >>= fun (value,bytes,after) => .ok (value,bytes,fdsOf after)

theorem fsRead_same {l : Kernel} (same : fdsOf l = fdsOf k) (fd : Nat) (buf : Nat → UInt8) (nbytes : Int) :
    (fsRead fs l fd buf nbytes >>= fun (value,after,buf) => .ok (value,fdsOf after,buf)) =
      (fsRead fs k fd buf nbytes >>= fun (value,after,buf) => (.ok (value,fdsOf after,buf) : Checked _)) := by
  unfold fsRead
  simp only [same]
  split
  · split
    · split
      · split
        · rfl
        · simp [same]
      · simp [same]
    · simp [same]
  · split
    · rw [bind_assoc,bind_assoc]
      congr 1
      funext (bytesRead,after)
      simp only
      split <;> simp [same]
    · simp [same]

theorem terminalRead_same {l : Kernel} (same : fdsOf l = fdsOf k) (line : List UInt8) (buf : Nat → UInt8) (nbytes : Int) :
    (terminalRead l line buf nbytes >>= fun (value,after,buf) => .ok (value,fdsOf after,buf)) =
      (terminalRead k line buf nbytes >>= fun (value,after,buf) => (.ok (value,fdsOf after,buf) : Checked _)) := by
  have cleared (k : Kernel) : fdsOf (clearSetpos k 0 0) = fdsOf k := fdsOf_draws (clearSetpos_draws k 0 0)
  unfold terminalRead
  simp only
  generalize (if line.length < unsigned nbytes then line.length else unsigned nbytes) = size
  split
  · split
    · rfl
    · simp [cleared,same]
  · simp [same]

/-- The results of a call and the descriptor table after it depend on the
    descriptor table before it only. -/
theorem outcome_same {l : Kernel} (same : fdsOf l = fdsOf k) (call : Call) : outcome fs l call = outcome fs k call := by
  cases call with
  | «open» filename =>
    simp only [outcome,doCall,ok_bind,sysOpen,same]
    split
    · simp [same]
    · split
      · simp [same]
      · split
        · simp [same]
        · split
          · split <;> simp [same]
          · split <;> simp [same]
  | close fd =>
    simp only [outcome,doCall,bind_assoc,sysClose,same]
    split
    · simp [same]
    · split
      · split <;> simp [same]
      · simp [same]
  | read fd address buf nbytes line =>
    have all : (sysRead fs l fd address buf nbytes line >>= fun (value,after,buf) => .ok (value,fdsOf after,buf)) =
        (sysRead fs k fd address buf nbytes line >>= fun (value,after,buf) =>
          (.ok (value,fdsOf after,buf) : Checked _)) := by
      simp only [sysRead,same]
      split
      · simp [same]
      · split
        · simp [same]
        · split
          · split
            · rfl
            · exact fsRead_same same _ buf nbytes
            · simp [same]
            · exact terminalRead_same same line buf nbytes
            · simp [same]
          · simp [same]
    have further := congrArg (fun r : Checked (Int × (Nat → FileDesc) × (Nat → UInt8)) =>
      r >>= fun x => (.ok (x.1,taken x.2.2 x.1.toNat,x.2.1) : Checked _)) all
    simp only [bind_assoc,ok_bind] at further
    simp only [outcome,doCall,bind_assoc,ok_bind]
    exact further
  | write fd address buf nbytes =>
    have wrote (k : Kernel) : fdsOf (terminalWrite k (taken buf nbytes.toNat)) = fdsOf k :=
      fdsOf_draws (terminalWrite_draws k _)
    simp only [outcome,doCall,bind_assoc,sysWrite,same]
    split
    · simp [same]
    · split
      · simp [same]
      · split
        · split <;> simp [same,wrote]
        · simp [same]

/-! ### Stacks of processes at one step -/

/-- A step that ends no process takes none from the stacks of the terminals. -/
theorem step_grows (represents : Represents S (tableOf k)) (valid : ValidShell fs) {op : Op} (goesOn : endValue op = none)
    (taken : Steps.step fs k op = .ok after) :
    ∃ S', Represents S' (tableOf after) ∧ ∀ t, S.family.stack t <+: S'.family.stack t := by
  have same : ∀ {T : Table}, Represents S T → T = tableOf after →
      ∃ S', Represents S' (tableOf after) ∧ ∀ t, S.family.stack t <+: S'.family.stack t := by
    rintro T next rfl
    exact ⟨S,next,fun t => List.prefix_rfl⟩
  have pushed : ∀ {t pid : Nat} (fresh : ¬ Held S.family pid), Represents ⟨push S.family t pid fresh,t⟩ (tableOf after) →
      ∃ S', Represents S' (tableOf after) ∧ ∀ t, S.family.stack t <+: S'.family.stack t := by
    intro t pid fresh next
    refine ⟨_,next,fun u => ?_⟩
    by_cases here : u = t
    · subst here
      rw [stack_push_self]
      exact List.prefix_append _ _
    · rw [stack_push_other here]
  cases op with
  | halt fuel status => cases goesOn
  | exception fuel text => cases goesOn
  | trap =>
    cases taken
    have next : Represents S { tableOf k with esp := k.tssEsp0, ebp := k.ebp } :=
      represents_goes represents (steady_of_represents represents).stack
    exact same next rfl
  | frame esp ebp =>
    simp only [Steps.step] at taken
    split at taken
    · rename_i inPage
      cases taken
      have next : Represents S { tableOf k with esp := esp, ebp := ebp } := represents_goes represents inPage
      exact same next rfl
    · cases taken
  | execute fuel command =>
    obtain ⟨result,executed,ended⟩ := bind_eq_ok.mp taken
    cases result with
    | returned _ l =>
      cases ended
      exact same represents (tableOf_draws (execute_returned executed)).symm
    | started eip l =>
      cases ended
      obtain ⟨pid,low,high,free,_,table⟩ := execute_change executed
      have some : (executingTerm k).numProcs ≠ 0 := Nat.pos_iff_ne_zero.mp (steady_of_represents represents).some
      rw [if_neg some] at table
      obtain ⟨fresh,next⟩ := represents_calls represents low high free
      rw [← table] at next
      exact pushed fresh next
  | vidmap screenStart =>
    cases taken
    have table := tableOf_vidmap k screenStart
    split at table
    · exact same represents table.symm
    · exact same (represents_maps represents) table.symm
  | pit =>
    have change := step_change (steady_of_represents represents) valid taken
    rcases pitInterruptHandler_ok taken with rfl | ⟨next,other,switched⟩
    · exact same represents rfl
    · have moved : (tableOf after).execTerm ≠ (tableOf k).execTerm := by
        obtain ⟨_,_,_,rfl⟩ := contextSwitch_ok switched
        exact other
      obtain ⟨T',table⟩ : ∃ T', T' = tableOf after := ⟨_,rfl⟩
      rw [← table] at change moved
      -- Of the changes, two go to another terminal.
      cases change with
      | goes | maps | calls => exact absurd rfl moved
      | opens t pid inside low high free bare =>
        obtain ⟨fresh,next⟩ := represents_opens represents inside low high free bare
        exact pushed fresh (table ▸ next)
      | switches t inside other some =>
        exact ⟨⟨S.family,t⟩,table ▸ (represents_switches represents inside some).2,fun t => List.prefix_rfl⟩
      | returns U ended child =>
        rcases ended with rfl | rfl <;> exact absurd rfl moved
      | restarts U pid ended root low high free =>
        rcases ended with rfl | rfl <;> exact absurd rfl moved
  | switchTo fuel termNum =>
    rcases switch_change (steady_of_represents represents) valid taken with table | ⟨inside,bare,_,pid,low,high,free,table⟩
    · exact same represents table.symm
    · obtain ⟨fresh,next⟩ := represents_opens represents inside low high free bare
      rw [← table] at next
      exact pushed fresh next

/-- A step that ends the running process takes it from its stack. Its parent runs
    then, or a new shell where it was the first process. -/
theorem step_ends (represents : Represents S (tableOf k)) {op : Op} {value : Int} (ends : endValue op = some value)
    (taken : Steps.step fs k op = .ok after) :
    ((k.pcbs (getPcb k)).parent ≠ 0 ∧ Represents ⟨pop S.family S.exec,S.exec⟩ (tableOf after)) ∨
    ((k.pcbs (getPcb k)).parent = 0 ∧ ∃ pid, ∃ fresh : ¬ Held (pop S.family S.exec) pid,
      Represents ⟨push (pop S.family S.exec) S.exec pid fresh,S.exec⟩ (tableOf after)) := by
  have halts : ∀ {before : Kernel} {fuel : Nat} {status : UInt8},
      (tableOf before = tableOf k ∨ tableOf before = (tableOf k).raise) →
      Syscalls.halt fs fuel before status = .ok after →
      ((k.pcbs (getPcb k)).parent ≠ 0 ∧ Represents ⟨pop S.family S.exec,S.exec⟩ (tableOf after)) ∨
      ((k.pcbs (getPcb k)).parent = 0 ∧ ∃ pid, ∃ fresh : ¬ Held (pop S.family S.exec) pid,
        Represents ⟨push (pop S.family S.exec) S.exec pid fresh,S.exec⟩ (tableOf after)) := by
    intro before fuel status ended halted
    rcases halt_change (steady_of_represents represents) ended halted with ⟨child,table⟩ | ⟨root,pid,low,high,free,table⟩
    · rw [table]
      exact .inl ⟨child,represents_returns represents ended child⟩
    · rw [table]
      exact .inr ⟨root,pid,represents_restarts represents ended root low high free⟩
  cases op with
  | halt fuel status => exact halts (.inl rfl) taken
  | exception fuel text => exact halts (.inr (tableOf_raised k text)) taken
  | trap | frame | execute | vidmap | pit | switchTo => cases ends

/-- A process that does not end stays on its stack. -/
theorem held_stays (represents : Represents S (tableOf k)) (valid : ValidShell fs) {op : Op} {q : Nat}
    (held : Held S.family q) (stays : endValue op = none ∨ getPcb k ≠ pcbAddress q)
    (taken : Steps.step fs k op = .ok after) : ∃ S', Represents S' (tableOf after) ∧ Held S'.family q := by
  cases ends : endValue op with
  | none =>
    obtain ⟨S',next,grows⟩ := step_grows represents valid ends taken
    obtain ⟨t,member⟩ := held
    exact ⟨S',next,t,(grows t).subset member⟩
  | some value =>
    have other : getPcb k ≠ pcbAddress q := by
      rcases stays with goesOn | other
      · rw [ends] at goesOn; cases goesOn
      · exact other
    obtain ⟨p,_,newest,running,_⟩ := running_live represents
    rw [represents.exec] at newest
    have kept : Held (pop S.family S.exec) q := by
      refine (held_pop newest).mpr ⟨held,?_⟩
      rintro rfl
      exact other running
    rcases step_ends represents ends taken with ⟨_,next⟩ | ⟨_,pid,fresh,next⟩
    · exact ⟨_,next,kept⟩
    · exact ⟨_,next,(held_push fresh).mpr (.inl kept)⟩

end

/-! ### Runs -/

/-- The calls with these results take a process from one descriptor table to
    another when nothing happens between them. -/
def Alone (fs : Fs) (before : Nat → FileDesc) (calls : List Done) (after : Nat → FileDesc) : Prop :=
  ∀ k, fdsOf k = before → ∃ last, run (callStep fs) (k,[]) (calls.map Done.call) = .ok (last,calls) ∧ fdsOf last = after

theorem alone_nil (fs : Fs) (fds : Nat → FileDesc) : Alone fs fds [] fds := fun k same => ⟨k,rfl,same⟩

/-- One more call on descriptors. -/
theorem alone_snoc {fs : Fs} {before : Nat → FileDesc} {calls : List Done} {k after : Kernel} {call : Call} {value : Int}
    {bytes : List UInt8} (alone : Alone fs before calls (fdsOf k)) (done : doCall fs k call = .ok (value,bytes,after)) :
    Alone fs before (calls ++ [⟨call,value,bytes⟩]) (fdsOf after) := by
  intro first start
  obtain ⟨last,ran,same⟩ := alone first start
  have outcome : outcome fs last call = .ok (value,bytes,fdsOf after) := by
    rw [outcome_same same,outcome,done,ok_bind]
  obtain ⟨⟨value',bytes',after'⟩,done',equal⟩ := bind_eq_ok.mp outcome
  simp only [Except.ok.injEq,Prod.mk.injEq] at equal
  obtain ⟨rfl,rfl,same'⟩ := equal
  refine ⟨after',?_,same'⟩
  rw [List.map_append,run_append]
  exact ⟨_,ran,(run_cons _ _ _ _).mpr ⟨_,callStep_ok.mpr ⟨_,_,done',rfl⟩,rfl⟩⟩

/-- What is known of a process in a run in which it does not end. -/
structure Follows (fs : Fs) (p : Nat) (first m : Machine) : Prop where
  represents : ∃ S, Represents S (tableOf m.kernel) ∧ ∃ q, Held S.family q ∧ pcbAddress q = p
  calls : ∃ calls, m.logs p = first.logs p ++ calls ∧
    Alone fs (first.kernel.pcbs p).fds calls (m.kernel.pcbs p).fds
  args : (m.kernel.pcbs p).args = (first.kernel.pcbs p).args
  argsLength : (m.kernel.pcbs p).argsLength = (first.kernel.pcbs p).argsLength
  parent : (m.kernel.pcbs p).parent = (first.kernel.pcbs p).parent

section
variable {fs : Fs} {p : Nat} {first m after : Machine}

/-- A call on descriptors changes no part of the table. -/
theorem tableOf_call {k after : Kernel} {call : Call} {value : Int} {bytes : List UInt8}
    (done : doCall fs k call = .ok (value,bytes,after)) : tableOf after = tableOf k := by
  obtain ⟨fds,drawn,draws,rfl⟩ := doCall_fds done
  have pcbs : drawn.pcbs = k.pcbs := draws_pcbs draws
  have cores : coreOf ∘ (setPcb drawn (getPcb k) { k.pcbs (getPcb k) with fds := fds }).pcbs = coreOf ∘ drawn.pcbs := by
    rw [setPcb,Function.comp_update,pcbs]
    exact Function.update_eq_self _ (coreOf ∘ k.pcbs)
  have vids : Pcb.vidmemVirtAddr ∘ (setPcb drawn (getPcb k) { k.pcbs (getPcb k) with fds := fds }).pcbs =
      Pcb.vidmemVirtAddr ∘ drawn.pcbs := by
    apply vids_update
    rw [pcbs]
  rw [← tableOf_draws draws]
  simp only [tableOf,cores,vids]
  rfl

theorem step_follows (valid : ValidShell fs) (follows : Follows fs p first m) {e : Event} (stays : Stays p m e)
    (taken : step fs m e = .ok after) : Follows fs p first after := by
  obtain ⟨S,represents,q,held,rfl⟩ := follows.represents
  obtain ⟨calls,logged,alone⟩ := follows.calls
  cases e with
  | op op =>
    obtain ⟨k,stepped,same⟩ := bind_eq_ok.mp taken
    cases same
    obtain ⟨S',next,held'⟩ := held_stays represents valid held stays stepped
    have own : ownOf (k.pcbs (pcbAddress q)) = ownOf (m.kernel.pcbs (pcbAddress q)) := by
      rcases stays with goesOn | other
      · exact (kept_op represents valid goesOn stepped held).own
      · exact congrArg ownOf (op_frame represents valid stepped held (Ne.symm other))
    refine ⟨⟨S',next,q,held',rfl⟩,⟨calls,logged,?_⟩,?_,?_,?_⟩
    · rw [show (k.pcbs (pcbAddress q)).fds = _ from congrArg Own.fds own]
      exact alone
    · exact (congrArg Own.args own).trans follows.args
    · exact (congrArg Own.argsLength own).trans follows.argsLength
    · exact (congrArg Own.parent own).trans follows.parent
  | call call =>
    obtain ⟨⟨value,bytes,k⟩,done,same⟩ := bind_eq_ok.mp taken
    cases same
    have table := tableOf_call done
    have running : getPcb k = getPcb m.kernel := congrArg Table.running table
    obtain ⟨frame,fds,owned⟩ := doCall_kept done (pcbAddress q)
    refine ⟨⟨S,table ▸ represents,q,held,rfl⟩,?_,?_,?_,?_⟩
    · by_cases own : pcbAddress q = getPcb m.kernel
      · refine ⟨calls ++ [⟨call,value,bytes⟩],?_,?_⟩
        · rw [own]
          refine (Function.update_self _ _ _).trans ?_
          rw [← own,logged,List.append_assoc]
        · have further := alone_snoc (k := m.kernel) (by rw [fdsOf,← own]; exact alone) done
          rwa [fdsOf,running,← own] at further
      · refine ⟨calls,?_,?_⟩
        · exact (Function.update_of_ne own _ _).trans logged
        · rw [frame own]
          exact alone
    · exact (congrArg Own.args owned).trans follows.args
    · exact (congrArg Own.argsLength owned).trans follows.argsLength
    · exact (congrArg Own.parent owned).trans follows.parent

end

/-- The table of every reachable machine stands for a schedule. -/
theorem machine_represents {fs : Fs} (valid : ValidShell fs) {m : Machine} (reached : Reachable (step fs) (Booted fs) m) :
    ∃ S, Represents S (tableOf m.kernel) := by
  have initially : ∀ m, Booted fs m → ∃ S, Represents S (tableOf m.kernel) := by
    intro m booted
    obtain ⟨S,represents,_⟩ := started_represents booted.started
    exact ⟨S,represents⟩
  have keeps : ∀ m e after, (∃ S, Represents S (tableOf m.kernel)) → step fs m e = .ok after →
      ∃ S, Represents S (tableOf after.kernel) := by
    rintro m e after ⟨S,represents⟩ taken
    cases e with
    | op op =>
      obtain ⟨k,stepped,same⟩ := bind_eq_ok.mp taken
      cases same
      obtain ⟨S',_,next⟩ := step_represents valid represents stepped
      exact ⟨S',next⟩
    | call call =>
      obtain ⟨⟨value,bytes,k⟩,done,same⟩ := bind_eq_ok.mp taken
      cases same
      exact ⟨S,tableOf_call done ▸ represents⟩
  exact reachable_invariant initially keeps reached

theorem reachable_booted {fs : Fs} {k : Kernel} (started : Started fs k) :
    Reachable (step fs) (Booted fs) ⟨k,fun _ => []⟩ :=
  reachable_start ⟨started,fun _ => rfl⟩

/-- The first shell opens a file and starts another shell, which opens files too; the
    second terminal is opened, and its shell does so. After a timer interrupt and the
    end of the second shell the first one reads its file. -/
def sharedEvents : List Event :=
  [.call (.open shellCommand.bytes),.op (.execute 253 shellCommand),.call (.open shellCommand.bytes),
    .call (.read 2 1 (fun _ => 0) 3 []),.op (.switchTo 253 1),.call (.open shellCommand.bytes),.op .pit,
    .op (.halt 253 7),.call (.read 2 1 (fun _ => 0) 4 [])]

end MazeOS.Undisturbed
