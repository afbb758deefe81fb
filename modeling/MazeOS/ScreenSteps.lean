import MazeOS.Screens
import MazeOS.VidmapPage
import MazeOS.Keyboard

/-!
What the events of the whole system do to the three screens. A kernel that
stands for a schedule and whose display is arranged stays so (`Displayed`) under
every operation on processes (`op_displayed`) and every key (`key_displayed`).
`halt_screens` says which screens the end of a process changes, and
`store_screens` and `place_screens` what one store and one new cursor do.
-/
namespace MazeOS.ScreenSteps
open MazeOS.Runs MazeOS.Faults MazeOS.Filesystem MazeOS.Paging MazeOS.State MazeOS.Display MazeOS.Process
  MazeOS.Syscalls MazeOS.Terminal MazeOS.Steps MazeOS.Tables MazeOS.Stacks MazeOS.ProcessTable MazeOS.Windows
  MazeOS.Screens MazeOS.Keyboard

/-- The kernel stands for a schedule, and its display is arranged. -/
structure Displayed (k : Kernel) : Prop where
  represents : ∃ S, Represents S (tableOf k)
  arranged : Arranged k

section
variable {S : Schedule} {k l before after : Kernel}

/-- The last process of a terminal has the video page or none. -/
theorem vids_of_tabled {s : Family Nat Nat} (tabled : Tabled s (tableOf k)) : Vids k := by
  intro t inside address found
  obtain ⟨some,_,last,_⟩ := lastProc_ok.mp found
  have size : (k.terminals t).numProcs = (s.stack t).length := tabled.sizes t inside
  have below : (k.terminals t).numProcs - 1 < (s.stack t).length := by omega
  have place := List.getElem?_eq_getElem below
  have same : (k.terminals t).childProcs ((k.terminals t).numProcs - 1) = _ := tabled.places t _ _ place
  rw [← last,same]
  exact tabled.vids _ (held_of_get place)

/-- The display of a kernel with new tables is arranged when it is the same. -/
theorem arranged_tabled {s : Family Nat Nat} (arranged : Arranged k) (tabled : Tabled s (tableOf after))
    (exec : after.execTerm < maxTerminals) (same : SameDisplay k after) : Arranged after :=
  arranged_same arranged same exec (vids_of_tabled tabled)

theorem arranged_represents (arranged : Arranged k) (represents : Represents S (tableOf after))
    (same : SameDisplay k after) : Arranged after :=
  arranged_tabled arranged represents.tabled (steady_of_represents represents).exec same

/-! ### One store, one cursor -/

theorem store_screens (arranged : Arranged k) {t base i : Nat} (inside : t < maxTerminals)
    (maps : Maps (translate k.paging) base (frameOf k t)) (within : i < pageSize) (b : UInt8) :
    Arranged { k with phys := store (translate k.paging) k.phys (base + i) b } ∧ ∀ u, u < maxTerminals →
      logical { k with phys := store (translate k.paging) k.phys (base + i) b } u =
        if u = t then { logical k t with mem := Function.update (logical k t).mem i b } else logical k u := by
  have mirrors := mirrors_store maps (mirrors_pageAt k.phys (frameOf k t)) within b
  have inRange := arranged.inRange t inside
  have stored := withScreen_screens arranged inside
    (s := ⟨store (translate k.paging) k.phys (base + i) b,(k.terminals t).xPos,(k.terminals t).yPos⟩) mirrors inRange
  rw [withScreen_still] at stored
  exact stored

theorem place_screens (arranged : Arranged k) {t x y : Nat} (inside : t < maxTerminals) (column : x < numCols)
    (row : y < numRows) :
    Arranged (withScreen k t ⟨k.phys,x,y⟩) ∧ ∀ u, u < maxTerminals →
      logical (withScreen k t ⟨k.phys,x,y⟩) u = if u = t then ⟨(logical k t).mem,x,y⟩ else logical k u :=
  withScreen_screens arranged inside (mirrors_pageAt k.phys (frameOf k t)) ⟨column,row⟩

/-- The screen of a terminal after `clear_setpos(0, 0)`. -/
def homed (t : Nat) (s : Screen) : Screen := ⟨(Write.clear.on (attribs t) s).mem,0,0⟩

theorem clearSetpos_screens (arranged : Arranged k) :
    Arranged (clearSetpos k 0 0) ∧ ∀ u, u < maxTerminals →
      logical (clearSetpos k 0 0) u = if u = k.currTerminal then homed u (logical k u) else logical k u := by
  have cleared := clear_drew arranged
  obtain ⟨placed,screens⟩ := place_screens cleared.arranged (t := k.currTerminal) arranged.current columns_pos
    (Nat.lt_of_lt_of_le Nat.zero_lt_one (by decide))
  have moved : SameDisplay _ (clearSetpos k 0 0) :=
    updateCursor_same (withScreen (clear k) k.currTerminal ⟨(clear k).phys,0,0⟩) 0 0
  refine ⟨arranged_same placed moved placed.exec placed.vids,?_⟩
  intro u within
  rw [logical_same moved,screens u within]
  by_cases active : u = k.currTerminal
  · rw [if_pos active,if_pos active,← active,cleared.screens u within]
    simp [alone,writesTo,active,homed]
  · rw [if_neg active,if_neg active,cleared.screens u within]
    simp [alone,writesTo,Ne.symm active]

theorem terminalWrite_arranged (arranged : Arranged k) (text : List UInt8) : Arranged (terminalWrite k text) := by
  induction text generalizing k with
  | nil => exact arranged
  | cons c rest ih => exact ih (putcBuffer_drew arranged c).arranged

/-! ### Operations on processes -/

theorem mapPage_same (k : Kernel) (pde : Pde4M) : SameDisplay k { k with paging := mapPage4MB k.paging _128MB pde } := by
  have low : directoryIndex videoMemStart ≠ directoryIndex _128MB := by decide
  have high : directoryIndex vidBkupMemStartVirt ≠ directoryIndex _128MB := by decide
  refine ⟨rfl,rfl,fun _ => ⟨rfl,rfl⟩,fun _ => ⟨rfl,rfl⟩,fun _ => rfl,?_,?_,rfl,rfl⟩
  · simp only [mapPage4MB,Function.update_of_ne low]
  · simp only [mapPage4MB,Function.update_of_ne high]

/-- Nothing that the display depends on has changed. -/
theorem unchanged_same (phys : after.phys = k.phys) (current : after.currTerminal = k.currTerminal)
    (terminals : after.terminals = k.terminals) (paging : after.paging = k.paging) : SameDisplay k after := by
  refine ⟨current,phys,?_,?_,?_,?_,?_,?_⟩
  · intro t; rw [terminals]; exact ⟨rfl,rfl⟩
  · intro t; rw [terminals]; exact ⟨rfl,rfl⟩
  · intro t; rw [terminals]
  · rw [paging]
  · rw [paging]
  · rw [paging]; exact ⟨rfl,rfl⟩

theorem sameDisplay_trans (first : SameDisplay k l) (second : SameDisplay l after) : SameDisplay k after := by
  refine ⟨second.current.trans first.current,second.phys.trans first.phys,?_,?_,?_,second.low.trans first.low,
    second.high.trans first.high,second.tables.1.trans first.tables.1,second.tables.2.trans first.tables.2⟩
  · intro t; exact ⟨(second.cursors t).1.trans (first.cursors t).1,(second.cursors t).2.trans (first.cursors t).2⟩
  · intro t; exact ⟨(second.backups t).1.trans (first.backups t).1,(second.backups t).2.trans (first.backups t).2⟩
  · intro t; exact (second.attrib t).trans (first.attrib t)

theorem popped_same (k : Kernel) : SameDisplay k (popped k) := by
  refine sameDisplay_update rfl ⟨rfl,rfl⟩ ⟨rfl,rfl⟩ rfl ?_
  refine ⟨rfl,rfl,fun _ => ⟨rfl,rfl⟩,fun _ => ⟨rfl,rfl⟩,fun _ => rfl,?_,?_,?_,?_⟩
  all_goals
    simp only [popped]
    split <;> rfl

/-- The end of a process, where `halt` starts from a kernel with the same table,
    or with an exception noted in it. Only a first process touches a screen,
    that of the active terminal. -/
theorem halt_screens {fs : Fs} {fuel : Nat} {status : UInt8} (represents : Represents S (tableOf k))
    (arranged : Arranged before) (ended : tableOf before = tableOf k ∨ tableOf before = (tableOf k).raise)
    (representsAfter : ∃ S', Represents S' (tableOf after)) (halted : Syscalls.halt fs fuel before status = .ok after) :
    Arranged after ∧ ∀ u, u < maxTerminals → logical after u =
      if (k.pcbs (getPcb k)).parent = 0 ∧ u = before.currTerminal then homed u (logical before u)
      else logical before u := by
  obtain ⟨S',represents'⟩ := representsAfter
  obtain ⟨p,live,newest,running,_⟩ := running_live represents
  have steady := steady_of_represents represents
  have tabled := tabled_pop represents.tabled newest running ended
  rw [← tableOf_popped] at tabled
  have exec : before.execTerm = k.execTerm := (ending_same ended).1
  have left : Arranged (popped before) := arranged_tabled arranged tabled (exec ▸ steady.exec) (popped_same before)
  rcases ending_cases represents ended halted with ⟨child,_,⟨_,same⟩,paged⟩ | ⟨root,eip,executed⟩
  · have unmoved : SameDisplay (popped before) after := by
      refine sameDisplay_trans (mapPage_same (popped before) (k.pcbs (k.pcbs (getPcb k)).parent).pde)
        (unchanged_same ?_ ?_ ?_ paged)
      · rw [same]; rfl
      · rw [same]; rfl
      · rw [same]; rfl
    refine ⟨arranged_represents left represents' unmoved,?_⟩
    intro u _
    rw [logical_same unmoved,logical_same (popped_same before),if_neg (fun both => child both.1)]
  · obtain ⟨cleared,screens⟩ := clearSetpos_screens left
    obtain ⟨pid,parsed,page,same,_⟩ := execute_started executed
    have unmoved : SameDisplay (clearSetpos (popped before) 0 0) after := by
      rw [same]
      exact spawned_same _ pid parsed page
    refine ⟨arranged_represents cleared represents' unmoved,?_⟩
    intro u within
    rw [logical_same unmoved,screens u within,logical_same (popped_same before)]
    simp only [root,true_and]
    rfl

theorem execute_arranged {fs : Fs} {fuel : Nat} {command : Command} {result : Executed} (arranged : Arranged k)
    (executed : Syscalls.execute fs fuel k command = .ok result) :
    match result with
    | .returned _ after => Arranged after
    | .started _ after => SameDisplay k after := by
  rcases execute_cases executed with ⟨_,after,rfl,unchanged | ⟨_,printed⟩⟩ | ⟨_,pid,parsed,page,rfl,_⟩
  · show Arranged after
    rw [unchanged]
    exact arranged
  · show Arranged after
    rw [printed]
    exact terminalWrite_arranged arranged maxProcessesMessage
  · exact spawned_same k pid parsed page

theorem contextSwitch_same {next : Nat} (represents : Represents S (tableOf k)) (switched : contextSwitch k next = .ok after) :
    SameDisplay k after := by
  obtain ⟨newPcb,inside,found,same⟩ := contextSwitch_ok switched
  obtain ⟨some,_,last,_⟩ := lastProc_ok.mp found
  obtain ⟨q,held,address⟩ := VidmapPage.lastOf_held represents inside some
  have virt : (k.pcbs newPcb).pdeVirtAddr = _128MB := by
    rw [← last,show (k.terminals next).childProcs ((k.terminals next).numProcs - 1) = pcbAddress q from address]
    exact (represents.tabled.blocks q held).pdeVirtAddr
  rw [same]
  refine sameDisplay_trans (mapPage_same k (k.pcbs newPcb).pde) (unchanged_same rfl rfl rfl ?_)
  simp only [virt]

/-- Every operation on processes keeps the display arranged. -/
theorem op_displayed {fs : Fs} {op : Op} (valid : ValidShell fs) (displayed : Displayed k)
    (taken : Steps.step fs k op = .ok after) : Displayed after := by
  obtain ⟨⟨S,represents⟩,arranged⟩ := displayed
  obtain ⟨S',_,represents'⟩ := step_represents valid represents taken
  refine ⟨⟨S',represents'⟩,?_⟩
  cases op with
  | trap =>
    cases taken
    exact arranged_represents arranged represents' (unchanged_same rfl rfl rfl rfl)
  | frame esp ebp =>
    simp only [Steps.step] at taken
    split at taken
    · cases taken
      exact arranged_represents arranged represents' (unchanged_same rfl rfl rfl rfl)
    · cases taken
  | execute fuel command =>
    obtain ⟨result,executed,ended⟩ := bind_eq_ok.mp taken
    have next := execute_arranged arranged executed
    cases result with
    | returned _ k' =>
      cases ended
      exact next
    | started _ k' =>
      cases ended
      exact arranged_represents arranged represents' next
  | halt fuel status => exact (halt_screens represents arranged (.inl rfl) ⟨S',represents'⟩ taken).1
  | exception fuel text =>
    have printed := (printf_drew arranged text).arranged
    have raised := tableOf_raised k text
    simp only [Steps.step,exception] at taken
    generalize printf k text = l at printed raised taken
    have noted : SameDisplay l (setPcb l (getPcb l) { l.pcbs (getPcb l) with retval := returnException }) :=
      unchanged_same rfl rfl rfl rfl
    have vids : Vids (setPcb l (getPcb l) { l.pcbs (getPcb l) with retval := returnException }) := by
      intro t inside address found
      have kept : ((setPcb l (getPcb l) { l.pcbs (getPcb l) with retval := returnException }).pcbs address).vidmemVirtAddr =
          (l.pcbs address).vidmemVirtAddr := congrFun (vids_update (by rfl)) address
      rw [kept]
      exact printed.vids t inside address found
    have arranged' := arranged_same printed noted printed.exec vids
    exact (halt_screens represents arranged' (.inr raised) ⟨S',represents'⟩ taken).1
  | vidmap screenStart =>
    cases taken
    refine arranged_represents arranged represents' ?_
    simp only [vidmap]
    split
    · exact unchanged_same rfl rfl rfl rfl
    · exact sameDisplay_trans (mapUser_same k ⟨true,true,true,videoMemIndex⟩) (unchanged_same rfl rfl rfl rfl)
  | pit =>
    rcases pitInterruptHandler_ok taken with rfl | ⟨next,_,switched⟩
    · exact arranged
    · exact arranged_represents arranged represents' (contextSwitch_same represents switched)
  | switchTo fuel termNum => exact (switch_drew arranged taken).arranged

/-! ### Keys -/

theorem tableOf_setLine (k : Kernel) (t : Nat) (line : Line) : tableOf (setLine k t line) = tableOf k := by
  simp only [tableOf,setLine,setTerminal,Function.comp_update,Table.mk.injEq,true_and,and_true]
  exact Function.update_eq_self _ _

theorem setLine_same (k : Kernel) (t : Nat) (line : Line) : SameDisplay k (setLine k t line) :=
  sameDisplay_update rfl ⟨rfl,rfl⟩ ⟨rfl,rfl⟩ rfl (unchanged_same rfl rfl rfl rfl)

theorem setLine_arranged (arranged : Arranged k) (t : Nat) (line : Line) : Arranged (setLine k t line) := by
  refine arranged_same arranged (setLine_same k t line) arranged.exec ?_
  intro u inside address found
  have unmoved : lastProc (setLine k t line) u = lastProc k u := by
    by_cases here : u = t
    · subst here; simp [lastProc,setLine,setTerminal]
    · simp [lastProc,setLine,setTerminal,here]
  rw [unmoved] at found
  exact arranged.vids u inside address found

theorem editLine_arranged (arranged : Arranged k) {edit : Line → Checked Line} (edited : editLine k edit = .ok after) :
    Arranged after := by
  obtain ⟨line,_,same⟩ := bind_eq_ok.mp edited
  cases same
  exact setLine_arranged arranged k.currTerminal line

theorem putSpaces_arranged (n : Nat) (arranged : Arranged k) (put : putSpaces n k = .ok after) : Arranged after := by
  induction n generalizing k with
  | zero => cases put; exact arranged
  | succ n ih =>
    obtain ⟨l,edited,rest⟩ := bind_eq_ok.mp put
    exact ih (putc_drew (editLine_arranged arranged edited) space).arranged rest

theorem printCharacter_arranged {c : UInt8} (arranged : Arranged k) (printed : printCharacter k c = .ok after) :
    Arranged after := by
  obtain ⟨output,_,printed⟩ := bind_eq_ok.mp printed
  split at printed
  · split at printed
    · exact putSpaces_arranged 4 arranged printed
    · cases printed; exact arranged
  · split at printed
    · cases printed; exact arranged
    · obtain ⟨l,edited,ended⟩ := bind_eq_ok.mp printed
      cases ended
      exact (putc_drew (editLine_arranged arranged edited) output).arranged

/-- A newline goes to the line, which is then complete, and to the screen. -/
theorem newline_arranged {edit : Line → Checked Line} (arranged : Arranged k)
    (entered : (editLine k edit >>= fun k => editLine k (fun line => .ok (wake line)) >>= fun k =>
      .ok (putc k newlineChar)) = .ok after) : Arranged after := by
  obtain ⟨l,edited,entered⟩ := bind_eq_ok.mp entered
  obtain ⟨m,woken,ended⟩ := bind_eq_ok.mp entered
  cases ended
  exact (putc_drew (editLine_arranged (editLine_arranged arranged edited) woken) newlineChar).arranged

theorem handlePress_arranged {c : UInt8} (arranged : Arranged k) (pressed : handlePress k c = .ok after) :
    Arranged after := by
  simp only [handlePress] at pressed
  split at pressed
  · split at pressed
    · cases pressed; exact arranged
    · split at pressed
      · obtain ⟨l,edited,ended⟩ := bind_eq_ok.mp pressed
        cases ended
        exact (doBackspace_drew (editLine_arranged arranged edited)).arranged
      · cases pressed; exact arranged
  · split at pressed
    · exact newline_arranged arranged pressed
    · obtain ⟨l,printed,pressed⟩ := bind_eq_ok.mp pressed
      have printed' := printCharacter_arranged arranged printed
      split at pressed
      · exact newline_arranged printed' pressed
      · cases pressed; exact printed'

theorem checkControlCodes_arranged (arranged : Arranged k) (c : UInt8) : Arranged (checkControlCodes k c).2 := by
  simp only [checkControlCodes]
  split
  · split
    · exact setLine_arranged arranged _ _
    · split
      · exact setLine_arranged arranged _ _
      · split
        · exact setLine_arranged arranged _ _
        · exact arranged
  · exact arranged

/-- Any other key keeps the display arranged, and leaves the processes and the
    active terminal alone. -/
theorem handler_plain {fs : Fs} {fuel : Nat} {c c2 : UInt8} (arranged : Arranged k) (plain : ¬ SwitchKey k.modifiers c)
    (handled : keyboardInterruptHandler fs fuel k c c2 = .ok after) :
    Arranged after ∧ tableOf after = tableOf k ∧ after.currTerminal = k.currTerminal := by
  have arranged' : Arranged after := by
    simp only [keyboardInterruptHandler] at handled
    split at handled
    · cases handled
      exact arranged_same arranged (unchanged_same rfl rfl rfl rfl) arranged.exec arranged.vids
    · rw [if_neg plain] at handled
      split at handled
      · cases handled
        exact checkControlCodes_arranged arranged c
      · split at handled
        · exact handlePress_arranged arranged handled
        · cases handled
          exact arranged
  refine ⟨arranged',?_⟩
  rcases handler_plain_cases plain handled with ⟨line,draws⟩ | ⟨modifiers,rfl⟩
  · refine ⟨(tableOf_draws draws).trans (tableOf_setLine k _ line),?_⟩
    obtain ⟨_,_,_,rfl⟩ := draws
    rfl
  · exact ⟨rfl,rfl⟩

/-- Every key keeps the display arranged. -/
theorem key_displayed {fs : Fs} {fuel : Nat} {c c2 : UInt8} (valid : ValidShell fs) (displayed : Displayed k)
    (handled : keyboardInterruptHandler fs fuel k c c2 = .ok after) : Displayed after := by
  by_cases switch : SwitchKey k.modifiers c
  · rw [handler_switch fs fuel c2 switch] at handled
    have taken : Steps.step fs k (.switchTo fuel (c - function1).toNat) = .ok after := handled
    exact op_displayed valid displayed taken
  · obtain ⟨⟨S,represents⟩,arranged⟩ := displayed
    obtain ⟨arranged',table,_⟩ := handler_plain arranged switch handled
    exact ⟨⟨S,table ▸ represents⟩,arranged'⟩

/-! ### The first shell -/

theorem atSti_arranged (m : Kernel) : Arranged (Boot.atSti m) := by
  have first := start_arranged { m with availablePids := fun _ => 0, currTerminal := 0, tssEsp0 := _8MB }
  generalize started : start { m with availablePids := fun _ => 0, currTerminal := 0, tssEsp0 := _8MB } = k at first
  have quiet : Arranged (keyboardInit k) := by
    have same : SameDisplay k (keyboardInit k) :=
      sameDisplay_update rfl ⟨rfl,rfl⟩ ⟨rfl,rfl⟩ rfl (unchanged_same rfl rfl rfl rfl)
    refine arranged_same first same first.exec ?_
    intro u inside address found
    have unmoved : lastProc (keyboardInit k) u = lastProc k u := by
      by_cases here : u = k.currTerminal
      · subst here; simp [lastProc,keyboardInit,setTerminal,activeTerm]
      · simp [lastProc,keyboardInit,setTerminal,here]
    rw [unmoved] at found
    exact first.vids u inside address found
  have booted : Boot.atSti m = printf (keyboardInit k) enablingMessage := by rw [← started]; rfl
  rw [booted]
  exact (printf_drew quiet enablingMessage).arranged

theorem boot_arranged (m : Kernel) : Arranged (boot m) := by
  rw [Boot.boot_eq]
  exact (clearSetpos_screens (atSti_arranged m)).1

theorem started_displayed {fs : Fs} {k : Kernel} (started : Started fs k) : Displayed k := by
  obtain ⟨S,represents,_⟩ := started_represents started
  obtain ⟨m,fuel,eip,executed⟩ := started
  exact ⟨⟨S,represents⟩,arranged_represents (boot_arranged m) represents (execute_arranged (boot_arranged m) executed)⟩

end

end MazeOS.ScreenSteps
