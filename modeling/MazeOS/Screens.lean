import MazeOS.ReadData
import MazeOS.Windows
import MazeOS.Steps

/-!
The three terminals share one visible screen and three backup pages, and behave
as three screens of their own. `logical` is the screen of a terminal, wherever
it is; `Arranged` says how the page tables, the frames and `curr_terminal` fit
together, and every step keeps it (`step_drew`). After any run the screen of a
terminal is what the writes to that terminal alone make of its first screen
(`screens_independent`).
-/
namespace MazeOS.Screens
open MazeOS.Runs MazeOS.Bytes MazeOS.Faults MazeOS.Filesystem MazeOS.Paging MazeOS.State MazeOS.Display MazeOS.Process
  MazeOS.Syscalls MazeOS.Terminal MazeOS.Steps MazeOS.Windows

/-! ### The machine -/

/-- Kernel memory in which a process has the video page of `vidmap` or none. -/
structure Rest where
  kernel : Kernel
  vids : ∀ address, (kernel.pcbs address).vidmemVirtAddr = 0 ∨ (kernel.pcbs address).vidmemVirtAddr = userVideoMemAddr

/-- Anything else the kernel does: all that is no part of the display is
    overwritten. The page directory keeps the entries of the first 4MB and of
    the backup pages. -/
def elsewhere (k : Kernel) (rest : Rest) : Kernel :=
  { rest.kernel with
    execTerm := k.execTerm
    currTerminal := k.currTerminal
    phys := k.phys
    cursor := k.cursor
    terminals := fun t => { rest.kernel.terminals t with
      xPos := (k.terminals t).xPos
      yPos := (k.terminals t).yPos
      virtVidmemBackup := (k.terminals t).virtVidmemBackup
      physVidmemBackup := (k.terminals t).physVidmemBackup
      attrib := (k.terminals t).attrib }
    paging := { k.paging with
      pageDirectory := fun i =>
        if i = directoryIndex videoMemStart ∨ i = directoryIndex vidBkupMemStartVirt then k.paging.pageDirectory i
        else rest.kernel.paging.pageDirectory i
      user4MBTable := rest.kernel.paging.user4MBTable } }

inductive Event where
  | putc (c : UInt8)
  | doBackspace
  | clear
  | putcBuffer (c : UInt8)
  | setExecTerm (t : Nat)
  | switchTo (fuel : Nat) (termNum : Nat)
  | elsewhere (rest : Rest)

def step (fs : Fs) (k : Kernel) : Event → Checked Kernel
  | .putc c => .ok (Display.putc k c)
  | .doBackspace => .ok (Display.doBackspace k)
  | .clear => .ok (Display.clear k)
  | .putcBuffer c => .ok (Display.putcBuffer k c)
  | .setExecTerm t => if t < maxTerminals then .ok { k with execTerm := t } else .error (.noTerminal t)
  | .switchTo fuel termNum => switchActiveTerminal fs fuel k termNum
  | .elsewhere rest => .ok (elsewhere k rest)

/-- The kernel after `terminal_init`, on any contents of memory. -/
def start (m : Kernel) : Kernel := terminalInit { m with paging := initPaging, execTerm := 0 }

/-! ### Three screens -/

/-- The frame of the screen of a terminal. -/
def frameOf (k : Kernel) (t : Nat) : Nat :=
  if t = k.currTerminal then videoMemStart else (k.terminals t).physVidmemBackup

/-- The screen of a terminal, wherever it is. -/
def logical (k : Kernel) (t : Nat) : Screen :=
  ⟨pageAt k.phys (frameOf k t),(k.terminals t).xPos,(k.terminals t).yPos⟩

/-- What an event writes, and to which terminal. A refused switch prints a
    message; any other switch writes nothing. -/
def writes (k : Kernel) : Event → List (Nat × Write)
  | .putc c => [(k.currTerminal,.putc c)]
  | .doBackspace => [(k.currTerminal,.backspace)]
  | .clear => [(k.currTerminal,.clear)]
  | .putcBuffer c => [(k.execTerm,.putc c)]
  | .switchTo _ termNum =>
    if k.currTerminal ≠ termNum ∧ Refused k termNum then notAvailableMessage.map fun c => (k.currTerminal,.putc c)
    else []
  | .setExecTerm _ | .elsewhere _ => []

/-- The writes to one terminal. -/
def writesTo (t : Nat) (written : List (Nat × Write)) : List Write := (written.filter (·.1 = t)).map (·.2)

/-- A screen on its own after some writes. -/
def alone (t : Nat) (s : Screen) (written : List Write) : Screen := written.foldl (Write.on (attribs t)) s

/-- The monitor that notes the writes of a run. -/
def record (k : Kernel) (e : Event) (_ : Kernel) (written : List (Nat × Write)) : List (Nat × Write) :=
  written ++ writes k e

theorem alone_append (t : Nat) (s : Screen) (first second : List (Nat × Write)) :
    alone t s (writesTo t (first ++ second)) = alone t (alone t s (writesTo t first)) (writesTo t second) := by
  simp [alone,writesTo,List.foldl_append]

/-! ### How the pages are mapped -/

/-- Where the screen of a terminal is while another one is active. -/
def ownFrame (t : Nat) : Nat := vidBkupMemStartPhys + t * 4096

/-- The visible page is mapped to itself, and the backup pages to frames. -/
structure Layout (p : PageTables) (frames : Nat → Nat) : Prop where
  low : p.pageDirectory (directoryIndex videoMemStart) = .table ⟨true,true,true,.first4MB⟩
  visible : p.first4MBTable videoMemIndex = ⟨true,true,false,videoMemIndex⟩
  high : p.pageDirectory (directoryIndex vidBkupMemStartVirt) = .table ⟨true,true,false,.backupVidmem⟩
  backup : ∀ t, t < maxTerminals → p.backupVidmemTable t = ⟨true,true,false,frames t / 2 ^ 12⟩
  aligned : ∀ t, t < maxTerminals → frames t % 2 ^ 12 = 0

section
variable {p : PageTables} {frames : Nat → Nat}

theorem layout_visible (layout : Layout p frames) : Maps (translate p) videoMemStart videoMemStart := by
  intro i inside
  have directory : directoryIndex (videoMemStart + i) = directoryIndex videoMemStart := by
    simp only [directoryIndex,videoMemStart,pageSize] at *
    omega
  have index : tableIndex (videoMemStart + i) = videoMemIndex := by
    simp only [tableIndex,videoMemStart,videoMemIndex,pageSize] at *
    omega
  simp only [Paging.translate,directory,layout.low,PageTables.table,index,layout.visible,if_true,Option.some.injEq]
  simp only [videoMemStart,videoMemIndex,pageSize] at *
  omega

theorem backup_index {t i : Nat} (inside : t < maxTerminals) (within : i < pageSize) :
    directoryIndex (vidBkupMemStartVirt + t * 4096 + i) = directoryIndex vidBkupMemStartVirt ∧
      tableIndex (vidBkupMemStartVirt + t * 4096 + i) = t := by
  have few : t < 3 := inside
  simp only [directoryIndex,tableIndex,vidBkupMemStartVirt,_128MB,_8MB,pageSize] at *
  omega

theorem layout_backup (layout : Layout p frames) {t : Nat} (inside : t < maxTerminals) :
    Maps (translate p) (vidBkupMemStartVirt + t * 4096) (frames t) := by
  intro i within
  obtain ⟨directory,index⟩ := backup_index inside within
  have aligned := layout.aligned t inside
  simp only [Paging.translate,directory,layout.high,PageTables.table,index,layout.backup t inside,if_true,Option.some.injEq]
  have offset : (vidBkupMemStartVirt + t * 4096 + i) % 2 ^ 12 = i := by
    simp only [vidBkupMemStartVirt,_128MB,_8MB,pageSize] at *
    omega
  rw [offset]
  omega

theorem layout_mapBackup (layout : Layout p frames) {t physAddr : Nat} (inside : t < maxTerminals)
    (aligned : physAddr % 2 ^ 12 = 0) :
    Layout (mapBackupVidmem p (vidBkupMemStartVirt + t * 4096) physAddr) (Function.update frames t physAddr) := by
  obtain ⟨directory,index⟩ := backup_index (i := 0) inside (by decide)
  rw [Nat.add_zero] at directory index
  have apart : directoryIndex videoMemStart ≠ directoryIndex vidBkupMemStartVirt := by decide
  refine ⟨?_,layout.visible,?_,?_,?_⟩
  · simp only [mapBackupVidmem,directory,Function.update_of_ne apart]
    exact layout.low
  · simp [mapBackupVidmem,directory]
  · intro u within
    simp only [mapBackupVidmem,index]
    by_cases same : u = t
    · subst same; simp
    · simp [same,layout.backup u within]
  · intro u within
    by_cases same : u = t
    · rw [same,Function.update_self]; exact aligned
    · rw [Function.update_of_ne same]; exact layout.aligned u within

theorem layout_congr (layout : Layout p frames) {frames' : Nat → Nat}
    (same : ∀ t, t < maxTerminals → frames' t = frames t) : Layout p frames' := by
  refine ⟨layout.low,layout.visible,layout.high,?_,?_⟩
  · intro t inside; rw [same t inside]; exact layout.backup t inside
  · intro t inside; rw [same t inside]; exact layout.aligned t inside

end

/-- The visible screen is in the frame of video memory, every other one in its
    own. -/
def screenFrame (current t : Nat) : Nat := if t = current then videoMemStart else ownFrame t

theorem frames_apart {t u : Nat} (other : u ≠ t) : Apart (ownFrame t) (ownFrame u) := by
  simp only [Apart,ownFrame,pageSize]
  omega

theorem visible_apart (t : Nat) : Apart videoMemStart (ownFrame t) := by
  simp only [Apart,ownFrame,pageSize,videoMemStart,vidBkupMemStartPhys]
  omega

/-! ### What the display of a terminal depends on -/

/-- The processes that a switch may look at have the video page or none. -/
def Vids (k : Kernel) : Prop := ∀ t, t < maxTerminals → ∀ address, lastProc k t = .ok address →
  (k.pcbs address).vidmemVirtAddr = 0 ∨ (k.pcbs address).vidmemVirtAddr = userVideoMemAddr

/-- The invariant of the display. -/
structure Arranged (k : Kernel) : Prop where
  current : k.currTerminal < maxTerminals
  exec : k.execTerm < maxTerminals
  virt : ∀ t, t < maxTerminals → (k.terminals t).virtVidmemBackup = vidBkupMemStartVirt + t * 4096
  phys : ∀ t, t < maxTerminals → (k.terminals t).physVidmemBackup = ownFrame t
  attrib : ∀ t, t < maxTerminals → (k.terminals t).attrib = attribs t
  inRange : ∀ t, t < maxTerminals → InRange (logical k t)
  layout : Layout k.paging (screenFrame k.currTerminal)
  vids : Vids k

/-- The display is the same: memory, the active terminal, cursors, and the pages
    that the kernel draws through. -/
structure SameDisplay (k after : Kernel) : Prop where
  current : after.currTerminal = k.currTerminal
  phys : after.phys = k.phys
  cursors : ∀ t, (after.terminals t).xPos = (k.terminals t).xPos ∧ (after.terminals t).yPos = (k.terminals t).yPos
  backups : ∀ t, (after.terminals t).virtVidmemBackup = (k.terminals t).virtVidmemBackup ∧
    (after.terminals t).physVidmemBackup = (k.terminals t).physVidmemBackup
  attrib : ∀ t, (after.terminals t).attrib = (k.terminals t).attrib
  low : after.paging.pageDirectory (directoryIndex videoMemStart) =
    k.paging.pageDirectory (directoryIndex videoMemStart)
  high : after.paging.pageDirectory (directoryIndex vidBkupMemStartVirt) =
    k.paging.pageDirectory (directoryIndex vidBkupMemStartVirt)
  tables : after.paging.first4MBTable = k.paging.first4MBTable ∧
    after.paging.backupVidmemTable = k.paging.backupVidmemTable

section
variable {k l after : Kernel}

/-- One terminal is overwritten, but for its cursor, backup page and attribute. -/
theorem sameDisplay_update {t : Nat} {terminal : State.Terminal}
    (terminals : after.terminals = Function.update k.terminals t terminal)
    (cursor : terminal.xPos = (k.terminals t).xPos ∧ terminal.yPos = (k.terminals t).yPos)
    (backup : terminal.virtVidmemBackup = (k.terminals t).virtVidmemBackup ∧
      terminal.physVidmemBackup = (k.terminals t).physVidmemBackup)
    (attrib : terminal.attrib = (k.terminals t).attrib)
    (rest : SameDisplay k { after with terminals := k.terminals }) : SameDisplay k after := by
  refine ⟨rest.current,rest.phys,?_,?_,?_,rest.low,rest.high,rest.tables⟩
  · intro u
    rw [terminals]
    by_cases here : u = t
    · subst here; rw [Function.update_self]; exact cursor
    · rw [Function.update_of_ne here]; exact ⟨rfl,rfl⟩
  · intro u
    rw [terminals]
    by_cases here : u = t
    · subst here; rw [Function.update_self]; exact backup
    · rw [Function.update_of_ne here]; exact ⟨rfl,rfl⟩
  · intro u
    rw [terminals]
    by_cases here : u = t
    · subst here; rw [Function.update_self]; exact attrib
    · rw [Function.update_of_ne here]

theorem logical_same (same : SameDisplay k after) (t : Nat) : logical after t = logical k t := by
  simp only [logical,frameOf,same.phys,same.current,same.cursors t,same.backups t]

theorem layout_same (same : SameDisplay k after) {frames : Nat → Nat} (layout : Layout k.paging frames) :
    Layout after.paging frames :=
  ⟨same.low.trans layout.low,same.tables.1 ▸ layout.visible,same.high.trans layout.high,
    same.tables.2 ▸ layout.backup,layout.aligned⟩

theorem arranged_same (arranged : Arranged k) (same : SameDisplay k after) (exec : after.execTerm < maxTerminals)
    (vids : Vids after) : Arranged after := by
  refine ⟨same.current ▸ arranged.current,exec,?_,?_,?_,?_,?_,vids⟩
  · intro t inside; rw [(same.backups t).1,arranged.virt t inside]
  · intro t inside; rw [(same.backups t).2,arranged.phys t inside]
  · intro t inside; rw [same.attrib t,arranged.attrib t inside]
  · intro t inside; rw [logical_same same t]; exact arranged.inRange t inside
  · rw [same.current]; exact layout_same same arranged.layout

theorem frameOf_arranged (arranged : Arranged k) {t : Nat} (inside : t < maxTerminals) :
    frameOf k t = screenFrame k.currTerminal t := by
  rw [frameOf,screenFrame,arranged.phys t inside]

/-- The frames of the three screens have no byte in common. -/
theorem frameOf_apart (arranged : Arranged k) {t u : Nat} (inside : t < maxTerminals) (inside' : u < maxTerminals)
    (other : u ≠ t) : Apart (frameOf k t) (frameOf k u) := by
  rw [frameOf_arranged arranged inside,frameOf_arranged arranged inside',screenFrame,screenFrame]
  by_cases active : t = k.currTerminal
  · rw [if_pos active,if_neg (by omega)]
    exact visible_apart u
  · rw [if_neg active]
    by_cases active' : u = k.currTerminal
    · rw [if_pos active']
      exact (visible_apart t).symm
    · rw [if_neg active']
      exact frames_apart other

/-! ### Drawing -/

/-- Some writes have been made, each to its terminal alone. -/
structure Drew (k : Kernel) (written : List (Nat × Write)) (after : Kernel) : Prop where
  arranged : Arranged after
  screens : ∀ t, t < maxTerminals → logical after t = alone t (logical k t) (writesTo t written)

theorem drew_trans {first second : List (Nat × Write)} (before : Drew k first l) (further : Drew l second after) :
    Drew k (first ++ second) after := by
  refine ⟨further.arranged,?_⟩
  intro t inside
  rw [further.screens t inside,before.screens t inside,alone_append]

theorem drew_same {written : List (Nat × Write)} (drew : Drew k written l) (same : SameDisplay l after)
    (exec : after.execTerm < maxTerminals) (vids : Vids after) : Drew k written after := by
  refine ⟨arranged_same drew.arranged same exec vids,?_⟩
  intro t inside
  rw [logical_same same,drew.screens t inside]

theorem drew_nothing (arranged : Arranged k) : Drew k [] k := ⟨arranged,fun _ _ => rfl⟩

theorem lastProc_withScreen (k : Kernel) (t : Nat) (s : Screen) (u : Nat) :
    lastProc (withScreen k t s) u = lastProc k u := by
  by_cases same : u = t
  · subst same; simp [lastProc,withScreen]
  · simp [lastProc,withScreen,same]

/-- A screen whose memory differs from that of the kernel in the frame of a
    terminal is that of the terminal. -/
theorem withScreen_screens (arranged : Arranged k) {t : Nat} (inside : t < maxTerminals) {s : Screen}
    {page : Nat → UInt8} (mirrors : Mirrors (frameOf k t) k.phys s.mem page) (inRange : InRange ⟨page,s.xPos,s.yPos⟩) :
    Arranged (withScreen k t s) ∧ ∀ u, u < maxTerminals →
      logical (withScreen k t s) u = if u = t then ⟨page,s.xPos,s.yPos⟩ else logical k u := by
  have frame : ∀ u, frameOf (withScreen k t s) u = frameOf k u := by
    intro u
    by_cases same : u = t
    · subst same; simp [frameOf,withScreen]
    · simp [frameOf,withScreen,same]
  have screens : ∀ u, u < maxTerminals →
      logical (withScreen k t s) u = if u = t then ⟨page,s.xPos,s.yPos⟩ else logical k u := by
    intro u within
    by_cases same : u = t
    · subst same
      rw [logical,frame]
      simp only [withScreen,Function.update_self,if_true]
      rw [pageAt_mirrors mirrors]
    · rw [logical,frame,if_neg same]
      simp only [withScreen,Function.update_of_ne same]
      rw [pageAt_apart mirrors (frameOf_apart arranged inside within same),logical]
  refine ⟨⟨arranged.current,arranged.exec,?_,?_,?_,?_,arranged.layout,?_⟩,screens⟩
  · intro u within
    by_cases same : u = t
    · subst same; simp [withScreen,arranged.virt u within]
    · simp [withScreen,same,arranged.virt u within]
  · intro u within
    by_cases same : u = t
    · subst same; simp [withScreen,arranged.phys u within]
    · simp [withScreen,same,arranged.phys u within]
  · intro u within
    by_cases same : u = t
    · subst same; simp [withScreen,arranged.attrib u within]
    · simp [withScreen,same,arranged.attrib u within]
  · intro u within
    rw [screens u within]
    by_cases same : u = t
    · rw [if_pos same]; exact inRange
    · rw [if_neg same]; exact arranged.inRange u within
  · intro u within address found
    rw [lastProc_withScreen] at found
    exact arranged.vids u within address found

/-- A write through a window on the screen of a terminal. -/
theorem withScreen_drew (arranged : Arranged k) {t base : Nat} (inside : t < maxTerminals)
    (maps : Maps (translate k.paging) base (frameOf k t)) (w : Write) :
    Drew k [(t,w)] (withScreen k t (w.at (translate k.paging) base (attribs t) (screenOf k t))) := by
  have shown : Shown (frameOf k t) k.phys (screenOf k t) (logical k t) := ⟨mirrors_pageAt _ _,rfl,rfl⟩
  obtain ⟨wrote,inRange⟩ := write_mirrors maps shown (arranged.inRange t inside) (attribs t) w
  generalize w.at (translate k.paging) base (attribs t) (screenOf k t) = s at wrote
  have target : (⟨(w.on (attribs t) (logical k t)).mem,s.xPos,s.yPos⟩ : Screen) = w.on (attribs t) (logical k t) := by
    rw [wrote.xPos,wrote.yPos]
  obtain ⟨arranged',screens⟩ := withScreen_screens arranged inside wrote.mirrors (target ▸ inRange)
  refine ⟨arranged',?_⟩
  intro u within
  rw [screens u within,target]
  by_cases same : u = t
  · subst same
    rw [if_pos rfl]
    simp [alone,writesTo]
  · have none : writesTo u [(t,w)] = [] := by simp [writesTo,Ne.symm same]
    rw [if_neg same,none]
    rfl

theorem updateCursor_same (k : Kernel) (col row : Nat) : SameDisplay k (updateCursor k col row) :=
  ⟨rfl,rfl,fun _ => ⟨rfl,rfl⟩,fun _ => ⟨rfl,rfl⟩,fun _ => rfl,rfl,rfl,rfl,rfl⟩

theorem updateCursor_drew {written : List (Nat × Write)} (drew : Drew k written l) (col row : Nat) :
    Drew k written (updateCursor l col row) :=
  drew_same drew (updateCursor_same l col row) drew.arranged.exec drew.arranged.vids

theorem visible_window (arranged : Arranged k) :
    Maps (translate k.paging) videoMemStart (frameOf k k.currTerminal) := by
  rw [frameOf,if_pos rfl]
  exact layout_visible arranged.layout

theorem backup_window (arranged : Arranged k) {t : Nat} (inside : t < maxTerminals) :
    Maps (translate k.paging) (k.terminals t).virtVidmemBackup (frameOf k t) := by
  rw [arranged.virt t inside,frameOf_arranged arranged inside]
  exact layout_backup arranged.layout inside

theorem putc_drew (arranged : Arranged k) (c : UInt8) : Drew k [(k.currTerminal,.putc c)] (Display.putc k c) := by
  have attrib : (activeTerm k).attrib = attribs k.currTerminal := arranged.attrib _ arranged.current
  have fill : shiftAttrib k videoMemStart = attribs k.currTerminal := by rw [shiftAttrib,if_pos rfl,attrib]
  have drew := withScreen_drew arranged arranged.current (visible_window arranged) (.putc c)
  simp only [Display.putc]
  rw [attrib,fill]
  exact updateCursor_drew drew _ _

theorem putcBuffer_drew (arranged : Arranged k) (c : UInt8) :
    Drew k [(k.execTerm,.putc c)] (Display.putcBuffer k c) := by
  have attrib : (executingTerm k).attrib = attribs k.execTerm := arranged.attrib _ arranged.exec
  have apart : (executingTerm k).virtVidmemBackup ≠ videoMemStart := by
    have virt : (executingTerm k).virtVidmemBackup = vidBkupMemStartVirt + k.execTerm * 4096 :=
      arranged.virt _ arranged.exec
    rw [virt]
    simp only [vidBkupMemStartVirt,_128MB,_8MB,videoMemStart]
    omega
  have fill : shiftAttrib k (executingTerm k).virtVidmemBackup = attribs k.execTerm := by
    rw [shiftAttrib,if_neg apart,attrib]
  have drew := withScreen_drew arranged arranged.exec (backup_window arranged arranged.exec) (.putc c)
  simp only [Display.putcBuffer]
  simp only [attrib,fill]
  split
  · exact updateCursor_drew drew _ _
  · exact drew

theorem withScreen_still (k : Kernel) (t : Nat) (mem : Nat → UInt8) :
    withScreen k t ⟨mem,(k.terminals t).xPos,(k.terminals t).yPos⟩ = { k with phys := mem } := by
  simp only [withScreen,Function.update_eq_self]

theorem doBackspace_drew (arranged : Arranged k) : Drew k [(k.currTerminal,.backspace)] (Display.doBackspace k) := by
  have attrib : (activeTerm k).attrib = attribs k.currTerminal := arranged.attrib _ arranged.current
  have drew := withScreen_drew arranged arranged.current (visible_window arranged) .backspace
  simp only [Display.doBackspace]
  rw [attrib]
  by_cases first : (activeTerm k).xPos = 0 ∧ (activeTerm k).yPos = 0
  · rw [if_pos first]
    have first' : (k.terminals k.currTerminal).xPos = 0 ∧ (k.terminals k.currTerminal).yPos = 0 := first
    have unchanged : Write.backspace.at (translate k.paging) videoMemStart (attribs k.currTerminal)
        (screenOf k k.currTerminal) = screenOf k k.currTerminal := if_pos first'
    rw [unchanged,screenOf,withScreen_still] at drew
    exact drew
  · rw [if_neg first]
    exact updateCursor_drew drew _ _

theorem clear_drew (arranged : Arranged k) : Drew k [(k.currTerminal,.clear)] (Display.clear k) := by
  have attrib : (activeTerm k).attrib = attribs k.currTerminal := arranged.attrib _ arranged.current
  have drew := withScreen_drew arranged arranged.current (visible_window arranged) .clear
  rw [Write.at,screenOf,withScreen_still] at drew
  rw [Display.clear,attrib]
  exact drew

theorem printf_drew (arranged : Arranged k) (text : List UInt8) :
    Drew k (text.map fun c => (k.currTerminal,.putc c)) (printf k text) := by
  induction text generalizing k with
  | nil => exact drew_nothing arranged
  | cons c rest ih =>
    have first := putc_drew arranged c
    exact drew_trans first (ih first.arranged)

/-! ### Switching -/

theorem mapUser_same (k : Kernel) (pte : Pte) :
    SameDisplay k { k with paging := mapUserVideoMem k.paging userVideoMemAddr pte } := by
  have low : directoryIndex videoMemStart ≠ directoryIndex userVideoMemAddr := by decide
  have high : directoryIndex vidBkupMemStartVirt ≠ directoryIndex userVideoMemAddr := by decide
  refine ⟨rfl,rfl,fun _ => ⟨rfl,rfl⟩,fun _ => ⟨rfl,rfl⟩,fun _ => rfl,?_,?_,rfl,rfl⟩
  · simp only [mapUserVideoMem,Function.update_of_ne low]
  · simp only [mapUserVideoMem,Function.update_of_ne high]

/-- The video page of a process is remapped, and the display is not. -/
theorem remapVidmem_same {process : Nat} (vid : (k.pcbs process).vidmemVirtAddr = 0 ∨
    (k.pcbs process).vidmemVirtAddr = userVideoMemAddr) (frame : Nat) :
    SameDisplay k (remapVidmem k process frame) := by
  simp only [remapVidmem]
  split
  · rename_i some
    rw [vid.resolve_left some]
    exact mapUser_same k _
  · exact ⟨rfl,rfl,fun _ => ⟨rfl,rfl⟩,fun _ => ⟨rfl,rfl⟩,fun _ => rfl,rfl,rfl,rfl,rfl⟩

/-- Remapping a video page changes nothing but the page tables. -/
theorem remapVidmem_only (k : Kernel) (process frame : Nat) :
    ∃ paging, remapVidmem k process frame = { k with paging := paging } := by
  simp only [remapVidmem]
  split
  · exact ⟨_,rfl⟩
  · exact ⟨k.paging,rfl⟩

theorem remapVidmem_drew {written : List (Nat × Write)} (drew : Drew k written l) {t process : Nat}
    (inside : t < maxTerminals) (found : lastProc l t = .ok process) (frame : Nat) :
    Drew k written (remapVidmem l process frame) := by
  have vids := drew.arranged.vids
  have same := remapVidmem_same (vids t inside process found) frame
  obtain ⟨paging,only⟩ := remapVidmem_only l process frame
  have exec : (remapVidmem l process frame).execTerm = l.execTerm := by rw [only]
  have vids' : Vids (remapVidmem l process frame) := by rw [only]; exact vids
  exact drew_same drew same (exec ▸ drew.arranged.exec) vids'

/-- Once the visible screen is saved, every backup page is mapped to its own
    frame, and the frame of the active terminal holds its screen. -/
theorem backedUp_copied (arranged : Arranged k) :
    Layout (backedUp k).paging ownFrame ∧
      (backedUp k).phys = copyInto k.phys (ownFrame k.currTerminal) (fun i => k.phys (videoMemStart + i)) pageSize := by
  have virt : (activeTerm k).virtVidmemBackup = vidBkupMemStartVirt + k.currTerminal * 4096 :=
    arranged.virt _ arranged.current
  have phys : (activeTerm k).physVidmemBackup = ownFrame k.currTerminal := arranged.phys _ arranged.current
  have aligned : ownFrame k.currTerminal % 2 ^ 12 = 0 := by
    simp only [ownFrame,vidBkupMemStartPhys]
    omega
  have layout : Layout (backedUp k).paging ownFrame := by
    simp only [backedUp,virt,phys]
    refine layout_congr (layout_mapBackup arranged.layout arranged.current aligned) ?_
    intro t _
    by_cases active : t = k.currTerminal
    · rw [active,Function.update_self]
    · rw [Function.update_of_ne active,screenFrame,if_neg active]
  refine ⟨layout,?_⟩
  have copied := memcpy_page (layout_backup layout arranged.current) (layout_visible layout)
    (visible_apart k.currTerminal).symm k.phys (Nat.le_refl pageSize)
  rw [← copied,← virt]
  rfl

/-- Once the screen of the new terminal is loaded, it is the visible one. -/
theorem showTerminal_copied {t : Nat} (layout : Layout k.paging ownFrame) (inside : t < maxTerminals)
    (virt : (k.terminals t).virtVidmemBackup = vidBkupMemStartVirt + t * 4096) :
    Layout (showTerminal k t).paging (screenFrame t) ∧
      (showTerminal k t).phys = copyInto k.phys videoMemStart (fun i => k.phys (ownFrame t + i)) pageSize := by
  constructor
  · simp only [showTerminal,updateCursor,activeTerm,virt]
    refine layout_congr (layout_mapBackup layout inside (by decide)) ?_
    intro u _
    by_cases active : u = t
    · rw [active,Function.update_self,screenFrame,if_pos rfl]
    · rw [Function.update_of_ne active,screenFrame,if_neg active]
  · have copied := memcpy_page (layout_visible layout) (layout_backup layout inside) (visible_apart t) k.phys
      (Nat.le_refl pageSize)
    rw [← copied,← virt]
    rfl

/-- The exchange of the two screens leaves every screen as it was. -/
theorem exchanged (arranged : Arranged k) {t : Nat} (inside : t < maxTerminals) (other : k.currTerminal ≠ t)
    (hid : hideActive k = .ok l) :
    Drew k [] (showTerminal l t) ∧ (showTerminal l t).terminals = k.terminals ∧
      (showTerminal l t).availablePids = k.availablePids := by
  obtain ⟨process,found,hidden⟩ := hideActive_ok hid
  obtain ⟨layout,saved⟩ := backedUp_copied arranged
  have vid := arranged.vids _ arranged.current process found
  have same : SameDisplay (backedUp k) l := hidden ▸ remapVidmem_same (k := backedUp k) vid _
  obtain ⟨paging,only⟩ := remapVidmem_only (backedUp k) process ((activeTerm k).physVidmemBackup / 2 ^ 12)
  rw [only] at hidden
  have terminals : l.terminals = k.terminals := by rw [hidden]; rfl
  have pids : l.availablePids = k.availablePids := by rw [hidden]; rfl
  have exec : l.execTerm = k.execTerm := by rw [hidden]; rfl
  have pcbs : l.pcbs = k.pcbs := by rw [hidden]; rfl
  have virt : (l.terminals t).virtVidmemBackup = vidBkupMemStartVirt + t * 4096 := by
    rw [terminals,arranged.virt t inside]
  obtain ⟨layout',loaded⟩ := showTerminal_copied (layout_same same layout) inside virt
  rw [same.phys,saved] at loaded
  have screens : ∀ u, u < maxTerminals → logical (showTerminal l t) u = logical k u := by
    intro u within
    have frame : frameOf (showTerminal l t) u = screenFrame t u := by
      have phys : ((showTerminal l t).terminals u).physVidmemBackup = ownFrame u := by
        rw [← arranged.phys u within,← terminals]
        rfl
      rw [frameOf,screenFrame,phys]
      rfl
    have cursor : (showTerminal l t).terminals u = k.terminals u := by
      rw [← terminals]
      rfl
    have page : pageAt (showTerminal l t).phys (screenFrame t u) = pageAt k.phys (screenFrame k.currTerminal u) := by
      rw [loaded,screenFrame,screenFrame]
      by_cases shown : u = t
      · have notActive : u ≠ k.currTerminal := by omega
        rw [if_pos shown,if_neg notActive,← shown,pageAt_copied,pageAt_copied_apart _ _ (frames_apart notActive)]
      · rw [if_neg shown,pageAt_copied_apart _ _ (visible_apart u)]
        by_cases active : u = k.currTerminal
        · rw [if_pos active,active,pageAt_copied]
        · rw [if_neg active,pageAt_copied_apart _ _ (frames_apart active)]
    rw [logical,frame,page,cursor,logical,frameOf_arranged arranged within]
  refine ⟨⟨⟨inside,?_,?_,?_,?_,?_,layout',?_⟩,screens⟩,terminals,pids⟩
  · exact exec ▸ arranged.exec
  · intro u within
    rw [← arranged.virt u within,← terminals]
    rfl
  · intro u within
    rw [← arranged.phys u within,← terminals]
    rfl
  · intro u within
    rw [← arranged.attrib u within,← terminals]
    rfl
  · intro u within
    rw [screens u within]
    exact arranged.inRange u within
  · intro u within address last
    have last' : lastProc k u = .ok address := by
      rw [← last,lastProc,lastProc,← terminals]
      rfl
    have unchanged : (showTerminal l t).pcbs = k.pcbs := pcbs
    rw [unchanged]
    exact arranged.vids u within address last'

/-- A started process leaves the display alone. -/
theorem spawned_same (k : Kernel) (pid : Nat) (parsed : Parsed) (page : Nat → UInt8) :
    SameDisplay k (spawned k pid parsed page) := by
  have low : directoryIndex videoMemStart ≠ directoryIndex _128MB := by decide
  have high : directoryIndex vidBkupMemStartVirt ≠ directoryIndex _128MB := by decide
  refine sameDisplay_update rfl ⟨rfl,rfl⟩ ⟨rfl,rfl⟩ rfl
    ⟨rfl,rfl,fun _ => ⟨rfl,rfl⟩,fun _ => ⟨rfl,rfl⟩,fun _ => rfl,?_,?_,rfl,rfl⟩
  · simp only [spawned,mapPage4MB,Function.update_of_ne low]
  · simp only [spawned,mapPage4MB,Function.update_of_ne high]

theorem spawned_drew {written : List (Nat × Write)} (drew : Drew k written l) (pid : Nat) (parsed : Parsed)
    (page : Nat → UInt8) : Drew k written (spawned l pid parsed page) := by
  have terminals : ∀ t, (spawned l pid parsed page).terminals t = if t = l.execTerm then
      { executingTerm l with
        childProcs := Function.update (executingTerm l).childProcs (executingTerm l).numProcs (pcbAddress pid)
        numProcs := (executingTerm l).numProcs + 1 } else l.terminals t := by
    intro t
    simp only [spawned,Function.update_apply]
  refine drew_same drew (spawned_same l pid parsed page) drew.arranged.exec ?_
  intro t inside address found
  by_cases new : address = pcbAddress pid
  · left
    simp [spawned,new,childPcb,newPcb]
  · have kept : ((spawned l pid parsed page).pcbs address).vidmemVirtAddr = (l.pcbs address).vidmemVirtAddr := by
      simp only [spawned,Function.update_of_ne new]
      split
      · rfl
      · by_cases saved : address = getPcb l
        · simp [saveStack,setPcb,saved]
        · simp [saveStack,setPcb,saved]
    rw [kept]
    obtain ⟨some,few,last,nonNull⟩ := lastProc_ok.mp found
    rw [terminals] at some few last
    by_cases here : t = l.execTerm
    · rw [if_pos here] at last
      simp only [Nat.add_sub_cancel,Function.update_self] at last
      exact absurd last.symm new
    · rw [if_neg here] at some few last
      exact drew.arranged.vids t inside address (lastProc_ok.mpr ⟨some,few,last,nonNull⟩)

/-- A switch that is not refused finds a process ID, or a process on the terminal. -/
theorem accepted_room {t : Nat} (accepted : ¬ Refused k t) :
    (∃ i, i < maxProcesses ∧ k.availablePids i = 0) ∨ (k.terminals t).numProcs ≠ 0 := by
  rcases getAvailablePid_cases k with ⟨i,few,free,_⟩ | ⟨_,none⟩
  · exact .inl ⟨i,few,free⟩
  · refine .inr fun empty => accepted ⟨?_,empty⟩
    rw [none]
    show (-1 : Int) < 1
    decide

/-- The executing process is saved, and the active terminal becomes the executing
    one. -/
def handedOver (k : Kernel) (running : Nat) : Kernel := { saveStack k running with execTerm := k.currTerminal }

/-- What a switch does with the new terminal, when it has a process or one can be
    started. -/
theorem resumed_cases {fs : Fs} {fuel : Nat}
    (room : (∃ i, i < maxProcesses ∧ l.availablePids i = 0) ∨ (activeTerm l).numProcs ≠ 0)
    (resumed : resumeTerminal fs fuel l = .ok after) :
    (∃ running, after = handedOver l running ∨
      ∃ pid parsed page, after = spawned (handedOver l running) pid parsed page) ∨
    ∃ process, lastProc l l.currTerminal = .ok process ∧ after = remapVidmem l process videoMemIndex := by
  simp only [resumeTerminal] at resumed
  split at resumed
  · rename_i empty
    obtain ⟨i,inside,free⟩ := room.resolve_right (not_not_intro empty)
    obtain ⟨running,_,resumed⟩ := bind_eq_ok.mp resumed
    obtain ⟨result,executed,ended⟩ := bind_eq_ok.mp resumed
    refine .inl ⟨running,?_⟩
    cases result with
    | returned value k' =>
      cases ended
      exact .inl (execute_quiet executed inside free)
    | started eip k' =>
      cases ended
      obtain ⟨pid,parsed,page,same,_⟩ := execute_started executed
      exact .inr ⟨pid,parsed,page,same⟩
  · obtain ⟨process,found,ended⟩ := bind_eq_ok.mp resumed
    cases ended
    exact .inr ⟨process,found,rfl⟩

/-- A switch resumes the new terminal without drawing, when it has a process or
    one can be started. -/
theorem resume_drew {fs : Fs} {fuel : Nat} {written : List (Nat × Write)} (drew : Drew k written l)
    (room : (∃ i, i < maxProcesses ∧ l.availablePids i = 0) ∨ (activeTerm l).numProcs ≠ 0)
    (resumed : resumeTerminal fs fuel l = .ok after) : Drew k written after := by
  have switched : ∀ running, Drew k written (handedOver l running) := by
    intro running
    refine drew_same drew ⟨rfl,rfl,fun _ => ⟨rfl,rfl⟩,fun _ => ⟨rfl,rfl⟩,fun _ => rfl,rfl,rfl,rfl,rfl⟩
      drew.arranged.current ?_
    intro t inside address found
    have kept : ((handedOver l running).pcbs address).vidmemVirtAddr = (l.pcbs address).vidmemVirtAddr := by
      by_cases saved : address = running
      · simp [handedOver,saveStack,setPcb,saved]
      · simp [handedOver,saveStack,setPcb,saved]
    rw [kept]
    exact drew.arranged.vids t inside address found
  rcases resumed_cases room resumed with ⟨running,rfl | ⟨pid,parsed,page,rfl⟩⟩ | ⟨process,found,rfl⟩
  · exact switched running
  · exact spawned_drew (switched running) pid parsed page
  · exact remapVidmem_drew drew drew.arranged.current found videoMemIndex

/-- The reader of a terminal is woken, which leaves the display alone. -/
theorem ack_same (k : Kernel) (t : Nat) : SameDisplay k (setTerminal k t { k.terminals t with ack := true }) :=
  sameDisplay_update rfl ⟨rfl,rfl⟩ ⟨rfl,rfl⟩ rfl
    ⟨rfl,rfl,fun _ => ⟨rfl,rfl⟩,fun _ => ⟨rfl,rfl⟩,fun _ => rfl,rfl,rfl,rfl,rfl⟩

theorem ack_drew {written : List (Nat × Write)} (drew : Drew k written l) (t : Nat) :
    Drew k written (setTerminal l t { l.terminals t with ack := true }) := by
  refine drew_same drew (ack_same l t) drew.arranged.exec ?_
  intro u within address found
  have unmoved : lastProc (setTerminal l t { l.terminals t with ack := true }) u = lastProc l u := by
    by_cases here : u = t
    · subst here; simp [lastProc,setTerminal]
    · simp [lastProc,setTerminal,here]
  rw [unmoved] at found
  exact drew.arranged.vids u within address found

theorem switch_drew {fs : Fs} {fuel termNum : Nat} (arranged : Arranged k)
    (switched : switchActiveTerminal fs fuel k termNum = .ok after) :
    Drew k (writes k (.switchTo fuel termNum)) after := by
  obtain ⟨inside,⟨here,rfl⟩ | ⟨other,refused,same⟩ | ⟨other,accepted,hidden,hid,resumed⟩⟩ :=
    switchActiveTerminal_ok switched
  · have nothing : writes after (.switchTo fuel termNum) = [] := if_neg fun both => both.1 here
    rw [nothing]
    exact drew_nothing arranged
  · have message : writes k (.switchTo fuel termNum) =
        notAvailableMessage.map fun c => (k.currTerminal,.putc c) := if_pos ⟨other,refused⟩
    rw [message,same]
    exact ack_drew (printf_drew arranged notAvailableMessage) k.currTerminal
  · have nothing : writes k (.switchTo fuel termNum) = [] := if_neg fun both => accepted both.2
    rw [nothing]
    obtain ⟨drew,terminals,pids⟩ := exchanged arranged inside other hid
    refine resume_drew drew ?_ resumed
    rw [pids,show activeTerm (showTerminal hidden termNum) = k.terminals termNum from congrFun terminals termNum]
    exact accepted_room accepted

theorem elsewhere_drew (arranged : Arranged k) (rest : Rest) : Drew k [] (elsewhere k rest) := by
  refine drew_same (drew_nothing arranged)
    ⟨rfl,rfl,fun _ => ⟨rfl,rfl⟩,fun _ => ⟨rfl,rfl⟩,fun _ => rfl,?_,?_,rfl,rfl⟩ arranged.exec ?_
  · simp [elsewhere]
  · simp [elsewhere]
  · intro t _ address _
    exact rest.vids address

/-- Every event makes its writes, each to its terminal alone. -/
theorem step_drew {fs : Fs} {event : Event} (arranged : Arranged k) (stepped : step fs k event = .ok after) :
    Drew k (writes k event) after := by
  cases event with
  | putc c => cases stepped; exact putc_drew arranged c
  | doBackspace => cases stepped; exact doBackspace_drew arranged
  | clear => cases stepped; exact clear_drew arranged
  | putcBuffer c => cases stepped; exact putcBuffer_drew arranged c
  | switchTo fuel termNum => exact switch_drew arranged stepped
  | elsewhere rest => cases stepped; exact elsewhere_drew arranged rest
  | setExecTerm t =>
    simp only [step] at stepped
    split at stepped
    · rename_i inside
      cases stepped
      exact drew_same (drew_nothing arranged)
        ⟨rfl,rfl,fun _ => ⟨rfl,rfl⟩,fun _ => ⟨rfl,rfl⟩,fun _ => rfl,rfl,rfl,rfl,rfl⟩ inside arranged.vids
    · cases stepped

end

/-! ### Runs -/

/-- A terminal as `terminal_init` leaves it. -/
theorem start_terminal (m : Kernel) {t : Nat} (inside : t < maxTerminals) :
    ∃ terminal : State.Terminal, (start m).terminals t = terminal ∧ terminal.xPos = 0 ∧ terminal.yPos = 0 ∧
      terminal.virtVidmemBackup = vidBkupMemStartVirt + t * 4096 ∧ terminal.physVidmemBackup = ownFrame t ∧
      terminal.attrib = attribs t ∧ terminal.numProcs = 0 := by
  rcases terminal_cases inside with rfl | rfl | rfl <;> exact ⟨_,rfl,rfl,rfl,rfl,rfl,rfl,rfl⟩

theorem start_arranged (m : Kernel) : Arranged (start m) := by
  have layout : Layout (start m).paging (screenFrame 0) := by
    have closed : (start m).paging = (start default).paging := rfl
    rw [closed]
    exact ⟨by decide,by decide,by decide,by decide,by decide⟩
  have facts := fun t inside => start_terminal m (t := t) inside
  have first : 0 < maxTerminals := by decide
  refine ⟨first,first,?_,?_,?_,?_,layout,?_⟩
  · intro t inside
    obtain ⟨_,rfl,_,_,virt,_⟩ := facts t inside
    exact virt
  · intro t inside
    obtain ⟨_,rfl,_,_,_,phys,_⟩ := facts t inside
    exact phys
  · intro t inside
    obtain ⟨_,rfl,_,_,_,_,attrib,_⟩ := facts t inside
    exact attrib
  · intro t inside
    obtain ⟨_,rfl,xPos,yPos,_⟩ := facts t inside
    constructor
    · rw [logical,xPos]; exact columns_pos
    · rw [logical,yPos]; exact Nat.lt_of_lt_of_le Nat.zero_lt_one (by decide)
  · intro t inside address found
    obtain ⟨_,rfl,_,_,_,_,_,none⟩ := facts t inside
    have some := (lastProc_ok.mp found).1
    omega

theorem run_drew {fs : Fs} {k last : Kernel} {events : List Event} {written : List (Nat × Write)}
    (arranged : Arranged k) (ran : run (watched (step fs) record) (k,[]) events = .ok (last,written)) :
    Drew k written last := by
  have keeps : ∀ (s : Kernel × List (Nat × Write)) e s', Drew k s.2 s.1 → watched (step fs) record s e = .ok s' →
      Drew k s'.2 s'.1 := by
    rintro ⟨k',written⟩ e ⟨after,written'⟩ before stepped
    obtain ⟨taken,rfl⟩ := watched_eq_ok.mp stepped
    exact drew_trans before (step_drew before.arranged taken)
  exact run_invariant keeps (drew_nothing arranged) ran

/-- In every run after `terminal_init` the backup page of each terminal is mapped
    to the frame of its screen, its screen and cursor are what the writes to it
    alone have made of its first screen, and every further event writes to its
    target alone. -/
theorem screens_independent {fs : Fs} {m k : Kernel} {events : List Event} {written : List (Nat × Write)}
    (ran : run (watched (step fs) record) (start m,[]) events = .ok (k,written)) {t : Nat} (inside : t < maxTerminals) :
    Maps (translate k.paging) (k.terminals t).virtVidmemBackup (frameOf k t) ∧
      logical k t = alone t (logical (start m) t) (writesTo t written) ∧
      ∀ event after, step fs k event = .ok after →
        logical after t = alone t (logical k t) (writesTo t (writes k event)) := by
  have drew := run_drew (start_arranged m) ran
  refine ⟨backup_window drew.arranged inside,drew.screens t inside,?_⟩
  intro event after stepped
  exact (step_drew drew.arranged stepped).screens t inside

/-- Kernel memory with a process on every terminal. -/
def busy : Rest where
  kernel := { (default : Kernel) with terminals := fun _ => { (default : State.Terminal) with
    numProcs := 1, childProcs := fun _ => 0x7FE000 } }
  vids := fun _ => .inl rfl

theorem screens_independent_switch : ∃ k written,
    run (watched (step ReadData.shellFs) record) (start default,[])
        [.putc 65,.elsewhere busy,.switchTo 0 1,.putcBuffer 66] = .ok (k,written) ∧
      logical k 0 = alone 0 (logical (start default) 0) [.putc 65,.putc 66] := by
  have ran : run (watched (step ReadData.shellFs) record) (start default,[])
      [.putc 65,.elsewhere busy,.switchTo 0 1,.putcBuffer 66] = .ok (_,_) := rfl
  exact ⟨_,_,ran,(screens_independent ran (show 0 < maxTerminals by decide)).2.1⟩

end MazeOS.Screens
