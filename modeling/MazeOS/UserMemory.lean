import MazeOS.VidmapPage

/-!
What user code reaches. `userTranslate` is the walk of the page tables in user
mode, which needs the user bit on both levels. The entry of the directory for
the first 4MB has that bit, so that nothing there is reached rests on the table
below it; the entry at 128MB has to follow every `execute`, `halt` and context
switch. `Layout` is what every write to the tables keeps, `Mapped` adds that the
entry at 128MB is that of the running process, and `user_memory` is what follows
for every kernel that a run reaches.
-/
namespace MazeOS.UserMemory
open MazeOS.Runs MazeOS.Faults MazeOS.Filesystem MazeOS.Paging MazeOS.State MazeOS.Display MazeOS.Process
  MazeOS.Syscalls MazeOS.Terminal MazeOS.Steps MazeOS.Tables MazeOS.Stacks MazeOS.ProcessTable MazeOS.StackDiscipline
  MazeOS.VidmapPage MazeOS.ReadData
open MazeOS.Boot (shellKernel shellKernel_started shellImage_valid shellFs_image)

/-- The physical address that user code reaches at a virtual one. -/
def userTranslate (p : PageTables) (virAddr : Nat) : Option Nat :=
  match p.pageDirectory (directoryIndex virAddr) with
  | .page entry =>
    if entry.present ∧ entry.userSupervisor ∧ entry.pageSize then
      some (entry.baseAddr * 2 ^ 22 + virAddr % 2 ^ 22)
    else none
  | .table entry =>
    if entry.present ∧ entry.userSupervisor then
      let pte := p.table entry.baseAddr (tableIndex virAddr)
      if pte.present ∧ pte.userSupervisor then some (pte.baseAddr * 2 ^ 12 + virAddr % 2 ^ 12) else none
    else none

/-! ### What a process may reach -/

/-- The first byte of the frame of a process. -/
def frameStart (pid : Nat) : Nat := _8MB + _4MB * (pid - 1)

/-- The frames of the visible screen and of the three backup pages. -/
def VideoFrame (frame : Nat) : Prop :=
  frame = videoMemIndex ∨ ∃ t, t < maxTerminals ∧ frame = (vidBkupMemStartPhys + t * 4096) / 2 ^ 12

/-- The addresses of a process, and what is behind them: its own page at 128MB,
    and a screen in the one page at 132MB. -/
def MayReach (pid virAddr physAddr : Nat) : Prop :=
  (_128MB ≤ virAddr ∧ virAddr < _128MB + _4MB ∧ physAddr = frameStart pid + (virAddr - _128MB)) ∨
  (userVideoMemAddr ≤ virAddr ∧ virAddr < userVideoMemAddr + 4096 ∧
    ∃ frame, VideoFrame frame ∧ physAddr = frame * 4096 + (virAddr - userVideoMemAddr))

def pidOf (k : Kernel) (address : Nat) : Nat := (k.pcbs address).pid

/-- User code reaches the memory of the running process and no other, and the
    kernel and the screen stay mapped to themselves for the supervisor. -/
structure Confined (k : Kernel) : Prop where
  reach : ∀ virAddr physAddr, userTranslate k.paging virAddr = some physAddr →
    MayReach (pidOf k (getPcb k)) virAddr physAddr
  own : ∀ virAddr, _128MB ≤ virAddr → virAddr < _128MB + _4MB →
    userTranslate k.paging virAddr = some (frameStart (pidOf k (getPcb k)) + (virAddr - _128MB))
  kernel : ∀ virAddr, _4MB ≤ virAddr → virAddr < _8MB →
    translate k.paging virAddr = some virAddr ∧ userTranslate k.paging virAddr = none
  screen : ∀ virAddr, videoMemStart ≤ virAddr → virAddr < videoMemStart + 4096 →
    translate k.paging virAddr = some virAddr ∧ userTranslate k.paging virAddr = none
  supervisor : ∀ virAddr physAddr, userTranslate k.paging virAddr = some physAddr →
    physAddr < _4MB ∨ _8MB ≤ physAddr
  apart : ∀ t i, Stored k t i → child k t i ≠ getPcb k →
    ∀ virAddr physAddr, userTranslate k.paging virAddr = some physAddr →
      physAddr < frameStart (pidOf k (child k t i)) ∨ frameStart (pidOf k (child k t i)) + _4MB ≤ physAddr
  /-- No present entry of a page is taken for that of a table. -/
  large : ∀ i entry, k.paging.pageDirectory i = .page entry → entry.present → entry.pageSize

/-! ### Page tables -/

/-- User code gets nowhere through an entry of the directory. -/
def Closed : Pde → Prop
  | .page entry => entry.present = false ∨ entry.userSupervisor = false
  | .table entry => entry.present = false ∨ entry.userSupervisor = false

/-- What every write to the page tables keeps. -/
structure Layout (p : PageTables) : Prop where
  low : p.pageDirectory 0 = .table ⟨true,true,true,.first4MB⟩
  kernel : p.pageDirectory 1 = .page ⟨true,true,false,true,1⟩
  video : p.pageDirectory 33 = .table ⟨true,true,true,.user4MB⟩ ∨ Closed (p.pageDirectory 33)
  closed : ∀ i, i ≠ 0 → i ≠ 32 → i ≠ 33 → Closed (p.pageDirectory i)
  large : ∀ i entry, p.pageDirectory i = .page entry → entry.present → entry.pageSize
  first : p.first4MBTable = initPaging.first4MBTable
  others : ∀ i, i ≠ 0 → (p.user4MBTable i).present = false
  shown : (p.user4MBTable 0).present = false ∨ VideoFrame (p.user4MBTable 0).baseAddr

theorem directoryIndex_user : directoryIndex _128MB = 32 := by decide
theorem directoryIndex_video : directoryIndex userVideoMemAddr = 33 := by decide
theorem tableIndex_video : tableIndex userVideoMemAddr = 0 := by decide

theorem directoryIndex_backup {t : Nat} (inside : t < maxTerminals) :
    directoryIndex (vidBkupMemStartVirt + t * 4096) = 34 := by
  have few : t < 3 := inside
  simp only [directoryIndex,vidBkupMemStartVirt,_128MB,_8MB]
  omega

section
variable {p : PageTables}

theorem layout_init : Layout initPaging := by
  have absent : ∀ i, i ≠ 0 → i ≠ 1 → initPaging.pageDirectory i = .page ⟨false,true,false,false,0⟩ := by
    intro i first second
    simp only [initPaging,if_neg first,if_neg second]
  refine ⟨rfl,rfl,.inr ?_,?_,?_,rfl,fun _ _ => rfl,.inl rfl⟩
  · rw [absent 33 (by decide) (by decide)]
    exact .inl rfl
  · intro i first _ _
    by_cases kernel : i = 1
    · subst kernel; exact .inr rfl
    · rw [absent i first kernel]
      exact .inl rfl
  · intro i entry found present
    by_cases first : i = 0
    · subst first; cases found
    · by_cases kernel : i = 1
      · subst kernel; cases found; rfl
      · rw [absent i first kernel] at found
        cases found
        cases present

theorem layout_mapPage (layout : Layout p) {pde : Pde4M} (size : pde.pageSize = true) :
    Layout (mapPage4MB p _128MB pde) := by
  have other : ∀ i, i ≠ 32 → (mapPage4MB p _128MB pde).pageDirectory i = p.pageDirectory i := by
    intro i apart
    simp only [mapPage4MB,directoryIndex_user,Function.update_of_ne apart]
  refine ⟨?_,?_,?_,?_,?_,layout.first,layout.others,layout.shown⟩
  · rw [other 0 (by decide)]; exact layout.low
  · rw [other 1 (by decide)]; exact layout.kernel
  · rw [other 33 (by decide)]; exact layout.video
  · intro i first user video
    rw [other i user]
    exact layout.closed i first user video
  · intro i entry found present
    by_cases user : i = 32
    · subst user
      simp only [mapPage4MB,directoryIndex_user,Function.update_self] at found
      cases found
      exact size
    · rw [other i user] at found
      exact layout.large i entry found present

theorem layout_mapUser (layout : Layout p) {frame : Nat} (video : VideoFrame frame) :
    Layout (mapUserVideoMem p userVideoMemAddr ⟨true,true,true,frame⟩) := by
  have other : ∀ i, i ≠ 33 →
      (mapUserVideoMem p userVideoMemAddr ⟨true,true,true,frame⟩).pageDirectory i = p.pageDirectory i := by
    intro i apart
    simp only [mapUserVideoMem,directoryIndex_video,Function.update_of_ne apart]
  have self : (mapUserVideoMem p userVideoMemAddr ⟨true,true,true,frame⟩).pageDirectory 33 =
      .table ⟨true,true,true,.user4MB⟩ := by
    simp only [mapUserVideoMem,directoryIndex_video,Function.update_self]
  refine ⟨?_,?_,.inl self,?_,?_,layout.first,?_,.inr ?_⟩
  · rw [other 0 (by decide)]; exact layout.low
  · rw [other 1 (by decide)]; exact layout.kernel
  · intro i first user apart
    rw [other i apart]
    exact layout.closed i first user apart
  · intro i entry found present
    by_cases here : i = 33
    · subst here
      rw [self] at found
      cases found
    · rw [other i here] at found
      exact layout.large i entry found present
  · intro i later
    simp only [mapUserVideoMem,tableIndex_video,Function.update_of_ne later]
    exact layout.others i later
  · simp only [mapUserVideoMem,tableIndex_video,Function.update_self]
    exact video

theorem layout_free (layout : Layout p) : Layout (freeUserVideoMem p userVideoMemAddr) := by
  refine ⟨layout.low,layout.kernel,layout.video,layout.closed,layout.large,layout.first,?_,.inl ?_⟩
  · intro i later
    simp only [freeUserVideoMem,tableIndex_video,Function.update_of_ne later]
    exact layout.others i later
  · simp only [freeUserVideoMem,tableIndex_video,Function.update_self]

theorem layout_mapBackup (layout : Layout p) {virAddr : Nat} (backup : directoryIndex virAddr = 34) (physAddr : Nat) :
    Layout (mapBackupVidmem p virAddr physAddr) := by
  have other : ∀ i, i ≠ 34 → (mapBackupVidmem p virAddr physAddr).pageDirectory i = p.pageDirectory i := by
    intro i apart
    simp only [mapBackupVidmem,backup,Function.update_of_ne apart]
  have self : (mapBackupVidmem p virAddr physAddr).pageDirectory 34 = .table ⟨true,true,false,.backupVidmem⟩ := by
    simp only [mapBackupVidmem,backup,Function.update_self]
  refine ⟨?_,?_,?_,?_,?_,layout.first,layout.others,layout.shown⟩
  · rw [other 0 (by decide)]; exact layout.low
  · rw [other 1 (by decide)]; exact layout.kernel
  · rw [other 33 (by decide)]; exact layout.video
  · intro i first user video
    by_cases here : i = 34
    · subst here; rw [self]; exact .inr rfl
    · rw [other i here]
      exact layout.closed i first user video
  · intro i entry found present
    by_cases here : i = 34
    · subst here
      rw [self] at found
      cases found
    · rw [other i here] at found
      exact layout.large i entry found present

/-! ### The walk -/

theorem userTranslate_closed {virAddr : Nat} (closed : Closed (p.pageDirectory (directoryIndex virAddr))) :
    userTranslate p virAddr = none := by
  simp only [userTranslate]
  cases found : p.pageDirectory (directoryIndex virAddr) with
  | page entry =>
    rw [found] at closed
    rcases closed with absent | supervisor
    · simp [absent]
    · simp [supervisor]
  | table entry =>
    rw [found] at closed
    rcases closed with absent | supervisor
    · simp [absent]
    · simp [supervisor]

theorem first4MB_supervisor (i : Nat) : (initPaging.first4MBTable i).userSupervisor = false := by
  by_cases screen : i = videoMemIndex
  · simp only [initPaging,if_pos screen]
  · simp only [initPaging,if_neg screen]

/-- The table of the first 4MB has no user page. -/
theorem userTranslate_low (layout : Layout p) {virAddr : Nat} (low : directoryIndex virAddr = 0) :
    userTranslate p virAddr = none := by
  have supervisor := first4MB_supervisor (tableIndex virAddr)
  rw [← layout.first] at supervisor
  simp [userTranslate,low,layout.low,PageTables.table,supervisor]

/-- An address that user code reaches through a table. -/
theorem userTranslate_table {virAddr physAddr : Nat} {entry : Pde4K}
    (table : p.pageDirectory (directoryIndex virAddr) = .table entry)
    (reached : userTranslate p virAddr = some physAddr) :
    (p.table entry.baseAddr (tableIndex virAddr)).present = true ∧
      physAddr = (p.table entry.baseAddr (tableIndex virAddr)).baseAddr * 2 ^ 12 + virAddr % 2 ^ 12 := by
  simp only [userTranslate,table] at reached
  split at reached
  · split at reached
    · rename_i user
      cases reached
      exact ⟨user.1,rfl⟩
    · cases reached
  · cases reached

/-- In the 4MB of the video page only the first page is mapped, to a screen. -/
theorem userTranslate_video (layout : Layout p) {virAddr physAddr : Nat} (video : directoryIndex virAddr = 33)
    (reached : userTranslate p virAddr = some physAddr) :
    userVideoMemAddr ≤ virAddr ∧ virAddr < userVideoMemAddr + 4096 ∧ ∃ frame, VideoFrame frame ∧
      physAddr = frame * 4096 + (virAddr - userVideoMemAddr) := by
  rcases layout.video with table | closed
  · rw [← video] at table
    obtain ⟨present,address⟩ := userTranslate_table table reached
    have first : tableIndex virAddr = 0 := by
      by_contra later
      rw [PageTables.table,layout.others _ later] at present
      cases present
    rw [first,PageTables.table] at present address
    have frame := layout.shown.resolve_left (by rw [present]; decide)
    simp only [directoryIndex,tableIndex] at video first
    simp only [userVideoMemAddr,_128MB,_4MB]
    exact ⟨by omega,by omega,_,frame,by omega⟩
  · rw [userTranslate_closed (video ▸ closed)] at reached
    cases reached

/-- The page of a process at 128MB. -/
theorem userTranslate_page {pid : Nat} (owned : p.pageDirectory 32 = .page (newCore pid 0).pde) {virAddr : Nat}
    (user : directoryIndex virAddr = 32) : userTranslate p virAddr = some (frameStart pid + (virAddr - _128MB)) := by
  simp only [userTranslate,user,owned,newCore,and_self,if_true,Option.some.injEq]
  simp only [directoryIndex] at user
  simp only [frameStart,_8MB,_4MB,_128MB]
  omega

/-- Everything that user code reaches. -/
theorem userTranslate_some (layout : Layout p) {pid : Nat} (owned : p.pageDirectory 32 = .page (newCore pid 0).pde)
    {virAddr physAddr : Nat} (reached : userTranslate p virAddr = some physAddr) : MayReach pid virAddr physAddr := by
  by_cases user : directoryIndex virAddr = 32
  · rw [userTranslate_page owned user] at reached
    have address := Option.some.inj reached
    have bounds : _128MB ≤ virAddr ∧ virAddr < _128MB + _4MB := by
      simp only [directoryIndex] at user
      simp only [_128MB,_4MB]
      omega
    exact .inl ⟨bounds.1,bounds.2,address.symm⟩
  · by_cases video : directoryIndex virAddr = 33
    · exact .inr (userTranslate_video layout video reached)
    · exfalso
      by_cases low : directoryIndex virAddr = 0
      · rw [userTranslate_low layout low] at reached
        cases reached
      · rw [userTranslate_closed (layout.closed _ low user video)] at reached
        cases reached

end

/-! ### Kernels -/

/-- The tables are laid out, and the page at 128MB is that of the running process. -/
structure Mapped (k : Kernel) : Prop where
  layout : Layout k.paging
  owned : k.paging.pageDirectory 32 = .page (k.pcbs (getPcb k)).pde

section
variable {S : Schedule} {k after : Kernel}

theorem blockOf (represents : Represents S (tableOf k)) {q : Nat} (held : Held S.family q) :
    (k.pcbs (pcbAddress q)).pde = (newCore q 0).pde ∧ (k.pcbs (pcbAddress q)).pdeVirtAddr = _128MB :=
  ⟨(represents.tabled.blocks q held).pde,(represents.tabled.blocks q held).pdeVirtAddr⟩

theorem pidOf_held (represents : Represents S (tableOf k)) {q : Nat} (held : Held S.family q) :
    pidOf k (pcbAddress q) = q := (represents.tabled.blocks q held).number

/-- What user code reaches, for a kernel that stands for a schedule. -/
theorem confined (represents : Represents S (tableOf k)) (mapped : Mapped k) : Confined k := by
  obtain ⟨p,live,_,running,_⟩ := running_live represents
  have valid := represents.tabled.valid p live
  have few : p ≤ 6 := valid.2
  have address : getPcb k = pcbAddress p := running
  have owned : k.paging.pageDirectory 32 = .page (newCore p 0).pde := by
    rw [mapped.owned,address,(blockOf represents live).1]
  have number : pidOf k (getPcb k) = p := by rw [address,pidOf_held represents live]
  have reach : ∀ virAddr physAddr, userTranslate k.paging virAddr = some physAddr → MayReach p virAddr physAddr :=
    fun virAddr physAddr reached => userTranslate_some mapped.layout owned reached
  have frames : ∀ virAddr physAddr, MayReach p virAddr physAddr →
      physAddr < 0x400000 ∨ (frameStart p ≤ physAddr ∧ physAddr < frameStart p + _4MB) ∨ 0x4000000 ≤ physAddr := by
    intro virAddr physAddr may
    rcases may with ⟨low,high,same⟩ | ⟨_,high,frame,video,same⟩
    · simp only [_128MB,_4MB] at low high same ⊢
      omega
    · rcases video with rfl | ⟨t,inside,rfl⟩
      · simp only [videoMemIndex,userVideoMemAddr,_128MB,_4MB] at high same
        omega
      · simp only [vidBkupMemStartPhys] at same
        omega
  refine ⟨?_,?_,?_,?_,?_,?_,mapped.layout.large⟩
  · intro virAddr physAddr reached
    rw [number]
    exact reach virAddr physAddr reached
  · intro virAddr low high
    rw [number]
    refine userTranslate_page owned ?_
    simp only [_128MB,_4MB] at low high
    simp only [directoryIndex]
    omega
  · intro virAddr low high
    simp only [_4MB,_8MB] at low high
    have index : directoryIndex virAddr = 1 := by
      simp only [directoryIndex]
      omega
    constructor
    · simp only [Paging.translate,index,mapped.layout.kernel,and_self,if_true,Option.some.injEq]
      omega
    · apply userTranslate_closed
      rw [index,mapped.layout.kernel]
      exact .inr rfl
  · intro virAddr low high
    simp only [videoMemStart] at low high
    have index : directoryIndex virAddr = 0 := by
      simp only [directoryIndex]
      omega
    have entry : tableIndex virAddr = videoMemIndex := by
      simp only [tableIndex,videoMemIndex]
      omega
    constructor
    · simp only [Paging.translate,index,mapped.layout.low,entry,PageTables.table,mapped.layout.first,initPaging,if_true,
        Option.some.injEq,videoMemIndex]
      omega
    · exact userTranslate_low mapped.layout index
  · intro virAddr physAddr reached
    have cases := frames _ _ (reach virAddr physAddr reached)
    simp only [frameStart,_8MB,_4MB] at cases ⊢
    omega
  · intro t i stored other virAddr physAddr reached
    obtain ⟨q,place,child',number'⟩ := stored_get represents stored
    have held := held_of_get place
    have valid' := represents.tabled.valid q held
    have few' : q ≤ 6 := valid'.2
    have apart : q ≠ p := by
      intro same
      subst same
      exact other (child'.trans address.symm)
    have cases := frames _ _ (reach virAddr physAddr reached)
    rw [pidOf,number']
    simp only [frameStart,_8MB,_4MB] at cases ⊢
    omega

/-! ### What one step does to the tables -/

/-- Neither the tables nor the blocks have changed, and the same process runs. -/
theorem mapped_same (mapped : Mapped k) (paging : after.paging = k.paging) (pcbs : after.pcbs = k.pcbs)
    (running : getPcb after = getPcb k) : Mapped after :=
  ⟨paging ▸ mapped.layout,by rw [paging,pcbs,running]; exact mapped.owned⟩

theorem mapped_draws (mapped : Mapped k) (draws : Draws k after) : Mapped after := by
  obtain ⟨_,_,_,rfl⟩ := draws
  exact mapped_same mapped rfl rfl rfl

theorem layout_draws (layout : Layout k.paging) (draws : Draws k after) : Layout after.paging := by
  rw [(sameScreens_draws draws).2]
  exact layout

theorem mapPage_owned (p : PageTables) (pde : Pde4M) : (mapPage4MB p _128MB pde).pageDirectory 32 = .page pde := by
  simp only [mapPage4MB,directoryIndex_user,Function.update_self]

/-- A new process runs on its own page. -/
theorem spawned_mapped (layout : Layout k.paging) (pid : Nat) (parsed : Parsed) (page : Nat → UInt8) :
    Mapped (spawned k pid parsed page) := by
  refine ⟨layout_mapPage layout rfl,?_⟩
  have running : getPcb (spawned k pid parsed page) = pcbAddress pid := rfl
  rw [running]
  simp only [spawned,Function.update_self]
  exact mapPage_owned _ _

theorem execute_mapped {fs : Fs} {fuel : Nat} {command : Command} {result : Executed} (layout : Layout k.paging)
    (executed : Syscalls.execute fs fuel k command = .ok result) :
    match result with
    | .returned _ after => Draws k after
    | .started _ after => Mapped after := by
  rcases execute_cases executed with ⟨_,after,rfl,_⟩ | ⟨_,pid,parsed,page,rfl,_⟩
  · exact execute_returned executed
  · exact spawned_mapped layout pid parsed page

theorem vidmap_mapped (mapped : Mapped k) (screenStart : Nat) : Mapped (vidmap k screenStart).2.1 := by
  simp only [vidmap]
  split
  · exact mapped
  · refine ⟨layout_mapUser mapped.layout (.inl rfl),?_⟩
    have other : (32 : Nat) ≠ 33 := by decide
    simp only [mapUserVideoMem,directoryIndex_video,setPcb,getPcb,Function.update_of_ne other,Function.update_self]
    exact mapped.owned

theorem popped_layout (layout : Layout k.paging)
    (only : vidOf k (getPcb k) = 0 ∨ vidOf k (getPcb k) = userVideoMemAddr) : Layout (popped k).paging := by
  rcases only with none | some
  · have none' : (k.pcbs (getPcb k)).vidmemVirtAddr = 0 := none
    simp only [popped,none',ne_eq,not_true_eq_false,if_false]
    exact layout
  · have some' : (k.pcbs (getPcb k)).vidmemVirtAddr = userVideoMemAddr := some
    have nonzero : userVideoMemAddr ≠ 0 := by decide
    simp only [popped,some',nonzero,ne_eq,not_false_eq_true,if_true]
    exact layout_free layout

/-- The end of a process, where `halt` starts from a kernel that differs at most
    in the block of the process that ends. -/
theorem ending_mapped {fs : Fs} {fuel : Nat} {status : UInt8} {before : Kernel} (represents : Represents S (tableOf k))
    (ended : tableOf before = tableOf k ∨ tableOf before = (tableOf k).raise)
    (halted : Syscalls.halt fs fuel before status = .ok after) (layout : Layout before.paging) : Mapped after := by
  obtain ⟨_,running,_,vids⟩ := ending_same ended
  have vid : vidOf before (getPcb k) = vidOf k (getPcb k) := vids (getPcb k)
  have released := popped_layout layout (by rw [running,vid]; exact vidOf_running represents)
  rcases ending_cases represents ended halted with ⟨child,runs,⟨_,same⟩,paged⟩ | ⟨_,_,executed⟩
  · obtain ⟨_,q,live,_,address⟩ := parent_below represents child
    have address' : (k.pcbs (getPcb k)).parent = pcbAddress q := address
    obtain ⟨pde,_⟩ := blockOf represents live
    rw [← address'] at pde
    obtain ⟨_,core⟩ := ending_core ended (k.pcbs (getPcb k)).parent
    have block : (after.pcbs (getPcb after)).pde = (k.pcbs (k.pcbs (getPcb k)).parent).pde := by
      rw [runs,same]
      exact congrArg Core.pde core
    refine ⟨paged ▸ layout_mapPage released ?_,?_⟩
    · rw [pde]; rfl
    · rw [paged,block]
      exact mapPage_owned _ _
  · have cleared := layout_draws released (clearSetpos_draws (popped before) 0 0)
    exact execute_mapped cleared executed

theorem saveStack_pde (address process : Nat) : ((saveStack k address).pcbs process).pde = (k.pcbs process).pde := by
  by_cases same : process = address
  · subst same; simp [saveStack,setPcb]
  · simp [saveStack,setPcb,same]

theorem contextSwitch_mapped {next : Nat} (represents : Represents S (tableOf k)) (mapped : Mapped k)
    (switched : contextSwitch k next = .ok after) : Mapped after := by
  obtain ⟨q,held,_,runs,_,blocks,paged,_⟩ := contextSwitch_held represents switched
  obtain ⟨pde,_⟩ := blockOf represents held
  refine ⟨paged ▸ layout_mapPage mapped.layout ?_,?_⟩
  · rw [pde]; rfl
  · have block : (after.pcbs (pcbAddress q)).pde = (k.pcbs (pcbAddress q)).pde := by
      rw [blocks]
      exact saveStack_pde (getPcb k) (pcbAddress q)
    rw [runs,paged,block]
    exact mapPage_owned _ _

/-- Remapping the video page of a process leaves the entry at 128MB. -/
theorem remapVidmem_layout {process frame : Nat} (only : vidOf k process = 0 ∨ vidOf k process = userVideoMemAddr)
    (video : VideoFrame frame) (layout : Layout k.paging) :
    Layout (remapVidmem k process frame).paging ∧
      (remapVidmem k process frame).paging.pageDirectory 32 = k.paging.pageDirectory 32 := by
  simp only [remapVidmem]
  rcases only with none | some
  · have none' : (k.pcbs process).vidmemVirtAddr = 0 := none
    simp only [none',ne_eq,not_true_eq_false,if_false,and_true]
    exact layout
  · have some' : (k.pcbs process).vidmemVirtAddr = userVideoMemAddr := some
    have nonzero : userVideoMemAddr ≠ 0 := by decide
    have other : (32 : Nat) ≠ 33 := by decide
    simp only [some',nonzero,ne_eq,not_false_eq_true,if_true]
    refine ⟨layout_mapUser layout video,?_⟩
    simp only [mapUserVideoMem,directoryIndex_video,Function.update_of_ne other]

theorem mapBackup_owned (p : PageTables) {virAddr : Nat} (backup : directoryIndex virAddr = 34) (physAddr : Nat) :
    (mapBackupVidmem p virAddr physAddr).pageDirectory 32 = p.pageDirectory 32 := by
  have other : (32 : Nat) ≠ 34 := by decide
  simp only [mapBackupVidmem,backup,Function.update_of_ne other]

/-- The first half of a switch works on the backup pages and the video page. -/
theorem hideActive_layout {hidden : Kernel} (represents : Represents S (tableOf k)) (video : Video k)
    (layout : Layout k.paging) (hid : hideActive k = .ok hidden) :
    Layout hidden.paging ∧ hidden.paging.pageDirectory 32 = k.paging.pageDirectory 32 := by
  obtain ⟨process,found,rfl⟩ := hideActive_ok hid
  obtain ⟨some,_,last,_⟩ := lastProc_ok.mp found
  have isLast : process = lastOf k k.currTerminal := last.symm
  subst isLast
  have only : vidOf (backedUp k) (lastOf k k.currTerminal) = 0 ∨
      vidOf (backedUp k) (lastOf k k.currTerminal) = userVideoMemAddr := vidOf_last represents video.current some
  have backup := directoryIndex_backup video.current
  rw [← video.virt _ video.current] at backup
  have frame : VideoFrame ((activeTerm k).physVidmemBackup / 2 ^ 12) := by
    refine .inr ⟨k.currTerminal,video.current,?_⟩
    rw [activeTerm,video.phys _ video.current]
  obtain ⟨remapped,same⟩ := remapVidmem_layout only frame (layout_mapBackup layout backup _)
  exact ⟨remapped,same.trans (mapBackup_owned _ backup _)⟩

/-- Waking the reader of a terminal changes no mapping. -/
theorem mapped_woken (mapped : Mapped k) (t : Nat) : Mapped (setTerminal k t { k.terminals t with ack := true }) :=
  mapped_same mapped rfl rfl rfl

theorem switch_mapped {fs : Fs} {fuel termNum : Nat} (valid : ValidShell fs) (represents : Represents S (tableOf k))
    (video : Video k) (mapped : Mapped k) (switched : switchActiveTerminal fs fuel k termNum = .ok after) :
    Mapped after := by
  obtain ⟨inside,⟨_,rfl⟩ | ⟨_,_,rfl⟩ | ⟨_,available,hidden,hid,shown⟩⟩ := switchActiveTerminal_ok switched
  · exact mapped
  · exact mapped_woken (mapped_draws mapped (printf_draws k notAvailableMessage)) k.currTerminal
  · obtain ⟨layout,owned⟩ := hideActive_layout represents video mapped.layout hid
    obtain ⟨screens,_,pcbs,_⟩ := hideActive_shows represents video hid
    have backup := directoryIndex_backup inside
    rw [← video.virt _ inside,← screens.virt] at backup
    have table := tableOf_shown hid termNum
    have shownLayout : Layout (showTerminal hidden termNum).paging := layout_mapBackup layout backup _
    have shownOwned : (showTerminal hidden termNum).paging.pageDirectory 32 = k.paging.pageDirectory 32 :=
      (mapBackup_owned _ backup _).trans owned
    have size := shown_numProcs table
    by_cases bare : (k.terminals termNum).numProcs = 0
    · obtain ⟨eip,executed⟩ := resume_opens (steady_of_represents represents) valid table (size.trans bare) bare
        available shown
      have opened : Layout (opening (showTerminal hidden termNum)).paging := shownLayout
      exact execute_mapped opened executed
    · obtain ⟨process,found,rfl⟩ := resume_maps (by omega) shown
      obtain rfl := shown_last table found
      have vids : vidOf (showTerminal hidden termNum) (lastOf k termNum) = vidOf k (lastOf k termNum) :=
        congrFun (congrArg Table.vids table) _
      have only := vidOf_last represents inside (Nat.pos_of_ne_zero bare)
      rw [← vids] at only
      have visible : VideoFrame videoMemIndex := .inl rfl
      obtain ⟨remapped,same⟩ := remapVidmem_layout only visible shownLayout
      refine ⟨remapped,?_⟩
      have running : getPcb (remapVidmem (showTerminal hidden termNum) (lastOf k termNum) videoMemIndex) = getPcb k :=
        congrArg Table.running ((tableOf_remapVidmem _ _ _).trans table)
      have blocks : (remapVidmem (showTerminal hidden termNum) (lastOf k termNum) videoMemIndex).pcbs = k.pcbs :=
        (remapVidmem_rest _ _).2.trans pcbs
      rw [same,shownOwned,mapped.owned,running,blocks]

/-- Every event leaves the tables laid out, with the page of the process that
    then runs at 128MB. -/
theorem step_mapped {fs : Fs} {op : Op} (valid : ValidShell fs) (represents : Represents S (tableOf k)) (video : Video k)
    (mapped : Mapped k) (taken : step fs k op = .ok after) : Mapped after := by
  cases op with
  | trap =>
    cases taken
    exact mapped_same mapped rfl rfl (steady_of_represents represents).stack
  | frame esp ebp =>
    simp only [step] at taken
    split at taken
    · rename_i inPage
      cases taken
      exact mapped_same mapped rfl rfl inPage
    · cases taken
  | execute fuel command =>
    obtain ⟨result,executed,ended⟩ := bind_eq_ok.mp taken
    have result_mapped := execute_mapped mapped.layout executed
    cases result with
    | returned _ k' =>
      cases ended
      exact mapped_draws mapped result_mapped
    | started _ k' =>
      cases ended
      exact result_mapped
  | halt fuel status =>
    exact ending_mapped represents (.inl rfl) taken mapped.layout
  | exception fuel text =>
    have raised := tableOf_raised k text
    obtain ⟨phys,cursor,place,same⟩ := printf_draws k text
    rw [same] at raised
    simp only [step,exception,same] at taken
    exact ending_mapped represents (.inr raised) taken mapped.layout
  | vidmap screenStart =>
    cases taken
    exact vidmap_mapped mapped screenStart
  | pit =>
    rcases pitInterruptHandler_ok taken with rfl | ⟨next,_,switched⟩
    · exact mapped
    · exact contextSwitch_mapped represents mapped switched
  | switchTo fuel termNum => exact switch_mapped valid represents video mapped taken

end

/-! ### Runs -/

theorem boot_layout (m : Kernel) : Layout (boot m).paging := by
  refine layout_draws ?_ (draws_trans (printf_draws _ enablingMessage) (clearSetpos_draws _ 0 0))
  refine layout_mapBackup (layout_mapBackup (layout_mapBackup (layout_mapBackup layout_init ?_ _) ?_ _) ?_ _) ?_ _
  · exact directoryIndex_backup (t := 0) (by decide)
  · exact directoryIndex_backup (t := 1) (by decide)
  · exact directoryIndex_backup (t := 2) (by decide)
  · exact directoryIndex_backup (t := 0) (by decide)

theorem started_mapped {fs : Fs} {k : Kernel} (started : Started fs k) : Mapped k := by
  obtain ⟨m,fuel,eip,executed⟩ := started
  exact execute_mapped (boot_layout m) executed

/-- What every reachable kernel satisfies. -/
theorem reachable_mapped {fs : Fs} {k : Kernel} (valid : ValidShell fs) (reached : Reachable (step fs) (Started fs) k) :
    (∃ S, Represents S (tableOf k)) ∧ Video k ∧ Mapped k := by
  have initially : ∀ k, Started fs k → (∃ S, Represents S (tableOf k)) ∧ Video k ∧ Mapped k := by
    intro k started
    obtain ⟨⟨represents,video⟩,_⟩ := started_right started
    exact ⟨represents,video,started_mapped started⟩
  have keeps : ∀ k op after, (∃ S, Represents S (tableOf k)) ∧ Video k ∧ Mapped k → step fs k op = .ok after →
      (∃ S, Represents S (tableOf after)) ∧ Video after ∧ Mapped after := by
    rintro k op after ⟨⟨S,represents⟩,video,mapped⟩ taken
    obtain ⟨S',_,next⟩ := step_represents valid represents taken
    exact ⟨⟨S',next⟩,(step_right valid represents video taken).1,step_mapped valid represents video mapped taken⟩
  exact reachable_invariant initially keeps reached

/-- In every state that a run from the first shell reaches, user code reaches the
    memory of the running process and no other. -/
theorem user_memory {fs : Fs} {k : Kernel} (valid : ValidShell fs) (reached : Reachable (step fs) (Started fs) k) :
    Confined k := by
  obtain ⟨⟨S,represents⟩,_,mapped⟩ := reachable_mapped valid reached
  exact confined represents mapped

/-- The first shell executes another one, which has the screen in its memory; the
    second terminal is opened, and a timer interrupt goes back to the second shell. -/
def hiddenOps : List Op := [.execute 253 shellCommand,.vidmap _128MB,.switchTo 253 1,.pit]

/-- The second shell runs out of sight: it reaches its own page and, where its
    screen was, the backup page of its terminal. -/
theorem user_memory_shell : ∃ k, Reachable (step shellFs) (Started shellFs) k ∧ k.execTerm ≠ k.currTerminal ∧
    Confined k ∧ userTranslate k.paging (_128MB + 5) = some (frameStart 2 + 5) ∧
    userTranslate k.paging userVideoMemAddr = some vidBkupMemStartPhys := by
  have leads : Leads (run (step shellFs) shellKernel hiddenOps) fun k => pidOf k (getPcb k) = 2 ∧
      k.execTerm ≠ k.currTerminal ∧ userTranslate k.paging userVideoMemAddr = some vidBkupMemStartPhys := by
    decide +kernel
  obtain ⟨k,ran,second,hidden,shown⟩ := leads
  have reached := reachable_run (reachable_start shellKernel_started) ran
  have confined := user_memory (shellImage_valid shellFs_image) reached
  have own := confined.own (_128MB + 5) (by decide) (by decide)
  rw [second] at own
  exact ⟨k,reached,hidden,confined,own,shown⟩

end MazeOS.UserMemory
