import MazeOS.StackDiscipline

/-!
The page that `vidmap` gives to a process. All processes share one page-table
entry, so that it shows the terminal of the running process (`VidmapRight`) is
no invariant: `context_switch` and `halt` leave the entry as the other process
had it, and `vidmap` maps the visible screen on any terminal. `VidmapKept` says
of each event, by the state before it, when the entry is right after it
(`step_right`). Here `vidmap` is one step.
-/
namespace MazeOS.VidmapPage
open MazeOS.Runs MazeOS.Faults MazeOS.Filesystem MazeOS.Paging MazeOS.State MazeOS.Display MazeOS.Process
  MazeOS.Syscalls MazeOS.Terminal MazeOS.Steps MazeOS.Tables MazeOS.Stacks MazeOS.ProcessTable MazeOS.StackDiscipline

/-! ### The entry -/

/-- User code reaches a frame at an address. -/
def Shows (p : PageTables) (virAddr frame : Nat) : Prop :=
  ∃ pte, pteOf p virAddr = some pte ∧ pte.present = true ∧ pte.userSupervisor = true ∧ pte.baseAddr = frame

/-- The directory entry of the video page is that of `user_4MB_table`, or none
    of a table. -/
def UserDirectory (p : PageTables) : Prop :=
  p.pageDirectory (directoryIndex userVideoMemAddr) = .table ⟨true,true,true,.user4MB⟩ ∨
    ∃ entry, p.pageDirectory (directoryIndex userVideoMemAddr) = .page entry

section
variable {p : PageTables}

theorem other_directory {virAddr : Nat} (other : directoryIndex virAddr ≠ directoryIndex userVideoMemAddr)
    (directory : Nat → Pde) (entry : Pde) :
    Function.update directory (directoryIndex virAddr) entry (directoryIndex userVideoMemAddr) =
      directory (directoryIndex userVideoMemAddr) :=
  Function.update_of_ne other.symm _ _

theorem userDirectory_mapPage (user : UserDirectory p) (pde : Pde4M) : UserDirectory (mapPage4MB p _128MB pde) := by
  have other : directoryIndex _128MB ≠ directoryIndex userVideoMemAddr := by decide
  simp only [UserDirectory,mapPage4MB,other_directory other]
  exact user

theorem shows_mapPage (pde : Pde4M) (frame : Nat) :
    Shows (mapPage4MB p _128MB pde) userVideoMemAddr frame ↔ Shows p userVideoMemAddr frame := by
  have other : directoryIndex _128MB ≠ directoryIndex userVideoMemAddr := by decide
  have same : pteOf (mapPage4MB p _128MB pde) userVideoMemAddr = pteOf p userVideoMemAddr := by
    simp only [pteOf,mapPage4MB,other_directory other]
    rfl
  rw [Shows,same,Shows]

theorem userDirectory_mapBackup (user : UserDirectory p) {virAddr : Nat} (physAddr : Nat)
    (other : directoryIndex virAddr ≠ directoryIndex userVideoMemAddr) :
    UserDirectory (mapBackupVidmem p virAddr physAddr) := by
  simp only [UserDirectory,mapBackupVidmem,other_directory other]
  exact user

theorem shows_mapBackup (user : UserDirectory p) {virAddr : Nat} (physAddr frame : Nat)
    (other : directoryIndex virAddr ≠ directoryIndex userVideoMemAddr) :
    Shows (mapBackupVidmem p virAddr physAddr) userVideoMemAddr frame ↔ Shows p userVideoMemAddr frame := by
  have same : pteOf (mapBackupVidmem p virAddr physAddr) userVideoMemAddr = pteOf p userVideoMemAddr := by
    simp only [pteOf,mapBackupVidmem,other_directory other]
    rcases user with table | ⟨entry,page⟩
    · rw [table]; rfl
    · rw [page]
  rw [Shows,same,Shows]

theorem userDirectory_mapUser (pte : Pte) : UserDirectory (mapUserVideoMem p userVideoMemAddr pte) :=
  .inl (by simp [mapUserVideoMem])

theorem shows_mapUser (frame frame' : Nat) :
    Shows (mapUserVideoMem p userVideoMemAddr ⟨true,true,true,frame⟩) userVideoMemAddr frame' ↔ frame = frame' := by
  have mapped : pteOf (mapUserVideoMem p userVideoMemAddr ⟨true,true,true,frame⟩) userVideoMemAddr =
      some ⟨true,true,true,frame⟩ := by
    simp [pteOf,mapUserVideoMem,PageTables.table]
  rw [Shows,mapped]
  constructor
  · rintro ⟨pte,same,_,_,equal⟩
    cases same
    exact equal
  · rintro rfl
    exact ⟨_,rfl,rfl,rfl,rfl⟩

theorem userDirectory_free (user : UserDirectory p) : UserDirectory (freeUserVideoMem p userVideoMemAddr) := user

theorem not_shows_free (user : UserDirectory p) (frame : Nat) :
    ¬ Shows (freeUserVideoMem p userVideoMemAddr) userVideoMemAddr frame := by
  rintro ⟨pte,found,present,_⟩
  rcases user with table | ⟨entry,page⟩
  · have freed : pteOf (freeUserVideoMem p userVideoMemAddr) userVideoMemAddr = some ⟨false,true,false,0⟩ := by
      simp [pteOf,freeUserVideoMem,table,PageTables.table]
    rw [freed] at found
    cases found
    cases present
  · have freed : pteOf (freeUserVideoMem p userVideoMemAddr) userVideoMemAddr = none := by
      simp [pteOf,freeUserVideoMem,page]
    rw [freed] at found
    cases found

end

/-! ### What is claimed, and when it holds -/

/-- The frame that the screen of a terminal is in. -/
def frameOf (k : Kernel) (t : Nat) : Nat :=
  if t = k.currTerminal then videoMemIndex else (k.terminals t).physVidmemBackup / 2 ^ 12

/-- The last process of a terminal. -/
def lastOf (k : Kernel) (t : Nat) : Nat := child k t ((k.terminals t).numProcs - 1)

def vidOf (k : Kernel) (address : Nat) : Nat := (k.pcbs address).vidmemVirtAddr

/-- The video page of the running process, if it has one, shows its terminal. -/
def VidmapRight (k : Kernel) : Prop :=
  vidOf k (getPcb k) ≠ 0 → Shows k.paging (vidOf k (getPcb k)) (frameOf k k.execTerm)

/-- The entry is right for a process of a terminal, if it has a video page. -/
def RightFor (k : Kernel) (process t : Nat) : Prop :=
  vidOf k process = 0 ∨ Shows k.paging (vidOf k process) (frameOf k t)

/-- The entry is right for the process that the timer switches to. -/
def NextRight (k : Kernel) : Option Nat → Prop
  | some next => RightFor k (lastOf k next) next
  | none => True

/-- The events that leave the entry right, by the state before them: `vidmap` on
    the active terminal; the end of a process that has no video page, where the
    entry is right for its parent; a timer switch to a process that the entry is
    right for; and a switch of the active terminal that does not give the running
    process another screen, or remaps the entry for the running process alone. -/
def VidmapKept (k : Kernel) : Op → Prop
  | .trap | .frame _ _ | .execute _ _ => True
  | .vidmap screenStart => (screenStart < _128MB ∨ screenStart ≥ _128MB + _4MB) ∨ k.execTerm = k.currTerminal
  | .halt _ _ | .exception _ _ =>
    let pcb := k.pcbs (getPcb k)
    pcb.parent = 0 ∨ vidOf k pcb.parent = 0 ∨ (pcb.vidmemVirtAddr = 0 ∧ RightFor k pcb.parent k.execTerm)
  | .pit =>
    NextRight k (nextTerminal k maxTerminals (if k.execTerm + 1 ≥ maxTerminals then 0 else k.execTerm + 1))
  | .switchTo _ termNum =>
    k.currTerminal = termNum ∨ Refused k termNum ∨ (k.terminals termNum).numProcs = 0 ∨ k.execTerm = termNum ∨
      vidOf k (getPcb k) = 0 ∨
      (vidOf k (lastOf k termNum) = 0 ∧ (k.execTerm = k.currTerminal ∨ vidOf k (lastOf k k.currTerminal) = 0))

/-! ### What the functions of the kernel do to the entry -/

/-- The backup pages are where `terminal_init` put them, and the directory has
    no other table for the video page. -/
structure Video (k : Kernel) : Prop where
  user : UserDirectory k.paging
  virt : ∀ t, t < maxTerminals → (k.terminals t).virtVidmemBackup = vidBkupMemStartVirt + t * 4096
  phys : ∀ t, t < maxTerminals → (k.terminals t).physVidmemBackup = vidBkupMemStartPhys + t * 4096
  current : k.currTerminal < maxTerminals

/-- Nothing that `Video` and `frameOf` read has changed but the page tables. -/
structure SameScreens (k after : Kernel) : Prop where
  virt : ∀ t, (after.terminals t).virtVidmemBackup = (k.terminals t).virtVidmemBackup
  phys : ∀ t, (after.terminals t).physVidmemBackup = (k.terminals t).physVidmemBackup
  current : after.currTerminal = k.currTerminal

theorem sameScreens_refl (k : Kernel) : SameScreens k k := ⟨fun _ => rfl,fun _ => rfl,rfl⟩

theorem sameScreens_trans {k l m : Kernel} (first : SameScreens k l) (second : SameScreens l m) : SameScreens k m :=
  ⟨fun t => (second.virt t).trans (first.virt t),fun t => (second.phys t).trans (first.phys t),
    second.current.trans first.current⟩

theorem sameScreens_draws {k after : Kernel} (draws : Draws k after) :
    SameScreens k after ∧ after.paging = k.paging := by
  obtain ⟨_,_,_,rfl⟩ := draws
  exact ⟨⟨fun _ => rfl,fun _ => rfl,rfl⟩,rfl⟩

/-- One terminal is overwritten, but not its backup pages. -/
theorem sameScreens_update {k after : Kernel} {e : Nat} {terminal : State.Terminal}
    (terminals : after.terminals = Function.update k.terminals e terminal)
    (virt : terminal.virtVidmemBackup = (k.terminals e).virtVidmemBackup)
    (phys : terminal.physVidmemBackup = (k.terminals e).physVidmemBackup)
    (current : after.currTerminal = k.currTerminal) : SameScreens k after := by
  refine ⟨?_,?_,current⟩
  · intro t
    rw [terminals]
    by_cases here : t = e
    · subst here; rw [Function.update_self,virt]
    · rw [Function.update_of_ne here]
  · intro t
    rw [terminals]
    by_cases here : t = e
    · subst here; rw [Function.update_self,phys]
    · rw [Function.update_of_ne here]

section
variable {k after : Kernel}

theorem video_same (video : Video k) (same : SameScreens k after) (user : UserDirectory after.paging) : Video after := by
  refine ⟨user,?_,?_,same.current ▸ video.current⟩
  · intro t inside; rw [same.virt,video.virt t inside]
  · intro t inside; rw [same.phys,video.phys t inside]

theorem frameOf_same (same : SameScreens k after) (t : Nat) : frameOf after t = frameOf k t := by
  rw [frameOf,frameOf,same.current,same.phys]

theorem spawned_screens (pid : Nat) (parsed : Parsed) (page : Nat → UInt8) :
    SameScreens k (spawned k pid parsed page) := sameScreens_update rfl rfl rfl rfl

theorem popped_screens : SameScreens k (popped k) := sameScreens_update rfl rfl rfl rfl

/-- The video page of a process is remapped, if it has one. -/
theorem remapVidmem_shows {process : Nat} (only : vidOf k process = 0 ∨ vidOf k process = userVideoMemAddr)
    (frame frame' : Nat) :
    Shows (remapVidmem k process frame).paging userVideoMemAddr frame' ↔
      if vidOf k process = 0 then Shows k.paging userVideoMemAddr frame' else frame = frame' := by
  simp only [remapVidmem]
  rcases only with none | some
  · have none' : (k.pcbs process).vidmemVirtAddr = 0 := none
    simp [none,none']
  · have some' : (k.pcbs process).vidmemVirtAddr = userVideoMemAddr := some
    have nonzero : userVideoMemAddr ≠ 0 := by decide
    simp only [some,some',nonzero,ne_eq,not_false_eq_true,if_true,if_false]
    exact shows_mapUser frame frame'

theorem remapVidmem_user {process : Nat} (only : vidOf k process = 0 ∨ vidOf k process = userVideoMemAddr)
    (frame : Nat) (user : UserDirectory k.paging) : UserDirectory (remapVidmem k process frame).paging := by
  simp only [remapVidmem]
  rcases only with none | some
  · have none' : (k.pcbs process).vidmemVirtAddr = 0 := none
    simp only [none',ne_eq,not_true_eq_false,if_false]
    exact user
  · have some' : (k.pcbs process).vidmemVirtAddr = userVideoMemAddr := some
    have nonzero : userVideoMemAddr ≠ 0 := by decide
    simp only [some',nonzero,ne_eq,not_false_eq_true,if_true]
    exact userDirectory_mapUser _

theorem remapVidmem_rest (process frame : Nat) :
    SameScreens k (remapVidmem k process frame) ∧ (remapVidmem k process frame).pcbs = k.pcbs := by
  simp only [remapVidmem]
  split
  · exact ⟨⟨fun _ => rfl,fun _ => rfl,rfl⟩,rfl⟩
  · exact ⟨sameScreens_refl k,rfl⟩

theorem backup_directory {t : Nat} (inside : t < maxTerminals) :
    directoryIndex (vidBkupMemStartVirt + t * 4096) ≠ directoryIndex userVideoMemAddr := by
  have few : t < 3 := inside
  simp only [directoryIndex,vidBkupMemStartVirt,userVideoMemAddr,_128MB,_8MB,_4MB]
  omega

end

/-! ### Processes and their video pages -/

section
variable {S : Schedule} {k after : Kernel}

/-- The last process of a terminal that has one. -/
theorem lastOf_held (represents : Represents S (tableOf k)) {t : Nat} (inside : t < maxTerminals)
    (some : 0 < (k.terminals t).numProcs) : ∃ q, Held S.family q ∧ lastOf k t = pcbAddress q := by
  obtain ⟨q,place,address,_⟩ := stored_get represents (⟨inside,by omega⟩ : Stored k t ((k.terminals t).numProcs - 1))
  exact ⟨q,held_of_get place,address⟩

theorem vidOf_only (represents : Represents S (tableOf k)) {q : Nat} (held : Held S.family q) :
    vidOf k (pcbAddress q) = 0 ∨ vidOf k (pcbAddress q) = userVideoMemAddr := represents.tabled.vids q held

theorem vidOf_running (represents : Represents S (tableOf k)) :
    vidOf k (getPcb k) = 0 ∨ vidOf k (getPcb k) = userVideoMemAddr := by
  obtain ⟨p,live,_,running,_⟩ := running_live represents
  rw [show getPcb k = pcbAddress p from running]
  exact vidOf_only represents live

theorem vidOf_last (represents : Represents S (tableOf k)) {t : Nat} (inside : t < maxTerminals)
    (some : 0 < (k.terminals t).numProcs) : vidOf k (lastOf k t) = 0 ∨ vidOf k (lastOf k t) = userVideoMemAddr := by
  obtain ⟨q,held,address⟩ := lastOf_held represents inside some
  rw [address]
  exact vidOf_only represents held

theorem rightFor_iff {process t : Nat} (only : vidOf k process = 0 ∨ vidOf k process = userVideoMemAddr) :
    RightFor k process t ↔ vidOf k process = 0 ∨ Shows k.paging userVideoMemAddr (frameOf k t) := by
  simp only [RightFor]
  rcases only with none | some
  · simp [none]
  · rw [some]

theorem vidmapRight_iff (only : vidOf k (getPcb k) = 0 ∨ vidOf k (getPcb k) = userVideoMemAddr) :
    VidmapRight k ↔ vidOf k (getPcb k) = 0 ∨ Shows k.paging userVideoMemAddr (frameOf k k.execTerm) := by
  rw [← rightFor_iff only,VidmapRight,RightFor]
  exact or_iff_not_imp_left.symm

/-- The frames of the three screens are different. -/
theorem frameOf_visible (video : Video k) {t : Nat} (inside : t < maxTerminals) :
    videoMemIndex = frameOf k t ↔ t = k.currTerminal := by
  simp only [frameOf]
  split
  · simp_all
  · rename_i hidden
    rw [video.phys t inside]
    simp only [videoMemIndex,vidBkupMemStartPhys]
    constructor
    · intro same; omega
    · intro same; exact absurd same hidden

/-! ### One event -/

theorem right_unchanged (k after : Kernel) (screens : SameScreens k after) (paging : after.paging = k.paging)
    (running : getPcb after = getPcb k) (vids : vidOf after (getPcb k) = vidOf k (getPcb k))
    (exec : after.execTerm = k.execTerm) : VidmapRight after ↔ VidmapRight k := by
  rw [VidmapRight,VidmapRight,running,vids,paging,exec,frameOf_same screens]

theorem right_without (none : vidOf after (getPcb after) = 0) : VidmapRight after := fun some => absurd none some

theorem spawned_right (pid : Nat) (parsed : Parsed) (page : Nat → UInt8) : VidmapRight (spawned k pid parsed page) := by
  apply right_without
  have running : getPcb (spawned k pid parsed page) = pcbAddress pid := rfl
  rw [running]
  simp [vidOf,spawned,childPcb,newPcb]

theorem spawned_video (video : Video k) (pid : Nat) (parsed : Parsed) (page : Nat → UInt8) :
    Video (spawned k pid parsed page) :=
  video_same video (spawned_screens pid parsed page) (userDirectory_mapPage video.user _)

theorem draws_video (video : Video k) (draws : Draws k after) : Video after := by
  obtain ⟨screens,paging⟩ := sameScreens_draws draws
  exact video_same video screens (paging ▸ video.user)

theorem draws_right (draws : Draws k after) : VidmapRight after ↔ VidmapRight k := by
  obtain ⟨screens,paging⟩ := sameScreens_draws draws
  obtain ⟨_,_,_,rfl⟩ := draws
  exact right_unchanged _ _ screens paging rfl rfl rfl

theorem execute_right {fs : Fs} {fuel : Nat} {command : Command} {result : Executed} (video : Video k)
    (executed : Syscalls.execute fs fuel k command = .ok result) :
    match result with
    | .returned _ after => Video after ∧ (VidmapRight after ↔ VidmapRight k)
    | .started _ after => Video after ∧ VidmapRight after := by
  rcases execute_cases executed with ⟨_,after,rfl,_⟩ | ⟨_,pid,parsed,page,rfl,_⟩
  · have draws := execute_returned executed
    exact ⟨draws_video video draws,draws_right draws⟩
  · exact ⟨spawned_video video pid parsed page,spawned_right pid parsed page⟩

theorem vidmap_right (represents : Represents S (tableOf k)) (video : Video k) (screenStart : Nat) :
    Video (vidmap k screenStart).2.1 ∧
      (VidmapRight k → (VidmapRight (vidmap k screenStart).2.1 ↔ VidmapKept k (.vidmap screenStart))) := by
  simp only [vidmap]
  split
  · rename_i outside
    exact ⟨video,fun right => ⟨fun _ => .inl outside,fun _ => right⟩⟩
  · rename_i inside
    refine ⟨⟨userDirectory_mapUser _,video.virt,video.phys,video.current⟩,fun _ => ?_⟩
    simp only [VidmapKept,inside,false_or]
    have steady := steady_of_represents represents
    rw [← frameOf_visible video (show k.execTerm < maxTerminals from steady.exec)]
    constructor
    · intro right
      have mapped := right (by simp [vidOf,setPcb,getPcb]; decide)
      simp only [vidOf,setPcb,getPcb,Function.update_self] at mapped
      exact (shows_mapUser _ _).mp mapped
    · intro visible _
      simp only [vidOf,setPcb,getPcb,Function.update_self]
      exact (shows_mapUser _ _).mpr visible

/-- The video pages after `halt` has released the running process. -/
theorem popped_shows (video : Video k) (only : vidOf k (getPcb k) = 0 ∨ vidOf k (getPcb k) = userVideoMemAddr) :
    UserDirectory (popped k).paging ∧ ∀ frame, Shows (popped k).paging userVideoMemAddr frame ↔
      vidOf k (getPcb k) = 0 ∧ Shows k.paging userVideoMemAddr frame := by
  rcases only with none | some
  · have none' : (k.pcbs (getPcb k)).vidmemVirtAddr = 0 := none
    simp only [popped,none',ne_eq,not_true_eq_false,if_false]
    exact ⟨video.user,fun frame => by simp [none]⟩
  · have some' : (k.pcbs (getPcb k)).vidmemVirtAddr = userVideoMemAddr := some
    have nonzero : userVideoMemAddr ≠ 0 := by decide
    simp only [popped,some',some,nonzero,ne_eq,not_false_eq_true,if_true,false_and,iff_false]
    exact ⟨userDirectory_free video.user,not_shows_free video.user⟩

/-- The end of a process, where `halt` starts from a kernel with the same table,
    or with an exception noted in it. -/
theorem ending_right {fs : Fs} {fuel : Nat} {status : UInt8} {before : Kernel} (represents : Represents S (tableOf k))
    (ended : tableOf before = tableOf k ∨ tableOf before = (tableOf k).raise)
    (halted : Syscalls.halt fs fuel before status = .ok after) (video : Video before) (screens : SameScreens k before)
    (paging : before.paging = k.paging) : Video after ∧ (VidmapRight after ↔ VidmapKept k (.halt fuel status)) := by
  have self := vidOf_running represents
  obtain ⟨exec,running,_,vids⟩ := ending_same ended
  have vid : vidOf before (getPcb k) = vidOf k (getPcb k) := vids (getPcb k)
  obtain ⟨user,shows⟩ := popped_shows video (by rw [running,vid]; exact self)
  have released : Video (popped before) := video_same video popped_screens user
  rcases ending_cases represents ended halted with ⟨child,runs,⟨_,same⟩,paged⟩ | ⟨root,_,executed⟩
  · obtain ⟨_,q,live,_,address⟩ := parent_below represents child
    have address' : (k.pcbs (getPcb k)).parent = pcbAddress q := address
    have unmoved : SameScreens (popped before) after := by
      rw [same]
      exact ⟨fun _ => rfl,fun _ => rfl,rfl⟩
    have vids' : vidOf after (getPcb after) = vidOf k (k.pcbs (getPcb k)).parent := by
      rw [runs,same]
      exact vids _
    have only := vidOf_only represents live
    rw [← address'] at only
    have frames : ∀ t, frameOf after t = frameOf k t := fun t =>
      (frameOf_same (sameScreens_trans (sameScreens_trans screens popped_screens) unmoved) t)
    have exec' : after.execTerm = k.execTerm := by
      rw [same]
      exact exec
    refine ⟨video_same released unmoved (paged ▸ userDirectory_mapPage user _),?_⟩
    rw [vidmapRight_iff (vids' ▸ only),vids',paged,shows_mapPage,shows,frames,exec',running,vid,paging]
    simp only [VidmapKept,child,false_or,rightFor_iff only]
    show _ ↔ _ ∨ (vidOf k (getPcb k) = 0 ∧ _)
    by_cases none : vidOf k (k.pcbs (getPcb k)).parent = 0
    · simp only [none,true_or]
    · simp only [none,false_or]
  · have cleared := draws_video released (clearSetpos_draws (popped before) 0 0)
    obtain ⟨video',right⟩ := execute_right cleared executed
    exact ⟨video',fun _ => .inl root,fun _ => right⟩

theorem vidOf_saveStack (address process : Nat) : vidOf (saveStack k address) process = vidOf k process := by
  by_cases same : process = address
  · subst same; simp [vidOf,saveStack,setPcb]
  · simp [vidOf,saveStack,setPcb,same]

/-- A context switch resumes the last process of a terminal, and maps its page. -/
theorem contextSwitch_held {next : Nat} (represents : Represents S (tableOf k))
    (switched : contextSwitch k next = .ok after) : ∃ q, Held S.family q ∧ lastOf k next = pcbAddress q ∧
      getPcb after = pcbAddress q ∧ after.execTerm = next ∧ after.pcbs = (saveStack k (getPcb k)).pcbs ∧
      after.paging = mapPage4MB k.paging _128MB (k.pcbs (pcbAddress q)).pde ∧ SameScreens k after := by
  obtain ⟨newPcb,inside,found,same⟩ := contextSwitch_ok switched
  obtain ⟨some,_,last,_⟩ := lastProc_ok.mp found
  have isLast : newPcb = lastOf k next := last.symm
  obtain ⟨q,held,address⟩ := lastOf_held represents inside some
  obtain ⟨p,live,_,running,_⟩ := running_live represents
  rw [isLast,address] at same
  have virt : (k.pcbs (pcbAddress q)).pdeVirtAddr = _128MB := (represents.tabled.blocks q held).pdeVirtAddr
  have saved := ((tabled_save represents.tabled live running).blocks q held).saved
  rw [← tableOf_saveStack] at saved
  rw [same]
  refine ⟨q,held,address,saved,rfl,rfl,?_,fun _ => rfl,fun _ => rfl,rfl⟩
  simp only [virt]

theorem contextSwitch_right {next : Nat} (represents : Represents S (tableOf k)) (video : Video k)
    (switched : contextSwitch k next = .ok after) : Video after ∧ (VidmapRight after ↔ RightFor k (lastOf k next) next) := by
  obtain ⟨q,held,address,runs,exec,blocks,paged,screens⟩ := contextSwitch_held represents switched
  have vids : vidOf after (getPcb after) = vidOf k (pcbAddress q) := by
    rw [runs,vidOf,blocks]
    exact vidOf_saveStack (getPcb k) (pcbAddress q)
  have only := vidOf_only represents held
  refine ⟨video_same video screens (paged ▸ userDirectory_mapPage video.user _),?_⟩
  rw [vidmapRight_iff (vids ▸ only),vids,paged,shows_mapPage,exec,frameOf_same screens,address,rightFor_iff only]

theorem pit_right (represents : Represents S (tableOf k)) (video : Video k)
    (handled : pitInterruptHandler k = .ok after) :
    Video after ∧ (VidmapRight k → (VidmapRight after ↔ VidmapKept k .pit)) := by
  simp only [pitInterruptHandler] at handled
  simp only [VidmapKept]
  cases search : nextTerminal k maxTerminals (if k.execTerm + 1 ≥ maxTerminals then 0 else k.execTerm + 1) with
  | some next =>
    rw [search] at handled
    obtain ⟨video',right⟩ := contextSwitch_right represents video handled
    exact ⟨video',fun _ => right⟩
  | none =>
    rw [search] at handled
    cases handled
    exact ⟨video,fun right => ⟨fun _ => trivial,fun _ => right⟩⟩

/-! ### Switching the active terminal -/

/-- The first half of a switch maps the entry to the backup page of the terminal
    that is hidden, if its last process has a video page. -/
theorem hideActive_shows {hidden : Kernel} (represents : Represents S (tableOf k)) (video : Video k)
    (hid : hideActive k = .ok hidden) :
    SameScreens k hidden ∧ UserDirectory hidden.paging ∧ hidden.pcbs = k.pcbs ∧
      ∀ frame, Shows hidden.paging userVideoMemAddr frame ↔
        if vidOf k (lastOf k k.currTerminal) = 0 then Shows k.paging userVideoMemAddr frame
        else (k.terminals k.currTerminal).physVidmemBackup / 2 ^ 12 = frame := by
  obtain ⟨process,found,rfl⟩ := hideActive_ok hid
  obtain ⟨some,_,last,_⟩ := lastProc_ok.mp found
  have isLast : process = lastOf k k.currTerminal := last.symm
  subst isLast
  have only := vidOf_last represents video.current some
  have directory := backup_directory video.current
  rw [← video.virt _ video.current] at directory
  have only' : vidOf (backedUp k) (lastOf k k.currTerminal) = 0 ∨
      vidOf (backedUp k) (lastOf k k.currTerminal) = userVideoMemAddr := only
  have copied : SameScreens k (backedUp k) := ⟨fun _ => rfl,fun _ => rfl,rfl⟩
  obtain ⟨screens,pcbs⟩ := remapVidmem_rest (k := backedUp k) (lastOf k k.currTerminal)
    ((activeTerm k).physVidmemBackup / 2 ^ 12)
  refine ⟨sameScreens_trans copied screens,remapVidmem_user only' _ (userDirectory_mapBackup video.user _ directory),
    pcbs,?_⟩
  intro frame
  rw [remapVidmem_shows only']
  have mapped : Shows (backedUp k).paging userVideoMemAddr frame ↔ Shows k.paging userVideoMemAddr frame :=
    shows_mapBackup video.user _ frame directory
  rw [mapped]
  rfl

/-- The process that is resumed on a terminal that is shown. -/
theorem shown_last {hidden : Kernel} {termNum process : Nat} (table : tableOf (showTerminal hidden termNum) = tableOf k)
    (found : lastProc (showTerminal hidden termNum) (showTerminal hidden termNum).currTerminal = .ok process) :
    process = lastOf k termNum := by
  rw [← (lastProc_ok.mp found).2.2.1]
  exact congrArg (fun T : Table => (T.procs termNum).childProcs ((T.procs termNum).numProcs - 1)) table

/-- A completed switch to a terminal with processes: the hidden terminal's last
    process loses the visible frame, and the new one's gets it. -/
theorem resume_right {fs : Fs} {fuel termNum : Nat} {hidden : Kernel} (represents : Represents S (tableOf k))
    (video : Video k) (inside : termNum < maxTerminals) (other : k.currTerminal ≠ termNum)
    (some : 0 < (k.terminals termNum).numProcs) (hid : hideActive k = .ok hidden)
    (shown : resumeTerminal fs fuel (showTerminal hidden termNum) = .ok after) :
    Video after ∧ (VidmapRight k → (VidmapRight after ↔ k.execTerm = termNum ∨ vidOf k (getPcb k) = 0 ∨
      (vidOf k (lastOf k termNum) = 0 ∧ (k.execTerm = k.currTerminal ∨ vidOf k (lastOf k k.currTerminal) = 0)))) := by
  obtain ⟨screens,user,pcbs,shows⟩ := hideActive_shows represents video hid
  have steady := steady_of_represents represents
  have exec : k.execTerm < maxTerminals := steady.exec
  have table := tableOf_shown hid termNum
  have size := shown_numProcs table
  have directory := backup_directory inside
  rw [← video.virt _ inside,← screens.virt] at directory
  have same : Video (showTerminal hidden termNum) :=
    ⟨userDirectory_mapBackup user _ directory,(video_same video screens user).virt,(video_same video screens user).phys,
      inside⟩
  have remapped : ∀ frame, Shows (showTerminal hidden termNum).paging userVideoMemAddr frame ↔
      Shows hidden.paging userVideoMemAddr frame := fun frame => shows_mapBackup user _ frame directory
  have vids : ∀ a, vidOf (showTerminal hidden termNum) a = vidOf k a := fun a => congrFun (congrArg Table.vids table) a
  obtain ⟨process,found,rfl⟩ := resume_maps (by omega) shown
  obtain rfl := shown_last table found
  have only := vidOf_last represents inside some
  rw [← vids] at only
  obtain ⟨unmoved,_⟩ := remapVidmem_rest (k := showTerminal hidden termNum) (lastOf k termNum) videoMemIndex
  have final := (tableOf_remapVidmem (showTerminal hidden termNum) (lastOf k termNum) videoMemIndex).trans table
  refine ⟨video_same same unmoved (remapVidmem_user only _ same.user),fun right => ?_⟩
  have running : getPcb (remapVidmem (showTerminal hidden termNum) (lastOf k termNum) videoMemIndex) = getPcb k :=
    congrArg Table.running final
  have vid : vidOf (remapVidmem (showTerminal hidden termNum) (lastOf k termNum) videoMemIndex) (getPcb k) =
      vidOf k (getPcb k) := congrFun (congrArg Table.vids final) _
  have execs : (remapVidmem (showTerminal hidden termNum) (lastOf k termNum) videoMemIndex).execTerm = k.execTerm :=
    congrArg Table.execTerm final
  have self := vidOf_running represents
  rw [vidmapRight_iff self] at right
  rw [vidmapRight_iff (by rw [running,vid]; exact self),running,vid,execs,remapVidmem_shows only,remapped,shows,vids,
    frameOf_same unmoved]
  have last : lastOf k k.execTerm = getPcb k := steady.last
  have visible : ∀ t, frameOf (showTerminal hidden termNum) t =
      if t = termNum then videoMemIndex else (k.terminals t).physVidmemBackup / 2 ^ 12 := by
    intro t
    show (if t = termNum then _ else (hidden.terminals t).physVidmemBackup / 2 ^ 12) = _
    rw [screens.phys]
  rw [visible]
  by_cases none : vidOf k (getPcb k) = 0
  · simp [none]
  · have before := right.resolve_left none
    simp only [none,false_or]
    by_cases here : k.execTerm = termNum
    · subst here
      simp [last,none]
    · have backup : ∀ t, t < maxTerminals → (k.terminals t).physVidmemBackup / 2 ^ 12 = 0x4000 + t := by
        intro t below
        rw [video.phys t below]
        simp only [vidBkupMemStartPhys]
        omega
      simp only [here,if_false,false_or,backup _ exec,backup _ video.current]
      by_cases taken : vidOf k (lastOf k termNum) = 0
      · simp only [taken,if_true,true_and]
        by_cases active : k.execTerm = k.currTerminal
        · rw [← active,last,if_neg none]
          simp
        · have frame : frameOf k k.execTerm = 0x4000 + k.execTerm := by
            rw [frameOf,if_neg active,backup _ exec]
          rw [frame] at before
          by_cases quiet : vidOf k (lastOf k k.currTerminal) = 0
          · simp [quiet,before]
          · simp only [quiet,if_false,active,or_self,iff_false]
            omega
      · simp only [taken,if_false,false_and,iff_false,videoMemIndex]
        omega

/-- Waking the reader of a terminal changes no mapping. -/
theorem woken_right (video : Video k) (t : Nat) :
    Video (setTerminal k t { k.terminals t with ack := true }) ∧
      (VidmapRight (setTerminal k t { k.terminals t with ack := true }) ↔ VidmapRight k) := by
  have screens : SameScreens k (setTerminal k t { k.terminals t with ack := true }) :=
    sameScreens_update rfl rfl rfl rfl
  exact ⟨video_same video screens video.user,right_unchanged _ _ screens rfl rfl rfl rfl⟩

theorem switch_right {fs : Fs} {fuel termNum : Nat} (valid : ValidShell fs) (represents : Represents S (tableOf k))
    (video : Video k) (switched : switchActiveTerminal fs fuel k termNum = .ok after) :
    Video after ∧ (VidmapRight k → (VidmapRight after ↔ VidmapKept k (.switchTo fuel termNum))) := by
  simp only [VidmapKept]
  obtain ⟨inside,⟨here,rfl⟩ | ⟨_,refused,rfl⟩ | ⟨other,available,hidden,hid,shown⟩⟩ := switchActiveTerminal_ok switched
  · exact ⟨video,fun right => ⟨fun _ => .inl here,fun _ => right⟩⟩
  · have drew := printf_draws k notAvailableMessage
    obtain ⟨video',same⟩ := woken_right (draws_video video drew) k.currTerminal
    refine ⟨video',fun right => ?_⟩
    rw [same,draws_right drew]
    exact ⟨fun _ => .inr (.inl refused),fun _ => right⟩
  · by_cases bare : (k.terminals termNum).numProcs = 0
    · obtain ⟨screens,user,_,_⟩ := hideActive_shows represents video hid
      have directory := backup_directory inside
      rw [← video.virt _ inside,← screens.virt] at directory
      have table := tableOf_shown hid termNum
      have size := shown_numProcs table
      obtain ⟨eip,executed⟩ := resume_opens (steady_of_represents represents) valid table (size.trans bare) bare
        available shown
      have hiddenVideo := video_same video screens user
      have opened : Video (opening (showTerminal hidden termNum)) :=
        ⟨userDirectory_mapBackup user _ directory,hiddenVideo.virt,hiddenVideo.phys,inside⟩
      obtain ⟨video',right⟩ := execute_right opened executed
      exact ⟨video',fun _ => ⟨fun _ => .inr (.inr (.inl bare)),fun _ => right⟩⟩
    · obtain ⟨video',right⟩ := resume_right represents video inside other (Nat.pos_of_ne_zero bare) hid shown
      refine ⟨video',fun before => ?_⟩
      rw [right before]
      simp only [other,available,bare,false_or]

/-! ### Runs -/

/-- One event keeps the entry right exactly when it is of the kind that
    `VidmapKept` describes. -/
theorem step_right {fs : Fs} {op : Op} (valid : ValidShell fs) (represents : Represents S (tableOf k))
    (video : Video k) (taken : step fs k op = .ok after) :
    Video after ∧ (VidmapRight k → (VidmapRight after ↔ VidmapKept k op)) := by
  cases op with
  | trap =>
    cases taken
    have same := right_unchanged k { k with esp := k.tssEsp0 } ⟨fun _ => rfl,fun _ => rfl,rfl⟩ rfl
      (steady_of_represents represents).stack rfl rfl
    exact ⟨⟨video.user,video.virt,video.phys,video.current⟩,fun right => ⟨fun _ => trivial,fun _ => same.mpr right⟩⟩
  | frame esp ebp =>
    simp only [step] at taken
    split at taken
    · rename_i inPage
      cases taken
      have same := right_unchanged k { k with esp := esp, ebp := ebp }
        ⟨fun _ => rfl,fun _ => rfl,rfl⟩ rfl inPage rfl rfl
      exact ⟨⟨video.user,video.virt,video.phys,video.current⟩,fun right => ⟨fun _ => trivial,fun _ => same.mpr right⟩⟩
    · cases taken
  | execute fuel command =>
    obtain ⟨result,executed,ended⟩ := bind_eq_ok.mp taken
    have right := execute_right video executed
    cases result with
    | returned _ k' =>
      cases ended
      exact ⟨right.1,fun before => ⟨fun _ => trivial,fun _ => right.2.mpr before⟩⟩
    | started _ k' =>
      cases ended
      exact ⟨right.1,fun _ => ⟨fun _ => trivial,fun _ => right.2⟩⟩
  | halt fuel status =>
    obtain ⟨video',right⟩ := ending_right represents (.inl rfl) taken video (sameScreens_refl k) rfl
    exact ⟨video',fun _ => right⟩
  | exception fuel text =>
    have drew := printf_draws k text
    have drawnVideo := draws_video video drew
    have raised := tableOf_raised k text
    obtain ⟨phys,cursor,place,same⟩ := drew
    rw [same] at drawnVideo raised
    simp only [step,exception,same] at taken
    obtain ⟨video',right⟩ := ending_right represents (.inr raised) taken
      ⟨drawnVideo.user,drawnVideo.virt,drawnVideo.phys,drawnVideo.current⟩ ⟨fun _ => rfl,fun _ => rfl,rfl⟩ rfl
    exact ⟨video',fun _ => right⟩
  | vidmap screenStart =>
    cases taken
    exact vidmap_right represents video screenStart
  | pit => exact pit_right represents video taken
  | switchTo fuel termNum => exact switch_right valid represents video taken

end

theorem boot_video (m : Kernel) : Video (boot m) := by
  refine draws_video ?_ (draws_trans (printf_draws _ enablingMessage) (clearSetpos_draws _ 0 0))
  have initial : UserDirectory initPaging := .inr ⟨⟨false,true,false,false,0⟩,rfl⟩
  refine ⟨?_,?_,?_,(by decide : 0 < maxTerminals)⟩
  · refine userDirectory_mapBackup (userDirectory_mapBackup (userDirectory_mapBackup (userDirectory_mapBackup initial
      _ ?_) _ ?_) _ ?_) _ ?_
    · exact backup_directory (t := 0) (by decide)
    · exact backup_directory (t := 1) (by decide)
    · exact backup_directory (t := 2) (by decide)
    · exact backup_directory (t := 0) (by decide)
  · intro t inside
    rcases terminal_cases inside with rfl | rfl | rfl <;> rfl
  · intro t inside
    rcases terminal_cases inside with rfl | rfl | rfl <;> rfl

theorem started_right {fs : Fs} {k : Kernel} (started : Started fs k) :
    ((∃ S, Represents S (tableOf k)) ∧ Video k) ∧ VidmapRight k := by
  obtain ⟨S,represents,_⟩ := started_represents started
  obtain ⟨m,fuel,eip,executed⟩ := started
  obtain ⟨video,right⟩ := execute_right (boot_video m) executed
  exact ⟨⟨⟨S,represents⟩,video⟩,right⟩

end MazeOS.VidmapPage
