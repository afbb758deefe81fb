import MazeOS.VidmapPage

/-!
`vidmap` store by store. A system call runs with interrupts enabled, so that a
context switch or a switch of the active terminal may come between the
page-table entry, the directory entry and `vidmem_virt_addr`. `Stage` says how
far the call of a process has come; three stores in a row are the `vidmap` of
one step (`stores_vidmap`). `Kept` says of each event, by the state before it,
when the entry is right after it: for the last store the entry has to show the
terminal still. `vidmap_stores_iff` says that a run keeps the entry right
exactly when each of its events is of that kind.
-/
namespace MazeOS.VidmapStores
open MazeOS.Runs MazeOS.Faults MazeOS.Filesystem MazeOS.Paging MazeOS.State MazeOS.Display MazeOS.Process
  MazeOS.Terminal MazeOS.Tables MazeOS.Stacks MazeOS.ProcessTable MazeOS.StackDiscipline MazeOS.VidmapPage
open MazeOS.Syscalls (_128MB _4MB userVideoMemAddr vidmap shellCommand)
open MazeOS.Steps (Op ValidShell)

/-! ### The stores -/

/-- What the `vidmap` call of a process has stored. -/
inductive Stage where
  | idle
  /-- The page-table entry. -/
  | tabled
  /-- The directory entry, too. -/
  | mapped
  deriving DecidableEq

/-- The kernel, with the stage of the process of every PCB address. -/
structure Machine where
  kernel : Kernel
  stage : Nat → Stage

inductive Event where
  /-- Of `vidmap` this is the check of its argument and the first store. -/
  | op (op : Op)
  /-- The running process goes on with its call of `vidmap`. -/
  | store

/-- `pte` in `vidmap`. -/
def videoPte : Pte := ⟨true,true,true,videoMemIndex⟩

/-- The first store of `map_user_video_mem`. -/
def storeTable (k : Kernel) : Kernel :=
  { k with paging := { k.paging with
      user4MBTable := Function.update k.paging.user4MBTable (tableIndex userVideoMemAddr) videoPte } }

/-- The second store of `map_user_video_mem`. -/
def storeDirectory (k : Kernel) : Kernel :=
  { k with paging := { k.paging with
      pageDirectory := Function.update k.paging.pageDirectory (directoryIndex userVideoMemAddr)
        (.table ⟨true,true,true,.user4MB⟩) } }

/-- The stores of `vidmap` in the PCB; nothing reads `vidmem_pte`. -/
def storePcb (k : Kernel) : Kernel :=
  setPcb k (getPcb k) { k.pcbs (getPcb k) with vidmemVirtAddr := userVideoMemAddr, vidmemPte := videoPte }

def stageOf (m : Machine) : Stage := m.stage (getPcb m.kernel)

def goTo (m : Machine) (k : Kernel) (stage : Stage) : Machine := ⟨k,Function.update m.stage (getPcb m.kernel) stage⟩

/-- The next store of the running process, if it is in a call of `vidmap`. -/
def storeNext (m : Machine) : Machine :=
  match stageOf m with
  | .idle => m
  | .tabled => goTo m (storeDirectory m.kernel) .mapped
  | .mapped => goTo m (storePcb m.kernel) .idle

/-- What only the running process itself can do. A process in a call of `vidmap`
    does not. -/
def Own : Op → Bool
  | .trap | .execute _ _ | .halt _ _ | .exception _ _ | .vidmap _ => true
  | .frame _ _ | .pit | .switchTo _ _ => false

/-- The event is none, since its process is in a call of `vidmap`. -/
def Idle (m : Machine) (op : Op) : Bool := stageOf m ≠ .idle ∧ Own op

/-- The pointer is not in the page of the process. -/
def Bad (screenStart : Nat) : Prop := screenStart < _128MB ∨ screenStart ≥ _128MB + _4MB

instance (screenStart : Nat) : Decidable (Bad screenStart) := inferInstanceAs (Decidable (_ ∨ _))

/-- One step of the machine. -/
def step (fs : Fs) (m : Machine) : Event → Checked Machine
  | .store => .ok (storeNext m)
  | .op op =>
    if Idle m op then .ok m
    else
      match op with
      | .vidmap screenStart => .ok (if Bad screenStart then m else goTo m (storeTable m.kernel) .tabled)
      | op => Steps.step fs m.kernel op >>= fun k => .ok { m with kernel := k }

/-- The events that leave the entry right, by the state before them. -/
def Kept (m : Machine) : Event → Prop
  | .store => stageOf m ≠ .mapped ∨ Shows m.kernel.paging userVideoMemAddr (frameOf m.kernel m.kernel.execTerm)
  | .op op =>
    Idle m op ∨
      match op with
      | .vidmap screenStart =>
        Bad screenStart ∨ vidOf m.kernel (getPcb m.kernel) = 0 ∨ m.kernel.execTerm = m.kernel.currTerminal
      | op => VidmapKept m.kernel op

/-! ### One event -/

section
variable {fs : Fs} {S : Schedule} {k : Kernel} {m after : Machine}

theorem stageOf_goTo (m : Machine) {k : Kernel} (same : getPcb k = getPcb m.kernel) (stage : Stage) :
    stageOf (goTo m k stage) = stage := by
  simp [stageOf,goTo,same]

/-- The kernel that `vidmap` leaves, if nothing comes between its stores. -/
theorem stores_vidmap (fs : Fs) (free : stageOf m = .idle) {screenStart : Nat} (inside : ¬ Bad screenStart) :
    ∃ after, run (step fs) m [.op (.vidmap screenStart),.store,.store] = .ok after ∧
      after.kernel = (vidmap m.kernel screenStart).2.1 ∧ stageOf after = .idle := by
  have first : step fs m (.op (.vidmap screenStart)) = .ok (goTo m (storeTable m.kernel) .tabled) := by
    simp [step,Idle,free,inside]
  generalize at_first : goTo m (storeTable m.kernel) .tabled = tabled at first
  have kernel : tabled.kernel = storeTable m.kernel := by rw [← at_first]; rfl
  have second : step fs tabled .store = .ok (goTo tabled (storeDirectory tabled.kernel) .mapped) := by
    have stage : stageOf tabled = .tabled := by rw [← at_first]; exact stageOf_goTo m rfl .tabled
    rw [step,storeNext,stage]
  generalize at_second : goTo tabled (storeDirectory tabled.kernel) .mapped = mapped at second
  have kernel' : mapped.kernel = storeDirectory tabled.kernel := by rw [← at_second]; rfl
  have third : step fs mapped .store = .ok (goTo mapped (storePcb mapped.kernel) .idle) := by
    have stage : stageOf mapped = .mapped := by rw [← at_second]; exact stageOf_goTo tabled rfl .mapped
    rw [step,storeNext,stage]
  have ran : run (step fs) m [.op (.vidmap screenStart),.store,.store] =
      .ok (goTo mapped (storePcb mapped.kernel) .idle) := by
    rw [run,first,ok_bind,run,second,ok_bind,run,third,ok_bind,run]
  refine ⟨_,ran,?_,stageOf_goTo mapped rfl .idle⟩
  have inside' : ¬ (screenStart < _128MB ∨ screenStart ≥ _128MB + _4MB) := inside
  rw [vidmap,if_neg inside']
  have last : (goTo mapped (storePcb mapped.kernel) .idle).kernel = storePcb (storeDirectory (storeTable m.kernel)) := by
    rw [← kernel,← kernel']
    rfl
  exact last

theorem tableOf_storePcb (k : Kernel) : tableOf (storePcb k) = (tableOf k).map := by
  have inside : ¬ (_128MB < _128MB ∨ _128MB ≥ _128MB + _4MB) := by decide
  have whole := tableOf_vidmap k _128MB
  rw [if_neg inside,vidmap,if_neg inside] at whole
  exact whole

/-- An entry that shows something is reached through the table. -/
theorem shows_table {p : PageTables} {frame : Nat} (user : UserDirectory p) (shown : Shows p userVideoMemAddr frame) :
    p.pageDirectory (directoryIndex userVideoMemAddr) = .table ⟨true,true,true,.user4MB⟩ := by
  obtain ⟨pte,found,_⟩ := shown
  rcases user with table | ⟨entry,page⟩
  · exact table
  · rw [pteOf,page] at found
    cases found

theorem storeTable_right (represents : Represents S (tableOf k)) (video : Video k) :
    Video (storeTable k) ∧
      (VidmapRight k → (VidmapRight (storeTable k) ↔ vidOf k (getPcb k) = 0 ∨ k.execTerm = k.currTerminal)) := by
  refine ⟨⟨video.user,video.virt,video.phys,video.current⟩,fun right => ?_⟩
  have exec : k.execTerm < maxTerminals := (steady_of_represents represents).exec
  have only := vidOf_running represents
  by_cases none : vidOf k (getPcb k) = 0
  · exact iff_of_true (right_without none) (.inl none)
  · have address := only.resolve_left none
    have shown := right none
    rw [address] at shown
    have table := shows_table video.user shown
    have entry : pteOf (storeTable k).paging userVideoMemAddr = some videoPte := by
      simp [pteOf,storeTable,table,PageTables.table]
    have now : Shows (storeTable k).paging userVideoMemAddr (frameOf k k.execTerm) ↔ k.execTerm = k.currTerminal := by
      rw [← frameOf_visible video exec,Shows,entry]
      constructor
      · rintro ⟨pte,same,_,_,equal⟩
        cases same
        exact equal
      · intro same
        exact ⟨_,rfl,rfl,rfl,same⟩
    have only' : vidOf (storeTable k) (getPcb (storeTable k)) = 0 ∨
        vidOf (storeTable k) (getPcb (storeTable k)) = userVideoMemAddr := only
    rw [vidmapRight_iff only',← now]
    exact Iff.rfl

theorem storeDirectory_right (represents : Represents S (tableOf k)) (video : Video k) :
    Video (storeDirectory k) ∧ (VidmapRight k → VidmapRight (storeDirectory k)) := by
  refine ⟨⟨.inl (by simp [storeDirectory]),video.virt,video.phys,video.current⟩,fun right some => ?_⟩
  have shown := right some
  rw [(vidOf_running represents).resolve_left some] at shown
  -- The directory has the entry already.
  have same : storeDirectory k = k := by
    simp only [storeDirectory,← shows_table video.user shown,Function.update_eq_self]
  rw [same]
  exact right some

theorem storePcb_right (video : Video k) :
    Video (storePcb k) ∧ (VidmapRight (storePcb k) ↔ Shows k.paging userVideoMemAddr (frameOf k k.execTerm)) := by
  have address : vidOf (storePcb k) (getPcb (storePcb k)) = userVideoMemAddr := by
    simp [vidOf,storePcb,setPcb,getPcb]
  refine ⟨⟨video.user,video.virt,video.phys,video.current⟩,?_⟩
  rw [VidmapRight,address]
  have nonzero : userVideoMemAddr ≠ 0 := by decide
  exact ⟨fun right => right nonzero,fun shown _ => shown⟩

/-- One event keeps the entry right exactly when it is of the kind that `Kept`
    describes. -/
theorem step_right {e : Event} (valid : ValidShell fs) (represents : Represents S (tableOf m.kernel))
    (video : Video m.kernel) (taken : step fs m e = .ok after) :
    ((∃ S', Represents S' (tableOf after.kernel)) ∧ Video after.kernel) ∧
      (VidmapRight m.kernel → (VidmapRight after.kernel ↔ Kept m e)) := by
  cases e with
  | store =>
    cases taken
    unfold storeNext Kept
    cases stage : stageOf m with
    | idle => exact ⟨⟨⟨S,represents⟩,video⟩,fun right => iff_of_true right (.inl (by decide))⟩
    | tabled =>
      obtain ⟨video',right⟩ := storeDirectory_right represents video
      exact ⟨⟨⟨S,represents⟩,video'⟩,fun before => iff_of_true (right before) (.inl (by decide))⟩
    | mapped =>
      obtain ⟨video',right⟩ := storePcb_right video
      refine ⟨⟨⟨S,?_⟩,video'⟩,fun _ => right.trans ?_⟩
      · show Represents S (tableOf (storePcb m.kernel))
        rw [tableOf_storePcb]
        exact represents_maps represents
      · simp
  | op op =>
    by_cases idle : Idle m op
    · have same : m = after := Except.ok.inj ((if_pos idle).symm.trans taken)
      subst same
      exact ⟨⟨⟨S,represents⟩,video⟩,fun right => iff_of_true right (.inl idle)⟩
    · simp only [step,idle,Bool.false_eq_true,if_false] at taken
      simp only [Kept,idle,Bool.false_eq_true,false_or]
      have plain : ∀ k, Steps.step fs m.kernel op = .ok k → ((∃ S', Represents S' (tableOf k)) ∧ Video k) ∧
          (VidmapRight m.kernel → (VidmapRight k ↔ VidmapKept m.kernel op)) := by
        intro k taken
        obtain ⟨S',_,next⟩ := step_represents valid represents taken
        obtain ⟨video',right⟩ := VidmapPage.step_right valid represents video taken
        exact ⟨⟨⟨S',next⟩,video'⟩,right⟩
      cases op with
      | vidmap screenStart =>
        by_cases bad : Bad screenStart
        · simp only [bad,if_true,Except.ok.injEq] at taken
          subst taken
          exact ⟨⟨⟨S,represents⟩,video⟩,fun right => iff_of_true right (.inl bad)⟩
        · simp only [bad,if_false,Except.ok.injEq] at taken
          subst taken
          obtain ⟨video',right⟩ := storeTable_right represents video
          refine ⟨⟨⟨S,represents⟩,video'⟩,fun before => ?_⟩
          simp only [bad,false_or]
          exact right before
      | _ =>
        obtain ⟨k,stepped,same⟩ := bind_eq_ok.mp taken
        cases same
        exact plain k stepped

end

/-! ### Runs -/

/-- The first shell runs, and no process is in a call of `vidmap`. -/
def Started (fs : Fs) (m : Machine) : Prop := MazeOS.Terminal.Started fs m.kernel ∧ ∀ process, m.stage process = .idle

/-- A run from the first shell shows every running process its own terminal in
    its video page, in every state, exactly when each event of the run is of the
    kind that `Kept` describes. -/
theorem vidmap_stores_iff {fs : Fs} {first : Machine} (valid : ValidShell fs) (started : Started fs first)
    (events : List Event) :
    Throughout (step fs) (fun m => VidmapRight m.kernel) first events ↔
      EachStep (step fs) (fun m e => ∀ after, step fs m e = .ok after → Kept m e) first events := by
  have keeps : ∀ m e after, (∃ S, Represents S (tableOf m.kernel)) ∧ Video m.kernel → step fs m e = .ok after →
      (∃ S, Represents S (tableOf after.kernel)) ∧ Video after.kernel := by
    rintro m e after ⟨⟨S,represents⟩,video⟩ taken
    exact (step_right valid represents video taken).1
  have exactly : ∀ m e after, (∃ S, Represents S (tableOf m.kernel)) ∧ Video m.kernel → VidmapRight m.kernel →
      step fs m e = .ok after → (VidmapRight after.kernel ↔ Kept m e) := by
    rintro m e after ⟨⟨S,represents⟩,video⟩ right taken
    exact (step_right valid represents video taken).2 right
  obtain ⟨inv,right⟩ := started_right started.1
  exact throughout_iff keeps exactly inv right events

instance (p : PageTables) (virAddr frame : Nat) : Decidable (Shows p virAddr frame) :=
  match found : pteOf p virAddr with
  | some pte => decidable_of_iff (pte.present ∧ pte.userSupervisor ∧ pte.baseAddr = frame) (by simp [Shows,found])
  | none => .isFalse (by simp [Shows,found])

instance (k : Kernel) : Decidable (VidmapRight k) := inferInstanceAs (Decidable (_ → _))

/-- The machine when no process is in a call of `vidmap`. -/
def quiet (k : Kernel) : Machine := ⟨k,fun _ => .idle⟩

theorem quiet_started {fs : Fs} {k : Kernel} (started : MazeOS.Terminal.Started fs k) : Started fs (quiet k) :=
  ⟨started,fun _ => rfl⟩

/-- The machine with the first shell of a small image. -/
def shellMachine : Machine := quiet Boot.shellKernel

theorem shellMachine_started : Started ReadData.shellFs shellMachine := quiet_started Boot.shellKernel_started

/-- A process with a video page executes a child, comes to the background and
    back. -/
theorem vidmap_stores_shell :
    Leads (run (step ReadData.shellFs) shellMachine [.op (.vidmap _128MB),.store,.store,.op (.execute 253 shellCommand),
      .op (.halt 253 0),.op (.switchTo 253 1),.op .pit,.op (.switchTo 253 0)])
      (fun m => vidOf m.kernel (getPcb m.kernel) = userVideoMemAddr ∧ 0 < (m.kernel.terminals 1).numProcs) ∧
    EachStep (step ReadData.shellFs) (fun m e => ∀ after, step ReadData.shellFs m e = .ok after → Kept m e) shellMachine
      [.op (.vidmap _128MB),.store,.store,.op (.execute 253 shellCommand),
      .op (.halt 253 0),.op (.switchTo 253 1),.op .pit,.op (.switchTo 253 0)] := by
  refine ⟨by decide +kernel,?_⟩
  exact (vidmap_stores_iff (Boot.shellImage_valid Boot.shellFs_image) shellMachine_started _).mp (by decide +kernel)

/-- A child that maps its own video page and ends takes that of its parent away.
    A switch of the active terminal between the stores of a `vidmap` leaves the
    process on the screen of the other terminal. -/
theorem vidmap_stores_fail : Started ReadData.shellFs shellMachine ∧
    Leads (run (step ReadData.shellFs) shellMachine [.op (.vidmap _128MB),.store,.store,.op (.execute 253 shellCommand),
      .op (.vidmap _128MB),.store,.store,.op (.halt 253 0)]) (fun m => ¬ VidmapRight m.kernel) ∧
    Leads (run (step ReadData.shellFs) shellMachine [.op (.vidmap _128MB),.store,.op (.switchTo 253 1),.op .pit,.store])
      (fun m => ¬ VidmapRight m.kernel) ∧
    ¬ ∀ (fs : Fs) (first last : Machine) (events : List Event), ValidShell fs → Started fs first →
      run (step fs) first events = .ok last → VidmapRight last.kernel := by
  have lost : Leads (run (step ReadData.shellFs) shellMachine [.op (.vidmap _128MB),.store,.store,
      .op (.execute 253 shellCommand),.op (.vidmap _128MB),.store,.store,.op (.halt 253 0)])
      (fun m => ¬ VidmapRight m.kernel) := by decide +kernel
  refine ⟨shellMachine_started,lost,by decide +kernel,fun always => ?_⟩
  obtain ⟨last,ran,wrong⟩ := lost
  exact wrong (always _ _ last _ (Boot.shellImage_valid Boot.shellFs_image) shellMachine_started ran)

end MazeOS.VidmapStores
