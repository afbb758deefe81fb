import MazeOS.Transfers
import MazeOS.Undisturbed

/-!
Where the system calls store through the pointers of user code. `getargs` and
`vidmap` test only that the first byte lies in the user page, and `read` only
that the pointer is not null; `user_pointers_iff` is the exact condition under
which every byte that is stored lies in the page all the same. It holds in every
kernel in which the page of the caller is mapped, whatever the caller has open;
this is so in every state that a run reaches (`reachable_ownPage`).
-/
namespace MazeOS.UserPointers
open MazeOS.Runs MazeOS.Bytes MazeOS.Faults MazeOS.Filesystem MazeOS.ReadData MazeOS.Paging MazeOS.State MazeOS.Files
  MazeOS.Syscalls MazeOS.Terminal MazeOS.Steps MazeOS.Tables MazeOS.ProcessTable MazeOS.UserMemory MazeOS.Transfers

/-- A call that stores through a pointer. A read comes with what it finds: the
    line of the terminal, the byte at the pointer, and the address at which
    `fs_read` has its directory entry. -/
inductive UserCall where
  | getargs (buf : Nat) (nbytes : Int)
  | vidmap (screenStart : Nat)
  | read (fd : Int) (buf : Nat) (nbytes : Int) (line : List UInt8) (first : UInt8) (name : Nat)

def UserCall.pointer : UserCall → Nat
  | .getargs buf _ => buf
  | .vidmap screenStart => screenStart
  | .read _ buf _ _ _ _ => buf

def transferOf (fs : Fs) (k : Kernel) : UserCall → Checked Transfer
  | .getargs buf nbytes => .ok (getargsTransfer k buf nbytes)
  | .vidmap screenStart => .ok (vidmapTransfer k screenStart)
  | .read fd buf nbytes line first name => readTransfer fs k fd buf name line first nbytes

/-- The page tables when a call stores: `vidmap` maps the video page first. -/
def tablesOf (k : Kernel) : UserCall → PageTables
  | .vidmap screenStart => (vidmap k screenStart).2.1.paging
  | _ => k.paging

def InUserPage (address : Nat) : Prop := _128MB ≤ address ∧ address < userVideoMemAddr

instance (address : Nat) : Decidable (InUserPage address) := inferInstanceAs (Decidable (_ ∧ _))

/-- A call returns -1 and stores nothing, or every byte that it stores lies in
    the user page. -/
def OnlyUserPage (p : PageTables) (address : Nat) (t : Transfer) : Prop :=
  (returned p address t = some (-1) ∧ stored p address t = 0) ∨
    ∀ i, i < stored p address t → InUserPage ((address + i) % 2 ^ 32)

/-- There is nothing to store, or the first byte is not mapped, or it lies in the
    user page and the others do not get past its end. -/
def Fits (p : PageTables) (address count : Nat) : Prop :=
  count = 0 ∨ ¬ Present p address ∨
    InUserPage address ∧ (address + count ≤ userVideoMemAddr ∨ ¬ Present p userVideoMemAddr)

section
variable {p : PageTables} {address : Nat}

theorem present_word (small : address < 2 ^ 32) : Present p address ↔ (translate p address).isSome := by
  unfold Present
  rw [Nat.mod_eq_of_lt small]

/-- Where the user page is mapped, a transfer stays inside exactly when it fits. -/
theorem onlyUserPage_iff (own : ∀ a, InUserPage a → Present p a) (word : address < 2 ^ 32) (t : Transfer) :
    OnlyUserPage p address t ↔ Fits p address t.count := by
  have wrap : ∀ i, address + i < 2 ^ 32 → (address + i) % 2 ^ 32 = address + i := fun i small => Nat.mod_eq_of_lt small
  constructor
  · intro only
    by_cases empty : t.count = 0
    · exact .inl empty
    by_cases present : Present p address
    · have first : 0 < stored p address t := stored_pos.mpr ⟨Nat.pos_of_ne_zero empty,present⟩
      have all : ∀ i, i < stored p address t → InUserPage ((address + i) % 2 ^ 32) := by
        rcases only with ⟨_,none⟩ | all
        · omega
        · exact all
      have start := all 0 first
      rw [Nat.add_zero,Nat.mod_eq_of_lt word] at start
      refine .inr (.inr ⟨start,?_⟩)
      by_contra leaves
      obtain ⟨long,mapped⟩ := not_or.mp leaves
      have mapped := not_not.mp mapped
      obtain ⟨low,high⟩ := start
      -- The first byte after the page is stored too.
      have reached : userVideoMemAddr - address < stored p address t := by
        refine lt_streak.mpr ⟨by omega,fun j before => ?_⟩
        by_cases last : address + j = userVideoMemAddr
        · rw [last]; exact mapped
        · exact own _ ⟨by omega,by omega⟩
      have outside := (all _ reached).2
      rw [Nat.add_sub_cancel' (Nat.le_of_lt high)] at outside
      exact absurd outside (by decide)
    · exact .inr (.inl present)
  · intro fits
    refine .inr fun i inside => ?_
    obtain ⟨below,before⟩ := lt_streak.mp inside
    have first : Present p address := before 0 (Nat.zero_le i)
    rcases fits with empty | absent | ⟨⟨low,high⟩,ends⟩
    · omega
    · exact absurd first absent
    · have within : address + i < userVideoMemAddr := by
        rcases ends with short | absent
        · omega
        · by_contra long
          apply absent
          have passes := before (userVideoMemAddr - address) (by omega)
          rwa [Nat.add_sub_cancel' (Nat.le_of_lt high)] at passes
      have small : userVideoMemAddr < 2 ^ 32 := by decide
      rw [wrap i (by omega)]
      exact ⟨by omega,within⟩

end

/-! ### What each call has to store -/

/-- The bytes that `fs_read` has to deliver: of a directory the name of the next
    entry, of a regular file what is left of the request, of the file and of its
    blocks inside the image. A copy ends where its source does. -/
def fsDelivery (fs : Fs) (k : Kernel) (fd name : Nat) (nbytes : Int) : Nat :=
  let file := fdsOf k fd
  if fileType file = dirFileType then
    if fs.metadata.numDentries ≤ file.pos then 0
    else readable k.paging (name + ·) (if nbytes ≤ filenameSize then unsigned nbytes else filenameSize + 1)
  else if fileType file = normalFileType then
    let inode := getInodeFromPtr fs file.inode
    readable k.paging (fileSource fs inode file.pos) (fileExtent fs inode file.pos (unsigned nbytes))
  else 0

/-- The bytes that `terminal_read` has to deliver, or to clear. -/
def lineDelivery (line : List UInt8) (first : UInt8) (nbytes : Int) : Nat :=
  if firstByte line first nbytes = ctrlL then unsigned nbytes else lineSize line nbytes

/-- The condition on a call. -/
def PointerFits (fs : Fs) (k : Kernel) : UserCall → Prop
  | .getargs buf nbytes =>
    ¬ InUserPage buf ∨ unsigned nbytes < argsNeeded k ∨ buf + argsNeeded k ≤ userVideoMemAddr ∨
      ¬ Present k.paging userVideoMemAddr
  | .vidmap screenStart => ¬ InUserPage screenStart ∨ screenStart + 4 ≤ userVideoMemAddr
  | .read fd buf nbytes line first name =>
    ¬ Dispatched k fd buf ∨
      match (fdsOf k fd.toNat).fileOps with
      | some .fs => Fits k.paging buf (fsDelivery fs k fd.toNat name nbytes)
      | some .stdin => Fits k.paging buf (lineDelivery line first nbytes)
      | _ => True

section
variable {fs : Fs} {k : Kernel}

theorem fsTransfer_count {fd name : Nat} {nbytes : Int} {t : Transfer} (made : fsTransfer fs k fd name nbytes = .ok t) :
    t.count = fsDelivery fs k fd name nbytes := by
  unfold fsDelivery
  simp only
  rcases fsTransfer_cases made with ⟨directory,last,rfl⟩ | ⟨directory,inside,d,_,rfl⟩ | ⟨other,regular,made⟩ |
    ⟨other,other',rfl⟩
  · rw [if_pos directory,if_pos last]
  · rw [if_pos directory,if_neg (Nat.not_le_of_lt inside)]
    by_cases short : nbytes ≤ filenameSize
    · rw [if_pos short,if_pos short,copyFrom_count]
    · rw [if_neg short,if_neg short,copyFrom_count]
  · rw [if_neg other,if_pos regular,fileTransfer_ok made,copyFrom_count]
  · rw [if_neg other,if_neg other']

theorem terminalTransfer_count (p : PageTables) (address : Nat) (line : List UInt8) (first : UInt8) (nbytes : Int) :
    (terminalTransfer p address line first nbytes).count = lineDelivery line first nbytes := by
  unfold terminalTransfer lineDelivery
  split <;> rfl

theorem refused_iff {a : Nat} : (a < _128MB ∨ a ≥ _128MB + _4MB) ↔ ¬ InUserPage a := by
  unfold InUserPage userVideoMemAddr
  omega

/-- A pointer that `vidmap` accepts is stored with the video page mapped. -/
theorem vidmap_maps {screenStart : Nat} (inside : InUserPage screenStart) :
    Present (vidmap k screenStart).2.1.paging userVideoMemAddr ∧ (vidmapTransfer k screenStart).count = 4 := by
  have accepted : ¬ (screenStart < _128MB ∨ screenStart ≥ _128MB + _4MB) := fun out => refused_iff.mp out inside
  unfold vidmapTransfer vidmap
  rw [if_neg accepted]
  refine ⟨?_,rfl⟩
  rw [present_word (by decide)]
  simp [Paging.translate,mapUserVideoMem,PageTables.table,setPcb]

theorem vidmap_refuses {screenStart : Nat} (outside : ¬ InUserPage screenStart) :
    (vidmapTransfer k screenStart).count = 0 := by
  unfold vidmapTransfer vidmap
  rw [if_pos (refused_iff.mpr outside)]
  rfl

/-- The condition on a call says that its bytes fit. -/
theorem pointerFits_iff {call : UserCall} {t : Transfer} (own : ∀ a, InUserPage a → Present (tablesOf k call) a)
    (made : transferOf fs k call = .ok t) : PointerFits fs k call ↔ Fits (tablesOf k call) call.pointer t.count := by
  cases call with
  | getargs buf nbytes =>
    cases made
    show _ ↔ Fits k.paging buf (getargsTransfer k buf nbytes).count
    unfold PointerFits getargsTransfer Fits
    simp only [refused_iff]
    by_cases inside : InUserPage buf
    · simp only [inside,not_true_eq_false,if_false,false_or]
      by_cases small : unsigned nbytes < argsNeeded k
      · simp [small,refused]
      · have low := inside.2
        simp only [small,if_false,false_or,true_and]
        constructor
        · exact fun fits => .inr (.inr fits)
        · rintro (none | absent | fits)
          · exact .inl (by omega)
          · exact absurd (own buf inside) absent
          · exact fits
    · simp [inside,refused]
  | vidmap screenStart =>
    cases made
    show _ ↔ Fits (vidmap k screenStart).2.1.paging screenStart (vidmapTransfer k screenStart).count
    unfold PointerFits Fits
    by_cases inside : InUserPage screenStart
    · obtain ⟨present,four⟩ := vidmap_maps (k := k) inside
      have first : Present (vidmap k screenStart).2.1.paging screenStart := own screenStart inside
      simp [inside,present,four,first]
    · simp [inside,vidmap_refuses inside]
  | read fd buf nbytes line first name =>
    show _ ↔ Fits k.paging buf t.count
    have made : readTransfer fs k fd buf name line first nbytes = .ok t := made
    unfold PointerFits
    rcases readTransfer_cases made with ⟨idle,rfl⟩ | ⟨dispatched,driver,ops,made⟩
    · exact iff_of_true (.inl idle) (.inl rfl)
    · simp only [dispatched,not_true_eq_false,false_or,ops]
      cases driver with
      | fs => rw [fsTransfer_count made]
      | rtc => cases made; exact iff_of_true trivial (.inl rfl)
      | stdin => cases made; rw [terminalTransfer_count]
      | stdout => cases made; exact iff_of_true trivial (.inl rfl)

/-! ### The page of the caller -/

/-- The page of the running process is mapped. -/
def OwnPage (p : PageTables) : Prop :=
  ∃ entry, p.pageDirectory (directoryIndex _128MB) = .page entry ∧ entry.present = true ∧ entry.pageSize = true

instance (p : PageTables) : Decidable (OwnPage p) :=
  match found : p.pageDirectory (directoryIndex _128MB) with
  | .page entry => decidable_of_iff (entry.present = true ∧ entry.pageSize = true) (by simp [OwnPage,found])
  | .table _ => .isFalse (by simp [OwnPage,found])

theorem ownPage_present {p : PageTables} (own : OwnPage p) {a : Nat} (inside : InUserPage a) : Present p a := by
  obtain ⟨entry,page,present,size⟩ := own
  obtain ⟨low,high⟩ := inside
  have index : directoryIndex a = directoryIndex _128MB := by
    simp only [directoryIndex,userVideoMemAddr,_128MB,_4MB] at *
    omega
  have top : userVideoMemAddr < 2 ^ 32 := by decide
  rw [present_word (by omega),Paging.translate,index,page]
  simp [present,size]

theorem ownPage_tables (own : OwnPage k.paging) (call : UserCall) : OwnPage (tablesOf k call) := by
  cases call with
  | getargs buf nbytes => exact own
  | read fd buf nbytes line first name => exact own
  | vidmap screenStart =>
    simp only [tablesOf,vidmap]
    split
    · exact own
    · have other : directoryIndex _128MB ≠ directoryIndex userVideoMemAddr := by decide
      simp only [OwnPage,setPcb,mapUserVideoMem,Function.update_of_ne other]
      exact own

theorem mapped_ownPage {S : Schedule} (represents : Represents S (tableOf k)) (mapped : Mapped k) : OwnPage k.paging := by
  obtain ⟨p,live,_,running,_⟩ := running_live represents
  have address : getPcb k = pcbAddress p := running
  have owned := mapped.owned
  rw [address,(blockOf represents live).1] at owned
  exact ⟨_,owned,rfl,rfl⟩

/-- In every state that a run with calls on descriptors reaches, the page of the
    running process is mapped. -/
theorem reachable_ownPage (valid : ValidShell fs) {m : Undisturbed.Machine}
    (reached : Reachable (Undisturbed.step fs) (Undisturbed.Booted fs) m) : OwnPage m.kernel.paging := by
  have initially : ∀ m, Undisturbed.Booted fs m →
      (∃ S, Represents S (tableOf m.kernel)) ∧ VidmapPage.Video m.kernel ∧ Mapped m.kernel := by
    intro m booted
    obtain ⟨⟨represents,video⟩,_⟩ := VidmapPage.started_right booted.started
    exact ⟨represents,video,started_mapped booted.started⟩
  have keeps : ∀ m e after, (∃ S, Represents S (tableOf m.kernel)) ∧ VidmapPage.Video m.kernel ∧ Mapped m.kernel →
      Undisturbed.step fs m e = .ok after →
      (∃ S, Represents S (tableOf after.kernel)) ∧ VidmapPage.Video after.kernel ∧ Mapped after.kernel := by
    rintro m e after ⟨⟨S,represents⟩,video,mapped⟩ taken
    cases e with
    | op op =>
      obtain ⟨l,stepped,same⟩ := bind_eq_ok.mp taken
      cases same
      obtain ⟨S',_,next⟩ := step_represents valid represents stepped
      exact ⟨⟨S',next⟩,(VidmapPage.step_right valid represents video stepped).1,
        step_mapped valid represents video mapped stepped⟩
    | call call =>
      obtain ⟨⟨value,bytes,l⟩,done,same⟩ := bind_eq_ok.mp taken
      cases same
      have table := Undisturbed.tableOf_call done
      obtain ⟨fds,drawn,draws,rfl⟩ := Undisturbed.doCall_fds done
      have drawnVideo := VidmapPage.draws_video video draws
      obtain ⟨layout,owned⟩ := mapped_draws mapped draws
      have running : getPcb drawn = getPcb m.kernel := by
        obtain ⟨_,_,_,rfl⟩ := draws
        rfl
      have pcbs : drawn.pcbs = m.kernel.pcbs := by
        obtain ⟨_,_,_,rfl⟩ := draws
        rfl
      refine ⟨⟨S,table ▸ represents⟩,⟨drawnVideo.user,drawnVideo.virt,drawnVideo.phys,drawnVideo.current⟩,layout,?_⟩
      rw [running,pcbs] at owned
      have same : getPcb (setPcb drawn (getPcb m.kernel) { m.kernel.pcbs (getPcb m.kernel) with fds := fds }) =
          getPcb m.kernel := running
      rw [same]
      simp only [setPcb,Function.update_self]
      exact owned
  obtain ⟨⟨S,represents⟩,_,mapped⟩ := reachable_invariant initially keeps reached
  exact mapped_ownPage represents mapped

/-- Where the page of the caller is mapped, a call stores into that page only, or
    nothing and returns -1, exactly when its bytes fit. -/
theorem user_pointers_iff (own : OwnPage k.paging) {call : UserCall} (word : call.pointer < 2 ^ 32) {t : Transfer}
    (made : transferOf fs k call = .ok t) :
    OnlyUserPage (tablesOf k call) call.pointer t ↔ PointerFits fs k call := by
  have present : ∀ a, InUserPage a → Present (tablesOf k call) a := fun _ => ownPage_present (ownPage_tables own call)
  rw [pointerFits_iff present made]
  exact onlyUserPage_iff present word t

end

/-- The machine with the first shell of the image, on a blank machine. -/
def longMachine : Undisturbed.Machine :=
  ⟨Boot.kernelOf (Syscalls.execute longFs 253 (boot default) shellCommand),fun _ => []⟩

/-- The shell opens its own file and the directory, and has the last bytes of its
    page filled from both. -/
theorem user_pointers_opened :
    Leads (run (Undisturbed.step longFs) longMachine
      [.call (.open shellCommand.bytes),.call (.open fun i => if i = 0 then 46 else 0)])
      fun m => OnlyUserPage m.kernel.paging (userVideoMemAddr - 8) ⟨some 8,8⟩ ∧
        OnlyUserPage m.kernel.paging (userVideoMemAddr - 33) ⟨some 1,33⟩ := by
  have leads : Leads (run (Undisturbed.step longFs) longMachine
      [.call (.open shellCommand.bytes),.call (.open fun i => if i = 0 then 46 else 0)])
      fun m => OwnPage m.kernel.paging ∧
        (fdsOf m.kernel 2).fileOps = some .fs ∧ (fdsOf m.kernel 3).fileOps = some .fs ∧
        transferOf longFs m.kernel (.read 2 (userVideoMemAddr - 8) 8 [] 0 0) = .ok ⟨some 8,8⟩ ∧
        transferOf longFs m.kernel (.read 3 (userVideoMemAddr - 33) 33 [] 0 _4MB) = .ok ⟨some 1,33⟩ ∧
        fsDelivery longFs m.kernel 2 0 8 = 8 ∧ fsDelivery longFs m.kernel 3 _4MB 33 = 33 := by decide +kernel
  obtain ⟨m,ran,own,regular,directory,file,entry,eight,whole⟩ := leads
  refine ⟨m,ran,(user_pointers_iff own (show _ < 2 ^ 32 by decide) file).mpr (.inr ?_),
    (user_pointers_iff own (show _ < 2 ^ 32 by decide) entry).mpr (.inr ?_)⟩
  · rw [show ((2 : Int).toNat) = 2 from rfl,regular,eight]
    exact .inr (.inr ⟨by decide,.inl (by decide)⟩)
  · rw [show ((3 : Int).toNat) = 3 from rfl,directory,whole]
    exact .inr (.inr ⟨by decide,.inl (by decide)⟩)

/-- The shell reads the line `A` into the first byte of the kernel, and has the
    pointer to the video page stored at the last byte of its own page. -/
theorem user_pointers_fail : ∃ k, ValidShell shellFs ∧ Reachable (step shellFs) (Started shellFs) k ∧
    (transferOf shellFs k (.read 0 _4MB 1 [65] 0 0) = .ok ⟨some 1,1⟩ ∧
      returned k.paging _4MB ⟨some 1,1⟩ = some 1 ∧ ¬ OnlyUserPage k.paging _4MB ⟨some 1,1⟩) ∧
    transferOf shellFs k (.vidmap (userVideoMemAddr - 1)) = .ok ⟨some 0,4⟩ ∧
      ¬ OnlyUserPage (tablesOf k (.vidmap (userVideoMemAddr - 1))) (userVideoMemAddr - 1) ⟨some 0,4⟩ := by
  have valid := Boot.shellImage_valid Boot.shellFs_image
  have made : transferOf shellFs Boot.shellKernel (.read 0 _4MB 1 [65] 0 0) = .ok ⟨some 1,1⟩ := by decide +kernel
  have value : returned Boot.shellKernel.paging _4MB ⟨some 1,1⟩ = some 1 := by decide +kernel
  have one : stored Boot.shellKernel.paging _4MB ⟨some 1,1⟩ = 1 := by decide +kernel
  have mapped : transferOf shellFs Boot.shellKernel (.vidmap (userVideoMemAddr - 1)) = .ok ⟨some 0,4⟩ := by
    decide +kernel
  have four : stored (tablesOf Boot.shellKernel (.vidmap (userVideoMemAddr - 1))) (userVideoMemAddr - 1) ⟨some 0,4⟩ = 4 := by
    decide +kernel
  refine ⟨Boot.shellKernel,valid,reachable_start Boot.shellKernel_started,⟨made,value,?_⟩,mapped,?_⟩
  · rintro (⟨_,none⟩ | all)
    · rw [one] at none
      cases none
    · exact absurd (all 0 (by rw [one]; decide)) (by decide)
  · rintro (⟨_,none⟩ | all)
    · rw [four] at none
      cases none
    · exact absurd (all 1 (by rw [four]; decide)) (by decide)

end MazeOS.UserPointers
