import Mathlib.Data.Finset.Card
import Mathlib.Data.Finset.Range
import MazeOS.Steps
import MazeOS.ReadData

/-!
The loop of `execute` that loads a program ends on every well-formed file
(`loadProgram_total`), so a kernel with a free process ID starts the shell of
an image that has a well-formed one (`execute_shell_starts`), and the kernel
boots on such an image (`started_exists`). From there on the first terminal can
start shells until no process ID is left (`crowd_grows`).
-/
namespace MazeOS.Boot
open MazeOS.Runs MazeOS.Faults MazeOS.Filesystem MazeOS.Paging MazeOS.State MazeOS.Display MazeOS.Process MazeOS.Files
  MazeOS.Syscalls MazeOS.Terminal MazeOS.Steps MazeOS.ReadData

/-- The image has a well-formed file `shell` that is an executable. -/
structure ShellImage (fs : Fs) : Prop where
  geometry : Geometry fs
  shell : ∃ dentry, readDentryByName fs shellCommand.bytes = some dentry ∧ WellFormedFile fs dentry.inode ∧
    getElfHeader fs dentry.inode = .ok elfHeader

theorem shellImage_valid {fs : Fs} (image : ShellImage fs) : ValidShell fs := by
  obtain ⟨dentry,found,_,header⟩ := image.shell
  exact ⟨dentry,found,header⟩

/-- Where `read_data` delivers what is there, loading takes one iteration for every
    1024 bytes that are left, and one more. -/
theorem loadProgram_total {fs : Fs} {inode : Nat} (short : fileLength fs inode < maxDataBlockCount * blockSize)
    (reads : ∀ offset buf, ∃ after, readData fs inode offset buf 1024 = .ok ((readCount fs inode offset 1024 : Int),after))
    (left bytesRead : Nat) (inside : bytesRead ≤ fileLength fs inode)
    (enough : fileLength fs inode - bytesRead ≤ left * 1024) (loadAddr : Nat) (mem : Nat → UInt8) :
    ∃ page, loadProgram fs inode (left + 1) loadAddr bytesRead mem = .ok page := by
  induction left generalizing bytesRead loadAddr mem with
  | zero =>
    obtain ⟨after,read⟩ := reads bytesRead (fun i => mem ((loadAddr + i) % 2 ^ 32))
    have ended : readCount fs inode bytesRead 1024 = 0 := (readCount_eq_zero_iff fs (by omega)).mpr (by omega)
    rw [loadProgram,read,ended]
    exact ⟨_,rfl⟩
  | succ left ih =>
    obtain ⟨after,read⟩ := reads bytesRead (fun i => mem ((loadAddr + i) % 2 ^ 32))
    have within := readCount_within fs 1024 inside
    have atMost := readCount_le_length fs inode bytesRead 1024
    simp only [maxDataBlockCount,blockSize] at short
    have word : unsigned (readCount fs inode bytesRead 1024 : Int) = readCount fs inode bytesRead 1024 := by
      simp only [unsigned]
      omega
    rw [loadProgram,read]
    simp only [ok_bind,word]
    split
    · exact ⟨_,rfl⟩
    · have next : (bytesRead + readCount fs inode bytesRead 1024) % 2 ^ 32 =
          bytesRead + readCount fs inode bytesRead 1024 := by omega
      rw [next]
      -- A read that stops short of 1024 bytes has reached the end of the file.
      have progress : readCount fs inode bytesRead 1024 = 1024 ∨
          bytesRead + readCount fs inode bytesRead 1024 = fileLength fs inode := by
        simp only [readCount]
        generalize fileLength fs inode = length at inside
        split <;> omega
      exact ih _ within (by omega) _ _

/-- With a free process ID and room on the stack of the executing terminal, the
    shell starts; a file of less than 63 blocks takes 253 iterations at most. -/
theorem execute_shell_starts {fs : Fs} (image : ShellImage fs) {k : Kernel} {fuel : Nat} (enough : 253 ≤ fuel)
    (free : ∃ i, i < maxProcesses ∧ k.availablePids i = 0) (room : (executingTerm k).numProcs < maxProcesses) :
    ∃ eip after, Syscalls.execute fs fuel k shellCommand = .ok (.started eip after) := by
  obtain ⟨dentry,found,file,header⟩ := image.shell
  obtain ⟨fuel,rfl⟩ : ∃ n, fuel = n + 1 := ⟨fuel - 1,by omega⟩
  have read := readData_eq image.geometry file entrypointOffset (fun _ => 0) 4
  obtain ⟨eip,entry⟩ : ∃ eip, getElfEntrypoint fs dentry.inode = .ok eip := ⟨_,by rw [getElfEntrypoint,read]; rfl⟩
  have short := file.short
  simp only [maxDataBlockCount,blockSize] at short
  rcases getAvailablePid_cases k with ⟨i,inside,unused,lowest,_⟩ | ⟨none,_⟩
  · obtain ⟨page,loaded⟩ := loadProgram_total file.short
      (fun offset buf => ⟨_,readData_eq image.geometry file offset buf 1024⟩) fuel 0 (Nat.zero_le _) (by omega)
      (_128MB + imageLoadOffset) (k.pages (i + 1))
    exact ⟨eip,_,execute_started_iff.mpr ⟨shell_accepted,_,dentry,i,page,parseCommand_shell fuel,found,header,entry,
      ⟨inside,unused,lowest⟩,room,loaded,rfl⟩⟩
  · obtain ⟨i,inside,zero⟩ := free
    exact absurd zero (none i inside)

/-- The line of a terminal that nothing was typed on. -/
def emptyLine : Line := ⟨0,fun _ => 0,false,false⟩

def noModifiers : Modifiers := ⟨false,false,false,false,false,false,false⟩

/-- When the first shell is executed, nothing runs yet and no key was pressed. -/
structure Idle (k : Kernel) : Prop where
  exec : k.execTerm = 0
  current : k.currTerminal = 0
  pids : ∀ i, k.availablePids i = 0
  bare : ∀ t, t < maxTerminals → (k.terminals t).numProcs = 0
  lines : ∀ t, t < maxTerminals → (k.terminals t).toLine = emptyLine
  modifiers : k.modifiers = noModifiers

theorem idle_draws {k after : Kernel} (idle : Idle k) (draws : Draws k after) : Idle after := by
  obtain ⟨_,_,_,rfl⟩ := draws
  exact ⟨idle.exec,idle.current,idle.pids,idle.bare,idle.lines,idle.modifiers⟩

/-- No process has been started. -/
structure Bare (k : Kernel) : Prop where
  exec : k.execTerm = 0
  current : k.currTerminal = 0
  pids : ∀ i, k.availablePids i = 0
  bare : ∀ t, t < maxTerminals → (k.terminals t).numProcs = 0

theorem idle_bare {k : Kernel} (idle : Idle k) : Bare k := ⟨idle.exec,idle.current,idle.pids,idle.bare⟩

/-- The kernel at the `sti` of `entry`, on a machine with any contents of memory. -/
def atSti (m : Kernel) : Kernel :=
  let cleared := { m with
    availablePids := fun _ => 0
    execTerm := 0
    currTerminal := 0
    paging := initPaging
    tssEsp0 := _8MB }
  printf (keyboardInit (terminalInit cleared)) enablingMessage

theorem boot_eq (m : Kernel) : boot m = clearSetpos (atSti m) 0 0 := rfl

theorem atSti_idle (m : Kernel) : Idle (atSti m) := by
  refine idle_draws ?_ (printf_draws _ enablingMessage)
  refine ⟨rfl,rfl,fun _ => rfl,?_,?_,rfl⟩
  · intro t inside
    rcases terminal_cases inside with rfl | rfl | rfl <;> rfl
  · intro t inside
    rcases terminal_cases inside with rfl | rfl | rfl <;> rfl

theorem boot_idle (m : Kernel) : Idle (boot m) := by
  rw [boot_eq]
  exact idle_draws (atSti_idle m) (clearSetpos_draws _ 0 0)

theorem boot_starts {fs : Fs} (image : ShellImage fs) (m : Kernel) :
    ∃ eip k, Syscalls.execute fs 253 (boot m) shellCommand = .ok (.started eip k) := by
  have idle := boot_idle m
  have bare : (executingTerm (boot m)).numProcs = 0 := by
    rw [executingTerm,idle.exec]
    exact idle.bare 0 (by decide)
  exact execute_shell_starts image (Nat.le_refl 253) ⟨0,by decide,idle.pids 0⟩ (by rw [bare]; decide)

/-- On an image with a well-formed shell the kernel boots. -/
theorem started_exists {fs : Fs} (image : ShellImage fs) (m : Kernel) : ∃ k, Started fs k := by
  obtain ⟨eip,k,executed⟩ := boot_starts image m
  exact ⟨k,m,253,eip,executed⟩

/-! ### Shells on the first terminal -/

/-- There are `n` processes, all on the first terminal, and no key was pressed. -/
structure Crowd (k : Kernel) (n : Nat) : Prop where
  exec : k.execTerm = 0
  current : k.currTerminal = 0
  used : ∃ pids, pids ⊆ Finset.range maxProcesses ∧ pids.card = n ∧
    ∀ i, i < maxProcesses → (k.availablePids i ≠ 0 ↔ i ∈ pids)
  procs : (k.terminals 0).numProcs = n
  bare : ∀ t, t < maxTerminals → t ≠ 0 → (k.terminals t).numProcs = 0
  lines : ∀ t, t < maxTerminals → (k.terminals t).toLine = emptyLine
  modifiers : k.modifiers = noModifiers

section
variable {fs : Fs} {k : Kernel} {n : Nat}

theorem idle_crowd (idle : Idle k) : Crowd k 0 := by
  refine ⟨idle.exec,idle.current,⟨∅,by simp,rfl,?_⟩,idle.bare 0 (by decide),?_,idle.lines,idle.modifiers⟩
  · intro i _
    simp [idle.pids i]
  · intro t inside _
    exact idle.bare t inside

/-- A new process joins the others. -/
theorem crowd_spawned (crowd : Crowd k n) {pid : Nat} (low : 1 ≤ pid) (high : pid ≤ maxProcesses)
    (free : k.availablePids (pid - 1) = 0) (parsed : Parsed) (page : Nat → UInt8) :
    Crowd (spawned k pid parsed page) (n + 1) := by
  obtain ⟨pids,within,count,exactly⟩ := crowd.used
  have fresh : pid - 1 ∉ pids := by
    rw [← exactly (pid - 1) (by omega)]
    simp [free]
  refine ⟨crowd.exec,crowd.current,⟨insert (pid - 1) pids,?_,?_,?_⟩,?_,?_,?_,crowd.modifiers⟩
  · apply Finset.insert_subset
    · exact Finset.mem_range.mpr (by omega)
    · exact within
  · rw [Finset.card_insert_of_notMem fresh,count]
  · intro i inside
    by_cases here : i = pid - 1
    · subst here; simp [spawned]
    · simp only [spawned,Function.update_of_ne here,Finset.mem_insert,here,false_or]
      exact exactly i inside
  · simp [spawned,executingTerm,crowd.exec,crowd.procs]
  · intro t inside other
    simp only [spawned,crowd.exec,Function.update_of_ne other]
    exact crowd.bare t inside other
  · intro t inside
    by_cases here : t = k.execTerm
    · simp only [spawned,here,Function.update_self]
      exact crowd.lines _ (here ▸ inside)
    · simp only [spawned,Function.update_of_ne here]
      exact crowd.lines t inside

theorem crowd_free (crowd : Crowd k n) (few : n < maxProcesses) : ∃ i, i < maxProcesses ∧ k.availablePids i = 0 := by
  obtain ⟨pids,within,count,exactly⟩ := crowd.used
  have fewer : pids.card < (Finset.range maxProcesses).card := by
    rw [count,Finset.card_range]
    exact few
  obtain ⟨i,inside,free⟩ := Finset.exists_mem_notMem_of_card_lt_card fewer
  have inside' := Finset.mem_range.mp inside
  refine ⟨i,inside',?_⟩
  by_contra used
  exact free ((exactly i inside').mp used)

theorem crowd_full (crowd : Crowd k maxProcesses) {i : Nat} (inside : i < maxProcesses) : k.availablePids i ≠ 0 := by
  obtain ⟨pids,within,count,exactly⟩ := crowd.used
  have all : pids = Finset.range maxProcesses := Finset.eq_of_subset_of_card_le within (by rw [count,Finset.card_range])
  rw [exactly i inside,all]
  exact Finset.mem_range.mpr inside

/-- As long as a process ID is left, a shell starts another shell. -/
theorem crowd_grows (image : ShellImage fs) (crowd : Crowd k n) (few : n < maxProcesses) :
    ∃ eip after, Syscalls.execute fs 253 k shellCommand = .ok (.started eip after) ∧ Crowd after (n + 1) := by
  have room : (executingTerm k).numProcs < maxProcesses := by
    rw [executingTerm,crowd.exec,crowd.procs]
    exact few
  obtain ⟨eip,after,executed⟩ := execute_shell_starts image (Nat.le_refl 253) (crowd_free crowd few) room
  obtain ⟨pid,parsed,page,rfl,low,high,free,_⟩ := execute_started executed
  exact ⟨eip,_,executed,crowd_spawned crowd low high free parsed page⟩

theorem started_crowd (started : Started fs k) : Crowd k 1 := by
  obtain ⟨m,_,_,executed⟩ := started
  obtain ⟨pid,parsed,page,rfl,low,high,free,_⟩ := execute_started executed
  exact crowd_spawned (idle_crowd (boot_idle m)) low high free parsed page

/-- A run starts shells until no process ID is left. -/
theorem crowd_reached (image : ShellImage fs) (more : Nat) (crowd : Crowd k n) (few : n + more ≤ maxProcesses)
    (reached : Reachable (step fs) (Started fs) k) : ∃ k', Reachable (step fs) (Started fs) k' ∧ Crowd k' (n + more) := by
  induction more generalizing k n with
  | zero => exact ⟨k,reached,crowd⟩
  | succ more ih =>
    obtain ⟨eip,next,executed,grown⟩ := crowd_grows image crowd (by omega)
    have taken : step fs k (.execute 253 shellCommand) = .ok next := by rw [step,executed,ok_bind]
    have count : n + 1 + more = n + (more + 1) := by omega
    rw [← count]
    exact ih grown (by omega) (reachable_step reached taken)

end

theorem shellFs_image : ShellImage shellFs := by
  refine ⟨shellFs_geometry,⟨[115,104,101,108,108,0,0,0,0,0,0,0,0,0,0,0,0,0,0,0,0,0,0,0,0,0,0,0,0,0,0,0,0],2,0⟩,?_⟩
  exact ⟨by decide,shellFs_file,by decide⟩

theorem longFs_image : ShellImage longFs := by
  refine ⟨longFs_geometry,⟨[115,104,101,108,108,0,0,0,0,0,0,0,0,0,0,0,0,0,0,0,0,0,0,0,0,0,0,0,0,0,0,0,0],2,0⟩,?_⟩
  exact ⟨by decide +kernel,longFs_file,by decide +kernel⟩

/-- The kernel with which a new process runs, where one was started. -/
def kernelOf : Checked Executed → Kernel
  | .ok (.started _ k) => k
  | _ => default

/-- The kernel that has booted on a blank machine. -/
def shellKernel : Kernel := kernelOf (Syscalls.execute shellFs 253 (boot default) shellCommand)

theorem shellKernel_started : Started shellFs shellKernel := by
  obtain ⟨eip,k,executed⟩ := boot_starts shellFs_image default
  have same : shellKernel = k := congrArg kernelOf executed
  rw [same]
  exact ⟨default,253,eip,executed⟩

-- Unfolded by the elaborator it would be boot in every comparison of two states.
attribute [irreducible] shellKernel

end MazeOS.Boot
