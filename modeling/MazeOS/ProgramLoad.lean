import Mathlib.Logic.Relation
import MazeOS.CorruptImages

/-!
The loop of `execute` that loads a program, pass by pass (`Loader`, `pass`). On
a file without stray blocks each pass stores the next bytes of the file
(`Loaded`), so the loop ends with the whole program in place
(`program_loaded`). At the first stray block it goes round in a circle
(`Stuck`): `read_data` returns -1, which the loop adds to its counters, until
the request fits in the block before. So the loop ends exactly where no block
of the file is stray (`loads_safely_iff`). The image is read on flat memory: a
block that is not mapped gives a page fault instead (`PageFaults`).
-/
namespace MazeOS.ProgramLoad
open MazeOS.Runs MazeOS.Bytes MazeOS.Faults MazeOS.Filesystem MazeOS.ReadData MazeOS.Paging MazeOS.State MazeOS.Files
  MazeOS.Syscalls MazeOS.Terminal MazeOS.Steps MazeOS.Boot MazeOS.UserMemory MazeOS.Transfers MazeOS.CorruptImages

/-- The address at which a program is loaded. -/
def loadStart : Nat := _128MB + imageLoadOffset

/-- The variables of the loop, and the memory that it stores to. -/
structure Loader where
  loadAddr : Nat
  bytesRead : Nat
  mem : Nat → UInt8

/-- The loop is about to begin. -/
def entering (mem : Nat → UInt8) : Loader := ⟨loadStart,0,mem⟩

/-- One pass through the loop: what `read_data` returns, and the variables once
    that is added to them. -/
def pass (fs : Fs) (inode : Nat) (l : Loader) : Checked (Int × Loader) :=
  readData fs inode l.bytesRead (fun i => l.mem ((l.loadAddr + i) % 2 ^ 32)) 1024 >>= fun (copied,after) =>
    .ok (copied,⟨(l.loadAddr + unsigned copied) % 2 ^ 32,(l.bytesRead + unsigned copied) % 2 ^ 32,
      fun address => after ((address + (2 ^ 32 - l.loadAddr)) % 2 ^ 32)⟩)

/-- A pass after which the loop goes on. -/
def Goes (fs : Fs) (inode : Nat) (l m : Loader) : Prop :=
  ∃ copied, pass fs inode l = .ok (copied,m) ∧ unsigned copied ≠ 0

/-- The states in which the loop calls `read_data`. -/
def Reached (fs : Fs) (inode : Nat) (mem : Nat → UInt8) : Loader → Prop :=
  Relation.ReflTransGen (Goes fs inode) (entering mem)

theorem loadProgram_pass (fs : Fs) (inode fuel : Nat) (l : Loader) :
    loadProgram fs inode (fuel + 1) l.loadAddr l.bytesRead l.mem =
      (pass fs inode l >>= fun (copied,m) => if unsigned copied = 0 then .ok m.mem
        else loadProgram fs inode fuel m.loadAddr m.bytesRead m.mem) := by
  rw [loadProgram,pass,bind_assoc]
  rfl

/-! ### One pass -/

section
variable {fs : Fs} {inode : Nat}

/-- No block of the file starts past the end of the image. -/
def Clean (fs : Fs) (inode : Nat) : Prop := ∀ b, b < usedBlocks fs inode → ¬ Stray fs inode b

instance (fs : Fs) (inode : Nat) : Decidable (Clean fs inode) := inferInstanceAs (Decidable (∀ _, _ → _))

theorem clean_of_wellFormed (geometry : Geometry fs) (file : WellFormedFile fs inode) : Clean fs inode :=
  fun b used => inImage_not_stray geometry (file.numbers b used)

/-- A store through a pointer, seen from the start of memory. -/
theorem window_store (mem source : Nat → UInt8) {start count a : Nat} (fits : start + count ≤ 2 ^ 32) (word : a < 2 ^ 32) :
    copyInto (fun i => mem ((start + i) % 2 ^ 32)) 0 source count ((a + (2 ^ 32 - start)) % 2 ^ 32) =
      copyInto mem start source count a := by
  by_cases after : start ≤ a
  · have position : (a + (2 ^ 32 - start)) % 2 ^ 32 = a - start := by omega
    have back : (start + (a - start)) % 2 ^ 32 = a := by omega
    rw [position]
    by_cases inside : a < start + count
    · rw [copyInto_inside (Nat.zero_le _) (by omega),copyInto_inside after inside,Nat.sub_zero]
    · rw [copyInto_outside (by omega),copyInto_outside (by omega),back]
  · have position : (a + (2 ^ 32 - start)) % 2 ^ 32 = a + (2 ^ 32 - start) := by omega
    have back : (start + (a + (2 ^ 32 - start))) % 2 ^ 32 = a := by omega
    rw [position,copyInto_outside (by omega),copyInto_outside (by omega),back]

theorem loads_of_short (short : fileLength fs inode < maxDataBlockCount * blockSize) (offset : Nat) :
    Loads fs inode offset := fun _ _ => blocks_few short

/-- What a pass does. It stores the bytes before the first stray block. -/
theorem pass_eq (short : fileLength fs inode < maxDataBlockCount * blockSize) (l : Loader) :
    ∃ m, pass fs inode l = .ok (readValue fs inode l.bytesRead 1024,m) ∧
      m.loadAddr = (l.loadAddr + unsigned (readValue fs inode l.bytesRead 1024)) % 2 ^ 32 ∧
      m.bytesRead = (l.bytesRead + unsigned (readValue fs inode l.bytesRead 1024)) % 2 ^ 32 ∧
      (l.loadAddr + fileExtent fs inode l.bytesRead 1024 ≤ 2 ^ 32 → ∀ a, a < 2 ^ 32 →
        m.mem a = copyInto l.mem l.loadAddr (fun i => fileByte fs inode (l.bytesRead + i))
          (fileExtent fs inode l.bytesRead 1024) a) := by
  rw [pass,readData_extent (loads_of_short short _),ok_bind]
  exact ⟨_,rfl,rfl,rfl,fun fits a word =>
    window_store l.mem (fun i => fileByte fs inode (l.bytesRead + i)) fits word⟩

theorem requested_eq (present : inode < fs.metadata.numInodes) (offset length : Nat) :
    requested fs inode offset length = readCount fs inode offset length := if_pos present

/-- All bytes asked for are delivered when they are in the file and none of their
    blocks is stray. -/
theorem readValue_full {offset count : Nat} (some : 0 < count) : readValue fs inode offset count = count ↔
    inode < fs.metadata.numInodes ∧ offset + count ≤ fileLength fs inode ∧
      ∀ i, i < count → ¬ Stray fs inode ((offset + i) / blockSize) := by
  constructor
  · intro value
    rw [readValue] at value
    split at value
    · rename_i success
      obtain ⟨present,_,whole⟩ := success
      have extent : fileExtent fs inode offset count = count := by omega
      rw [extent,requested_eq present] at whole
      refine ⟨present,?_,?_⟩
      · simp only [readCount] at whole
        split at whole <;> omega
      · intro i inside
        rw [← extent] at inside
        exact (lt_streak.mp inside).2 i (Nat.le_refl i)
    · omega
  · rintro ⟨present,within,clean⟩
    have wanted : requested fs inode offset count = count := by
      rw [requested_eq present,readCount]
      split <;> omega
    have extent : fileExtent fs inode offset count = count := by
      rw [fileExtent,wanted]
      exact streak_eq (Nat.le_refl _) clean fun short => absurd short (Nat.lt_irrefl _)
    rw [readValue,wanted,extent,if_pos ⟨present,fun _ => clean 0 some,rfl⟩]

/-- Where no block is stray, `read_data` delivers what is asked for. -/
theorem read_clean (present : inode < fs.metadata.numInodes) (clean : Clean fs inode) (offset length : Nat) :
    fileExtent fs inode offset length = readCount fs inode offset length ∧
      readValue fs inode offset length = readCount fs inode offset length := by
  have used : ∀ i, offset + i < fileLength fs inode → ¬ Stray fs inode ((offset + i) / blockSize) := by
    intro i inside
    refine clean _ (block_used ?_)
    have := Nat.div_mul_le_self (offset + i) blockSize
    omega
  have extent : fileExtent fs inode offset length = readCount fs inode offset length := by
    rw [fileExtent,requested_eq present]
    refine streak_eq (Nat.le_refl _) (fun i inside => used i ?_) (fun short => absurd short (Nat.lt_irrefl _))
    by_cases past : fileLength fs inode ≤ offset
    · rw [readCount,if_pos past] at inside
      exact absurd inside (Nat.not_lt_zero i)
    · have within := readCount_within fs length (Nat.le_of_lt (Nat.lt_of_not_le past))
      omega
  refine ⟨extent,?_⟩
  rw [readValue,requested_eq present,extent,if_pos ⟨present,fun inside => used 0 inside,rfl⟩]

/-! ### A file without stray blocks -/

/-- The bytes of the file that have been read are in place, and nothing else has
    been stored. -/
structure Loaded (fs : Fs) (inode : Nat) (mem : Nat → UInt8) (l : Loader) : Prop where
  address : l.loadAddr = loadStart + l.bytesRead
  within : l.bytesRead ≤ fileLength fs inode
  bytes : ∀ a, a < 2 ^ 32 → l.mem a = copyInto mem loadStart (fileByte fs inode) l.bytesRead a

theorem entering_loaded (mem : Nat → UInt8) : Loaded fs inode mem (entering mem) :=
  ⟨(Nat.add_zero loadStart).symm,Nat.zero_le _,fun a _ => by rw [entering,copyInto_zero]⟩

/-- A pass stores the next bytes of the file. -/
theorem pass_loaded (present : inode < fs.metadata.numInodes)
    (short : fileLength fs inode < maxDataBlockCount * blockSize) (clean : Clean fs inode) {mem : Nat → UInt8}
    {l : Loader} (loaded : Loaded fs inode mem l) :
    ∃ m, pass fs inode l = .ok ((readCount fs inode l.bytesRead 1024 : Int),m) ∧
      m.bytesRead = l.bytesRead + readCount fs inode l.bytesRead 1024 ∧ Loaded fs inode mem m ∧
      ∀ a, a < 2 ^ 32 → m.mem a = copyInto l.mem l.loadAddr (fun i => fileByte fs inode (l.bytesRead + i))
        (readCount fs inode l.bytesRead 1024) a := by
  obtain ⟨m,passed,address,bytesRead,stores⟩ := pass_eq short l
  obtain ⟨extent,value⟩ := read_clean present clean l.bytesRead 1024
  have within := readCount_within fs 1024 loaded.within
  have here := loaded.address
  rw [value] at passed address bytesRead
  rw [extent] at stores
  simp only [maxDataBlockCount,blockSize] at short
  simp only [loadStart,_128MB,imageLoadOffset] at here
  generalize readCount fs inode l.bytesRead 1024 = count at *
  have word : unsigned (count : Int) = count := by
    simp only [unsigned]
    omega
  rw [word] at address bytesRead
  have bytesRead' : m.bytesRead = l.bytesRead + count := by omega
  have stores' := stores (by omega)
  refine ⟨m,passed,bytesRead',⟨?_,by omega,?_⟩,stores'⟩
  · rw [address,bytesRead',loadStart,_128MB,imageLoadOffset]
    omega
  · intro a small
    rw [stores' a small,bytesRead',← copyInto_append mem loadStart l.bytesRead count (fun _ _ => rfl) (fun _ _ => rfl),
      loaded.address]
    by_cases inside : loadStart + l.bytesRead ≤ a ∧ a < loadStart + l.bytesRead + count
    · rw [copyInto_inside inside.1 inside.2,copyInto_inside inside.1 inside.2]
    · rw [copyInto_outside inside,copyInto_outside inside,loaded.bytes a small]

theorem reached_loaded (present : inode < fs.metadata.numInodes)
    (short : fileLength fs inode < maxDataBlockCount * blockSize) (clean : Clean fs inode) {mem : Nat → UInt8}
    {l : Loader} (reached : Reached fs inode mem l) : Loaded fs inode mem l := by
  induction reached with
  | refl => exact entering_loaded mem
  | tail _ goes ih =>
    obtain ⟨_,passed,_⟩ := goes
    obtain ⟨m,passed',_,loaded,_⟩ := pass_loaded present short clean ih
    rw [passed] at passed'
    cases passed'
    exact loaded

/-- The loop ends. -/
theorem loadProgram_ends (present : inode < fs.metadata.numInodes)
    (short : fileLength fs inode < maxDataBlockCount * blockSize) (clean : Clean fs inode) (mem : Nat → UInt8) (fuel : Nat)
    (enough : fileLength fs inode ≤ fuel * 1024) :
    ∃ page, loadProgram fs inode (fuel + 1) loadStart 0 mem = .ok page := by
  refine loadProgram_total short (fun offset buf => ?_) fuel 0 (Nat.zero_le _) enough loadStart mem
  rw [readData_extent (loads_of_short short offset),(read_clean present clean offset 1024).2]
  exact ⟨_,rfl⟩

/-- The loop ends only with the whole file in place. -/
theorem loadProgram_contents (present : inode < fs.metadata.numInodes)
    (short : fileLength fs inode < maxDataBlockCount * blockSize) (clean : Clean fs inode) {mem page : Nat → UInt8}
    {l : Loader} (loaded : Loaded fs inode mem l) {fuel : Nat}
    (done : loadProgram fs inode fuel l.loadAddr l.bytesRead l.mem = .ok page) :
    ∀ a, a < 2 ^ 32 → page a = copyInto mem loadStart (fileByte fs inode) (fileLength fs inode) a := by
  induction fuel generalizing l with
  | zero => cases done
  | succ fuel ih =>
    obtain ⟨m,passed,next,loaded',_⟩ := pass_loaded present short clean loaded
    have within := loaded'.within
    rw [loadProgram_pass,passed,ok_bind] at done
    by_cases ended : unsigned (readCount fs inode l.bytesRead 1024 : Int) = 0
    · simp only [if_pos ended] at done
      cases done
      have count := readCount_le_length fs inode l.bytesRead 1024
      have none : readCount fs inode l.bytesRead 1024 = 0 := by
        unfold unsigned at ended
        omega
      have whole : m.bytesRead = fileLength fs inode := by
        have past := (readCount_eq_zero_iff fs (by decide)).mp none
        omega
      rw [← whole]
      exact loaded'.bytes
    · simp only [if_neg ended] at done
      exact ih loaded' done

/-! ### A file with a stray block -/

/-- The loop has not gone past the block `b`, and is at a multiple of 1024 or
    close below the block. -/
structure Stuck (b : Nat) (l : Loader) : Prop where
  address : l.loadAddr = loadStart + l.bytesRead
  before : l.bytesRead ≤ b * blockSize
  place : l.bytesRead % 1024 = 0 ∨ b * blockSize < l.bytesRead + 1024

theorem entering_stuck (b : Nat) (mem : Nat → UInt8) : Stuck b (entering mem) :=
  ⟨(Nat.add_zero loadStart).symm,Nat.zero_le _,.inl rfl⟩

/-- Below the first stray block `read_data` delivers the 1024 bytes asked for, and
    -1 if they would reach it. -/
theorem readValue_stray (present : inode < fs.metadata.numInodes) {b : Nat} (used : b < usedBlocks fs inode)
    (stray : Stray fs inode b) (first : ∀ c, c < b → ¬ Stray fs inode c) {offset : Nat}
    (before : offset ≤ b * blockSize) :
    readValue fs inode offset 1024 = if offset + 1024 ≤ b * blockSize then 1024 else -1 := by
  have reaches : b * blockSize < fileLength fs inode := by
    simp only [usedBlocks,blockSize] at used ⊢
    omega
  by_cases far : offset + 1024 ≤ b * blockSize
  · have good : ∀ i, i < 1024 → ¬ Stray fs inode ((offset + i) / blockSize) := by
      intro i inside
      refine first _ (Nat.div_lt_of_lt_mul ?_)
      rw [Nat.mul_comm]
      omega
    rw [if_pos far]
    exact (readValue_full (by decide)).mpr ⟨present,by omega,good⟩
  · have count : readCount fs inode offset 1024 = min 1024 (fileLength fs inode - offset) := by
      simp only [readCount]
      split <;> omega
    rw [if_neg far,readValue,requested_eq present,if_neg]
    rintro ⟨_,_,complete⟩
    -- All bytes are delivered, so that of the stray block is.
    have here : b * blockSize - offset < fileExtent fs inode offset 1024 := by omega
    rw [fileExtent,lt_streak] at here
    refine here.2 _ (Nat.le_refl _) ?_
    rw [Nat.add_sub_cancel' before,Nat.mul_div_cancel _ (by decide)]
    exact stray

/-- Below the first stray block a pass goes on by 1024 bytes. A pass that would
    reach it takes one step back. -/
theorem pass_stuck (present : inode < fs.metadata.numInodes)
    (short : fileLength fs inode < maxDataBlockCount * blockSize) {b : Nat} (later : 0 < b)
    (used : b < usedBlocks fs inode) (stray : Stray fs inode b) (first : ∀ c, c < b → ¬ Stray fs inode c)
    {l : Loader} (stuck : Stuck b l) :
    ∃ copied m, pass fs inode l = .ok (copied,m) ∧ unsigned copied ≠ 0 ∧ Stuck b m := by
  obtain ⟨m,passed,address,bytesRead,_⟩ := pass_eq short l
  have reaches : b * blockSize < fileLength fs inode := by
    simp only [usedBlocks,blockSize] at used ⊢
    omega
  rw [readValue_stray present used stray first stuck.before] at passed address bytesRead
  have here := stuck.address
  have place := stuck.place
  have before := stuck.before
  by_cases far : l.bytesRead + 1024 ≤ b * blockSize
  · have word : unsigned 1024 = 1024 := by decide
    rw [if_pos far] at passed address bytesRead
    rw [word] at address bytesRead
    refine ⟨1024,m,passed,by decide,?_,?_,?_⟩
    all_goals simp only [loadStart,_128MB,imageLoadOffset,maxDataBlockCount,blockSize] at *; omega
  · have word : unsigned (-1) = 2 ^ 32 - 1 := by decide
    rw [if_neg far] at passed address bytesRead
    rw [word] at address bytesRead
    refine ⟨-1,m,passed,by decide,?_,?_,?_⟩
    all_goals simp only [loadStart,_128MB,imageLoadOffset,maxDataBlockCount,blockSize] at *; omega

theorem reached_stuck (present : inode < fs.metadata.numInodes)
    (short : fileLength fs inode < maxDataBlockCount * blockSize) {b : Nat} (later : 0 < b)
    (used : b < usedBlocks fs inode) (stray : Stray fs inode b) (first : ∀ c, c < b → ¬ Stray fs inode c)
    {mem : Nat → UInt8} {l : Loader} (reached : Reached fs inode mem l) : Stuck b l := by
  induction reached with
  | refl => exact entering_stuck b mem
  | tail _ goes ih =>
    obtain ⟨_,passed,_⟩ := goes
    obtain ⟨_,m,passed',_,stuck⟩ := pass_stuck present short later used stray first ih
    rw [passed] at passed'
    cases passed'
    exact stuck

theorem loadProgram_stuck (present : inode < fs.metadata.numInodes)
    (short : fileLength fs inode < maxDataBlockCount * blockSize) {b : Nat} (later : 0 < b)
    (used : b < usedBlocks fs inode) (stray : Stray fs inode b) (first : ∀ c, c < b → ¬ Stray fs inode c)
    {l : Loader} (stuck : Stuck b l) (fuel : Nat) :
    loadProgram fs inode fuel l.loadAddr l.bytesRead l.mem = .error .diverges := by
  induction fuel generalizing l with
  | zero => rfl
  | succ fuel ih =>
    obtain ⟨_,m,passed,goes,stuck'⟩ := pass_stuck present short later used stray first stuck
    rw [loadProgram_pass,passed,ok_bind]
    simp only [if_neg goes]
    exact ih stuck'

end

/-! ### Where a program is loaded -/

/-- The stores of one pass are in the place of the program. -/
structure StoresInside (fs : Fs) (inode : Nat) (l : Loader) (copied : Int) (m : Loader) : Prop where
  counts : 0 ≤ copied
  low : loadStart ≤ l.loadAddr
  high : l.loadAddr + copied ≤ (loadStart + fileLength fs inode : Nat)
  frame : ∀ a, a < 2 ^ 32 → ¬ (l.loadAddr ≤ a ∧ a < l.loadAddr + copied.toNat) → m.mem a = l.mem a

/-- `execute` has started a process with the program in its page, and has stored
    to no other page. -/
structure Placed (fs : Fs) (inode pid : Nat) (before after : Kernel) : Prop where
  unused : LowestFree before (pid - 1)
  running : getPcb after = pcbAddress pid
  contents : taken (fun i => after.pages pid (loadStart + i)) (fileLength fs inode) =
    (content fs inode).take (fileLength fs inode)
  rest : ∀ a, a < 2 ^ 32 → ¬ (loadStart ≤ a ∧ a < loadStart + fileLength fs inode) →
    after.pages pid a = before.pages pid a
  others : ∀ q, q ≠ pid → after.pages q = before.pages q
  frame : ∀ i, i < fileLength fs inode → imageLoadOffset + i < _4MB ∧
    translate after.paging (loadStart + i) = some (frameStart pid + (imageLoadOffset + i))

section
variable {fs : Fs} {inode : Nat}

theorem pass_inside (present : inode < fs.metadata.numInodes)
    (short : fileLength fs inode < maxDataBlockCount * blockSize) (clean : Clean fs inode) {mem : Nat → UInt8}
    {l m : Loader} {copied : Int} (reached : Reached fs inode mem l) (passed : pass fs inode l = .ok (copied,m)) :
    StoresInside fs inode l copied m := by
  have loaded := reached_loaded present short clean reached
  have here := loaded.address
  obtain ⟨m',passed',_,_,stores⟩ := pass_loaded present short clean loaded
  have within := readCount_within fs 1024 loaded.within
  rw [passed'] at passed
  cases passed
  refine ⟨Int.natCast_nonneg _,by omega,by omega,fun a small outside => ?_⟩
  rw [stores a small]
  exact copyInto_outside (by omega)

/-- The bytes of a page in which the program is. -/
theorem contents_of_page {mem page : Nat → UInt8} (short : fileLength fs inode < maxDataBlockCount * blockSize)
    (bytes : ∀ a, a < 2 ^ 32 → page a = copyInto mem loadStart (fileByte fs inode) (fileLength fs inode) a) :
    taken (fun i => page (loadStart + i)) (fileLength fs inode) = (content fs inode).take (fileLength fs inode) := by
  have slice := content_slice fs (show 0 + fileLength fs inode ≤ fileLength fs inode by omega)
  rw [List.drop_zero] at slice
  rw [slice]
  refine taken_congr fun i inside => ?_
  have small : loadStart + i < 2 ^ 32 := by
    simp only [loadStart,_128MB,imageLoadOffset,maxDataBlockCount,blockSize] at *
    omega
  rw [bytes _ small,copyInto_inside (Nat.le_add_right _ _) (by omega),Nat.add_sub_cancel_left,Nat.zero_add]

/-- The new page is mapped at 128MB. -/
theorem translate_spawned (k : Kernel) (pid : Nat) (parsed : Parsed) (page : Nat → UInt8) {offset : Nat}
    (inside : offset < _4MB) :
    translate (spawned k pid parsed page).paging (_128MB + offset) = some (frameStart pid + offset) := by
  have directory : directoryIndex (_128MB + offset) = 32 := by
    simp only [directoryIndex,_128MB,_4MB] at *
    omega
  have owned : (spawned k pid parsed page).paging.pageDirectory 32 = .page (childPcb k pid parsed).pde := mapPage_owned _ _
  have frame : (_8MB + _4MB * (pid - 1)) / 2 ^ 22 * 2 ^ 22 + (_128MB + offset) % 2 ^ 22 = frameStart pid + offset := by
    simp only [frameStart,_8MB,_4MB,_128MB] at *
    omega
  simp only [Paging.translate,directory,owned,childPcb,newPcb,and_self,if_true,frame]

/-- An executable whose blocks exist is loaded, byte for byte, to its place in the
    page of the new process, and nothing is stored anywhere else. -/
theorem program_loaded (geometry : Geometry fs) (file : WellFormedFile fs inode) :
    (∀ mem, ∃ enough, ∀ fuel, enough ≤ fuel → ∃ page, loadProgram fs inode fuel loadStart 0 mem = .ok page ∧
      taken (fun i => page (loadStart + i)) (fileLength fs inode) = (content fs inode).take (fileLength fs inode)) ∧
    (∀ mem l copied m, Reached fs inode mem l → pass fs inode l = .ok (copied,m) → StoresInside fs inode l copied m) ∧
    loadStart + fileLength fs inode ≤ _128MB + _4MB ∧
    ∀ fuel k command parsed dentry eip after, parseCommand fuel command.bytes = .ok parsed →
      readDentryByName fs parsed.filename = some dentry → dentry.inode = inode →
      Syscalls.execute fs fuel k command = .ok (.started eip after) → ∃ pid, Placed fs inode pid k after := by
  have clean := clean_of_wellFormed geometry file
  have page_bytes := fun (mem : Nat → UInt8) (page : Nat → UInt8) (fuel : Nat)
      (done : loadProgram fs inode fuel loadStart 0 mem = .ok page) =>
    loadProgram_contents file.exists_ file.short clean (entering_loaded mem) done
  have short := file.short
  refine ⟨fun mem => ⟨fileLength fs inode + 1,fun fuel enough => ?_⟩,
    fun _ _ _ _ => pass_inside file.exists_ file.short clean,?_,?_⟩
  · obtain ⟨fuel,rfl⟩ : ∃ n, fuel = n + 1 := ⟨fuel - 1,by omega⟩
    obtain ⟨page,done⟩ := loadProgram_ends file.exists_ file.short clean mem fuel (by omega)
    exact ⟨page,done,contents_of_page file.short (page_bytes mem page _ done)⟩
  · simp only [loadStart,_128MB,_4MB,imageLoadOffset,maxDataBlockCount,blockSize] at *
    omega
  · intro fuel k command parsed dentry eip after parses found same executed
    obtain ⟨_,parsed',dentry',i,page,parses',found',_,_,lowest,_,done,rfl⟩ := execute_started_iff.mp executed
    rw [parses] at parses'
    cases parses'
    rw [found] at found'
    cases found'
    rw [same] at done
    have bytes := page_bytes _ _ _ done
    have mine : (spawned k (i + 1) parsed page).pages (i + 1) = page := Function.update_self _ _ _
    refine ⟨i + 1,lowest,rfl,?_,?_,?_,?_⟩
    · rw [mine]
      exact contents_of_page file.short bytes
    · intro a small outside
      rw [mine,bytes a small]
      exact copyInto_outside outside
    · intro q other
      exact Function.update_of_ne other _ _
    · intro j inside
      have inPage : imageLoadOffset + j < _4MB := by
        simp only [_4MB,imageLoadOffset,maxDataBlockCount,blockSize] at *
        omega
      rw [loadStart,Nat.add_assoc]
      exact ⟨inPage,translate_spawned k (i + 1) parsed page inPage⟩

end

/-- A program of two blocks. -/
theorem program_loaded_shell : ∃ eip after pid, Syscalls.execute longFs 253 (boot default) shellCommand =
    .ok (.started eip after) ∧ Placed longFs 0 pid (boot default) after ∧ fileLength longFs 0 = 4100 := by
  obtain ⟨eip,after,executed⟩ := boot_starts longFs_image default
  obtain ⟨dentry,found,_⟩ := longFs_image.shell
  obtain ⟨_,_,_,placed⟩ := program_loaded longFs_geometry longFs_file
  have inode : dentry.inode = 0 := by
    have zero : (readDentryByName longFs shellCommand.bytes).map Dentry.inode = some 0 := by decide +kernel
    rw [found] at zero
    exact Option.some.inj zero
  obtain ⟨pid,here⟩ := placed 253 _ _ _ dentry eip after (parseCommand_shell 252) found inode executed
  exact ⟨eip,after,pid,executed,here,by decide⟩

/-! ### Which files are loaded -/

/-- The loop ends, whatever is in memory. -/
def Terminates (fs : Fs) (inode : Nat) : Prop :=
  ∀ mem, ∃ fuel page, loadProgram fs inode fuel loadStart 0 mem = .ok page

/-- The loop never stores below the start of the program. -/
def StaysAbove (fs : Fs) (inode : Nat) : Prop := ∀ mem l, Reached fs inode mem l → loadStart ≤ l.loadAddr

/-- `execute` does not start the file when `read_data` reports a stray block. -/
def NeverStarts (fs : Fs) (inode : Nat) : Prop :=
  (∃ mem l m, Reached fs inode mem l ∧ pass fs inode l = .ok (-1,m)) →
    ∀ fuel k command parsed dentry eip after, parseCommand fuel command.bytes = .ok parsed →
      readDentryByName fs parsed.filename = some dentry → dentry.inode = inode →
      Syscalls.execute fs fuel k command ≠ .ok (.started eip after)

structure LoadsSafely (fs : Fs) (inode : Nat) : Prop where
  terminates : Terminates fs inode
  above : StaysAbove fs inode
  refuses : NeverStarts fs inode

section
variable {fs : Fs} {inode : Nat}

theorem clean_loads (present : inode < fs.metadata.numInodes)
    (short : fileLength fs inode < maxDataBlockCount * blockSize) (clean : Clean fs inode) : LoadsSafely fs inode := by
  refine ⟨?_,?_,?_⟩
  · intro mem
    exact ⟨_,loadProgram_ends present short clean mem (fileLength fs inode) (by omega)⟩
  · intro mem l reached
    rw [(reached_loaded present short clean reached).address]
    exact Nat.le_add_right _ _
  · rintro ⟨mem,l,m,reached,passed⟩
    obtain ⟨m',passed',_⟩ := pass_loaded present short clean (reached_loaded present short clean reached)
    rw [passed'] at passed
    have value := congrArg Prod.fst (Except.ok.inj passed)
    simp only at value
    omega

/-- With a stray block after the first one, the loop stays where the program is
    loaded, but never ends. -/
theorem stray_loads (present : inode < fs.metadata.numInodes)
    (short : fileLength fs inode < maxDataBlockCount * blockSize) {b : Nat} (later : 0 < b)
    (used : b < usedBlocks fs inode) (stray : Stray fs inode b) (first : ∀ c, c < b → ¬ Stray fs inode c) :
    (∀ mem fuel, loadProgram fs inode fuel loadStart 0 mem = .error .diverges) ∧ StaysAbove fs inode ∧
      NeverStarts fs inode := by
  have stuck : ∀ mem fuel, loadProgram fs inode fuel loadStart 0 mem = .error .diverges := fun mem fuel =>
    loadProgram_stuck present short later used stray first (entering_stuck b mem) fuel
  refine ⟨stuck,?_,?_⟩
  · intro mem l reached
    rw [(reached_stuck present short later used stray first reached).address]
    exact Nat.le_add_right _ _
  · intro _ fuel k command parsed dentry eip after parses found same executed
    obtain ⟨_,parsed',dentry',i,page,parses',found',_,_,_,_,loaded,_⟩ := execute_started_iff.mp executed
    rw [parses] at parses'
    cases parses'
    rw [found] at found'
    cases found'
    rw [same] at loaded
    have diverged := stuck (k.pages (i + 1)) fuel
    rw [loadStart,loaded] at diverged
    cases diverged

/-- The first stray block of a file whose first block can be read. -/
theorem first_stray (notClean : ¬ Clean fs inode) (opens : ¬ Stray fs inode 0) :
    ∃ b, 0 < b ∧ b < usedBlocks fs inode ∧ Stray fs inode b ∧ ∀ c, c < b → ¬ Stray fs inode c := by
  obtain ⟨b,used,stray⟩ : ∃ b, b < usedBlocks fs inode ∧ Stray fs inode b := by
    by_contra none
    exact notClean fun b used stray => none ⟨b,used,stray⟩
  have some : ∃ b, Stray fs inode b := ⟨b,stray⟩
  have least := Nat.find_min' some stray
  refine ⟨Nat.find some,?_,by omega,Nat.find_spec some,fun c before => Nat.find_min some before⟩
  rcases Nat.eq_zero_or_pos (Nat.find some) with zero | positive
  · have here := Nat.find_spec some
    rw [zero] at here
    exact absurd here opens
  · exact positive

theorem readable_of (loads : Loads fs inode 0) (value : readValue fs inode 0 28 = 28) :
    ∃ after, readData fs inode 0 (fun _ => 0) 28 = .ok (28,after) :=
  ⟨_,by rw [readData_extent loads,value]⟩

/-- A file whose first bytes can be read is loaded safely exactly when none of its
    blocks starts past the end of the image. Otherwise the loop does not end,
    without storing below the program or starting it. -/
theorem loads_safely_iff (present : inode < fs.metadata.numInodes)
    (short : fileLength fs inode < maxDataBlockCount * blockSize)
    (readable : ∃ after, readData fs inode 0 (fun _ => 0) 28 = .ok (28,after)) :
    (LoadsSafely fs inode ↔ ∀ b, b < usedBlocks fs inode → ¬ Stray fs inode b) ∧ StaysAbove fs inode ∧
      NeverStarts fs inode := by
  by_cases clean : Clean fs inode
  · have safe := clean_loads present short clean
    exact ⟨iff_of_true safe clean,safe.above,safe.refuses⟩
  · obtain ⟨after,read⟩ := readable
    rw [readData_extent (loads_of_short short 0)] at read
    have value : readValue fs inode 0 28 = 28 := congrArg Prod.fst (Except.ok.inj read)
    obtain ⟨_,_,opens⟩ := (readValue_full (by decide)).mp value
    obtain ⟨b,later,used,stray,first⟩ := first_stray clean (opens 0 (by decide))
    obtain ⟨diverges,above,refuses⟩ := stray_loads present short later used stray first
    refine ⟨iff_of_false ?_ clean,above,refuses⟩
    intro safe
    obtain ⟨fuel,page,loaded⟩ := safe.terminates fun _ => 0
    rw [diverges] at loaded
    cases loaded

end

theorem loads_safely_shell : LoadsSafely shellFs 0 :=
  (loads_safely_iff shellFs_file.exists_ shellFs_file.short (readable_of (by decide) (by decide))).1.mpr
    (clean_of_wellFormed shellFs_geometry shellFs_file)

/-- A program `shell` of 5000 bytes; its second block would start after the end of
    the image. -/
def holeFs : Fs := imageOf [(0,1),(4,1),(8,1),(64,115),(65,104),(66,101),(67,108),(68,108),(96,2),(4096,0x88),(4097,0x13),
  (4104,2),(8192,0x7F),(8193,0x45),(8194,0x4C),(8195,0x46),(8217,0x80),(8218,0x04),(8219,0x08)]

theorem holeFs_diverges (mem : Nat → UInt8) (fuel : Nat) : loadProgram holeFs 0 fuel loadStart 0 mem = .error .diverges := by
  have stray : Stray holeFs 0 1 := by unfold Stray; decide
  have first : ∀ c, c < 1 → ¬ Stray holeFs 0 c := by unfold Stray; decide
  exact loadProgram_stuck (by decide) (by decide) (by decide) (by decide) stray first (entering_stuck 1 mem) fuel

/-- The loop that loads it never ends. -/
theorem loads_safely_fail : (∀ mem fuel, loadProgram holeFs 0 fuel loadStart 0 mem = .error .diverges) ∧
    getElfHeader holeFs 0 = .ok elfHeader ∧
    ¬ (∀ (fs : Fs) (inode : Nat), inode < fs.metadata.numInodes →
      fileLength fs inode < maxDataBlockCount * blockSize →
      (∃ after, readData fs inode 0 (fun _ => 0) 28 = .ok (28,after)) → LoadsSafely fs inode) := by
  refine ⟨holeFs_diverges,by decide,fun always => ?_⟩
  have safe := always holeFs 0 (by decide) (by decide) (readable_of (by decide) (by decide))
  obtain ⟨fuel,page,loaded⟩ := safe.terminates fun _ => 0
  rw [holeFs_diverges] at loaded
  cases loaded

end MazeOS.ProgramLoad
