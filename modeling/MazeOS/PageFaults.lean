import MazeOS.Numerals
import MazeOS.ProgramLoad

/-!
The functions of the file system, and the loop of `execute` that loads a
program, with page faults: they read the image through the page tables, and a
block number may lead them to memory that is not mapped. A function that meets
no page fault does what its counterpart on flat memory does (`Agrees`). The
load of a program meets none where the blocks of its file are mapped
(`loadProgram_mapped`), and stops at the first block that does not begin in
mapped memory (`loadProgram_unmapped`).
-/
namespace MazeOS.PageFaults
open MazeOS.Runs MazeOS.Bytes MazeOS.Faults MazeOS.Filesystem MazeOS.ReadData MazeOS.Paging MazeOS.State MazeOS.Display
  MazeOS.Process MazeOS.Files MazeOS.Syscalls MazeOS.Terminal MazeOS.Steps MazeOS.Transfers

/-! ### Reading through the page tables -/

/-- Why a function does not get to its end: the meaning of the code ends, or the
    byte at an address is not mapped. -/
inductive Stop where
  | fault (fault : Fault)
  | page (cr2 : Nat)
  deriving DecidableEq

abbrev Paged (α : Type) := Except Stop α

/-- A computation that reads no memory. -/
def lift {α : Type} : Checked α → Paged α
  | .ok a => .ok a
  | .error f => .error (.fault f)

/-- `count` bytes are read from an address on. -/
def touch (p : PageTables) (address count : Nat) : Paged Unit :=
  match (List.range count).find? fun i => ¬ Present p (address + i) with
  | some i => .error (.page ((address + i) % 2 ^ 32))
  | none => .ok ()

/-- The loop of `read_dentry_by_name`. -/
def findDentry (p : PageTables) (fs : Fs) (fname : Nat → UInt8) : Nat → Nat → Paged (Option Dentry)
  | 0, _ => .ok none
  | left + 1, start =>
    touch p start filenameSize >>= fun _ =>
    if strncmp fname (bytesAt fs.mem start) filenameSize = 0 then
      touch p (start + filenameSize) 8 >>= fun _ => .ok (some (dentryAt fs start))
    else findDentry p fs fname left (start + dentrySize)

/-- `read_dentry_by_name`. -/
def readDentryByName (p : PageTables) (fs : Fs) (fname : Nat → UInt8) : Paged (Option Dentry) :=
  findDentry p fs fname fs.metadata.numDentries (dentrySize + fs.fsStartAddr)

/-- The loop of `read_data` that copies the first `count` block numbers. -/
def loadDataBlocks (p : PageTables) (fs : Fs) (inodeBlockPtr : Nat) : Nat → Paged DataBlocks
  | 0 => .ok fun _ => none
  | i + 1 =>
    loadDataBlocks p fs inodeBlockPtr i >>= fun table =>
    touch p (inodeBlockPtr + 4 * i) 4 >>= fun _ =>
    if i < maxDataBlockCount then
      .ok fun j => if j = i then some (word fs.mem (inodeBlockPtr + 4 * i)) else table j
    else .error (.fault (.dataBlocks i))

/-- The loop of `read_data` over the blocks after the first. -/
def readBlocks (p : PageTables) (fs : Fs) (table : DataBlocks) (length currDataBlock currDataBlockPtr bytesRead : Nat)
    (buf : Nat → UInt8) : Paged (Int × (Nat → UInt8)) :=
  if bytesRead < length then
    if currDataBlockPtr > fs.fsEndAddr then .ok (-1,buf)
    else
      let remBytes := length - bytesRead
      if remBytes < blockSize then
        touch p currDataBlockPtr remBytes >>= fun _ =>
        .ok ((bytesRead + remBytes : Nat),copyInto buf bytesRead (bytesAt fs.mem currDataBlockPtr) remBytes)
      else
        touch p currDataBlockPtr blockSize >>= fun _ =>
        lift (dataBlock table (currDataBlock + 1)) >>= fun number =>
          readBlocks p fs table length (currDataBlock + 1) (dataBlockPtr fs number) (bytesRead + blockSize)
            (copyInto buf bytesRead (bytesAt fs.mem currDataBlockPtr) blockSize)
  else .ok ((bytesRead : Nat),buf)
termination_by length - bytesRead
decreasing_by simp only [blockSize] at *; omega

/-- `read_data`. -/
def readData (p : PageTables) (fs : Fs) (inode offset : Nat) (buf : Nat → UInt8) (length : Nat) :
    Paged (Int × (Nat → UInt8)) :=
  if inode ≥ fs.metadata.numInodes then .ok (-1,buf)
  else
    touch p (getInodePtr fs inode) 4 >>= fun _ =>
    let fileLength := word fs.mem (getInodePtr fs inode)
    if fileLength ≤ offset then .ok (0,buf)
    else
      let length := if length > fileLength - offset then fileLength - offset else length
      loadDataBlocks p fs (getInodePtr fs inode + 4) (fileLength / blockSize + 1) >>= fun table =>
      let currDataBlock := offset / blockSize
      if currDataBlock > fileLength / blockSize then .ok (0,buf)
      else
        lift (dataBlock table currDataBlock) >>= fun number =>
        let blockPtr := dataBlockPtr fs number
        if blockPtr > fs.fsEndAddr then .ok (-1,buf)
        else
          let currDataBlockPtr := blockPtr + offset % blockSize
          let remBytes := blockSize - offset % blockSize
          if length < remBytes then
            touch p currDataBlockPtr length >>= fun _ =>
            .ok ((length : Nat),copyInto buf 0 (bytesAt fs.mem currDataBlockPtr) length)
          else
            touch p currDataBlockPtr remBytes >>= fun _ =>
            lift (dataBlock table (currDataBlock + 1)) >>= fun next =>
              readBlocks p fs table length (currDataBlock + 1) (dataBlockPtr fs next) remBytes
                (copyInto buf 0 (bytesAt fs.mem currDataBlockPtr) remBytes)

/-- `get_elf_header`. -/
def getElfHeader (p : PageTables) (fs : Fs) (inode : Nat) : Paged Int :=
  readData p fs inode 0 (fun _ => 0) elfHeaderSize >>= fun (copied,elf) =>
    .ok (if (elfHeaderSize : Int) ≠ copied then -1 else signed (littleEndian elf))

/-- `get_elf_entrypoint`. -/
def getElfEntrypoint (p : PageTables) (fs : Fs) (inode : Nat) : Paged Nat :=
  readData p fs inode entrypointOffset (fun _ => 0) 4 >>= fun (copied,startAddr) =>
    .ok (if (4 : Int) ≠ copied then 0 else littleEndian startAddr)

/-! ### The loop that loads a program -/

/-- How the loop that loads a program ends, with what the calls of `read_data`
    before the last one have stored. -/
inductive Loaded where
  | done (page : Nat → UInt8)
  | faulted (cr2 : Nat) (page : Nat → UInt8)

/-- The loop of `execute` that loads the program. -/
def loadProgram (p : PageTables) (fs : Fs) (inode : Nat) : Nat → Nat → Nat → (Nat → UInt8) → Checked Loaded
  | 0, _, _, _ => .error .diverges
  | fuel + 1, loadAddr, bytesRead, mem =>
    match readData p fs inode bytesRead (fun i => mem ((loadAddr + i) % 2 ^ 32)) 1024 with
    | .error (.fault fault) => .error fault
    | .error (.page cr2) => .ok (.faulted cr2 mem)
    | .ok (copied,after) =>
      let mem' := fun address => after ((address + (2 ^ 32 - loadAddr)) % 2 ^ 32)
      if unsigned copied = 0 then .ok (.done mem')
      else loadProgram p fs inode fuel ((loadAddr + unsigned copied) % 2 ^ 32)
        ((bytesRead + unsigned copied) % 2 ^ 32) mem'

/-! ### Without a page fault -/

/-- A computation that meets no page fault does what the checked one does. -/
structure Agrees {α : Type} (paged : Paged α) (checked : Checked α) : Prop where
  done : ∀ a, paged = .ok a → checked = .ok a
  fails : ∀ fault, paged = .error (.fault fault) → checked = .error fault

section
variable {α β : Type} {p : PageTables} {fs : Fs}

theorem agrees_pure (a : α) : Agrees (.ok a) (.ok a) :=
  ⟨fun _ same => (by cases same; rfl),fun _ impossible => (by cases impossible)⟩

theorem agrees_fault (fault : Fault) : Agrees (.error (.fault fault) : Paged α) (.error fault) :=
  ⟨fun _ impossible => (by cases impossible),fun _ same => (by cases same; rfl)⟩

theorem agrees_page (cr2 : Nat) (checked : Checked α) : Agrees (.error (.page cr2)) checked :=
  ⟨fun _ impossible => (by cases impossible),fun _ impossible => (by cases impossible)⟩

theorem agrees_lift (checked : Checked α) : Agrees (lift checked) checked := by
  cases checked with
  | ok a => exact agrees_pure a
  | error fault => exact agrees_fault fault

theorem agrees_bind {paged : Paged α} {checked : Checked α} {next : α → Paged β} {next' : α → Checked β}
    (first : Agrees paged checked) (rest : ∀ a, Agrees (next a) (next' a)) :
    Agrees (paged >>= next) (checked >>= next') := by
  cases paged with
  | ok a =>
    rw [first.done a rfl,ok_bind,ok_bind]
    exact rest a
  | error stop =>
    cases stop with
    | page cr2 => exact agrees_page cr2 _
    | fault fault =>
      rw [first.fails fault rfl]
      exact agrees_fault fault

/-- What the checked computation yields, the paged one yields if it meets no page
    fault. -/
theorem agrees_complete {paged : Paged α} {checked : Checked α} (agrees : Agrees paged checked)
    (unpaged : ∀ cr2, paged ≠ .error (.page cr2)) {a : α} (done : checked = .ok a) : paged = .ok a := by
  cases paged with
  | ok b =>
    have same := agrees.done b rfl
    rw [done] at same
    cases same
    rfl
  | error stop =>
    cases stop with
    | page cr2 => exact absurd rfl (unpaged cr2)
    | fault fault =>
      have failed := agrees.fails fault rfl
      rw [done] at failed
      cases failed

theorem touch_cases (p : PageTables) (address count : Nat) :
    touch p address count = .ok () ∨ ∃ cr2, touch p address count = .error (.page cr2) := by
  unfold touch
  split
  · exact .inr ⟨_,rfl⟩
  · exact .inl rfl

theorem touch_ok {address count : Nat} :
    touch p address count = .ok () ↔ ∀ i, i < count → Present p (address + i) := by
  unfold touch
  cases search : (List.range count).find? fun i => ¬ Present p (address + i) with
  | some i =>
    obtain ⟨absent,inside,_⟩ := List.find?_range_eq_some.mp search
    have absent' : ¬ Present p (address + i) := of_decide_eq_true absent
    constructor
    · intro impossible; cases impossible
    · intro all; exact absurd (all i (List.mem_range.mp inside)) absent'
  | none =>
    refine iff_of_true rfl fun i inside => ?_
    simpa using List.find?_range_eq_none.mp search i inside

/-- Reading memory is all that a page fault comes from. -/
theorem agrees_touch (address count : Nat) {paged : Paged α} {checked : Checked α} (rest : Agrees paged checked) :
    Agrees (touch p address count >>= fun _ => paged) checked := by
  rcases touch_cases p address count with touched | ⟨cr2,touched⟩
  · rw [touched]
    exact rest
  · rw [touched]
    exact agrees_page cr2 _

theorem readDentryByName_agrees (fname : Nat → UInt8) :
    Agrees (readDentryByName p fs fname) (.ok (Filesystem.readDentryByName fs fname)) := by
  unfold readDentryByName Filesystem.readDentryByName
  generalize dentrySize + fs.fsStartAddr = start
  induction fs.metadata.numDentries generalizing start with
  | zero => exact agrees_pure _
  | succ left ih =>
    refine agrees_touch _ _ ?_
    rw [Filesystem.findDentry]
    split
    · exact agrees_touch _ _ (agrees_pure _)
    · exact ih (start + dentrySize)

theorem loadDataBlocks_agrees (ptr count : Nat) :
    Agrees (loadDataBlocks p fs ptr count) (Filesystem.loadDataBlocks fs ptr count) := by
  induction count with
  | zero => exact agrees_pure _
  | succ i ih =>
    refine agrees_bind ih fun table => agrees_touch _ _ ?_
    split
    · exact agrees_pure _
    · exact agrees_fault _

theorem readBlocks_agrees (table : DataBlocks) (length block ptr bytesRead : Nat) (buf : Nat → UInt8) :
    Agrees (readBlocks p fs table length block ptr bytesRead buf)
      (Filesystem.readBlocks fs table length block ptr bytesRead buf) := by
  induction block, ptr, bytesRead, buf using Filesystem.readBlocks.induct fs length with
  | case1 block ptr bytesRead buf more stray =>
    rw [readBlocks,Filesystem.readBlocks,if_pos more,if_pos more,if_pos stray,if_pos stray]
    exact agrees_pure _
  | case2 block ptr bytesRead buf more inside rem last =>
    have last' : length - bytesRead < blockSize := last
    rw [readBlocks,Filesystem.readBlocks,if_pos more,if_pos more,if_neg inside,if_neg inside]
    simp only [if_pos last']
    exact agrees_touch _ _ (agrees_pure _)
  | case3 block ptr bytesRead buf more inside rem whole ih =>
    have whole' : ¬ length - bytesRead < blockSize := whole
    rw [readBlocks,Filesystem.readBlocks,if_pos more,if_pos more,if_neg inside,if_neg inside]
    simp only [if_neg whole']
    exact agrees_touch _ _ (agrees_bind (agrees_lift _) ih)
  | case4 block ptr bytesRead buf done =>
    rw [readBlocks,Filesystem.readBlocks,if_neg done,if_neg done]
    exact agrees_pure _

/-- `read_data` on flat memory, unless it meets a page fault. -/
theorem readData_agrees (inode offset : Nat) (buf : Nat → UInt8) (length : Nat) :
    Agrees (readData p fs inode offset buf length) (Filesystem.readData fs inode offset buf length) := by
  unfold readData Filesystem.readData
  split
  · exact agrees_pure _
  · refine agrees_touch _ _ ?_
    simp only
    generalize (if length > word fs.mem (getInodePtr fs inode) - offset then _ else length) = count
    split
    · exact agrees_pure _
    · refine agrees_bind (loadDataBlocks_agrees _ _) fun table => ?_
      split
      · exact agrees_pure _
      · refine agrees_bind (agrees_lift _) fun number => ?_
        split
        · exact agrees_pure _
        · split
          · exact agrees_touch _ _ (agrees_pure _)
          · exact agrees_touch _ _ (agrees_bind (agrees_lift _) fun next => readBlocks_agrees _ _ _ _ _ _)

theorem getElfHeader_agrees (inode : Nat) : Agrees (getElfHeader p fs inode) (Filesystem.getElfHeader fs inode) :=
  agrees_bind (readData_agrees _ _ _ _) fun _ => agrees_pure _

theorem getElfEntrypoint_agrees (inode : Nat) :
    Agrees (getElfEntrypoint p fs inode) (Filesystem.getElfEntrypoint fs inode) :=
  agrees_bind (readData_agrees _ _ _ _) fun _ => agrees_pure _

end

/-! ### Files whose blocks are mapped -/

/-- The length and the block numbers of a file are mapped. -/
structure InodeMapped (p : PageTables) (fs : Fs) (inode : Nat) : Prop where
  length : ∀ i, i < 4 → Present p (getInodePtr fs inode + i)
  numbers : ∀ j, j < fileLength fs inode / blockSize + 1 → ∀ i, i < 4 →
    Present p (getInodePtr fs inode + 4 + 4 * j + i)

/-- The blocks of the file that start below a position are mapped as far as the
    file goes, up to the first one that `read_data` refuses because it starts past
    the end of the image. -/
def MappedTo (p : PageTables) (fs : Fs) (inode limit : Nat) : Prop :=
  ∀ b, b * blockSize < limit → (∀ c, c ≤ b → ¬ Stray fs inode c) →
    ∀ i, i < blockSize → b * blockSize + i < fileLength fs inode →
      Present p (dataBlockPtr fs (blockNumber fs inode b) + i)

/-- The blocks of the file are mapped. -/
def BlocksMapped (p : PageTables) (fs : Fs) (inode : Nat) : Prop := MappedTo p fs inode (fileLength fs inode)

/-- The blocks before a position do not start past the end of the image. -/
def Passed (fs : Fs) (inode offset : Nat) : Prop :=
  fileLength fs inode ≤ offset ∨ ∀ c, c < offset / blockSize → ¬ Stray fs inode c

/-- The computation meets no page fault. -/
def Unpaged {α : Type} (paged : Paged α) : Prop := ∀ cr2, paged ≠ .error (.page cr2)

section
variable {α β : Type} {p : PageTables} {fs : Fs} {inode : Nat}

theorem unpaged_ok (a : α) : Unpaged (.ok a) := fun _ impossible => (by cases impossible)

theorem lift_ok {checked : Checked α} {a : α} (done : lift checked = .ok a) : checked = .ok a := by
  cases checked with
  | ok b => cases done; rfl
  | error fault => cases done

theorem unpaged_lift (checked : Checked α) : Unpaged (lift checked) := by
  cases checked with
  | ok a => exact unpaged_ok a
  | error fault => exact fun _ impossible => (by cases impossible)

theorem unpaged_bind {paged : Paged α} {next : α → Paged β} (first : Unpaged paged)
    (rest : ∀ a, paged = .ok a → Unpaged (next a)) : Unpaged (paged >>= next) := by
  cases paged with
  | ok a => exact rest a rfl
  | error stop =>
    intro cr2 failed
    rw [error_bind] at failed
    cases failed
    exact first cr2 rfl

theorem unpaged_touch {address count : Nat} (mapped : ∀ i, i < count → Present p (address + i)) :
    Unpaged (touch p address count) := by
  rw [touch_ok.mpr mapped]
  exact unpaged_ok ()

theorem loadDataBlocks_mapped {ptr count : Nat}
    (mapped : ∀ j, j < count → ∀ i, i < 4 → Present p (ptr + 4 * j + i)) :
    Unpaged (loadDataBlocks p fs ptr count) := by
  induction count with
  | zero => exact unpaged_ok _
  | succ n ih =>
    refine unpaged_bind (ih fun j inside => mapped j (Nat.lt_succ_of_lt inside)) fun table _ => ?_
    refine unpaged_bind (unpaged_touch (mapped n (Nat.lt_succ_self n))) fun _ _ => ?_
    split
    · exact unpaged_ok _
    · exact fun _ impossible => (by cases impossible)

theorem loadDataBlocks_touched {ptr count : Nat} {table : DataBlocks}
    (loaded : loadDataBlocks p fs ptr count = .ok table) :
    ∀ j, j < count → ∀ i, i < 4 → Present p (ptr + 4 * j + i) := by
  induction count generalizing table with
  | zero => exact fun j impossible => absurd impossible (Nat.not_lt_zero j)
  | succ n ih =>
    obtain ⟨before,first,last⟩ := bind_eq_ok.mp loaded
    obtain ⟨_,touched,_⟩ := bind_eq_ok.mp last
    intro j inside
    rcases Nat.lt_succ_iff_lt_or_eq.mp inside with earlier | rfl
    · exact ih first j earlier
    · exact touch_ok.mp touched

/-- A block number in the table is that of the inode. -/
theorem loadDataBlocks_numbers {ptr count : Nat} {table : DataBlocks}
    (loaded : Filesystem.loadDataBlocks fs ptr count = .ok table) {j number : Nat} (found : table j = some number) :
    number = word fs.mem (ptr + 4 * j) := by
  induction count generalizing table with
  | zero => cases loaded; cases found
  | succ n ih =>
    obtain ⟨before,first,last⟩ := bind_eq_ok.mp loaded
    split at last
    · cases last
      simp only at found
      split at found
      · rename_i same
        cases found
        rw [same]
      · exact ih first found
    · cases last

theorem dataBlock_number {ptr count b number : Nat} {table : DataBlocks}
    (loaded : Filesystem.loadDataBlocks fs ptr count = .ok table) (read : dataBlock table b = .ok number) :
    number = word fs.mem (ptr + 4 * b) := by
  unfold dataBlock at read
  split at read
  · cases found : table b with
    | some n =>
      rw [found] at read
      cases read
      exact loadDataBlocks_numbers loaded found
    | none =>
      rw [found] at read
      cases read
  · cases read

/-- The loop over the blocks reads mapped memory only. -/
theorem readBlocks_mapped {table : DataBlocks} (numbers : ∀ b number, dataBlock table b = .ok number →
      number = blockNumber fs inode b) {offset length limit : Nat} (mapped : MappedTo p fs inode limit)
    (upTo : offset + length ≤ limit) (within : offset + length ≤ fileLength fs inode) (left block bytesRead : Nat)
    (enough : length ≤ bytesRead + left)
    (aligned : offset + bytesRead = block * blockSize) (before : ∀ c, c < block → ¬ Stray fs inode c)
    (buf : Nat → UInt8) :
    Unpaged (readBlocks p fs table length block (dataBlockPtr fs (blockNumber fs inode block)) bytesRead buf) := by
  induction left generalizing block bytesRead buf with
  | zero =>
    rw [readBlocks,if_neg (by omega)]
    exact unpaged_ok _
  | succ left ih =>
    rw [readBlocks]
    split
    · split
      · exact unpaged_ok _
      · rename_i inside
        have here : ∀ c, c ≤ block → ¬ Stray fs inode c := by
          intro c upTo
          rcases Nat.lt_or_eq_of_le upTo with earlier | rfl
          · exact before c earlier
          · exact inside
        simp only
        split
        · rename_i last
          have touched := fun i (short : i < length - bytesRead) => mapped block (by omega) here i (by omega) (by omega)
          refine unpaged_bind (unpaged_touch touched) fun _ _ => ?_
          exact unpaged_ok _
        · have touched := fun i (short : i < blockSize) => mapped block (by omega) here i short (by omega)
          refine unpaged_bind (unpaged_touch touched) fun _ _ => ?_
          refine unpaged_bind (unpaged_lift _) fun number read => ?_
          rw [numbers _ _ (lift_ok read)]
          refine ih (block + 1) (bytesRead + blockSize) ?_ ?_ (fun c upTo => here c (Nat.lt_succ_iff.mp upTo)) _
          · simp only [blockSize]; omega
          · rw [Nat.succ_mul]; omega
    · exact unpaged_ok _

/-- `read_data` reads mapped memory only, at an offset that no block before it
    has stopped the loader from. -/
theorem readData_mapped {offset length : Nat} (words : inode < fs.metadata.numInodes → InodeMapped p fs inode)
    (mapped : MappedTo p fs inode (offset + length)) (passed : Passed fs inode offset) (buf : Nat → UInt8) :
    Unpaged (readData p fs inode offset buf length) := by
  unfold readData
  split
  · exact unpaged_ok _
  · rename_i present
    have words := words (Nat.lt_of_not_le present)
    refine unpaged_bind (unpaged_touch words.length) fun _ _ => ?_
    have same : word fs.mem (getInodePtr fs inode) = fileLength fs inode := rfl
    simp only [same]
    split
    · exact unpaged_ok _
    · rename_i inside
      have before := passed.resolve_left inside
      obtain ⟨count,bound,within,most⟩ : ∃ count,
          (if length > fileLength fs inode - offset then fileLength fs inode - offset else length) = count ∧
            offset + count ≤ fileLength fs inode ∧ count ≤ length :=
        ⟨_,rfl,by split <;> omega,by split <;> omega⟩
      simp only [bound]
      refine unpaged_bind (loadDataBlocks_mapped words.numbers) fun table loaded => ?_
      have numbers : ∀ b number, dataBlock table b = .ok number → number = blockNumber fs inode b := fun b number =>
        dataBlock_number ((loadDataBlocks_agrees _ _).done table loaded)
      split
      · exact unpaged_ok _
      · refine unpaged_bind (unpaged_lift _) fun number read => ?_
        rw [numbers _ _ (lift_ok read)]
        split
        · exact unpaged_ok _
        · rename_i opens
          have here : ∀ c, c ≤ offset / blockSize → ¬ Stray fs inode c := by
            intro c upTo
            rcases Nat.lt_or_eq_of_le upTo with earlier | rfl
            · exact before c earlier
            · exact opens
          have place := Nat.div_add_mod offset blockSize
          have rest := Nat.mod_lt offset (show blockSize > 0 by decide)
          rw [Nat.mul_comm] at place
          have reads : ∀ n, n ≤ count → n ≤ blockSize - offset % blockSize → ∀ i, i < n → Present p
              (dataBlockPtr fs (blockNumber fs inode (offset / blockSize)) + offset % blockSize + i) := by
            intro n fewer room i short
            rw [Nat.add_assoc]
            exact mapped _ (by omega) here _ (by omega) (by omega)
          split
          · rename_i one
            refine unpaged_bind (unpaged_touch (reads count (Nat.le_refl _) (Nat.le_of_lt one))) fun _ _ => ?_
            exact unpaged_ok _
          · rename_i more
            refine unpaged_bind (unpaged_touch (reads _ (Nat.le_of_not_lt more) (Nat.le_refl _))) fun _ _ => ?_
            refine unpaged_bind (unpaged_lift _) fun next read => ?_
            rw [numbers _ _ (lift_ok read)]
            refine readBlocks_mapped numbers mapped (by omega) within count _ _ (Nat.le_add_left _ _) ?_
              (fun c upTo => here c (Nat.lt_succ_iff.mp upTo)) _
            rw [Nat.succ_mul]
            omega

/-- A program whose header is read has an inode, and that is mapped. -/
theorem header_mapped (header : getElfHeader p fs inode = .ok elfHeader) :
    inode < fs.metadata.numInodes ∧ InodeMapped p fs inode := by
  obtain ⟨⟨copied,elf⟩,read,value⟩ := bind_eq_ok.mp header
  have four : copied = elfHeaderSize := by
    by_contra other
    simp only [ne_eq,Ne.symm other,not_false_eq_true,if_true] at value
    cases value
  unfold readData at read
  split at read
  · cases read; cases four
  · rename_i present
    obtain ⟨_,length,read⟩ := bind_eq_ok.mp read
    simp only at read
    split at read
    · cases read; cases four
    · obtain ⟨table,loaded,_⟩ := bind_eq_ok.mp read
      exact ⟨Nat.lt_of_not_le present,touch_ok.mp length,loadDataBlocks_touched loaded⟩

/-! ### The load -/

theorem loadProgram_agrees (fuel loadAddr bytesRead : Nat) (mem : Nat → UInt8) {page : Nat → UInt8}
    (done : loadProgram p fs inode fuel loadAddr bytesRead mem = .ok (.done page)) :
    Syscalls.loadProgram fs inode fuel loadAddr bytesRead mem = .ok page := by
  induction fuel generalizing loadAddr bytesRead mem with
  | zero => cases done
  | succ fuel ih =>
    rw [loadProgram] at done
    split at done
    · cases done
    · cases done
    · rename_i copied after read
      rw [Syscalls.loadProgram,(readData_agrees _ _ _ _).done _ read,ok_bind]
      simp only at done ⊢
      split at done
      · rename_i ended
        cases done
        rw [if_pos ended]
      · rename_i more
        rw [if_neg more]
        exact ih _ _ _ done

/-- A call of `read_data` that the loader makes takes it past blocks that start
    inside the image, or one byte back. -/
theorem passed_next (present : inode < fs.metadata.numInodes) {offset : Nat} (small : offset < 2 ^ 32)
    (passed : Passed fs inode offset) {buf after : Nat → UInt8} {copied : Int}
    (read : Filesystem.readData fs inode offset buf 1024 = .ok (copied,after)) :
    Passed fs inode ((offset + unsigned copied) % 2 ^ 32) := by
  have length_lt : fileLength fs inode < 2 ^ 32 := littleEndian_lt _
  have count : requested fs inode offset 1024 = readCount fs inode offset 1024 := if_pos present
  have atMost := readCount_le_length fs inode offset 1024
  rw [readData_extent (readData_loads read)] at read
  obtain ⟨rfl,_⟩ := Prod.mk.inj (Except.ok.inj read)
  by_cases past : fileLength fs inode ≤ offset
  · have none : requested fs inode offset 1024 = 0 := count.trans (if_pos past)
    have nothing : fileExtent fs inode offset 1024 = 0 := by rw [fileExtent,none]; rfl
    rw [readValue,none,nothing,if_pos ⟨present,fun inside => absurd past (Nat.not_le_of_lt inside),rfl⟩]
    have same : (offset + unsigned (0 : Nat)) % 2 ^ 32 = offset := Nat.mod_eq_of_lt small
    rw [same]
    exact .inl past
  have before := passed.resolve_left past
  rw [readValue]
  split
  · rename_i whole
    have within := readCount_within fs 1024 (Nat.le_of_lt (Nat.lt_of_not_le past))
    have complete := whole.2.2
    have word : unsigned (fileExtent fs inode offset 1024 : Int) = fileExtent fs inode offset 1024 := by
      unfold unsigned
      omega
    rw [word,Nat.mod_eq_of_lt (by omega)]
    refine .inr fun c upTo => ?_
    by_cases earlier : c < offset / blockSize
    · exact before c earlier
    · -- The block has a byte between the offset and the end of the read.
      have byte : max offset (c * blockSize) - offset < fileExtent fs inode offset 1024 := by
        simp only [blockSize] at *
        omega
      rw [fileExtent,lt_streak] at byte
      have clean := byte.2 _ (Nat.le_refl _)
      have block : (offset + (max offset (c * blockSize) - offset)) / blockSize = c := by
        simp only [blockSize] at *
        omega
      rwa [block] at clean
  · have word : unsigned (-1) = 2 ^ 32 - 1 := by decide
    rw [word]
    by_cases start : offset = 0
    · subst start
      exact .inl (by omega)
    · have back : (offset + (2 ^ 32 - 1)) % 2 ^ 32 = offset - 1 := by omega
      rw [back]
      exact .inr fun c upTo => before c (Nat.lt_of_lt_of_le upTo (Nat.div_le_div_right (Nat.sub_le _ _)))

/-- The loop that loads a program whose blocks are mapped meets no page fault. -/
theorem loadProgram_mapped (present : inode < fs.metadata.numInodes) (words : InodeMapped p fs inode)
    (mapped : BlocksMapped p fs inode) (fuel loadAddr : Nat) {bytesRead : Nat} (small : bytesRead < 2 ^ 32)
    (passed : Passed fs inode bytesRead) (mem : Nat → UInt8) (cr2 : Nat) (page : Nat → UInt8) :
    loadProgram p fs inode fuel loadAddr bytesRead mem ≠ .ok (.faulted cr2 page) := by
  induction fuel generalizing loadAddr bytesRead mem with
  | zero => intro impossible; cases impossible
  | succ fuel ih =>
    intro faulted
    rw [loadProgram] at faulted
    split at faulted
    · cases faulted
    · rename_i address read
      refine readData_mapped (fun _ => words) ?_ passed _ address read
      exact fun b _ here i short within => mapped b (by omega) here i short within
    · rename_i copied after read
      simp only at faulted
      split at faulted
      · cases faulted
      · have next := passed_next present small passed ((readData_agrees _ _ _ _).done _ read)
        exact ih _ (Nat.mod_lt _ (by decide)) next _ faulted

/-- A load ends as on flat memory, or in a page fault. -/
theorem loadProgram_complete (fuel loadAddr bytesRead : Nat) (mem : Nat → UInt8) {page : Nat → UInt8}
    (done : Syscalls.loadProgram fs inode fuel loadAddr bytesRead mem = .ok page) :
    loadProgram p fs inode fuel loadAddr bytesRead mem = .ok (.done page) ∨
      ∃ cr2 page', loadProgram p fs inode fuel loadAddr bytesRead mem = .ok (.faulted cr2 page') := by
  induction fuel generalizing loadAddr bytesRead mem with
  | zero => cases done
  | succ fuel ih =>
    rw [loadProgram]
    obtain ⟨⟨copied,after⟩,read,done⟩ := bind_eq_ok.mp done
    split
    · rename_i fault failed
      have failed' := (readData_agrees _ _ _ _).fails fault failed
      rw [read] at failed'
      cases failed'
    · exact .inr ⟨_,_,rfl⟩
    · rename_i copied' after' read'
      have same := (readData_agrees _ _ _ _).done _ read'
      rw [read] at same
      cases same
      simp only at done ⊢
      split
      · rename_i ended
        rw [if_pos ended] at done
        cases done
        exact .inl rfl
      · rename_i more
        rw [if_neg more] at done
        exact ih _ _ _ done

/-- `read_data` cannot start to read a block whose first byte is not mapped. -/
theorem readData_unmapped (present : inode < fs.metadata.numInodes) (words : InodeMapped p fs inode)
    (few : fileLength fs inode / blockSize < maxDataBlockCount) {b : Nat} (inside : b * blockSize < fileLength fs inode)
    (opens : ¬ Stray fs inode b) (absent : ¬ Present p (dataBlockPtr fs (blockNumber fs inode b)))
    (buf : Nat → UInt8) {length : Nat} (some : 0 < length) (one : length < blockSize) :
    ∃ cr2, readData p fs inode (b * blockSize) buf length = .error (.page cr2) := by
  have same : word fs.mem (getInodePtr fs inode) = fileLength fs inode := rfl
  have touched : ∀ count, 0 < count →
      ∃ cr2, touch p (dataBlockPtr fs (blockNumber fs inode b) + 0) count = .error (.page cr2) := by
    intro count more
    rcases touch_cases p (dataBlockPtr fs (blockNumber fs inode b) + 0) count with all | failed
    · exact absurd (touch_ok.mp all 0 more) absent
    · exact failed
  obtain ⟨table,loaded,entries⟩ := loadDataBlocks_ok fs (getInodePtr fs inode + 4) (Nat.succ_le_of_lt few)
  have loads := agrees_complete (loadDataBlocks_agrees (p := p) (getInodePtr fs inode + 4)
    (fileLength fs inode / blockSize + 1)) (loadDataBlocks_mapped words.numbers) loaded
  have upTo : b ≤ fileLength fs inode / blockSize := by
    simp only [blockSize] at *
    omega
  have number : dataBlock table b = .ok (blockNumber fs inode b) :=
    dataBlock_ok (Nat.lt_of_le_of_lt upTo few) (entries b (Nat.lt_succ_of_le upTo))
  unfold readData
  rw [if_neg (Nat.not_le_of_lt present),touch_ok.mpr words.length,ok_bind]
  simp only [same,if_neg (Nat.not_le_of_lt inside)]
  rw [loads,ok_bind]
  have block : b * blockSize / blockSize = b := Nat.mul_div_cancel b (by decide)
  have start : b * blockSize % blockSize = 0 := Nat.mul_mod_left b blockSize
  have opens' : ¬ dataBlockPtr fs (blockNumber fs inode b) > fs.fsEndAddr := opens
  simp only [block,start,if_neg (Nat.not_lt_of_le upTo),number,lift,ok_bind,if_neg opens',Nat.sub_zero]
  obtain ⟨count,bound,short,more⟩ : ∃ count,
      (if length > fileLength fs inode - b * blockSize then fileLength fs inode - b * blockSize else length) = count ∧
        count < blockSize ∧ 0 < count := ⟨_,rfl,by split <;> omega,by split <;> omega⟩
  rw [bound,if_pos short]
  obtain ⟨cr2,failed⟩ := touched count more
  rw [failed]
  exact ⟨cr2,rfl⟩

/-- The load of a program stops with a page fault at the first block whose first
    byte is not mapped. -/
theorem loadProgram_unmapped (present : inode < fs.metadata.numInodes) (words : InodeMapped p fs inode)
    (few : fileLength fs inode / blockSize < maxDataBlockCount) {b : Nat} (inside : b * blockSize < fileLength fs inode)
    (opens : ∀ c, c ≤ b → ¬ Stray fs inode c) (mapped : MappedTo p fs inode (b * blockSize))
    (absent : ¬ Present p (dataBlockPtr fs (blockNumber fs inode b))) (passes j fuel : Nat) (left : j + passes = 4 * b)
    (loadAddr : Nat) (mem : Nat → UInt8) :
    ∃ cr2 page, loadProgram p fs inode (fuel + passes + 1) loadAddr (1024 * j) mem = .ok (.faulted cr2 page) := by
  induction passes generalizing j loadAddr mem with
  | zero =>
    have offset : 1024 * j = b * blockSize := by simp only [blockSize]; omega
    rw [loadProgram,offset]
    obtain ⟨cr2,failed⟩ := readData_unmapped present words few inside (opens b (Nat.le_refl b)) absent
      (fun i => mem ((loadAddr + i) % 2 ^ 32)) (show 0 < 1024 by decide) (by decide)
    rw [failed]
    exact ⟨cr2,mem,rfl⟩
  | succ passes ih =>
    have below : 1024 * j + 1024 ≤ b * blockSize := by simp only [blockSize]; omega
    have reads := readData_extent (show Loads fs inode (1024 * j) from fun _ _ => few)
      (fun i => mem ((loadAddr + i) % 2 ^ 32)) 1024
    have value : readValue fs inode (1024 * j) 1024 = 1024 := by
      refine (ProgramLoad.readValue_full (by decide)).mpr ⟨present,by omega,fun i short => opens _ ?_⟩
      simp only [blockSize] at below ⊢
      omega
    rw [value] at reads
    have read := agrees_complete (readData_agrees (p := p) _ _ _ _) (readData_mapped (fun _ => words)
      (fun c upTo => mapped c (Nat.lt_of_lt_of_le upTo below)) (.inr fun c upTo => opens c ?_) _) reads
    · have next : (1024 * j + unsigned 1024) % 2 ^ 32 = 1024 * (j + 1) := by
        have length_lt : fileLength fs inode < 2 ^ 32 := littleEndian_lt _
        have word : unsigned 1024 = 1024 := by decide
        rw [word]
        omega
      rw [show fuel + (passes + 1) + 1 = fuel + passes + 1 + 1 by omega,loadProgram,read]
      simp only [if_neg (show ¬ unsigned 1024 = 0 by decide),next]
      exact ih (j + 1) (by omega) _ _
    · simp only [blockSize] at *
      omega

end

end MazeOS.PageFaults
