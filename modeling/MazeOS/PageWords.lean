import MazeOS.UserMemory
import MazeOS.Words

/-!
The page tables as the processor finds them: four arrays of words in memory, with
the bit-fields of `paging.h`. The functions of `paging.c` store words and flush the
translations that the processor keeps; between them the processor fetches and
drops translations and marks entries as accessed or dirty, and other code writes
elsewhere. Each of these keeps the arrays standing for the page tables of the
model (`simulates_step`), so the processor reaches at every address what
`translate` and `userTranslate` say (`hardware_follows`). The kernel writes the
tables through these functions only (`step_wrote`), and what user code may reach
is so bounded on the processor too (`hardware_confined`).

Words are stored at the physical addresses of the arrays. With paging on, the code
of `paging.c` stores them at virtual ones: the arrays are in the page of the kernel,
which the processor maps to itself as long as no call maps another page there
(`kernel_page_reached`).
-/
namespace MazeOS.PageWords
open MazeOS.Runs MazeOS.Faults MazeOS.Filesystem MazeOS.Paging MazeOS.State MazeOS.Display MazeOS.Process
  MazeOS.Syscalls MazeOS.Terminal MazeOS.Steps MazeOS.Tables MazeOS.Stacks MazeOS.ProcessTable MazeOS.VidmapPage
  MazeOS.UserMemory MazeOS.Words
open MazeOS.ReadData (shellFs)
open MazeOS.Boot (shellKernel shellKernel_started shellImage_valid shellFs_image)
open MazeOS.Assembly (Memory)

/-! ### Words -/

def pageCount : Nat := 1024

/-- The bits of a `pde_4M_t`, of which the functions set four and the address. -/
def pde4MWord (pde : Pde4M) : Nat := pack
  [⟨1,pde.present.toNat⟩,⟨1,pde.readWrite.toNat⟩,⟨1,pde.userSupervisor.toNat⟩,
    -- writethrough, cache_disabled, accessed, dirty
    ⟨1,0⟩,⟨1,0⟩,⟨1,0⟩,⟨1,0⟩,
    ⟨1,pde.pageSize.toNat⟩,
    -- global, available, attr_index, reserved
    ⟨1,0⟩,⟨3,0⟩,⟨1,0⟩,⟨9,0⟩,
    ⟨10,pde.baseAddr⟩]

/-- The bits of a `pde_4K_t`; `base` is the address of the page table. -/
def pde4KWord (base : Nat) (pde : Pde4K) : Nat := pack
  [⟨1,pde.present.toNat⟩,⟨1,pde.readWrite.toNat⟩,⟨1,pde.userSupervisor.toNat⟩,
    -- writethrough, cache_disabled, accessed, reserved, page_size, global, available
    ⟨1,0⟩,⟨1,0⟩,⟨1,0⟩,⟨1,0⟩,⟨1,0⟩,⟨1,0⟩,⟨3,0⟩,
    ⟨20,base / 2 ^ 12⟩]

/-- The bits of a `pte_t`. -/
def pteWord (pte : Pte) : Nat := pack
  [⟨1,pte.present.toNat⟩,⟨1,pte.readWrite.toNat⟩,⟨1,pte.userSupervisor.toNat⟩,
    -- writethrough, cache_disabled, accessed, dirty, attr_index, global, available
    ⟨1,0⟩,⟨1,0⟩,⟨1,0⟩,⟨1,0⟩,⟨1,0⟩,⟨1,0⟩,⟨3,0⟩,
    ⟨20,pte.baseAddr⟩]

/-! ### The arrays and the processor -/

inductive ArrayName where
  | directory
  | table (name : TableName)
  deriving DecidableEq

/-- Where the arrays are. They are aligned to pages, and no two are the same. -/
structure Arrays where
  start : ArrayName → Nat
  aligned : ∀ a, start a % 2 ^ 12 = 0
  inside : ∀ a, start a + 2 ^ 12 ≤ 2 ^ 32
  apart : ∀ a b, start a = start b → a = b

/-- A translation of a page of 4KB that the processor keeps. -/
structure Cached where
  frame : Nat
  user : Bool
  global : Bool

/-- Memory, and what the processor knows of the page tables. -/
structure Mmu where
  mem : Memory
  cr3 : Nat
  /-- Bit 31 of CR0. -/
  paging : Bool
  /-- Bit 4 of CR4. -/
  largePages : Bool
  tlb : Nat → Option Cached

/-- The walk of the processor for a page: the directory, and for an entry without
    the size bit a table. -/
def walk (m : Mmu) (page : Nat) : Option Cached :=
  let pde := word m.mem (m.cr3 / 2 ^ 12 * 2 ^ 12 + 4 * (page / 1024))
  if bits pde 0 1 = 0 then none
  else if m.largePages ∧ bits pde 7 1 = 1 then
    if bits pde 13 9 ≠ 0 then none
    else some ⟨bits pde 22 10 * 1024 + page % 1024,bits pde 2 1 = 1,bits pde 8 1 = 1⟩
  else
    let pte := word m.mem (bits pde 12 20 * 2 ^ 12 + 4 * (page % 1024))
    if bits pte 0 1 = 0 then none
    else some ⟨bits pte 12 20,bits pde 2 1 = 1 ∧ bits pte 2 1 = 1,bits pte 8 1 = 1⟩

/-- The physical address that the processor comes to, in user mode or not. -/
def reach (m : Mmu) (user : Bool) (virAddr : Nat) : Option Nat :=
  if m.paging then
    match (m.tlb (virAddr / 2 ^ 12)).or (walk m (virAddr / 2 ^ 12)) with
    | some cached => if user ∧ ¬ cached.user then none else some (cached.frame * 2 ^ 12 + virAddr % 2 ^ 12)
    | none => none
  else some virAddr

/-- Loading CR3 drops all translations but those of global pages. -/
def dropped (tlb : Nat → Option Cached) : Nat → Option Cached := fun page => (tlb page).filter Cached.global

/-! ### `paging.c` -/

section
variable (arrays : Arrays)

def entryAddress (a : ArrayName) (i : Nat) : Nat := arrays.start a + 4 * i

/-- A word is stored at an index of an array, in physical memory. -/
def store (a : ArrayName) (m : Mmu) (i value : Nat) : Mmu :=
  { m with mem := setWord m.mem (entryAddress arrays a i) value }

/-- A loop that stores a word at one index after another. -/
def storeAll (a : ArrayName) (indices : List Nat) (entry : Nat → Nat) (m : Mmu) : Mmu :=
  indices.foldl (fun m i => store arrays a m i (entry i)) m

/-- `flush_tlb`. -/
def flushTlb (m : Mmu) : Mmu := { m with tlb := dropped m.tlb }

/-- `load_page_directory`. -/
def loadPageDirectory (pagedirAddr : Nat) (m : Mmu) : Mmu := { m with cr3 := pagedirAddr, tlb := dropped m.tlb }

/-- `enable_paging`. The processor drops all translations when paging is enabled. -/
def enablePaging (m : Mmu) : Mmu := { m with largePages := true, paging := true, tlb := fun _ => none }

/-- The loops of `init_paging` over the four arrays. -/
def storeBlank (m : Mmu) : Mmu :=
  let m := storeAll arrays .directory (List.range pageCount) (fun _ => pde4MWord ⟨false,true,false,false,0⟩) m
  let m := storeAll arrays (.table .first4MB) (List.range pageCount) (fun i => pteWord ⟨false,true,false,i⟩) m
  let m := storeAll arrays (.table .user4MB) (List.range pageCount) (fun _ => pteWord ⟨false,true,true,0⟩) m
  storeAll arrays (.table .backupVidmem) (List.range pageCount) (fun _ => pteWord ⟨false,true,false,0⟩) m

/-- `init_paging`. The loop over the pages of video memory, of which there is one,
    is one store. -/
def rawInitPaging (m : Mmu) : Mmu :=
  let m := storeBlank arrays m
  let m := store arrays (.table .first4MB) m videoMemIndex (pteWord ⟨true,true,false,videoMemIndex⟩)
  let m := store arrays .directory m 0 (pde4KWord (arrays.start (.table .first4MB)) ⟨true,true,true,.first4MB⟩)
  let m := store arrays .directory m 1 (pde4MWord ⟨true,true,false,true,kernelMemStart / 2 ^ 22⟩)
  enablePaging (loadPageDirectory (arrays.start .directory) m)

/-- The functions that write the tables later on. -/
inductive Call where
  | mapPage4MB (virAddr : Nat) (pde : Pde4M)
  | mapActualVidmem (physAddr : Nat)
  | mapUserVideoMem (virAddr : Nat) (pte : Pte)
  | freeUserVideoMem (virAddr : Nat)
  | mapBackupVidmem (virAddr physAddr : Nat)

def rawCall (m : Mmu) : Call → Mmu
  | .mapPage4MB virAddr pde => flushTlb (store arrays .directory m (virAddr / 2 ^ 22) (pde4MWord pde))
  | .mapActualVidmem physAddr =>
    flushTlb (store arrays (.table .first4MB) m videoMemIndex (pteWord ⟨true,true,false,physAddr / 2 ^ 12⟩))
  | .mapUserVideoMem virAddr pte =>
    let m := store arrays (.table .user4MB) m (virAddr / 2 ^ 12 % 1024) (pteWord pte)
    flushTlb (store arrays .directory m (virAddr / 2 ^ 22)
      (pde4KWord (arrays.start (.table .user4MB)) ⟨true,true,true,.user4MB⟩))
  | .freeUserVideoMem virAddr =>
    flushTlb (store arrays (.table .user4MB) m (virAddr / 2 ^ 12 % 1024) (pteWord ⟨false,true,false,0⟩))
  | .mapBackupVidmem virAddr physAddr =>
    let m := store arrays (.table .backupVidmem) m (virAddr / 2 ^ 12 % 1024)
      (pteWord ⟨true,true,false,physAddr / 2 ^ 12⟩)
    flushTlb (store arrays .directory m (virAddr / 2 ^ 22)
      (pde4KWord (arrays.start (.table .backupVidmem)) ⟨true,true,false,.backupVidmem⟩))

/-! ### Events -/

inductive Event where
  | call (call : Call)
  /-- The processor keeps the translation of a page, or drops it. -/
  | fetch (page : Nat)
  | evict (page : Nat)
  /-- The processor marks an entry as accessed (bit 5) or dirty (bit 6). -/
  | mark (a : ArrayName) (i : Nat) (dirty : Bool)
  /-- Other code writes a byte. -/
  | write (address : Nat) (byte : UInt8)

def rawStep (m : Mmu) : Event → Mmu
  | .call call => rawCall arrays m call
  | .fetch page => { m with tlb := Function.update m.tlb page (walk m page) }
  | .evict page => { m with tlb := Function.update m.tlb page none }
  | .mark a i dirty =>
    store arrays a m i (word m.mem (entryAddress arrays a i) ||| 2 ^ (if dirty then 6 else 5))
  | .write address byte => { m with mem := Function.update m.mem (BitVec.ofNat 32 address) byte }

end

/-- What the same functions do to the page tables of the model. -/
def apply (p : PageTables) : Call → PageTables
  | .mapPage4MB virAddr pde => mapPage4MB p virAddr pde
  | .mapActualVidmem physAddr =>
    { p with first4MBTable := Function.update p.first4MBTable videoMemIndex ⟨true,true,false,physAddr / 2 ^ 12⟩ }
  | .mapUserVideoMem virAddr pte => mapUserVideoMem p virAddr pte
  | .freeUserVideoMem virAddr => freeUserVideoMem p virAddr
  | .mapBackupVidmem virAddr physAddr => mapBackupVidmem p virAddr physAddr

def applyEvent (p : PageTables) : Event → PageTables
  | .call call => apply p call
  | _ => p

/-- Arguments of their types; the entry that `map_page_4MB` is given is that of a
    page of 4MB. -/
def Fits : Call → Prop
  | .mapPage4MB virAddr pde => virAddr < 2 ^ 32 ∧ pde.baseAddr < 2 ^ 10 ∧ pde.pageSize
  | .mapActualVidmem physAddr => physAddr < 2 ^ 32
  | .mapUserVideoMem virAddr pte => virAddr < 2 ^ 32 ∧ pte.baseAddr < 2 ^ 20
  | .freeUserVideoMem virAddr => virAddr < 2 ^ 32
  | .mapBackupVidmem virAddr physAddr => virAddr < 2 ^ 32 ∧ physAddr < 2 ^ 32

/-- Events that may occur: indices are inside the arrays, and other code writes
    outside them. -/
def Occurs (arrays : Arrays) : Event → Prop
  | .call call => Fits call
  | .fetch page => page < 2 ^ 20
  | .evict _ => True
  | .mark _ i _ => i < pageCount
  | .write address _ => address < 2 ^ 32 ∧ ∀ a, address < arrays.start a ∨ arrays.start a + 2 ^ 12 ≤ address

/-! ### What the words stand for -/

/-- A word of the directory has the bits of an entry, whatever its marks. -/
def StandsPde (arrays : Arrays) (w : Nat) : Pde → Prop
  | .page entry => bits w 0 1 = entry.present.toNat ∧ bits w 2 1 = entry.userSupervisor.toNat ∧
      bits w 7 1 = entry.pageSize.toNat ∧ bits w 8 1 = 0 ∧ bits w 13 9 = 0 ∧ bits w 22 10 = entry.baseAddr ∧
      (entry.present → entry.pageSize)
  | .table entry => bits w 0 1 = entry.present.toNat ∧ bits w 2 1 = entry.userSupervisor.toNat ∧
      bits w 7 1 = 0 ∧ bits w 12 20 = arrays.start (.table entry.baseAddr) / 2 ^ 12

structure StandsPte (w : Nat) (pte : Pte) : Prop where
  present : bits w 0 1 = pte.present.toNat
  user : bits w 2 1 = pte.userSupervisor.toNat
  notGlobal : bits w 8 1 = 0
  frame : bits w 12 20 = pte.baseAddr

theorem stands_page (arrays : Arrays) {pde : Pde4M} (small : pde.baseAddr < 2 ^ 10) (large : pde.present → pde.pageSize) :
    StandsPde arrays (pde4MWord pde) (.page pde) := by
  have present : bits (pde4MWord pde) 0 1 = pde.present.toNat % 2 ^ 1 := bits_pack 0 rfl rfl
  have user : bits (pde4MWord pde) 2 1 = pde.userSupervisor.toNat % 2 ^ 1 := bits_pack 2 rfl rfl
  have size : bits (pde4MWord pde) 7 1 = pde.pageSize.toNat % 2 ^ 1 := bits_pack 7 rfl rfl
  have global : bits (pde4MWord pde) 8 1 = 0 % 2 ^ 1 := bits_pack 8 rfl rfl
  have reserved : bits (pde4MWord pde) 13 9 = 0 % 2 ^ 9 := bits_pack 11 rfl rfl
  have frame : bits (pde4MWord pde) 22 10 = pde.baseAddr % 2 ^ 10 := bits_pack 12 rfl rfl
  rw [flag_mod] at present user size
  rw [Nat.mod_eq_of_lt small] at frame
  exact ⟨present,user,size,global,reserved,frame,large⟩

theorem stands_table (arrays : Arrays) (pde : Pde4K) :
    StandsPde arrays (pde4KWord (arrays.start (.table pde.baseAddr)) pde) (.table pde) := by
  generalize base : arrays.start (.table pde.baseAddr) = start
  have below : start + 2 ^ 12 ≤ 2 ^ 32 := base ▸ arrays.inside _
  have present : bits (pde4KWord start pde) 0 1 = pde.present.toNat % 2 ^ 1 := bits_pack 0 rfl rfl
  have user : bits (pde4KWord start pde) 2 1 = pde.userSupervisor.toNat % 2 ^ 1 := bits_pack 2 rfl rfl
  have size : bits (pde4KWord start pde) 7 1 = 0 % 2 ^ 1 := bits_pack 7 rfl rfl
  have frame : bits (pde4KWord start pde) 12 20 = start / 2 ^ 12 % 2 ^ 20 := bits_pack 10 rfl rfl
  rw [flag_mod] at present user
  rw [Nat.mod_eq_of_lt (by omega)] at frame
  exact ⟨present,user,size,by rw [frame,base]⟩

theorem stands_pte {pte : Pte} (small : pte.baseAddr < 2 ^ 20) : StandsPte (pteWord pte) pte := by
  have present : bits (pteWord pte) 0 1 = pte.present.toNat % 2 ^ 1 := bits_pack 0 rfl rfl
  have user : bits (pteWord pte) 2 1 = pte.userSupervisor.toNat % 2 ^ 1 := bits_pack 2 rfl rfl
  have global : bits (pteWord pte) 8 1 = 0 % 2 ^ 1 := bits_pack 8 rfl rfl
  have frame : bits (pteWord pte) 12 20 = pte.baseAddr % 2 ^ 20 := bits_pack 10 rfl rfl
  rw [flag_mod] at present user
  rw [Nat.mod_eq_of_lt small] at frame
  exact ⟨present,user,global,frame⟩

theorem pde4MWord_lt (pde : Pde4M) : pde4MWord pde < 2 ^ 32 := pack_lt _
theorem pde4KWord_lt (base : Nat) (pde : Pde4K) : pde4KWord base pde < 2 ^ 32 := pack_lt _
theorem pteWord_lt (pte : Pte) : pteWord pte < 2 ^ 32 := pack_lt _

/-- Marks change nothing that an entry stands for. -/
theorem stands_marked {arrays : Arrays} {w : Nat} (dirty : Bool) :
    (∀ pde, StandsPde arrays w pde → StandsPde arrays (w ||| 2 ^ (if dirty then 6 else 5)) pde) ∧
      ∀ pte, StandsPte w pte → StandsPte (w ||| 2 ^ (if dirty then 6 else 5)) pte := by
  have same (start count : Nat) (beside : start + count ≤ 5 ∨ 7 ≤ start) :
      bits (w ||| 2 ^ (if dirty then 6 else 5)) start count = bits w start count := by
    apply bits_or
    split <;> omega
  constructor
  · rintro (entry | entry) stands
    · simp only [StandsPde] at stands ⊢
      rw [same 0 1 (by decide),same 2 1 (by decide),same 7 1 (by decide),same 8 1 (by decide),same 13 9 (by decide),
        same 22 10 (by decide)]
      exact stands
    · simp only [StandsPde] at stands ⊢
      rw [same 0 1 (by decide),same 2 1 (by decide),same 7 1 (by decide),same 12 20 (by decide)]
      exact stands
  · rintro pte ⟨present,user,global,frame⟩
    exact ⟨(same 0 1 (by decide)).trans present,(same 2 1 (by decide)).trans user,(same 8 1 (by decide)).trans global,
      (same 12 20 (by decide)).trans frame⟩

/-! ### Arrays in memory -/

section
variable {arrays : Arrays} {p : PageTables} {m : Mmu}

/-- The word at an index of an array. -/
def entry (arrays : Arrays) (m : Mmu) (a : ArrayName) (i : Nat) : Nat := word m.mem (entryAddress arrays a i)

theorem entryAddress_inside (arrays : Arrays) (a : ArrayName) {i : Nat} (inside : i < pageCount) :
    entryAddress arrays a i + 4 ≤ 2 ^ 32 := by
  have below := arrays.inside a
  simp only [pageCount] at inside
  simp only [entryAddress]
  omega

/-- Different entries do not overlap. -/
theorem entryAddress_apart (arrays : Arrays) {a b : ArrayName} {i j : Nat} (first : i < pageCount) (second : j < pageCount)
    (apart : b = a → j ≠ i) :
    entryAddress arrays b j + 4 ≤ entryAddress arrays a i ∨ entryAddress arrays a i + 4 ≤ entryAddress arrays b j := by
  have aligned := arrays.aligned a
  have aligned' := arrays.aligned b
  simp only [pageCount] at first second
  simp only [entryAddress]
  by_cases same : b = a
  · subst same
    have := apart rfl
    omega
  · have different : arrays.start b ≠ arrays.start a := fun equal => same (arrays.apart b a equal)
    omega

theorem entry_store {a b : ArrayName} {i j value : Nat} (first : i < pageCount) (second : j < pageCount)
    (small : value < 2 ^ 32) :
    entry arrays (store arrays a m i value) b j = if b = a ∧ j = i then value else entry arrays m b j := by
  simp only [entry,store]
  split
  · rename_i same
    obtain ⟨rfl,rfl⟩ := same
    exact word_setWord _ _ small
  · rename_i other
    exact word_setWord_other _ _ (entryAddress_inside arrays a first) (entryAddress_inside arrays b second)
      (entryAddress_apart arrays first second fun here same => other ⟨here,same⟩)

theorem entry_storeAll {a b : ArrayName} {indices : List Nat} {f : Nat → Nat} {j : Nat}
    (below : ∀ i, i ∈ indices → i < pageCount) (second : j < pageCount) (small : ∀ i, f i < 2 ^ 32) :
    entry arrays (storeAll arrays a indices f m) b j = if b = a ∧ j ∈ indices then f j else entry arrays m b j := by
  induction indices generalizing m with
  | nil => simp [storeAll]
  | cons i rest ih =>
    have first := below i List.mem_cons_self
    have stored := ih (m := store arrays a m i (f i)) fun i' later => below i' (List.mem_cons_of_mem i later)
    rw [storeAll,List.foldl_cons,← storeAll,stored,entry_store first second (small i)]
    by_cases here : b = a
    · by_cases same : j = i
      · subst same
        simp [here]
      · simp [here,same]
    · simp [here]

/-! ### The simulation -/

/-- The arrays stand for page tables. -/
structure Holds (arrays : Arrays) (p : PageTables) (m : Mmu) : Prop where
  directory : ∀ i, i < pageCount → StandsPde arrays (entry arrays m .directory i) (p.pageDirectory i)
  tables : ∀ t i, i < pageCount → StandsPte (entry arrays m (.table t) i) (p.table t i)

/-- The translation of a page by the page tables of the model. -/
def cachedOf (p : PageTables) (page : Nat) : Option Cached :=
  match p.pageDirectory (page / 1024) with
  | .page entry =>
    if entry.present then some ⟨entry.baseAddr * 1024 + page % 1024,entry.userSupervisor,false⟩ else none
  | .table entry =>
    if entry.present then
      let pte := p.table entry.baseAddr (page % 1024)
      if pte.present then some ⟨pte.baseAddr,entry.userSupervisor && pte.userSupervisor,false⟩ else none
    else none

/-- The processor works on arrays that stand for page tables, and every
    translation that it keeps is one by them. -/
structure Simulates (arrays : Arrays) (p : PageTables) (m : Mmu) : Prop where
  paging : m.paging
  largePages : m.largePages
  cr3 : m.cr3 = arrays.start .directory
  holds : Holds arrays p m
  tlb : ∀ page cached, m.tlb page = some cached → cachedOf p page = some cached

theorem toNat_eq_zero (b : Bool) : b.toNat = 0 ↔ b = false := by cases b <;> simp

theorem walk_eq (simulates : Simulates arrays p m) {page : Nat} (inside : page < 2 ^ 20) :
    walk m page = cachedOf p page := by
  have upper : page / 1024 < pageCount := by simp only [pageCount]; omega
  have lower : page % 1024 < pageCount := Nat.mod_lt _ (by decide)
  have aligned := arrays.aligned .directory
  have place : m.cr3 / 2 ^ 12 * 2 ^ 12 + 4 * (page / 1024) = entryAddress arrays .directory (page / 1024) := by
    rw [simulates.cr3,entryAddress,Nat.div_mul_cancel (Nat.dvd_of_mod_eq_zero aligned)]
  have stands := simulates.holds.directory _ upper
  have large := simulates.largePages
  simp only [walk,place,large,true_and]
  rw [show word m.mem (entryAddress arrays .directory (page / 1024)) = entry arrays m .directory (page / 1024) from rfl]
  generalize entry arrays m .directory (page / 1024) = w at stands
  rw [cachedOf]
  cases found : p.pageDirectory (page / 1024) with
  | page entry =>
    rw [found] at stands
    obtain ⟨present,user,size,global,reserved,frame,sized⟩ := stands
    simp only [present,toNat_eq_zero,user,global,frame,reserved]
    cases there : entry.present with
    | false => simp
    | true =>
      rw [sized there] at size
      simp only [size]
      simp
  | table entry' =>
    rw [found] at stands
    obtain ⟨present,user,size,frame⟩ := stands
    have aligned' := arrays.aligned (.table entry'.baseAddr)
    have place' : bits w 12 20 * 2 ^ 12 + 4 * (page % 1024) = entryAddress arrays (.table entry'.baseAddr) (page % 1024) := by
      rw [frame,entryAddress,Nat.div_mul_cancel (Nat.dvd_of_mod_eq_zero aligned')]
    have stands' := simulates.holds.tables entry'.baseAddr _ lower
    rw [place',show word m.mem (entryAddress arrays (.table entry'.baseAddr) (page % 1024)) =
      entry arrays m (.table entry'.baseAddr) (page % 1024) from rfl]
    generalize entry arrays m (.table entry'.baseAddr) (page % 1024) = w' at stands'
    simp only [present,toNat_eq_zero,user,size,stands'.present,stands'.user,stands'.notGlobal,stands'.frame]
    generalize p.table entry'.baseAddr (page % 1024) = pte
    obtain ⟨present',readWrite',user',frame'⟩ := pte
    cases entry'.present <;> cases present' <;> simp [Bool.decide_and]

/-- The translations of the model are those of its pages. -/
theorem translate_eq (p : PageTables) (virAddr : Nat)
    (large : ∀ entry, p.pageDirectory (directoryIndex virAddr) = .page entry → entry.present → entry.pageSize) :
    translate p virAddr = (cachedOf p (virAddr / 2 ^ 12)).map (fun c => c.frame * 2 ^ 12 + virAddr % 2 ^ 12) ∧
    userTranslate p virAddr =
      ((cachedOf p (virAddr / 2 ^ 12)).filter Cached.user).map (fun c => c.frame * 2 ^ 12 + virAddr % 2 ^ 12) := by
  have index : virAddr / 2 ^ 12 / 1024 = directoryIndex virAddr := Nat.div_div_eq_div_mul _ _ _
  have split (base : Nat) : base * 2 ^ 22 + virAddr % 2 ^ 22 =
      (base * 1024 + virAddr / 2 ^ 12 % 1024) * 2 ^ 12 + virAddr % 2 ^ 12 := by omega
  rw [Paging.translate,userTranslate,cachedOf,index,tableIndex]
  cases found : p.pageDirectory (directoryIndex virAddr) with
  | page entry =>
    have sized := large _ found
    obtain ⟨present,readWrite,user,size,base⟩ := entry
    cases present with
    | false => exact ⟨rfl,rfl⟩
    | true =>
      have isLarge : size = true := sized rfl
      subst isLarge
      simp only [split]
      cases user <;> exact ⟨rfl,rfl⟩
  | table entry =>
    obtain ⟨present,readWrite,user,name⟩ := entry
    simp only
    generalize p.table name (virAddr / 2 ^ 12 % 1024) = pte
    obtain ⟨present',readWrite',user',frame⟩ := pte
    cases present <;> cases present' <;> cases user <;> cases user' <;> exact ⟨rfl,rfl⟩

theorem holds_large (holds : Holds arrays p m) {i : Nat} (inside : i < pageCount) {entry : Pde4M}
    (found : p.pageDirectory i = .page entry) : entry.present → entry.pageSize := by
  have stands := holds.directory i inside
  rw [found] at stands
  exact stands.2.2.2.2.2.2

/-- What the processor comes to. -/
theorem reach_eq (simulates : Simulates arrays p m) {virAddr : Nat} (inside : virAddr < 2 ^ 32) :
    reach m false virAddr = translate p virAddr ∧ reach m true virAddr = userTranslate p virAddr := by
  have page : virAddr / 2 ^ 12 < 2 ^ 20 := by omega
  have found : (m.tlb (virAddr / 2 ^ 12)).or (walk m (virAddr / 2 ^ 12)) = cachedOf p (virAddr / 2 ^ 12) := by
    cases kept : m.tlb (virAddr / 2 ^ 12) with
    | some cached => exact (simulates.tlb _ _ kept).symm
    | none => exact walk_eq simulates page
  have upper : directoryIndex virAddr < pageCount := by simp only [directoryIndex,pageCount]; omega
  obtain ⟨kernel,user⟩ := translate_eq p virAddr fun entry => holds_large simulates.holds upper
  have on := simulates.paging
  rw [kernel,user,reach,reach,if_pos on,if_pos on,found]
  cases cachedOf p (virAddr / 2 ^ 12) with
  | none => exact ⟨rfl,rfl⟩
  | some cached =>
    obtain ⟨frame,user,global⟩ := cached
    cases user <;> exact ⟨rfl,rfl⟩

/-! ### Steps -/

theorem holds_pde (holds : Holds arrays p m) {i w : Nat} (inside : i < pageCount) (small : w < 2 ^ 32) {pde : Pde}
    (stands : StandsPde arrays w pde) :
    Holds arrays { p with pageDirectory := Function.update p.pageDirectory i pde } (store arrays .directory m i w) := by
  constructor
  · intro j inside'
    rw [entry_store inside inside' small]
    by_cases here : j = i
    · subst here
      simpa using stands
    · simp only [here,and_false,if_false,Function.update_of_ne here]
      exact holds.directory j inside'
  · intro t j inside'
    rw [entry_store inside inside' small,if_neg (by simp)]
    exact holds.tables t j inside'

theorem holds_pte (holds : Holds arrays p m) {t : TableName} {i w : Nat} (inside : i < pageCount) (small : w < 2 ^ 32)
    {pte : Pte} (stands : StandsPte w pte) {q : PageTables} (directory : q.pageDirectory = p.pageDirectory)
    (tables : ∀ u j, q.table u j = if u = t ∧ j = i then pte else p.table u j) :
    Holds arrays q (store arrays (.table t) m i w) := by
  constructor
  · intro j inside'
    rw [entry_store inside inside' small,if_neg (by simp),directory]
    exact holds.directory j inside'
  · intro u j inside'
    rw [entry_store inside inside' small,tables]
    by_cases here : u = t ∧ j = i
    · rw [if_pos here,if_pos (by simpa using here)]
      exact stands
    · rw [if_neg here,if_neg (by simpa using here)]
      exact holds.tables u j inside'

/-- No translation of a global page is kept, so loading CR3 drops all. -/
theorem tlb_dropped (simulates : Simulates arrays p m) : dropped m.tlb = fun _ => none := by
  funext page
  rw [dropped]
  cases kept : m.tlb page with
  | none => rfl
  | some cached =>
    have same := simulates.tlb page cached kept
    have notGlobal : cached.global = false := by
      rw [cachedOf] at same
      split at same
      · split at same <;> cases same
        rfl
      · split at same
        · simp only at same
          split at same <;> cases same
          rfl
        · cases same
    simp [Option.filter,notGlobal]

/-- A function that leaves the arrays standing for other tables, and flushes. -/
theorem simulates_flushed (simulates : Simulates arrays p m) {q : PageTables} {mem : Memory}
    (holds : Holds arrays q { m with mem := mem }) : Simulates arrays q (flushTlb { m with mem := mem }) := by
  refine ⟨simulates.paging,simulates.largePages,simulates.cr3,⟨holds.directory,holds.tables⟩,?_⟩
  intro page cached kept
  have none : dropped m.tlb page = some cached := kept
  rw [tlb_dropped simulates] at none
  cases none

theorem simulates_call (simulates : Simulates arrays p m) {call : Call} (fits : Fits call) :
    Simulates arrays (apply p call) (rawCall arrays m call) := by
  have holds := simulates.holds
  have upper (virAddr : Nat) (inside : virAddr < 2 ^ 32) : virAddr / 2 ^ 22 < pageCount := by
    simp only [pageCount]
    omega
  have lower (virAddr : Nat) : virAddr / 2 ^ 12 % 1024 < pageCount := Nat.mod_lt _ (by decide)
  cases call with
  | mapPage4MB virAddr pde =>
    obtain ⟨inside,small,large⟩ := fits
    exact simulates_flushed simulates
      (holds_pde holds (upper virAddr inside) (pde4MWord_lt pde) (stands_page arrays small fun _ => large))
  | mapActualVidmem physAddr =>
    have inside : physAddr < 2 ^ 32 := fits
    have small : physAddr / 2 ^ 12 < 2 ^ 20 := by omega
    refine simulates_flushed simulates (holds_pte holds (by decide) (pteWord_lt _) (stands_pte small) rfl ?_)
    intro u j
    cases u <;> simp [apply,PageTables.table,Function.update_apply]
  | mapUserVideoMem virAddr pte =>
    obtain ⟨inside,small⟩ := fits
    have tables : Holds arrays { p with user4MBTable := Function.update p.user4MBTable (tableIndex virAddr) pte }
        (store arrays (.table .user4MB) m (virAddr / 2 ^ 12 % 1024) (pteWord pte)) := by
      refine holds_pte holds (lower virAddr) (pteWord_lt pte) (stands_pte small) rfl ?_
      intro u j
      cases u <;> simp [PageTables.table,Function.update_apply,tableIndex]
    exact simulates_flushed simulates
      (holds_pde tables (upper virAddr inside) (pde4KWord_lt _ _) (stands_table arrays ⟨true,true,true,.user4MB⟩))
  | freeUserVideoMem virAddr =>
    refine simulates_flushed simulates (holds_pte holds (lower virAddr) (pteWord_lt _) (stands_pte (by decide)) rfl ?_)
    intro u j
    cases u <;> simp [apply,freeUserVideoMem,PageTables.table,Function.update_apply,tableIndex]
  | mapBackupVidmem virAddr physAddr =>
    obtain ⟨inside,inside'⟩ := fits
    have small : physAddr / 2 ^ 12 < 2 ^ 20 := by omega
    have tables : Holds arrays { p with
        backupVidmemTable := Function.update p.backupVidmemTable (tableIndex virAddr) ⟨true,true,false,physAddr / 2 ^ 12⟩ }
        (store arrays (.table .backupVidmem) m (virAddr / 2 ^ 12 % 1024) (pteWord ⟨true,true,false,physAddr / 2 ^ 12⟩)) := by
      refine holds_pte holds (lower virAddr) (pteWord_lt _) (stands_pte small) rfl ?_
      intro u j
      cases u <;> simp [PageTables.table,Function.update_apply,tableIndex]
    exact simulates_flushed simulates
      (holds_pde tables (upper virAddr inside) (pde4KWord_lt _ _) (stands_table arrays ⟨true,true,false,.backupVidmem⟩))

/-- Every event leaves the arrays standing for the tables of the model. -/
theorem simulates_step (simulates : Simulates arrays p m) {e : Event} (occurs : Occurs arrays e) :
    Simulates arrays (applyEvent p e) (rawStep arrays m e) := by
  have holds := simulates.holds
  cases e with
  | call call => exact simulates_call simulates occurs
  | fetch page =>
    refine ⟨simulates.paging,simulates.largePages,simulates.cr3,⟨holds.directory,holds.tables⟩,?_⟩
    intro page' cached kept
    have kept' : Function.update m.tlb page (walk m page) page' = some cached := kept
    by_cases here : page' = page
    · subst here
      rw [Function.update_self] at kept'
      exact (walk_eq simulates occurs).symm.trans kept'
    · rw [Function.update_of_ne here] at kept'
      exact simulates.tlb page' cached kept'
  | evict page =>
    refine ⟨simulates.paging,simulates.largePages,simulates.cr3,⟨holds.directory,holds.tables⟩,?_⟩
    intro page' cached kept
    have kept' : Function.update m.tlb page none page' = some cached := kept
    by_cases here : page' = page
    · subst here
      rw [Function.update_self] at kept'
      cases kept'
    · rw [Function.update_of_ne here] at kept'
      exact simulates.tlb page' cached kept'
  | mark a i dirty =>
    have inside : i < pageCount := occurs
    have inside32 : (if dirty then 6 else 5) < 32 := by split <;> decide
    have small := or_lt (word_lt m.mem (entryAddress arrays a i)) inside32
    refine ⟨simulates.paging,simulates.largePages,simulates.cr3,⟨?_,?_⟩,simulates.tlb⟩
    · intro j inside'
      rw [rawStep,entry_store inside inside' small]
      split
      · rename_i here
        obtain ⟨rfl,rfl⟩ := here
        exact (stands_marked dirty).1 _ (holds.directory j inside')
      · exact holds.directory j inside'
    · intro t j inside'
      rw [rawStep,entry_store inside inside' small]
      split
      · rename_i here
        obtain ⟨rfl,rfl⟩ := here
        exact (@stands_marked arrays _ dirty).2 _ (holds.tables t j inside')
      · exact holds.tables t j inside'
  | write address byte =>
    obtain ⟨below,outside⟩ := occurs
    have same (a : ArrayName) (i : Nat) (inside : i < pageCount) :
        entry arrays (rawStep arrays m (.write address byte)) a i = entry arrays m a i := by
      have there := outside a
      have within := entryAddress_inside arrays a inside
      simp only [pageCount] at inside
      refine word_update m.mem byte within below ?_
      simp only [entryAddress]
      omega
    refine ⟨simulates.paging,simulates.largePages,simulates.cr3,⟨?_,?_⟩,simulates.tlb⟩
    · intro i inside
      rw [same .directory i inside]
      exact holds.directory i inside
    · intro t i inside
      rw [same (.table t) i inside]
      exact holds.tables t i inside

/-- The page tables after the four loops of `init_paging`. -/
def blank : PageTables where
  pageDirectory _ := .page ⟨false,true,false,false,0⟩
  first4MBTable i := ⟨false,true,false,i⟩
  user4MBTable _ := ⟨false,true,true,0⟩
  backupVidmemTable _ := ⟨false,true,false,0⟩

theorem holds_blank (arrays : Arrays) (m : Mmu) : Holds arrays blank (storeBlank arrays m) := by
  have all : ∀ i, i ∈ List.range pageCount → i < pageCount := fun i => List.mem_range.mp
  have small (pte : Nat → Pte) : ∀ i, pteWord (pte i) < 2 ^ 32 := fun i => pteWord_lt _
  constructor
  · intro i inside
    rw [storeBlank,entry_storeAll all inside (small _),if_neg (by simp),entry_storeAll all inside (small _),if_neg (by simp),
      entry_storeAll all inside (small _),if_neg (by simp),entry_storeAll all inside fun _ => pde4MWord_lt _,
      if_pos ⟨rfl,List.mem_range.mpr inside⟩]
    exact stands_page arrays (by decide) (by simp)
  · intro t i inside
    have member := List.mem_range.mpr inside
    rw [storeBlank,entry_storeAll all inside (small _)]
    cases t with
    | backupVidmem =>
      rw [if_pos ⟨rfl,member⟩]
      exact stands_pte (by decide)
    | user4MB =>
      rw [if_neg (by simp),entry_storeAll all inside (small _),if_pos ⟨rfl,member⟩]
      exact stands_pte (by decide)
    | first4MB =>
      have below : i < 2 ^ 20 := Nat.lt_trans inside (by decide)
      rw [if_neg (by simp),entry_storeAll all inside (small _),if_neg (by simp),entry_storeAll all inside (small _),
        if_pos ⟨rfl,member⟩]
      exact stands_pte below

/-- `init_paging` leaves the arrays standing for the first page tables, whatever
    was in memory. -/
theorem simulates_init (arrays : Arrays) (m : Mmu) : Simulates arrays initPaging (rawInitPaging arrays m) := by
  have video : Holds arrays
      { blank with first4MBTable := Function.update blank.first4MBTable videoMemIndex ⟨true,true,false,videoMemIndex⟩ }
      (store arrays (.table .first4MB) (storeBlank arrays m) videoMemIndex (pteWord ⟨true,true,false,videoMemIndex⟩)) := by
    refine holds_pte (holds_blank arrays m) (by decide) (pteWord_lt _) (stands_pte (by decide)) rfl ?_
    intro u j
    cases u <;> simp [PageTables.table,Function.update_apply]
  have low : 0 < pageCount := by decide
  have next : 1 < pageCount := by decide
  have page : StandsPde arrays (pde4MWord ⟨true,true,false,true,kernelMemStart / 2 ^ 22⟩)
      (.page ⟨true,true,false,true,kernelMemStart / 2 ^ 22⟩) := stands_page arrays (by decide) fun _ => rfl
  have first := holds_pde video low (pde4KWord_lt _ _) (stands_table arrays ⟨true,true,true,.first4MB⟩)
  have kernel := holds_pde first next (pde4MWord_lt _) page
  have same : initPaging = { blank with
      first4MBTable := Function.update blank.first4MBTable videoMemIndex ⟨true,true,false,videoMemIndex⟩
      pageDirectory := Function.update (Function.update blank.pageDirectory 0 (.table ⟨true,true,true,.first4MB⟩)) 1
        (.page ⟨true,true,false,true,kernelMemStart / 2 ^ 22⟩) } := by
    simp only [initPaging,blank,PageTables.mk.injEq,and_true]
    constructor
    · funext i
      simp only [Function.update_apply]
      by_cases zero : i = 0
      · simp [zero]
      · simp [zero]
    · funext i
      simp only [Function.update_apply]
  rw [same]
  simp only [rawInitPaging]
  generalize store arrays .directory _ 1 _ = last at kernel ⊢
  refine ⟨rfl,rfl,rfl,⟨kernel.directory,kernel.tables⟩,?_⟩
  intro _ _ kept
  cases kept

end

/-! ### Runs -/

/-- The processor from `init_paging` on. -/
def rawRun (arrays : Arrays) (m : Mmu) (events : List Event) : Mmu :=
  events.foldl (rawStep arrays) (rawInitPaging arrays m)

theorem simulates_run {arrays : Arrays} (m : Mmu) {events : List Event} (occur : ∀ e, e ∈ events → Occurs arrays e) :
    Simulates arrays (events.foldl applyEvent initPaging) (rawRun arrays m events) := by
  have keeps : ∀ (events : List Event) (p : PageTables) (m : Mmu), (∀ e, e ∈ events → Occurs arrays e) →
      Simulates arrays p m → Simulates arrays (events.foldl applyEvent p) (events.foldl (rawStep arrays) m) := by
    intro events
    induction events with
    | nil => exact fun _ _ _ simulates => simulates
    | cons e rest ih =>
      intro p m occur simulates
      exact ih _ _ (fun e' later => occur e' (List.mem_cons_of_mem e later))
        (simulates_step simulates (occur e List.mem_cons_self))
  exact keeps events _ _ occur (simulates_init arrays m)

/-- Wherever the arrays are and whatever was in memory: after `init_paging` and any
    calls of the other functions, with any translations that the processor keeps
    or drops, marks that it sets and bytes that are written elsewhere, it comes at
    every address to what the page tables of the model say, in user mode too. -/
theorem hardware_follows {arrays : Arrays} (m : Mmu) {events : List Event} (occur : ∀ e, e ∈ events → Occurs arrays e)
    {virAddr : Nat} (inside : virAddr < 2 ^ 32) :
    reach (rawRun arrays m events) false virAddr = translate (events.foldl applyEvent initPaging) virAddr ∧
    reach (rawRun arrays m events) true virAddr = userTranslate (events.foldl applyEvent initPaging) virAddr :=
  reach_eq (simulates_run m occur) inside

/-- The call maps no page where that of the kernel is. -/
def LeavesKernel : Call → Prop
  | .mapPage4MB virAddr _ => directoryIndex virAddr ≠ directoryIndex kernelMemStart
  | .mapUserVideoMem virAddr _ => directoryIndex virAddr ≠ directoryIndex kernelMemStart
  | .mapBackupVidmem virAddr _ => directoryIndex virAddr ≠ directoryIndex kernelMemStart
  | _ => True

/-- The page of the kernel is mapped to itself. -/
def KernelMapped (p : PageTables) : Prop :=
  p.pageDirectory (directoryIndex kernelMemStart) = .page ⟨true,true,false,true,directoryIndex kernelMemStart⟩

theorem kernelMapped_call {p : PageTables} {call : Call} (leaves : LeavesKernel call) (mapped : KernelMapped p) :
    KernelMapped (apply p call) := by
  cases call with
  | mapPage4MB virAddr pde => exact (Function.update_of_ne (Ne.symm leaves) _ _).trans mapped
  | mapUserVideoMem virAddr pte => exact (Function.update_of_ne (Ne.symm leaves) _ _).trans mapped
  | mapBackupVidmem virAddr physAddr => exact (Function.update_of_ne (Ne.symm leaves) _ _).trans mapped
  | mapActualVidmem physAddr => exact mapped
  | freeUserVideoMem virAddr => exact mapped

theorem kernelMapped_run {events : List Event} (leave : ∀ call, .call call ∈ events → LeavesKernel call) {p : PageTables}
    (mapped : KernelMapped p) : KernelMapped (events.foldl applyEvent p) := by
  induction events generalizing p with
  | nil => exact mapped
  | cons e rest ih =>
    refine ih (fun call later => leave call (List.mem_cons_of_mem e later)) ?_
    cases e with
    | call call => exact kernelMapped_call (leave call List.mem_cons_self) mapped
    | fetch page => exact mapped
    | evict page => exact mapped
    | mark a i dirty => exact mapped
    | write address byte => exact mapped

/-- Where no call maps another page there, the kernel reaches every address of its
    page, with the arrays in it, at the same physical address: what it stores there
    is stored in the arrays. -/
theorem kernel_page_reached {arrays : Arrays} (m : Mmu) {events : List Event} (occur : ∀ e, e ∈ events → Occurs arrays e)
    (leave : ∀ call, .call call ∈ events → LeavesKernel call) {address : Nat} (low : kernelMemStart ≤ address)
    (high : address < kernelMemStart + 2 ^ 22) : reach (rawRun arrays m events) false address = some address := by
  have mapped := kernelMapped_run leave (show KernelMapped initPaging from rfl)
  have index : directoryIndex address = directoryIndex kernelMemStart := by
    simp only [directoryIndex,kernelMemStart] at *
    omega
  have inside : address < 2 ^ 32 := by
    simp only [kernelMemStart] at high
    omega
  have same : directoryIndex kernelMemStart * 2 ^ 22 + address % 2 ^ 22 = address := by
    simp only [directoryIndex,kernelMemStart] at *
    omega
  rw [(reach_eq (simulates_run m occur) inside).1,Paging.translate,index,mapped]
  exact (if_pos ⟨rfl,rfl⟩).trans (congrArg some same)

/-! ### The kernel -/

/-- Page tables become others by calls of the functions of `paging.c`, which leave
    the page of the kernel. -/
def Wrote (p after : PageTables) : Prop :=
  ∃ calls : List Call, (∀ c, c ∈ calls → Fits c ∧ LeavesKernel c) ∧ calls.foldl apply p = after

theorem wrote_refl (p : PageTables) : Wrote p p := ⟨[],fun _ none => (nomatch none),rfl⟩

theorem wrote_trans {p q after : PageTables} (first : Wrote p q) (second : Wrote q after) : Wrote p after := by
  obtain ⟨calls,fit,rfl⟩ := first
  obtain ⟨calls',fit',rfl⟩ := second
  refine ⟨calls ++ calls',?_,List.foldl_append⟩
  intro c member
  rcases List.mem_append.mp member with before | later
  · exact fit c before
  · exact fit' c later

theorem wrote_call (p : PageTables) (call : Call) (fits : Fits call) (leaves : LeavesKernel call) :
    Wrote p (apply p call) :=
  ⟨[call],fun c member => by rw [List.mem_singleton] at member; exact member ▸ ⟨fits,leaves⟩,rfl⟩

section
variable {fs : Fs} {S : Schedule} {k after : Kernel}

theorem wrote_draws (draws : Draws k after) : Wrote k.paging after.paging := by
  rw [(sameScreens_draws draws).2]
  exact wrote_refl _

theorem page_apart : directoryIndex _128MB ≠ directoryIndex kernelMemStart := by decide
theorem screen_apart : directoryIndex userVideoMemAddr ≠ directoryIndex kernelMemStart := by decide

/-- The page of a process is mapped. -/
theorem wrote_page (p : PageTables) {pid : Nat} (high : pid ≤ maxProcesses) :
    Wrote p (mapPage4MB p _128MB (newCore pid 0).pde) := by
  have few : pid ≤ 6 := high
  have small : (_8MB + _4MB * (pid - 1)) / 2 ^ 22 < 2 ^ 10 := by
    simp only [_8MB,_4MB]
    omega
  exact wrote_call p (.mapPage4MB _128MB (newCore pid 0).pde) ⟨by decide,small,rfl⟩ page_apart

theorem wrote_spawned (k : Kernel) {pid : Nat} (high : pid ≤ maxProcesses) (parsed : Parsed) (page : Nat → UInt8) :
    Wrote k.paging (spawned k pid parsed page).paging := wrote_page k.paging high

theorem wrote_execute {fuel : Nat} {command : Command} {result : Executed}
    (executed : Syscalls.execute fs fuel k command = .ok result) :
    Wrote k.paging (match result with | .returned _ after => after.paging | .started _ after => after.paging) := by
  rcases execute_cases executed with ⟨_,after,rfl,_⟩ | ⟨_,pid,parsed,page,rfl,_,high,_⟩
  · exact wrote_draws (execute_returned executed)
  · exact wrote_spawned k high parsed page

theorem wrote_popped (only : vidOf k (getPcb k) = 0 ∨ vidOf k (getPcb k) = userVideoMemAddr) :
    Wrote k.paging (popped k).paging := by
  simp only [popped]
  split
  · refine wrote_call k.paging (.freeUserVideoMem (vidOf k (getPcb k))) ?_ trivial
    have small : vidOf k (getPcb k) < 2 ^ 32 := by
      rcases only with none | some
      · rw [none]; decide
      · rw [some]; decide
    exact small
  · exact wrote_refl _

theorem wrote_ending {fuel : Nat} {status : UInt8} {before : Kernel} (represents : Represents S (tableOf k))
    (ended : tableOf before = tableOf k ∨ tableOf before = (tableOf k).raise)
    (halted : Syscalls.halt fs fuel before status = .ok after) : Wrote before.paging after.paging := by
  obtain ⟨_,running,_,vids⟩ := ending_same ended
  have only : vidOf before (getPcb before) = 0 ∨ vidOf before (getPcb before) = userVideoMemAddr := by
    rw [running,show vidOf before (getPcb k) = vidOf k (getPcb k) from vids _]
    exact vidOf_running represents
  refine wrote_trans (wrote_popped only) ?_
  rcases ending_cases represents ended halted with ⟨child,_,_,paged⟩ | ⟨_,_,executed⟩
  · obtain ⟨_,q,live,_,address⟩ := parent_below represents child
    have address' : (k.pcbs (getPcb k)).parent = pcbAddress q := address
    rw [paged,address',(blockOf represents live).1]
    exact wrote_page _ (represents.tabled.valid q live).2
  · exact wrote_trans (wrote_draws (clearSetpos_draws (popped before) 0 0)) (wrote_execute executed)

theorem wrote_remap {process frame : Nat}
    (only : vidOf k process = 0 ∨ vidOf k process = userVideoMemAddr) (small : frame < 2 ^ 20) :
    Wrote k.paging (remapVidmem k process frame).paging := by
  simp only [remapVidmem]
  split
  · have inside : vidOf k process < 2 ^ 32 ∧ directoryIndex (vidOf k process) ≠ directoryIndex kernelMemStart := by
      rcases only with none | some
      · rw [none]; decide
      · rw [some]; decide
    exact wrote_call k.paging (.mapUserVideoMem (vidOf k process) ⟨true,true,true,frame⟩) ⟨inside.1,small⟩ inside.2
  · exact wrote_refl _

/-- The backup page of a terminal is mapped. -/
theorem wrote_backup (p : PageTables) {t physAddr : Nat} (inside : t < maxTerminals) (small : physAddr < 2 ^ 32) :
    Wrote p (mapBackupVidmem p (vidBkupMemStartVirt + t * 4096) physAddr) := by
  have few : t < 3 := inside
  have index : directoryIndex (vidBkupMemStartVirt + t * 4096) ≠ directoryIndex kernelMemStart := by
    simp only [directoryIndex,vidBkupMemStartVirt,_128MB,_8MB,kernelMemStart]
    omega
  refine wrote_call p (.mapBackupVidmem (vidBkupMemStartVirt + t * 4096) physAddr) ⟨?_,small⟩ index
  simp only [vidBkupMemStartVirt,_128MB,_8MB]
  omega

theorem backup_small {t : Nat} (inside : t < maxTerminals) :
    vidBkupMemStartPhys + t * 4096 < 2 ^ 32 ∧ (vidBkupMemStartPhys + t * 4096) / 2 ^ 12 < 2 ^ 20 := by
  have few : t < 3 := inside
  simp only [vidBkupMemStartPhys]
  omega

theorem wrote_switch {fuel termNum : Nat} (valid : ValidShell fs) (represents : Represents S (tableOf k))
    (video : Video k) (switched : switchActiveTerminal fs fuel k termNum = .ok after) :
    Wrote k.paging after.paging := by
  obtain ⟨inside,⟨_,rfl⟩ | ⟨_,_,rfl⟩ | ⟨_,available,hidden,hid,shown⟩⟩ := switchActiveTerminal_ok switched
  · exact wrote_refl _
  · obtain ⟨_,_,_,drew⟩ := printf_draws k notAvailableMessage
    rw [drew]
    exact wrote_refl _
  · obtain ⟨small,frame⟩ := backup_small video.current
    obtain ⟨process,found,same⟩ := hideActive_ok hid
    obtain ⟨some,_,last,_⟩ := lastProc_ok.mp found
    have only := vidOf_last represents video.current some
    have saved : Wrote k.paging hidden.paging := by
      have backedUp : Wrote k.paging (backedUp k).paging := by
        have mapped := wrote_backup k.paging video.current small
        rw [← video.virt _ video.current,← video.phys _ video.current] at mapped
        exact mapped
      rw [same]
      refine wrote_trans backedUp (wrote_remap ?_ ?_)
      · rw [← last]
        exact only
      · rw [activeTerm,video.phys _ video.current]
        exact frame
    obtain ⟨screens,_,_⟩ := hideActive_shows represents video hid
    have table := tableOf_shown hid termNum
    have exchanged : Wrote hidden.paging (showTerminal hidden termNum).paging := by
      have mapped := wrote_backup hidden.paging inside (show videoMemStart < 2 ^ 32 by decide)
      rw [← video.virt _ inside,← screens.virt] at mapped
      exact mapped
    refine wrote_trans saved (wrote_trans exchanged ?_)
    have size := shown_numProcs table
    by_cases bare : (k.terminals termNum).numProcs = 0
    · obtain ⟨eip,executed⟩ := resume_opens (steady_of_represents represents) valid table (size.trans bare) bare
        available shown
      exact wrote_execute executed
    · obtain ⟨process,found,rfl⟩ := resume_maps (by omega) shown
      obtain rfl := shown_last table found
      refine wrote_remap ?_ (by decide)
      have vids : vidOf (showTerminal hidden termNum) (lastOf k termNum) =
          vidOf k (lastOf k termNum) := congrFun (congrArg Table.vids table) _
      rw [vids]
      exact vidOf_last represents inside (Nat.pos_of_ne_zero bare)

/-- Every event writes the page tables through the functions of `paging.c` only. -/
theorem step_wrote {op : Op} (valid : ValidShell fs) (represents : Represents S (tableOf k))
    (video : Video k) (taken : step fs k op = .ok after) : Wrote k.paging after.paging := by
  cases op with
  | trap => cases taken; exact wrote_refl _
  | frame esp ebp =>
    simp only [step] at taken
    split at taken <;> cases taken
    exact wrote_refl _
  | execute fuel command =>
    obtain ⟨result,executed,ended⟩ := bind_eq_ok.mp taken
    have wrote := wrote_execute executed
    cases result with
    | returned _ _ => cases ended; exact wrote
    | started _ _ => cases ended; exact wrote
  | halt fuel status => exact wrote_ending represents (.inl rfl) taken
  | exception fuel text =>
    have raised := tableOf_raised k text
    obtain ⟨phys,cursor,place,same⟩ := printf_draws k text
    rw [same] at raised
    simp only [step,exception,same] at taken
    have wrote := wrote_ending represents (.inr raised) taken
    exact wrote
  | vidmap screenStart =>
    cases taken
    simp only [vidmap]
    split
    · exact wrote_refl _
    · exact wrote_call k.paging (.mapUserVideoMem userVideoMemAddr ⟨true,true,true,videoMemIndex⟩) ⟨by decide,by decide⟩
        screen_apart
  | pit =>
    rcases pitInterruptHandler_ok taken with rfl | ⟨next,_,switched⟩
    · exact wrote_refl _
    · obtain ⟨q,held,_,_,_,_,paged,_⟩ := contextSwitch_held represents switched
      rw [paged,(blockOf represents held).1]
      exact wrote_page _ (represents.tabled.valid q held).2
  | switchTo fuel termNum => exact wrote_switch valid represents video taken

theorem boot_wrote (m : Kernel) : Wrote initPaging (boot m).paging := by
  have drawn := draws_trans (printf_draws (keyboardInit (terminalInit { m with
    availablePids := fun _ => 0, execTerm := 0, currTerminal := 0, paging := initPaging, tssEsp0 := _8MB }))
    enablingMessage) (clearSetpos_draws _ 0 0)
  refine wrote_trans ?_ (wrote_draws drawn)
  have first := wrote_backup initPaging (show 0 < maxTerminals by decide) (backup_small (show 0 < maxTerminals by decide)).1
  have second := wrote_trans first
    (wrote_backup _ (show 1 < maxTerminals by decide) (backup_small (show 1 < maxTerminals by decide)).1)
  have third := wrote_trans second
    (wrote_backup _ (show 2 < maxTerminals by decide) (backup_small (show 2 < maxTerminals by decide)).1)
  exact wrote_trans third (wrote_backup _ (show 0 < maxTerminals by decide) (show videoMemStart < 2 ^ 32 by decide))

end

/-- The page tables of every reachable kernel. -/
theorem reachable_wrote {fs : Fs} {k : Kernel} (valid : ValidShell fs) (reached : Reachable (step fs) (Started fs) k) :
    Wrote initPaging k.paging := by
  have initially : ∀ k, Started fs k → ((∃ S, Represents S (tableOf k)) ∧ Video k) ∧ Wrote initPaging k.paging := by
    intro k started
    refine ⟨(started_right started).1,?_⟩
    obtain ⟨m,fuel,eip,executed⟩ := started
    exact wrote_trans (boot_wrote m) (wrote_execute executed)
  have keeps : ∀ k op after, ((∃ S, Represents S (tableOf k)) ∧ Video k) ∧ Wrote initPaging k.paging →
      step fs k op = .ok after → ((∃ S, Represents S (tableOf after)) ∧ Video after) ∧ Wrote initPaging after.paging := by
    rintro k op after ⟨⟨⟨S,represents⟩,video⟩,wrote⟩ taken
    obtain ⟨S',_,next⟩ := step_represents valid represents taken
    exact ⟨⟨⟨S',next⟩,(step_right valid represents video taken).1⟩,
      wrote_trans wrote (step_wrote valid represents video taken)⟩
  exact (reachable_invariant initially keeps reached).2

/-- The call that an event is. -/
def callOf : Event → Option Call
  | .call call => some call
  | _ => none

theorem foldl_calls (p : PageTables) (events : List Event) :
    events.foldl applyEvent p = (events.filterMap callOf).foldl apply p := by
  induction events generalizing p with
  | nil => rfl
  | cons e rest ih =>
    rw [List.foldl_cons,ih]
    cases e <;> rfl

/-- Every reachable kernel has come to its page tables by calls of the functions of
    `paging.c`, none of which maps a page where that of the kernel is. On a
    processor on which these calls were made, whatever else it did meanwhile, the
    kernel reaches what it reaches by these tables, and user code reaches the page
    of the running process and the frames of the screens only. -/
theorem hardware_confined {fs : Fs} {k : Kernel} (valid : ValidShell fs) (reached : Reachable (step fs) (Started fs) k) :
    ∃ calls : List Call, (∀ c, c ∈ calls → Fits c ∧ LeavesKernel c) ∧ calls.foldl apply initPaging = k.paging ∧
      ∀ arrays m events, (∀ e, e ∈ events → Occurs arrays e) → events.filterMap callOf = calls →
        ∀ virAddr, virAddr < 2 ^ 32 →
          reach (rawRun arrays m events) false virAddr = translate k.paging virAddr ∧
          ∀ physAddr, reach (rawRun arrays m events) true virAddr = some physAddr →
            MayReach (pidOf k (getPcb k)) virAddr physAddr := by
  obtain ⟨calls,fit,wrote⟩ := reachable_wrote valid reached
  refine ⟨calls,fit,wrote,?_⟩
  intro arrays m events occur same virAddr inside
  have tables : events.foldl applyEvent initPaging = k.paging := by rw [foldl_calls,same,wrote]
  obtain ⟨kernel,user⟩ := reach_eq (simulates_run m occur) inside
  rw [tables] at kernel user
  obtain ⟨⟨S,represents⟩,_,mapped⟩ := reachable_mapped valid reached
  refine ⟨kernel,fun physAddr reaches => ?_⟩
  exact (confined represents mapped).reach virAddr physAddr (user.symm.trans reaches)

/-! ### Arrays at the start of the kernel's page -/

/-- The four arrays one after another. -/
def exampleArrays : Arrays where
  start
    | .directory => 0x400000
    | .table .first4MB => 0x401000
    | .table .user4MB => 0x402000
    | .table .backupVidmem => 0x403000
  aligned a := by rcases a with _ | (_ | _ | _) <;> decide
  inside a := by rcases a with _ | (_ | _ | _) <;> decide
  apart a b := by rcases a with _ | (_ | _ | _) <;> rcases b with _ | (_ | _ | _) <;> decide

def exampleEvents : List Event :=
  [.call (.mapPage4MB _128MB (newCore 1 0).pde),.fetch (_128MB / 2 ^ 12),.mark .directory 32 true,.write 0x500000 7]

def blankMmu : Mmu := ⟨fun _ => 0,0,false,false,fun _ => none⟩

theorem hardware_follows_page :
    reach (rawRun exampleArrays blankMmu exampleEvents) true (_128MB + 5) = some (_8MB + 5) := by
  have occur : ∀ e, e ∈ exampleEvents → Occurs exampleArrays e := by
    intro e member
    simp only [exampleEvents,List.mem_cons,List.not_mem_nil,or_false] at member
    rcases member with rfl | rfl | rfl | rfl
    · exact ⟨by decide,by decide,rfl⟩
    · show _128MB / 2 ^ 12 < 2 ^ 20
      decide
    · show 32 < pageCount
      decide
    · refine ⟨by decide,fun a => .inr ?_⟩
      rcases a with _ | (_ | _ | _) <;> decide
  rw [(hardware_follows blankMmu occur (show _128MB + 5 < 2 ^ 32 by decide)).2]
  decide

/-- The second shell, out of sight, on a processor with the calls that its kernel
    has made. -/
theorem hardware_confined_shell : ∃ k, Reachable (step shellFs) (Started shellFs) k ∧ pidOf k (getPcb k) = 2 ∧
    k.execTerm ≠ k.currTerminal ∧ ∃ calls : List Call, calls.foldl apply initPaging = k.paging ∧
      ∀ virAddr, virAddr < 2 ^ 32 →
        reach (rawRun exampleArrays blankMmu (calls.map .call)) false virAddr = translate k.paging virAddr ∧
        ∀ physAddr, reach (rawRun exampleArrays blankMmu (calls.map .call)) true virAddr = some physAddr →
          MayReach 2 virAddr physAddr := by
  have leads : Leads (run (step shellFs) shellKernel hiddenOps) fun k => pidOf k (getPcb k) = 2 ∧
      k.execTerm ≠ k.currTerminal := by decide +kernel
  obtain ⟨k,ran,second,hidden⟩ := leads
  have reached := reachable_run (reachable_start shellKernel_started) ran
  obtain ⟨calls,fit,tables,confined⟩ := hardware_confined (shellImage_valid shellFs_image) reached
  have occur : ∀ e, e ∈ calls.map Event.call → Occurs exampleArrays e := by
    intro e member
    obtain ⟨call,inside,rfl⟩ := List.mem_map.mp member
    exact (fit call inside).1
  have same : (calls.map Event.call).filterMap callOf = calls := by
    rw [List.filterMap_map]
    exact List.filterMap_some
  refine ⟨k,reached,second,hidden,calls,tables,?_⟩
  intro virAddr inside
  obtain ⟨kernel,user⟩ := confined exampleArrays blankMmu _ occur same virAddr inside
  rw [second] at user
  exact ⟨kernel,user⟩

end MazeOS.PageWords
