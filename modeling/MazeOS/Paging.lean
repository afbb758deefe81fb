import Mathlib.Algebra.Ring.Int.Defs
import Mathlib.Algebra.Ring.Nat
import Mathlib.Logic.Function.Basic

/-!
The page tables of `paging.c`: the page directory, the table of the first 4MB,
the table of the user's video page and the table of the backup video pages, and
the functions that write them. Shifting an address right by `SHIFT_4MB` or
`SHIFT_4KB` is dividing it by `2 ^ 22` or `2 ^ 12`, and the mask of ten bits is
the remainder by 1024. Bits that no function sets are left out. `translate`
walks the tables as the processor does.
-/
namespace MazeOS.Paging

def videoMemStart : Nat := 0xB8000
def videoMemIndex : Nat := 0xB8
def kernelMemStart : Nat := 0x400000

/-- `pde_4M_t`. -/
structure Pde4M where
  present : Bool
  readWrite : Bool
  userSupervisor : Bool
  pageSize : Bool
  baseAddr : Nat
  deriving DecidableEq, Inhabited

/-- The page tables, which are static arrays of `paging.c`. -/
inductive TableName where
  | first4MB
  | user4MB
  | backupVidmem
  deriving DecidableEq, Inhabited

/-- `pde_4K_t`; its base address is that of one of the page tables. -/
structure Pde4K where
  present : Bool
  readWrite : Bool
  userSupervisor : Bool
  baseAddr : TableName
  deriving DecidableEq, Inhabited

/-- An entry of the page directory. -/
inductive Pde where
  | page (entry : Pde4M)
  | table (entry : Pde4K)
  deriving DecidableEq, Inhabited

/-- `pte_t`. -/
structure Pte where
  present : Bool
  readWrite : Bool
  userSupervisor : Bool
  baseAddr : Nat
  deriving DecidableEq, Inhabited

/-- `page_directory`, `first_4MB_table`, `user_4MB_table`, `backup_vidmem_table`. -/
structure PageTables where
  pageDirectory : Nat → Pde
  first4MBTable : Nat → Pte
  user4MBTable : Nat → Pte
  backupVidmemTable : Nat → Pte
  deriving Inhabited

def PageTables.table (p : PageTables) : TableName → Nat → Pte
  | .first4MB => p.first4MBTable
  | .user4MB => p.user4MBTable
  | .backupVidmem => p.backupVidmemTable

def directoryIndex (virAddr : Nat) : Nat := virAddr / 2 ^ 22
def tableIndex (virAddr : Nat) : Nat := virAddr / 2 ^ 12 % 1024

/-- `init_paging`. -/
def initPaging : PageTables where
  pageDirectory i :=
    if i = 0 then .table ⟨true,true,true,.first4MB⟩
    else if i = 1 then .page ⟨true,true,false,true,kernelMemStart / 2 ^ 22⟩
    else .page ⟨false,true,false,false,0⟩
  first4MBTable i :=
    if i = videoMemIndex then ⟨true,true,false,videoMemIndex⟩ else ⟨false,true,false,i⟩
  user4MBTable _ := ⟨false,true,true,0⟩
  backupVidmemTable _ := ⟨false,true,false,0⟩

/-- `map_page_4MB`. -/
def mapPage4MB (p : PageTables) (virAddr : Nat) (pde : Pde4M) : PageTables :=
  { p with pageDirectory := Function.update p.pageDirectory (directoryIndex virAddr) (.page pde) }

/-- `map_user_video_mem`. -/
def mapUserVideoMem (p : PageTables) (virAddr : Nat) (pte : Pte) : PageTables :=
  { p with
    user4MBTable := Function.update p.user4MBTable (tableIndex virAddr) pte
    pageDirectory := Function.update p.pageDirectory (directoryIndex virAddr) (.table ⟨true,true,true,.user4MB⟩) }

/-- `free_user_video_mem`. -/
def freeUserVideoMem (p : PageTables) (virAddr : Nat) : PageTables :=
  { p with user4MBTable := Function.update p.user4MBTable (tableIndex virAddr) ⟨false,true,false,0⟩ }

/-- `map_backup_vidmem`. -/
def mapBackupVidmem (p : PageTables) (virAddr physAddr : Nat) : PageTables :=
  { p with
    backupVidmemTable := Function.update p.backupVidmemTable (tableIndex virAddr) ⟨true,true,false,physAddr / 2 ^ 12⟩
    pageDirectory := Function.update p.pageDirectory (directoryIndex virAddr) (.table ⟨true,true,false,.backupVidmem⟩) }

/-- The entry of the page table that maps an address, when a table does and its
    directory entry is present. -/
def pteOf (p : PageTables) (virAddr : Nat) : Option Pte :=
  match p.pageDirectory (directoryIndex virAddr) with
  | .table entry => if entry.present then some (p.table entry.baseAddr (tableIndex virAddr)) else none
  | .page _ => none

/-- The physical address that the kernel reaches at a virtual one; `none` is a
    page fault. -/
def translate (p : PageTables) (virAddr : Nat) : Option Nat :=
  match p.pageDirectory (directoryIndex virAddr) with
  | .page entry =>
    if entry.present ∧ entry.pageSize then some (entry.baseAddr * 2 ^ 22 + virAddr % 2 ^ 22) else none
  | .table entry =>
    if entry.present then
      let pte := p.table entry.baseAddr (tableIndex virAddr)
      if pte.present then some (pte.baseAddr * 2 ^ 12 + virAddr % 2 ^ 12) else none
    else none

end MazeOS.Paging
