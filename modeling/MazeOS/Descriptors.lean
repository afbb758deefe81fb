import MazeOS.Boot

/-!
The descriptor table of a process against an abstract one, a partial map from
descriptors to open files (`OpenTable`). `TableStep` says which results a call
may have on that map, and `Agrees` which descriptor tables stand for it. Every
call on a table that stands for a map is a step of the map (`call_refines`), so
every sequence of calls of a new process is one (`descriptors_refine`).
-/
namespace MazeOS.Descriptors
open MazeOS.Runs MazeOS.Bytes MazeOS.Faults MazeOS.Filesystem MazeOS.State MazeOS.Display MazeOS.Process MazeOS.Files
  MazeOS.Syscalls MazeOS.Steps

/-! ### Calls -/

/-- The system calls on descriptors; a read also has the line that
    `keyboard_read` finds, should it get there. -/
inductive Call where
  | open (filename : Nat → UInt8)
  | close (fd : Int)
  | read (fd : Int) (address : Nat) (buf : Nat → UInt8) (nbytes : Int) (line : List UInt8)
  | write (fd : Int) (address : Nat) (buf : Nat → UInt8) (nbytes : Int)

/-- A call with its return value and the bytes it delivers. -/
structure Done where
  call : Call
  value : Int
  bytes : List UInt8

def doCall (fs : Fs) (k : Kernel) : Call → Checked (Int × List UInt8 × Kernel)
  | .open filename => .ok ((sysOpen fs k filename).1,[],(sysOpen fs k filename).2)
  | .close fd => sysClose k fd >>= fun (value,k) => .ok (value,[],k)
  | .read fd address buf nbytes line =>
    sysRead fs k fd address buf nbytes line >>= fun (value,k,after) => .ok (value,taken after value.toNat,k)
  | .write fd address buf nbytes => sysWrite k fd address buf nbytes >>= fun (value,k) => .ok (value,[],k)

/-- The running process makes one call after another. -/
def callStep (fs : Fs) : Kernel × List Done → Call → Checked (Kernel × List Done)
  | (k,log), call => doCall fs k call >>= fun (value,bytes,after) => .ok (after,log ++ [⟨call,value,bytes⟩])

theorem callStep_ok {fs : Fs} {k after : Kernel} {log log' : List Done} {call : Call} :
    callStep fs (k,log) call = .ok (after,log') ↔
      ∃ value bytes, doCall fs k call = .ok (value,bytes,after) ∧ log' = log ++ [⟨call,value,bytes⟩] := by
  constructor
  · intro stepped
    obtain ⟨⟨value,bytes,_⟩,done,same⟩ := bind_eq_ok.mp stepped
    cases same
    exact ⟨value,bytes,done,rfl⟩
  · rintro ⟨value,bytes,done,rfl⟩
    exact bind_eq_ok.mpr ⟨_,done,rfl⟩

/-! ### The abstract table -/

structure OpenFile where
  dentry : Dentry
  pos : Nat

abbrev OpenTable := Nat → Option OpenFile

/-- A descriptor that `open` may hand out. -/
def Ordinary (i : Nat) : Prop := 2 ≤ i ∧ i < maxOpenFiles

def closedTable : OpenTable := fun _ => none

/-- What a call may do to the open files, and what it returns then. -/
inductive TableStep (fs : Fs) (T : OpenTable) : Call → Int → OpenTable → Prop
  /-- `open` takes the lowest free descriptor. -/
  | opened (filename : Nat → UInt8) (dentry : Dentry) (i : Nat) (found : readDentryByName fs filename = some dentry)
      (known : dentry.filetype ≤ normalFileType) (inside : Ordinary i) (free : T i = none)
      (lowest : ∀ j, 2 ≤ j → j < i → T j ≠ none) :
      TableStep fs T (.open filename) i (Function.update T i (some ⟨dentry,0⟩))
  | refused (filename : Nat → UInt8)
      (reason : readDentryByName fs filename = none ∨ (∀ i, Ordinary i → T i ≠ none) ∨
        ∃ dentry, readDentryByName fs filename = some dentry ∧ normalFileType < dentry.filetype) :
      TableStep fs T (.open filename) (-1) T
  | closed (i : Nat) (inside : Ordinary i) (inUse : T i ≠ none) :
      TableStep fs T (.close i) 0 (Function.update T i none)
  | notClosed (fd : Int) (reason : ∀ i : Nat, fd = i → Ordinary i → T i = none) : TableStep fs T (.close fd) (-1) T
  /-- A read may move the position of an open file. -/
  | moved (i : Nat) (address : Nat) (buf : Nat → UInt8) (nbytes : Int) (line : List UInt8) (file : OpenFile)
      (value : Int) (pos : Nat) (inside : Ordinary i) (inUse : T i = some file) (success : value ≠ -1) :
      TableStep fs T (.read i address buf nbytes line) value (Function.update T i (some { file with pos := pos }))
  | unmoved (fd : Int) (address : Nat) (buf : Nat → UInt8) (nbytes : Int) (line : List UInt8) (value : Int) :
      TableStep fs T (.read fd address buf nbytes line) value T
  | written (fd : Int) (address : Nat) (buf : Nat → UInt8) (nbytes value : Int) :
      TableStep fs T (.write fd address buf nbytes) value T

inductive TableRun (fs : Fs) : OpenTable → List Done → OpenTable → Prop
  | nil (T : OpenTable) : TableRun fs T [] T
  | snoc {T U V : OpenTable} {log : List Done} {done : Done} (before : TableRun fs T log U)
      (last : TableStep fs U done.call done.value V) : TableRun fs T (log ++ [done]) V

/-- A descriptor stands for an open file: its type bits and its operations are
    those of the directory entry, and a regular file has its inode pointer. -/
structure Stands (fs : Fs) (file : OpenFile) (desc : FileDesc) : Prop where
  known : file.dentry.filetype ≤ normalFileType
  inUse : InUse desc
  fileType : fileType desc = file.dentry.filetype
  fileOps : desc.fileOps = if file.dentry.filetype = rtcFileType then some .rtc else some .fs
  inode : file.dentry.filetype = normalFileType → desc.inode = getInodePtr fs file.dentry.inode
  pos : desc.pos = file.pos

/-- A descriptor that is free. -/
def Free (desc : FileDesc) : Prop := ¬ InUse desc ∧ desc.fileOps = none

def StandsFor (fs : Fs) : Option OpenFile → FileDesc → Prop
  | some file, desc => Stands fs file desc
  | none, desc => Free desc

/-- A descriptor table stands for a table of open files. -/
structure Agrees (fs : Fs) (T : OpenTable) (fds : Nat → FileDesc) : Prop where
  stdin : InUse (fds 0) ∧ (fds 0).fileOps = some .stdin
  stdout : InUse (fds 1) ∧ (fds 1).fileOps = some .stdout
  others : ∀ i, Ordinary i → StandsFor fs (T i) (fds i)

/-! ### The descriptor table -/

@[simp] theorem fdsOf_setFd (k : Kernel) (fd : Nat) (file : FileDesc) :
    fdsOf (setFd k fd file) = Function.update (fdsOf k) fd file := by
  have running : getPcb (setFd k fd file) = getPcb k := rfl
  rw [fdsOf,running]
  simp [fdsOf,setFd,setPcb]

theorem fdsOf_draws {k after : Kernel} (draws : Draws k after) : fdsOf after = fdsOf k := by
  obtain ⟨_,_,_,rfl⟩ := draws
  rfl

/-- The search of `open` finds the lowest descriptor that is not in use. -/
theorem freeFrom_some {fds : Nat → FileDesc} {left i j : Nat} (found : freeFrom fds left i = some j) :
    i ≤ j ∧ j < i + left ∧ ¬ InUse (fds j) ∧ ∀ l, i ≤ l → l < j → InUse (fds l) := by
  induction left generalizing i with
  | zero => cases found
  | succ n ih =>
    rw [freeFrom] at found
    split at found
    · rename_i used
      obtain ⟨low,high,free,lowest⟩ := ih found
      refine ⟨by omega,by omega,free,?_⟩
      intro l from_i below
      by_cases first : l = i
      · subst first; exact used
      · exact lowest l (by omega) below
    · cases found
      refine ⟨Nat.le_refl _,by omega,by assumption,?_⟩
      intro l from_i below
      omega

theorem freeFrom_none {fds : Nat → FileDesc} {left i : Nat} (found : freeFrom fds left i = none) :
    ∀ l, i ≤ l → l < i + left → InUse (fds l) := by
  induction left generalizing i with
  | zero => intro l _ _; omega
  | succ n ih =>
    rw [freeFrom] at found
    split at found
    · rename_i used
      intro l from_i below
      by_cases first : l = i
      · subst first; exact used
      · exact ih found l (by omega) (by omega)
    · cases found

/-- The flags that `open` stores. -/
theorem openFlags {filetype : Nat} (known : filetype ≤ normalFileType) (ops : Option FileOps) (inode pos : Nat) :
    InUse ⟨ops,inode,pos,((filetype <<< 1) &&& fileTypeMask) ||| fileInUse⟩ ∧
      fileType ⟨ops,inode,pos,((filetype <<< 1) &&& fileTypeMask) ||| fileInUse⟩ = filetype := by
  have cases : filetype = 0 ∨ filetype = 1 ∨ filetype = 2 := by
    simp only [normalFileType] at known
    omega
  simp only [InUse,fileType]
  rcases cases with rfl | rfl | rfl <;> decide

/-! ### What each call does to the descriptors -/

/-- The descriptor that `open` stores for a directory entry. -/
def descFor (fs : Fs) (dentry : Dentry) : FileDesc :=
  ⟨if dentry.filetype = rtcFileType then some .rtc else some .fs,
    if dentry.filetype = normalFileType then getInodePtr fs dentry.inode else 0,0,
    ((dentry.filetype <<< 1) &&& fileTypeMask) ||| fileInUse⟩

theorem stands_descFor {fs : Fs} {dentry : Dentry} (known : dentry.filetype ≤ normalFileType) :
    Stands fs ⟨dentry,0⟩ (descFor fs dentry) := by
  obtain ⟨inUse,kind⟩ := openFlags known (descFor fs dentry).fileOps (descFor fs dentry).inode 0
  exact ⟨known,inUse,kind,rfl,fun normal => if_pos normal,rfl⟩

/-- `open` refuses and changes nothing, or stores a descriptor in the lowest
    free place. -/
theorem sysOpen_cases (fs : Fs) (k : Kernel) (filename : Nat → UInt8) :
    (sysOpen fs k filename = (-1,k) ∧ (readDentryByName fs filename = none ∨
      (∀ i, Ordinary i → InUse (fdsOf k i)) ∨
      ∃ dentry, readDentryByName fs filename = some dentry ∧ normalFileType < dentry.filetype)) ∨
    (∃ dentry i, readDentryByName fs filename = some dentry ∧ dentry.filetype ≤ normalFileType ∧ Ordinary i ∧
      ¬ InUse (fdsOf k i) ∧ (∀ j, 2 ≤ j → j < i → InUse (fdsOf k j)) ∧
      sysOpen fs k filename = ((i : Int),setFd k i (descFor fs dentry))) := by
  simp only [sysOpen]
  cases found : readDentryByName fs filename with
  | none => exact .inl ⟨rfl,.inl rfl⟩
  | some dentry =>
    simp only
    cases search : freeFrom (fdsOf k) (maxOpenFiles - 2) 2 with
    | none =>
      refine .inl ⟨rfl,.inr (.inl ?_)⟩
      rintro i ⟨low,high⟩
      exact freeFrom_none search i low high
    | some i =>
      obtain ⟨low,high,free,lowest⟩ := freeFrom_some search
      have inside : Ordinary i := ⟨low,high⟩
      simp only
      by_cases rtc : dentry.filetype = rtcFileType
      · refine .inr ⟨dentry,i,rfl,by rw [rtc]; decide,inside,free,lowest,?_⟩
        simp [descFor,rtc,rtcFileType,normalFileType]
      · by_cases dir : dentry.filetype = dirFileType
        · refine .inr ⟨dentry,i,rfl,by rw [dir]; decide,inside,free,lowest,?_⟩
          simp [descFor,dir,rtcFileType,dirFileType,normalFileType]
        · by_cases normal : dentry.filetype = normalFileType
          · refine .inr ⟨dentry,i,rfl,Nat.le_of_eq normal,inside,free,lowest,?_⟩
            simp [descFor,normal,rtcFileType,dirFileType,normalFileType]
          · refine .inl ⟨by simp [rtc,dir,normal],.inr (.inr ⟨dentry,rfl,?_⟩)⟩
            simp only [rtcFileType,dirFileType,normalFileType] at *
            omega

/-- A descriptor that `open` returns is the one that it stores for the entry. -/
theorem sysOpen_stored {fs : Fs} {k after : Kernel} {filename : Nat → UInt8} {dentry : Dentry} {i : Nat}
    (found : readDentryByName fs filename = some dentry) (opened : sysOpen fs k filename = ((i : Int),after)) :
    Ordinary i ∧ after = setFd k i (descFor fs dentry) := by
  rcases sysOpen_cases fs k filename with ⟨refused,_⟩ | ⟨dentry',j,found',_,inside,_,_,stored⟩
  · rw [refused] at opened
    have negative := congrArg Prod.fst opened
    simp only at negative
    omega
  · rw [stored] at opened
    obtain ⟨number,rfl⟩ := Prod.mk.inj opened
    have same : j = i := by omega
    subst same
    rw [found] at found'
    cases found'
    exact ⟨inside,rfl⟩

theorem sysClose_cases {k after : Kernel} {fd value : Int} (closed : sysClose k fd = .ok (value,after)) :
    (value = -1 ∧ after = k ∧ ∀ i : Nat, fd = i → Ordinary i → ¬ InUse (fdsOf k i)) ∨
    (∃ i : Nat, fd = i ∧ Ordinary i ∧ InUse (fdsOf k i) ∧ value = 0 ∧
      after = setFd k i { fdsOf k i with flags := fileNotInUse, fileOps := none }) := by
  unfold sysClose at closed
  split at closed
  · rename_i outside
    cases closed
    refine .inl ⟨rfl,rfl,?_⟩
    rintro i rfl ⟨low,high⟩
    omega
  · rename_i inside
    have word : fd = (fd.toNat : Int) := by omega
    have ordinary : Ordinary fd.toNat := ⟨by omega,by omega⟩
    simp only at closed
    split at closed
    · rename_i inUse
      split at closed
      · cases closed
      · cases closed
        exact .inr ⟨fd.toNat,word,ordinary,inUse,rfl,rfl⟩
    · rename_i free
      cases closed
      refine .inl ⟨rfl,rfl,?_⟩
      rintro i rfl _
      exact free

/-- A read from the file system changes nothing, or moves the position of its
    descriptor. -/
theorem fsRead_cases {fs : Fs} {k after : Kernel} {fd : Nat} {buf buf' : Nat → UInt8} {nbytes value : Int}
    (done : fsRead fs k fd buf nbytes = .ok (value,after,buf')) :
    after = k ∨ (value ≠ -1 ∧ ∃ pos, after = setFd k fd { fdsOf k fd with pos := pos }) := by
  unfold fsRead at done
  simp only at done
  split at done
  · split at done
    · split at done
      · split at done
        · cases done
        · cases done
          exact .inr ⟨by omega,_,rfl⟩
      · cases done
        exact .inr ⟨by omega,_,rfl⟩
    · cases done
      exact .inl rfl
  · split at done
    · obtain ⟨⟨bytesRead,buf''⟩,_,ended⟩ := bind_eq_ok.mp done
      simp only at ended
      split at ended
      · cases ended
        exact .inl rfl
      · rename_i success
        cases ended
        exact .inr ⟨success,_,rfl⟩
    · cases done
      exact .inl rfl

/-- A read from the keyboard clears at most the screen. -/
theorem terminalRead_draws {k after : Kernel} {line : List UInt8} {buf buf' : Nat → UInt8} {nbytes value : Int}
    (done : terminalRead k line buf nbytes = .ok (value,after,buf')) : Draws k after := by
  unfold terminalRead at done
  simp only at done
  generalize (if line.length < unsigned nbytes then line.length else unsigned nbytes) = size at done
  split at done
  · split at done
    · cases done
    · cases done
      exact clearSetpos_draws k 0 0
  · cases done
    exact draws_refl k

/-- A read draws at most, or moves the position of its descriptor, which is then
    in use with `fs_ops`. -/
theorem sysRead_cases {fs : Fs} {k after : Kernel} {fd value nbytes : Int} {address : Nat} {buf buf' : Nat → UInt8}
    {line : List UInt8} (done : sysRead fs k fd address buf nbytes line = .ok (value,after,buf')) :
    Draws k after ∨
      (value ≠ -1 ∧ ∃ i pos, fd = ((i : Nat) : Int) ∧ i < maxOpenFiles ∧ InUse (fdsOf k i) ∧
        (fdsOf k i).fileOps = some .fs ∧ after = setFd k i { fdsOf k i with pos := pos }) := by
  unfold sysRead at done
  split at done
  · cases done; exact .inl (draws_refl k)
  · split at done
    · cases done; exact .inl (draws_refl k)
    · simp only at done
      split at done
      · rename_i inUse
        split at done
        · cases done
        · rename_i ops
          rcases fsRead_cases done with rfl | ⟨success,pos,moved⟩
          · exact .inl (draws_refl _)
          · exact .inr ⟨success,fd.toNat,pos,by omega,by omega,inUse,ops,moved⟩
        · cases done; exact .inl (draws_refl k)
        · exact .inl (terminalRead_draws done)
        · cases done; exact .inl (draws_refl k)
      · cases done; exact .inl (draws_refl k)

/-- A write draws at most. -/
theorem sysWrite_draws {k after : Kernel} {fd value nbytes : Int} {address : Nat} {buf : Nat → UInt8}
    (done : sysWrite k fd address buf nbytes = .ok (value,after)) : Draws k after := by
  unfold sysWrite at done
  split at done
  · cases done; exact draws_refl k
  · split at done
    · cases done; exact draws_refl k
    · simp only at done
      split at done
      · split at done
        · cases done
        · cases done; exact draws_refl k
        · cases done; exact draws_refl k
        · cases done; exact draws_refl k
        · cases done
          exact terminalWrite_draws k _
      · cases done; exact draws_refl k

/-! ### The refinement -/

section
variable {fs : Fs} {T : OpenTable} {fds : Nat → FileDesc}

theorem agrees_inUse (agrees : Agrees fs T fds) {i : Nat} (inside : Ordinary i) : InUse (fds i) ↔ T i ≠ none := by
  have stands := agrees.others i inside
  cases entry : T i with
  | none =>
    rw [entry] at stands
    simp [stands.1]
  | some file =>
    rw [entry] at stands
    simp [stands.inUse]

/-- An ordinary descriptor and the entry it stands for change together. -/
theorem agrees_update (agrees : Agrees fs T fds) {i : Nat} (inside : Ordinary i) {entry : Option OpenFile}
    {desc : FileDesc} (stands : StandsFor fs entry desc) :
    Agrees fs (Function.update T i entry) (Function.update fds i desc) := by
  have zero : (0 : Nat) ≠ i := by
    rintro rfl
    exact absurd inside.1 (by decide)
  have one : 1 ≠ i := by
    rintro rfl
    exact absurd inside.1 (by decide)
  refine ⟨?_,?_,?_⟩
  · rw [Function.update_of_ne zero]
    exact agrees.stdin
  · rw [Function.update_of_ne one]
    exact agrees.stdout
  · intro j ordinary
    by_cases same : j = i
    · subst same
      rw [Function.update_self,Function.update_self]
      exact stands
    · rw [Function.update_of_ne same,Function.update_of_ne same]
      exact agrees.others j ordinary

/-- An open file with a position of its own in place of that of the descriptor. -/
theorem stands_moved {file : OpenFile} {desc : FileDesc} (stands : Stands fs file desc) (pos : Nat) :
    Stands fs { file with pos := pos } { desc with pos := pos } :=
  ⟨stands.known,stands.inUse,stands.fileType,stands.fileOps,stands.inode,rfl⟩

/-- The descriptor that a call may change. -/
def Touches : Call → Int → Nat → Prop
  | .open _, value, i => value = i
  | .close fd, _, i => fd = i
  | .read fd _ _ _ _, _, i => fd = i
  | .write _ _ _ _, _, _ => False

/-- What a call does to a table that stands for a table of open files. -/
structure Refined (fs : Fs) (T : OpenTable) (fds : Nat → FileDesc) (call : Call) (value : Int)
    (after : Nat → FileDesc) : Prop where
  refines : ∃ T', TableStep fs T call value T' ∧ Agrees fs T' after
  failure : value = -1 → after = fds
  frame : ∀ i, ¬ Touches call value i → after i = fds i

theorem refined_same (agrees : Agrees fs T fds) {call : Call} {value : Int} (stepped : TableStep fs T call value T) :
    Refined fs T fds call value fds :=
  ⟨⟨T,stepped,agrees⟩,fun _ => rfl,fun _ _ => rfl⟩

theorem refined_update (agrees : Agrees fs T fds) {call : Call} {value : Int} {i : Nat} {entry : Option OpenFile}
    {desc : FileDesc} (inside : Ordinary i) (stands : StandsFor fs entry desc)
    (stepped : TableStep fs T call value (Function.update T i entry)) (success : value ≠ -1)
    (touched : Touches call value i) : Refined fs T fds call value (Function.update fds i desc) := by
  refine ⟨⟨_,stepped,agrees_update agrees inside stands⟩,fun failed => absurd failed success,?_⟩
  intro j untouched
  refine Function.update_of_ne ?_ _ _
  rintro rfl
  exact untouched touched

/-- Every call is a step of the table of open files, changes nothing when it
    fails and no other descriptor when it succeeds. -/
theorem call_refines {k after : Kernel} {call : Call} {value : Int} {bytes : List UInt8}
    (agrees : Agrees fs T (fdsOf k)) (done : doCall fs k call = .ok (value,bytes,after)) :
    Refined fs T (fdsOf k) call value (fdsOf after) := by
  cases call with
  | «open» filename =>
    have result : sysOpen fs k filename = (value,after) := by
      simp only [doCall,Except.ok.injEq,Prod.mk.injEq] at done
      exact Prod.ext done.1 done.2.2
    rcases sysOpen_cases fs k filename with ⟨refused,reason⟩ | ⟨dentry,i,found,known,inside,free,lowest,opened⟩
    · rw [refused] at result
      cases result
      refine refined_same agrees (.refused filename ?_)
      rcases reason with unknown | full | strange
      · exact .inl unknown
      · exact .inr (.inl fun i inside => (agrees_inUse agrees inside).mp (full i inside))
      · exact .inr (.inr strange)
    · rw [opened] at result
      cases result
      rw [fdsOf_setFd]
      have bare : T i = none := by
        by_contra entry
        exact free ((agrees_inUse agrees inside).mpr entry)
      have taken : ∀ j, 2 ≤ j → j < i → T j ≠ none := fun j low below =>
        (agrees_inUse agrees ⟨low,Nat.lt_trans below inside.2⟩).mp (lowest j low below)
      have stands : StandsFor fs (some ⟨dentry,0⟩) (descFor fs dentry) := stands_descFor known
      exact refined_update agrees inside stands
        (.opened filename dentry i found known inside bare taken) (by omega) rfl
  | close fd =>
    obtain ⟨⟨result,k'⟩,closed,same⟩ := bind_eq_ok.mp done
    cases same
    rcases sysClose_cases closed with ⟨rfl,rfl,reason⟩ | ⟨i,rfl,inside,inUse,rfl,rfl⟩
    · refine refined_same agrees (.notClosed fd ?_)
      intro i named inside
      by_contra entry
      exact reason i named inside ((agrees_inUse agrees inside).mpr entry)
    · rw [fdsOf_setFd]
      have freed : StandsFor fs none { fdsOf k i with flags := fileNotInUse, fileOps := none } := by
        refine ⟨?_,rfl⟩
        simp only [InUse]
        decide
      exact refined_update agrees inside freed (.closed i inside ((agrees_inUse agrees inside).mp inUse)) (by decide) rfl
  | read fd address buf nbytes line =>
    obtain ⟨⟨result,k',buf'⟩,read,same⟩ := bind_eq_ok.mp done
    cases same
    rcases sysRead_cases read with draws | ⟨success,i,pos,rfl,high,inUse,ops,rfl⟩
    · rw [fdsOf_draws draws]
      exact refined_same agrees (.unmoved fd address buf nbytes line value)
    · have inside : Ordinary i := by
        refine ⟨?_,high⟩
        by_contra low
        have cases : i = 0 ∨ i = 1 := by omega
        rcases cases with rfl | rfl
        · rw [agrees.stdin.2] at ops; cases ops
        · rw [agrees.stdout.2] at ops; cases ops
      have stands := agrees.others i inside
      obtain ⟨file,entry⟩ := Option.ne_none_iff_exists'.mp ((agrees_inUse agrees inside).mp inUse)
      rw [entry] at stands
      have stands' : StandsFor fs (some { file with pos := pos }) { fdsOf k i with pos := pos } := stands_moved stands pos
      rw [fdsOf_setFd]
      exact refined_update agrees inside stands'
        (.moved i address buf nbytes line file value pos inside entry success) success rfl
  | write fd address buf nbytes =>
    obtain ⟨⟨result,k'⟩,written,same⟩ := bind_eq_ok.mp done
    cases same
    rw [fdsOf_draws (sysWrite_draws written)]
    exact refined_same agrees (.written fd address buf nbytes value)

end

theorem initialFds_agrees (fs : Fs) : Agrees fs closedTable initialFds := by
  refine ⟨⟨by decide,rfl⟩,⟨by decide,rfl⟩,?_⟩
  rintro i ⟨low,_⟩
  have closed : initialFds i = ⟨none,0,0,0⟩ := by
    rw [initialFds,if_neg (by omega),if_neg (by omega)]
  rw [closed]
  exact ⟨by decide,rfl⟩

theorem created_fds {fs : Fs} {fuel eip : Nat} {k₀ k : Kernel} {command : Command}
    (created : Syscalls.execute fs fuel k₀ command = .ok (.started eip k)) : fdsOf k = initialFds := by
  obtain ⟨pid,parsed,page,rfl,_⟩ := execute_started created
  have running : getPcb (spawned k₀ pid parsed page) = pcbAddress pid := rfl
  rw [fdsOf,running]
  simp [spawned,childPcb,newPcb]

theorem run_refines {fs : Fs} {k last : Kernel} {log : List Done} {calls : List Call} {T₀ : OpenTable}
    (agrees : Agrees fs T₀ (fdsOf k)) (ran : run (callStep fs) (k,[]) calls = .ok (last,log)) :
    ∃ T, TableRun fs T₀ log T ∧ Agrees fs T (fdsOf last) := by
  have keeps : ∀ (s : Kernel × List Done) call (s' : Kernel × List Done),
      (∃ T, TableRun fs T₀ s.2 T ∧ Agrees fs T (fdsOf s.1)) → callStep fs s call = .ok s' →
      ∃ T, TableRun fs T₀ s'.2 T ∧ Agrees fs T (fdsOf s'.1) := by
    rintro ⟨k,log⟩ call ⟨after,log'⟩ ⟨T,before,agrees⟩ stepped
    obtain ⟨value,bytes,done,rfl⟩ := callStep_ok.mp stepped
    obtain ⟨T',taken,agrees'⟩ := (call_refines agrees done).refines
    exact ⟨T',.snoc before taken,agrees'⟩
  exact run_invariant keeps ⟨T₀,.nil T₀,agrees⟩ ran

/-- Whatever calls a new process makes on its descriptors, their results are
    those of a table of open files that its descriptor table stands for, and a
    further call changes nothing when it fails and no other descriptor when it
    succeeds. -/
theorem descriptors_refine {fs : Fs} {fuel eip : Nat} {k₀ k last : Kernel} {command : Command} {calls : List Call}
    {log : List Done} (created : Syscalls.execute fs fuel k₀ command = .ok (.started eip k))
    (ran : run (callStep fs) (k,[]) calls = .ok (last,log)) :
    ∃ T, TableRun fs closedTable log T ∧ Agrees fs T (fdsOf last) ∧
      ∀ call value bytes after, doCall fs last call = .ok (value,bytes,after) →
        (value = -1 → fdsOf after = fdsOf last) ∧ ∀ i, ¬ Touches call value i → fdsOf after i = fdsOf last i := by
  have agrees : Agrees fs closedTable (fdsOf k) := by
    rw [created_fds created]
    exact initialFds_agrees fs
  obtain ⟨T,results,agrees'⟩ := run_refines agrees ran
  refine ⟨T,results,agrees',?_⟩
  intro call value bytes after done
  have refined := call_refines agrees' done
  exact ⟨refined.failure,refined.frame⟩

theorem descriptors_refine_shell : ∃ k last log,
    run (callStep ReadData.shellFs) (k,[]) [.open shellCommand.bytes,.open shellCommand.bytes] = .ok (last,log) ∧
      ∃ T, TableRun ReadData.shellFs closedTable log T ∧ Agrees ReadData.shellFs T (fdsOf last) := by
  obtain ⟨k,m,fuel,eip,created⟩ := Boot.started_exists Boot.shellFs_image default
  have ran : run (callStep ReadData.shellFs) (k,[]) [.open shellCommand.bytes,.open shellCommand.bytes] = .ok (_,_) := rfl
  obtain ⟨T,results,agrees,_⟩ := descriptors_refine created ran
  exact ⟨k,_,_,ran,T,results,agrees⟩

end MazeOS.Descriptors
