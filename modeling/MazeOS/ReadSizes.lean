import MazeOS.UserPointers

/-!
Whether `read` and `getargs` respect the size of the buffer. `nbytes` is signed,
but every length it is compared with or copied by is unsigned, so a negative
size is a large one. `read_sizes_iff` says that this is the only way in which
more is stored than fits, and which calls of a negative size store nothing.
-/
namespace MazeOS.ReadSizes
open MazeOS.Runs MazeOS.Bytes MazeOS.Faults MazeOS.Filesystem MazeOS.ReadData MazeOS.Paging MazeOS.State MazeOS.Files
  MazeOS.Syscalls MazeOS.Transfers MazeOS.UserPointers

/-- The return value of a `read` is -1 or a number of bytes that fit. -/
def Counts (nbytes value : Int) : Prop := value = -1 ∨ 0 ≤ value ∧ value ≤ max nbytes 0

/-- No byte is stored outside a buffer of `nbytes`, and the value is right. -/
structure Respects (nbytes : Int) (p : PageTables) (address : Nat) (t : Transfer) : Prop where
  stores : (stored p address t : Int) ≤ max nbytes 0
  value : ∀ v, returned p address t = some v → Counts nbytes v

/-- Nothing is left to read, or the first byte of it cannot be. -/
def NothingLeft (fs : Fs) (k : Kernel) (fd name : Nat) (line : List UInt8) (first : UInt8) : FileOps → Prop
  | .fs =>
    let file := fdsOf k fd
    if fileType file = dirFileType then fs.metadata.numDentries ≤ file.pos ∨ ¬ Present k.paging name
    else if fileType file = normalFileType then
      let inode := getInodeFromPtr fs file.inode
      fs.metadata.numInodes ≤ inode ∨ fileLength fs inode ≤ file.pos ∨ Stray fs inode (file.pos / blockSize) ∨
        ¬ Present k.paging (fileSource fs inode file.pos 0)
    else True
  | .stdin => line = [] ∧ first ≠ ctrlL
  | _ => True

/-- `getargs` returns -1 and stores nothing when the arguments do not fit. -/
def ArgsRespected (k : Kernel) (buf : Nat) (nbytes : Int) : Prop :=
  nbytes < argsNeeded k →
    returned k.paging buf (getargsTransfer k buf nbytes) = some (-1) ∧
      stored k.paging buf (getargsTransfer k buf nbytes) = 0

section
variable {fs : Fs} {k : Kernel} {p : PageTables} {fd name address : Nat} {line : List UInt8} {first : UInt8}
  {nbytes : Int} {t : Transfer}

/-! ### A size that is not negative -/

theorem unsigned_nonneg (positive : 0 ≤ nbytes) (small : nbytes < 2 ^ 31) : (unsigned nbytes : Int) = nbytes := by
  unfold unsigned
  omega

theorem unsigned_negative (negative : nbytes < 0) (low : -2 ^ 31 ≤ nbytes) : 2 ^ 31 ≤ unsigned nbytes := by
  unfold unsigned
  omega

/-- What a transfer has to be for a buffer of `nbytes`. -/
def Sized (nbytes : Int) (t : Transfer) : Prop := t.count ≤ nbytes ∧ ∀ v, t.value = some v → Counts nbytes v

theorem sized_respects (sized : Sized nbytes t) : Respects nbytes p address t := by
  have short : stored p address t ≤ t.count := stored_le t
  constructor
  · have := sized.1
    omega
  · intro v back
    unfold returned at back
    split at back
    · exact sized.2 v back
    · cases back

theorem sized_copy {source : Nat → Nat} {count : Nat} {value : Int} (fits : count ≤ nbytes) (counts : Counts nbytes value) :
    Sized nbytes (copyFrom p source count value) := by
  have read : readable p source count ≤ count := readable_le
  constructor
  · rw [copyFrom_count]
    omega
  · intro v complete
    rw [copyFrom_value complete] at complete
    cases complete
    exact counts

theorem requested_le (fs : Fs) (inode offset length : Nat) : requested fs inode offset length ≤ length := by
  unfold requested
  split
  · exact readCount_le_length fs inode offset length
  · exact Nat.zero_le length

/-- A file name has at most 32 characters, since a NUL follows the field. -/
theorem filename_length {index : Nat} {d : Dentry} (entry : readDentryByIndex fs index = some d) :
    (d.filename.takeWhile (· ≠ 0)).length ≤ filenameSize := by
  have ends : ∀ l : List UInt8, ((l ++ [0]).takeWhile (· ≠ 0)).length ≤ l.length := by
    intro l
    rw [List.takeWhile_append]
    split
    · simp
    · exact (List.takeWhile_sublist _).length_le
  unfold readDentryByIndex at entry
  split at entry
  · cases entry
  · cases entry
    refine Nat.le_trans (ends _) ?_
    rw [taken_length]

theorem fsTransfer_sized (positive : 0 ≤ nbytes) (small : nbytes < 2 ^ 31)
    (made : fsTransfer fs k fd name nbytes = .ok t) : Sized nbytes t := by
  have word := unsigned_nonneg positive small
  have nothing : Sized nbytes ⟨some 0,0⟩ :=
    ⟨positive,fun v same => by cases same; exact .inr ⟨Int.le_refl 0,Int.le_max_right nbytes 0⟩⟩
  rcases fsTransfer_cases made with ⟨_,_,rfl⟩ | ⟨_,_,d,entry,rfl⟩ | ⟨_,_,made⟩ | ⟨_,_,rfl⟩
  · exact nothing
  · split
    · exact sized_copy (by omega) (.inr ⟨positive,Int.le_max_left nbytes 0⟩)
    · rename_i long
      simp only [filenameSize] at long
      have name := filename_length entry
      simp only [filenameSize] at name
      exact sized_copy (by simp only [filenameSize]; omega) (.inr ⟨by omega,by omega⟩)
  · rw [fileTransfer_ok made]
    have wanted := requested_le fs (getInodeFromPtr fs (fdsOf k fd).inode) (fdsOf k fd).pos (unsigned nbytes)
    have extent : fileExtent fs (getInodeFromPtr fs (fdsOf k fd).inode) (fdsOf k fd).pos (unsigned nbytes) ≤ _ :=
      streak_le _
    refine sized_copy (by omega) ?_
    split
    · exact .inr ⟨by omega,by omega⟩
    · exact .inr ⟨Int.le_refl 0,Int.le_max_right nbytes 0⟩
  · exact nothing

theorem lineSize_le (line : List UInt8) (nbytes : Int) : lineSize line nbytes ≤ unsigned nbytes := by
  unfold lineSize
  split <;> omega

theorem terminalTransfer_sized (positive : 0 ≤ nbytes) (small : nbytes < 2 ^ 31) :
    Sized nbytes (terminalTransfer p address line first nbytes) := by
  have word := unsigned_nonneg positive small
  have shorter := lineSize_le line nbytes
  unfold terminalTransfer
  split
  · refine ⟨Int.le_of_eq word,fun v back => ?_⟩
    simp only at back
    split at back
    · cases back
      exact .inr ⟨Int.le_refl 0,Int.le_max_right nbytes 0⟩
    · cases back
  · have fits : (lineSize line nbytes : Int) ≤ nbytes := by omega
    refine ⟨fits,fun v back => ?_⟩
    simp only at back
    split at back
    · cases back
      exact .inr ⟨by omega,by omega⟩
    · cases back

theorem driverTransfer_sized {driver : FileOps} (positive : 0 ≤ nbytes) (small : nbytes < 2 ^ 31)
    (made : driverTransfer fs k fd address name line first nbytes driver = .ok t) : Sized nbytes t := by
  cases driver with
  | fs => exact fsTransfer_sized positive small made
  | rtc =>
    cases made
    exact ⟨positive,fun v same => by cases same; exact .inr ⟨Int.le_refl 0,Int.le_max_right nbytes 0⟩⟩
  | stdin =>
    cases made
    exact terminalTransfer_sized positive small
  | stdout =>
    cases made
    exact ⟨positive,fun v same => by cases same; exact .inl rfl⟩

theorem refused_respects : Respects nbytes p address refused :=
  ⟨Int.le_max_right nbytes 0,fun v same => by cases same; exact .inl rfl⟩

/-! ### A negative size -/

/-- A call with nothing to store may return 0 or -1. -/
def Quiet (t : Transfer) : Prop := t.count = 0 → ∀ v, t.value = some v → v = -1 ∨ v = 0

/-- With a negative size, a call stores nothing if it has nothing to store or
    cannot store its first byte. -/
theorem respects_negative (negative : nbytes < 0) (quiet : Quiet t) :
    Respects nbytes p address t ↔ t.count = 0 ∨ ¬ Present p address := by
  have none : max nbytes 0 = 0 := by omega
  constructor
  · intro respects
    by_contra both
    obtain ⟨some,present⟩ := not_or.mp both
    have first : 0 < stored p address t := stored_pos.mpr ⟨Nat.pos_of_ne_zero some,not_not.mp present⟩
    have := respects.stores
    omega
  · intro reason
    have still : stored p address t = 0 := by
      by_contra some
      obtain ⟨count,present⟩ := stored_pos.mp (Nat.pos_of_ne_zero some)
      rcases reason with empty | absent
      · omega
      · exact absent present
    refine ⟨by omega,fun v back => ?_⟩
    unfold returned at back
    split at back
    · rename_i whole
      rcases quiet (by omega) v back with rfl | rfl
      · exact .inl rfl
      · exact .inr ⟨Int.le_refl 0,Int.le_max_right nbytes 0⟩
    · cases back

theorem quiet_copy {source : Nat → Nat} {count : Nat} {value : Int} (zero : count = 0 → value = -1 ∨ value = 0) :
    Quiet (copyFrom p source count value) := by
  intro empty v back
  rw [copyFrom_value back] at empty back
  cases back
  exact zero empty

theorem fileExtent_zero {inode offset : Nat} (many : 0 < unsigned nbytes) :
    fileExtent fs inode offset (unsigned nbytes) = 0 ↔
      fs.metadata.numInodes ≤ inode ∨ fileLength fs inode ≤ offset ∨ Stray fs inode (offset / blockSize) := by
  have wants : requested fs inode offset (unsigned nbytes) = 0 ↔
      fs.metadata.numInodes ≤ inode ∨ fileLength fs inode ≤ offset := by
    unfold requested
    by_cases present : inode < fs.metadata.numInodes
    · rw [if_pos present,readCount_eq_zero_iff fs many]
      exact (or_iff_right (Nat.not_le_of_lt present)).symm
    · exact iff_of_true (if_neg present) (.inl (Nat.le_of_not_lt present))
  rw [fileExtent,streak_zero,wants,Nat.add_zero,not_not,or_assoc]

theorem fsTransfer_negative (negative : nbytes < 0) (low : -2 ^ 31 ≤ nbytes)
    (made : fsTransfer fs k fd name nbytes = .ok t) :
    Quiet t ∧ (t.count = 0 ↔ NothingLeft fs k fd name line first .fs) := by
  have many : 0 < unsigned nbytes := by have := unsigned_negative negative low; omega
  have quiet : Quiet ⟨some 0,0⟩ := fun _ v same => by cases same; exact .inr rfl
  rw [fsTransfer_count made]
  unfold fsDelivery NothingLeft
  simp only
  rcases fsTransfer_cases made with ⟨directory,last,rfl⟩ | ⟨directory,inside,d,_,rfl⟩ | ⟨other,regular,made⟩ |
    ⟨other,other',rfl⟩
  · rw [if_pos directory,if_pos directory,if_pos last]
    exact ⟨quiet,iff_of_true rfl (.inl last)⟩
  · have short : nbytes ≤ filenameSize := by unfold filenameSize; omega
    rw [if_pos directory,if_pos directory,if_neg (Nat.not_le_of_lt inside),if_pos short,if_pos short]
    refine ⟨quiet_copy (fun zero => by omega),?_⟩
    rw [readable,streak_zero,Nat.add_zero]
    exact or_congr_left (iff_of_false (by omega) (Nat.not_le_of_lt inside))
  · rw [if_neg other,if_neg other,if_pos regular,if_pos regular,fileTransfer_ok made]
    refine ⟨quiet_copy (fun zero => ?_),?_⟩
    · rw [zero]
      split <;> exact .inr rfl
    · rw [readable,streak_zero,fileExtent_zero many,or_assoc,or_assoc]
  · rw [if_neg other,if_neg other,if_neg other',if_neg other']
    exact ⟨quiet,iff_of_true rfl trivial⟩

theorem terminalTransfer_negative (negative : nbytes < 0) (low : -2 ^ 31 ≤ nbytes) :
    Quiet (terminalTransfer p address line first nbytes) ∧
      ((terminalTransfer p address line first nbytes).count = 0 ↔ line = [] ∧ first ≠ ctrlL) := by
  have many := unsigned_negative negative low
  have size : lineSize line nbytes = 0 ↔ line = [] := by
    unfold lineSize
    rw [← List.length_eq_zero_iff]
    split <;> omega
  have head : line = [] → firstByte line first nbytes = first := fun empty => if_neg (by rw [size.mpr empty]; decide)
  unfold terminalTransfer
  by_cases clears : firstByte line first nbytes = ctrlL
  · rw [if_pos clears]
    refine ⟨fun empty => ?_,iff_of_false ?_ ?_⟩
    · have none : unsigned nbytes = 0 := empty
      omega
    · show ¬ unsigned nbytes = 0
      omega
    · rintro ⟨empty,other⟩
      exact other (head empty ▸ clears)
  · rw [if_neg clears]
    constructor
    · intro empty v back
      have none : lineSize line nbytes = 0 := empty
      simp only [none] at back
      split at back
      · cases back; exact .inr rfl
      · cases back
    · show lineSize line nbytes = 0 ↔ _
      rw [size]
      exact ⟨fun empty => ⟨empty,head empty ▸ clears⟩,fun both => both.1⟩

theorem driverTransfer_negative {driver : FileOps} (negative : nbytes < 0) (low : -2 ^ 31 ≤ nbytes)
    (made : driverTransfer fs k fd address name line first nbytes driver = .ok t) :
    Quiet t ∧ (t.count = 0 ↔ NothingLeft fs k fd name line first driver) := by
  have quiet : ∀ value : Int, value = -1 ∨ value = 0 → Quiet ⟨some value,0⟩ :=
    fun value either _ v same => by cases same; exact either
  cases driver with
  | fs => exact fsTransfer_negative negative low made
  | rtc => cases made; exact ⟨quiet 0 (.inr rfl),iff_of_true rfl trivial⟩
  | stdin => cases made; exact terminalTransfer_negative negative low
  | stdout => cases made; exact ⟨quiet (-1) (.inl rfl),iff_of_true rfl trivial⟩

end

/-! ### The calls -/

/-- A `read` respects the size of its buffer exactly when the size is not
    negative, or it gets to no driver, or nothing can be stored; a `getargs`,
    exactly when the size is not negative or it refuses anyway. -/
theorem read_sizes_iff (fs : Fs) (k : Kernel) (nbytes : Int) (low : -2 ^ 31 ≤ nbytes) (high : nbytes < 2 ^ 31) :
    (∀ fd address name line first t, readTransfer fs k fd address name line first nbytes = .ok t →
      (Respects nbytes k.paging address t ↔
        0 ≤ nbytes ∨ ¬ Dispatched k fd address ∨ ¬ Present k.paging address ∨
          ∃ driver, (fdsOf k fd.toNat).fileOps = some driver ∧ NothingLeft fs k fd.toNat name line first driver)) ∧
    ∀ buf, ArgsRespected k buf nbytes ↔ 0 ≤ nbytes ∨ ¬ InUserPage buf ∨ unsigned nbytes < argsNeeded k := by
  constructor
  · intro fd address name line first t made
    rcases readTransfer_cases made with ⟨idle,rfl⟩ | ⟨dispatched,driver,ops,made⟩
    · exact iff_of_true refused_respects (.inr (.inl idle))
    · by_cases positive : 0 ≤ nbytes
      · exact iff_of_true (sized_respects (driverTransfer_sized positive high made)) (.inl positive)
      · obtain ⟨quiet,nothing⟩ := driverTransfer_negative (Int.not_le.mp positive) low made
        rw [respects_negative (Int.not_le.mp positive) quiet,nothing]
        simp only [positive,dispatched,not_true_eq_false,false_or,ops,Option.some.injEq,exists_eq_left']
        exact or_comm
  · intro buf
    have nothing : returned k.paging buf refused = some (-1) ∧ stored k.paging buf refused = 0 := ⟨rfl,rfl⟩
    unfold ArgsRespected getargsTransfer
    by_cases inside : InUserPage buf
    · rw [if_neg (fun out => refused_iff.mp out inside)]
      by_cases small : unsigned nbytes < argsNeeded k
      · rw [if_pos small]
        exact iff_of_true (fun _ => nothing) (.inr (.inr small))
      · rw [if_neg small]
        simp only [inside,not_true_eq_false,small,or_false]
        constructor
        · intro respected
          by_contra negative
          obtain ⟨value,_⟩ := respected (by omega)
          unfold returned at value
          split at value <;> cases value
        · intro positive less
          have := unsigned_nonneg positive high
          omega
    · rw [if_pos (refused_iff.mpr inside)]
      exact iff_of_true (fun _ => nothing) (.inr (.inl inside))

theorem read_sizes_shell :
    (∀ buf, ArgsRespected Boot.shellKernel buf 1024 ↔
      0 ≤ (1024 : Int) ∨ ¬ InUserPage buf ∨ unsigned 1024 < argsNeeded Boot.shellKernel) ∧
    Respects 1024 Boot.shellKernel.paging _128MB ⟨some 3,3⟩ :=
  ⟨(read_sizes_iff shellFs Boot.shellKernel 1024 (by decide) (by decide)).2,
    ((read_sizes_iff shellFs Boot.shellKernel 1024 (by decide) (by decide)).1 0 _128MB 0 [108,115,10] 0 ⟨some 3,3⟩
      (by decide +kernel)).mpr (.inl (by decide))⟩

/-- The shell reads the line `ls` into a buffer of size -1, which is stored there
    with its newline, and asks for its arguments with one. -/
theorem read_sizes_fail :
    (readTransfer shellFs Boot.shellKernel 0 _128MB 0 [108,115,10] 0 (-1) = .ok ⟨some 3,3⟩ ∧
      ¬ Respects (-1) Boot.shellKernel.paging _128MB ⟨some 3,3⟩) ∧
    ¬ ArgsRespected Boot.shellKernel _128MB (-1) := by
  refine ⟨⟨by decide +kernel,fun respects => ?_⟩,fun respected => ?_⟩
  · have three : stored Boot.shellKernel.paging _128MB ⟨some 3,3⟩ = 3 := by decide +kernel
    have bound := respects.stores
    rw [three] at bound
    exact absurd bound (by decide)
  · have zero : returned Boot.shellKernel.paging _128MB (getargsTransfer Boot.shellKernel _128MB (-1)) = some 0 := by
      decide +kernel
    obtain ⟨value,_⟩ := respected (Int.lt_of_lt_of_le (by decide) (Int.natCast_nonneg _))
    rw [zero] at value
    cases value

end MazeOS.ReadSizes
