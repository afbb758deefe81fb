import MazeOS.ReadData
import MazeOS.Strings

/-!
Lookup of directory entries. `strncmp` compares the strings in two fields
(`strncmp_eq_zero`), so `read_dentry_by_name` finds the first entry whose name
is the string in the first 32 bytes of its argument (`readDentryByName_some`,
`readDentryByName_none`). That is the first entry of that name, unless the
argument is longer and starts with the name of an entry (`whole_names_iff`).
Where all names are different, lookup by index and by name agree
(`lookups_agree`).
-/
namespace MazeOS.NameLookup
open MazeOS.Bytes MazeOS.Strings MazeOS.Filesystem MazeOS.ReadData

/-- Where the image has an entry. -/
def entryAddress (fs : Fs) (i : Nat) : Nat := (i + 1) * dentrySize + fs.fsStartAddr

/-- The name of an entry: its field of 32 bytes up to the first NUL. -/
def nameOf (fs : Fs) (i : Nat) : List UInt8 := text 0 (bytesAt fs.mem (entryAddress fs i)) filenameSize

def entry (fs : Fs) (i : Nat) : Dentry := dentryAt fs (entryAddress fs i)

/-- `read_dentry_by_name` with the structure that it fills in: its return value,
    and the structure after the call. -/
def dentryByName (fs : Fs) (fname : Nat → UInt8) (dentry : Dentry) : Int × Dentry :=
  match readDentryByName fs fname with
  | some found => (0,found)
  | none => (-1,dentry)

theorem nameOf_length_le (fs : Fs) (i : Nat) : (nameOf fs i).length ≤ filenameSize := text_length_le

/-! ### The comparison -/

/-- Bytes of equal value are equal. -/
theorem signed_eq_iff (a b : UInt8) : a.toInt8.toInt - b.toInt8.toInt = 0 ↔ a = b := by
  rw [Int.sub_eq_zero,Int8.toInt_inj]
  constructor
  · intro same
    have bytes := congrArg Int8.toUInt8 same
    simpa using bytes
  · exact congrArg UInt8.toInt8

theorem strncmpFrom_eq_zero (s1 s2 : Nat → UInt8) (left i : Nat) : strncmpFrom s1 s2 left i = 0 ↔
    ∀ j, j < left → (∀ l, l < j → s1 (i + l) ≠ 0) → s1 (i + j) = s2 (i + j) := by
  induction left generalizing i with
  | zero => simp [strncmpFrom]
  | succ n ih =>
    rw [strncmpFrom]
    by_cases differ : s1 i ≠ s2 i
    · rw [if_pos (.inl differ),signed_eq_iff]
      refine iff_of_false differ ?_
      intro agree
      exact differ (agree 0 (Nat.succ_pos n) fun l impossible => absurd impossible (Nat.not_lt_zero l))
    · have same : s1 i = s2 i := not_not.mp differ
      by_cases ends : s1 i = 0
      · rw [if_pos (.inr ends),signed_eq_iff]
        refine iff_of_true same ?_
        intro j inside clean
        rcases Nat.eq_zero_or_pos j with rfl | later
        · exact same
        · exact absurd ends (clean 0 later)
      · have goes : ¬ (s1 i ≠ s2 i ∨ s1 i = 0) := by
          rintro (other | zero)
          · exact other same
          · exact ends zero
        rw [if_neg goes,ih]
        constructor
        · intro agree j inside clean
          cases j with
          | zero => exact same
          | succ j =>
            rw [← Nat.add_assoc,Nat.add_right_comm]
            refine agree j (by omega) fun l before => ?_
            rw [Nat.add_assoc,Nat.add_comm 1 l]
            exact clean (l + 1) (by omega)
        · intro agree j inside clean
          rw [Nat.add_assoc,Nat.add_comm 1 j]
          refine agree (j + 1) (by omega) fun l before => ?_
          cases l with
          | zero => exact ends
          | succ l =>
            rw [← Nat.add_assoc,Nat.add_right_comm]
            exact clean l (by omega)

/-- `strncmp` is 0 exactly when the two fields have the same string. -/
theorem strncmp_eq_zero (s1 s2 : Nat → UInt8) (n : Nat) : strncmp s1 s2 n = 0 ↔ text 0 s1 n = text 0 s2 n := by
  rw [strncmp,strncmpFrom_eq_zero,text_eq_iff]
  simp only [Nat.zero_add]

/-! ### Lookup by name -/

section
variable {fs : Fs} {fname : Nat → UInt8}

theorem findDentry_some {left start : Nat} {d : Dentry} (found : findDentry fs fname left start = some d) :
    ∃ i, i < left ∧ text 0 (bytesAt fs.mem (start + i * dentrySize)) filenameSize = text 0 fname filenameSize ∧
      (∀ j, j < i → text 0 (bytesAt fs.mem (start + j * dentrySize)) filenameSize ≠ text 0 fname filenameSize) ∧
      d = dentryAt fs (start + i * dentrySize) := by
  induction left generalizing start with
  | zero => cases found
  | succ n ih =>
    rw [findDentry] at found
    split at found
    · rename_i same
      cases found
      refine ⟨0,Nat.succ_pos n,?_,fun j impossible => absurd impossible (Nat.not_lt_zero j),?_⟩
      · rw [Nat.zero_mul,Nat.add_zero]
        exact ((strncmp_eq_zero _ _ _).mp same).symm
      · rw [Nat.zero_mul,Nat.add_zero]
    · rename_i differ
      obtain ⟨i,inside,same,first,here⟩ := ih found
      have next : ∀ j, start + (j + 1) * dentrySize = start + dentrySize + j * dentrySize := by
        intro j
        rw [Nat.succ_mul]
        omega
      refine ⟨i + 1,by omega,by rw [next]; exact same,?_,by rw [next]; exact here⟩
      intro j before
      cases j with
      | zero =>
        rw [Nat.zero_mul,Nat.add_zero]
        exact fun equal => differ ((strncmp_eq_zero _ _ _).mpr equal.symm)
      | succ j =>
        rw [next]
        exact first j (by omega)

theorem findDentry_none {left start : Nat} (found : findDentry fs fname left start = none) :
    ∀ i, i < left → text 0 (bytesAt fs.mem (start + i * dentrySize)) filenameSize ≠ text 0 fname filenameSize := by
  induction left generalizing start with
  | zero => exact fun i impossible => absurd impossible (Nat.not_lt_zero i)
  | succ n ih =>
    rw [findDentry] at found
    split at found
    · cases found
    · rename_i differ
      intro i inside
      cases i with
      | zero =>
        rw [Nat.zero_mul,Nat.add_zero]
        exact fun equal => differ ((strncmp_eq_zero _ _ _).mpr equal.symm)
      | succ i =>
        have next : start + (i + 1) * dentrySize = start + dentrySize + i * dentrySize := by
          rw [Nat.succ_mul]
          omega
        rw [next]
        exact ih found i (by omega)

theorem entryAddress_eq (fs : Fs) (i : Nat) : dentrySize + fs.fsStartAddr + i * dentrySize = entryAddress fs i := by
  rw [entryAddress,Nat.succ_mul]
  omega

/-- Lookup by name finds the first entry whose name is the string in the first
    32 bytes of the argument. -/
theorem readDentryByName_some {d : Dentry} (found : readDentryByName fs fname = some d) :
    ∃ i, i < fs.metadata.numDentries ∧ nameOf fs i = text 0 fname filenameSize ∧
      (∀ j, j < i → nameOf fs j ≠ text 0 fname filenameSize) ∧ d = entry fs i := by
  obtain ⟨i,inside,same,first,here⟩ := findDentry_some found
  simp only [entryAddress_eq] at same first here
  exact ⟨i,inside,same,first,here⟩

theorem readDentryByName_none (found : readDentryByName fs fname = none) :
    ∀ i, i < fs.metadata.numDentries → nameOf fs i ≠ text 0 fname filenameSize := by
  intro i inside
  have absent := findDentry_none found i inside
  rw [entryAddress_eq] at absent
  exact absent

/-- The first entry of a name is found by that name. -/
theorem readDentryByName_first {i : Nat} (inside : i < fs.metadata.numDentries)
    (same : nameOf fs i = text 0 fname filenameSize) (first : ∀ j, j < i → nameOf fs j ≠ text 0 fname filenameSize) :
    readDentryByName fs fname = some (entry fs i) := by
  cases found : readDentryByName fs fname with
  | none => exact absurd same (readDentryByName_none found i inside)
  | some d =>
    obtain ⟨i',_,same',first',rfl⟩ := readDentryByName_some found
    rcases Nat.lt_trichotomy i i' with before | rfl | after
    · exact absurd same (first' i before)
    · rfl
    · exact absurd same' (first i' after)

theorem readDentryByName_isSome : (readDentryByName fs fname).isSome ↔
    ∃ i, i < fs.metadata.numDentries ∧ nameOf fs i = text 0 fname filenameSize := by
  cases found : readDentryByName fs fname with
  | none =>
    refine iff_of_false (by decide) ?_
    rintro ⟨i,inside,same⟩
    exact readDentryByName_none found i inside same
  | some d =>
    obtain ⟨i,inside,same,_⟩ := readDentryByName_some found
    exact iff_of_true rfl ⟨i,inside,same⟩

end

/-! ### Whole names -/

/-- The filename of a dentry holds the name of the entry and a NUL after it. -/
theorem entry_holds (fs : Fs) (i : Nat) : Holds 0 (padded 0 (entry fs i).filename) (nameOf fs i) := by
  have size : (entry fs i).filename.length = filenameSize + 1 := by simp [entry,dentryAt]
  have chars : ∀ j, j < filenameSize → padded 0 (entry fs i).filename j = bytesAt fs.mem (entryAddress fs i) j := by
    intro j inside
    rw [padded_inside (by omega)]
    simp only [entry,dentryAt]
    rw [List.getElem_append_left (by rw [taken_length]; exact inside),taken_getElem]
  refine ⟨text_clean,?_,?_⟩
  · intro j inside
    have short := nameOf_length_le fs i
    rw [chars j (by omega)]
    exact (text_getElem inside).symm
  · rcases Nat.lt_or_eq_of_le (nameOf_length_le fs i) with short | full
    · rw [chars _ short]
      rw [nameOf,text_length] at short ⊢
      exact text_stops short
    · rw [full,padded_inside (by omega)]
      simp only [entry,dentryAt]
      rw [List.getElem_append_right (by rw [taken_length])]
      simp

/-- Lookup of a name is by the whole name. -/
structure WholeName (fs : Fs) (name : List UInt8) (fname : Nat → UInt8) : Prop where
  succeeds : ∀ dentry, (dentryByName fs fname dentry).1 = 0 ↔ ∃ i, i < fs.metadata.numDentries ∧ nameOf fs i = name
  fills : ∀ dentry i, i < fs.metadata.numDentries → nameOf fs i = name → (∀ j, j < i → nameOf fs j ≠ name) →
    dentryByName fs fname dentry = (0,entry fs i) ∧ Holds 0 (padded 0 (entry fs i).filename) name
  refuses : ∀ dentry, (∀ i, i < fs.metadata.numDentries → nameOf fs i ≠ name) →
    dentryByName fs fname dentry = (-1,dentry)

theorem dentryByName_found {fs : Fs} {fname : Nat → UInt8} {d : Dentry} (found : readDentryByName fs fname = some d)
    (dentry : Dentry) : dentryByName fs fname dentry = (0,d) := by
  rw [dentryByName,found]

theorem dentryByName_absent {fs : Fs} {fname : Nat → UInt8} (found : readDentryByName fs fname = none)
    (dentry : Dentry) : dentryByName fs fname dentry = (-1,dentry) := by
  rw [dentryByName,found]

theorem dentryByName_value (fs : Fs) (fname : Nat → UInt8) (dentry : Dentry) :
    (dentryByName fs fname dentry).1 = 0 ↔ (readDentryByName fs fname).isSome := by
  cases found : readDentryByName fs fname with
  | none => simp [dentryByName_absent found]
  | some d => simp [dentryByName_found found]

/-- Lookup is by the whole name unless that is too long for the field of an entry
    and starts with the name of one. -/
theorem wholeName_of {fs : Fs} {name : List UInt8} {fname : Nat → UInt8} (holds : Holds 0 fname name)
    (fits : name.length ≤ filenameSize ∨ ∀ i, i < fs.metadata.numDentries → nameOf fs i ≠ name.take filenameSize) :
    WholeName fs name fname := by
  have same : ∀ i, i < fs.metadata.numDentries → (nameOf fs i = text 0 fname filenameSize ↔ nameOf fs i = name) := by
    intro i inside
    rw [text_holds holds filenameSize]
    rcases fits with short | absent
    · rw [List.take_of_length_le short]
    · refine iff_of_false (absent i inside) ?_
      intro named
      have size := nameOf_length_le fs i
      refine absent i inside ?_
      rw [named] at size ⊢
      rw [List.take_of_length_le size]
  refine ⟨?_,?_,?_⟩
  · intro dentry
    rw [dentryByName_value,readDentryByName_isSome]
    exact exists_congr fun i => and_congr_right fun inside => same i inside
  · intro dentry i inside named first
    have found := readDentryByName_first inside ((same i inside).mpr named) fun j before equal =>
      first j before ((same j (by omega)).mp equal)
    exact ⟨dentryByName_found found dentry,named ▸ entry_holds fs i⟩
  · intro dentry absent
    refine dentryByName_absent ?_ dentry
    rw [← Option.not_isSome_iff_eq_none,readDentryByName_isSome]
    rintro ⟨i,inside,equal⟩
    exact absent i inside ((same i inside).mp equal)

/-- Lookup by a NUL-terminated name is by the whole name, exactly unless the name
    is too long for the field of an entry and starts with the name of one. -/
theorem whole_names_iff (fs : Fs) {name : List UInt8} {fname : Nat → UInt8} (holds : Holds 0 fname name) :
    WholeName fs name fname ↔
      name.length ≤ filenameSize ∨ ∀ i, i < fs.metadata.numDentries → nameOf fs i ≠ name.take filenameSize := by
  refine ⟨fun whole => ?_,wholeName_of holds⟩
  by_cases short : name.length ≤ filenameSize
  · exact .inl short
  · -- An entry that is found has a name of at most 32 bytes, which is not this one.
    refine .inr fun i inside same => ?_
    have found := (dentryByName_value fs fname (entry fs i)).mpr
      (readDentryByName_isSome.mpr ⟨i,inside,by rw [text_holds holds]; exact same⟩)
    obtain ⟨j,_,named⟩ := (whole.succeeds (entry fs i)).mp found
    have size := nameOf_length_le fs j
    rw [named] at size
    exact short size

/-- The name of the shell fits in the field of an entry. -/
theorem whole_names_shell : WholeName shellFs [115,104,101,108,108] (padded 0 [115,104,101,108,108]) :=
  (whole_names_iff shellFs (holds_padded (by decide))).mpr (.inl (by decide))

/-! ### An image with a full name -/

/-- An image with the file of `shellFs` under a name of 32 letters `a`, and its
    directory `.`. -/
def listBytes : List (Nat × UInt8) :=
  [(0,2),(4,1),(8,1),(96,2),(128,46),(160,1),(4096,28),(8192,0x7F),(8193,0x45),(8194,0x4C),(8195,0x46),
    (8217,0x80),(8218,0x04),(8219,0x08)] ++ (List.range 32).map fun i => (64 + i,97)

def listFs : Fs := fsInit (fun a => (listBytes.lookup a).getD 0) 0 12288

/-- A name of 33 letters finds the entry whose name has 32. -/
theorem whole_names_fail : readDentryByName listFs (padded 0 (List.replicate 33 97)) = some (entry listFs 0) ∧
    ¬ (∀ (fs : Fs) (name : List UInt8) (fname : Nat → UInt8), Holds 0 fname name → WholeName fs name fname) := by
  have found : readDentryByName listFs (padded 0 (List.replicate 33 97)) = some (entry listFs 0) := by decide
  refine ⟨found,fun always => ?_⟩
  have whole := always listFs (List.replicate 33 97) _ (holds_padded (by decide))
  obtain ⟨i,_,named⟩ := (whole.succeeds (entry listFs 0)).mp (congrArg Prod.fst (dentryByName_found found _))
  have size := nameOf_length_le listFs i
  rw [named] at size
  exact absurd size (by decide)

/-! ### Lookup by index -/

theorem readDentryByIndex_entry {fs : Fs} {i : Nat} (inside : i < fs.metadata.numDentries) :
    readDentryByIndex fs i = some (entry fs i) := if_neg (Nat.not_le_of_lt inside)

/-- An entry has its name in its filename. -/
theorem nameOf_entry {fs : Fs} {i j : Nat} (same : entry fs i = entry fs j) : nameOf fs i = nameOf fs j := by
  have first := text_holds (entry_holds fs i) filenameSize
  have second := text_holds (entry_holds fs j) filenameSize
  rw [same,second,List.take_of_length_le (nameOf_length_le fs j),List.take_of_length_le (nameOf_length_le fs i)] at first
  exact first.symm

/-- Where no two entries have the same name, the entry read by its index is found
    by its filename, and an entry that is found by any name is that of exactly
    one index. -/
theorem lookups_agree {fs : Fs} (distinct : ∀ i j, i < fs.metadata.numDentries → j < fs.metadata.numDentries →
    nameOf fs i = nameOf fs j → i = j) :
    (∀ i, i < fs.metadata.numDentries → ∃ d, readDentryByIndex fs i = some d ∧
      d.filename.length = filenameSize + 1 ∧ readDentryByName fs (padded 0 d.filename) = some d) ∧
    ∀ fname d, readDentryByName fs fname = some d →
      ∃! i, i < fs.metadata.numDentries ∧ readDentryByIndex fs i = some d := by
  constructor
  · intro i inside
    have named : nameOf fs i = text 0 (padded 0 (entry fs i).filename) filenameSize := by
      rw [text_holds (entry_holds fs i),List.take_of_length_le (nameOf_length_le fs i)]
    refine ⟨entry fs i,readDentryByIndex_entry inside,by simp [entry,dentryAt],readDentryByName_first inside named ?_⟩
    intro j before equal
    rw [← named] at equal
    exact absurd (distinct j i (by omega) inside equal) (by omega)
  · intro fname d found
    obtain ⟨i,inside,_,_,rfl⟩ := readDentryByName_some found
    refine ⟨i,⟨inside,readDentryByIndex_entry inside⟩,?_⟩
    rintro j ⟨inside',read⟩
    rw [readDentryByIndex_entry inside'] at read
    exact distinct j i inside' inside (nameOf_entry (Option.some.inj read))

theorem listFs_distinct : ∀ i j, i < listFs.metadata.numDentries → j < listFs.metadata.numDentries →
    nameOf listFs i = nameOf listFs j → i = j := by
  have two : listFs.metadata.numDentries = 2 := by decide
  have apart : nameOf listFs 0 ≠ nameOf listFs 1 := by decide
  rw [two]
  intro i j low low' same
  have cases : (i = 0 ∨ i = 1) ∧ (j = 0 ∨ j = 1) := by omega
  rcases cases with ⟨rfl | rfl,rfl | rfl⟩
  · rfl
  · exact absurd same apart
  · exact absurd same.symm apart
  · rfl

theorem lookups_agree_list : readDentryByName listFs (padded 0 (entry listFs 1).filename) = some (entry listFs 1) ∧
    ∃! i, i < listFs.metadata.numDentries ∧ readDentryByIndex listFs i = some (entry listFs 1) := by
  obtain ⟨d,read,_,found⟩ := (lookups_agree listFs_distinct).1 1 (by decide)
  have same : d = entry listFs 1 := (Option.some.inj read).symm
  subst same
  exact ⟨found,(lookups_agree listFs_distinct).2 _ _ found⟩

end MazeOS.NameLookup
