import MazeOS.NameLookup
import MazeOS.FileReads

/-!
Reads of a directory, one after another, between other calls of the same
process. The position of the descriptor counts the reads until all entries are
listed (`Listing`), and every further call keeps it so (`call_listing`). So each
read delivers the entry whose number is that of the reads before it, and after
the last entry a read delivers nothing (`reads_list_directory`).
-/
namespace MazeOS.DirectoryReads
open MazeOS.Runs MazeOS.Bytes MazeOS.Strings MazeOS.Faults MazeOS.Filesystem MazeOS.State MazeOS.Files MazeOS.ReadData
  MazeOS.NameLookup MazeOS.Descriptors MazeOS.FileReads

/-- The static variables are those that `fs_init` leaves. -/
def Initialised (fs : Fs) : Prop := ∃ mem startAddr endAddr, fs = fsInit mem startAddr endAddr

/-- A call that leaves descriptor `i` open. Its reads ask for a positive number
    of bytes. -/
def Lists (i : Nat) : Call → Prop
  | .close fd => fd ≠ i
  | .read fd _ _ nbytes _ => fd = i → 1 ≤ nbytes ∧ nbytes < 2 ^ 31
  | _ => True

/-- What a read of a directory delivers of an entry: the leading bytes of its
    name field, as many as were asked for. -/
structure Delivers (fs : Fs) (entry : Nat) (nbytes value : Int) (buf : Nat → UInt8) : Prop where
  positive : 0 < value
  leading : ∀ j, j < filenameSize → j < nbytes.toNat → buf j = bytesAt fs.mem (entryAddress fs entry) j
  whole : filenameSize ≤ nbytes → text 0 buf filenameSize = nameOf fs entry
  terminated : filenameSize < nbytes → Holds 0 buf (nameOf fs entry)

/-- The descriptor of an open directory at a position. -/
def dirAt (pos : Nat) : FileDesc := ⟨some .fs,0,pos,((dirFileType <<< 1) &&& fileTypeMask) ||| fileInUse⟩

/-- A directory whose entries have been listed by `n` reads, as far as there are
    entries. -/
structure Listing (fs : Fs) (i n : Nat) (s : Kernel × List Done) : Prop where
  desc : fdsOf s.1 i = dirAt (min n fs.metadata.numDentries)
  count : (readsOn i s.2).length = n

theorem lists_fair {i : Nat} {call : Call} (lists : Lists i call) : Fair i call := by
  cases call with
  | read fd address buf nbytes line =>
    intro same
    have bounds := lists same
    exact ⟨by omega,bounds.2⟩
  | close fd => exact lists
  | «open» filename => exact trivial
  | write fd address buf nbytes => exact trivial

theorem numDentries_lt {fs : Fs} (initialised : Initialised fs) : fs.metadata.numDentries < 2 ^ 32 := by
  obtain ⟨mem,startAddr,endAddr,rfl⟩ := initialised
  exact littleEndian_lt _

/-! ### One read -/

section
variable {fs : Fs} {i : Nat} {k : Kernel} {address : Nat} {nbytes : Int}

theorem sysRead_dir (inside : i < maxOpenFiles) {pos : Nat} (desc : fdsOf k i = dirAt pos) (valid : address ≠ 0)
    (buf : Nat → UInt8) (nbytes : Int) (line : List UInt8) :
    sysRead fs k i address buf nbytes line = fsRead fs k i buf nbytes := by
  have inRange : ¬ ((i : Int) < 0 ∨ (i : Int) ≥ maxOpenFiles) := by omega
  have inUse : InUse (dirAt pos) := by
    simp only [InUse,dirAt]
    decide
  simp only [sysRead,inRange,if_false,valid,Int.toNat_natCast,desc,inUse,if_true]
  rfl

/-- The bytes of the filename of an entry. -/
theorem filename_getD (fs : Fs) (e j : Nat) (inside : j < filenameSize) :
    (entry fs e).filename.getD j 0 = bytesAt fs.mem (entryAddress fs e) j := by
  simp only [entry,dentryAt]
  rw [List.getD_eq_getElem?_getD,List.getElem?_append_left (by rw [taken_length]; exact inside),
    List.getElem?_eq_getElem (by rw [taken_length]; exact inside),taken_getElem,Option.getD_some]

/-- The value that a read of more than the name field returns. -/
theorem filename_length (fs : Fs) (e : Nat) : (entry fs e).filename.takeWhile (· ≠ 0) = nameOf fs e :=
  takeWhile_holds (entry_holds fs e)

/-- A read of a directory delivers the entry at the position and moves it on. -/
theorem fsRead_entry {pos : Nat} (initialised : Initialised fs) (desc : fdsOf k i = dirAt pos)
    (more : pos < fs.metadata.numDentries) (named : nameOf fs pos ≠ []) (buf : Nat → UInt8) (asked : 1 ≤ nbytes) :
    ∃ value after, fsRead fs k i buf nbytes = .ok (value,setFd k i (dirAt (pos + 1)),after) ∧
      Delivers fs pos nbytes value after := by
  have kind : fileType (dirAt pos) = dirFileType := by
    simp only [fileType,dirAt]
    decide
  have words := numDentries_lt initialised
  have next : (pos + 1) % 2 ^ 32 = pos + 1 := Nat.mod_eq_of_lt (by omega)
  have read : readDentryByIndex fs pos = some (entry fs pos) := readDentryByIndex_entry more
  have moved : ({ dirAt pos with pos := pos + 1 } : FileDesc) = dirAt (pos + 1) := rfl
  have position : (dirAt pos).pos = pos := rfl
  simp only [fsRead,desc,kind,if_true,position,read,next,moved]
  by_cases short : nbytes ≤ filenameSize
  · have positive : ¬ nbytes < 0 := by omega
    rw [if_pos short,if_neg positive]
    have leading : ∀ j, j < filenameSize → j < nbytes.toNat →
        copyInto buf 0 (fun i => (entry fs pos).filename.getD i 0) nbytes.toNat j =
          bytesAt fs.mem (entryAddress fs pos) j := by
      intro j inside before
      rw [copyInto_inside (Nat.zero_le j) (by omega),Nat.sub_zero]
      exact filename_getD fs pos j inside
    refine ⟨_,_,rfl,by omega,leading,?_,fun long => absurd long (by omega)⟩
    intro full
    refine text_eq_iff.mpr fun j inside _ => leading j inside ?_
    omega
  · rw [if_neg short]
    have copied : ∀ j, j < filenameSize + 1 →
        copyInto buf 0 (fun i => (entry fs pos).filename.getD i 0) (filenameSize + 1) j =
          padded 0 (entry fs pos).filename j := by
      intro j inside
      rw [copyInto_inside (Nat.zero_le j) (by omega),Nat.sub_zero]
      rfl
    have holds := entry_holds fs pos
    have size := nameOf_length_le fs pos
    have terminated : Holds 0 (copyInto buf 0 (fun i => (entry fs pos).filename.getD i 0) (filenameSize + 1))
        (nameOf fs pos) := by
      refine ⟨holds.clean,?_,?_⟩
      · intro j inside
        rw [copied j (by omega)]
        exact holds.chars j inside
      · rw [copied _ (by omega)]
        exact holds.ends
    refine ⟨_,_,rfl,?_,?_,?_,fun _ => terminated⟩
    · rw [filename_length]
      have some := List.length_pos_iff.mpr named
      omega
    · intro j inside _
      rw [copied j (by omega)]
      exact filename_getD fs pos j inside
    · intro _
      rw [text_holds terminated,List.take_of_length_le size]

/-- After the last entry a read delivers nothing. -/
theorem fsRead_past {pos : Nat} (desc : fdsOf k i = dirAt pos) (past : fs.metadata.numDentries ≤ pos)
    (buf : Nat → UInt8) (nbytes : Int) : fsRead fs k i buf nbytes = .ok (0,k,buf) := by
  have kind : fileType (dirAt pos) = dirFileType := by
    simp only [fileType,dirAt]
    decide
  have position : (dirAt pos).pos = pos := rfl
  have read : readDentryByIndex fs pos = none := if_pos past
  simp only [fsRead,desc,kind,if_true,position,read]

end

/-! ### Runs -/

section
variable {fs : Fs} {i : Nat}

/-- Every call leaves a directory listed up to its position. -/
theorem call_listing (initialised : Initialised fs) (named : ∀ e, e < fs.metadata.numDentries → nameOf fs e ≠ [])
    (inside : i < maxOpenFiles) {s t : Kernel × List Done} {call : Call} (lists : Lists i call)
    (listing : ∃ n, Listing fs i n s) (stepped : callStep fs s call = .ok t) : ∃ n, Listing fs i n t := by
  obtain ⟨n,desc,count⟩ := listing
  obtain ⟨k,log⟩ := s
  obtain ⟨after,log'⟩ := t
  obtain ⟨value,bytes,done,rfl⟩ := callStep_ok.mp stepped
  simp only at desc count
  by_cases on : ReadOn i call
  · cases call with
    | «open» filename => exact on.elim
    | close fd => exact on.elim
    | write fd address buf nbytes => exact on.elim
    | read fd address buf nbytes line =>
      obtain ⟨rfl,valid⟩ := on
      obtain ⟨asked,_⟩ := lists rfl
      have counted : (readsOn i (log ++ [⟨.read i address buf nbytes line,value,bytes⟩])).length = n + 1 := by
        have here : ReadOn i (.read i address buf nbytes line) := ⟨rfl,valid⟩
        simp [readsOn,here,← count]
      obtain ⟨⟨result,k',buf'⟩,read,same⟩ := bind_eq_ok.mp done
      cases same
      rw [sysRead_dir inside desc valid] at read
      refine ⟨n + 1,?_,counted⟩
      by_cases more : n < fs.metadata.numDentries
      · have position : min n fs.metadata.numDentries = n := by omega
        have next : min (n + 1) fs.metadata.numDentries = n + 1 := by omega
        rw [position] at desc
        obtain ⟨_,_,delivered,_⟩ := fsRead_entry initialised desc more (named n more) buf asked
        rw [delivered] at read
        cases read
        simp [next]
      · have past : fs.metadata.numDentries ≤ min n fs.metadata.numDentries := by omega
        have stays : min (n + 1) fs.metadata.numDentries = min n fs.metadata.numDentries := by omega
        rw [fsRead_past desc past] at read
        cases read
        rw [stays]
        exact desc
  · have inUse : InUse (fdsOf k i) := by
      rw [desc]
      simp only [InUse,dirAt]
      decide
    refine ⟨n,?_,?_⟩
    · rw [doCall_frame inUse (lists_fair lists) on done]
      exact desc
    · simp [readsOn,on,← count]

theorem run_listing (initialised : Initialised fs) (named : ∀ e, e < fs.metadata.numDentries → nameOf fs e ≠ [])
    (inside : i < maxOpenFiles) {s last : Kernel × List Done} {calls : List Call} (lists : ∀ call ∈ calls, Lists i call)
    (listing : ∃ n, Listing fs i n s) (ran : run (callStep fs) s calls = .ok last) : ∃ n, Listing fs i n last := by
  have keeps : ∀ s call t, Lists i call → (∃ n, Listing fs i n s) → callStep fs s call = .ok t →
      ∃ n, Listing fs i n t :=
    fun _ _ _ lists listing stepped => call_listing initialised named inside lists listing stepped
  exact run_invariant_on keeps lists listing ran

/-- The descriptor that `open` stores for a directory is at its first entry. -/
theorem opened_listing {k k' : Kernel} {filename : Nat → UInt8} {dentry : Dentry}
    (found : readDentryByName fs filename = some dentry) (directory : dentry.filetype = dirFileType)
    (opened : sysOpen fs k filename = ((i : Int),k')) : i < maxOpenFiles ∧ Listing fs i 0 (k',[]) := by
  obtain ⟨inside,rfl⟩ := sysOpen_stored found opened
  refine ⟨inside.2,?_,rfl⟩
  simp [descFor,dirAt,directory,rtcFileType,dirFileType,normalFileType]

end

/-- Whatever a process does after it opened a directory, as long as it keeps the
    descriptor, the next read of it delivers the entry whose number is that of
    the reads before. After the last entry a read returns 0 and changes neither
    the buffer nor the position. -/
theorem reads_list_directory {fs : Fs} (initialised : Initialised fs)
    (named : ∀ e, e < fs.metadata.numDentries → nameOf fs e ≠ []) {k k' last : Kernel} {filename : Nat → UInt8}
    {dentry : Dentry} {i : Nat} {calls : List Call} {log : List Done}
    (found : readDentryByName fs filename = some dentry) (directory : dentry.filetype = dirFileType)
    (opened : sysOpen fs k filename = ((i : Int),k')) (lists : ∀ call ∈ calls, Lists i call)
    (ran : run (callStep fs) (k',[]) calls = .ok (last,log)) :
    ∀ address buf nbytes line, address ≠ 0 → 1 ≤ nbytes → ∃ value after buf',
      sysRead fs last i address buf nbytes line = .ok (value,after,buf') ∧
      ((readsOn i log).length < fs.metadata.numDentries → Delivers fs (readsOn i log).length nbytes value buf') ∧
      (fs.metadata.numDentries ≤ (readsOn i log).length →
        value = 0 ∧ buf' = buf ∧ (fdsOf after i).pos = (fdsOf last i).pos) := by
  intro address buf nbytes line valid asked
  obtain ⟨inside,start⟩ := opened_listing found directory opened
  obtain ⟨n,desc,count⟩ := run_listing initialised named inside lists ⟨0,start⟩ ran
  simp only at desc count
  rw [count,sysRead_dir inside desc valid]
  by_cases more : n < fs.metadata.numDentries
  · have position : min n fs.metadata.numDentries = n := by omega
    rw [position] at desc
    obtain ⟨value,after,read,delivers⟩ := fsRead_entry initialised desc more (named n more) buf asked
    exact ⟨value,_,after,read,fun _ => delivers,fun past => absurd more (Nat.not_lt.mpr past)⟩
  · have past : fs.metadata.numDentries ≤ min n fs.metadata.numDentries := by omega
    exact ⟨0,last,buf,fsRead_past desc past buf nbytes,fun more' => absurd more' more,fun _ => ⟨rfl,rfl,rfl⟩⟩

theorem listFs_named : ∀ e, e < listFs.metadata.numDentries → nameOf listFs e ≠ [] := by
  have two : listFs.metadata.numDentries = 2 := by decide
  rw [two]
  intro e inside
  have cases : e = 0 ∨ e = 1 := by omega
  rcases cases with rfl | rfl <;> decide

/-- The second read of the directory `.`, after one of a single byte, delivers
    its own name. -/
theorem reads_list_directory_list : ∃ last log value after buf,
    run (callStep listFs) ((sysOpen listFs default (padded 0 [46])).2,[]) [.read 2 1 (fun _ => 0) 1 [],.close 3] =
      .ok (last,log) ∧
    sysRead listFs last 2 1 (fun _ => 0) 33 [] = .ok (value,after,buf) ∧ Delivers listFs 1 33 value buf := by
  have opened : sysOpen listFs default (padded 0 [46]) = (((2 : Nat) : Int),_) := rfl
  have found : readDentryByName listFs (padded 0 [46]) = some (entry listFs 1) := by decide
  have lists : ∀ call ∈ [Call.read 2 1 (fun _ => 0) 1 [],.close 3], Lists 2 call := by
    intro call among
    simp only [List.mem_cons,List.not_mem_nil,or_false] at among
    rcases among with rfl | rfl <;> simp [Lists]
  have ran : run (callStep listFs) ((sysOpen listFs default (padded 0 [46])).2,[])
      [.read 2 1 (fun _ => 0) 1 [],.close 3] = .ok (_,_) := rfl
  obtain ⟨value,after,buf,read,delivers,_⟩ := reads_list_directory ⟨_,_,_,rfl⟩ listFs_named found (by decide) opened
    lists ran 1 (fun _ => 0) 33 [] (by decide) (by decide)
  exact ⟨_,_,value,after,buf,ran,read,delivers (by decide)⟩

end MazeOS.DirectoryReads
