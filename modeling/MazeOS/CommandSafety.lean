import MazeOS.Admission
import MazeOS.NameLookup

/-!
The loops of `execute` on every command. A command is a NUL-terminated string
in the page of a process. The loops read nothing but the string
(`parse_local`). They end, and store inside their arrays, unless the first
65536 bytes are spaces or there are 128 bytes of arguments; and a first word of
more than 32 bytes starts a program if its first 32 bytes name one
(`parser_safe_iff`).
-/
namespace MazeOS.CommandSafety
open MazeOS.Runs MazeOS.Bytes MazeOS.Strings MazeOS.Faults MazeOS.Filesystem MazeOS.ReadData MazeOS.NameLookup
  MazeOS.State MazeOS.Display MazeOS.Process MazeOS.Syscalls MazeOS.Terminal MazeOS.Steps MazeOS.ProgramLoad
  MazeOS.Commands MazeOS.Admission

/-- The first word of a string. -/
def wordOf (s : List UInt8) : List UInt8 := s.takeWhile fun c => ¬ WordEnds c

/-- What the loops have stored lies inside their arrays, and so does the copy of
    the arguments in the control block. The bytes that they copy are no NUL; the
    one that they store is behind the arguments. -/
structure Contained (parsed : Parsed) : Prop where
  filename : ∀ i, filenameSize ≤ i → parsed.filename i = 0
  args : ∀ i, argsLength ≤ i → parsed.args i = 0
  terminator : parsed.argsLength < argsLength
  block : ∀ pid parent i, argsLength ≤ i → (newPcb pid parent parsed).args i = 0

/-- The command is split without harm. -/
structure Safe (fs : Fs) (fuel : Nat) (k : Kernel) (command : Command) (s : List UInt8) : Prop where
  ends : ∃ parsed, parseCommand fuel command.bytes = .ok parsed
  stores : ∀ parsed, parseCommand fuel command.bytes = .ok parsed → Contained parsed
  /-- Nothing but the bytes of the string decides what is read. -/
  reads : ∀ other, (∀ i, i ≤ s.length → i < 2 ^ 16 → other i = command.bytes i) →
    parseCommand fuel other = parseCommand fuel command.bytes
  /-- A program starts only by its whole name. -/
  whole : ∀ eip after, Syscalls.execute fs fuel k command = .ok (.started eip after) → (wordOf s).length ≤ filenameSize

section
variable {command other : Nat → UInt8} {s : List UInt8} {fuel : Nat}

theorem holds_begins (holds : Holds 0 command s) : Begins command (wordOf s) := by
  have within : (wordOf s).length ≤ s.length := (List.takeWhile_prefix _).length_le
  refine ⟨?_,?_,?_⟩
  · intro c among
    simpa using List.mem_takeWhile_imp among
  · intro i inside
    rw [holds.chars i (by omega)]
    exact ((List.takeWhile_prefix _).getElem inside).symm
  · by_cases more : (wordOf s).length < s.length
    · have here := List.getElem?_eq_getElem more
      rw [← holds.chars _ more] at here
      simpa using takeWhile_stops _ here
    · have index : (wordOf s).length = s.length := by omega
      rw [index,holds.ends]
      exact .inr (.inr rfl)

/-! ### What the loops store -/

/-- What the loops leave when they end. -/
theorem parse_ok_split (enough : 2 ^ 16 ≤ fuel) {parsed : Parsed} (parses : parseCommand fuel command = .ok parsed) :
    ∃ w n count kept, Starts command w n ∧ Takes command (w + n) count kept ∧ kept < argsLength ∧
      parsed = ⟨copyInto (fun _ => 0) 0 command w,argsArray command (w + n) count kept,kept⟩ := by
  obtain ⟨other,_⟩ := (parse_ok_iff enough).mp ⟨parsed,parses⟩
  obtain ⟨w,n,count,kept,starts,takes⟩ := split_exists other
  rw [split_parse starts takes enough] at parses
  by_cases short : kept < argsLength
  · rw [if_pos short] at parses
    exact ⟨w,n,count,kept,starts,takes,short,(Except.ok.inj parses).symm⟩
  · rw [if_neg short] at parses
    cases parses

theorem parse_contained (enough : 2 ^ 16 ≤ fuel) {parsed : Parsed} (parses : parseCommand fuel command = .ok parsed) :
    Contained parsed := by
  obtain ⟨w,n,count,kept,starts,takes,short,rfl⟩ := parse_ok_split enough parses
  have word := starts.short
  have within := takes.within
  have args : ∀ i, argsLength ≤ i → argsArray command (w + n) count kept i = 0 := by
    intro i outside
    rw [argsArray,Function.update_of_ne (by omega),copyInto_outside (by omega)]
  refine ⟨?_,args,short,?_⟩
  · intro i outside
    have beyond : ¬ (0 ≤ i ∧ i < 0 + w) := by omega
    show copyInto (fun _ => 0) 0 command w i = 0
    rw [copyInto_outside beyond]
  · intro pid parent i outside
    have beyond : ¬ (0 ≤ i ∧ i < 0 + (kept + 1)) := by omega
    simp only [newPcb]
    split
    · rw [copyInto_outside beyond]
    · rfl

/-! ### What the loops read -/

/-- The end of the string stops every loop. -/
theorem starts_within (holds : Holds 0 command s) {w n : Nat} (starts : Starts command w n) :
    w ≤ s.length ∧ (s.length < 2 ^ 16 → w + n ≤ s.length) := by
  have word : w ≤ s.length := by
    by_contra beyond
    refine starts.word s.length (by omega) ?_
    rw [holds.ends]
    exact .inr (.inr rfl)
  refine ⟨word,fun small => ?_⟩
  by_contra beyond
  have here := starts.spaces (s.length - w) (by omega)
  have index : (w + (s.length - w)) % 2 ^ 16 = s.length := by omega
  rw [index,holds.ends] at here
  cases here

theorem takes_within (holds : Holds 0 command s) {start count kept : Nat} (takes : Takes command start count kept)
    (small : s.length < 2 ^ 16) (before : start ≤ s.length) : start + count ≤ s.length := by
  by_contra beyond
  refine takes.inside (s.length - start) (by omega) ?_
  have index : (start + (s.length - start)) % 2 ^ 16 = s.length := by omega
  rw [index,holds.ends]
  exact .inr rfl

/-- The loops read only the string, and of that only the first 65536 bytes. -/
theorem parse_local (holds : Holds 0 command s) (same : ∀ i, i ≤ s.length → i < 2 ^ 16 → other i = command i)
    (enough : 2 ^ 16 ≤ fuel) : parseCommand fuel other = parseCommand fuel command := by
  have same' : ∀ j, (s.length < 2 ^ 16 → j ≤ s.length) → other (j % 2 ^ 16) = command (j % 2 ^ 16) := by
    intro j within
    refine same _ ?_ (Nat.mod_lt _ (by decide))
    by_cases small : s.length < 2 ^ 16
    · have := within small
      omega
    · omega
  by_cases spaces : ∀ i, i < 2 ^ 16 → command i = space
  · have long : 2 ^ 16 ≤ s.length := by
      by_contra small
      have here := spaces s.length (by omega)
      rw [holds.ends] at here
      cases here
    have spaces' : ∀ i, i < 2 ^ 16 → other i = space := by
      intro i inside
      rw [same i (by omega) inside]
      exact spaces i inside
    rw [parse_diverges spaces,parse_diverges spaces']
  · -- The same places stop the loops in the other command.
    obtain ⟨w,n,count,kept,starts,takes⟩ := split_exists (by simpa using spaces)
    obtain ⟨word,gap⟩ := starts_within holds starts
    have body := fun small => takes_within holds takes small (gap small)
    have short : w ≤ 32 := starts.short
    have first : ∀ i, i ≤ w → other i = command i := fun i before => same i (by omega) (by omega)
    have spaced : ∀ j, j ≤ n → other ((w + j) % 2 ^ 16) = command ((w + j) % 2 ^ 16) := fun j before =>
      same' _ fun small => Nat.le_trans (Nat.add_le_add_left before w) (gap small)
    have taken : ∀ j, j ≤ count → other ((w + n + j) % 2 ^ 16) = command ((w + n + j) % 2 ^ 16) := fun j before =>
      same' _ fun small => Nat.le_trans (Nat.add_le_add_left before (w + n)) (body small)
    have filename : copyInto (fun _ => 0) 0 other w = copyInto (fun _ => 0) 0 command w :=
      copyInto_congr _ 0 fun i inside => first i (Nat.le_of_lt inside)
    have args : argsArray other (w + n) count kept = argsArray command (w + n) count kept := by
      rw [argsArray,argsArray,copyInto_congr _ 0 fun j inside => taken j (Nat.le_of_lt inside)]
    rw [split_parse starts takes enough,split_parse (starts_congr starts first spaced) (takes_congr takes taken) enough,
      filename,args]

end

/-! ### When a command is safe -/

/-- A command in the page of a process is safe exactly if not all of its first
    65536 bytes are spaces, its arguments are fewer than 128 bytes, and its first
    word has at most 32 bytes or these start no program. -/
theorem parser_safe_iff {fs : Fs} {fuel : Nat} {k : Kernel} {command : Command} {s : List UInt8}
    (holds : Holds 0 command.bytes s) (low : _128MB ≤ command.address)
    (high : command.address + s.length < _128MB + _4MB) (enough : 2 ^ 16 ≤ fuel) :
    Safe fs fuel k command s ↔ (∃ i, i < 2 ^ 16 ∧ command.bytes i ≠ space) ∧ ¬ ArgsFull command.bytes ∧
      ((wordOf s).length ≤ filenameSize ∨ ∀ dentry,
        readDentryByName fs (padded 0 ((wordOf s).take filenameSize)) = some dentry → ¬ Startable fs k dentry) := by
  have accepted : Accepted command.address := .inl ⟨low,by omega⟩
  have named : ∀ parsed, parseCommand fuel command.bytes = .ok parsed →
      parsed.filename = padded 0 ((wordOf s).take filenameSize) := fun _ parses => filename_eq (holds_begins holds) parses
  constructor
  · intro safe
    obtain ⟨parsed,parses⟩ := safe.ends
    obtain ⟨other,room⟩ := (parse_ok_iff enough).mp safe.ends
    refine ⟨other,room,?_⟩
    by_cases short : (wordOf s).length ≤ filenameSize
    · exact .inl short
    · refine .inr fun dentry found startable => ?_
      rw [← named parsed parses] at found
      obtain ⟨eip,after,executed⟩ := (starts_iff accepted parses (by omega)).mpr ⟨dentry,found,startable⟩
      exact short (safe.whole eip after executed)
  · rintro ⟨other,room,fits⟩
    obtain ⟨parsed,parses⟩ := (parse_ok_iff enough).mpr ⟨other,room⟩
    refine ⟨⟨parsed,parses⟩,fun _ => parse_contained enough,fun _ same => parse_local holds same enough,?_⟩
    intro eip after executed
    obtain ⟨dentry,found,startable⟩ := (starts_iff accepted parses (by omega)).mp ⟨eip,after,executed⟩
    rw [named parsed parses] at found
    rcases fits with short | none
    · exact short
    · exact absurd startable (none dentry found)

/-- The command `shell x` of a process. -/
def argCommand : Command := ⟨_128MB,padded 0 [115,104,101,108,108,32,120]⟩

theorem parser_safe_shell : Safe shellFs (2 ^ 16) (boot default) argCommand [115,104,101,108,108,32,120] := by
  have typed : Typed argCommand.bytes [115,104,101,108,108,32,120] :=
    ⟨List.forall_iff_forall_mem.mp (by decide),fun _ inside => padded_inside inside,.inr rfl⟩
  obtain ⟨parsed,parses,_⟩ := parse_line typed (by decide) (by decide) (by decide) (Nat.le_refl (2 ^ 16))
  have loops := (parse_ok_iff (Nat.le_refl (2 ^ 16))).mp ⟨parsed,parses⟩
  exact (parser_safe_iff (holds_padded (by decide)) (by decide) (by decide) (Nat.le_refl _)).mpr
    ⟨loops.1,loops.2,.inl (by decide)⟩

/-! ### Commands that are not -/

/-- 65536 spaces. -/
def spacesCommand : Command := ⟨_128MB,padded 0 (List.replicate (2 ^ 16) space)⟩

/-- A letter, a space and 128 letters. -/
def fullLine : List UInt8 := [97,space] ++ List.replicate 128 97

def fullCommand : Command := ⟨_128MB,padded 0 fullLine⟩

/-- A letter more than the name of the program in `listFs`. -/
def longCommand : Command := ⟨_128MB,padded 0 (List.replicate 33 97)⟩

theorem spaces_diverge (fuel : Nat) : parseCommand fuel spacesCommand.bytes = .error .diverges := by
  refine parse_diverges (fun i inside => ?_) fuel
  have within : i < (List.replicate (2 ^ 16) space).length := by
    rw [List.length_replicate]
    exact inside
  exact (padded_inside within).trans (List.getElem_replicate within)

theorem full_overflows : parseCommand (2 ^ 16) fullCommand.bytes = .error (.args argsLength) := by
  refine parse_overflows ⟨1,1,⟨by decide,by decide,by decide,by decide,by decide,by decide⟩,?_,by decide⟩ (Nat.le_refl _)
  decide

theorem long_starts : ∃ eip after,
    Syscalls.execute listFs (2 ^ 16) (boot default) longCommand = .ok (.started eip after) := by
  have starts : Starts longCommand.bytes 32 0 := ⟨by decide,by decide,by decide,by decide,by decide,by decide⟩
  have takes : Takes longCommand.bytes (32 + 0) 1 1 := ⟨by decide,by decide,by decide,by decide,by decide,by decide⟩
  have parses := (split_parse starts takes (Nat.le_refl (2 ^ 16))).trans (if_pos (by decide))
  refine (starts_iff (by decide) parses (by decide)).mpr ⟨entry listFs 0,?_,?_⟩
  · rw [filename_eq (holds_begins (holds_padded (by decide))) parses]
    decide
  · exact ⟨⟨by decide,by decide,by decide⟩,by decide,by decide,lowestFree_exists (boot_free default),
      boot_roomy default (boot_free default)⟩

theorem parser_safe_fail : (∀ fuel, parseCommand fuel spacesCommand.bytes = .error .diverges) ∧
    parseCommand (2 ^ 16) fullCommand.bytes = .error (.args argsLength) ∧
    (∃ eip after, Syscalls.execute listFs (2 ^ 16) (boot default) longCommand = .ok (.started eip after)) ∧
    ¬ (∀ fs k command s, Holds 0 command.bytes s → _128MB ≤ command.address →
      command.address + s.length < _128MB + _4MB → Safe fs (2 ^ 16) k command s) := by
  refine ⟨spaces_diverge,full_overflows,long_starts,fun always => ?_⟩
  have size : fullLine.length = 130 := by rw [fullLine,List.length_append,List.length_replicate]; rfl
  have room : fullCommand.address + fullLine.length < _128MB + _4MB := by
    rw [size]
    decide
  have safe := always shellFs (boot default) fullCommand fullLine (holds_padded (by decide)) (by decide) room
  obtain ⟨parsed,parses⟩ := safe.ends
  rw [full_overflows] at parses
  cases parses

end MazeOS.CommandSafety
