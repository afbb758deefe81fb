import MazeOS.LineEditor

/-!
What a call of `keyboard_read` delivers. A monitor beside the machine (`session`)
notes the keys that are handled for a terminal since its reader has set
`read_ack`. Until a line has ended the buffer holds the text of the editor, then
the line, which is delivered (`Phase`), unless a refused terminal switch wakes
the reader before that, or a key falls into one of two gaps: the line ends before
the reader has cleared `ack`, or a key changes the line after it has ended and
before it is copied (`Tolerates`).
-/
namespace MazeOS.LineReads
open MazeOS.Runs MazeOS.Bytes MazeOS.Faults MazeOS.Filesystem MazeOS.State MazeOS.Display MazeOS.Process MazeOS.Files
  MazeOS.Terminal MazeOS.Steps MazeOS.Boot MazeOS.Keyboard MazeOS.KeyboardRead MazeOS.Sessions MazeOS.LineBuffer
  MazeOS.Handshake MazeOS.LineEditor

/-! ### Wakes and gaps -/

/-- The input ends an open line. -/
def Ends (line : Line) : Input → Prop
  | .refused => False
  | .stroke (.control _) => True
  | .stroke stroke => Completes line stroke

/-- The input changes the characters of a line. -/
def Disturbs (line : Line) : Input → Prop
  | .refused => False
  | .stroke .backspace => line.bufferSize ≠ 0 ∧ line.readAck = true
  | .stroke .enter => line.readAck = true
  | .stroke .tab => (line.bufferSize + 4 < maxBufferSize - 2 ∧ line.readAck = true) ∨ maxBufferSize - 2 ≤ line.bufferSize
  | .stroke (.char _) => line.readAck = true ∨ maxBufferSize - 2 ≤ line.bufferSize
  | .stroke .dead => maxBufferSize - 2 ≤ line.bufferSize
  | .stroke (.control _) => True
  | .stroke (.outside _) => False

/-- No line ends before `ack` is cleared, no switch is refused while the line has
    not ended, and once it has ended it stays as it is until it is copied. -/
def Tolerates (line : Line) (r : Reader) (input : Input) : Prop :=
  match r.place with
  | .clearAck => ¬ Ends line input
  | .wait => if line.ack then ¬ Disturbs line input else input ≠ .refused
  | .resetAck => ¬ Disturbs line input
  | .resetReadAck => ¬ Disturbs line input
  | .disable => ¬ Disturbs line input
  | .measure => ¬ Disturbs line input
  | .copy => ¬ Disturbs line input
  | _ => True

/-- The inputs that are handled for a terminal are tolerated. -/
def Undisturbed (t : Nat) (m : Machine) (e : Event) : Prop :=
  ∀ input, m.kernel.currTerminal = t → handled m e = some input → Tolerates (m.line t) (m.readers t) input

def keyOf : Input → Option Stroke
  | .stroke stroke => some stroke
  | .refused => none

/-- Before a reader has set `read_ack` nothing is noted. -/
def noted : Place → List Stroke → List Stroke
  | .idle, _ => []
  | .setReadAck, _ => []
  | _, keys => keys

/-- The keys handled for a terminal since its reader has set `read_ack`. -/
def session (t : Nat) (m : Machine) (e : Event) (_ : Machine) (keys : List Stroke) : List Stroke :=
  noted (m.readers t).place
    (if m.kernel.currTerminal = t then keys ++ ((handled m e).bind keyOf).toList else keys)

/-! ### What an input leaves alone -/

section
variable {line after : Line}

theorem typeChar_readAck {c : UInt8} (typed : typeChar line c = .ok after) : after.readAck = line.readAck := by
  rcases typeChar_eq_ok typed with ⟨_,rfl⟩ | ⟨_,rfl⟩
  · rfl
  · rfl

theorem spaces_readAck (n : Nat) (typed : spaces n line = .ok after) : after.readAck = line.readAck := by
  induction n generalizing line with
  | zero => cases typed; rfl
  | succ n ih =>
    obtain ⟨between,first,rest⟩ := bind_eq_ok.mp typed
    exact (ih rest).trans (typeChar_readAck first)

theorem fill_readAck (filled : fill line = .ok after) : after.readAck = line.readAck := by
  rcases fill_eq_ok filled with ⟨_,rfl⟩ | ⟨_,rfl⟩
  · rfl
  · rfl

/-- No input opens or closes a line. -/
theorem input_readAck {input : Input} (made : inputLine line input = .ok after) : after.readAck = line.readAck := by
  cases input with
  | refused =>
    have woken : wake line = after := Except.ok.inj made
    rw [← woken]
    rfl
  | stroke stroke =>
    cases stroke with
    | backspace =>
      simp only [inputLine,strokeLine] at made
      split at made
      · rename_i both
        exact (erase_content both.1 made).2.1
      · cases made; rfl
    | enter =>
      obtain ⟨typed,types,woken⟩ := bind_eq_ok.mp made
      have reads : typed.readAck = line.readAck := typeChar_readAck types
      cases woken
      exact reads
    | tab =>
      obtain ⟨spaced,types,filled⟩ := bind_eq_ok.mp made
      rw [fill_readAck filled]
      split at types
      · exact spaces_readAck 4 types
      · cases types; rfl
    | char c =>
      obtain ⟨typed,types,filled⟩ := bind_eq_ok.mp made
      exact (fill_readAck filled).trans (typeChar_readAck types)
    | dead => exact fill_readAck made
    | control code => cases made; rfl
    | outside scan1 => cases made

/-- An input that does not disturb a line at most wakes its reader. -/
theorem input_undisturbed {input : Input} (calm : ¬ Disturbs line input) (made : inputLine line input = .ok after) :
    after = line ∨ after = wake line := by
  cases input with
  | refused => exact .inr (Except.ok.inj made).symm
  | stroke stroke =>
    cases stroke with
    | backspace =>
      have stays : ¬ (line.bufferSize ≠ 0 ∧ line.readAck = true) := calm
      simp only [inputLine,strokeLine] at made
      rw [if_neg stays] at made
      cases made
      exact .inl rfl
    | enter =>
      obtain ⟨typed,types,woken⟩ := bind_eq_ok.mp made
      rw [typeChar_closed newlineChar (Bool.not_eq_true _ ▸ calm)] at types
      cases types
      cases woken
      exact .inr rfl
    | tab =>
      obtain ⟨noSpaces,short⟩ := not_or.mp calm
      obtain ⟨spaced,types,filled⟩ := bind_eq_ok.mp made
      have same : spaced = line := by
        split at types
        · rename_i room
          have closed : line.readAck = false := by
            cases reads : line.readAck with
            | true => exact absurd ⟨room,reads⟩ noSpaces
            | false => rfl
          simp only [spaces,typeChar_closed space closed,ok_bind] at types
          exact (Except.ok.inj types).symm
        · exact (Except.ok.inj types).symm
      rw [same,fill_short (Nat.lt_of_not_le short)] at filled
      exact .inl (Except.ok.inj filled).symm
    | char c =>
      obtain ⟨closed,short⟩ := not_or.mp calm
      obtain ⟨typed,types,filled⟩ := bind_eq_ok.mp made
      rw [typeChar_closed c (Bool.not_eq_true _ ▸ closed)] at types
      cases types
      rw [fill_short (Nat.lt_of_not_le short)] at filled
      exact .inl (Except.ok.inj filled).symm
    | dead =>
      simp only [inputLine,strokeLine,fill_short (Nat.lt_of_not_le calm)] at made
      exact .inl (Except.ok.inj made).symm
    | control code => exact absurd trivial calm
    | outside scan1 => cases made

end

/-! ### The protocol of a reader -/

/-- A line is open from the statement that sets `read_ack` to the one that
    clears it. -/
def Reading : Place → Prop
  | .clearAck => True
  | .wait => True
  | .resetAck => True
  | .resetReadAck => True
  | _ => False

/-- `read_ack` says whether a line is open. -/
def Protocol (m : Machine) : Prop :=
  ∀ t, t < maxTerminals → ((m.line t).readAck = true ↔ Reading (m.readers t).place)

theorem statement_protocol {line line' : Line} {r r' : Reader} (goes : statement line r = .ok (line',r'))
    (protocol : line.readAck = true ↔ Reading r.place) : line'.readAck = true ↔ Reading r'.place := by
  simp only [statement] at goes
  split at goes
  case h_1 => cases goes; exact protocol
  case h_4 place =>
    cases goes
    rw [place] at protocol
    simp only
    split <;> exact protocol
  case h_9 place =>
    rw [place] at protocol
    split at goes
    · cases goes; exact protocol
    · cases goes
  all_goals rename_i place; rw [place] at protocol; cases goes; first | exact protocol | simp [Reading]

theorem step_protocol {fs : Fs} {m m' : Machine} {e : Event} (protocol : Protocol m)
    (stepped : KeyboardRead.step fs m e = .ok m') : Protocol m' := by
  intro t inside
  have before := protocol t inside
  cases step_happens stepped t with
  | nothing _ _ line reader => rw [line,reader]; exact before
  | call nbytes _ idle line reader =>
    rw [line,reader]
    rw [idle] at before
    exact before
  | read _ _ goes => exact statement_protocol goes before
  | input input _ _ edits reader => rw [reader,input_readAck edits]; exact before

/-- In every reachable machine `read_ack` says whether a line is open. -/
theorem reachable_protocol {fs : Fs} {m : Machine} (reached : Reachable (KeyboardRead.step fs) (Booted fs) m) :
    Protocol m := by
  refine reachable_invariant ?_ (fun _ _ _ protocol stepped => step_protocol protocol stepped) reached
  intro m booted t inside
  rw [booted_line booted inside,booted.idle t]
  exact ⟨fun reads => (by cases reads),fun reading => absurd reading id⟩

/-! ### The phases of a call -/

/-- A line without characters that is closed. -/
def Blank (line : Line) : Prop := line.bufferSize = 0 ∧ line.readAck = false

/-- The buffer holds the line that has ended. -/
def Complete (keys : List Stroke) (line : Line) : Prop := editor keys = .ended (content line)

/-- The line that has ended is delivered, or as much of it as was asked for. -/
def Delivers (keys : List Stroke) (r : Reader) : Prop :=
  ∃ line, editor keys = .ended line ∧ r.delivered = line.take r.nbytes ∧ r.size = r.delivered.length

/-- What holds at each statement of a call. -/
def Phase (keys : List Stroke) (line : Line) (r : Reader) : Prop :=
  match r.place with
  | .idle => Blank line
  | .setReadAck => Blank line
  | .clearAck => line.readAck = true ∧ editor keys = .editing (content line)
  | .wait => line.readAck = true ∧
      if line.ack then Complete keys line else editor keys = .editing (content line)
  | .resetAck => line.readAck = true ∧ Complete keys line
  | .resetReadAck => line.readAck = true ∧ Complete keys line
  | .disable => line.readAck = false ∧ Complete keys line
  | .measure => line.readAck = false ∧ Complete keys line
  | .copy => line.readAck = false ∧ Complete keys line ∧ r.size = min r.nbytes line.bufferSize
  | .wipe => line.readAck = false ∧ Delivers keys r
  | .empty => line.readAck = false ∧ Delivers keys r
  | .enable => Blank line ∧ Delivers keys r
  | .leave => Blank line ∧ Delivers keys r

section
variable {keys : List Stroke} {input : Input} {line after : Line} {r : Reader}

theorem blank_calm (blank : Blank line) (noControl : ∀ code, input ≠ .stroke (.control code)) :
    ¬ Disturbs line input := by
  obtain ⟨empty,closed⟩ := blank
  cases input with
  | refused => exact id
  | stroke stroke =>
    cases stroke with
    | control code => exact absurd rfl (noControl code)
    | _ => simp [Disturbs,empty,closed,maxBufferSize]

theorem blank_input (blank : Blank line) (noControl : ∀ code, input ≠ .stroke (.control code))
    (made : inputLine line input = .ok after) : Blank after := by
  rcases input_undisturbed (blank_calm blank noControl) made with rfl | rfl
  · exact blank
  · exact blank

/-- A refused switch wakes the reader. -/
theorem refused_wakes (made : inputLine line .refused = .ok after) : after = wake line := (Except.ok.inj made).symm

/-- An input that leaves the line alone is no part of it. -/
theorem complete_input (complete : Complete keys line) (calm : ¬ Disturbs line input)
    (made : inputLine line input = .ok after) :
    Complete (keys ++ (keyOf input).toList) after ∧ (line.ack = true → after.ack = true) := by
  have ended : editor (keys ++ (keyOf input).toList) = .ended (content line) := editor_append complete _
  rcases input_undisturbed calm made with rfl | rfl
  · exact ⟨ended,id⟩
  · exact ⟨ended,fun _ => rfl⟩

theorem delivers_input (delivers : Delivers keys r) : Delivers (keys ++ (keyOf input).toList) r := by
  obtain ⟨line,ended,delivered,size⟩ := delivers
  exact ⟨line,editor_append ended _,delivered,size⟩

theorem editing_short (isKeys : ∀ stroke, stroke ∈ keys → IsKey stroke)
    (editing : editor keys = .editing (content line)) : line.bufferSize < maxBufferSize - 2 := by
  have well := editor_wellEdited isKeys
  rw [editing] at well
  rw [← content_length]
  exact well.1

/-- The text goes on when the stroke does not end the line. -/
theorem open_stays {stroke : Stroke} (reads : line.readAck = true) (goesOn : ¬ Ends line (.stroke stroke)) :
    ∃ text, feed (.editing (content line)) stroke = .editing text := by
  cases stroke with
  | enter => exact absurd reads goesOn
  | control code => exact absurd trivial goesOn
  | char c =>
    have room : ¬ maxBufferSize - 2 ≤ line.bufferSize + line.readAck.toNat := goesOn
    refine ⟨content line ++ [c],if_pos ?_⟩
    rw [List.length_append,content_length,List.length_singleton]
    rw [reads,Bool.toNat_true] at room
    omega
  | _ => exact ⟨_,rfl⟩

/-- An input keeps the phase of the call. -/
theorem phase_input (isKeys : ∀ stroke, stroke ∈ keys → IsKey stroke) (phase : Phase keys line r)
    (made : inputLine line input = .ok after) (tolerates : Tolerates line r input)
    (control : ∀ code, input = .stroke (.control code) → line.readAck = true) :
    Phase (keys ++ (keyOf input).toList) after r := by
  have reads := input_readAck made
  have closed : line.readAck = false → ∀ code, input ≠ .stroke (.control code) := by
    intro shut code same
    rw [control code same] at shut
    cases shut
  simp only [Phase] at phase ⊢
  simp only [Tolerates] at tolerates
  cases place : r.place with
  | idle => simp only [place] at phase ⊢; exact blank_input phase (closed phase.2) made
  | setReadAck => simp only [place] at phase ⊢; exact blank_input phase (closed phase.2) made
  | clearAck =>
    simp only [place] at phase tolerates ⊢
    obtain ⟨opened,editing⟩ := phase
    cases input with
    | refused =>
      rw [refused_wakes made,keyOf,Option.toList_none,List.append_nil]
      exact ⟨opened,editing⟩
    | stroke stroke =>
      have short := editing_short isKeys editing
      obtain ⟨text,goesOn⟩ := open_stays opened tolerates
      have shows := stroke_edits opened short made
      rw [show edit (content line) stroke = .editing text from goesOn] at shows
      refine ⟨shows.2.1,?_⟩
      rw [keyOf,Option.toList_some,editor_snoc,editing,goesOn,shows.1]
  | wait =>
    simp only [place] at phase tolerates ⊢
    obtain ⟨opened,progress⟩ := phase
    refine ⟨reads.trans opened,?_⟩
    cases acked : line.ack with
    | true =>
      rw [if_pos acked] at progress tolerates
      obtain ⟨complete,stays⟩ := complete_input progress tolerates made
      rw [if_pos (stays acked)]
      exact complete
    | false =>
      have notYet : ¬ line.ack = true := by rw [acked]; simp
      rw [if_neg notYet] at progress tolerates
      cases input with
      | refused => exact absurd rfl tolerates
      | stroke stroke =>
        have shows := stroke_edits opened (editing_short isKeys progress) made
        rw [Complete,keyOf,Option.toList_some,editor_snoc,progress,feed]
        cases edited : edit (content line) stroke with
        | editing text =>
          rw [edited] at shows
          rw [if_neg (by rw [shows.2.2,acked]; simp),shows.1]
        | ended text =>
          rw [edited] at shows
          rw [if_pos shows.2.2,shows.1]
  | resetAck =>
    simp only [place] at phase tolerates ⊢
    exact ⟨reads.trans phase.1,(complete_input phase.2 tolerates made).1⟩
  | resetReadAck =>
    simp only [place] at phase tolerates ⊢
    exact ⟨reads.trans phase.1,(complete_input phase.2 tolerates made).1⟩
  | disable =>
    simp only [place] at phase tolerates ⊢
    exact ⟨reads.trans phase.1,(complete_input phase.2 tolerates made).1⟩
  | measure =>
    simp only [place] at phase tolerates ⊢
    exact ⟨reads.trans phase.1,(complete_input phase.2 tolerates made).1⟩
  | copy =>
    simp only [place] at phase tolerates ⊢
    obtain ⟨shut,complete,size⟩ := phase
    refine ⟨reads.trans shut,(complete_input complete tolerates made).1,?_⟩
    rcases input_undisturbed tolerates made with rfl | rfl
    · exact size
    · exact size
  | wipe => simp only [place] at phase ⊢; exact ⟨reads.trans phase.1,delivers_input phase.2⟩
  | empty => simp only [place] at phase ⊢; exact ⟨reads.trans phase.1,delivers_input phase.2⟩
  | enable =>
    simp only [place] at phase ⊢
    exact ⟨blank_input phase.1 (closed phase.1.2) made,delivers_input phase.2⟩
  | leave =>
    simp only [place] at phase ⊢
    exact ⟨blank_input phase.1 (closed phase.1.2) made,delivers_input phase.2⟩

theorem blank_content (blank : Blank line) : content line = [] :=
  List.eq_nil_of_length_eq_zero ((content_length line).trans blank.1)

/-- A statement leads to the next phase of the call. -/
theorem phase_statement {r' : Reader} (phase : Phase keys line r) (goes : statement line r = .ok (after,r')) :
    Phase (noted r.place keys) after r' := by
  simp only [statement] at goes
  simp only [Phase] at phase
  cases place : r.place with
  | idle =>
    simp only [place] at phase goes
    cases goes
    simp only [Phase,place]
    exact phase
  | setReadAck =>
    simp only [place] at phase goes
    cases goes
    have nothing : content line = [] := blank_content phase
    refine ⟨rfl,?_⟩
    rw [noted,editor_nil,← nothing]
    rfl
  | clearAck => simp only [place] at phase goes; cases goes; exact phase
  | wait =>
    simp only [place] at phase goes
    cases goes
    cases acked : line.ack with
    | true =>
      rw [if_pos acked] at phase
      exact phase
    | false =>
      simp only [Bool.false_eq_true,if_false,Phase,noted]
      exact phase
  | resetAck => simp only [place] at phase goes; cases goes; exact phase
  | resetReadAck => simp only [place] at phase goes; cases goes; exact ⟨rfl,phase.2⟩
  | disable => simp only [place] at phase goes; cases goes; exact phase
  | measure =>
    simp only [place] at phase goes
    cases goes
    refine ⟨phase.1,phase.2,?_⟩
    simp only
    split <;> omega
  | copy =>
    simp only [place] at phase goes
    obtain ⟨shut,complete,size⟩ := phase
    split at goes
    · cases goes
      have copied : taken line.buffer r.size = (content line).take r.nbytes := by
        rw [content,taken_take,size]
      exact ⟨shut,content line,complete,copied,(taken_length _ _).symm⟩
    · cases goes
  | wipe => simp only [place] at phase goes; cases goes; exact phase
  | empty => simp only [place] at phase goes; cases goes; exact ⟨⟨rfl,phase.1⟩,phase.2⟩
  | enable => simp only [place] at phase goes; cases goes; exact phase
  | leave => simp only [place] at phase goes; cases goes; exact phase.1

end

/-! ### Runs -/

section
variable {fs : Fs} {m m' : Machine} {e : Event} {t : Nat} {keys : List Stroke}

/-- A control code is taken only for an open line. -/
theorem handled_control {code : UInt8} (handles : handled m e = some (.stroke (.control code))) :
    (m.line m.kernel.currTerminal).readAck = true := by
  obtain ⟨c,c2,means⟩ := handled_stroke handles
  exact strokeOf_control means

theorem handled_key {stroke : Stroke} (handles : handled m e = some (.stroke stroke)) : IsKey stroke := by
  have plain := handled_plain handles
  cases stroke with
  | char c => exact plain
  | control code =>
    obtain ⟨c,c2,means⟩ := handled_stroke handles
    rcases strokeOf_cases means with ⟨_,control⟩ | pressed
    · have cases := controlStroke_cases control
      simp only [Stroke.control.injEq] at cases
      exact cases
    · exact absurd pressed.symm ((pressStroke_plain m.kernel.modifiers c).2 code)
  | _ => trivial

/-- The call of a terminal is in its phase, and the keys noted for it are those
    that can be handled. -/
def InPhase (t : Nat) (s : Machine × List Stroke) : Prop :=
  Phase s.2 (s.1.line t) (s.1.readers t) ∧ ∀ stroke, stroke ∈ s.2 → IsKey stroke

theorem noted_subset {place : Place} {stroke : Stroke} (member : stroke ∈ noted place keys) : stroke ∈ keys := by
  cases place with
  | idle => cases member
  | setReadAck => cases member
  | _ => exact member

theorem session_keys (m' : Machine) (isKeys : ∀ stroke, stroke ∈ keys → IsKey stroke) :
    ∀ stroke, stroke ∈ session t m e m' keys → IsKey stroke := by
  intro stroke member
  have member' := noted_subset member
  split at member'
  · rcases List.mem_append.mp member' with earlier | last
    · exact isKeys stroke earlier
    · obtain ⟨input,handles,key⟩ := Option.bind_eq_some_iff.mp (Option.mem_toList.mp last)
      cases input with
      | refused => cases key
      | stroke stroke => cases key; exact handled_key handles
  · exact isKeys stroke member'

/-- Before a line is opened it does not matter what was noted. -/
theorem phase_noted {line : Line} {r : Reader} (phase : Phase keys line r) : Phase (noted r.place keys) line r := by
  simp only [Phase] at phase ⊢
  cases place : r.place <;> simpa only [place,noted] using phase

theorem follows_step (follows : InPhase t (m,keys)) (undisturbed : Undisturbed t m e)
    (stepped : KeyboardRead.step fs m e = .ok m') : InPhase t (m',session t m e m' keys) := by
  obtain ⟨phase,isKeys⟩ := follows
  refine ⟨?_,session_keys m' isKeys⟩
  simp only at phase isKeys ⊢
  cases step_happens stepped t with
  | nothing unhandled _ line reader =>
    have same : (if m.kernel.currTerminal = t then keys ++ ((handled m e).bind keyOf).toList else keys) = keys := by
      split
      · rename_i active
        rw [unhandled active]
        simp
      · rfl
    rw [line,reader,session,same]
    exact phase_noted phase
  | call nbytes _ idle line reader =>
    simp only [Phase] at phase
    rw [idle] at phase
    rw [line,reader]
    exact phase
  | read event executing goes =>
    have same : (if m.kernel.currTerminal = t then keys ++ ((handled m e).bind keyOf).toList else keys) = keys := by
      subst event
      simp [handled]
    rw [session,same]
    exact phase_statement phase goes
  | input input active handles edits reader =>
    have control : ∀ code, input = .stroke (.control code) → (m.line t).readAck = true := by
      rintro code rfl
      rw [← active]
      exact handled_control handles
    have next := phase_input isKeys phase edits (undisturbed input active handles) control
    rw [session,if_pos active,handles,reader]
    exact phase_noted next

end

/-- A call of `keyboard_read` of a terminal for at least 128 bytes delivers one
    line: once it has returned, the editor has made of the keys handled since
    `read_ack` was set a line that has ended, and this line is what is
    delivered. -/
def OneLine (t : Nat) (s : Machine × List Stroke) : Prop :=
  (s.1.readers t).place = .leave → maxBufferSize ≤ (s.1.readers t).nbytes →
    editor s.2 = .ended (s.1.readers t).delivered ∧ (s.1.readers t).size = (s.1.readers t).delivered.length ∧
      IsLine (s.1.readers t).delivered

theorem inPhase_oneLine {t : Nat} {s : Machine × List Stroke} (inPhase : InPhase t s) : OneLine t s := by
  intro returns enough
  obtain ⟨phase,isKeys⟩ := inPhase
  simp only [Phase,returns] at phase
  obtain ⟨_,line,ended,delivered,size⟩ := phase
  have well := editor_wellEdited isKeys
  rw [ended] at well
  have whole : (s.1.readers t).delivered = line := by
    rw [delivered,List.take_of_length_le]
    exact Nat.le_trans (Nat.le_of_lt well.1) enough
  rw [whole] at size ⊢
  exact ⟨ended,size,well.2⟩

/-- In every run from a call of `keyboard_read` that finds an empty line, the
    call delivers one line, when every input that is handled for its terminal is
    tolerated. -/
theorem read_delivers {fs : Fs} {t : Nat} {m : Machine} {events : List Event}
    (reached : Reachable (KeyboardRead.step fs) (Booted fs) m) (inside : t < maxTerminals)
    (called : (m.readers t).place = .setReadAck) (empty : (m.line t).bufferSize = 0)
    (undisturbed : EachStep (KeyboardRead.step fs) (Undisturbed t) m events) :
    Throughout (watched (KeyboardRead.step fs) (session t)) (OneLine t) (m,[]) events := by
  have closed : (m.line t).readAck = false := by
    cases reads : (m.line t).readAck with
    | true =>
      have reading := (reachable_protocol reached t inside).mp reads
      rw [called] at reading
      exact absurd reading id
    | false => rfl
  have start : InPhase t (m,[]) := by
    refine ⟨?_,fun _ member => (by cases member)⟩
    simp only [Phase,called]
    exact ⟨empty,closed⟩
  refine throughout_mono (fun _ => inPhase_oneLine) (throughout_eachStep ?_ start (eachStep_watched undisturbed))
  rintro ⟨m,keys⟩ e ⟨m',keys'⟩ follows undisturbed stepped
  obtain ⟨taken,rfl⟩ := watched_eq_ok.mp stepped
  exact follows_step follows undisturbed taken

/-! ### A read of one line -/

/-- What is tolerated, as it is seen at the terminal. -/
def Tolerated (d : Desk) : Act → Prop
  | .key c => Tolerates d.line d.reader (.stroke (pressStroke noModifiers c))
  | .refused => Tolerates d.line d.reader .refused
  | _ => True

/-- A reader that waits tolerates every key. -/
theorem waiting_tolerates {d : Desk} {c : UInt8} (waits : d.reader.place = .wait) (goesOn : d.line.ack = false) :
    Tolerated d (.key c) := by
  unfold Tolerated Tolerates
  rw [waits]
  have notYet : ¬ d.line.ack = true := by rw [goesOn]; decide
  simp only [if_neg notYet]
  exact nofun

theorem tolerated_undisturbed {first : Kernel} {m : Machine} {d : Desk} {act : Act} (attended : Attended first m d)
    (possible : Possible first act) (tolerated : Tolerated d act) :
    Undisturbed first.currTerminal m act.event := by
  intro input _ handles
  rw [attended.line,attended.reader]
  cases act with
  | key c =>
    simp only [Act.event,handled,typed_stroke possible attended.modifiers] at handles
    split at handles
    · cases handles
    · cases handles
      exact tolerated
  | refused =>
    simp only [Act.event,handled] at handles
    split at handles
    · cases handles
      exact tolerated
    · cases handles
  | call nbytes => cases handles
  | read => cases handles

/-- The statements from the wait loop to the return. -/
def returning : List Act := List.replicate 9 .read

/-- The key A and Enter are pressed while the shell waits. -/
def typedLine : List Act := .read :: .read :: .key scanA :: .key enterKeycode :: returning

theorem typedLine_tolerated : EachStep deskStep Tolerated ⟨false,emptyLine,⟨.setReadAck,128,0,[]⟩⟩ typedLine := by
  refine ⟨trivial,?_⟩
  intro d₁ taken₁
  have same₁ : ⟨false,{ emptyLine with readAck := true },⟨.clearAck,128,0,[]⟩⟩ = d₁ := Except.ok.inj taken₁
  refine ⟨trivial,?_⟩
  intro d₂ taken₂
  rw [← same₁] at taken₂
  have same₂ : ⟨false,{ emptyLine with readAck := true },⟨.wait,128,0,[]⟩⟩ = d₂ := Except.ok.inj taken₂
  constructor
  · rw [← same₂]
    exact waiting_tolerates rfl rfl
  intro d₃ taken₃
  rw [← same₂] at taken₃
  have same₃ : ⟨false,⟨1,Function.update (fun _ => 0) 0 97,false,true⟩,⟨.wait,128,0,[]⟩⟩ = d₃ := Except.ok.inj taken₃
  constructor
  · rw [← same₃]
    exact waiting_tolerates rfl rfl
  intro d₄ _
  apply eachStep_of_forall
  intro act member d
  rw [List.eq_of_mem_replicate member]
  trivial

theorem read_delivers_shell : ∃ m m' : Machine, ∃ keys,
    run (watched (KeyboardRead.step ReadData.shellFs) (session 0)) (m,[]) (typedLine.map Act.event) = .ok (m',keys) ∧
    (m'.readers 0).place = .leave ∧ (m'.readers 0).delivered = [97,newlineChar] ∧
    Throughout (watched (KeyboardRead.step ReadData.shellFs) (session 0)) (OneLine 0) (m,[])
      (typedLine.map Act.event) := by
  obtain ⟨k,started⟩ := started_exists shellFs_image default
  have first := (started_crowd started).current
  obtain ⟨m,taken,desk⟩ : Follows k (.ok ⟨false,emptyLine,⟨.setReadAck,128,0,[]⟩⟩)
      (KeyboardRead.step ReadData.shellFs (quietMachine k) (.call 128)) := call_attended (started_attended started) 128
  have typed : ∀ act, act ∈ typedLine → Possible k act := simple_possible (by decide)
  have reached : Reachable (KeyboardRead.step ReadData.shellFs) (Booted ReadData.shellFs) m :=
    reachable_step (reachable_start (quietMachine_booted started)) taken
  have undisturbed : EachStep (KeyboardRead.step ReadData.shellFs) (Undisturbed k.currTerminal) m
      (typedLine.map Act.event) :=
    eachStep_attended (fun _ _ _ => tolerated_undisturbed) desk typed typedLine_tolerated
  obtain ⟨d,small,place,delivered⟩ : ∃ d, run deskStep ⟨false,emptyLine,⟨.setReadAck,128,0,[]⟩⟩ typedLine = .ok d ∧
      d.reader.place = .leave ∧ d.reader.delivered = [97,newlineChar] := ⟨_,rfl,rfl,rfl⟩
  have whole : Follows k (run deskStep _ typedLine) (run (KeyboardRead.step ReadData.shellFs) m _) :=
    run_attended desk typed
  rw [small] at whole
  obtain ⟨m',ran,desk'⟩ := whole
  obtain ⟨keys,watched⟩ := watched_run (session k.currTerminal) ran []
  rw [← desk'.reader,first] at place delivered
  rw [first] at undisturbed watched
  obtain ⟨_,_,_,_,_,_,line,reader⟩ := desk
  rw [first] at line reader
  have called : (m.readers 0).place = .setReadAck := by rw [reader]
  have empty : (m.line 0).bufferSize = 0 := by rw [line]; rfl
  exact ⟨m,m',keys,watched,place,delivered,read_delivers reached (by decide) called empty undisturbed⟩

/-! ### Reads of other lines -/

/-- The machine with the first shell of a small image. -/
def shellMachine : Machine := quietMachine Boot.shellKernel

theorem shellMachine_booted : Booted ReadData.shellFs shellMachine := quietMachine_booted Boot.shellKernel_started

/-- The first shell starts five others, the last of which reads. -/
def crowdedCall : List Event := List.replicate 5 (.op (.execute 253 Syscalls.shellCommand)) ++ [.call 128]

/-- No key is pressed, and a switch is refused. -/
def refusedRead : List Event := .read :: .read :: .op (.switchTo 253 1) :: returning.map Act.event

/-- A key is pressed after Enter, before the shell runs again. -/
def lateKey : List Act := .call 128 :: .read :: .read :: .key enterKeycode :: .key scanA :: returning

/-- Enter is pressed before `ack` is cleared, and again later. -/
def earlyEnter : List Act := .call 128 :: .read :: .key enterKeycode :: .read :: .key enterKeycode :: returning

/-- The call of the first terminal has returned with these bytes. -/
def Returned (line : List UInt8) (m : Machine) : Prop :=
  (m.readers 0).place = .leave ∧ (m.readers 0).nbytes = 128 ∧ (m.readers 0).delivered = line

instance (line : List UInt8) : DecidablePred (Returned line) := fun _ => inferInstanceAs (Decidable (_ ∧ _ ∧ _))

/-- A call returns without a line once six processes are running and a switch is
    refused. In the two gaps it delivers what was typed after Enter, and two
    newlines. -/
theorem read_delivers_fails : Booted ReadData.shellFs shellMachine ∧
    Leads (run (KeyboardRead.step ReadData.shellFs) shellMachine (crowdedCall ++ refusedRead)) (Returned []) ∧
    Leads (run (KeyboardRead.step ReadData.shellFs) shellMachine (lateKey.map Act.event)) (Returned [newlineChar,97]) ∧
    Leads (run (KeyboardRead.step ReadData.shellFs) shellMachine (earlyEnter.map Act.event))
      (Returned [newlineChar,newlineChar]) ∧
    ¬ ∀ (fs : Fs) (t : Nat) (m : Machine) (events : List Event), Reachable (KeyboardRead.step fs) (Booted fs) m →
      t < maxTerminals → (m.readers t).place = .setReadAck → (m.line t).bufferSize = 0 →
      Throughout (watched (KeyboardRead.step fs) (session t)) (OneLine t) (m,[]) events := by
  have woken : Leads (run (KeyboardRead.step ReadData.shellFs) shellMachine (crowdedCall ++ refusedRead))
      (Returned []) := by decide +kernel
  have calls : Leads (run (KeyboardRead.step ReadData.shellFs) shellMachine crowdedCall)
      (fun m => (m.readers 0).place = .setReadAck ∧ (m.line 0).bufferSize = 0) := by decide +kernel
  refine ⟨shellMachine_booted,woken,by decide +kernel,by decide +kernel,fun always => ?_⟩
  obtain ⟨last,ran,place,nbytes,delivered⟩ := woken
  obtain ⟨m,before,after⟩ := (run_append _ _ _ _).mp ran
  obtain ⟨m',before',called,empty⟩ := calls
  rw [before] at before'
  cases before'
  obtain ⟨keys,watched⟩ := watched_run (session 0) after []
  have reached := reachable_run (reachable_start shellMachine_booted) before
  obtain ⟨_,_,line⟩ := throughout_last (always _ 0 m refusedRead reached (by decide) called empty) watched place
    (by rw [nbytes]; decide)
  rw [delivered] at line
  rcases line with ⟨_,same,_⟩ | ⟨_,_,same⟩
  · simp at same
  · cases same

end MazeOS.LineReads
