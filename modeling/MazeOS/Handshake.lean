import MazeOS.LineBuffer

/-!
The handshake between `keyboard_read` and the keyboard interrupt. A reader sets
`read_ack`, which opens the line, and clears `ack` only in the next statement.
A newline that the handler appends in between is forgotten by the reader, which
then waits for `ack`; every other newline wakes it. A monitor beside the
machine (`mark`) notes where the characters begin that were appended since the
call set `read_ack`. `newline_kept` is the exact condition on whole runs, and
`quiet_window` a condition on the keys alone.
-/
namespace MazeOS.Handshake
open MazeOS.Runs MazeOS.Faults MazeOS.Filesystem MazeOS.State MazeOS.Boot MazeOS.Keyboard MazeOS.KeyboardRead
  MazeOS.Sessions MazeOS.LineBuffer

/-- From which place on the line of a terminal was typed since a call set
    `read_ack`. The line of a control code, which holds no newline, counts as
    old. -/
def mark (m : Machine) (_ : Event) (after : Machine) (since : Nat → Nat) (t : Nat) : Nat :=
  if (m.readers t).place = .setReadAck ∧ (after.readers t).place = .clearAck then (after.line t).bufferSize
  else min (since t) (after.line t).bufferSize

/-- The line holds a newline from a place on. -/
def Newline (line : Line) (since : Nat) : Prop :=
  ∃ i, since ≤ i ∧ i < line.bufferSize ∧ line.buffer i = newlineChar

/-- A reader that waits while its line holds a newline that was appended since
    the call set `read_ack` finds `ack` set. -/
def Kept (s : Machine × (Nat → Nat)) : Prop :=
  ∀ t, (s.1.readers t).place = .wait → Newline (s.1.line t) (s.2 t) → (s.1.line t).ack = true

/-- A reader that clears `ack` has no such newline in its line. -/
def WindowClean (s : Machine × (Nat → Nat)) (e : Event) : Prop :=
  e = .read → (s.1.readers s.1.kernel.execTerm).place = .clearAck →
    ¬ Newline (s.1.line s.1.kernel.execTerm) (s.2 s.1.kernel.execTerm)

/-! ### What a stroke appends -/

/-- The stroke appends a newline. -/
def Completes (line : Line) : Stroke → Prop
  | .enter => line.readAck = true
  | .tab => maxBufferSize - 2 ≤ line.bufferSize
  | .char _ => maxBufferSize - 2 ≤ line.bufferSize + line.readAck.toNat
  | .dead => maxBufferSize - 2 ≤ line.bufferSize
  | _ => False

/-- No newline is appended to a line, of which a part may have been removed. -/
def NoNewline (line after : Line) : Prop :=
  ∀ since, Newline after (min since after.bufferSize) → Newline line since

section
variable {line after : Line}

theorem newline_mono {since since' : Nat} (earlier : since' ≤ since) (newline : Newline line since) :
    Newline line since' := by
  obtain ⟨i,late,inside,same⟩ := newline
  exact ⟨i,Nat.le_trans earlier late,inside,same⟩

theorem noNewline_refl (line : Line) : NoNewline line line := by
  rintro since ⟨i,late,inside,same⟩
  exact ⟨i,by omega,inside,same⟩

theorem noNewline_trans {between : Line} (first : NoNewline line between) (second : NoNewline between after) :
    NoNewline line after := by
  intro since newline
  apply first
  apply second
  exact newline_mono (by omega) newline

theorem pushed_noNewline {c : UInt8} (plain : c ≠ newlineChar) : NoNewline line (pushed line c) := by
  rintro since ⟨i,late,inside,same⟩
  simp only [pushed] at late inside same
  by_cases last : i = line.bufferSize
  · subst last
    rw [Function.update_self] at same
    exact absurd same plain
  · rw [Function.update_of_ne last] at same
    exact ⟨i,by omega,by omega,same⟩

theorem typeChar_noNewline {c : UInt8} (plain : c ≠ newlineChar) (typed : typeChar line c = .ok after) :
    NoNewline line after ∧ after.ack = line.ack := by
  rcases typeChar_eq_ok typed with ⟨_,rfl⟩ | ⟨_,rfl⟩
  · exact ⟨pushed_noNewline plain,rfl⟩
  · exact ⟨noNewline_refl after,rfl⟩

theorem typeChar_size {c : UInt8} (typed : typeChar line c = .ok after) :
    after.bufferSize = line.bufferSize + line.readAck.toNat := by
  rcases typeChar_eq_ok typed with ⟨reads,rfl⟩ | ⟨closed,rfl⟩
  · rw [reads]; rfl
  · rw [closed]; rfl

theorem spaces_noNewline (n : Nat) (typed : spaces n line = .ok after) : NoNewline line after ∧ after.ack = line.ack := by
  induction n generalizing line with
  | zero => cases typed; exact ⟨noNewline_refl _,rfl⟩
  | succ n ih =>
    obtain ⟨between,first,rest⟩ := bind_eq_ok.mp typed
    obtain ⟨quiet,ack⟩ := typeChar_noNewline (by decide) first
    obtain ⟨quiet',ack'⟩ := ih rest
    exact ⟨noNewline_trans quiet quiet',ack'.trans ack⟩

theorem erase_noNewline (erased : erase line = .ok after) : NoNewline line after ∧ after.ack = line.ack := by
  have same := erase_eq_ok erased
  subst same
  refine ⟨?_,rfl⟩
  rintro since ⟨i,late,inside,same⟩
  simp only at late inside same
  have other : i ≠ line.bufferSize - 1 := by omega
  rw [Function.update_of_ne other] at same
  exact ⟨i,by omega,by omega,same⟩

theorem fill_newline (filled : fill line = .ok after) :
    (maxBufferSize - 2 ≤ line.bufferSize ∧ after.ack = true) ∨
      (NoNewline line after ∧ (after.ack = true ∨ after.ack = line.ack)) := by
  rcases fill_eq_ok filled with ⟨full,rfl⟩ | ⟨_,rfl⟩
  · exact .inl ⟨full,rfl⟩
  · exact .inr ⟨noNewline_refl after,.inr rfl⟩

/-- A stroke that completes a line sets `ack`. Another one appends no newline,
    and sets `ack` or leaves it. -/
theorem stroke_newline {stroke : Stroke} (plain : Plain stroke) (made : strokeLine line stroke = .ok after) :
    (Completes line stroke ∧ after.ack = true) ∨
      (NoNewline line after ∧ (after.ack = true ∨ after.ack = line.ack)) := by
  cases stroke with
  | backspace =>
    simp only [strokeLine] at made
    split at made
    · obtain ⟨quiet,ack⟩ := erase_noNewline made
      exact .inr ⟨quiet,.inr ack⟩
    · cases made; exact .inr ⟨noNewline_refl line,.inr rfl⟩
  | enter =>
    obtain ⟨typed,types,woken⟩ := bind_eq_ok.mp made
    cases woken
    rcases typeChar_eq_ok types with ⟨reads,_⟩ | ⟨_,rfl⟩
    · exact .inl ⟨reads,rfl⟩
    · exact .inr ⟨noNewline_refl typed,.inl rfl⟩
  | tab =>
    obtain ⟨spaced,types,filled⟩ := bind_eq_ok.mp made
    split at types
    · rename_i room
      simp only [maxBufferSize] at room
      have four : line.bufferSize + 4 ≤ maxBufferSize := by simp only [maxBufferSize]; omega
      obtain ⟨spaced',types',size⟩ := spaces_fits 4 four
      rw [types] at types'
      cases types'
      obtain ⟨quiet,ack⟩ := spaces_noNewline 4 types
      rcases fill_eq_ok filled with ⟨full,_⟩ | ⟨_,rfl⟩
      · simp only [maxBufferSize] at full
        omega
      · exact .inr ⟨quiet,.inr ack⟩
    · cases types
      exact fill_newline filled
  | char c =>
    obtain ⟨typed,types,filled⟩ := bind_eq_ok.mp made
    obtain ⟨quiet,ack⟩ := typeChar_noNewline plain types
    rcases fill_eq_ok filled with ⟨full,rfl⟩ | ⟨_,rfl⟩
    · rw [typeChar_size types] at full
      exact .inl ⟨full,rfl⟩
    · exact .inr ⟨quiet,.inr ack⟩
  | dead => exact fill_newline made
  | control code =>
    cases made
    refine .inr ⟨?_,.inl rfl⟩
    rintro since ⟨i,_,inside,same⟩
    have first : i = 0 := Nat.lt_one_iff.mp inside
    subst first
    exact absurd same plain
  | outside scan1 => cases made

end

/-! ### One step -/

section
variable {fs : Fs} {m m' : Machine} {e : Event}

theorem handled_plain {stroke : Stroke} (handles : handled m e = some (.stroke stroke)) : Plain stroke := by
  obtain ⟨c,c2,means⟩ := handled_stroke handles
  exact strokeOf_plain means

/-- The statement before the loop is the one that clears `ack`. -/
theorem statement_wait {line line' : Line} {r r' : Reader} (goes : statement line r = .ok (line',r'))
    (waits : r'.place = .wait) :
    (r.place = .clearAck ∧ line' = { line with ack := false }) ∨ (r.place = .wait ∧ line' = line) := by
  simp only [statement] at goes
  split at goes
  case h_3 place => cases goes; exact .inl ⟨place,rfl⟩
  case h_4 place => cases goes; exact .inr ⟨place,rfl⟩
  case h_9 =>
    split at goes
    · cases goes; cases waits
    · cases goes
  case h_1 place =>
    cases goes
    rw [place] at waits
    cases waits
  all_goals cases goes; cases waits

/-- The mark of a terminal whose reader does not open its line. -/
theorem mark_stays {since : Nat → Nat} {t : Nat} (closed : ¬ ((m.readers t).place = .setReadAck ∧
    (m'.readers t).place = .clearAck)) : mark m e m' since t = min (since t) (m'.line t).bufferSize := if_neg closed

/-- The step of a reader that clears `ack`. -/
theorem clears_ack (place : (m.readers m.kernel.execTerm).place = .clearAck)
    (stepped : KeyboardRead.step fs m .read = .ok m') :
    m'.line m.kernel.execTerm = { m.line m.kernel.execTerm with ack := false } ∧
      (m'.readers m.kernel.execTerm).place = .wait := by
  cases step_happens stepped m.kernel.execTerm with
  | nothing _ notRead _ _ => exact absurd rfl (notRead rfl)
  | call _ event _ _ _ => cases event
  | input _ _ handles _ _ => cases handles
  | read _ _ goes =>
    simp only [statement,place,Except.ok.injEq,Prod.mk.injEq] at goes
    rw [← goes.1,← goes.2]
    exact ⟨rfl,rfl⟩

theorem mark_le (m : Machine) (e : Event) (m' : Machine) (since : Nat → Nat) (t : Nat) :
    mark m e m' since t ≤ (m'.line t).bufferSize := by
  simp only [mark]
  split
  · exact Nat.le_refl _
  · exact Nat.min_le_right _ _

/-- A step keeps the newlines for their readers exactly when it does not clear
    `ack` over one. -/
theorem kept_iff {since : Nat → Nat} (kept : Kept (m,since)) (stepped : KeyboardRead.step fs m e = .ok m') :
    Kept (m',mark m e m' since) ↔ WindowClean (m,since) e := by
  constructor
  · intro kept' read place newline
    obtain ⟨line,waits⟩ := clears_ack place (read ▸ stepped)
    have closed : ¬ ((m.readers m.kernel.execTerm).place = .setReadAck ∧
        (m'.readers m.kernel.execTerm).place = .clearAck) := by
      rw [waits]
      simp
    have still : Newline (m'.line m.kernel.execTerm) (mark m e m' since m.kernel.execTerm) := by
      rw [mark_stays closed,line]
      exact newline_mono (Nat.min_le_left _ _) newline
    have acked := kept' m.kernel.execTerm waits still
    rw [line] at acked
    cases acked
  · intro clean t waits newline
    simp only at waits newline ⊢
    have closed : ¬ ((m.readers t).place = .setReadAck ∧ (m'.readers t).place = .clearAck) := by
      rw [waits]
      simp
    rw [mark_stays closed] at newline
    have happens := step_happens stepped t
    cases happens with
    | nothing _ _ line reader =>
      rw [reader] at waits
      rw [line] at newline ⊢
      exact kept t waits (noNewline_refl _ _ newline)
    | call _ _ _ _ reader =>
      rw [reader] at waits
      cases waits
    | input input _ handles edits reader =>
      rw [reader] at waits
      cases input with
      | refused =>
        have woken : wake (m.line t) = m'.line t := Except.ok.inj edits
        rw [← woken]
        rfl
      | stroke stroke =>
        rcases stroke_newline (handled_plain handles) edits with ⟨_,ack⟩ | ⟨quiet,ack | ack⟩
        · exact ack
        · exact ack
        · rw [ack]
          exact kept t waits (quiet _ newline)
    | read event executing goes =>
      rcases statement_wait goes waits with ⟨place,line⟩ | ⟨place,line⟩
      · -- The newline would have been there before `ack` was cleared.
        rw [line] at newline
        have old : Newline (m.line t) (since t) := noNewline_refl (m.line t) _ newline
        rw [← executing] at place old
        exact absurd old (clean event place)
      · rw [line] at newline ⊢
        exact kept t place (noNewline_refl _ _ newline)

/-- A reader can always clear `ack`. -/
theorem clear_total (fs : Fs) (place : (m.readers m.kernel.execTerm).place = .clearAck) :
    ∃ m', KeyboardRead.step fs m .read = .ok m' := by
  simp only [KeyboardRead.step,readStep,statement,place,ok_bind]
  exact ⟨_,rfl⟩

end

/-! ### Runs -/

/-- Where no newline is lost at first, none is lost in a run exactly when no
    reader clears `ack` over one. -/
theorem kept_throughout {fs : Fs} {m : Machine} {since : Nat → Nat} (start : Kept (m,since)) (events : List Event) :
    Throughout (watched (KeyboardRead.step fs) mark) Kept (m,since) events ↔
      EachStep (watched (KeyboardRead.step fs) mark) WindowClean (m,since) events := by
  have trivially : ∀ s e s', True → watched (KeyboardRead.step fs) mark s e = .ok s' → True := fun _ _ _ _ _ => trivial
  have exactly : ∀ s e s', True → Kept s → watched (KeyboardRead.step fs) mark s e = .ok s' →
      (Kept s' ↔ WindowClean s e) := by
    rintro ⟨m,since⟩ e ⟨m',since'⟩ _ kept stepped
    obtain ⟨taken,rfl⟩ := watched_eq_ok.mp stepped
    exact kept_iff kept taken
  rw [throughout_iff trivially exactly trivial start events]
  refine eachStep_iff trivially ?_ trivial events
  rintro ⟨m,since⟩ e _
  constructor
  · intro clean read place
    obtain ⟨m',stepped⟩ := clear_total fs place
    exact clean (m',mark m e m' since) (watched_eq_ok.mpr ⟨read ▸ stepped,rfl⟩) read place
  · intro clean _ _
    exact clean

theorem idle_kept {m : Machine} (idle : ∀ t, (m.readers t).place = .idle) (since : Nat → Nat) : Kept (m,since) := by
  intro t waits
  rw [idle t] at waits
  cases waits

/-- In every run in which no process reads at first: whenever a reader waits and
    its line holds a newline that was appended since the call set `read_ack`,
    `ack` is set, exactly when no reader clears `ack` over such a newline. -/
theorem newline_kept {fs : Fs} {m : Machine} (idle : ∀ t, (m.readers t).place = .idle) (since : Nat → Nat)
    (events : List Event) :
    Throughout (watched (KeyboardRead.step fs) mark) Kept (m,since) events ↔
      EachStep (watched (KeyboardRead.step fs) mark) WindowClean (m,since) events :=
  kept_throughout (idle_kept idle since) events

theorem newline_kept_shell : ∃ m, Booted ReadData.shellFs m ∧ ∀ since events,
    Throughout (watched (KeyboardRead.step ReadData.shellFs) mark) Kept (m,since) events ↔
      EachStep (watched (KeyboardRead.step ReadData.shellFs) mark) WindowClean (m,since) events := by
  obtain ⟨k,started⟩ := started_exists shellFs_image default
  have booted := quietMachine_booted started
  exact ⟨_,booted,fun since events => newline_kept booted.idle since events⟩

/-- No key completes a line between the statement that sets `read_ack` and the
    one that clears `ack`. -/
def QuietWindow (s : Machine × (Nat → Nat)) (e : Event) : Prop :=
  ∀ stroke, handled s.1 e = some (.stroke stroke) →
    (s.1.readers s.1.kernel.currTerminal).place = .clearAck →
    ¬ Completes (s.1.line s.1.kernel.currTerminal) stroke

/-- A reader that has just opened its line finds no newline in it. -/
def Opened (s : Machine × (Nat → Nat)) : Prop :=
  ∀ t, (s.1.readers t).place = .clearAck → ¬ Newline (s.1.line t) (s.2 t)

theorem statement_opens {line line' : Line} {r r' : Reader} (goes : statement line r = .ok (line',r'))
    (opened : r'.place = .clearAck) : r.place = .setReadAck := by
  simp only [statement] at goes
  split at goes
  case h_1 place =>
    cases goes
    rw [place] at opened
    cases opened
  case h_2 place => exact place
  case h_4 =>
    cases goes
    simp only at opened
    split at opened <;> cases opened
  case h_9 =>
    split at goes
    · cases goes; cases opened
    · cases goes
  all_goals cases goes; cases opened

theorem opened_step {fs : Fs} {m m' : Machine} {e : Event} {since : Nat → Nat} (opened : Opened (m,since))
    (quiet : QuietWindow (m,since) e) (stepped : KeyboardRead.step fs m e = .ok m') :
    Opened (m',mark m e m' since) := by
  intro t place newline
  simp only at place newline
  by_cases opens : (m.readers t).place = .setReadAck
  · rw [mark,if_pos ⟨opens,place⟩] at newline
    obtain ⟨i,late,inside,_⟩ := newline
    omega
  · rw [mark_stays fun both => opens both.1] at newline
    cases step_happens stepped t with
    | nothing _ _ line reader =>
      rw [reader] at place
      rw [line] at newline
      exact opened t place (noNewline_refl _ _ newline)
    | call _ _ _ _ reader =>
      rw [reader] at place
      cases place
    | read _ _ goes => exact opens (statement_opens goes place)
    | input input active handles edits reader =>
      rw [reader] at place
      cases input with
      | refused =>
        have woken : wake (m.line t) = m'.line t := Except.ok.inj edits
        rw [← woken] at newline
        exact opened t place (noNewline_refl _ _ newline)
      | stroke stroke =>
        subst active
        rcases stroke_newline (handled_plain handles) edits with ⟨completes,_⟩ | ⟨without,_⟩
        · exact quiet stroke handles place completes
        · exact opened _ place (without _ newline)

/-- Where no key completes a line in the window between the two statements, no
    newline is lost. -/
theorem quiet_window {fs : Fs} {m : Machine} (idle : ∀ t, (m.readers t).place = .idle) {since : Nat → Nat}
    {events : List Event} (quiet : EachStep (watched (KeyboardRead.step fs) mark) QuietWindow (m,since) events) :
    Throughout (watched (KeyboardRead.step fs) mark) Kept (m,since) events := by
  rw [kept_throughout (idle_kept idle since)]
  have start : Opened (m,since) := by
    intro t place
    rw [idle t] at place
    cases place
  refine eachStep_mono ?_ ?_ start quiet
  · rintro ⟨m,since⟩ e ⟨m',since'⟩ opened quiet stepped
    obtain ⟨taken,rfl⟩ := watched_eq_ok.mp stepped
    exact opened_step opened quiet taken
  · rintro ⟨m,since⟩ e opened _ _ place
    exact opened _ place

/-! ### A lost newline -/

/-- Enter is pressed between the two statements. -/
def lostEnter : List Act := [.call 128,.read,.key enterKeycode,.read]

/-- The line once Enter was pressed in the window, and `ack` cleared. -/
def forgotten : Line := ⟨1,Function.update (fun _ => 0) 0 newlineChar,false,true⟩

/-- The reader waits with the newline in its line, and `ack` is not set. -/
theorem newline_kept_fails : ∃ m, Booted ReadData.shellFs m ∧
    ¬ Throughout (watched (KeyboardRead.step ReadData.shellFs) mark) Kept (m,fun _ => 0) (lostEnter.map Act.event) := by
  obtain ⟨k,started⟩ := started_exists shellFs_image default
  refine ⟨_,quietMachine_booted started,?_⟩
  obtain ⟨m₁,taken₁,desk₁⟩ : Follows k (.ok ⟨false,emptyLine,⟨.setReadAck,128,0,[]⟩⟩)
      (KeyboardRead.step ReadData.shellFs (quietMachine k) (.call 128)) := call_attended (started_attended started) 128
  obtain ⟨m₂,taken₂,desk₂⟩ : Follows k (.ok ⟨false,{ emptyLine with readAck := true },⟨.clearAck,128,0,[]⟩⟩)
      (KeyboardRead.step ReadData.shellFs m₁ .read) := read_attended desk₁
  obtain ⟨m₃,taken₃,desk₃⟩ : Follows k (.ok ⟨false,{ forgotten with ack := true },⟨.clearAck,128,0,[]⟩⟩)
      (KeyboardRead.step ReadData.shellFs m₂ (.key 0 enterKeycode 0)) := key_attended (c := enterKeycode) desk₂ (by decide)
  obtain ⟨m₄,taken₄,desk₄⟩ : Follows k (.ok ⟨false,forgotten,⟨.wait,128,0,[]⟩⟩)
      (KeyboardRead.step ReadData.shellFs m₃ .read) := read_attended desk₃
  intro always
  have kept : Kept (m₄,_) := (((always.2 _ (watched_eq_ok.mpr ⟨taken₁,rfl⟩)).2 _ (watched_eq_ok.mpr ⟨taken₂,rfl⟩)).2 _
    (watched_eq_ok.mpr ⟨taken₃,rfl⟩)).2 _ (watched_eq_ok.mpr ⟨taken₄,rfl⟩)
  have waits := kept k.currTerminal
  simp only [desk₄.reader,desk₄.line] at waits
  -- The mark is at the start of the line since `read_ack` was set.
  have fresh := mark_le m₁ .read m₂ (mark (quietMachine k) (.call 128) m₁ fun _ => 0) k.currTerminal
  rw [desk₂.line] at fresh
  have newline : Newline forgotten (mark m₃ .read m₄ (mark m₂ (.key 0 enterKeycode 0) m₃ (mark m₁ .read m₂
      (mark (quietMachine k) (.call 128) m₁ fun _ => 0))) k.currTerminal) := by
    refine ⟨0,?_,by decide,by rfl⟩
    rw [mark_stays (by rw [desk₃.reader]; simp),mark_stays (by rw [desk₂.reader]; simp)]
    exact Nat.le_trans (Nat.min_le_left _ _) (Nat.le_trans (Nat.min_le_left _ _) fresh)
  exact absurd (waits trivial newline) (by decide)

end MazeOS.Handshake
