import Mathlib.Data.List.Induction
import MazeOS.Keyboard

/-!
The modifier flags and the keys that are held. Each pair of scan codes is an
event of a modifier key or none (`eventOf`), and `check_modifier_keys` stores an
event of a right-hand Ctrl or Alt key in the flag of the left-hand one
(`checkModifierKeys_eq`). So the flags track the held keys through a sequence of
calls exactly when every event of such a key is a release while the left-hand
one is not held (`step_tracks`, `modifiers_track_iff`).
-/
namespace MazeOS.ModifierKeys
open MazeOS.Runs MazeOS.Faults MazeOS.State MazeOS.Keyboard

/-! ### Events -/

inductive ModifierKey where
  | lCtrl
  | rCtrl
  | lAlt
  | rAlt
  | lShift
  | rShift
  deriving DecidableEq

/-- A key that holds a modifier is pressed or released, or caps lock is pressed. -/
inductive Event where
  | key (key : ModifierKey) (pressed : Bool)
  | capsPress
  deriving DecidableEq

/-- The key of a pair that the second byte names. -/
def sided (scan2 : UInt8) (left right : ModifierKey) : ModifierKey := if scan2 = extension then right else left

/-- The event of two bytes from the keyboard. -/
def eventOf (scan1 scan2 : UInt8) : Option Event :=
  if scan1 = ctrlPressed then some (.key (sided scan2 .lCtrl .rCtrl) true)
  else if scan1 = ctrlReleased then some (.key (sided scan2 .lCtrl .rCtrl) false)
  else if scan1 = altPressed then some (.key (sided scan2 .lAlt .rAlt) true)
  else if scan1 = altReleased then some (.key (sided scan2 .lAlt .rAlt) false)
  else if scan1 = lShiftPressed then some (.key .lShift true)
  else if scan1 = rShiftPressed then some (.key .rShift true)
  else if scan1 = lShiftReleased then some (.key .lShift false)
  else if scan1 = rShiftReleased then some (.key .rShift false)
  else if scan1 = capsPressed then some .capsPress
  else none

/-- Whether an event presses or releases a key. -/
def pressOf (key : ModifierKey) : Event → Option Bool
  | .key key' pressed => if key' = key then some pressed else none
  | .capsPress => none

/-- The last event of the key is a press. -/
def Held (key : ModifierKey) (events : List Event) : Prop := (events.filterMap (pressOf key)).getLast? = some true

instance (key : ModifierKey) (events : List Event) : Decidable (Held key events) := inferInstanceAs (Decidable (_ = _))

def capsPresses (events : List Event) : Nat := events.count .capsPress

/-! ### Flags -/

def flag (m : Modifiers) : ModifierKey → Bool
  | .lCtrl => m.lCtrl
  | .rCtrl => m.rCtrl
  | .lAlt => m.lAlt
  | .rAlt => m.rAlt
  | .lShift => m.lShift
  | .rShift => m.rShift

def setFlag (m : Modifiers) : ModifierKey → Bool → Modifiers
  | .lCtrl, pressed => { m with lCtrl := pressed }
  | .rCtrl, pressed => { m with rCtrl := pressed }
  | .lAlt, pressed => { m with lAlt := pressed }
  | .rAlt, pressed => { m with rAlt := pressed }
  | .lShift, pressed => { m with lShift := pressed }
  | .rShift, pressed => { m with rShift := pressed }

/-- The key whose flag the code sets for a key. -/
def stored : ModifierKey → ModifierKey
  | .lCtrl | .rCtrl => .lCtrl
  | .lAlt | .rAlt => .lAlt
  | .lShift => .lShift
  | .rShift => .rShift

/-- What the code does with an event. -/
def store (m : Modifiers) : Event → Modifiers
  | .key key pressed => setFlag m (stored key) pressed
  | .capsPress => { m with caps := !m.caps }

theorem flag_setFlag (m : Modifiers) (key key' : ModifierKey) (pressed : Bool) :
    flag (setFlag m key pressed) key' = if key' = key then pressed else flag m key' := by
  cases key <;> cases key' <;> rfl

theorem caps_setFlag (m : Modifiers) (key : ModifierKey) (pressed : Bool) : (setFlag m key pressed).caps = m.caps := by
  cases key <;> rfl

theorem stored_sided (scan2 : UInt8) :
    stored (sided scan2 .lCtrl .rCtrl) = .lCtrl ∧ stored (sided scan2 .lAlt .rAlt) = .lAlt := by
  simp only [sided]
  split <;> exact ⟨rfl,rfl⟩

/-- `check_modifier_keys` returns 1 for the events, and stores each of them. -/
theorem checkModifierKeys_eq (m : Modifiers) (scan1 scan2 : UInt8) :
    checkModifierKeys m scan1 scan2 = (eventOf scan1 scan2).map (store m) := by
  obtain ⟨ctrl,alt⟩ := stored_sided scan2
  simp only [checkModifierKeys,eventOf]
  by_cases ctrlDown : scan1 = ctrlPressed
  · simp only [if_pos ctrlDown,Option.map_some,store,ctrl,setFlag]
  by_cases ctrlUp : scan1 = ctrlReleased
  · simp only [if_neg ctrlDown,if_pos ctrlUp,Option.map_some,store,ctrl,setFlag]
  by_cases altDown : scan1 = altPressed
  · simp only [ctrlDown,ctrlUp,if_pos altDown,false_and,if_false,Option.map_some,store,alt,setFlag]
  by_cases altUp : scan1 = altReleased
  · simp only [ctrlDown,ctrlUp,altDown,if_pos altUp,false_and,if_false,Option.map_some,store,alt,setFlag]
  simp only [ctrlDown,ctrlUp,altDown,altUp,false_and,if_false]
  split_ifs <;> rfl

/-! ### Flags that track the keys -/

/-- Each flag says whether its key is held, caps lock is the parity of its
    presses, and a modifier is in effect while one of its keys is held. -/
structure Tracks (events : List Event) (m : Modifiers) : Prop where
  held : ∀ key, flag m key = true ↔ Held key events
  caps : m.caps = true ↔ capsPresses events % 2 = 1
  ctrl : ctrlHeld m = true ↔ Held .lCtrl events ∨ Held .rCtrl events
  alt : altHeld m = true ↔ Held .lAlt events ∨ Held .rAlt events
  shift : shiftHeld m = true ↔ Held .lShift events ∨ Held .rShift events

/-- An event that the flags survive: that of a key with a flag of its own, or the
    release of a right-hand key while the left-hand one is not held. -/
def Harmless (events : List Event) : Option Event → Prop
  | some (.key key pressed) => stored key = key ∨ (pressed = false ∧ ¬ Held (stored key) events)
  | some .capsPress | none => True

/-- The flags that no event is stored in. -/
def Unused (m : Modifiers) : Prop := ∀ key, stored key ≠ key → flag m key = false

section
variable {m : Modifiers} {events : List Event}

theorem tracks_of (held : ∀ key, flag m key = true ↔ Held key events)
    (caps : m.caps = true ↔ capsPresses events % 2 = 1) : Tracks events m := by
  refine ⟨held,caps,?_,?_,?_⟩
  · rw [ctrlHeld,Bool.or_eq_true,← held,← held]; exact Iff.rfl
  · rw [altHeld,Bool.or_eq_true,← held,← held]; exact Iff.rfl
  · rw [shiftHeld,Bool.or_eq_true,← held,← held,or_comm]; exact or_comm

theorem held_key (key key' : ModifierKey) (pressed : Bool) (events : List Event) :
    Held key' (events ++ [.key key pressed]) ↔ if key = key' then pressed = true else Held key' events := by
  simp only [Held,List.filterMap_append,List.filterMap_cons,List.filterMap_nil,pressOf]
  by_cases same : key = key'
  · simp [same]
  · simp [same]

theorem held_caps (key : ModifierKey) (events : List Event) : Held key (events ++ [.capsPress]) ↔ Held key events := by
  simp [Held,pressOf]

theorem capsPresses_key (key : ModifierKey) (pressed : Bool) (events : List Event) :
    capsPresses (events ++ [.key key pressed]) = capsPresses events := by
  simp [capsPresses]

theorem capsPresses_caps (events : List Event) : capsPresses (events ++ [.capsPress]) = capsPresses events + 1 := by
  simp [capsPresses]

theorem store_unused (unused : Unused m) (event : Event) : Unused (store m event) := by
  intro key other
  cases event with
  | capsPress => cases key <;> exact unused _ other
  | key key' pressed =>
    have apart : key ≠ stored key' := by
      rintro rfl
      cases key' <;> exact other rfl
    rw [store,flag_setFlag,if_neg apart]
    exact unused key other

/-- One event: the flags go on tracking the keys exactly when it is harmless. -/
theorem key_tracks (unused : Unused m) (tracks : Tracks events m) (key : ModifierKey) (pressed : Bool) :
    Tracks (events ++ [.key key pressed]) (store m (.key key pressed)) ↔
      Harmless events (some (.key key pressed)) := by
  constructor
  · intro after
    by_cases own : stored key = key
    · exact .inl own
    · right
      have right := after.held key
      rw [store,flag_setFlag,if_neg (Ne.symm own),unused key own,held_key,if_pos rfl] at right
      have up : pressed = false := by
        cases pressed with
        | false => rfl
        | true => exact absurd (right.mpr rfl) (by decide)
      have left := after.held (stored key)
      rw [store,flag_setFlag,if_pos rfl,held_key,if_neg (Ne.symm own),up] at left
      exact ⟨up,fun held => absurd (left.mpr held) (by decide)⟩
  · intro harmless
    apply tracks_of
    · intro key'
      rw [store,flag_setFlag,held_key]
      rcases harmless with own | ⟨rfl,up⟩
      · rw [own]
        by_cases same : key' = key
        · rw [if_pos same,if_pos same.symm]
        · rw [if_neg same,if_neg (Ne.symm same)]
          exact tracks.held key'
      · by_cases left : key' = stored key
        · rw [if_pos left]
          split
          · exact Iff.rfl
          · rw [left]
            exact iff_of_false (by decide) up
        · rw [if_neg left]
          by_cases same : key = key'
          · subst same
            rw [if_pos rfl,unused key (Ne.symm left)]
          · rw [if_neg same]
            exact tracks.held key'
    · rw [store,caps_setFlag,capsPresses_key]
      exact tracks.caps

theorem caps_tracks (tracks : Tracks events m) : Tracks (events ++ [.capsPress]) (store m .capsPress) := by
  apply tracks_of
  · intro key
    rw [held_caps,← tracks.held key]
    cases key <;> exact Iff.rfl
  · have caps := tracks.caps
    rw [capsPresses_caps]
    simp only [store,Bool.not_eq_true']
    rw [← Bool.not_eq_true,caps]
    omega

/-! ### Sequences of calls -/

/-- A call of `check_modifier_keys`; the events so far are noted beside the
    flags. -/
def checkStep (s : Modifiers × List Event) (scan : UInt8 × UInt8) : Checked (Modifiers × List Event) :=
  .ok ((checkModifierKeys s.1 scan.1 scan.2).getD s.1,s.2 ++ (eventOf scan.1 scan.2).toList)

/-- The flags that `keyboard_init` leaves. -/
def noneHeld : Modifiers := ⟨false,false,false,false,false,false,false⟩

theorem checkStep_none {scan : UInt8 × UInt8} (s : Modifiers × List Event) (means : eventOf scan.1 scan.2 = none) :
    checkStep s scan = .ok s := by
  simp [checkStep,checkModifierKeys_eq,means]

theorem checkStep_some {scan : UInt8 × UInt8} {event : Event} (s : Modifiers × List Event)
    (means : eventOf scan.1 scan.2 = some event) : checkStep s scan = .ok (store s.1 event,s.2 ++ [event]) := by
  simp [checkStep,checkModifierKeys_eq,means]

theorem checkStep_unused (s : Modifiers × List Event) (scan : UInt8 × UInt8) (t : Modifiers × List Event)
    (unused : Unused s.1) (checked : checkStep s scan = .ok t) : Unused t.1 := by
  cases means : eventOf scan.1 scan.2 with
  | none =>
    rw [checkStep_none s means] at checked
    cases checked
    exact unused
  | some event =>
    rw [checkStep_some s means] at checked
    cases checked
    exact store_unused unused event

/-- One call: the flags go on tracking the keys exactly when its event is
    harmless. -/
theorem step_tracks (s : Modifiers × List Event) (scan : UInt8 × UInt8) (t : Modifiers × List Event)
    (unused : Unused s.1) (tracks : Tracks s.2 s.1) (checked : checkStep s scan = .ok t) :
    Tracks t.2 t.1 ↔ Harmless s.2 (eventOf scan.1 scan.2) := by
  cases means : eventOf scan.1 scan.2 with
  | none =>
    rw [checkStep_none s means] at checked
    cases checked
    exact iff_of_true tracks trivial
  | some event =>
    rw [checkStep_some s means] at checked
    cases checked
    cases event with
    | key key pressed => exact key_tracks unused tracks key pressed
    | capsPress => exact iff_of_true (caps_tracks tracks) trivial

/-- `check_modifier_keys` returns 1 exactly for the events of modifier keys. In
    every sequence of calls the flags track the held keys all the time exactly
    when every event of a right-hand Ctrl or Alt key is a release that comes
    while the left-hand one is not held. -/
theorem modifiers_track_iff (scans : List (UInt8 × UInt8)) :
    (∀ m scan1 scan2, checkModifierKeys m scan1 scan2 ≠ none ↔ eventOf scan1 scan2 ≠ none) ∧
      (Throughout checkStep (fun s => Tracks s.2 s.1) (noneHeld,[]) scans ↔
        EachStep checkStep (fun s scan => Harmless s.2 (eventOf scan.1 scan.2)) (noneHeld,[]) scans) := by
  constructor
  · intro m scan1 scan2
    rw [checkModifierKeys_eq,ne_eq,Option.map_eq_none_iff]
  · have unused : Unused noneHeld := by
      intro key _
      cases key <;> rfl
    have tracks : Tracks [] noneHeld := by
      refine tracks_of ?_ (by decide)
      intro key
      cases key <;> decide
    have exactly := throughout_iff (s := (noneHeld,[])) (P := fun s : Modifiers × List Event => Tracks s.2 s.1)
      (Q := fun s scan => Harmless s.2 (eventOf scan.1 scan.2)) checkStep_unused step_tracks unused tracks scans
    rw [exactly]
    refine eachStep_iff (s := (noneHeld,[])) (R := fun s scan => Harmless s.2 (eventOf scan.1 scan.2))
      checkStep_unused ?_ unused scans
    intro s scan _
    exact ⟨fun all => all _ rfl,fun harmless _ _ => harmless⟩

/-- Both Ctrl keys are pressed and the right-hand one is released: Ctrl is no
    longer in effect, although the left-hand key is held. -/
theorem ctrl_lost : ∃ m events,
    run checkStep (noneHeld,[]) [(ctrlPressed,0),(ctrlPressed,extension),(ctrlReleased,extension)] = .ok (m,events) ∧
      Held .lCtrl events ∧ ctrlHeld m = false ∧ ¬ Tracks events m := by
  refine ⟨_,_,rfl,by decide,by decide,?_⟩
  intro tracks
  exact absurd (tracks.ctrl.mpr (.inl (by decide))) (by decide)

end

end MazeOS.ModifierKeys
