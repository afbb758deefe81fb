import MazeOS.Isolation

/-!
Whether the keyboard interrupt is masked while a process is between its
`disable_irq` and its `enable_irq`. There is one mask bit, which the calls of
three terminals, the keyboard handler and a refused `execute` clear without
looking whether another of them relies on it. `exclusion_iff` says that a run
keeps the sections exclusive exactly when nothing clears the bit while another
call is inside.
-/
namespace MazeOS.KeyboardMask
open MazeOS.Runs MazeOS.Faults MazeOS.Filesystem MazeOS.State MazeOS.Files MazeOS.Syscalls MazeOS.Terminal MazeOS.Steps
  MazeOS.Keyboard
open MazeOS.KeyboardRead (Reader statement maskAfter ownCall)
open MazeOS.Isolation (Place advance inCall)

/-- The kernel, the mask of the keyboard interrupt, the next statement of the
    call on each terminal, and how many keyboard handlers are suspended on top of
    it: a handler that was asked to switch terminals goes on with interrupts
    enabled. -/
structure Machine where
  kernel : Kernel
  masked : Bool
  places : Nat → Place
  pending : Nat → Nat

inductive Event where
  | op (op : Op)
  /-- The keyboard interrupt, with the two bytes that its handler reads. -/
  | key (fuel : Nat) (c c2 : UInt8)
  | rtc
  /-- The executing process calls `terminal_read`, on a buffer that holds a byte. -/
  | read (nbytes : Int) (first : UInt8)
  /-- The executing process calls `terminal_write`. -/
  | write (text : List UInt8)
  /-- The executing process goes on in its call. -/
  | go
  /-- The last keyboard handler on top of the executing process ends. -/
  | resume

def Machine.place (m : Machine) : Place := m.places m.kernel.execTerm

/-- The executing process is in a call, or below a handler. -/
def Machine.Busy (m : Machine) : Prop := inCall m.place = true ∨ m.pending m.kernel.execTerm ≠ 0

instance (m : Machine) : Decidable m.Busy := inferInstanceAs (Decidable (_ ∨ _))

/-- The executing process goes to a statement. -/
def Machine.at (m : Machine) (place : Place) : Machine :=
  { m with places := Function.update m.places m.kernel.execTerm place }

/-- The keyboard handler calls `switch_active_terminal`, which enables interrupts. -/
def Switches (k : Kernel) (c c2 : UInt8) : Prop := checkModifierKeys k.modifiers c c2 = none ∧ SwitchKey k.modifiers c

instance (k : Kernel) (c c2 : UInt8) : Decidable (Switches k c c2) := inferInstanceAs (Decidable (_ ∧ _))

/-- `execute`. When no process ID is left it calls `terminal_write` and returns 0. -/
def execute (fs : Fs) (m : Machine) (fuel : Nat) (command : Command) : Checked Machine :=
  Syscalls.execute fs fuel m.kernel command >>= fun
    | .returned value k => .ok { m with kernel := k, masked := if value = 0 then false else m.masked }
    | .started _ k => .ok { m with kernel := k }

/-- The keyboard interrupt. The handler has unmasked it when it switches
    terminals, and does so again when it ends. -/
def key (fs : Fs) (m : Machine) (fuel : Nat) (c c2 : UInt8) : Checked Machine :=
  keyboardInterruptHandler fs fuel m.kernel c c2 >>= fun k =>
    if Switches m.kernel c c2 then
      .ok { m with
        kernel := k
        pending := Function.update m.pending m.kernel.execTerm (m.pending m.kernel.execTerm + 1) }
    else .ok { m with kernel := k }

def go (m : Machine) : Checked Machine :=
  advance m.kernel m.masked m.place >>= fun (k,masked,place) =>
    .ok { m with kernel := k, masked := masked, places := Function.update m.places m.kernel.execTerm place }

/-- One step. An event that cannot occur leaves the machine as it is. -/
def step (fs : Fs) (m : Machine) : Event → Checked Machine
  | .op (.execute fuel command) => if m.Busy then .ok m else execute fs m fuel command
  -- A terminal is switched by the keyboard handler only.
  | .op (.switchTo _ _) => .ok m
  -- An exception ends the call that it interrupts.
  | .op (.exception fuel text) =>
    if m.pending m.kernel.execTerm ≠ 0 then .ok m
    else Steps.step fs m.kernel (.exception fuel text) >>= fun k => .ok { m.at .idle with kernel := k }
  | .op op =>
    if ownCall op ∧ m.Busy then .ok m
    else Steps.step fs m.kernel op >>= fun k => .ok { m with kernel := k }
  | .key fuel c c2 => if m.masked then .ok m else key fs m fuel c c2
  -- Its handler masks and unmasks another interrupt.
  | .rtc => .ok m
  | .read nbytes first => .ok (if m.Busy then m else m.at (.reading ⟨.setReadAck,unsigned nbytes,0,[]⟩ first))
  | .write text => .ok (if m.Busy then m else m.at (.disable text))
  | .go => if m.pending m.kernel.execTerm ≠ 0 then .ok m else go m
  | .resume =>
    if m.pending m.kernel.execTerm = 0 then .ok m
    else .ok { m with
      masked := false
      pending := Function.update m.pending m.kernel.execTerm (m.pending m.kernel.execTerm - 1) }

/-- The machine when the first shell has been started, and no process is in a call. -/
structure Booted (fs : Fs) (m : Machine) : Prop where
  started : Started fs m.kernel
  unmasked : m.masked = false
  idle : ∀ t, m.places t = .idle
  none : ∀ t, m.pending t = 0

/-! ### What should hold, and when it does -/

/-- A call is between its `disable_irq` and its `enable_irq`. -/
def Inside : Place → Prop
  | .writing _ => True
  | .reading r _ => r.place = .measure ∨ r.place = .copy ∨ r.place = .wipe ∨ r.place = .empty ∨ r.place = .enable
  | _ => False

instance : (place : Place) → Decidable (Inside place)
  | .writing _ => .isTrue trivial
  | .reading r _ => inferInstanceAs (Decidable (r.place = .measure ∨ _))
  | .idle | .test _ | .clearing _ | .setX | .setY | .moveCursor | .wipe | .disable _ => .isFalse not_false

/-- The next statement is the `enable_irq` of the call. -/
def Enables : Place → Prop
  | .writing [] => True
  | .reading r _ => r.place = .enable
  | _ => False

/-- The keyboard is masked whenever a call is inside its section. -/
def Excluded (m : Machine) : Prop := ∀ t, Inside (m.places t) → m.masked = true

/-- A step executes an `enable_irq` of the keyboard. -/
def Unmasks (fs : Fs) (m : Machine) : Event → Prop
  | .go => m.pending m.kernel.execTerm = 0 ∧ Enables m.place
  | .resume => m.pending m.kernel.execTerm ≠ 0
  | .op (.execute fuel command) => ¬ m.Busy ∧ ∃ k, Syscalls.execute fs fuel m.kernel command = .ok (.returned 0 k)
  | _ => False

/-- Nothing unmasks the keyboard while a call other than its own is inside. -/
def Alone (fs : Fs) (m : Machine) (e : Event) : Prop :=
  Unmasks fs m e → ∀ t, Inside (m.places t) → e = .go ∧ t = m.kernel.execTerm

section
variable {fs : Fs} {m after : Machine}

/-- A statement unmasks the keyboard at the end of a section, masks it, or
    leaves the mask as it is; only the one that masks it enters a section. -/
theorem advance_inside {k k' : Kernel} {masked masked' : Bool} {place place' : Place}
    (advanced : advance k masked place = .ok (k',masked',place')) :
    (Enables place ∧ masked' = false ∧ ¬ Inside place') ∨ (¬ Enables place ∧ masked' = true) ∨
      (¬ Enables place ∧ masked' = masked ∧ (Inside place' → Inside place)) := by
  cases place with
  | reading r first =>
    obtain ⟨⟨line,r'⟩,moved,same⟩ := bind_eq_ok.mp advanced
    obtain ⟨place,nbytes,size,delivered⟩ := r
    simp only [statement] at moved
    cases place with
    | disable =>
      cases same
      exact .inr (.inl ⟨fun enables => (by cases enables),rfl⟩)
    | enable =>
      cases moved
      cases same
      refine .inl ⟨rfl,rfl,?_⟩
      rintro (h | h | h | h | h) <;> cases h
    | copy =>
      simp only at moved
      split at moved
      · cases moved
        cases same
        exact .inr (.inr ⟨fun enables => (by cases enables),rfl,fun _ => .inr (.inl rfl)⟩)
      · cases moved
    | wait =>
      cases moved
      cases same
      refine .inr (.inr ⟨by simp [Enables],rfl,?_⟩)
      by_cases woken : (lineOf k k.execTerm).ack = true
      · simp [Inside,woken]
      · simp [Inside,woken]
    | idle | setReadAck | clearAck | resetAck | resetReadAck | measure | wipe | empty | leave =>
      cases moved
      cases same
      exact .inr (.inr ⟨by simp [Enables],rfl,by simp [Inside]⟩)
  | writing text =>
    cases text with
    | nil => cases advanced; exact .inl ⟨trivial,rfl,not_false⟩
    | cons c rest => cases advanced; exact .inr (.inr ⟨not_false,rfl,fun _ => trivial⟩)
  | disable text => cases advanced; exact .inr (.inl ⟨not_false,rfl⟩)
  | clearing n =>
    simp only [advance] at advanced
    split at advanced
    · cases advanced; exact .inr (.inr ⟨not_false,rfl,id⟩)
    · cases advanced; exact .inr (.inr ⟨not_false,rfl,id⟩)
  | test first =>
    simp only [advance] at advanced
    cases advanced
    refine .inr (.inr ⟨not_false,rfl,?_⟩)
    split <;> exact id
  | idle => cases advanced; exact .inr (.inr ⟨not_false,rfl,id⟩)
  | setX => cases advanced; exact .inr (.inr ⟨not_false,rfl,id⟩)
  | setY => cases advanced; exact .inr (.inr ⟨not_false,rfl,id⟩)
  | moveCursor => cases advanced; exact .inr (.inr ⟨not_false,rfl,id⟩)
  | wipe => cases advanced; exact .inr (.inr ⟨not_false,rfl,id⟩)

/-- A step that neither changes the mask nor enters a section. -/
theorem excluded_calm (excluded : Excluded m) (mask : after.masked = m.masked)
    (places : ∀ t, Inside (after.places t) → Inside (m.places t)) : Excluded after :=
  fun t inside => mask.trans (excluded t (places t inside))

/-- The executing process goes to a statement outside the section. -/
theorem at_places {place : Place} (outside : ¬ Inside place) {t : Nat} (inside : Inside ((m.at place).places t)) :
    t ≠ m.kernel.execTerm ∧ Inside (m.places t) := by
  have at_ : (m.at place).places t = Function.update m.places m.kernel.execTerm place t := rfl
  rw [at_] at inside
  by_cases here : t = m.kernel.execTerm
  · subst here
    rw [Function.update_self] at inside
    exact absurd inside outside
  · rw [Function.update_of_ne here] at inside
    exact ⟨here,inside⟩

/-- The mask is cleared: the sections stay exclusive when no call is inside. -/
theorem unmasked_iff (unmasked : after.masked = false) : Excluded after ↔ ∀ t, ¬ Inside (after.places t) := by
  constructor
  · intro excluded t inside
    rw [excluded t inside] at unmasked
    cases unmasked
  · intro none t inside
    exact absurd inside (none t)

/-- A step that unmasks nothing is alone. -/
theorem alone_calm {e : Event} (calm : ¬ Unmasks fs m e) : Alone fs m e := fun unmasks => absurd unmasks calm

theorem go_excluded (excluded : Excluded m) (free : m.pending m.kernel.execTerm = 0) (taken : go m = .ok after) :
    Excluded after ↔ Alone fs m .go := by
  obtain ⟨⟨k,masked,place⟩,advanced,same⟩ := bind_eq_ok.mp taken
  cases same
  have others : ∀ t, t ≠ m.kernel.execTerm → Function.update m.places m.kernel.execTerm place t = m.places t :=
    fun t other => Function.update_of_ne other _ _
  rcases advance_inside advanced with ⟨enables,rfl,outside⟩ | ⟨keeps,rfl⟩ | ⟨keeps,rfl,within⟩
  · rw [unmasked_iff rfl]
    constructor
    · intro none _ t inside
      refine ⟨rfl,?_⟩
      by_contra other
      refine none t ?_
      show Inside (Function.update m.places m.kernel.execTerm place t)
      rw [others t other]
      exact inside
    · intro alone t inside
      obtain ⟨other,inside⟩ := at_places outside inside
      exact other (alone ⟨free,enables⟩ t inside).2
  · exact iff_of_true (fun _ _ => rfl) (alone_calm fun unmasks => keeps unmasks.2)
  · refine iff_of_true (excluded_calm excluded rfl fun t inside => ?_) (alone_calm fun unmasks => keeps unmasks.2)
    by_cases here : t = m.kernel.execTerm
    · subst here
      simp only [Function.update_self] at inside
      exact within inside
    · exact (others t here) ▸ inside

theorem execute_excluded {fuel : Nat} {command : Command} (excluded : Excluded m) (free : ¬ m.Busy)
    (taken : execute fs m fuel command = .ok after) : Excluded after ↔ Alone fs m (.op (.execute fuel command)) := by
  obtain ⟨result,executed,ended⟩ := bind_eq_ok.mp taken
  cases result with
  | returned value k =>
    by_cases refused : value = 0
    · subst refused
      cases ended
      rw [unmasked_iff rfl]
      constructor
      · intro none _ t inside
        exact absurd inside (none t)
      · intro alone t inside
        exact absurd (alone ⟨free,k,executed⟩ t inside).1 (by simp)
    · simp only [refused,if_false] at ended
      cases ended
      refine iff_of_true excluded (alone_calm ?_)
      rintro ⟨_,k',executed'⟩
      rw [executed] at executed'
      cases executed'
      exact refused rfl
  | started eip k =>
    cases ended
    refine iff_of_true excluded (alone_calm ?_)
    rintro ⟨_,k',executed'⟩
    rw [executed] at executed'
    cases executed'

/-- Where the sections are exclusive, a step keeps them so exactly when it
    unmasks nothing that another call relies on. -/
theorem step_excluded {e : Event} (excluded : Excluded m) (taken : step fs m e = .ok after) :
    Excluded after ↔ Alone fs m e := by
  cases e with
  | op op =>
    cases op with
    | execute fuel command =>
      simp only [step] at taken
      split at taken
      · rename_i busy
        cases taken
        exact iff_of_true excluded (alone_calm fun unmasks => unmasks.1 busy)
      · rename_i free
        exact execute_excluded excluded free taken
    | switchTo fuel termNum =>
      cases taken
      exact iff_of_true excluded (alone_calm not_false)
    | exception fuel text =>
      refine iff_of_true ?_ (alone_calm not_false)
      simp only [step] at taken
      split at taken
      · cases taken
        exact excluded
      · obtain ⟨k,_,same⟩ := bind_eq_ok.mp taken
        cases same
        exact excluded_calm excluded rfl fun t inside => (at_places (show ¬ Inside .idle from not_false) inside).2
    | trap | frame | halt | vidmap | pit =>
      refine iff_of_true ?_ (alone_calm not_false)
      simp only [step] at taken
      split at taken
      · cases taken
        exact excluded
      · obtain ⟨k,_,same⟩ := bind_eq_ok.mp taken
        cases same
        exact excluded_calm excluded rfl fun t inside => inside
  | key fuel c c2 =>
    refine iff_of_true ?_ (alone_calm not_false)
    simp only [step] at taken
    split at taken
    · cases taken
      exact excluded
    · obtain ⟨k,_,same⟩ := bind_eq_ok.mp taken
      split at same
      · cases same
        exact excluded_calm excluded rfl fun t inside => inside
      · cases same
        exact excluded_calm excluded rfl fun t inside => inside
  | rtc =>
    cases taken
    exact iff_of_true excluded (alone_calm not_false)
  | read nbytes first =>
    refine iff_of_true ?_ (alone_calm not_false)
    cases taken
    split
    · exact excluded
    · exact excluded_calm excluded rfl fun t inside => (at_places (by simp [Inside]) inside).2
  | write text =>
    refine iff_of_true ?_ (alone_calm not_false)
    cases taken
    split
    · exact excluded
    · exact excluded_calm excluded rfl fun t inside => (at_places (show ¬ Inside (.disable text) from not_false) inside).2
  | go =>
    simp only [step] at taken
    split at taken
    · rename_i below
      cases taken
      exact iff_of_true excluded (alone_calm fun unmasks => below unmasks.1)
    · rename_i free
      exact go_excluded excluded (not_not.mp free) taken
  | resume =>
    simp only [step] at taken
    split at taken
    · rename_i none
      cases taken
      exact iff_of_true excluded (alone_calm fun unmasks => unmasks none)
    · rename_i handler
      cases taken
      rw [unmasked_iff rfl]
      constructor
      · intro none _ t inside
        exact absurd inside (none t)
      · intro alone t inside
        exact absurd (alone handler t inside).1 (by simp)

theorem booted_excluded (booted : Booted fs m) : Excluded m := by
  intro t inside
  rw [booted.idle t] at inside
  exact absurd inside not_false

/-- A run keeps the keyboard masked in all sections exactly when each of its
    steps unmasks it only for its own call, with no other call inside. -/
theorem exclusion_iff (booted : Booted fs m) (events : List Event) :
    Throughout (step fs) Excluded m events ↔
      EachStep (step fs) (fun m e => ∀ after, step fs m e = .ok after → Alone fs m e) m events :=
  throughout_iff (fun _ _ _ _ _ => trivial) (fun _ _ _ _ excluded taken => step_excluded excluded taken) trivial
    (booted_excluded booted) events

end

/-- A kernel whose processes are outside the kernel. -/
def quiet (k : Kernel) : Machine := ⟨k,false,fun _ => .idle,fun _ => 0⟩

theorem quiet_booted {fs : Fs} {k : Kernel} (started : Started fs k) : Booted fs (quiet k) :=
  ⟨started,rfl,fun _ => rfl,fun _ => rfl⟩

theorem exclusion_shell : ∃ first, Booted ReadData.shellFs first ∧
    Throughout (step ReadData.shellFs) Excluded first [.write [65],.go] := by
  obtain ⟨k,started⟩ := Boot.started_exists Boot.shellFs_image default
  refine ⟨quiet k,quiet_booted started,?_⟩
  refine (exclusion_iff (quiet_booted started) _).mpr ⟨fun _ _ => alone_calm not_false,fun m taken => ⟨fun _ _ => ?_,?_⟩⟩
  · cases taken
    refine alone_calm fun unmasks => ?_
    have enables : Enables (Function.update (fun _ => Place.idle) k.execTerm (.disable [65]) k.execTerm) := unmasks.2
    rw [Function.update_self] at enables
    exact enables
  · exact fun _ _ => trivial

/-- The mask, and whether the call of the first terminal is inside its section. -/
def observed (m : Checked Machine) : Option (Bool × Bool) :=
  match m with
  | .ok m => some (m.masked,decide (Inside (m.places 0)))
  | .error _ => none

/-- A shell is started on the second terminal with Alt-F2. The first shell is
    preempted in its `terminal_write`, and the second writes a character. -/
def twoWrites : List Event :=
  [.key 253 0x38 0,.key 253 0x3C 0,.op .pit,.resume,.write [65],.go,.op .pit,.write [66],.go,.go,.go]

/-- The `enable_irq` of one process unmasks the keyboard inside the section of
    another. -/
theorem exclusion_fails : ∃ first, Booted ReadData.shellFs first ∧
    ¬ Throughout (step ReadData.shellFs) Excluded first twoWrites := by
  refine ⟨quiet Boot.shellKernel,quiet_booted Boot.shellKernel_started,fun always => ?_⟩
  have seen : observed (run (step ReadData.shellFs) (quiet Boot.shellKernel) twoWrites) = some (false,true) := by
    decide +kernel
  cases ran : run (step ReadData.shellFs) (quiet Boot.shellKernel) twoWrites with
  | error fault => rw [ran] at seen; cases seen
  | ok last =>
    rw [ran] at seen
    simp only [observed,Option.some.injEq,Prod.mk.injEq,decide_eq_true_eq] at seen
    have masked := throughout_last always ran 0 seen.2
    rw [seen.1] at masked
    cases masked

end MazeOS.KeyboardMask
