import MazeOS.KeyboardRead

/-!
Who gets a tick of the RTC. All processes that wait in `rtc_read` poll one flag,
which the interrupt sets, and which every one of them resets at the start and at
the end of its call. A monitor beside the run notes for which terminals a tick
is due, and from which of them another process has taken it (`mark`).
`ticks_iff` says that a process misses a tick exactly when it was taken.
-/
namespace MazeOS.RtcTicks
open MazeOS.Runs MazeOS.Faults MazeOS.Filesystem MazeOS.State MazeOS.Terminal MazeOS.Steps
open MazeOS.KeyboardRead (ownCall)

/-- The next statement of `rtc_read`. -/
inductive Place where
  | idle
  | reset
  | poll
  | finish
  | leave
  deriving DecidableEq, Inhabited

/-- One statement: the flag after it, and the next one. -/
def statement (rtcInterruptOccurred : Bool) : Place → Bool × Place
  | .idle => (rtcInterruptOccurred,.idle)
  | .reset => (false,.poll)
  | .poll => (rtcInterruptOccurred,if rtcInterruptOccurred then .finish else .poll)
  | .finish => (false,.leave)
  | .leave => (rtcInterruptOccurred,.idle)

/-- The kernel, the flag, and the statement of the call on each terminal. -/
structure Machine where
  kernel : Kernel
  rtcInterruptOccurred : Bool
  places : Nat → Place

def Machine.place (m : Machine) : Place := m.places m.kernel.execTerm

/-- The executing process is inside `rtc_read`. -/
def Machine.Busy (m : Machine) : Prop := m.place ≠ .idle

instance (m : Machine) : Decidable m.Busy := inferInstanceAs (Decidable (_ ≠ _))

/-- The executing process goes to a statement. -/
def Machine.at (m : Machine) (place : Place) : Machine :=
  { m with places := Function.update m.places m.kernel.execTerm place }

inductive Event where
  | op (op : Op)
  | rtc
  /-- The executing process calls `rtc_read`. -/
  | read
  /-- The executing process opens or closes the RTC, which calls `rtc_init`. -/
  | init
  /-- The executing process goes on in `rtc_read`. -/
  | go

/-- One step. An event that cannot occur leaves the machine as it is. -/
def step (fs : Fs) (m : Machine) : Event → Checked Machine
  | .op op =>
    if ownCall op ∧ m.Busy then .ok m
    else Steps.step fs m.kernel op >>= fun k => .ok { m with kernel := k }
  | .rtc => .ok { m with rtcInterruptOccurred := true }
  | .read => .ok (if m.Busy then m else m.at .reset)
  | .init => .ok (if m.Busy then m else { m with rtcInterruptOccurred := false })
  | .go =>
    let (flag,place) := statement m.rtcInterruptOccurred m.place
    .ok { m.at place with rtcInterruptOccurred := flag }

/-- The machine when the first shell has been started, and no process is in a call. -/
structure Booted (fs : Fs) (m : Machine) : Prop where
  started : Started fs m.kernel
  idle : ∀ t, m.places t = .idle

/-! ### Ticks -/

/-- The terminals for which an interrupt was handled since the first reset of
    their call and their last poll, and those of them for which another process
    has reset the flag since the last interrupt. -/
structure Ticks where
  due : Nat → Bool
  taken : Nat → Bool

def noTicks : Ticks := ⟨fun _ => false,fun _ => false⟩

/-- The flag is reset for all terminals but one. -/
def Ticks.reset (g : Ticks) (t : Nat) : Ticks := { g with taken := fun u => if u = t then g.taken u else g.taken u || g.due u }

/-- A terminal has no tick due. -/
def Ticks.clear (g : Ticks) (t : Nat) : Ticks :=
  ⟨Function.update g.due t false,Function.update g.taken t false⟩

/-- A call has executed its first reset, and has not returned. -/
def Waits (place : Place) : Prop := place = .poll ∨ place = .finish ∨ place = .leave

instance (place : Place) : Decidable (Waits place) := inferInstanceAs (Decidable (_ ∨ _))

def mark (m : Machine) (e : Event) (_ : Machine) (g : Ticks) : Ticks :=
  match e with
  | .rtc => ⟨fun t => decide (Waits (m.places t)) || g.due t,fun _ => false⟩
  | .init => if m.Busy then g else g.reset m.kernel.execTerm
  | .go =>
    match m.place with
    | .reset => (g.reset m.kernel.execTerm).clear m.kernel.execTerm
    | .poll => g.clear m.kernel.execTerm
    | .finish => g.reset m.kernel.execTerm
    | _ => g
  | _ => g

/-- At a poll with a tick due, the flag is set and the call goes on to its end. -/
def Served (fs : Fs) (s : Machine × Ticks) (e : Event) : Prop :=
  e = .go → s.1.place = .poll → s.2.due s.1.kernel.execTerm = true →
    s.1.rtcInterruptOccurred = true ∧
      ∀ after, step fs s.1 .go = .ok after → after.places s.1.kernel.execTerm = .finish

/-- At a poll with a tick due, no other process has reset the flag since the
    last interrupt. -/
def Kept (s : Machine × Ticks) (e : Event) : Prop :=
  e = .go → s.1.place = .poll → s.2.due s.1.kernel.execTerm = true → s.2.taken s.1.kernel.execTerm = false

/-- For a process that polls with a tick due, the flag is set unless the tick was
    taken. -/
def Told (s : Machine × Ticks) : Prop :=
  ∀ t, s.1.places t = .poll → s.2.due t = true → (s.1.rtcInterruptOccurred = true ↔ s.2.taken t = false)

section
variable {fs : Fs} {m after : Machine} {g : Ticks}

/-- The flag is reset, and the ticks of all who poll are taken. -/
theorem told_taken {k : Kernel} {places : Nat → Place} {h : Ticks}
    (all : ∀ t, places t = .poll → h.due t = true → h.taken t = true) : Told (⟨k,false,places⟩,h) := by
  intro t polls due
  simp [all t polls due]

theorem reset_taken {t u : Nat} (other : u ≠ t) (due : (g.reset t).due u = true) : (g.reset t).taken u = true := by
  have due' : g.due u = true := due
  simp [Ticks.reset,other,due']

/-- Where the executing process is after a statement of its own. -/
theorem at_other {place : Place} {t : Nat} (other : t ≠ m.kernel.execTerm) : (m.at place).places t = m.places t :=
  Function.update_of_ne other _ _

theorem at_self (place : Place) : (m.at place).places m.kernel.execTerm = place := Function.update_self _ _ _

/-- One statement: the flag tells a process that polls whether its tick was taken. -/
theorem go_told (told : Told (m,g)) (taken : step fs m .go = .ok after) : Told (after,mark m .go after g) := by
  cases taken
  unfold mark
  cases place : m.place with
  | idle | leave =>
    -- The executing process does not poll, and nothing else has changed.
    intro t polls due
    by_cases here : t = m.kernel.execTerm
    · subst here
      rw [at_self] at polls
      cases polls
    · rw [at_other here] at polls
      exact told t polls due
  | reset =>
    refine told_taken fun t _ due => ?_
    by_cases here : t = m.kernel.execTerm
    · subst here
      simp [Ticks.clear] at due
    · simp only [Ticks.clear,Function.update_of_ne here] at due ⊢
      exact reset_taken here due
  | poll =>
    intro t polls due
    by_cases here : t = m.kernel.execTerm
    · subst here
      simp [Ticks.clear] at due
    · rw [at_other here] at polls
      simp only [Ticks.clear,Function.update_of_ne here] at due ⊢
      exact told t polls due
  | finish =>
    refine told_taken fun t polls due => ?_
    by_cases here : t = m.kernel.execTerm
    · subst here
      rw [at_self] at polls
      cases polls
    · exact reset_taken here due

theorem step_told {e : Event} (told : Told (m,g)) (taken : step fs m e = .ok after) :
    Told (after,mark m e after g) := by
  cases e with
  | op op =>
    simp only [step] at taken
    split at taken
    · cases taken; exact told
    · obtain ⟨k,_,same⟩ := bind_eq_ok.mp taken
      cases same
      exact told
  | rtc =>
    cases taken
    intro t _ _
    simp [mark]
  | read =>
    cases taken
    split
    · exact told
    · intro t polls due
      by_cases here : t = m.kernel.execTerm
      · subst here
        rw [at_self] at polls
        cases polls
      · rw [at_other here] at polls
        exact told t polls due
  | init =>
    cases taken
    unfold mark
    by_cases busy : m.Busy
    · simp only [busy,if_true]
      exact told
    · simp only [busy,if_false]
      refine told_taken fun t polls due => reset_taken ?_ due
      rintro rfl
      exact busy (fun idle => by rw [Machine.place] at idle; rw [idle] at polls; cases polls)
  | go => exact go_told told taken

/-- In a run that starts with no tick due, every process that polls with a tick
    due finds it exactly when no other process has taken it. -/
theorem ticks_iff (fs : Fs) (m : Machine) (events : List Event) :
    EachStep (watched (step fs) mark) (Served fs) (m,noTicks) events ↔
      EachStep (watched (step fs) mark) Kept (m,noTicks) events := by
  have initially : Told (m,noTicks) := fun t polls due => by cases due
  refine eachStep_iff ?_ ?_ initially events
  · rintro ⟨s,g⟩ e ⟨t,h⟩ told taken
    obtain ⟨stepped,rfl⟩ := watched_eq_ok.mp taken
    exact step_told told stepped
  · rintro ⟨s,g⟩ e told
    constructor
    · intro served goes polls due
      exact (told _ polls due).mp (served goes polls due).1
    · intro kept goes polls due
      have set := (told _ polls due).mpr (kept goes polls due)
      refine ⟨set,fun after taken => ?_⟩
      cases taken
      show (s.at _).places s.kernel.execTerm = .finish
      rw [at_self,polls]
      exact if_pos set

end

/-- A kernel whose processes are outside `rtc_read`. -/
def quiet (k : Kernel) : Machine := ⟨k,false,fun _ => .idle⟩

theorem quiet_booted {fs : Fs} {k : Kernel} (started : Started fs k) : Booted fs (quiet k) := ⟨started,fun _ => rfl⟩

def observed (s : Checked (Machine × Ticks)) : Option (Bool × Bool × Nat × Place) :=
  match s with
  | .ok (m,g) => some (m.rtcInterruptOccurred,g.due m.kernel.execTerm,m.kernel.execTerm,m.place)
  | .error _ => none

/-- The first shell waits in `rtc_read` when a shell is started on the second
    terminal and the interrupt comes; then the second shell calls `rtc_read`, and
    the first one polls. -/
def stolenTick : List Event := [.read,.go,.op (.switchTo 253 1),.rtc,.read,.go,.op .pit]

/-- A process misses the tick that came while it waited. -/
theorem ticks_fail : ∃ first, Booted ReadData.shellFs first ∧
    ¬ EachStep (watched (step ReadData.shellFs) mark) (Served ReadData.shellFs) (first,noTicks) (stolenTick ++ [.go]) := by
  refine ⟨quiet Boot.shellKernel,quiet_booted Boot.shellKernel_started,fun all => ?_⟩
  have seen : observed (run (watched (step ReadData.shellFs) mark) (quiet Boot.shellKernel,noTicks)
      stolenTick) = some (false,true,0,.poll) := by decide +kernel
  cases ran : run (watched (step ReadData.shellFs) mark) (quiet Boot.shellKernel,noTicks) stolenTick with
  | error fault => rw [ran] at seen; cases seen
  | ok last =>
    obtain ⟨m,g⟩ := last
    rw [ran] at seen
    simp only [observed,Option.some.injEq,Prod.mk.injEq] at seen
    have served := eachStep_last all ran rfl seen.2.2.2 seen.2.1
    rw [seen.1] at served
    cases served.1

end MazeOS.RtcTicks
