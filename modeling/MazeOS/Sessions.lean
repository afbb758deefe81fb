import MazeOS.KeyboardRead

/-!
A terminal that is active and executing, with no modifier pressed. What its
user and its process do there depends on little of the machine: the mask, the
line and the call (`Desk`). A run of this small machine is a run of the whole
one (`run_attended`), and ends with the same fault.
-/
namespace MazeOS.Sessions
open MazeOS.Runs MazeOS.Bytes MazeOS.Faults MazeOS.Filesystem MazeOS.State MazeOS.Display MazeOS.Process MazeOS.Files
  MazeOS.Syscalls MazeOS.Terminal MazeOS.Steps MazeOS.Boot MazeOS.Keyboard MazeOS.KeyboardRead

/-- What happens at the terminal. -/
inductive Act where
  | key (c : UInt8)
  | call (nbytes : Int)
  | read
  /-- A switch to terminal 1 that is refused. -/
  | refused
  deriving DecidableEq

def Act.event : Act → Event
  | .key c => .key 0 c 0
  | .call nbytes => .call nbytes
  | .read => .read
  | .refused => .op (.switchTo 0 1)

structure Desk where
  masked : Bool
  line : Line
  reader : Reader

def deskStep (d : Desk) : Act → Checked Desk
  | .key c =>
    if d.masked then .ok d
    else strokeLine d.line (pressStroke noModifiers c) >>= fun line => .ok { d with line := line }
  | .call nbytes =>
    if d.reader.place ≠ .idle then .ok d else .ok { d with reader := ⟨.setReadAck,unsigned nbytes,0,[]⟩ }
  | .read => statement d.line d.reader >>= fun (line,r) => .ok ⟨maskAfter d.masked d.reader.place,line,r⟩
  | .refused => .ok { d with line := wake d.line }

/-- A key that is pressed and is no modifier. -/
def Typed (c : UInt8) : Prop := checkModifierKeys noModifiers c 0 = none ∧ c &&& releasedMask = 0

instance (c : UInt8) : Decidable (Typed c) := inferInstanceAs (Decidable (_ ∧ _))

/-- What can happen in a session that has started in a kernel. -/
def Possible (first : Kernel) : Act → Prop
  | .key c => Typed c
  | .refused => RefusedSwitch first 1
  | _ => True

/-- Keys that are pressed, calls and statements can happen in every session. -/
def simple : Act → Bool
  | .key c => decide (Typed c)
  | .refused => false
  | _ => true

theorem simple_possible {first : Kernel} {acts : List Act} (all : acts.all simple = true) :
    ∀ act, act ∈ acts → Possible first act := by
  intro act member
  have here := List.all_eq_true.mp all act member
  cases act with
  | key c =>
    have typed : Typed c := of_decide_eq_true here
    exact typed
  | refused => cases here
  | _ => trivial

/-- The machine in a session that has started in the kernel `first`. -/
structure Attended (first : Kernel) (m : Machine) (d : Desk) : Prop where
  executing : m.kernel.execTerm = first.currTerminal
  active : m.kernel.currTerminal = first.currTerminal
  modifiers : m.kernel.modifiers = noModifiers
  pids : m.kernel.availablePids = first.availablePids
  procs : ∀ t, (m.kernel.terminals t).numProcs = (first.terminals t).numProcs
  masked : m.masked = d.masked
  line : m.line first.currTerminal = d.line
  reader : m.readers first.currTerminal = d.reader

/-- A step of the whole machine does what the small one does. -/
def Follows (first : Kernel) (small : Checked Desk) (whole : Checked Machine) : Prop :=
  match small with
  | .error fault => whole = .error fault
  | .ok d => ∃ m, whole = .ok m ∧ Attended first m d

section
variable {fs : Fs} {first : Kernel} {m : Machine} {d : Desk}

theorem typed_stroke {k : Kernel} {c : UInt8} (typed : Typed c) (modifiers : k.modifiers = noModifiers) :
    strokeOf k c 0 = some (pressStroke noModifiers c) := by
  have special : ¬ (checkModifierKeys k.modifiers c 0 ≠ none ∨ SwitchKey k.modifiers c) := by
    rw [modifiers]
    rintro (modifier | switch)
    · exact modifier typed.1
    · exact absurd switch.1 (by decide)
  have noControl : ¬ ((activeTerm k).readAck = true ∧ ctrlHeld k.modifiers = true) := by
    rw [modifiers]
    rintro ⟨_,held⟩
    exact absurd held (by decide)
  rw [strokeOf,if_neg special,if_neg noControl,if_pos typed.2,modifiers]

/-- The active line is changed, and the screen. -/
theorem attended_line (attended : Attended first m d) {line : Line} {after : Kernel}
    (draws : Draws (setLine m.kernel m.kernel.currTerminal line) after) :
    Attended first { m with kernel := after } { d with line := line } := by
  obtain ⟨current,modifiers,same⟩ := setLine_drawn draws
  obtain ⟨_,_,place,rfl⟩ := draws
  refine ⟨attended.executing,attended.active,attended.modifiers,attended.pids,?_,attended.masked,?_,attended.reader⟩
  · intro t
    rw [← attended.procs t]
    by_cases here : t = m.kernel.currTerminal
    · subst here; simp [drawn,setLine,setTerminal]
    · simp [drawn,setLine,setTerminal,here]
  · rw [← attended.active]
    exact same

theorem key_attended (attended : Attended first m d) {c : UInt8} (typed : Typed c) :
    Follows first (deskStep d (.key c)) (KeyboardRead.step fs m (.key 0 c 0)) := by
  have stroke := typed_stroke typed attended.modifiers
  have edits := handler_stroke fs 0 stroke
  have line : lineOf m.kernel m.kernel.currTerminal = d.line := by
    rw [attended.active]
    exact attended.line
  rw [line] at edits
  simp only [deskStep,KeyboardRead.step]
  by_cases masked : d.masked = true
  · rw [if_pos masked,if_pos (attended.masked.trans masked)]
    exact ⟨m,rfl,attended⟩
  · rw [if_neg masked,if_neg (attended.masked ▸ masked)]
    cases edited : strokeLine d.line (pressStroke noModifiers c) with
    | error fault =>
      rw [edited] at edits
      have failed : keyboardInterruptHandler fs 0 m.kernel c 0 = .error fault := edits
      rw [failed]
      exact rfl
    | ok line =>
      rw [edited] at edits
      obtain ⟨after,done,draws⟩ := edits
      rw [done]
      exact ⟨_,rfl,attended_line attended draws⟩

theorem read_attended (attended : Attended first m d) :
    Follows first (deskStep d .read) (KeyboardRead.step fs m .read) := by
  have line : m.line m.kernel.execTerm = d.line := by
    rw [attended.executing]
    exact attended.line
  have reader : m.readers m.kernel.execTerm = d.reader := by
    rw [attended.executing]
    exact attended.reader
  simp only [deskStep,KeyboardRead.step,readStep,line,reader]
  cases goes : statement d.line d.reader with
  | error fault => exact rfl
  | ok result =>
    have here : m.kernel.execTerm = m.kernel.currTerminal := attended.executing.trans attended.active.symm
    have edited := attended_line attended (draws_refl (setLine m.kernel m.kernel.currTerminal result.1))
    rw [← here] at edited
    refine ⟨_,rfl,edited.executing,edited.active,edited.modifiers,edited.pids,edited.procs,?_,edited.line,?_⟩
    · simp only [attended.masked]
    · simp only [attended.executing,Function.update_self]

theorem call_attended (attended : Attended first m d) (nbytes : Int) :
    Follows first (deskStep d (.call nbytes)) (KeyboardRead.step fs m (.call nbytes)) := by
  have busy : m.Busy ↔ d.reader.place ≠ .idle := by
    rw [Machine.Busy,attended.executing,attended.reader]
  simp only [deskStep,KeyboardRead.step,busy]
  by_cases idle : d.reader.place ≠ .idle
  · rw [if_pos idle,if_pos idle]
    exact ⟨m,rfl,attended⟩
  · rw [if_neg idle,if_neg idle]
    refine ⟨_,rfl,attended.executing,attended.active,attended.modifiers,attended.pids,attended.procs,attended.masked,
      attended.line,?_⟩
    simp only [attended.executing,Function.update_self]

theorem acked_draws {k l : Kernel} (draws : Draws k l) :
    Draws (setLine k k.currTerminal (wake (lineOf k k.currTerminal)))
      (setTerminal l l.currTerminal { activeTerm l with ack := true }) := by
  have start : Draws (setLine k k.currTerminal (lineOf k k.currTerminal)) l := by
    rw [setLine_self]
    exact draws
  obtain ⟨_,_,same⟩ := setLine_drawn start
  rw [← same]
  exact setLine_draws start _

/-- A switch without a free process ID to a terminal without processes. -/
theorem refused_switch (fs : Fs) (fuel : Nat) {k : Kernel} {termNum : Nat} (inside : termNum < maxTerminals)
    (other : k.currTerminal ≠ termNum) (noPid : getAvailablePid k = (-1,k))
    (bare : (k.terminals termNum).numProcs = 0) :
    ∃ after, switchActiveTerminal fs fuel k termNum = .ok after ∧
      Draws (setLine k k.currTerminal (wake (lineOf k k.currTerminal))) after := by
  have drawn := printf_draws k notAvailableMessage
  simp only [switchActiveTerminal]
  rw [if_neg (Nat.not_le_of_lt inside),if_neg other]
  simp only [noPid]
  rw [if_pos ⟨by decide,bare⟩]
  exact ⟨_,rfl,acked_draws drawn⟩

theorem refused_attended (attended : Attended first m d) (refused : RefusedSwitch first 1) :
    Follows first (deskStep d .refused) (KeyboardRead.step fs m (.op (.switchTo 0 1))) := by
  have other : ¬ m.kernel.currTerminal = 1 := by
    rw [attended.active]
    exact refused.1
  have noPid : getAvailablePid m.kernel = (-1,m.kernel) := by
    rcases getAvailablePid_cases m.kernel with ⟨i,inside,free,_,_⟩ | ⟨_,none⟩
    · rcases getAvailablePid_cases first with ⟨_,_,_,_,handed⟩ | ⟨used,_⟩
      · have positive := refused.2.1
        rw [handed] at positive
        simp only at positive
        omega
      · rw [attended.pids] at free
        exact absurd free (used i inside)
    · exact none
  have bare : (m.kernel.terminals 1).numProcs = 0 := by
    rw [attended.procs]
    exact refused.2.2
  have line : lineOf m.kernel m.kernel.currTerminal = d.line := by
    rw [attended.active]
    exact attended.line
  obtain ⟨after,switched,draws⟩ := refused_switch fs 0 (by decide) other noPid bare
  rw [line] at draws
  simp only [deskStep,KeyboardRead.step,Steps.step,switched,ownCall]
  exact ⟨_,rfl,attended_line attended draws⟩

/-- An act of the session is a step of the machine. -/
theorem act_attended (attended : Attended first m d) {act : Act} (possible : Possible first act) :
    Follows first (deskStep d act) (KeyboardRead.step fs m act.event) := by
  cases act with
  | key c => exact key_attended attended possible
  | call nbytes => exact call_attended attended nbytes
  | read => exact read_attended attended
  | refused => exact refused_attended attended possible

/-- A session is a run of the machine. -/
theorem run_attended (attended : Attended first m d) {acts : List Act} (possible : ∀ act, act ∈ acts → Possible first act) :
    Follows first (run deskStep d acts) (run (KeyboardRead.step fs) m (acts.map Act.event)) := by
  induction acts generalizing m d with
  | nil => exact ⟨m,rfl,attended⟩
  | cons act rest ih =>
    have follows : Follows first (deskStep d act) (KeyboardRead.step fs m act.event) :=
      act_attended attended (possible act List.mem_cons_self)
    simp only [run,List.map_cons]
    cases taken : deskStep d act with
    | error fault =>
      rw [taken] at follows
      have failed : KeyboardRead.step fs m act.event = .error fault := follows
      rw [failed]
      exact rfl
    | ok d' =>
      rw [taken] at follows
      obtain ⟨m',taken',attended'⟩ := follows
      rw [taken']
      exact ih attended' fun later member => possible later (List.mem_cons_of_mem act member)

/-- A session that keeps to a condition keeps to it in the machine. -/
theorem eachStep_attended {Q : Machine → Event → Prop} {P : Desk → Act → Prop}
    (transfer : ∀ m d act, Attended first m d → Possible first act → P d act → Q m act.event) (attended : Attended first m d)
    {acts : List Act} (possible : ∀ act, act ∈ acts → Possible first act) (all : EachStep deskStep P d acts) :
    EachStep (KeyboardRead.step fs) Q m (acts.map Act.event) := by
  induction acts generalizing m d with
  | nil => exact trivial
  | cons act rest ih =>
    refine ⟨transfer m d act attended (possible act List.mem_cons_self) all.1,?_⟩
    intro m' taken'
    have follows : Follows first (deskStep d act) (KeyboardRead.step fs m act.event) :=
      act_attended attended (possible act List.mem_cons_self)
    cases taken : deskStep d act with
    | error fault =>
      rw [taken] at follows
      have failed : KeyboardRead.step fs m act.event = .error fault := follows
      rw [failed] at taken'
      cases taken'
    | ok d' =>
      rw [taken] at follows
      obtain ⟨m'',same,attended'⟩ := follows
      rw [same] at taken'
      cases taken'
      exact ih attended' (fun later member => possible later (List.mem_cons_of_mem act member)) (all.2 d' taken)

end

/-- A session can start on a terminal that no key was pressed for. -/
theorem crowd_attended {k : Kernel} {n : Nat} (crowd : Crowd k n) :
    Attended k (quietMachine k) ⟨false,emptyLine,default⟩ := by
  refine ⟨crowd.exec.trans crowd.current.symm,rfl,crowd.modifiers,rfl,fun _ => rfl,rfl,?_,rfl⟩
  rw [crowd.current]
  exact crowd.lines 0 (by decide)

theorem started_attended {fs : Fs} {k : Kernel} (started : Started fs k) :
    Attended k (quietMachine k) ⟨false,emptyLine,default⟩ := crowd_attended (started_crowd started)

end MazeOS.Sessions
