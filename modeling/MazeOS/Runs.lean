import Mathlib.Data.Set.Basic

/-!
Runs of a machine whose step may fail. `run` follows a list of events to the
state it leads to, or to the first failure. An invariant that every step keeps
holds of every state a run reaches (`run_invariant`). A property of the steps
of a run (`EachStep`) and a property of the states it passes through
(`Throughout`) follow from an invariant, or are equivalent to a condition on
every single step (`throughout_invariant`, `eachStep_mono`, `eachStep_iff`,
`throughout_iff`).
`watched` runs a monitor, a value computed from the steps taken so far, beside
the machine.
-/
namespace MazeOS.Runs
universe u v w
variable {σ γ : Type u} {ε : Type v} {φ : Type w}

/-- A sequence of two computations succeeds exactly when both of them do. -/
theorem bind_eq_ok {α β : Type u} {value : Except φ α} {next : α → Except φ β} {b : β} :
    (value >>= next) = .ok b ↔ ∃ a, value = .ok a ∧ next a = .ok b := by
  cases value with
  | ok a => simp [bind,Except.bind]
  | error f => simp [bind,Except.bind]

@[simp] theorem ok_bind {α β : Type u} (a : α) (next : α → Except φ β) : (Except.ok a >>= next) = next a := by
  simp only [bind,Except.bind]

@[simp] theorem error_bind {α β : Type u} (f : φ) (next : α → Except φ β) :
    ((Except.error f : Except φ α) >>= next) = .error f := by
  simp only [bind,Except.bind]

/-- The state that a list of events leads to, or the failure of the first step
    that fails. -/
def run (step : σ → ε → Except φ σ) : σ → List ε → Except φ σ
  | s, [] => .ok s
  | s, e :: rest => step s e >>= fun t => run step t rest

/-- Every step of a run satisfies `Q`, a property of the state before it and
    its event. A run ends with its first failing step. -/
def EachStep (step : σ → ε → Except φ σ) (Q : σ → ε → Prop) : σ → List ε → Prop
  | _, [] => True
  | s, e :: rest => Q s e ∧ ∀ t, step s e = .ok t → EachStep step Q t rest

/-- Every state that a run passes through satisfies `P`, its first and its last
    included. -/
def Throughout (step : σ → ε → Except φ σ) (P : σ → Prop) : σ → List ε → Prop
  | s, [] => P s
  | s, e :: rest => P s ∧ ∀ t, step s e = .ok t → Throughout step P t rest

instance throughoutDecidable (step : σ → ε → Except φ σ) (P : σ → Prop) [DecidablePred P] :
    ∀ (s : σ) (events : List ε), Decidable (Throughout step P s events)
  | s, [] => inferInstanceAs (Decidable (P s))
  | s, e :: rest =>
    match taken : step s e with
    | .ok t =>
      have := throughoutDecidable step P t rest
      decidable_of_iff (P s ∧ Throughout step P t rest) (by simp [Throughout,taken])
    | .error _ => decidable_of_iff (P s) (by simp [Throughout,taken])

instance eachStepDecidable (step : σ → ε → Except φ σ) (Q : σ → ε → Prop) [∀ s e, Decidable (Q s e)] :
    ∀ (s : σ) (events : List ε), Decidable (EachStep step Q s events)
  | _, [] => .isTrue trivial
  | s, e :: rest =>
    match taken : step s e with
    | .ok t =>
      have := eachStepDecidable step Q t rest
      decidable_of_iff (Q s e ∧ EachStep step Q t rest) (by simp [EachStep,taken])
    | .error _ => decidable_of_iff (Q s e) (by simp [EachStep,taken])

/-- States reached from an initial state by some run. -/
def Reachable (step : σ → ε → Except φ σ) (Start : σ → Prop) (s : σ) : Prop :=
  ∃ first events, Start first ∧ run step first events = .ok s

/-- A computation that ends in a value with a property. -/
def Leads (result : Except φ σ) (P : σ → Prop) : Prop := ∃ s, result = .ok s ∧ P s

instance leadsDecidable (result : Except φ σ) (P : σ → Prop) [DecidablePred P] : Decidable (Leads result P) :=
  match result with
  | .ok s => if holds : P s then .isTrue ⟨s,rfl,holds⟩ else .isFalse fun ⟨_,same,kept⟩ => holds (Except.ok.inj same ▸ kept)
  | .error _ => .isFalse nofun

/-- The machine beside a monitor that follows its steps. -/
def watched (step : σ → ε → Except φ σ) (monitor : σ → ε → σ → γ → γ) : σ × γ → ε → Except φ (σ × γ)
  | (s,g), e => step s e >>= fun t => .ok (t,monitor s e t g)

section
variable {step : σ → ε → Except φ σ}

@[simp] theorem run_nil (s : σ) : run step s [] = .ok s := rfl

theorem run_cons (s : σ) (e : ε) (rest : List ε) (last : σ) :
    run step s (e :: rest) = .ok last ↔ ∃ t, step s e = .ok t ∧ run step t rest = .ok last :=
  bind_eq_ok

theorem run_append (s last : σ) (before after : List ε) :
    run step s (before ++ after) = .ok last ↔ ∃ t, run step s before = .ok t ∧ run step t after = .ok last := by
  induction before generalizing s with
  | nil => simp
  | cons e rest ih =>
    simp only [List.cons_append,run_cons,ih]
    constructor
    · rintro ⟨t,taken,u,first,second⟩; exact ⟨u,⟨t,taken,first⟩,second⟩
    · rintro ⟨u,⟨t,taken,first⟩,second⟩; exact ⟨t,taken,u,first,second⟩

/-- What the steps of certain events keep, a run of such events keeps. -/
theorem run_invariant_on {Inv : σ → Prop} {Good : ε → Prop}
    (keeps : ∀ s e t, Good e → Inv s → step s e = .ok t → Inv t) {s last : σ} {events : List ε}
    (good : ∀ e, e ∈ events → Good e) (start : Inv s) (ran : run step s events = .ok last) : Inv last := by
  induction events generalizing s with
  | nil => cases ran; exact start
  | cons e rest ih =>
    obtain ⟨t,taken,further⟩ := (run_cons s e rest last).mp ran
    exact ih (fun e' later => good e' (List.mem_cons_of_mem e later))
      (keeps s e t (good e List.mem_cons_self) start taken) further

/-- What every step keeps, every run keeps. -/
theorem run_invariant {Inv : σ → Prop} (keeps : ∀ s e t, Inv s → step s e = .ok t → Inv t)
    {s last : σ} {events : List ε} (start : Inv s) (ran : run step s events = .ok last) : Inv last := by
  have keeps' : ∀ s e t, True → Inv s → step s e = .ok t → Inv t := fun s e t _ => keeps s e t
  exact run_invariant_on keeps' (fun _ _ => trivial) start ran

theorem reachable_start {Start : σ → Prop} {s : σ} (start : Start s) : Reachable step Start s :=
  ⟨s,[],start,rfl⟩

theorem reachable_step {Start : σ → Prop} {s t : σ} {e : ε} (reached : Reachable step Start s)
    (taken : step s e = .ok t) : Reachable step Start t := by
  obtain ⟨first,events,start,ran⟩ := reached
  exact ⟨first,events ++ [e],start,(run_append first t events [e]).mpr ⟨s,ran,(run_cons s e [] t).mpr ⟨t,taken,rfl⟩⟩⟩

theorem reachable_run {Start : σ → Prop} {s t : σ} {events : List ε} (reached : Reachable step Start s)
    (ran : run step s events = .ok t) : Reachable step Start t := by
  obtain ⟨first,before,start,ran'⟩ := reached
  exact ⟨first,before ++ events,start,(run_append first t before events).mpr ⟨s,ran',ran⟩⟩

/-- The invariant rule: what holds at the start and is kept by every step holds
    of every reachable state. -/
theorem reachable_invariant {Start Inv : σ → Prop} (initially : ∀ s, Start s → Inv s)
    (keeps : ∀ s e t, Inv s → step s e = .ok t → Inv t) {s : σ} (reached : Reachable step Start s) : Inv s := by
  obtain ⟨first,events,start,ran⟩ := reached
  exact run_invariant keeps (initially first start) ran

/-- Two properties of steps that agree wherever the invariant holds hold of the
    same runs. -/
theorem eachStep_iff {Inv : σ → Prop} {Q R : σ → ε → Prop} (keeps : ∀ s e t, Inv s → step s e = .ok t → Inv t)
    (same : ∀ s e, Inv s → (Q s e ↔ R s e)) {s : σ} (start : Inv s) (events : List ε) :
    EachStep step Q s events ↔ EachStep step R s events := by
  induction events generalizing s with
  | nil => exact Iff.rfl
  | cons e rest ih =>
    simp only [EachStep,same s e start]
    exact and_congr_right fun _ => forall_congr' fun t => imp_congr_right fun taken => ih (keeps s e t start taken)

/-- A property that certain events have in every state. -/
theorem eachStep_of_forall {Q : σ → ε → Prop} {events : List ε} (each : ∀ e, e ∈ events → ∀ s, Q s e) (s : σ) :
    EachStep step Q s events := by
  induction events generalizing s with
  | nil => exact trivial
  | cons e rest ih =>
    exact ⟨each e List.mem_cons_self s,fun t _ => ih (fun later member => each later (List.mem_cons_of_mem e member)) t⟩

/-- What holds of each step of a run holds of its last one. -/
theorem eachStep_last {Q : σ → ε → Prop} {s t : σ} {before : List ε} {e : ε} (all : EachStep step Q s (before ++ [e]))
    (ran : run step s before = .ok t) : Q t e := by
  induction before generalizing s with
  | nil => cases ran; exact all.1
  | cons first rest ih =>
    obtain ⟨u,taken,further⟩ := (run_cons s first rest t).mp ran
    exact ih (all.2 u taken) further

/-- What the steps with a property keep, a run of such steps keeps. -/
theorem eachStep_invariant {Inv : σ → Prop} {Q : σ → ε → Prop} (keeps : ∀ s e t, Inv s → Q s e → step s e = .ok t → Inv t)
    {s last : σ} {events : List ε} (start : Inv s) (all : EachStep step Q s events)
    (ran : run step s events = .ok last) : Inv last := by
  induction events generalizing s with
  | nil => cases ran; exact start
  | cons e rest ih =>
    obtain ⟨t,taken,further⟩ := (run_cons s e rest last).mp ran
    exact ih (keeps s e t start all.1 taken) (all.2 t taken) further

/-- What the steps with a property keep holds throughout a run of such steps. -/
theorem throughout_eachStep {Inv : σ → Prop} {Q : σ → ε → Prop}
    (keeps : ∀ s e t, Inv s → Q s e → step s e = .ok t → Inv t) {s : σ} {events : List ε} (start : Inv s)
    (all : EachStep step Q s events) : Throughout step Inv s events := by
  induction events generalizing s with
  | nil => exact start
  | cons e rest ih => exact ⟨start,fun t taken => ih (keeps s e t start all.1 taken) (all.2 t taken)⟩

/-- A property of the steps of a run implies another one under an invariant
    that it keeps. -/
theorem eachStep_mono {Inv : σ → Prop} {Q R : σ → ε → Prop} (keeps : ∀ s e t, Inv s → Q s e → step s e = .ok t → Inv t)
    (implies : ∀ s e, Inv s → Q s e → R s e) {s : σ} {events : List ε} (start : Inv s)
    (all : EachStep step Q s events) : EachStep step R s events := by
  induction events generalizing s with
  | nil => exact trivial
  | cons e rest ih =>
    exact ⟨implies s e start all.1,fun t taken => ih (keeps s e t start all.1 taken) (all.2 t taken)⟩

/-- A run that fails does so at one of its steps. -/
theorem eachStep_error {Q : σ → ε → Prop} {s : σ} {events : List ε} {f : φ} (all : EachStep step Q s events)
    (failed : run step s events = .error f) : ∃ t e, Q t e ∧ step t e = .error f := by
  induction events generalizing s with
  | nil => cases failed
  | cons e rest ih =>
    cases taken : step s e with
    | error f' =>
      rw [run,taken] at failed
      cases failed
      exact ⟨s,e,all.1,taken⟩
    | ok t =>
      rw [run,taken] at failed
      exact ih (all.2 t taken) failed

/-- What every step keeps holds throughout a run. -/
theorem throughout_invariant {Inv : σ → Prop} (keeps : ∀ s e t, Inv s → step s e = .ok t → Inv t) {s : σ}
    (start : Inv s) (events : List ε) : Throughout step Inv s events := by
  induction events generalizing s with
  | nil => exact start
  | cons e rest ih => exact ⟨start,fun t taken => ih (keeps s e t start taken)⟩

theorem throughout_mono {P Q : σ → Prop} (weaker : ∀ s, P s → Q s) {s : σ} {events : List ε}
    (all : Throughout step P s events) : Throughout step Q s events := by
  induction events generalizing s with
  | nil => exact weaker s all
  | cons e rest ih => exact ⟨weaker s all.1,fun t taken => ih (all.2 t taken)⟩

theorem throughout_head {P : σ → Prop} {s : σ} {events : List ε} (all : Throughout step P s events) : P s := by
  cases events with
  | nil => exact all
  | cons _ _ => exact all.1

/-- What the steps to states with `P` keep, a run through such states keeps. -/
theorem throughout_run {Inv P : σ → Prop} (keeps : ∀ s e t, Inv s → P t → step s e = .ok t → Inv t) {s last : σ}
    {events : List ε} (start : Inv s) (all : Throughout step P s events) (ran : run step s events = .ok last) :
    Inv last := by
  induction events generalizing s with
  | nil => cases ran; exact start
  | cons e rest ih =>
    obtain ⟨t,taken,further⟩ := (run_cons s e rest last).mp ran
    exact ih (keeps s e t start (throughout_head (all.2 t taken)) taken) (all.2 t taken) further

/-- What holds wherever a first part of a run leads holds throughout it. -/
theorem throughout_of_prefixes {P : σ → Prop} {s : σ} {events : List ε}
    (each : ∀ before after t, events = before ++ after → run step s before = .ok t → P t) :
    Throughout step P s events := by
  induction events generalizing s with
  | nil => exact each [] [] s rfl rfl
  | cons e rest ih =>
    refine ⟨each [] (e :: rest) s rfl rfl,fun t taken => ih ?_⟩
    intro before after u split ran
    exact each (e :: before) after u (by rw [split,List.cons_append]) ((run_cons s e before u).mpr ⟨t,taken,ran⟩)

/-- What holds throughout a run holds in the state that it leads to. -/
theorem throughout_last {P : σ → Prop} {s t : σ} {events : List ε} (all : Throughout step P s events)
    (ran : run step s events = .ok t) : P t := by
  induction events generalizing s with
  | nil => cases ran; exact all
  | cons e rest ih =>
    obtain ⟨u,taken,further⟩ := (run_cons s e rest t).mp ran
    exact ih (all.2 u taken) further

/-- Where one step from a state with `P` leads to a state with `P` exactly when
    it meets the condition `Q`, a run from such a state passes only through
    states with `P` exactly when each of its steps meets `Q`. -/
theorem throughout_iff {Inv P : σ → Prop} {Q : σ → ε → Prop}
    (keeps : ∀ s e t, Inv s → step s e = .ok t → Inv t)
    (exactly : ∀ s e t, Inv s → P s → step s e = .ok t → (P t ↔ Q s e))
    {s : σ} (start : Inv s) (holds : P s) (events : List ε) :
    Throughout step P s events ↔ EachStep step (fun s e => ∀ t, step s e = .ok t → Q s e) s events := by
  induction events generalizing s with
  | nil => simpa [Throughout,EachStep] using holds
  | cons e rest ih =>
    simp only [Throughout,EachStep,holds,true_and]
    constructor
    · intro all
      have good : ∀ t, step s e = .ok t → P t := fun t taken => by
        cases rest with
        | nil => exact all t taken
        | cons _ _ => exact (all t taken).1
      exact ⟨fun t taken => (exactly s e t start holds taken).mp (good t taken),
        fun t taken => (ih (keeps s e t start taken) (good t taken)).mp (all t taken)⟩
    · rintro ⟨first,others⟩ t taken
      exact (ih (keeps s e t start taken) ((exactly s e t start holds taken).mpr (first t taken))).mpr (others t taken)

/-- A step of the watched machine is a step of the machine and of its monitor. -/
theorem watched_eq_ok {monitor : σ → ε → σ → γ → γ} {s t : σ} {g h : γ} {e : ε} :
    watched step monitor (s,g) e = .ok (t,h) ↔ step s e = .ok t ∧ h = monitor s e t g := by
  simp only [watched,bind_eq_ok,Except.ok.injEq,Prod.mk.injEq]
  constructor
  · rintro ⟨t,taken,rfl,rfl⟩; exact ⟨taken,rfl⟩
  · rintro ⟨taken,rfl⟩; exact ⟨t,taken,rfl,rfl⟩

/-- The watched machine runs as the machine does. -/
theorem watched_run (monitor : σ → ε → σ → γ → γ) {s last : σ} {events : List ε} (ran : run step s events = .ok last)
    (g : γ) : ∃ h, run (watched step monitor) (s,g) events = .ok (last,h) := by
  induction events generalizing s g with
  | nil => cases ran; exact ⟨g,rfl⟩
  | cons e rest ih =>
    obtain ⟨t,taken,further⟩ := (run_cons s e rest last).mp ran
    obtain ⟨h,ran'⟩ := ih further (monitor s e t g)
    exact ⟨h,(run_cons _ e rest _).mpr ⟨_,watched_eq_ok.mpr ⟨taken,rfl⟩,ran'⟩⟩

/-- A property of the steps is one of the watched steps. -/
theorem eachStep_watched {monitor : σ → ε → σ → γ → γ} {Q : σ → ε → Prop} {s : σ} {g : γ} {events : List ε}
    (all : EachStep step Q s events) : EachStep (watched step monitor) (fun s e => Q s.1 e) (s,g) events := by
  induction events generalizing s g with
  | nil => exact trivial
  | cons e rest ih =>
    refine ⟨all.1,?_⟩
    rintro ⟨t,h⟩ taken
    exact ih (all.2 t (watched_eq_ok.mp taken).1)

end

end MazeOS.Runs
