import Mathlib.Logic.Basic

/-!
Machines that go on by themselves. `step` is the next state, or `none` where the
machine stops. `Passes` follows a machine through states with a property to a
state; a run that stops comes through every state that a run from the same state
reaches (`passes_rest`).
-/
namespace MazeOS.Machines
universe u
variable {σ : Type u} {step : σ → Option σ} {P Q : σ → Prop} {s t v : σ}

/-- The machine goes from one state to another, and every state on the way has a
    property, the first and the last one included. -/
inductive Passes (step : σ → Option σ) (P : σ → Prop) : σ → σ → Prop where
  | stay {s : σ} (holds : P s) : Passes step P s s
  | next {s t v : σ} (holds : P s) (taken : step s = some t) (rest : Passes step P t v) : Passes step P s v

/-- The machine goes from one state to another. -/
abbrev Reaches (step : σ → Option σ) : σ → σ → Prop := Passes step fun _ => True

theorem passes_first (passes : Passes step P s t) : P s := by
  cases passes with
  | stay holds => exact holds
  | next holds _ _ => exact holds

theorem passes_trans (first : Passes step P s t) (second : Passes step P t v) : Passes step P s v := by
  induction first with
  | stay _ => exact second
  | next holds taken _ ih => exact .next holds taken (ih second)

theorem passes_mono (weaker : ∀ s, P s → Q s) (passes : Passes step P s t) : Passes step Q s t := by
  induction passes with
  | stay holds => exact .stay (weaker _ holds)
  | next holds taken _ ih => exact .next (weaker _ holds) taken ih

/-- One step. -/
theorem passes_step (before : P s) (taken : step s = some t) (after : P t) : Passes step P s t :=
  .next before taken (.stay after)

/-- A run that does not stop where it starts goes through the next state. -/
theorem passes_tail (passes : Passes step P s v) (taken : step s = some t) (stops : step v = none) :
    Passes step P t v := by
  cases passes with
  | stay _ => rw [taken] at stops; cases stops
  | next _ taken' rest =>
    rw [taken] at taken'
    cases taken'
    exact rest

/-- A run that stops comes through every state that a run reaches. -/
theorem passes_rest (first : Passes step P s t) (second : Passes step Q s v) (stops : step v = none) :
    Passes step Q t v := by
  induction first with
  | stay _ => exact second
  | next _ taken _ ih => exact ih (passes_tail second taken stops)

/-- A loop comes to its exit when each turn does, or lowers a measure. -/
theorem reaches_loop (Inv : Nat → σ → Prop) {Exit : σ → Prop}
    (turn : ∀ left s, Inv left s → ∃ t, Reaches step s t ∧ (Exit t ∨ ∃ fewer, fewer < left ∧ Inv fewer t))
    {left : Nat} (inv : Inv left s) : ∃ t, Reaches step s t ∧ Exit t := by
  induction left using Nat.strongRecOn generalizing s with
  | _ left ih =>
  obtain ⟨t,first,out | ⟨fewer,less,again⟩⟩ := turn left s inv
  · exact ⟨t,first,out⟩
  · obtain ⟨v,rest,out⟩ := ih fewer less again
    exact ⟨v,passes_trans first rest,out⟩

end MazeOS.Machines
