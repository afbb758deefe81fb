import Mathlib.Algebra.Ring.Int.Defs
import Mathlib.Algebra.Ring.Nat
import Mathlib.Data.List.Nodup
import Mathlib.Data.Finset.Card
import Mathlib.Logic.Function.Basic

/-!
Stacks that share nothing: one list for each index, the oldest element first,
such that no element occurs twice in them. An element is held (`Held`) when it
is on one of the stacks. `push` takes an element that is not held, `pop` drops
the newest one. Stacks that draw their elements from a finite set hold at most
as many as the set has (`sum_length_le`).
-/
namespace MazeOS.Stacks
universe u v
variable {ι : Type u} {α : Type v}

/-- One stack for each index, without an element that occurs twice. -/
structure Family (ι : Type u) (α : Type v) where
  stack : ι → List α
  nodup : ∀ i, (stack i).Nodup
  apart : ∀ i j x, x ∈ stack i → x ∈ stack j → i = j

def Held (s : Family ι α) (x : α) : Prop := ∃ i, x ∈ s.stack i

/-- The newest element of a stack. -/
def top (s : Family ι α) (i : ι) : Option α := (s.stack i).getLast?

def empty : Family ι α := ⟨fun _ => [],fun _ => List.nodup_nil,fun _ _ _ absent => by cases absent⟩

theorem top_mem {s : Family ι α} {i : ι} {x : α} (last : top s i = some x) : x ∈ s.stack i :=
  List.mem_of_getLast? last

theorem stack_eq_of_top {s : Family ι α} {i : ι} {x : α} (last : top s i = some x) :
    s.stack i = (s.stack i).dropLast ++ [x] :=
  (List.dropLast_append_getLast? x last).symm

section
variable [DecidableEq ι]

theorem mem_push {s : Family ι α} {i j : ι} {x y : α} :
    y ∈ Function.update s.stack i (s.stack i ++ [x]) j ↔ y ∈ s.stack j ∨ (j = i ∧ y = x) := by
  by_cases same : j = i
  · subst same; simp
  · simp [same]

theorem mem_pop {s : Family ι α} {i j : ι} {y : α}
    (member : y ∈ Function.update s.stack i (s.stack i).dropLast j) : y ∈ s.stack j := by
  by_cases same : j = i
  · subst same
    rw [Function.update_self] at member
    exact List.mem_of_mem_dropLast member
  · rwa [Function.update_of_ne same] at member

/-- An element that is not held goes on top of a stack. -/
def push (s : Family ι α) (i : ι) (x : α) (fresh : ¬ Held s x) : Family ι α where
  stack := Function.update s.stack i (s.stack i ++ [x])
  nodup j := by
    by_cases same : j = i
    · subst same
      rw [Function.update_self,List.nodup_append]
      refine ⟨s.nodup j,List.nodup_singleton x,?_⟩
      intro a old b new equal
      rw [List.mem_singleton] at new
      exact fresh ⟨j,new ▸ equal ▸ old⟩
    · rw [Function.update_of_ne same]
      exact s.nodup j
  apart j l y first second := by
    rcases mem_push.mp first with old | ⟨rfl,rfl⟩ <;> rcases mem_push.mp second with old' | ⟨rfl,new⟩
    · exact s.apart j l y old old'
    · subst new; exact absurd ⟨j,old⟩ fresh
    · exact absurd ⟨l,old'⟩ fresh
    · rfl

/-- The newest element leaves a stack. -/
def pop (s : Family ι α) (i : ι) : Family ι α where
  stack := Function.update s.stack i (s.stack i).dropLast
  nodup j := by
    by_cases same : j = i
    · subst same
      rw [Function.update_self]
      exact (s.nodup j).sublist (List.dropLast_sublist _)
    · rw [Function.update_of_ne same]
      exact s.nodup j
  apart j l y first second := s.apart j l y (mem_pop first) (mem_pop second)

/-! ### Elements -/

theorem held_push {s : Family ι α} {i : ι} {x y : α} (fresh : ¬ Held s x) :
    Held (push s i x fresh) y ↔ Held s y ∨ y = x := by
  constructor
  · rintro ⟨j,member⟩
    rcases mem_push.mp member with old | ⟨_,new⟩
    · exact .inl ⟨j,old⟩
    · exact .inr new
  · rintro (⟨j,old⟩ | new)
    · exact ⟨j,mem_push.mpr (.inl old)⟩
    · exact ⟨i,mem_push.mpr (.inr ⟨rfl,new⟩)⟩

omit [DecidableEq ι] in
theorem not_mem_dropLast {s : Family ι α} {i : ι} {x : α} (last : top s i = some x) :
    x ∉ (s.stack i).dropLast := by
  intro member
  have distinct := s.nodup i
  rw [stack_eq_of_top last,List.nodup_append] at distinct
  exact distinct.2.2 x member x (List.mem_singleton_self x) rfl

theorem held_pop {s : Family ι α} {i : ι} {x y : α} (last : top s i = some x) :
    Held (pop s i) y ↔ Held s y ∧ y ≠ x := by
  constructor
  · rintro ⟨j,member⟩
    refine ⟨⟨j,mem_pop member⟩,?_⟩
    rintro rfl
    have same := s.apart j i y (mem_pop member) (top_mem last)
    subst same
    exact not_mem_dropLast last (by simpa [pop] using member)
  · rintro ⟨⟨j,member⟩,other⟩
    refine ⟨j,?_⟩
    by_cases same : j = i
    · subst same
      rw [stack_eq_of_top last,List.mem_append,List.mem_singleton] at member
      rcases member with kept | dropped
      · simpa [pop] using kept
      · exact absurd dropped other
    · simpa [pop,same] using member

/-! ### Positions -/

@[simp] theorem top_push (s : Family ι α) (i : ι) (x : α) (fresh : ¬ Held s x) : top (push s i x fresh) i = some x := by
  simp [top,push]

theorem stack_push_other {s : Family ι α} {i j : ι} {x : α} {fresh : ¬ Held s x} (other : j ≠ i) :
    (push s i x fresh).stack j = s.stack j :=
  Function.update_of_ne other _ _

theorem stack_pop_other {s : Family ι α} {i j : ι} (other : j ≠ i) : (pop s i).stack j = s.stack j :=
  Function.update_of_ne other _ _

@[simp] theorem stack_push_self (s : Family ι α) (i : ι) (x : α) (fresh : ¬ Held s x) :
    (push s i x fresh).stack i = s.stack i ++ [x] :=
  Function.update_self _ _ _

@[simp] theorem stack_pop_self (s : Family ι α) (i : ι) : (pop s i).stack i = (s.stack i).dropLast :=
  Function.update_self _ _ _

/-- A position after `push` is an old one, or the new element on top. -/
theorem get_push {s : Family ι α} {i j : ι} {n : Nat} {x y : α} (fresh : ¬ Held s x)
    (place : ((push s i x fresh).stack j)[n]? = some y) :
    (s.stack j)[n]? = some y ∨ (j = i ∧ n = (s.stack i).length ∧ y = x) := by
  by_cases here : j = i
  · subst here
    rw [stack_push_self,List.getElem?_append] at place
    split at place
    · exact .inl place
    · rw [List.getElem?_singleton] at place
      split at place
      · exact .inr ⟨rfl,by omega,(Option.some.inj place).symm⟩
      · cases place
  · rw [stack_push_other here] at place
    exact .inl place

/-- A position after `pop` is an old one below the top. -/
theorem get_pop {s : Family ι α} {i j : ι} {n : Nat} {y : α} (place : ((pop s i).stack j)[n]? = some y) :
    (s.stack j)[n]? = some y ∧ (j = i → n < (s.stack i).length - 1) := by
  by_cases here : j = i
  · subst here
    rw [stack_pop_self,List.getElem?_dropLast] at place
    split at place
    · exact ⟨place,fun _ => by assumption⟩
    · cases place
  · rw [stack_pop_other here] at place
    exact ⟨place,fun same => absurd same here⟩

end

theorem top_get {s : Family ι α} {i : ι} {x : α} (last : top s i = some x) :
    0 < (s.stack i).length ∧ (s.stack i)[(s.stack i).length - 1]? = some x := by
  rw [top,List.getLast?_eq_getElem?] at last
  exact ⟨by have := (List.getElem?_eq_some_iff.mp last).1; omega,last⟩

/-- Two stack positions with the same element are the same position. -/
theorem position_unique {s : Family ι α} {i j : ι} {m n : Nat} {x : α} (first : (s.stack i)[m]? = some x)
    (second : (s.stack j)[n]? = some x) : i = j ∧ m = n := by
  have same := s.apart i j x (List.mem_of_getElem? first) (List.mem_of_getElem? second)
  subst same
  obtain ⟨inside,at_m⟩ := List.getElem?_eq_some_iff.mp first
  obtain ⟨inside',at_n⟩ := List.getElem?_eq_some_iff.mp second
  exact ⟨rfl,(s.nodup i).getElem_inj_iff.mp (at_m.trans at_n.symm)⟩

/-- Elements of a finite set fill at most as many places as it has elements. -/
theorem sum_length_le [DecidableEq α] (s : Family ι α) (indices : List ι) (distinct : indices.Nodup) (pool : Finset α)
    (drawn : ∀ i x, x ∈ s.stack i → x ∈ pool) :
    (indices.map fun i => (s.stack i).length).sum ≤ pool.card := by
  have all : (indices.flatMap s.stack).Nodup := by
    rw [List.nodup_flatMap]
    refine ⟨fun i _ => s.nodup i,distinct.imp ?_⟩
    intro i j other x first second
    exact other (s.apart i j x first second)
  rw [← List.length_flatMap,← List.toFinset_card_of_nodup all]
  apply Finset.card_le_card
  intro x member
  obtain ⟨i,_,inside⟩ := List.mem_flatMap.mp (List.mem_toFinset.mp member)
  exact drawn i x inside

end MazeOS.Stacks
