import MazeOS.Bytes

/-!
Buffers that are put together from pieces. `assemble` writes a list of pieces into
a buffer; where pieces with a position in common are one and the same
(`Compatible`), every piece is found where it was put (`assemble_piece`).
-/
namespace MazeOS.Pieces
open MazeOS.Bytes
universe u
variable {α : Type u}

/-- Values for the positions from `start` on. -/
structure Piece (α : Type u) where
  start : Nat
  values : List α

def Piece.finish (p : Piece α) : Nat := p.start + p.values.length

/-- A position of a piece. -/
def Piece.Covers (p : Piece α) (i : Nat) : Prop := p.start ≤ i ∧ i < p.finish

instance (p : Piece α) (i : Nat) : Decidable (p.Covers i) := inferInstanceAs (Decidable (_ ∧ _))

/-- One piece ends before the other one starts. -/
def Piece.Apart (p q : Piece α) : Prop := p.finish ≤ q.start ∨ q.finish ≤ p.start

/-- A buffer with the pieces written to it, the last piece first. -/
def assemble [Inhabited α] (blank : Nat → α) : List (Piece α) → Nat → α
  | [] => blank
  | p :: rest => copyInto (assemble blank rest) p.start (fun i => p.values.getD i default) p.values.length

/-- Different pieces have no position in common. -/
def Compatible (pieces : List (Piece α)) : Prop := ∀ p ∈ pieces, ∀ q ∈ pieces, p = q ∨ p.Apart q

section
variable {p q : Piece α} {pieces more : List (Piece α)} {i : Nat}

theorem apart_comm : p.Apart q ↔ q.Apart p := or_comm

theorem not_covers_apart (apart : p.Apart q) (covered : p.Covers i) : ¬ q.Covers i := by
  rintro ⟨low,high⟩
  obtain ⟨low',high'⟩ := covered
  rcases apart with before | after <;> omega

theorem compatible_append (first : Compatible pieces) (second : Compatible more)
    (between : ∀ p ∈ pieces, ∀ q ∈ more, p.Apart q) : Compatible (pieces ++ more) := by
  intro p member q member'
  rcases List.mem_append.mp member with left | right <;> rcases List.mem_append.mp member' with left' | right'
  · exact first p left q left'
  · exact .inr (between p left q right')
  · exact .inr (apart_comm.mp (between q left' p right))
  · exact second p right q right'

/-- One piece for each index, where pieces of different indices are apart. -/
theorem compatible_indexed {ι : Type*} (of : ι → Piece α → Prop) (member : ∀ p ∈ pieces, ∃ i, of i p)
    (same : ∀ i p q, of i p → of i q → p = q) (apart : ∀ i j p q, of i p → of j q → i ≠ j → p.Apart q) :
    Compatible pieces := by
  intro p here q there
  obtain ⟨i,first⟩ := member p here
  obtain ⟨j,second⟩ := member q there
  by_cases equal : i = j
  · subst equal
    exact .inl (same i p q first second)
  · exact .inr (apart i j p q first second equal)

end

section
variable [Inhabited α] {p : Piece α} {pieces : List (Piece α)} {blank : Nat → α} {i : Nat}

/-- A piece is found where it was put. -/
theorem assemble_piece (compatible : Compatible pieces) (member : p ∈ pieces) (inside : i < p.values.length) :
    assemble blank pieces (p.start + i) = p.values[i] := by
  induction pieces with
  | nil => cases member
  | cons q rest ih =>
    rw [assemble]
    by_cases here : q = p
    · subst here
      rw [copyInto_inside (Nat.le_add_right _ _) (by omega),Nat.add_sub_cancel_left,List.getD_eq_getElem?_getD,
        List.getElem?_eq_getElem inside,Option.getD_some]
    · have later : p ∈ rest := (List.mem_cons.mp member).resolve_left fun same => here same.symm
      have apart : p.Apart q := (compatible p member q List.mem_cons_self).resolve_left fun same => here same.symm
      have covered : p.Covers (p.start + i) := ⟨Nat.le_add_right _ _,by rw [Piece.finish]; omega⟩
      rw [copyInto_outside (not_covers_apart apart covered)]
      exact ih (fun p first q second => compatible p (List.mem_cons_of_mem _ first) q (List.mem_cons_of_mem _ second)) later

end

end MazeOS.Pieces
