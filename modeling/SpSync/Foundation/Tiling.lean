import Mathlib.Data.List.Defs

namespace SpSync.Foundation.Tiling

variable {Segment : Type}

/-- A part of a segment. -/
structure Piece (Segment : Type) where
  segment : Segment
  offset : Nat
  length : Nat

/-- The segments that are left, and how much of the first one is gone. -/
structure Place (Segment : Type) where
  left : List Segment
  gone : Nat

variable (size : Segment → Nat)

/-- The pieces follow one another from the offset to the end of the segment, and none is empty. -/
def Tiles (segment : Segment) : Nat → List (Piece Segment) → Prop
  | offset, [] => offset = size segment
  | offset, piece :: pieces => piece.segment = segment ∧ piece.offset = offset ∧ 0 < piece.length ∧
      Tiles segment (offset + piece.length) pieces

/-- The pieces tile what is left, one segment after the other. -/
def Covers : List Segment → Nat → List (Piece Segment) → Prop
  | [], _, pieces => pieces = []
  | segment :: left, gone, pieces => ∃ first others, pieces = first ++ others ∧ Tiles size segment gone first ∧
      Covers left 0 others

/-- The cursor moves past a piece of the first segment. -/
inductive Moves : Place Segment → Piece Segment → Place Segment → Prop
  | inside {segment : Segment} {left : List Segment} {gone length : Nat} (positive : 0 < length)
      (short : gone + length < size segment) :
      Moves ⟨segment :: left, gone⟩ ⟨segment, gone, length⟩ ⟨segment :: left, gone + length⟩
  | past {segment : Segment} {left : List Segment} {gone length : Nat} (positive : 0 < length)
      (whole : gone + length = size segment) :
      Moves ⟨segment :: left, gone⟩ ⟨segment, gone, length⟩ ⟨left, 0⟩

def total : List Segment → Nat
  | [] => 0
  | segment :: left => size segment + total left

/-- What is left to move through. -/
def remaining (place : Place Segment) : Nat :=
  total size place.left - place.gone

variable {size} {before after : Place Segment} {piece : Piece Segment}

/-- A piece and the pieces after it cover what was left before it, and also what is added behind. -/
theorem Moves.covers (moves : Moves size before piece after) {added : List Segment} {pieces : List (Piece Segment)}
    (covers : Covers size (after.left ++ added) after.gone pieces) :
    Covers size (before.left ++ added) before.gone (piece :: pieces) := by
  cases moves with
  | inside positive short =>
    obtain ⟨first, others, rfl, tiles, rest⟩ := covers
    exact ⟨_ :: first, others, rfl, ⟨rfl, rfl, positive, tiles⟩, rest⟩
  | past positive whole => exact ⟨[_], pieces, rfl, ⟨rfl, rfl, positive, whole⟩, covers⟩

/-- Every piece leaves less to move through. -/
theorem Moves.remaining_lt (moves : Moves size before piece after) : remaining size after < remaining size before := by
  cases moves with
  | inside positive short =>
    simp only [remaining, total]
    omega
  | past positive whole =>
    simp only [remaining, total]
    omega

end SpSync.Foundation.Tiling
