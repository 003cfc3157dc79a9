import InlineBinding.Text.Basic

/-!
# Numbered labels

Labels that differ in a number only, and the search for the first one that a document does not
hold. The search ends because a label grows with its number and cannot outgrow the document.
-/
namespace InlineBinding.Text

structure Numbered where
  before : Text
  after : Text

namespace Numbered

def label (n : Numbered) (k : Nat) : Text := n.before ++ digits k ++ n.after

theorem lt_of_occurs {n : Numbered} {k : Nat} {document : Text}
    (h : occurs (n.label k) document = true) : k < Nat.pow 10 (document.length + 1) := by
  have hl := length_le_of_occurs h
  simp only [label, List.length_append] at hl
  exact (Nat.length_toDigits_le_iff (by decide) (by omega)).1
    (show (digits k).length ≤ document.length + 1 by omega)

/-- The first number from `k` on whose label does not occur in the document. -/
def free (n : Numbered) (document : Text) (k : Nat) : Nat :=
  if h : occurs (n.label k) document = true then free n document (k + 1) else k
termination_by Nat.pow 10 (document.length + 1) - k
decreasing_by
  have := lt_of_occurs h
  omega

theorem not_occurs_free (n : Numbered) (document : Text) (k : Nat) :
    occurs (n.label (n.free document k)) document = false := by
  fun_induction free n document k with
  | case1 _ _ ih => exact ih
  | case2 _ h => simpa using h

end Numbered

/-- A match and the label that stands for it. -/
structure Clipping where
  mark : Text
  text : Text
  deriving DecidableEq

/-- Labels the matches in order; each takes the next free number after the last one used. -/
def Numbered.assign (n : Numbered) (document : Text) : Nat → List (Piece Text) → List (Piece Clipping)
  | _, [] => []
  | last, .char c :: ps => .char c :: n.assign document last ps
  | last, .hit t :: ps =>
    let k := n.free document (last + 1)
    .hit ⟨n.label k, t⟩ :: n.assign document k ps

def clippings (pieces : List (Piece Clipping)) : List Clipping :=
  pieces.filterMap fun
    | .char _ => none
    | .hit c => some c

end InlineBinding.Text
