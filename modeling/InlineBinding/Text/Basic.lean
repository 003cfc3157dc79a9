/-!
# Texts and the matches cut out of them

A text is a list of characters, and surrogates are none. `Text.cut` walks once from left to right
and takes out the leftmost matches of a rule, without overlap; replacing, splitting, masking and
hiding are all read off the pieces it leaves.
-/
namespace InlineBinding

abbrev Text := List Char

namespace Text

/-- A character that no match covers, or a match. -/
inductive Piece (α : Type) where
  | char (c : Char)
  | hit (a : α)

/-- `rule` says what begins at a position and how many characters it takes, at least one.
`skip` characters still belong to the match before. -/
def cutFrom {α : Type} (rule : Text → Option (α × Nat)) : Nat → Text → List (Piece α)
  | _, [] => []
  | 0, c :: s =>
    match rule (c :: s) with
    | some (a, n) => .hit a :: cutFrom rule (n - 1) s
    | none => .char c :: cutFrom rule 0 s
  | skip + 1, _ :: s => cutFrom rule skip s

def cut {α : Type} (rule : Text → Option (α × Nat)) (s : Text) : List (Piece α) :=
  cutFrom rule 0 s

@[simp] theorem cut_nil {α : Type} (rule : Text → Option (α × Nat)) : cut rule [] = [] := rfl

/-- What the rule found, in order. -/
def hits {α : Type} (rule : Text → Option (α × Nat)) (s : Text) : List α :=
  (cut rule s).filterMap fun
    | .char _ => none
    | .hit a => some a

/-- The text that pieces stand for when each match is written as `write` says. -/
def join {α : Type} (write : α → Text) (pieces : List (Piece α)) : Text :=
  pieces.flatMap fun
    | .char c => [c]
    | .hit a => write a

@[simp] theorem join_nil {α : Type} (write : α → Text) : join write [] = [] := rfl

@[simp] theorem join_char {α : Type} (write : α → Text) (c : Char) (ps : List (Piece α)) :
    join write (.char c :: ps) = c :: join write ps := rfl

@[simp] theorem join_hit {α : Type} (write : α → Text) (a : α) (ps : List (Piece α)) :
    join write (.hit a :: ps) = write a ++ join write ps := rfl

def occurrenceAt? (pattern s : Text) : Option (Unit × Nat) :=
  if pattern.isPrefixOf s then some ((), pattern.length) else none

/-- One pass from left to right. An empty pattern stands before every character and at the end. -/
def replace (pattern new s : Text) : Text :=
  match pattern with
  | [] => new ++ s.flatMap fun c => c :: new
  | _ :: _ => join (fun _ => new) (cut (occurrenceAt? pattern) s)

def occurs (pattern : Text) : Text → Bool
  | [] => pattern.isEmpty
  | c :: s => pattern.isPrefixOf (c :: s) || occurs pattern s

theorem length_le_of_occurs {pattern s : Text} (h : occurs pattern s = true) :
    pattern.length ≤ s.length := by
  induction s with
  | nil => cases pattern <;> simp_all [occurs]
  | cons c s ih =>
    rcases Bool.or_eq_true _ _ ▸ h with h | h
    · exact (List.isPrefixOf_iff_prefix.1 h).length_le
    · exact Nat.le_succ_of_le (ih h)

/-- The number of characters up to the end of the first occurrence. -/
def through? (pattern : Text) : Text → Option Nat
  | [] => if pattern.isEmpty then some 0 else none
  | c :: s =>
    if pattern.isPrefixOf (c :: s) then some pattern.length else (through? pattern s).map (· + 1)

def digits (n : Nat) : Text := Nat.toDigits 10 n

end Text
end InlineBinding
