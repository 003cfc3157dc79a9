import InlineBinding.Settings.Value

/-!
# What is wrong with settings

Problems are collected, each with the place where it is; a value is accepted when there are none.
-/
namespace InlineBinding.Settings

inductive Step where
  | key (name : Text)
  | index (i : Int)
  deriving DecidableEq

def Step.render : Step → Text
  | key name => name
  | index i => Setting.showInt i

inductive Problem where
  | boolParsing
  | boolType
  | stringType
  | listType
  | missing
  | tooLong (count : Nat)
  | blank
  | emptyDelimiter
  | extra
  | invalidKey
  deriving DecidableEq

def Problem.code : Problem → Text
  | boolParsing => "bool_parsing".toList
  | boolType => "bool_type".toList
  | stringType => "string_type".toList
  | listType => "tuple_type".toList
  | missing => "missing".toList
  | tooLong _ => "too_long".toList
  | blank => "value_error".toList
  | emptyDelimiter => "value_error".toList
  | extra => "extra_forbidden".toList
  | invalidKey => "invalid_key".toList

def Problem.message : Problem → Text
  | boolParsing => "Input should be a valid boolean, unable to interpret input".toList
  | boolType => "Input should be a valid boolean".toList
  | stringType => "Input should be a valid string".toList
  | listType => "Input should be a valid tuple".toList
  | missing => "Field required".toList
  | tooLong n =>
    "Tuple should have at most 2 items after validation, not ".toList ++ Nat.toDigits 10 n
  | blank => "Value error, must not be blank".toList
  | emptyDelimiter => "Value error, delimiters must be non-empty strings".toList
  | extra => "Extra inputs are not permitted".toList
  | invalidKey => "Keys should be strings".toList

structure Detail where
  place : List Step
  problem : Problem
  deriving DecidableEq

/-- A message followed by details in brackets, each a place and what is wrong there. -/
def describe (message : Text) (details : List (List Text × Text)) : Text :=
  if details.isEmpty then message
  else
    let one (d : List Text × Text) := Setting.joinWith ['.'] d.1 ++ ": ".toList ++ d.2
    message ++ " (".toList ++ Setting.joinWith "; ".toList (details.map one) ++ [')']

def describeDetails (message : Text) (details : List Detail) : Text :=
  describe message (details.map fun d => (d.place.map Step.render, d.problem.message))

abbrev Checked (α : Type) := Except (List Detail) α

namespace Checked

def reject {α : Type} (place : List Step) (problem : Problem) : Checked α :=
  .error [⟨place, problem⟩]

/-- Problems on both sides are kept, those on the left first. -/
def both {α β γ : Type} (f : α → β → γ) : Checked α → Checked β → Checked γ
  | .ok a, .ok b => .ok (f a b)
  | .ok _, .error e => .error e
  | .error e, .ok _ => .error e
  | .error e, .error e' => .error (e ++ e')

def apply {α β : Type} (f : Checked (α → β)) (a : Checked α) : Checked β := both (· ·) f a

/-- Checks the members of a list in order, each with its index. -/
def each {α : Type} (check : Nat → Setting → Checked α) : Nat → List Setting → Checked (List α)
  | _, [] => .ok []
  | i, s :: rest => both List.cons (check i s) (each check (i + 1) rest)

theorem both_eq_ok {α β γ : Type} {f : α → β → γ} {a : Checked α} {b : Checked β} {c : γ} :
    both f a b = .ok c ↔ ∃ x y, a = .ok x ∧ b = .ok y ∧ f x y = c := by
  cases a <;> cases b <;> simp [both]

end Checked
end InlineBinding.Settings
