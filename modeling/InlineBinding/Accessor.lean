import InlineBinding.Text.Word

/-!
# Accessor paths

A path is one or more identifiers joined by dots. An identifier starts with an ASCII letter, the
dollar sign or the underscore and goes on with those and word characters of any script.
-/
namespace InlineBinding.Accessor

def isStart (c : Char) : Bool := c = '$' || c = '_' || Text.isAsciiLetter c

def isPart (c : Char) : Bool := c = '$' || Text.isWord c

/-- The length of the longest path that can go on from here: after a dot or at the very start
(`fresh`) an identifier has to begin, elsewhere the one that was begun continues. A dot counts
only with the identifier behind it. -/
def spanFrom : (fresh : Bool) → Text → Nat
  | _, [] => 0
  | true, c :: s => if isStart c then spanFrom false s + 1 else 0
  | false, c :: s =>
    if isPart c then spanFrom false s + 1
    else if c = '.' then
      match spanFrom true s with
      | 0 => 0
      | n + 1 => n + 2
    else 0

def span (s : Text) : Nat := spanFrom true s

/-- Lengths of all paths with which a text begins, longest first: the longest one and what is
left of it when characters are given back, as long as no dot comes last. -/
def spans (s : Text) : List Nat :=
  ((List.range (span s)).reverse.map (· + 1)).filter fun n => s[n - 1]? != some '.'

def viewModel : Text := "this".toList

/-- Reads the value of a path on the view model. -/
def call (path : Text) : Text :=
  if path = viewModel || (viewModel ++ ['.']).isPrefixOf path then path ++ "()".toList
  else viewModel ++ '.' :: path ++ "()".toList

example : call viewModel = "this()".toList := by decide

end InlineBinding.Accessor
