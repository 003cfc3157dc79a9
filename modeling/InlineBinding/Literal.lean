import InlineBinding.Text.Basic

/-!
# String literals in expressions

The text of a literal survives three readers: the expression language, the double-quoted
attribute that holds the expression, and the commas that separate clauses.
-/
namespace InlineBinding.Literal

/-- In the order in which they are made: the backslash first, since later ones write backslashes. -/
def replacements : List (Text × Text) :=
  [ ("\\".toList, "\\\\".toList),
    ("'".toList, "\\'".toList),
    ("\r".toList, "\\r".toList),
    ("\n".toList, "\\n".toList),
    ("\"".toList, "&quot;".toList),
    (",".toList, "\\x2c".toList) ]

def escape (s : Text) : Text :=
  replacements.foldl (fun t r => Text.replace r.1 r.2 t) s

def quote (s : Text) : Text := '\'' :: escape s ++ ['\'']

end InlineBinding.Literal
