import InlineBinding.Text.Basic

/-!
# Paths

A path is a list of names below the working directory or, when it is absolute, below the root.
Names that are a single point are dropped; two points stay and name the directory above.
-/
namespace InlineBinding

structure Path where
  absolute : Bool
  parts : List Text
  deriving DecidableEq

namespace Path

def isName (t : Text) : Bool := !t.isEmpty && t != ['.']

def ofText (t : Text) : Path := ⟨t.head? = some '/', (t.splitOn '/').filter isName⟩

def render (p : Path) : Text :=
  let names := List.intercalate ['/'] p.parts
  if p.absolute then '/' :: names else if p.parts.isEmpty then ['.'] else names

/-- The last name, empty when there is none. -/
def name (p : Path) : Text := p.parts.getLast?.getD []

def parent (p : Path) : Path := { p with parts := p.parts.dropLast }

def join (p : Path) (names : List Text) : Path := { p with parts := p.parts ++ names }

/-- A suffix starts at the last point of a name, unless that is its first or its last character. -/
def suffixOf (name : Text) : Text :=
  let back := name.reverse.takeWhile (· != '.')
  if back.isEmpty || name.length ≤ back.length + 1 then [] else '.' :: back.reverse

def suffix (p : Path) : Text := suffixOf p.name

/-- Names are compared one by one, character by character. -/
def before (p q : Path) : Bool := p.parts < q.parts

def sort (ps : List Path) : List Path := ps.mergeSort fun p q => !q.before p

end Path
end InlineBinding
