import InlineBinding.Forest
import InlineBinding.Text.Basic

/-!
# Markup trees

Elements keep their attributes in order; a name occurs once. Values are text, except in trees that
were made by hand and hold other simple values.
-/
namespace InlineBinding.Markup

/-- Script and style elements have raw text as their content. -/
inductive Kind where
  | plain
  | script
  | style
  deriving DecidableEq

inductive Value where
  | text (t : Text)
  | null
  | flag (b : Bool)
  | number (n : Int)
  deriving DecidableEq

def Value.render : Value → Text
  | text t => t
  | null => "None".toList
  | flag true => "True".toList
  | flag false => "False".toList
  | number (.ofNat n) => Text.digits n
  | number (.negSucc n) => '-' :: Text.digits (n + 1)

abbrev Attributes := List (Text × Value)

namespace Attributes

def get? (as : Attributes) (name : Text) : Option Value := as.lookup name

/-- A new name goes last, a known one keeps its place. -/
def set (as : Attributes) (name : Text) (value : Value) : Attributes :=
  match as with
  | [] => [(name, value)]
  | a :: as => if a.1 = name then (name, value) :: as else a :: set as name value

def ofList (pairs : List (Text × Value)) : Attributes :=
  pairs.foldl (fun as p => set as p.1 p.2) []

@[simp] theorem get?_set_self (as : Attributes) (name : Text) (value : Value) :
    get? (set as name value) name = some value := by
  induction as with
  | nil => simp [get?, set]
  | cons a as ih =>
    obtain ⟨k, v⟩ := a
    by_cases h : k = name
    · simp [get?, set, h]
    · have : (name == k) = false := by simpa using fun e : name = k => h e.symm
      simpa [get?, set, h, List.lookup_cons, this] using ih

end Attributes

structure Tag where
  name : Text
  kind : Kind
  attributes : Attributes
  deriving DecidableEq

inductive LeafKind where
  | text
  | comment
  | cdata
  | directive
  deriving DecidableEq

structure Leaf where
  kind : LeafKind
  data : Text
  deriving DecidableEq

abbrev Tree := Forest Tag Leaf

def isRawText (kind : Kind) : Bool := kind = .script || kind = .style

end InlineBinding.Markup
