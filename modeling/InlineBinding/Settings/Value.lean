import InlineBinding.Text.Quoted

/-!
# Settings

Values as they come from a configuration or a caller, before anything is known about their types.
Objects keep the order of their entries.

There are no values but these: a list stands for every sequence, the keys of objects are texts, and
decimals are exact and finite. A decimal is shown with the digits that it has, never with an
exponent, so it stands for a machine number only where that is shown in the same way.
-/
namespace InlineBinding

/-- A decimal has its digits as a number and the count of those behind the point. -/
inductive Setting where
  | null
  | bool (b : Bool)
  | int (i : Int)
  | decimal (digits : Int) (places : Nat)
  | text (t : Text)
  | list (items : List Setting)
  | object (entries : List (Text × Setting))

namespace Setting

instance : Inhabited Setting := ⟨null⟩

def typeName : Setting → Text
  | null => "NoneType".toList
  | bool _ => "bool".toList
  | int _ => "int".toList
  | decimal _ _ => "float".toList
  | text _ => "str".toList
  | list _ => "list".toList
  | object _ => "dict".toList

/-- Null, false, zero and everything empty. -/
def isBlank : Setting → Bool
  | null => true
  | bool b => !b
  | int i => i = 0
  | decimal d _ => d = 0
  | text t => t.isEmpty
  | list items => items.isEmpty
  | object entries => entries.isEmpty

/-- What a value consists of: a text of characters, an object of its keys. -/
def items? : Setting → Option (List Setting)
  | text t => some (t.map fun c => text [c])
  | list items => some items
  | object entries => some (entries.map fun e => text e.1)
  | _ => none

def notIterable (s : Setting) : Text := '\'' :: s.typeName ++ "' object is not iterable".toList

def showInt : Int → Text
  | .ofNat n => Nat.toDigits 10 n
  | .negSucc n => '-' :: Nat.toDigits 10 (n + 1)

/-- At least one digit before the point and one behind it. -/
def showDecimal (digits : Int) (places : Nat) : Text :=
  let sign := if digits < 0 then ['-'] else []
  let all := (Nat.toDigits 10 digits.natAbs).leftpad (places + 1) '0'
  let whole := all.take (all.length - places)
  let fraction := all.drop (all.length - places)
  sign ++ whole ++ '.' :: (if fraction.isEmpty then ['0'] else fraction)

def joinWith (separator : Text) (parts : List Text) : Text := List.intercalate separator parts

/-- A value inside another one, where texts are quoted. -/
def showNested : Setting → Text
  | null => "None".toList
  | bool b => if b then "True".toList else "False".toList
  | int i => showInt i
  | decimal d places => showDecimal d places
  | text t => Text.quoted t
  | list items => '[' :: joinWith ", ".toList (items.attach.map fun i => showNested i.1) ++ [']']
  | object entries =>
    '\x7b' :: joinWith ", ".toList
      (entries.attach.map fun e => Text.quoted e.1.1 ++ ": ".toList ++ showNested e.1.2) ++ ['\x7d']
decreasing_by
  · have := List.sizeOf_lt_of_mem i.2
    simp only [list.sizeOf_spec]
    omega
  · have := List.sizeOf_lt_of_mem e.2
    obtain ⟨⟨k, v⟩, h⟩ := e
    simp only [object.sizeOf_spec, Prod.mk.sizeOf_spec] at this ⊢
    omega

/-- A value on its own: a text stands for itself. -/
def display : Setting → Text
  | text t => t
  | v => showNested v

end Setting
end InlineBinding
