import InlineBinding.Text.Basic

/-!
# Sets of characters

A set is a list of ranges of code points, both ends included.
-/
namespace InlineBinding.Text

abbrev Ranges := List (Nat × Nat)

def Ranges.has (r : Ranges) (c : Char) : Bool :=
  r.any fun p => p.1 ≤ c.toNat && c.toNat ≤ p.2

def isAsciiLetter (c : Char) : Bool :=
  Ranges.has [(0x41, 0x5a), (0x61, 0x7a)] c

def asciiLowerChar (c : Char) : Char :=
  if Ranges.has [(0x41, 0x5a)] c then Char.ofNat (c.toNat + 32) else c

def asciiLower (s : Text) : Text := s.map asciiLowerChar

@[simp] theorem length_asciiLower (s : Text) : (asciiLower s).length = s.length :=
  List.length_map _

end InlineBinding.Text
