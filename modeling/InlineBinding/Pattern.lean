import InlineBinding.Text.Basic

/-!
# Pattern sources

The regular expression that describes a rule, as text: delimiters stand for themselves, so their
special characters are escaped.
-/
namespace InlineBinding.Pattern

def special : Text :=
  "()[]\x7b\x7d?*+-|^$\\.&~# \t\n\r".toList ++ [Char.ofNat 0x0b, Char.ofNat 0x0c]

def escape (s : Text) : Text :=
  s.flatMap fun c => if special.contains c then ['\\', c] else [c]

@[simp] theorem escape_append (s t : Text) : escape (s ++ t) = escape s ++ escape t :=
  List.flatMap_append

end InlineBinding.Pattern
