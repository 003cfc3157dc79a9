import InlineBinding.Text.Printable

/-!
# Quoted texts in messages

A text is shown between single quotes, or between double quotes when it holds a single quote and
no double one. Backslashes and the chosen quote are escaped; so is every unprintable character.
-/
namespace InlineBinding.Text

def quoteFor (s : Text) : Char :=
  if s.contains '\'' && !s.contains '"' then '"' else '\''

def hexEscape (kind : Char) (width n : Nat) : Text :=
  '\\' :: kind :: (Nat.toDigits 16 n).leftpad width '0'

def showUnprintable (n : Nat) : Text :=
  if n ≤ 0xff then hexEscape 'x' 2 n
  else if n ≤ 0xffff then hexEscape 'u' 4 n
  else hexEscape 'U' 8 n

def showChar (quote c : Char) : Text :=
  if c = quote || c = '\\' then ['\\', c]
  else if c = '\n' then ['\\', 'n']
  else if c = '\r' then ['\\', 'r']
  else if c = '\t' then ['\\', 't']
  else if isPrintable c then [c]
  else showUnprintable c.toNat

def quoted (s : Text) : Text :=
  quoteFor s :: s.flatMap (showChar (quoteFor s)) ++ [quoteFor s]

end InlineBinding.Text
