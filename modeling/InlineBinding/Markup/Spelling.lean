import InlineBinding.Text.Lower
import InlineBinding.Text.Space

/-!
# Spellings of names

The tree knows names in lower case only. The spellings with capitals are collected from the
source, from everything in it that looks like a tag; the first spelling of a name counts.
-/
namespace InlineBinding.Markup
open Text

/-- Names in lower case, each with its spelling in the source. -/
abbrev Spellings := List (Text × Text)

namespace Spellings

def record (s : Spellings) (name : Text) : Spellings :=
  let key := lower name
  if name = key || s.any (·.1 == key) then s else s ++ [(key, name)]

def spelling (s : Spellings) (key default : Text) : Text := (s.lookup key).getD default

end Spellings

def isTagNameChar (c : Char) : Bool := !(isSpace c || c = '/' || c = '>')

/-- What looks like a start or end tag: its name and all that follows up to the next angle. -/
def tagAt? (s : Text) : Option ((Text × Text) × Nat) :=
  match s with
  | '<' :: r =>
    let named := if r.head? = some '/' then r.drop 1 else r
    if named.head?.any isAsciiLetter then
      let name := named.takeWhile isTagNameChar
      let inside := (named.dropWhile isTagNameChar).takeWhile (· != '>')
      if (named.drop (name.length + inside.length)).isEmpty then none
      else some ((name, inside), 1 + (r.length - named.length) + name.length + inside.length + 1)
    else none
  | _ => none

def isAttributeNameChar (c : Char) : Bool :=
  !(isSpace c || c = '"' || c = '\'' || c = '=' || c = '/' || c = '>')

/-- The length of an attribute value: quoted when the quote is closed, else up to white space. -/
def valueLength (s : Text) : Nat :=
  let bare := (s.takeWhile fun c => !(isSpace c || c = '>')).length
  match s with
  | [] => 0
  | q :: r =>
    if (q = '"' || q = '\'') && r.contains q then (r.takeWhile (· != q)).length + 2 else bare

/-- The length of an equals sign with a value behind it, and the white space around the sign;
zero when there is none. -/
def assignmentLength (s : Text) : Nat :=
  match trimStart s with
  | '=' :: r =>
    match valueLength (trimStart r) with
    | 0 => 0
    | n => s.length - (trimStart r).length + n
  | _ => 0

/-- What looks like an attribute inside a tag. -/
def attributeAt? (s : Text) : Option (Text × Nat) :=
  match s.takeWhile isAttributeNameChar with
  | [] => none
  | name => some (name, name.length + assignmentLength (s.drop name.length))

structure Casing where
  tags : Spellings
  attributes : Spellings
  deriving DecidableEq

namespace Casing

def empty : Casing := ⟨[], []⟩

def recordTag (c : Casing) (tag : Text × Text) : Casing where
  tags := c.tags.record tag.1
  attributes := (hits attributeAt? tag.2).foldl Spellings.record c.attributes

def collect (markup : Text) : Casing := (hits tagAt? markup).foldl recordTag empty

end Casing
end InlineBinding.Markup
