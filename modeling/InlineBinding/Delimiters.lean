import InlineBinding.Accessor
import InlineBinding.Pattern
import InlineBinding.Text.Space

/-!
# Delimiters and what stands between them

Binding delimiters enclose one accessor path, with white space around it. Of several readings the
longest path wins, then the most white space before the closing delimiter.
-/
namespace InlineBinding

structure Delimiters where
  opening : Text
  closing : Text
  deriving DecidableEq

namespace Delimiters

def braces : Delimiters := ⟨['\x7b'], ['\x7d']⟩

def doubleBraces : Delimiters := ⟨"\x7b\x7b".toList, "\x7d\x7d".toList⟩

def percent : Delimiters := ⟨"<%".toList, "%>".toList⟩

def wrap (d : Delimiters) (s : Text) : Text := d.opening ++ s ++ d.closing

/-- White space and the closing delimiter: how many characters they take, most white space first. -/
def closingAt? (d : Delimiters) (s : Text) : Option Nat :=
  (List.range ((s.takeWhile Text.isSpace).length + 1)).reverse.findSome? fun n =>
    if d.closing.isPrefixOf (s.drop n) then some (n + d.closing.length) else none

/-- The binding with which a text begins: its path and its length. -/
def bindingAt? (d : Delimiters) (s : Text) : Option (Text × Nat) :=
  match d.opening.isPrefixOf? s with
  | none => none
  | some inner =>
    let body := Text.trimStart inner
    let before := d.opening.length + (inner.length - body.length)
    (Accessor.spans body).findSome? fun n =>
      (d.closingAt? (body.drop n)).map fun m => (body.take n, before + n + m)

/-- Pieces as chunks: literals and paths in turn, a literal first and last. -/
def chunks : List (Text.Piece Text) → List Text
  | [] => [[]]
  | .hit path :: ps => [] :: path :: chunks ps
  | .char c :: ps =>
    match chunks ps with
    | [] => [[c]]
    | literal :: rest => (c :: literal) :: rest

/-- Cuts the bindings out of a text. One chunk means that there is none. -/
def split (d : Delimiters) (s : Text) : List Text :=
  chunks (Text.cut d.bindingAt? s)

@[simp] theorem split_nil (d : Delimiters) : d.split [] = [[]] := rfl

def hasBindings (d : Delimiters) (s : Text) : Bool := 1 < (d.split s).length

/-- The rule for bindings as a regular expression. -/
def pattern (d : Delimiters) : Text :=
  Pattern.escape d.opening ++ "\\s*([$A-Za-z_][$\\w]*(?:\\.[$A-Za-z_][$\\w]*)*)\\s*".toList
    ++ Pattern.escape d.closing

/-- The length of the block with which a text begins: from the opening delimiter through the
nearest closing one. -/
def blockAt? (d : Delimiters) (s : Text) : Option Nat :=
  match d.opening.isPrefixOf? s with
  | none => none
  | some inner => (Text.through? d.closing inner).map (d.opening.length + ·)

/-- The rule for blocks as a regular expression. -/
def blockPattern (d : Delimiters) : Text :=
  Pattern.escape d.opening ++ "[\\s\\S]*?".toList ++ Pattern.escape d.closing

end Delimiters
end InlineBinding
