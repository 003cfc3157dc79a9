import InlineBinding.Delimiters
import InlineBinding.Literal
import InlineBinding.Text.Numbered

/-!
# Shielding template blocks

Blocks of other template languages are replaced by marks before the document is read, and put
back afterwards: as they were where the mark stands plain, escaped where it stands in a literal.
-/
namespace InlineBinding
open Text

/-- The mark inside a generated literal. -/
def Text.Clipping.literalMark (c : Clipping) : Text := c.mark ++ "js".toList

structure Shield where
  delimiters : List Delimiters
  marks : Numbered := ⟨"bind".toList, "ify".toList⟩

namespace Shield

/-- The first pair in the list that finds a block here decides. -/
def lengthAt? (delimiters : List Delimiters) (s : Text) : Option Nat :=
  delimiters.findSome? (·.blockAt? s)

/-- A pair of empty delimiters finds the empty block first and then one character at a time. -/
def blocksAt? (delimiters : List Delimiters) (s : Text) : Option (List Text × Nat) :=
  match lengthAt? delimiters s with
  | none => none
  | some 0 => some ([[], s.take 1], 1)
  | some n => some ([s.take n], n)

def atEnd (delimiters : List Delimiters) : List (Piece Text) :=
  if lengthAt? delimiters [] = some 0 then [.hit []] else []

/-- The document cut at its blocks. -/
def pieces (delimiters : List Delimiters) (document : Text) : List (Piece Text) :=
  (cut (blocksAt? delimiters) document).flatMap (fun
    | .char c => [.char c]
    | .hit blocks => blocks.map .hit) ++ atEnd delimiters

def marked (s : Shield) (document : Text) : List (Piece Clipping) :=
  s.marks.assign document 0 (pieces s.delimiters document)

/-- The document with marks in place of its blocks, and the blocks. -/
def shield (s : Shield) (document : Text) : Text × List Clipping :=
  (join Clipping.mark (s.marked document), clippings (s.marked document))

/-- Literal marks go first, since each begins with its plain mark; later marks go first, since an
earlier one may be the beginning of a later one. -/
def unshield (document : Text) (clippings : List Clipping) : Text :=
  clippings.foldr (fun c s => replace c.mark c.text s)
    (clippings.foldr (fun c s => replace c.literalMark (Literal.escape c.text) s) document)

@[simp] theorem unshield_nil (document : Text) : unshield document [] = document := rfl

def literalMarks (clippings : List Clipping) : List (Text × Text) :=
  clippings.map fun c => (c.mark, c.literalMark)

/-- The rule for all blocks as a regular expression; there is none without delimiters. -/
def pattern? (delimiters : List Delimiters) : Option Text :=
  match delimiters with
  | [] => none
  | _ => some (List.intercalate ['|'] (delimiters.map Delimiters.blockPattern))

end Shield
end InlineBinding
