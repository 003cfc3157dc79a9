import InlineBinding.Delimiters
import InlineBinding.Literal

/-!
# Expressions and placeholders

Chunks become a live expression, the sum of their literals and accessor calls, and a placeholder,
the text that stays in the document. A sum that would start with a call is seeded with an empty
literal, so that it joins texts; a single call is left alone and keeps the type of its value.
-/
namespace InlineBinding

inductive Chunk where
  | literal (text : Text)
  | path (path : Text)

/-- Chunks by position: literals and paths in turn. -/
def Chunk.alternate : (isPath : Bool) → List Text → List Chunk
  | _, [] => []
  | false, t :: ts => .literal t :: alternate true ts
  | true, t :: ts => .path t :: alternate false ts

/-- What stands for each shield mark inside a literal. -/
abbrev LiteralMarks := List (Text × Text)

/-- A mark that is named again keeps its place and gets the new text. -/
def LiteralMarks.set (marks : LiteralMarks) (mark text : Text) : LiteralMarks :=
  match marks with
  | [] => [(mark, text)]
  | m :: ms => if m.1 = mark then (mark, text) :: ms else m :: LiteralMarks.set ms mark text

def LiteralMarks.ofList (pairs : List (Text × Text)) : LiteralMarks :=
  pairs.foldl (fun ms p => ms.set p.1 p.2) []

structure Compiled where
  expression : Text
  placeholder : Text
  deriving DecidableEq

namespace Expression

def literal (marks : LiteralMarks) (t : Text) : Text :=
  marks.foldl (fun s m => Text.replace m.1 m.2 s) (Literal.quote t)

/-- An empty literal adds nothing to a sum. -/
def term? (marks : LiteralMarks) : Chunk → Option Text
  | .literal [] => none
  | .literal t => some (literal marks t)
  | .path p => some (Accessor.call p)

/-- Exactly one path and no literal. -/
def isLone : List Text → Bool
  | [[], _, []] => true
  | _ => false

def seed (chunks : List Text) : List Text :=
  match chunks with
  | [] :: _ => if isLone chunks then [] else ["''".toList]
  | _ => []

def terms (marks : LiteralMarks) (chunks : List Text) : List Text :=
  seed chunks ++ (Chunk.alternate false chunks).filterMap (term? marks)

def place (output : Delimiters) : Chunk → Text
  | .literal t => t
  | .path p => output.wrap (p ++ "()".toList)

def compile (output : Delimiters) (marks : LiteralMarks) (chunks : List Text) : Compiled where
  expression := List.intercalate " + ".toList (terms marks chunks)
  placeholder := (Chunk.alternate false chunks).flatMap (place output)

end Expression
end InlineBinding
