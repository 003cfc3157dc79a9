import InlineBinding.Html.Builder

/-!
# Reading a document

The input is normalized, its tokens are built into a tree, and a document type declaration counts
when nothing but blanks and comments stands before it.
-/
namespace InlineBinding.Html

structure Doctype where
  publicId : Text
  systemId : Text
  deriving DecidableEq

namespace Doctype

/-- An identifier between quotes. A closing angle ends it, and the declaration, at once. -/
def identifier (s : Text) : Text × Text :=
  match skipBlank s with
  | [] => ([], [])
  | c :: r =>
    if c = '"' || c = '\'' then
      let id := r.takeWhile fun d => d != c && d != '>'
      let rest := r.drop id.length
      (id, if rest.head? = some c then rest.drop 1 else rest)
    else ([], c :: r)

/-- A declaration from behind its keyword. -/
def read (s : Text) : Doctype :=
  let rest := skipBlank ((skipBlank s).dropWhile fun c => !(isBlank c || c = '>'))
  if startsWith "public".toList rest then
    let p := identifier (rest.drop 6)
    ⟨p.1, (identifier p.2).1⟩
  else if startsWith "system".toList rest then ⟨[], (identifier (rest.drop 6)).1⟩
  else ⟨[], []⟩

/-- How the declaration is shown for a document with this root. -/
def render (d : Doctype) (root : Text) : Text :=
  let quoted := if d.systemId.contains '"' then ['\''] ++ d.systemId ++ ['\'']
    else ['"'] ++ d.systemId ++ ['"']
  let ids :=
    if d.publicId.isEmpty then
      if d.systemId.isEmpty then [] else " SYSTEM ".toList ++ quoted
    else
      " PUBLIC \"".toList ++ d.publicId ++ ['"'] ++
        (if d.systemId.isEmpty then [] else ' ' :: quoted)
  "!DOCTYPE ".toList ++ root ++ ids

end Doctype

/-- The declaration at the head of a document, behind blanks and comments. -/
def doctype? : Text → Option Doctype
  | [] => none
  | c :: s =>
    if isBlank c then doctype? s
    else if "<!--".toList.isPrefixOf (c :: s) then doctype? (comment (s.drop 3)).2
    else if "<?".toList.isPrefixOf (c :: s) then doctype? (untilAngle s).2
    else if "<!".toList.isPrefixOf (c :: s) && startsWith "doctype".toList (s.drop 1) then
      some (Doctype.read (s.drop 8))
    else none
termination_by s => s.length
decreasing_by
  · simp
  · have := length_comment_le (s.drop 3)
    simp only [List.length_drop] at this
    simp only [List.length_cons]
    omega
  · have := length_untilAngle_le s
    simp only [List.length_cons]
    omega

/-- Line ends become line feeds, a null character becomes the replacement character. -/
def normalizeChars : Text → Text
  | '\r' :: '\n' :: s => '\n' :: normalizeChars s
  | '\r' :: s => '\n' :: normalizeChars s
  | c :: s => (if c.toNat = 0 then Char.ofNat 0xfffd else c) :: normalizeChars s
  | [] => []

/-- A byte-order mark at the start is dropped. -/
def normalize (s : Text) : Text :=
  match s with
  | c :: r => normalizeChars (if c.toNat = 0xfeff then r else c :: r)
  | [] => []

structure Document where
  doctype : Option Doctype
  nodes : Tree

def read (s : Text) : Document :=
  let input := normalize s
  ⟨doctype? input, build (lex input)⟩

end InlineBinding.Html
