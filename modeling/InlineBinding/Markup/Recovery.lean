import InlineBinding.Delimiters
import InlineBinding.Html.Document
import InlineBinding.Markup.Printer
import InlineBinding.Markup.Spelling
import InlineBinding.Text.Numbered

/-!
# Reading markup without losing its spelling

Before the markup is read, ampersands are masked by a character that it does not hold, CDATA
sections are hidden in numbered comments, and spellings of names are collected. The tree gets
names and sections back at once; printing restores the rest.
-/
namespace InlineBinding.Markup
open Text

/-! ## Ampersands -/

/-- Private-use characters in order. -/
def maskCandidates : List Char := (List.range 6400).map fun n => Char.ofNat (0xe000 + n)

/-- The first candidate that does not occur; none is needed without ampersands. -/
def pickMask (markup : Text) : Option Char :=
  if markup.contains '&' then maskCandidates.find? (!markup.contains ·) else none

/-- Every candidate is taken, so references are going to be decoded. -/
def lacksMask (markup : Text) : Bool := markup.contains '&' && (pickMask markup).isNone

/-! ## CDATA sections -/

def sectionDelimiters : Delimiters := ⟨"<![CDATA[".toList, "]]>".toList⟩

def sectionKeys : Numbered := ⟨"bindify-cdata-".toList, []⟩

def sectionAt? (s : Text) : Option (Text × Nat) :=
  (sectionDelimiters.blockAt? s).map fun n => (s.take n, n)

/-- The markup cut at its sections, each with the key that stands for it. -/
def keyedSections (markup : Text) : List (Piece Clipping) :=
  sectionKeys.assign markup 0 (cut sectionAt? markup)

def keyComment (key : Text) : Text := "<!--".toList ++ key ++ "-->".toList

def hideSections (markup : Text) : Text :=
  join (fun c => keyComment c.mark) (keyedSections markup)

/-- Keys and sections; a section is kept without its outer angles. -/
def sectionTable (markup : Text) : List (Text × Text) :=
  (clippings (keyedSections markup)).map fun c => (c.mark, (c.text.drop 1).dropLast)

/-! ## What is put back -/

structure Recovery where
  mask : Option Char
  casing : Casing
  sections : List (Text × Text)
  deriving DecidableEq

namespace Recovery

def empty : Recovery := ⟨none, Casing.empty, []⟩

def maskWith (mask : Option Char) (markup : Text) : Text :=
  match mask with
  | some m => replace ['&'] [m] markup
  | none => markup

def of (markup : Text) : Recovery :=
  let masked := maskWith (pickMask markup) markup
  ⟨pickMask markup, Casing.collect masked, sectionTable masked⟩

/-- The markup as it is read. -/
def prepare (markup : Text) : Text := hideSections (maskWith (pickMask markup) markup)

/-- Sections in raw text never became nodes; they and the ampersands are put back in the output. -/
def restore (r : Recovery) (output : Text) : Text :=
  let whole := r.sections.foldl (fun s p => replace (keyComment p.1) ('<' :: p.2 ++ ['>']) s) output
  match r.mask with
  | some m => replace [m] ['&'] whole
  | none => whole

def print (r : Recovery) (xhtml : Bool) (t : Tree) : Text := r.restore (render xhtml t)

/-! ## From the tree that was read -/

/-- Elements in which white space counts. -/
def preservingNames : List Text := Html.words "pre textarea script style"

def kindOf (lowered : Text) : Kind :=
  if lowered = "script".toList then .script
  else if lowered = "style".toList then .style
  else .plain

/-- Attributes that end up with one spelling become one: the first place, the last value. -/
def tag (r : Recovery) (t : Html.Tag) : Tag where
  name := r.casing.tags.spelling (lower t.name) t.name
  kind := kindOf (lower t.name)
  attributes := Attributes.ofList
    (t.attributes.map fun a => (r.casing.attributes.spelling a.1 a.1, .text a.2))

def commentLeaf (r : Recovery) (data : Text) : Leaf :=
  match r.sections.lookup data with
  | some s => ⟨.cdata, s⟩
  | none => ⟨.comment, data⟩

/-- `keep` tells that white space counts here. -/
def nodes (r : Recovery) : (keep : Bool) → Html.Tree → Tree
  | _, .nil => .nil
  | keep, .element t cs rest =>
    .element (r.tag t) (nodes r (keep || preservingNames.contains (lower t.name)) cs)
      (nodes r keep rest)
  | keep, .leaf (.text data) rest =>
    .leaf ⟨.text, if keep then data else collapse data⟩ (nodes r keep rest)
  | keep, .leaf (.comment data) rest => .leaf (r.commentLeaf data) (nodes r keep rest)

/-- Comments at the top level; text there does not belong to the document. -/
def comments (r : Recovery) : Html.Tree → Tree
  | .nil => .nil
  | .element _ _ rest => comments r rest
  | .leaf (.text _) rest => comments r rest
  | .leaf (.comment data) rest => .leaf (r.commentLeaf data) (comments r rest)

/-- The content of the sections below the root; all else below it is left out. -/
def sectionContents (r : Recovery) (keep : Bool) : Html.Tree → Tree
  | .nil => .nil
  | .element t cs rest =>
    if t.name = Html.Builder.head || t.name = Html.Builder.body then
      r.nodes keep cs ++ sectionContents r keep rest
    else sectionContents r keep rest
  | .leaf _ rest => sectionContents r keep rest

end Recovery

inductive Failure where
  | emptyDocument
  deriving DecidableEq

def Failure.message : Failure → Text
  | .emptyDocument => "Document is empty".toList

namespace Recovery

/-- `collapsing` says whether runs of white space become one space. -/
def document (r : Recovery) (collapsing hasDoctype : Bool) (markup : Text) : Except Failure Tree :=
  let d := Html.read markup
  match d.nodes.root? with
  | none => .error .emptyDocument
  | some (root, content) =>
    let declaration : Tree :=
      match hasDoctype, d.doctype with
      | true, some t => .leaf ⟨.directive, t.render root.name⟩ .nil
      | _, _ => .nil
    .ok (declaration ++ r.comments d.nodes.before ++
      r.nodes (!collapsing) (.element root content .nil) ++ r.comments d.nodes.after)

/-- A fragment is read inside a document of its own. -/
def wrapFragment (markup : Text) : Text :=
  "<html><body>".toList ++ markup ++ "</body></html>".toList

def fragment (r : Recovery) (collapsing : Bool) (markup : Text) : Except Failure Tree :=
  match (Html.read (wrapFragment markup)).nodes.root? with
  | none => .error .emptyDocument
  | some (_, content) => .ok (r.sectionContents (!collapsing) content)

def startsDoctype (prepared : Text) : Bool :=
  "<!doctype".toList.isPrefixOf (lower (trim prepared))

def startsDocument (prepared : Text) : Bool :=
  startsDoctype prepared || "<html".toList.isPrefixOf (lower (trim prepared))

end Recovery

/-- Reads a document or a fragment. The recovery is needed to print what was read. -/
def parse (collapsing : Bool) (markup : Text) : Except Failure Tree :=
  let prepared := Recovery.prepare markup
  if Recovery.startsDocument prepared then
    (Recovery.of markup).document collapsing (Recovery.startsDoctype prepared) prepared
  else (Recovery.of markup).fragment collapsing prepared

end InlineBinding.Markup
