import InlineBinding.Binding.Scan
import InlineBinding.Shield

/-!
# Transforming a document

Template blocks are shielded, the document is read, its bindings are attached, and it is printed
with the blocks back in place.
-/
namespace InlineBinding.Transform
open Binding Linked

/-- A result, the events on the way to it, and the attacher as it is left behind. -/
structure Outcome where
  result : Except Failure Text
  events : List Event
  attacher : Attacher

def shieldOf (o : Options) : Shield := { delimiters := o.templateDelimiters }

/-- Without delimiters there is nothing to report. -/
def shieldEvents (o : Options) (clippings : List Text.Clipping) : List Event :=
  if o.templateDelimiters.isEmpty then [] else [.shielded clippings.length]

def readEvents (shielded : Text) : List Event :=
  if Markup.lacksMask shielded then [.lacksMask] else []

/-- The attacher gets the marks of this document, whatever it had before. -/
def withMarks (a : Attacher) (clippings : List Text.Clipping) : Attacher :=
  { a with marks := LiteralMarks.ofList (Shield.literalMarks clippings) }

def transform (o : Options) (a : Attacher) (document : Text) : Outcome :=
  let (shielded, clippings) := (shieldOf o).shield document
  let before := shieldEvents o clippings ++ readEvents shielded
  let a := withMarks a clippings
  match Markup.parse o.normalizeWhitespace shielded with
  | .error f => ⟨.error (.markup f), before, a⟩
  | .ok tree =>
    let recovery := Markup.Recovery.of shielded
    let (scanned, progress) := (Scan.of o recovery a).run (Document.ofTree tree)
    match scanned with
    | .error f => ⟨.error f, before ++ progress.events, a⟩
    | .ok count =>
      let output := recovery.print o.xhtmlMode progress.document.toTree
      ⟨.ok (Shield.unshield output clippings), before ++ progress.events ++ [.attached count], a⟩

/-- With an attacher made from the options. -/
def transformDefault (o : Options) (document : Text) : Outcome :=
  transform o (Attacher.ofOptions o) document

end InlineBinding.Transform
