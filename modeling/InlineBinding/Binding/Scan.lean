import InlineBinding.Binding.Attacher
import InlineBinding.Linked.Tree
import InlineBinding.Markup.Recovery

/-!
# Scanning for bindings

A scan walks a document once, parents before children, and attaches every binding: those in
attribute values to their element, those in texts to the nearest element. A text without one is
wrapped in a synthetic element first. What was done before a failure stays done.
-/
namespace InlineBinding.Binding
open Linked Markup

structure Scan where
  delimiters : Delimiters
  skipped : List Text
  syntheticTag : Text
  collapsing : Bool
  recovery : Recovery
  attacher : Attacher

def Scan.of (o : Options) (recovery : Recovery) (attacher : Attacher) : Scan where
  delimiters := o.bindingDelimiters
  skipped := o.skipAttributes.map Text.lower
  syntheticTag := o.syntheticTag
  collapsing := o.normalizeWhitespace
  recovery := recovery
  attacher := attacher

/-- How far a scan has come: the document, the number of bindings, and what happened. -/
structure Progress where
  document : Document
  count : Nat
  events : List Event

abbrev ScanM := EStateM Failure Progress

namespace Progress

def start (d : Document) : Progress := ⟨d, 0, []⟩

def record (p : Progress) (e : Event) : Progress := { p with events := p.events ++ [e] }

def counted (p : Progress) : Progress := { p with count := p.count + 1 }

def withStore (p : Progress) (f : Store → Store) : Progress :=
  { p with document := { p.document with store := f p.document.store } }

end Progress

namespace Scan

def document : ScanM Document := do return (← get).document

/-- An element's tag. A failure names the part of the element that was asked for. -/
def tagOf (i : Id) (part : Text) : ScanM Tag := do
  let s := (← document).store
  match s.tag? i, s.leaf? i with
  | some t, _ => return t
  | none, some l => throw (.noElement l.kind part)
  | none, none => throw .unlisted

def siblingsOf : (owner : Option Id) → ScanM (List Id)
  | none => do return (← document).roots
  | some p => do
    let _ ← tagOf p "children".toList
    return (← document).siblings (some p)

def ofExcept {α : Type} : Except Failure α → ScanM α
  | .ok a => pure a
  | .error f => throw f

def attachAttribute (a : Attacher) (i : Id) (name : Text) (chunks : List Text) : ScanM Unit := do
  let tag ← tagOf i "attributes".toList
  let r ← ofExcept (a.attachAttribute tag name chunks)
  modify fun p => (p.withStore (·.setTag i r.1)).record r.2

def attachText (a : Attacher) (i : Id) (node : Node) (anchor : Id) (chunks : List Text) :
    ScanM Unit := do
  let r := a.textClause node chunks
  let tag ← tagOf anchor "attributes".toList
  let pushed ← ofExcept (a.pushClause tag r.1)
  modify fun p =>
    (p.withStore fun s => (s.setTag anchor pushed).setData i r.2).record (a.pushed tag r.1)

/-- A wrapper is read from markup, so that its name may bring attributes along; it has to come
out as one element. -/
def wrapper (s : Scan) (content : Content) : Except Failure (Tag × Tree) :=
  let source := '<' :: s.syntheticTag ++ "></".toList ++ s.syntheticTag ++ ['>']
  match s.recovery.fragment s.collapsing source, content with
  | .error f, _ => .error (.markup f)
  | .ok (.element t cs .nil), _ => .ok (t, cs)
  | .ok _, .leaf l => .error (.noWrapper s.syntheticTag l.data)
  | .ok _, .element _ _ => .error .noData

/-- Wraps a node in its place. The answer is the new anchor. -/
def promote (s : Scan) (i : Id) (node : Node) : ScanM (Option Id) := do
  let w ← ofExcept (s.wrapper node.content)
  let siblings ← siblingsOf node.parent
  match siblings.findIdx? (· == i) with
  | none => throw .unlisted
  | some index =>
    modify fun p =>
      { p with document := p.document.wrap w.1 w.2 node.parent index i }.record (.wrapped w.1.name)
    return (← document).store.anchor? i

def scanAttribute (s : Scan) (i : Id) (a : Text × Value) : ScanM Unit :=
  if s.skipped.contains (Text.lower a.1) then pure ()
  else match a.2 with
    | .text value =>
      if s.delimiters.hasBindings value then do
        attachAttribute s.attacher i a.1 (s.delimiters.split value)
        modify Progress.counted
      else pure ()
    | value => throw (.unsearchable value)

/-- Whether the text below a node is raw. -/
def isRawBelow : (parent : Option Id) → ScanM Bool
  | none => pure false
  | some p => do return isRawText (← tagOf p "is_raw_text".toList).kind

/-- The nearest element, or a new one around the text. -/
def anchorFor (s : Scan) (i : Id) (node : Node) : ScanM Id := do
  let near := (← document).store.anchor? i
  let anchor ←
    if (near.bind (← document).store.tag?).isSome then pure near else s.promote i node
  match anchor with
  | some a => pure a
  -- never so: a text that has been wrapped has its wrapper above it
  | none => throw .unlisted

def bindText (s : Scan) (i : Id) (node : Node) (data : Text) : ScanM Unit := do
  let anchor ← s.anchorFor i node
  -- wrapping has changed the links
  let node := ((← document).store.get? i).getD node
  attachText s.attacher i node anchor (s.delimiters.split data)
  modify Progress.counted

def scanText (s : Scan) (i : Id) (node : Node) (data : Text) : ScanM Unit := do
  let raw ← isRawBelow node.parent
  if !raw && s.delimiters.hasBindings data then s.bindText i node data else pure ()

/-- The attributes are taken as they are when an element is reached, its children as they are when
its attributes are done. Nodes that are not in the store are passed over, and so is everything below
`depth`, which only a list of children that leads back to its own element can come to. -/
def visit (s : Scan) : (depth : Nat) → Id → ScanM Unit
  | 0, _ => pure ()
  | depth + 1, i => do
    match (← document).store.get? i with
    | none => pure ()
    | some node =>
      match node.content with
      | .element tag _ => do
        if tag.kind = .plain then tag.attributes.forM (s.scanAttribute i) else pure ()
        let children := (← document).store.children i
        children.forM (s.visit depth)
      | .leaf l => if l.kind = .text then s.scanText i node l.data else pure ()

/-- A path in the document visits a node at most once, and ends below at most one new wrapper. -/
def all (s : Scan) : ScanM Unit := do
  let d ← document
  d.roots.forM (s.visit (d.store.size + 2))

/-- Scans a document: the number of bindings or a failure, and what the scan left behind. -/
def run (s : Scan) (d : Document) : Except Failure Nat × Progress :=
  match s.all.run (Progress.start d) with
  | .ok _ p => (.ok p.count, p)
  | .error f p => (.error f, p)

end Scan
end InlineBinding.Binding
