import InlineBinding.Event
import InlineBinding.Expression
import InlineBinding.Linked.Links
import InlineBinding.Markup.Recovery
import InlineBinding.Options.Basic

/-!
# Attaching bindings

A binding becomes a clause, a handler and an expression, in the directive attribute of an element,
and a placeholder where it stood. What handlers are called and how a clause is written is up to
the dialect of the library that reads the directives.
-/
namespace InlineBinding.Binding
open Linked Markup

/-- Where a text stands, seen from the element that carries its clause. -/
inductive Place where
  | next
  | first
  | prev
  deriving DecidableEq

def Place.name : Place → Text
  | next => "next".toList
  | first => "first".toList
  | prev => "prev".toList

structure Dialect where
  attributeHandler : Text → Text
  textHandler : Place → Text
  clause : (handler expression : Text) → Text

namespace Dialect

/-- Values and styles have handlers of their own, other attributes are named. -/
def attributeHandlers : List (Text × Text) :=
  [("value".toList, "value".toList), ("style".toList, "css".toList)]

def default : Dialect where
  attributeHandler name :=
    (attributeHandlers.lookup name).getD ("attr(".toList ++ name ++ [')'])
  textHandler place := "text(".toList ++ place.name ++ [')']
  clause handler expression := handler ++ ':' :: expression

end Dialect

inductive Failure where
  /-- A value that is no text was searched for bindings. -/
  | unsearchable (value : Value)
  /-- A directive attribute with a value that is no text. -/
  | directive (value : Value)
  /-- A leaf where an element is needed, and the part of it that was asked for. -/
  | noElement (kind : LeafKind) (part : Text)
  /-- An element where the data of a leaf is needed. -/
  | noData
  | noWrapper (tag data : Text)
  /-- A node is missing from the list that its parent link names. -/
  | unlisted
  | markup (failure : Markup.Failure)
  deriving DecidableEq

/-- A message about a text, with its first forty characters. -/
def aboutText (message data : Text) : Text :=
  if data.isEmpty then message else message ++ ": ".toList ++ Text.quoted (data.take 40)

def valueType : Value → Text
  | .text _ => "str".toList
  | .null => "NoneType".toList
  | .flag _ => "bool".toList
  | .number _ => "int".toList

def leafType : LeafKind → Text
  | .text => "Text".toList
  | .comment => "Comment".toList
  | .cdata => "CData".toList
  | .directive => "Directive".toList

def lacks (type part : Text) : Text :=
  '\'' :: type ++ "' object has no attribute '".toList ++ part ++ ['\'']

def Failure.message : Failure → Text
  | unsearchable v => "expected string or bytes-like object, got '".toList ++ valueType v ++ ['\'']
  | directive v => lacks (valueType v) "strip".toList
  | noElement kind part => lacks (leafType kind) part
  | noData => lacks "Element".toList "data".toList
  | noWrapper tag data =>
    aboutText ("Cannot synthesize <".toList ++ tag ++ "> wrapper".toList) data
  | unlisted => []
  | markup f => f.message

/-- `marks` are the shield marks of the document at hand and what stands for them in literals. -/
structure Attacher where
  directiveName : Text
  output : Delimiters
  dialect : Dialect
  marks : LiteralMarks

namespace Attacher

def default : Attacher := ⟨"data-bind".toList, Delimiters.doubleBraces, Dialect.default, []⟩

def ofOptions (o : Options) : Attacher :=
  ⟨o.bindingAttribute, o.outputDelimiters, Dialect.default, []⟩

/-- A directive is trimmed and separated from the clause that follows. -/
def extend (directive clause : Text) : Text :=
  let existing := Text.trim directive
  if existing.isEmpty || existing.getLast? = some ',' then existing ++ clause
  else existing ++ ',' :: clause

def directive (a : Attacher) (t : Tag) : Except Failure Text :=
  match t.attributes.get? a.directiveName with
  | none => .ok []
  | some (.text v) => .ok v
  | some v => .error (.directive v)

def pushClause (a : Attacher) (t : Tag) (clause : Text) : Except Failure Tag := do
  let existing ← a.directive t
  return { t with attributes := t.attributes.set a.directiveName (.text (extend existing clause)) }

def compile (a : Attacher) (chunks : List Text) : Compiled :=
  Expression.compile a.output a.marks chunks

def pushed (a : Attacher) (t : Tag) (clause : Text) : Event :=
  .clausePushed t.name a.directiveName clause

/-- The clause goes first: an attribute that is its own directive keeps the placeholder only. -/
def attachAttribute (a : Attacher) (t : Tag) (name : Text) (chunks : List Text) :
    Except Failure (Tag × Event) := do
  let compiled := a.compile chunks
  let clause := a.dialect.clause (a.dialect.attributeHandler name) compiled.expression
  let pushed ← a.pushClause t clause
  return ({ pushed with attributes := pushed.attributes.set name (.text compiled.placeholder) },
    a.pushed t clause)

/-- From the previous sibling a text comes next, from its parent first, else it comes before. -/
def placeOf (n : Node) : Place :=
  if n.prev.isSome then .next else if n.parent.isSome then .first else .prev

def textHandler (a : Attacher) (n : Node) : Text := a.dialect.textHandler (placeOf n)

/-- The clause for a text, and what stays in its place. -/
def textClause (a : Attacher) (n : Node) (chunks : List Text) : Text × Text :=
  let compiled := a.compile chunks
  (a.dialect.clause (a.textHandler n) compiled.expression, compiled.placeholder)

end Attacher
end InlineBinding.Binding
