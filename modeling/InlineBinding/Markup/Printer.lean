import InlineBinding.Html.Content
import InlineBinding.Markup.Node
import InlineBinding.Text.Lower

/-!
# Printing markup

Text, comments and declarations are written as they are. Attribute values stand between double
quotes, and only a double quote in them is escaped.
-/
namespace InlineBinding.Markup
open Html (words)

/-- Elements written without an end tag when they have no children; the second line names shapes
of vector graphics. -/
def unclosedNames : List Text :=
  words "area base basefont br col command embed frame hr img input isindex keygen link meta param source track wbr" ++
    words "path circle ellipse line rect use stop polyline polygon"

def quoteValue (v : Value) : Text := Text.replace ['"'] "&quot;".toList v.render

def renderAttribute (a : Text × Value) : Text :=
  ' ' :: a.1 ++ "=\"".toList ++ quoteValue a.2 ++ ['"']

/-- A start tag without its closing angle. -/
def openTag (t : Tag) : Text := '<' :: t.name ++ t.attributes.flatMap renderAttribute

def closeTag (t : Tag) : Text := "</".toList ++ t.name ++ ['>']

def renderElement (xhtml : Bool) (t : Tag) (hasChildren : Bool) (inner : Text) : Text :=
  if hasChildren then openTag t ++ '>' :: inner ++ closeTag t
  else if unclosedNames.contains (Text.lower t.name) then
    openTag t ++ (if xhtml then " />".toList else ['>'])
  else openTag t ++ '>' :: closeTag t

def renderLeaf (l : Leaf) : Text :=
  match l.kind with
  | .text => l.data
  | .comment => "<!--".toList ++ l.data ++ "-->".toList
  | .cdata | .directive => '<' :: l.data ++ ['>']

def isNil : Tree → Bool
  | .nil => true
  | _ => false

def render (xhtml : Bool) : Tree → Text
  | .nil => []
  | .element t cs rest => renderElement xhtml t (!isNil cs) (render xhtml cs) ++ render xhtml rest
  | .leaf l rest => renderLeaf l ++ render xhtml rest

theorem render_append (xhtml : Bool) (f g : Tree) :
    render xhtml (f ++ g) = render xhtml f ++ render xhtml g := by
  induction f with
  | nil => rfl
  | element t cs rest _ ih => simp [render, ih]
  | leaf l rest ih => simp [render, ih]

end InlineBinding.Markup
