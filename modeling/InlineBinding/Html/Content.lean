import InlineBinding.Text.Ranges

/-!
# Content rules

Which elements close each other, which have no content, which take raw text, and what keeps an
end tag from reaching its element. All names are in lower case.
-/
namespace InlineBinding.Html

/-- The words of a list written with single spaces between them. -/
def wordsOf : Text → List Text
  | [] => [[]]
  | c :: s =>
    if c = ' ' then [] :: wordsOf s
    else match wordsOf s with
      | [] => [[c]]
      | w :: ws => (c :: w) :: ws

def words (s : String) : List Text := wordsOf s.toList

/-- The white space of markup: space, tab, line feed, form feed. -/
def isBlank (c : Char) : Bool := c = ' ' || c = '\t' || c = '\n' || c.toNat = 0x0c

/-- Current elements and the start tags at which they end. -/
def closers : List (List Text × List Text) :=
  [ (words "a", words "a fieldset table td th"),
    (words "address", words "dd dl dt form li ul"),
    (words "b i", words "center p td th"),
    (words "big s small strike tt", words "p"),
    (words "caption", words "col colgroup tbody tfoot thead tr"),
    (words "colgroup", words "colgroup tbody tfoot thead tr"),
    (words "dd", words "dt"),
    (words "dir menu", words "dd dl dt form ul"),
    (words "dl", words "form li"),
    (words "dt", words "dd dl"),
    (words "font", words "center td th"),
    (words "form ol", words "form"),
    (words "h1 h2 h3 h4 h5 h6", words "fieldset form li p table"),
    (words "head", words "a abbr acronym address b bdo big blockquote body br center cite code dd dfn dir div dl dt em fieldset font form frameset h1 h2 h3 h4 h5 h6 hr i iframe img kbd li listing map menu ol p pre q s samp small span strike strong sub sup table tt u ul var xmp"),
    (words "legend", words "fieldset"),
    (words "li", words "li"),
    (words "listing pre", words "dd dl dt fieldset form li table ul"),
    (words "option", words "optgroup option"),
    (words "p", words "address blockquote body caption center col colgroup dd dir div dl dt fieldset form frameset h1 h2 h3 h4 h5 h6 head hr li listing menu ol p pre table tbody td tfoot th title tr ul xmp"),
    (words "span", words "td th"),
    (words "tbody thead", words "tbody tfoot"),
    (words "td th", words "tbody td tfoot th tr"),
    (words "tfoot", words "tbody"),
    (words "tr", words "tbody tfoot tr"),
    (words "u", words "p td th"),
    (words "ul", words "address form menu pre") ]

def closes (current new : Text) : Bool :=
  closers.any fun r => r.1.contains current && r.2.contains new

def voidNames : List Text :=
  words "area base basefont br col frame hr img input isindex link meta param"

/-- Elements whose content is text up to their own end tag. -/
def rawNames : List Text :=
  words "title textarea style xmp iframe noembed noframes script"

/-- Raw text elements in which character references count. -/
def referenceNames : List Text := words "title textarea"

/-- Attributes that stand for themselves when no value is given. -/
def flagNames : List Text :=
  words "checked compact declare defer disabled ismap multiple nohref noresize noshade nowrap readonly selected"

/-- Elements that belong into the head. -/
def metadataNames : List Text := words "script style meta link title base"

def frameNames : List Text := words "noframes frame frameset"

def sectionNames : List Text := words "html head body"

def priorities : List (List Text × Nat) :=
  [ (words "div", 150), (words "td th", 160), (words "tr", 170), (words "thead tbody tfoot", 180),
    (words "table", 190), (words "head body", 200), (words "html", 220) ]

/-- An end tag does not reach past an element of higher priority. -/
def priority (name : Text) : Nat :=
  match priorities.find? (·.1.contains name) with
  | some p => p.2
  | none => 100

end InlineBinding.Html
