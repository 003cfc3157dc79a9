import InlineBinding.Forest
import InlineBinding.Html.Token

/-!
# Building the tree

Tokens are added one by one to a stack of open elements. Start tags close what cannot hold them
and open what has to be around them; an end tag closes the elements up to its own, unless one of
higher priority stands between. There is no limit to how deep elements nest.
-/
namespace InlineBinding.Html

inductive Leaf where
  | text (data : Text)
  | comment (data : Text)
  deriving DecidableEq

abbrev Tree := Forest Tag Leaf

/-- An open element and its content so far, newest first. -/
structure Frame where
  tag : Tag
  content : Tree

/-- `stack` has the innermost element first; `finished` holds top-level nodes, newest first.
`ignored` counts misplaced section tags whose end tags are still to come. -/
structure Builder where
  stack : List Frame
  finished : Tree
  headSeen : Bool
  bodySeen : Bool
  ignored : Nat

namespace Builder

def start : Builder := ⟨[], .nil, false, false, 0⟩

def html : Text := "html".toList
def head : Text := "head".toList
def body : Text := "body".toList
def paragraph : Text := "p".toList

def isOpen (b : Builder) (name : Text) : Bool := b.stack.any (·.tag.name == name)

def current? (b : Builder) : Option Text := b.stack.head?.map (·.tag.name)

/-- Adds nodes in front of the newest ones at the current place. -/
def addWith (b : Builder) (add : Tree → Tree) : Builder :=
  match b.stack with
  | [] => { b with finished := add b.finished }
  | f :: fs => { b with stack := { f with content := add f.content } :: fs }

/-- Text merges with text directly before it. -/
def mergeText (data : Text) : Tree → Tree
  | .leaf (.text before) rest => .leaf (.text (before ++ data)) rest
  | t => .leaf (.text data) t

def addText (b : Builder) (data : Text) : Builder :=
  if data.isEmpty then b else b.addWith (mergeText data)

def addComment (b : Builder) (data : Text) : Builder := b.addWith (.leaf (.comment data))

def push (b : Builder) (tag : Tag) : Builder :=
  { b with
    stack := ⟨tag, .nil⟩ :: b.stack
    headSeen := b.headSeen || tag.name == head
    bodySeen := b.bodySeen || tag.name == body }

/-- Closes the innermost element. -/
def pop (b : Builder) : Builder :=
  match b.stack with
  | [] => b
  | f :: fs => { b with stack := fs }.addWith (.element f.tag f.content.reverse)

def popMany : Nat → Builder → Builder
  | 0, b => b
  | n + 1, b => popMany n b.pop

/-- Closes elements as long as the current one ends at a start tag of this name. -/
def autoClose (b : Builder) (name : Text) : Builder :=
  popMany (b.stack.takeWhile fun f => closes f.tag.name name).length b

/-- Opens the sections that an element of this name has to stand in. -/
def imply (b : Builder) (name : Text) : Builder :=
  if name = html then b else
    let b := if b.stack.isEmpty then b.push ⟨html, []⟩ else b
    if name = head || name = body then b
    else if b.stack.length ≤ 1 && metadataNames.contains name then
      if b.headSeen || b.bodySeen then b else b.push ⟨head, []⟩
    else if frameNames.contains name then b
    else if b.bodySeen || b.isOpen head || b.isOpen body then b
    else b.push ⟨body, []⟩

/-- A section tag in a place where its section is open already. -/
def isMisplaced (b : Builder) (name : Text) : Bool :=
  if name = html then !b.stack.isEmpty
  else if name = head then b.stack.length != 1
  else name = body && b.isOpen body

def startTag (b : Builder) (tag : Tag) (selfClosing : Bool) : Builder :=
  let b := (b.autoClose tag.name).imply tag.name
  if b.isMisplaced tag.name then
    let b := { b with ignored := b.ignored + 1 }
    if selfClosing then b.pop else b
  else
    let b := b.push tag
    if selfClosing || voidNames.contains tag.name then b.pop else b

def endTag (b : Builder) (name : Text) : Builder :=
  if b.ignored > 0 && sectionNames.contains name then { b with ignored := b.ignored - 1 }
  else if !b.isOpen name then b
  else
    let inner := b.stack.takeWhile (·.tag.name != name)
    if inner.any (fun f => priority f.tag.name > priority name) then b
    else popMany (inner.length + 1) b

/-- White space before the first section goes nowhere, and before the body into the section
that is open. -/
def text (b : Builder) (data : Text) : Builder :=
  let inSection := b.current? = some html || b.current? = some head
  let rest := if b.stack.isEmpty || inSection then skipBlank data else data
  let b := if inSection then b.addText (data.takeWhile isBlank) else b
  if rest.isEmpty then b
  else if rest.all isBlank then b.addText rest
  else
    let b := if b.current? = some head then b.autoClose paragraph else b
    (b.imply paragraph).addText rest

def token (b : Builder) : Token → Builder
  | .text data => b.text data
  | .raw data => b.addText data
  | .comment data => b.addComment data
  | .startTag tag selfClosing => b.startTag tag selfClosing
  | .endTag name => b.endTag name
  | .cutTag name => (b.autoClose name).imply name

/-- All top-level nodes, once every element is closed. -/
def finish (b : Builder) : Tree := (popMany b.stack.length b).finished.reverse

end Builder

def build (tokens : List Token) : Tree :=
  (tokens.foldl Builder.token Builder.start).finish

end InlineBinding.Html
