import InlineBinding.Options.Basic
import InlineBinding.Settings.Problem

/-!
# Resolving options

Options are resolved from a mapping of settings. Every field is checked before the result is
decided, so that all problems are reported together: those of the fields in their order, then the
keys that name no option. Options that were resolved before are used as they are.
-/
namespace InlineBinding
open Settings

namespace Options

/-! ## Checks of single values -/

def trueWords : List Text := ["1", "on", "t", "true", "y", "yes"].map (·.toList)

def falseWords : List Text := ["0", "off", "f", "false", "n", "no"].map (·.toList)

/-- Whole numbers of 64 bits could stand for a truth value, larger ones have the wrong type. -/
def isWord64 (i : Int) : Bool := -9223372036854775808 ≤ i && i < 9223372036854775808

/-- Of the decimals, the least number of 64 bits has the wrong type as well. -/
def isInsideWord64 (i : Int) : Bool := -9223372036854775808 < i && i < 9223372036854775808

def powerOfTen (n : Nat) : Int := Nat.pow 10 n

/-- The whole number that a decimal is equal to. -/
def whole? (digits : Int) (places : Nat) : Option Int :=
  if digits % powerOfTen places = 0 then some (digits / powerOfTen places) else none

/-- Zero and one stand for truth values; `readable` says of any other number whether it could. -/
def checkWhole (place : List Step) (readable : Bool) (i : Int) : Checked Bool :=
  if i = 0 then .ok false
  else if i = 1 then .ok true
  else .reject place (if readable then .boolParsing else .boolType)

def checkBool (place : List Step) : Setting → Checked Bool
  | .bool b => .ok b
  | .int i => checkWhole place (isWord64 i) i
  | .decimal d places =>
    match whole? d places with
    | some i => checkWhole place (isInsideWord64 i) i
    | none => .reject place .boolType
  | .text t =>
    if falseWords.contains (Text.asciiLower t) then .ok false
    else if trueWords.contains (Text.asciiLower t) then .ok true
    else .reject place .boolParsing
  | _ => .reject place .boolType

def checkText (place : List Step) : Setting → Checked Text
  | .text t => .ok t
  | _ => .reject place .stringType

def checkNotBlank (place : List Step) (s : Setting) : Checked Text :=
  match checkText place s with
  | .ok t => if (Text.trim t).isEmpty then .reject place .blank else .ok t
  | .error e => .error e

def checkTexts (place : List Step) : Setting → Checked (List Text)
  | .list items => .each (fun i s => checkText (place ++ [.index i]) s) 0 items
  | _ => .reject place .listType

/-- A pair by type: both members have to be there and texts; a third one spoils all. -/
def checkPair (place : List Step) : Setting → Checked Delimiters
  | .list items =>
    let member (i : Nat) : Checked Text :=
      match items[i]? with
      | some s => checkText (place ++ [.index i]) s
      | none => .reject (place ++ [.index i]) .missing
    if items.length > 2 then .reject place (.tooLong items.length)
    else .both Delimiters.mk (member 0) (member 1)
  | _ => .reject place .listType

def isFull (d : Delimiters) : Bool := !d.opening.isEmpty && !d.closing.isEmpty

def checkDelimiters (place : List Step) (s : Setting) : Checked Delimiters :=
  match checkPair place s with
  | .ok d => if isFull d then .ok d else .reject place .emptyDelimiter
  | .error e => .error e

/-- Empty delimiters are a problem of the whole list, and only once all types are right. -/
def checkDelimiterList (place : List Step) : Setting → Checked (List Delimiters)
  | .list items =>
    match Checked.each (fun i s => checkPair (place ++ [.index i]) s) 0 items with
    | .ok ds => if ds.all isFull then .ok ds else .reject place .emptyDelimiter
    | .error e => .error e
  | _ => .reject place .listType

/-! ## The mapping -/

inductive Failure where
  | notIterable (s : Setting)
  | pairLength (position length : Nat)
  | noSequence (position : Nat)
  | unhashable (key : Setting)
  | invalid (details : List Detail)

def Failure.message : Failure → Text
  | notIterable s => s.notIterable
  | pairLength n k =>
    "dictionary update sequence element #".toList ++ Nat.toDigits 10 n ++ " has length ".toList ++
      Nat.toDigits 10 k ++ "; 2 is required".toList
  | noSequence n =>
    "cannot convert dictionary update sequence element #".toList ++ Nat.toDigits 10 n ++
      " to a sequence".toList
  | unhashable s => "unhashable type: '".toList ++ s.typeName ++ ['\'']
  | invalid details => describeDetails "Invalid transform options".toList details

/-- Keys are usually texts, but a sequence of pairs can have others. -/
abbrev Entries := List (Setting × Setting)

/-- Numbers and truth values are the same key when they are equal as numbers. -/
def number? : Setting → Option (Int × Nat)
  | .bool b => some (if b then 1 else 0, 0)
  | .int i => some (i, 0)
  | .decimal d places => some (d, places)
  | _ => none

def sameKey (a b : Setting) : Bool :=
  match a, b with
  | .text s, .text t => s = t
  | .null, .null => true
  | a, b =>
    match number? a, number? b with
    | some (m, p), some (n, q) => m * powerOfTen q = n * powerOfTen p
    | _, _ => false

/-- A key that is there already keeps its place and gets the new value. -/
def Entries.set (es : Entries) (key value : Setting) : Entries :=
  match es with
  | [] => [(key, value)]
  | e :: es => if sameKey e.1 key then (e.1, value) :: es else e :: Entries.set es key value

def isHashable : Setting → Bool
  | .list _ => false
  | .object _ => false
  | _ => true

def addPairs : Nat → List Setting → Entries → Except Failure Entries
  | _, [], es => .ok es
  | n, item :: rest, es =>
    match item.items? with
    | none => .error (.noSequence n)
    | some [key, value] =>
      if isHashable key then addPairs (n + 1) rest (es.set key value) else .error (.unhashable key)
    | some parts => .error (.pairLength n parts.length)

/-- A blank value counts as an empty mapping, a sequence as one of pairs. -/
def entries (s : Setting) : Except Failure Entries :=
  if s.isBlank then .ok []
  else match s with
    | .object es => .ok (es.map fun e => (.text e.1, e.2))
    | s =>
      match s.items? with
      | some items => addPairs 0 items []
      | none => .error (.notIterable s)

/-! ## Options -/

def names : List Text :=
  ["xhtml_mode", "binding_attribute", "skip_attributes", "template_delimiters",
    "binding_delimiters", "output_delimiters", "normalize_whitespace", "synthetic_tag"].map
      (·.toList)

def Entries.get? (es : Entries) (name : Text) : Option Setting :=
  (es.find? fun e => sameKey e.1 (.text name)).map (·.2)

/-- An option that is not set keeps its default, unchecked. -/
def field {α : Type} (es : Entries) (name : String)
    (check : List Step → Setting → Checked α) (default : α) : Checked α :=
  match es.get? name.toList with
  | some s => check [.key name.toList] s
  | none => .ok default

def keyStep : Setting → Step
  | .text t => .key t
  | .int i => if isWord64 i then .index i else .key (Setting.showInt i)
  | .bool b => .index (if b then 1 else 0)
  | s => .key s.showNested

/-- What is wrong with a key that names no option. -/
def keyProblem? (key : Setting) : Option Detail :=
  match key with
  | .text t => if names.contains t then none else some ⟨[.key t], .extra⟩
  | k => some ⟨[keyStep k], .invalidKey⟩

def checkKeys (es : Entries) : Checked Unit :=
  match es.filterMap fun e => keyProblem? e.1 with
  | [] => .ok ()
  | problems => .error problems

def check (es : Entries) : Checked Options :=
  let d := default
  let all : Checked (Unit → Options) :=
    .apply (.apply (.apply (.apply (.apply (.apply (.apply (.apply
      (.ok fun a b c d e f g h _ => ⟨a, b, c, d, e, f, g, h⟩)
      (field es "xhtml_mode" checkBool d.xhtmlMode))
      (field es "binding_attribute" checkNotBlank d.bindingAttribute))
      (field es "skip_attributes" checkTexts d.skipAttributes))
      (field es "template_delimiters" checkDelimiterList d.templateDelimiters))
      (field es "binding_delimiters" checkDelimiters d.bindingDelimiters))
      (field es "output_delimiters" checkDelimiters d.outputDelimiters))
      (field es "normalize_whitespace" checkBool d.normalizeWhitespace))
      (field es "synthetic_tag" checkNotBlank d.syntheticTag)
  .apply all (checkKeys es)

def resolve (s : Setting) : Except Failure Options :=
  match entries s with
  | .error f => .error f
  | .ok es =>
    match check es with
    | .error details => .error (.invalid details)
    | .ok o => .ok o.skipBindingAttribute

/-- Options as a mapping with all eight fields. -/
def toSetting (o : Options) : Setting :=
  let pair (d : Delimiters) : Setting := .list [.text d.opening, .text d.closing]
  .object
    [ ("xhtml_mode".toList, .bool o.xhtmlMode),
      ("binding_attribute".toList, .text o.bindingAttribute),
      ("skip_attributes".toList, .list (o.skipAttributes.map .text)),
      ("template_delimiters".toList, .list (o.templateDelimiters.map pair)),
      ("binding_delimiters".toList, pair o.bindingDelimiters),
      ("output_delimiters".toList, pair o.outputDelimiters),
      ("normalize_whitespace".toList, .bool o.normalizeWhitespace),
      ("synthetic_tag".toList, .text o.syntheticTag) ]

end Options
end InlineBinding
