import InlineBinding.Markup.Node

/-!
# Nodes by identity

A store gives every node an identity, so that nodes can be named, moved and linked. Children lists
own; parent, previous and next are for navigation only and may be stale.
-/
namespace InlineBinding.Linked
open Markup (Tag Leaf)

abbrev Id := Nat

inductive Content where
  | element (tag : Tag) (children : List Id)
  | leaf (leaf : Leaf)
  deriving DecidableEq

structure Node where
  content : Content
  parent : Option Id
  prev : Option Id
  next : Option Id
  deriving DecidableEq

def Node.unlinked (content : Content) : Node := ⟨content, none, none, none⟩

structure Store where
  nodes : Array Node
  deriving DecidableEq

namespace Store

def empty : Store := ⟨#[]⟩

def size (s : Store) : Nat := s.nodes.size

def get? (s : Store) (i : Id) : Option Node := s.nodes[i]?

/-- Changes one node; an unknown identity changes nothing. -/
def update (s : Store) (i : Id) (f : Node → Node) : Store := ⟨s.nodes.modify i f⟩

/-- A new node gets the next identity. -/
def add (s : Store) (content : Content) : Id × Store :=
  (s.size, ⟨s.nodes.push (Node.unlinked content)⟩)

@[simp] theorem size_update (s : Store) (i : Id) (f : Node → Node) : (s.update i f).size = s.size :=
  Array.size_modify

theorem get?_update (s : Store) (i j : Id) (f : Node → Node) :
    (s.update i f).get? j = if i = j then (s.get? j).map f else s.get? j :=
  Array.getElem?_modify

@[simp] theorem get?_update_self (s : Store) (i : Id) (f : Node → Node) :
    (s.update i f).get? i = (s.get? i).map f := by
  simp [get?_update]

theorem get?_update_of_ne (s : Store) {i j : Id} (f : Node → Node) (h : i ≠ j) :
    (s.update i f).get? j = s.get? j := by
  simp [get?_update, h]

theorem get?_add (s : Store) (content : Content) (j : Id) :
    (s.add content).2.get? j = if j = s.size then some (Node.unlinked content) else s.get? j :=
  Array.getElem?_push

def children (s : Store) (i : Id) : List Id :=
  match s.get? i with
  | some ⟨.element _ cs, _, _, _⟩ => cs
  | _ => []

def tag? (s : Store) (i : Id) : Option Tag :=
  match s.get? i with
  | some ⟨.element t _, _, _, _⟩ => some t
  | _ => none

def leaf? (s : Store) (i : Id) : Option Leaf :=
  match s.get? i with
  | some ⟨.leaf l, _, _, _⟩ => some l
  | _ => none

def setChildren (s : Store) (i : Id) (ids : List Id) : Store :=
  s.update i fun n =>
    match n.content with
    | .element t _ => { n with content := .element t ids }
    | .leaf _ => n

def setTag (s : Store) (i : Id) (tag : Tag) : Store :=
  s.update i fun n =>
    match n.content with
    | .element _ cs => { n with content := .element tag cs }
    | .leaf _ => n

def setData (s : Store) (i : Id) (data : Text) : Store :=
  s.update i fun n =>
    match n.content with
    | .element _ _ => n
    | .leaf l => { n with content := .leaf { l with data := data } }

end Store
end InlineBinding.Linked
