import InlineBinding.Linked.Links

/-!
# Documents and trees

A tree is planted into a store node by node, parents before children, and linked. Reading it back
and walking over it follow children lists only. Their depth is bounded by the number of nodes,
so lists that run in a circle do no harm.
-/
namespace InlineBinding.Linked
open Markup (Tree)

namespace Store

/-- The identities of the planted siblings, which are not linked yet, and the store. -/
def plant : Tree → Store → List Id × Store
  | .nil, s => ([], s)
  | .leaf l rest, s =>
    let (i, s) := s.add (.leaf l)
    let (ids, s) := plant rest s
    (i :: ids, s)
  | .element t cs rest, s =>
    let (i, s) := s.add (.element t [])
    let (kids, s) := plant cs s
    let s := (s.setChildren i kids).link (some i) kids
    let (ids, s) := plant rest s
    (i :: ids, s)

/-- The tree below some siblings, down to the given depth. -/
def harvest (s : Store) : (depth : Nat) → List Id → Tree
  | 0, _ => .nil
  | depth + 1, ids =>
    ids.foldr (fun i rest =>
      match s.get? i with
      | none => rest
      | some n =>
        match n.content with
        | .element t cs => .element t (harvest s depth cs) rest
        | .leaf l => .leaf l rest) .nil

def tree (s : Store) (ids : List Id) : Tree := s.harvest (s.size + 1) ids

/-- Identities in document order, parents before children. -/
def walkTo (s : Store) : (depth : Nat) → List Id → List Id
  | 0, _ => []
  | depth + 1, ids => ids.flatMap fun i => i :: walkTo s depth (s.children i)

def walk (s : Store) (ids : List Id) : List Id := s.walkTo (s.size + 1) ids

end Store

namespace Document

def ofTree (t : Tree) : Document :=
  let (ids, s) := Store.plant t Store.empty
  ⟨s.link none ids, ids⟩

def toTree (d : Document) : Tree := d.store.tree d.roots

def walk (d : Document) : List Id := d.store.walk d.roots

/-- Puts a new element in the place of the member `i` of a sibling list, and `i` into it. What the
element brings along as content is dropped from it. -/
def wrap (d : Document) (tag : Markup.Tag) (content : Tree) (owner : Option Id) (index : Nat)
    (i : Id) : Document :=
  let w := d.store.size
  let planted := (Store.plant (.element tag content .nil) d.store).2
  let d : Document := { d with store := planted.link none [w] }
  let d := d.splice owner index 1 [w]
  d.splice (some w) 0 (d.siblings (some w)).length [i]

end Document
end InlineBinding.Linked
