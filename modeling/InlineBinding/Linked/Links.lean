import InlineBinding.Linked.Store

/-!
# Sibling lists

Linking walks a list once and writes parent, previous and next of every member. Splicing replaces
a slice of a sibling list and links the whole list anew; a bound below zero counts from the end,
and bounds outside the list are moved to its ends.
-/
namespace InlineBinding.Linked

namespace Store

/-- The first of `ids` comes after `previous`. A node that occurs twice keeps what was written
last. -/
def linkFrom (parent : Option Id) : (previous : Option Id) → List Id → Store → Store
  | _, [], s => s
  | previous, i :: ids, s =>
    let s := s.update i fun n => { n with parent := parent, prev := previous, next := none }
    let s := match previous with
      | some p => s.update p fun n => { n with next := some i }
      | none => s
    linkFrom parent (some i) ids s

def link (s : Store) (parent : Option Id) (ids : List Id) : Store := linkFrom parent none ids s

@[simp] theorem link_nil (s : Store) (parent : Option Id) : s.link parent [] = s := rfl

/-- Previous sibling, else parent, else next sibling. -/
def anchor? (s : Store) (i : Id) : Option Id :=
  (s.get? i).bind fun n => n.prev.or (n.parent.or n.next)

end Store

/-- An index into a list of this length. -/
def clampIndex (length : Nat) (i : Int) : Nat :=
  if i < 0 then (i + length).toNat else min i.toNat length

theorem clampIndex_le (length : Nat) (i : Int) : clampIndex length i ≤ length := by
  unfold clampIndex
  split <;> omega

/-- Replaces the slice of `count` members from `index` on. -/
def replaceSlice {α : Type} (index count : Int) (new old : List α) : List α :=
  let first := clampIndex old.length index
  let last := max first (clampIndex old.length (index + count))
  old.take first ++ new ++ old.drop last

/-- A store and its top-level nodes. -/
structure Document where
  store : Store
  roots : List Id
  deriving DecidableEq

namespace Document

def empty : Document := ⟨Store.empty, []⟩

/-- The sibling list that an owner holds; the document owns the top level. -/
def siblings (d : Document) : (owner : Option Id) → List Id
  | none => d.roots
  | some i => d.store.children i

def setSiblings (d : Document) (ids : List Id) : (owner : Option Id) → Document
  | none => { d with roots := ids }
  | some i => { d with store := d.store.setChildren i ids }

def splice (d : Document) (owner : Option Id) (index count : Int) (new : List Id) : Document :=
  let ids := replaceSlice index count new (d.siblings owner)
  let d := d.setSiblings ids owner
  { d with store := d.store.link owner ids }

end Document
end InlineBinding.Linked
