import InlineBinding.Markup.Recovery
import InlineBinding.Proofs.Forest

/-!
# What gets into a tree

A document is the root of what has been read, with the comments around it. A fragment is what
stands in the head and in the body of a document of its own. All else is left out.
-/
namespace InlineBinding

namespace Forest

variable {ε μ : Type}

theorem eq_of_root? {f : Forest ε μ} {e : ε} {cs : Forest ε μ} (h : f.root? = some (e, cs)) :
    f = f.before ++ element e cs f.after := by
  induction f with
  | nil => exact absurd h (by simp [root?])
  | element d ds rest _ _ =>
    obtain ⟨rfl, rfl⟩ := Prod.mk.inj (Option.some.inj h)
    rfl
  | leaf l rest ih => exact congrArg (leaf l) (ih h)

end Forest

namespace Markup
open Html

/-! ## Parts that are left out -/

/-- Top-level nodes other than comments are no part of a document, its root apart. -/
def outside : Html.Tree → Html.Tree
  | .nil => .nil
  | .element t cs rest => .element t cs (outside rest)
  | .leaf (.text data) rest => .leaf (.text data) (outside rest)
  | .leaf (.comment _) rest => outside rest

/-- Below the root of a fragment, all but the content of its sections. -/
def besides : Html.Tree → Html.Tree
  | .nil => .nil
  | .element t cs rest =>
    if t.name = Builder.head || t.name = Builder.body then .element t .nil (besides rest)
    else .element t cs (besides rest)
  | .leaf l rest => .leaf l (besides rest)

/-- What is left out of a document, or else of a fragment. -/
def strays (whole : Bool) (f : Html.Tree) : Html.Tree :=
  match f.root? with
  | none => f
  | some (root, content) =>
    if whole then outside f.before ++ outside f.after
    else f.before ++ .element root (besides content) f.after

namespace Recovery

/-- A fragment is read inside a document of its own. -/
def input (prepared : Text) : Text :=
  if startsDocument prepared then prepared else wrapFragment prepared

/-- A leaf before white space is collapsed. -/
def leaf (r : Recovery) : Html.Leaf → Leaf
  | .text data => ⟨.text, data⟩
  | .comment data => r.commentLeaf data

section Parts

variable {P : Tag → Prop} {Q : Leaf → Prop} {r : Recovery} {f : Html.Tree}

section Nodes

variable (hq : ∀ data, Q ⟨.text, data⟩ → Q ⟨.text, Text.collapse data⟩)

include hq

theorem any_nodes (keep : Bool) (h : f.Any (fun t => P (r.tag t)) (fun l => Q (r.leaf l))) :
    (r.nodes keep f).Any P Q := by
  induction f generalizing keep with
  | nil => exact h
  | element t cs rest ihc ihr => exact h.imp id (Or.imp (ihc _) (ihr keep))
  | leaf l rest ih =>
    cases l with
    | text data =>
      refine h.imp (fun h => ?_) (ih keep)
      cases keep with
      | true => exact h
      | false => exact hq data h
    | comment data => exact h.imp id (ih keep)

theorem any_sectionContents (keep : Bool)
    (h : f.Any (fun t => P (r.tag t)) (fun l => Q (r.leaf l))) :
    (r.sectionContents keep f).Any P Q ∨
      (besides f).Any (fun t => P (r.tag t)) (fun l => Q (r.leaf l)) := by
  induction f with
  | nil => exact Or.inl h
  | element t cs rest ihc ihr =>
    rw [sectionContents, besides]
    split
    · rw [Forest.any_append]
      rcases h with h | h | h
      · exact Or.inr (Or.inl h)
      · exact Or.inl (Or.inl (any_nodes hq keep h))
      · exact (ihr h).imp Or.inr fun h => Or.inr (Or.inr h)
    · rcases h with h | h | h
      · exact Or.inr (Or.inl h)
      · exact Or.inr (Or.inr (Or.inl h))
      · exact (ihr h).imp id fun h => Or.inr (Or.inr h)
  | leaf l rest ih =>
    rcases h with h | h
    · exact Or.inr (Or.inl h)
    · exact (ih h).imp id Or.inr

end Nodes

theorem any_comments (h : f.Any (fun t => P (r.tag t)) (fun l => Q (r.leaf l))) :
    (r.comments f).Any P Q ∨
      (outside f).Any (fun t => P (r.tag t)) (fun l => Q (r.leaf l)) := by
  induction f with
  | nil => exact Or.inl h
  | element t cs rest _ ih =>
    rcases h with h | h | h
    · exact Or.inr (Or.inl h)
    · exact Or.inr (Or.inr (Or.inl h))
    · exact (ih h).imp id fun h => Or.inr (Or.inr h)
  | leaf l rest ih =>
    cases l with
    | text data =>
      rcases h with h | h
      · exact Or.inr (Or.inl h)
      · exact (ih h).imp id Or.inr
    | comment data =>
      rcases h with h | h
      · exact Or.inl (Or.inl h)
      · exact (ih h).imp Or.inr id

section Whole

variable (hq : ∀ data, Q ⟨.text, data⟩ → Q ⟨.text, Text.collapse data⟩) {markup : Text}
  {collapsing : Bool} {tree : Tree}

include hq

theorem any_document {hasDoctype : Bool}
    (hp : r.document collapsing hasDoctype markup = .ok tree)
    (h : (Html.read markup).nodes.Any (fun t => P (r.tag t)) (fun l => Q (r.leaf l))) :
    tree.Any P Q ∨ (strays true (Html.read markup).nodes).Any (fun t => P (r.tag t))
      (fun l => Q (r.leaf l)) := by
  rw [document] at hp
  cases hroot : (Html.read markup).nodes.root? with
  | none =>
    rw [hroot] at hp
    exact absurd hp (by simp)
  | some top =>
    obtain ⟨root, content⟩ := top
    rw [hroot] at hp
    rw [strays, hroot, ← Except.ok.inj hp]
    simp only [if_true, Forest.any_append]
    rw [Forest.eq_of_root? hroot, Forest.any_append] at h
    rcases h with h | h | h | h
    · rcases any_comments h with h | h
      · exact Or.inl (Or.inl (Or.inl (Or.inr h)))
      · exact Or.inr (Or.inl h)
    · exact Or.inl (Or.inl (Or.inr (Or.inl h)))
    · exact Or.inl (Or.inl (Or.inr (Or.inr (Or.inl (any_nodes hq _ h)))))
    · rcases any_comments h with h | h
      · exact Or.inl (Or.inr h)
      · exact Or.inr (Or.inr h)

theorem any_fragment (hp : r.fragment collapsing markup = .ok tree)
    (h : (Html.read (wrapFragment markup)).nodes.Any (fun t => P (r.tag t))
      (fun l => Q (r.leaf l))) :
    tree.Any P Q ∨ (strays false (Html.read (wrapFragment markup)).nodes).Any
      (fun t => P (r.tag t)) (fun l => Q (r.leaf l)) := by
  rw [fragment] at hp
  cases hroot : (Html.read (wrapFragment markup)).nodes.root? with
  | none =>
    rw [hroot] at hp
    exact absurd hp (by simp)
  | some top =>
    obtain ⟨root, content⟩ := top
    rw [hroot] at hp
    rw [strays, hroot, ← Except.ok.inj hp]
    simp only [Bool.false_eq_true, if_false, Forest.any_append]
    rw [Forest.eq_of_root? hroot, Forest.any_append] at h
    rcases h with h | h | h | h
    · exact Or.inr (Or.inl h)
    · exact Or.inr (Or.inr (Or.inl h))
    · exact (any_sectionContents hq _ h).imp id fun h => Or.inr (Or.inr (Or.inl h))
    · exact Or.inr (Or.inr (Or.inr (Or.inr h)))

end Whole

end Parts

end Recovery

open Recovery in
/-- What has been read gets into the tree, or it is left out. -/
theorem any_parse {P : Tag → Prop} {Q : Leaf → Prop}
    (hq : ∀ data, Q ⟨.text, data⟩ → Q ⟨.text, Text.collapse data⟩) {collapsing : Bool}
    {markup : Text} {tree : Tree} (hp : parse collapsing markup = .ok tree)
    (h : (Html.read (input (prepare markup))).nodes.Any (fun t => P ((Recovery.of markup).tag t))
      (fun l => Q ((Recovery.of markup).leaf l))) :
    tree.Any P Q ∨ (strays (startsDocument (prepare markup))
      (Html.read (input (prepare markup))).nodes).Any (fun t => P ((Recovery.of markup).tag t))
        (fun l => Q ((Recovery.of markup).leaf l)) := by
  rw [parse] at hp
  rw [input] at h ⊢
  cases hs : startsDocument (prepare markup) with
  | true =>
    rw [hs] at hp h
    exact any_document hq hp h
  | false =>
    rw [hs] at hp h
    exact any_fragment hq hp h

end Markup
end InlineBinding
