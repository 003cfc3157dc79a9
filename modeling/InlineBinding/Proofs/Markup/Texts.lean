import InlineBinding.Proofs.Markup.Hosted
import InlineBinding.Proofs.Markup.Spelled
import InlineBinding.Proofs.Text.Collapsed

/-!
# Texts and the elements around them

Every text that gets into a tree stays where it was between the others and within the same elements.
White space of a text counts if it does so in one of the elements around it, at any depth; what
follows an element stands in the one around both.
-/
namespace InlineBinding

namespace Forest

variable {ε μ : Type}

/-- What is read from the leaves in order, each with the inner nodes around it, nearest first. -/
def within (read? : μ → Option Text) : List ε → Forest ε μ → List (List ε × Text)
  | _, nil => []
  | around, element e cs rest => within read? (e :: around) cs ++ within read? around rest
  | around, leaf l rest => ((read? l).map (around, ·)).toList ++ within read? around rest

variable {read? : μ → Option Text} {around : List ε}

theorem within_append (f g : Forest ε μ) :
    (f ++ g).within read? around = f.within read? around ++ g.within read? around := by
  induction f with
  | nil => rfl
  | element e cs rest _ ih => rw [element_append, within, within, ih, List.append_assoc]
  | leaf l rest ih => rw [leaf_append, within, within, ih, List.append_assoc]

theorem within_ofLeaves {ls : List μ} (h : ∀ l ∈ ls, read? l = none) :
    (ofLeaves ls : Forest ε μ).within read? around = [] := by
  induction ls with
  | nil => rfl
  | cons l ls ih =>
    rw [List.forall_mem_cons] at h
    change ((read? l).map (around, ·)).toList ++ (ofLeaves ls).within read? around = []
    rw [h.1, ih h.2]
    rfl

end Forest

namespace Html

def Leaf.text? : Leaf → Option Text
  | .text data => some data
  | .comment _ => none

/-- The texts that were read. -/
def texts (f : Html.Tree) : List (List Html.Tag × Text) := f.within Leaf.text? []

end Html

namespace Markup
open Text Html

def Leaf.text? (l : Leaf) : Option Text := if l.kind = .text then some l.data else none

/-- The texts of a tree. -/
def texts (t : Tree) : List (List Tag × Text) := t.within Leaf.text? []

/-! ## Where white space counts -/

/-- White space counts in a text within these elements. -/
def Significant (around : List Html.Tag) : Prop :=
  ∃ t ∈ around, asciiLower t.name ∈ words "pre textarea script style"

instance : DecidablePred Significant := fun around =>
  inferInstanceAs (Decidable (∃ t ∈ around, asciiLower t.name ∈ words "pre textarea script style"))

/-- What becomes of a text within elements. -/
def settled (collapsing : Bool) (p : List Html.Tag × Text) : Text :=
  if collapsing = true ∧ ¬ Significant p.1 then collapse p.2 else p.2

/-- Other letters with lower-case forms make no difference for these names. -/
theorem lower_mem_preservingNames {n : Text} :
    lower n ∈ Recovery.preservingNames ↔ asciiLower n ∈ words "pre textarea script style" := by
  have hnames : ∀ w ∈ words "pre textarea script style",
      (w.all fun x => decide (IsLow x ∧ x ≠ 'k')) = true := by decide
  rw [Recovery.preservingNames]
  constructor
  · intro h
    rwa [(lower_eq_iff (forall_mem_of_all (hnames _ h))).1 rfl]
  · intro h
    rwa [(lower_eq_iff (forall_mem_of_all (hnames _ h))).2 rfl]

/-- What is handed down to the nodes within these elements. -/
def handed (keep : Bool) (around : List Html.Tag) : Bool :=
  keep || around.any fun t => Recovery.preservingNames.contains (lower t.name)

theorem handed_eq_true_iff {keep : Bool} {around : List Html.Tag} :
    handed keep around = true ↔ keep = true ∨ Significant around := by
  rw [handed, Bool.or_eq_true, List.any_eq_true, Significant]
  simp only [List.contains_iff_mem, lower_mem_preservingNames]

theorem settle_handed (collapsing : Bool) (p : List Html.Tag × Text) :
    settle (handed (!collapsing) p.1) p.2 = settled collapsing p := by
  rw [settle, settled]
  by_cases h : handed (!collapsing) p.1 = true
  · rw [if_pos h, if_neg]
    rintro ⟨rfl, hn⟩
    exact (handed_eq_true_iff.1 h).elim (absurd · (by decide)) hn
  · rw [if_neg h, if_pos]
    rw [handed_eq_true_iff, not_or, Bool.not_eq_true, Bool.not_eq_false'] at h
    exact h

/-! ## Texts in a tree -/

theorem text?_commentLeaf (r : Recovery) (data : Text) : (r.commentLeaf data).text? = none := by
  rw [Recovery.commentLeaf]
  split <;> rfl

theorem within_nodes (r : Recovery) (keep : Bool) (around : List Html.Tag) (f : Html.Tree) :
    (r.nodes (handed keep around) f).within Leaf.text? (around.map r.tag) =
      (f.within Html.Leaf.text? around).map fun p => (p.1.map r.tag, settle (handed keep p.1) p.2) := by
  induction f generalizing around with
  | nil => rfl
  | element t cs rest ihc ihr =>
    have hhanded : (handed keep around || Recovery.preservingNames.contains (lower t.name)) =
        handed keep (t :: around) := by
      rw [handed, handed, List.any_cons, Bool.or_assoc, Bool.or_comm (around.any _)]
    rw [Recovery.nodes, hhanded, Forest.within, Forest.within, List.map_append, ← ihc, ← ihr]
    rfl
  | leaf l rest ih =>
    cases l with
    | text data => exact congrArg _ (ih around)
    | comment data =>
      rw [Recovery.nodes, Forest.within, Forest.within, text?_commentLeaf, ih]
      rfl

theorem texts_nodes (r : Recovery) (collapsing : Bool) (f : Html.Tree) :
    texts (r.nodes (!collapsing) f) =
      (Html.texts f).map fun p => (p.1.map r.tag, settled collapsing p) := by
  have h := within_nodes r (!collapsing) [] f
  simp only [settle_handed] at h
  rwa [handed, List.any_nil, Bool.or_false] at h

/-! ## Texts of what is read -/

/-- Beside what is taken of the markup there are no texts in a tree. -/
theorem texts_parse {collapsing : Bool} {markup : Text} {tree : Tree}
    (h : parse collapsing markup = .ok tree) :
    texts tree = texts ((Recovery.of markup).nodes (!collapsing) (nodesOf markup)) := by
  obtain ⟨front, behind, rfl, hkinds⟩ := parse_eq h
  have hnone : ∀ l ∈ front ++ behind, Leaf.text? l = none := fun l hl => if_neg (hkinds l hl)
  rw [List.forall_mem_append] at hnone
  rw [texts, Forest.within_append, Forest.within_append, Forest.within_ofLeaves hnone.1,
    Forest.within_ofLeaves hnone.2, List.nil_append, List.append_nil, texts]

/-! ## What should become of texts -/

/-- A text is kept, or its runs of white space of markup are written as one space each. -/
def Normalizes (collapsing : Bool) (p : List Html.Tag × Text) (w : Text) : Prop :=
  if collapsing = true ∧ ¬ Significant p.1 then Collapses isMargin p.2 w else w = p.2

theorem normalizes_settled_iff {collapsing : Bool} {p : List Html.Tag × Text} :
    Normalizes collapsing p (settled collapsing p) ↔
      (collapsing = true → ¬ Significant p.1 → ∀ c ∈ p.2, isSpace c = true → isMargin c = true) := by
  rw [Normalizes, settled]
  by_cases h : collapsing = true ∧ ¬ Significant p.1
  · rw [if_pos h, if_pos h, collapses_collapse_iff (fun c => isSpace_of_isMargin) (by decide)]
    exact ⟨fun hp _ _ => hp, fun hp => hp h.1 h.2⟩
  · rw [if_neg h, if_neg h]
    exact iff_of_true rfl fun hc hn => absurd ⟨hc, hn⟩ h

/-- Texts are neither merged nor dropped nor reordered, and each stays within its elements. It is
kept if white space counts there or is not collapsed at all; otherwise each of its runs of white
space is written as one space. This is as it should be if and only if all white space outside of
such elements is white space of markup. -/
theorem texts_of_parse (r : Recovery) (collapsing : Bool) (f : Html.Tree) :
    (texts (r.nodes (!collapsing) f) =
      (Html.texts f).map fun p => (p.1.map r.tag, settled collapsing p)) ∧
    (∀ s w, collapse s = w ↔ Collapses isSpace s w) ∧
    (List.Forall₂ (fun p q => q.1 = p.1.map r.tag ∧ Normalizes collapsing p q.2) (Html.texts f)
        (texts (r.nodes (!collapsing) f)) ↔
      ∀ p ∈ Html.texts f, collapsing = true → ¬ Significant p.1 →
        ∀ c ∈ p.2, isSpace c = true → isMargin c = true) ∧
    ∀ markup tree, parse collapsing markup = .ok tree →
      texts tree = texts ((Recovery.of markup).nodes (!collapsing) (nodesOf markup)) := by
  refine ⟨texts_nodes r collapsing f, fun s w => collapses_iff.symm, ?_, fun _ _ => texts_parse⟩
  rw [texts_nodes, List.forall₂_map_right_iff, List.forall₂_same]
  simp only [true_and, normalizes_settled_iff]

/-- White space of markup and a no-break space, within an element in any case and behind it. -/
def spaced : Text := "<div><PRE><b> x \n</b></PRE> a \n\u00a0 b</div>".toList

theorem texts_of_parse_spaced : ∃ tree, parse true spaced = .ok tree ∧
    (Html.texts (nodesOf spaced)).map Prod.snd = [" x \n".toList, " a \n\u00a0 b".toList] ∧
    (texts tree).map Prod.snd = [" x \n".toList, " a b".toList] ∧
    ¬ List.Forall₂ (fun p q => q.1 = p.1.map (Recovery.of spaced).tag ∧ Normalizes true p q.2)
      (Html.texts (nodesOf spaced)) (texts tree) := by
  have hfragment : Recovery.startsDocument (Recovery.prepare spaced) = false := by decide +kernel
  obtain ⟨tree, hparse, -⟩ := parse_fragment true hfragment
  obtain ⟨htexts, -, hiff, hparsed⟩ := texts_of_parse (Recovery.of spaced) true (nodesOf spaced)
  have hread : (Html.texts (nodesOf spaced)).map Prod.snd =
      [" x \n".toList, " a \n\u00a0 b".toList] := by decide +kernel
  refine ⟨tree, hparse, hread, ?_, fun h => ?_⟩
  · rw [hparsed spaced tree hparse, htexts, List.map_map]
    decide +kernel
  · rw [hparsed spaced tree hparse, hiff] at h
    have hmem : ([⟨"div".toList, []⟩], " a \n\u00a0 b".toList) ∈
        Html.texts (nodesOf spaced) := by decide +kernel
    exact absurd (h _ hmem rfl (by decide) '\u00a0' (by decide) (by decide)) (by decide)

end Markup
end InlineBinding
