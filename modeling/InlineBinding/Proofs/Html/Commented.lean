import InlineBinding.Proofs.Html.Nesting

/-!
# A comment between plain markup

A comment ends where its text first says so. A text that does not say so is the comment, and what
stands before it and behind it is read as if it were not there.
-/
namespace InlineBinding.Html
open Text

/-- A comment around the text. -/
def commented (c : Text) : Text := "<!--".toList ++ c ++ "-->".toList

/-- A text at which a comment does not end: neither at the start, where a short end counts, nor
within. -/
structure Enclosed (c : Text) : Prop where
  start : ¬ ['>'] <+: c ∧ ¬ "->".toList <+: c
  inside : ¬ "-->".toList <:+: c ∧ ¬ "--!>".toList <:+: c

instance (c : Text) : Decidable (Enclosed c) :=
  decidable_of_iff ((¬ ['>'] <+: c ∧ ¬ "->".toList <+: c) ∧
    ¬ "-->".toList <:+: c ∧ ¬ "--!>".toList <:+: c) ⟨fun ⟨h, h'⟩ => ⟨h, h'⟩, fun h => ⟨h.1, h.2⟩⟩

section Lex

variable {c w : Text} (rest : Text)

/-- All that ends a comment, at its start or within it. -/
def commentEnds : List Text := [['>'], "->".toList, "-->".toList, "--!>".toList]

/-- No end of a comment goes from a text on into the dashes behind it. -/
theorem prefix_of_prefix_dashes (hw : w ∈ commentEnds) (hc : c = [] → w ≠ "-->".toList)
    (h : w <+: c ++ ("-->".toList ++ rest)) : w <+: c := by
  have hends : ∀ w ∈ commentEnds, ∀ u ∈ w.tails,
      u = [] ∨ (u = "-->".toList ∧ w = "-->".toList) ∨ ¬ u.take 3 <+: "-->".toList := by decide
  rcases prefix_append_or h with h | ⟨u, hu, hrest⟩
  · exact h
  · have hdashes : u.take 3 <+: "-->".toList := hrest.take 3
    rcases hends w hw u ((List.mem_tails u w).2 ⟨c, hu.symm⟩) with rfl | ⟨rfl, hw⟩ | hnot
    · rw [hu, List.append_nil]
    · exact absurd hw (hc (by simpa [hw] using hu))
    · exact absurd hdashes hnot

theorem commentBody_of_not_infix (h : ¬ "-->".toList <:+: c ∧ ¬ "--!>".toList <:+: c) :
    commentBody (c ++ ("-->".toList ++ rest)) = (c, rest) := by
  induction c with
  | nil => rfl
  | cons x c ih =>
    have hnot {w : Text} (hw : w ∈ commentEnds) (hi : ¬ w <:+: x :: c) :
        w.isPrefixOf (x :: (c ++ ("-->".toList ++ rest))) = false := by
      rw [← Bool.not_eq_true, List.isPrefixOf_iff_prefix]
      exact fun hp => hi (prefix_of_prefix_dashes rest hw (by simp) hp).isInfix
    have hopen : [['-'], "--".toList, "--!".toList].contains
        (x :: (c ++ ("-->".toList ++ rest))) = false := by
      rw [← Bool.not_eq_true, List.contains_iff_mem]
      intro hm
      have hshort : ∀ w ∈ [['-'], "--".toList, "--!".toList], w.length ≤ 3 := by decide
      have hlength := hshort _ hm
      simp at hlength
      omega
    have ih := ih ⟨fun hi => h.1 (List.infix_cons hi), fun hi => h.2 (List.infix_cons hi)⟩
    rw [List.cons_append, commentBody, hnot (by decide) h.1, hnot (by decide) h.2, hopen, ih]
    rfl

theorem comment_of_enclosed (h : Enclosed c) : comment (c ++ ("-->".toList ++ rest)) = (c, rest) := by
  rw [← commentBody_of_not_infix rest h.inside]
  unfold comment
  split
  · rename_i r he
    have hp : ['>'] <+: c ++ ("-->".toList ++ rest) := he ▸ ⟨r, rfl⟩
    exact absurd (prefix_of_prefix_dashes rest (by decide) (fun _ => by decide) hp) h.start.1
  · rename_i r he
    have hp : "->".toList <+: c ++ ("-->".toList ++ rest) := he ▸ ⟨r, rfl⟩
    exact absurd (prefix_of_prefix_dashes rest (by decide) (fun _ => by decide) hp) h.start.2
  · rfl

theorem lex_commented (h : Enclosed c) :
    lex (commented c ++ rest) = .comment c :: lex rest := by
  have hwrite : commented c ++ rest =
      '<' :: '!' :: '-' :: '-' :: (c ++ ("-->".toList ++ rest)) := by
    simp [commented]
  rw [hwrite, lex_cons, step, if_pos rfl, markup, declaration, if_pos (by rfl), List.drop_succ_cons,
    List.drop_succ_cons, List.drop_zero, comment_of_enclosed rest h]
  rfl

end Lex

/-! ## Containers -/

/-- All elements are written with an end tag. -/
def Contained (t : Tree) : Prop := ∀ v ∈ t.elements, v.name ∈ containerNames

instance (t : Tree) : Decidable (Contained t) :=
  inferInstanceAs (Decidable (∀ v ∈ t.elements, v.name ∈ containerNames))

theorem shapesLast_of_contained {t : Tree} (h : Contained t) : ShapesLast t := by
  have hkinds : ∀ n ∈ containerNames, n ∉ shapeNames := by decide
  induction t with
  | nil => trivial
  | element v cs rest ihc ihr =>
    rw [Contained, Forest.elements, List.forall_mem_cons, List.forall_mem_append] at h
    exact ⟨fun hs => absurd hs (hkinds _ h.1), ihc h.2.1, ihr h.2.2⟩
  | leaf l rest ih => exact ih h

/-- Nothing stays open behind containers. -/
theorem frames_of_contained {t : Tree} (h : Contained t) (f : Frame) :
    frames false t f = [⟨f.tag, (nest false t).reverseOnto f.content⟩] := by
  have hkinds : ∀ n ∈ containerNames, staysOpen false n = false := by decide
  induction t generalizing f with
  | nil => rfl
  | element v cs rest _ ih =>
    rw [Contained, Forest.elements, List.forall_mem_cons, List.forall_mem_append] at h
    rw [frames, nest, hkinds _ h.1, if_neg (by simp), if_neg (by simp), ih h.2.2, Forest.reverseOnto]
  | leaf l rest ih =>
    rw [frames, nest, ih h, Forest.reverseOnto]

namespace Builder

/-- A comment between two parts of a document of its own. -/
theorem build_commented {t u : Tree} (ht : Plain t) (htc : Contained t) (hu : Plain u) (c : Text) :
    build (.startTag ⟨html, []⟩ false :: .startTag ⟨body, []⟩ false ::
      (tokens false t ++ .comment c :: (tokens false u ++ [.endTag body, .endTag html]))) =
        .element ⟨html, []⟩ (.element ⟨body, []⟩
          (nest false t ++ .leaf (.comment c) (nest false u)) .nil) .nil := by
  have hopened : (start.token (.startTag ⟨html, []⟩ false)).token (.startTag ⟨body, []⟩ false) =
      within [⟨⟨body, []⟩, .nil⟩, ⟨⟨html, []⟩, .nil⟩] := by
    rfl
  have hfirst : (tokens false t).foldl token (within [⟨⟨body, []⟩, .nil⟩, ⟨⟨html, []⟩, .nil⟩]) =
      within [⟨⟨body, []⟩, (nest false t).reverse⟩, ⟨⟨html, []⟩, .nil⟩] := by
    rw [foldl_tokens (f := ⟨⟨body, []⟩, .nil⟩) ht (by decide) fun he => absurd he (by decide),
      frames_of_contained htc]
    rfl
  have hcomment : (within [⟨⟨body, []⟩, (nest false t).reverse⟩, ⟨⟨html, []⟩, .nil⟩]).token
      (.comment c) = within
        [⟨⟨body, []⟩, .leaf (.comment c) (nest false t).reverse⟩, ⟨⟨html, []⟩, .nil⟩] := rfl
  have hcontent : (Forest.leaf (.comment c) (nest false t).reverse).reverse ++ nest false u =
      nest false t ++ .leaf (.comment c) (nest false u) := by
    have hreverse : (nest false t).reverse.reverse = nest false t :=
      Forest.reverse_reverseOnto (nest false t) .nil
    have hleaf : (Forest.leaf (.comment c) (nest false t).reverse).reverse =
        nest false t ++ .leaf (.comment c) .nil := by
      conv_lhs => rw [Forest.reverse, Forest.reverseOnto, Forest.reverseOnto_eq, hreverse]
    rw [hleaf, Forest.append_assoc]
    rfl
  have hholder : body ∈ holderNames := by decide
  have hsection : body ∈ html :: body :: containerNames := by decide
  have hsecond : (tokens false u).foldl token
      (within [⟨⟨body, []⟩, .leaf (.comment c) (nest false t).reverse⟩, ⟨⟨html, []⟩, .nil⟩]) =
        within (frames false u ⟨⟨body, []⟩, .leaf (.comment c) (nest false t).reverse⟩ ++
          [⟨⟨html, []⟩, .nil⟩]) :=
    foldl_tokens hu hholder (fun he => absurd he (by simp [startsText])) _
  have hbody : (within (frames false u ⟨⟨body, []⟩, .leaf (.comment c) (nest false t).reverse⟩ ++
      [⟨⟨html, []⟩, .nil⟩])).token (.endTag body) = within [⟨⟨html, []⟩,
        .element ⟨body, []⟩ (nest false t ++ .leaf (.comment c) (nest false u)) .nil⟩] := by
    rw [← hcontent]
    exact endTag_frames (f := ⟨⟨body, []⟩, .leaf (.comment c) (nest false t).reverse⟩) hu hsection
      ⟨⟨html, []⟩, .nil⟩ []
  rw [build, List.foldl_cons, List.foldl_cons, hopened, List.foldl_append, hfirst, List.foldl_cons,
    hcomment, List.foldl_append, hsecond, List.foldl_cons, hbody]
  rfl

end Builder
end InlineBinding.Html
