import InlineBinding.Proofs.Delimiters.Exchange
import InlineBinding.Proofs.Markup.Front
import InlineBinding.Proofs.Shield.Exact
import InlineBinding.Proofs.Shield.Fresh

/-!
# Hidden sections

The comments that stand for sections are labels of their own, so that each of them can be read at
one place, and putting the sections back gives the markup. Between the comments nothing is changed:
a section that could be read there would begin and end in the markup, where it was hidden.
-/
namespace InlineBinding

namespace Text

variable {α : Type}

theorem join_map_hits (g : α → α) (w : α → Text) (qs : List (Piece α)) :
    join w (qs.map (Piece.map id g)) = join (fun q => w (g q)) qs := by
  rw [join, join, List.flatMap_map]
  refine List.flatMap_congr fun q _ => ?_
  cases q <;> rfl

theorem clippings_map (g : Clipping → Clipping) (qs : List (Piece Clipping)) :
    clippings (qs.map (Piece.map id g)) = (clippings qs).map g := by
  rw [clippings, clippings, List.filterMap_map, List.map_filterMap]
  refine List.filterMap_congr fun q _ => ?_
  cases q <;> rfl

end Text

namespace Markup
open Text

variable {markup document s : Text} {last : ℕ}

/-! ## Comments as labels -/

/-- A comment stands for a section as a whole. -/
def asComment (c : Clipping) : Clipping := ⟨keyComment c.mark, c.text⟩

def commentLabels : Numbered := ⟨"<!--bindify-cdata-".toList, "-->".toList⟩

theorem keyComment_label (k : ℕ) : keyComment (sectionKeys.label k) = commentLabels.label k := by
  change "<!--".toList ++ ("bindify-cdata-".toList ++ digits k ++ []) ++ "-->".toList =
    "<!--".toList ++ "bindify-cdata-".toList ++ digits k ++ "-->".toList
  rw [List.append_nil, ← List.append_assoc "<!--".toList]

theorem keyComment_injective {x y : Text} (h : keyComment x = keyComment y) : x = y :=
  List.append_cancel_left (List.append_cancel_right h)

theorem separate_commentLabels : commentLabels.Separate '<' where
  opens := ⟨"!--bindify-cdata-".toList, rfl, by decide⟩
  notMem_after := by decide
  notDigit := by decide
  closes := ⟨'-', "->".toList, rfl, by decide⟩

/-- The pieces of the markup with comments as their marks. -/
def commentedSections (markup : Text) : List (Piece Clipping) :=
  (keyedSections markup).map (Piece.map id asComment)

theorem clippings_commentedSections (markup : Text) :
    clippings (commentedSections markup) = (clippings (keyedSections markup)).map asComment :=
  clippings_map asComment _

theorem join_mark_commentedSections (markup : Text) :
    join Clipping.mark (commentedSections markup) = hideSections markup :=
  join_map_hits asComment Clipping.mark _

theorem join_text_commentedSections (markup : Text) :
    join Clipping.text (commentedSections markup) = markup :=
  (join_map_hits asComment Clipping.text _).trans (Recovery.join_text_keyedSections markup)

theorem labelled_keyedSections (markup : Text) :
    sectionKeys.Labelled (clippings (keyedSections markup)) :=
  Numbered.labelled_assign sectionKeys markup 0 _

theorem labelled_commentedSections (markup : Text) :
    commentLabels.Labelled (clippings (commentedSections markup)) := by
  have hl := labelled_keyedSections markup
  rw [clippings_commentedSections]
  refine ⟨?_, ?_⟩
  · rw [List.forall_mem_map]
    intro c hc
    obtain ⟨k, hk⟩ := hl.exists_label c hc
    exact ⟨k, by rw [asComment, hk, keyComment_label]⟩
  · rw [List.pairwise_map]
    exact hl.distinct.imp fun hne he => hne (keyComment_injective he)

/-! ## Keys and sections -/

/-- A section and its comment, read off the table. -/
theorem map_sectionTable (markup : Text) :
    (sectionTable markup).map (fun p => ⟨keyComment p.1, '<' :: p.2 ++ ['>']⟩) =
      clippings (commentedSections markup) := by
  rw [sectionTable, List.map_map, clippings_commentedSections]
  refine List.map_congr_left fun c hc => ?_
  have htext := Recovery.text_of_mem_keyedSections (Numbered.mem_clippings.1 hc)
  rw [Function.comp_apply, ← htext, asComment]

theorem pairwise_sectionTable (markup : Text) :
    (sectionTable markup).Pairwise fun p q => p.1 ≠ q.1 := by
  rw [sectionTable, List.pairwise_map]
  exact (labelled_keyedSections markup).distinct

theorem not_key_infix_markup {p : Text × Text} (hp : p ∈ sectionTable markup) : ¬ p.1 <:+: markup := by
  obtain ⟨c, hc, rfl⟩ := List.mem_map.1 hp
  obtain ⟨k, -, -, hk⟩ := Numbered.exists_label_of_mem_assign (Numbered.mem_clippings.1 hc)
  exact hk

theorem not_key_infix_section {p q : Text × Text} (hp : p ∈ sectionTable markup)
    (hq : q ∈ sectionTable markup) : ¬ p.1 <:+: q.2 := by
  intro h
  have hwhole : q.2 <:+: '<' :: q.2 ++ ['>'] := ⟨['<'], ['>'], rfl⟩
  exact not_key_infix_markup hp (h.trans (hwhole.trans (Recovery.infix_markup hq)))

theorem not_keyComment_infix_markup {p : Text × Text} (hp : p ∈ sectionTable markup) :
    ¬ keyComment p.1 <:+: markup := by
  intro h
  have hkey : p.1 <:+: keyComment p.1 := ⟨"<!--".toList, "-->".toList, rfl⟩
  exact not_key_infix_markup hp (hkey.trans h)

theorem occurrences_keyComment {p : Text × Text} (hp : p ∈ sectionTable markup) :
    occurrences (keyComment p.1) (hideSections markup) = 1 := by
  have hl := labelled_commentedSections markup
  have hc : ⟨keyComment p.1, '<' :: p.2 ++ ['>']⟩ ∈ clippings (commentedSections markup) := by
    rw [← map_sectionTable]
    exact List.mem_map_of_mem hp
  rw [← join_mark_commentedSections]
  refine (occurrences_join_mark separate_commentLabels hl
    (fun _ => Numbered.mem_clippings.2) hc ?_).trans (List.count_eq_one_of_mem hl.nodup hc)
  rw [join_text_commentedSections]
  exact not_keyComment_infix_markup hp

/-- The loop over the table puts all sections back. -/
theorem reopen_hideSections (markup : Text) :
    Recovery.reopen (sectionTable markup) (hideSections markup) = markup := by
  have hl := labelled_commentedSections markup
  have hloop := foldl_replace_mark separate_commentLabels hl
    (fun _ => Numbered.mem_clippings.2) fun c hc => ?_
  · rwa [join_mark_commentedSections, join_text_commentedSections, ← map_sectionTable,
      List.foldl_map] at hloop
  · rw [join_text_commentedSections]
    rw [← map_sectionTable] at hc
    obtain ⟨p, hp, rfl⟩ := List.mem_map.1 hc
    exact not_keyComment_infix_markup hp

/-! ## No section is left -/

/-- A comment is as its label says. -/
theorem keyComment_of_hit {c : Clipping}
    (hc : .hit c ∈ sectionKeys.assign document last (cut sectionAt? s)) :
    ']' ∉ keyComment c.mark ∧ ∃ r, keyComment c.mark = '<' :: r ∧ '<' ∉ r := by
  obtain ⟨k, -, hk, -⟩ := Numbered.exists_label_of_mem_assign hc
  rw [hk, keyComment_label]
  exact ⟨Numbered.notMem_label (by decide) (by decide) (by decide) k,
    separate_commentLabels.label_eq_cons k⟩

/-- The opening delimiter of a section that begins between two comments was there before. -/
theorem prefix_of_prefix_hidden {p : Text} (hp : '<' ∉ p) (h : p <+: hidden document last s) :
    p <+: s := by
  have h := prefix_join_of_notMem (z := Clipping.text)
    (fun c hc => Or.inr (keyComment_of_hit hc).2) hp h
  rwa [Recovery.join_text_sections] at h

/-- So was the closing one. -/
theorem closing_infix_of_hidden
    (h : sectionDelimiters.closing <:+: hidden document last s) :
    sectionDelimiters.closing <:+: s := by
  have h := infix_join_of_notMem (a := ']') (b := '<') (z := Clipping.text) (by decide)
    (fun c hc => keyComment_of_hit hc) h
  rwa [Recovery.join_text_sections] at h

theorem wrap_eq_append (x : Text) :
    sectionDelimiters.wrap x = '<' :: ("![CDATA[".toList ++ (x ++ "]]>".toList)) := by
  rw [Delimiters.wrap, List.append_assoc]
  rfl

theorem hidden_cons_of_some (document : Text) (last : ℕ) {c : Char} {t : Text} {n : ℕ}
    (h : sectionAt? (c :: s) = some (t, n)) : ∃ k, hidden document last (c :: s) =
      keyComment (sectionKeys.label k) ++ hidden document k (s.drop (n - 1)) :=
  ⟨sectionKeys.free document (last + 1),
    by rw [hidden, cut_cons_of_some h, Numbered.assign, join_hit, hidden]⟩

/-- A section at the start of what is hidden would have been hidden itself. -/
theorem not_wrap_prefix_hidden (document : Text) (last : ℕ) (s x : Text) :
    ¬ sectionDelimiters.wrap x <+: hidden document last s := by
  intro h
  cases s with
  | nil => exact List.cons_ne_nil _ _ (List.prefix_nil.1 (wrap_eq_append x ▸ h))
  | cons c s =>
    rw [wrap_eq_append] at h
    cases hs : sectionAt? (c :: s) with
    | none =>
      rw [hidden_cons_of_none hs] at h
      -- both delimiters were there before, the closing one behind the opening one
      obtain ⟨rfl, hrest⟩ := List.cons_prefix_cons.1 h
      have hopening := (List.prefix_append "![CDATA[".toList _).trans hrest
      obtain ⟨r, rfl⟩ := prefix_of_prefix_hidden (by decide) hopening
      rw [hidden_append (by decide), List.prefix_append_right_inj] at hrest
      have hclosing := closing_infix_of_hidden
        ((List.suffix_append x "]]>".toList).isInfix.trans hrest.isInfix)
      exact Recovery.sectionAt?_eq_none_iff.1 hs (Delimiters.opens_iff.2 ⟨r, rfl, hclosing⟩)
    | some p =>
      obtain ⟨k, hk⟩ := hidden_cons_of_some document last hs
      rw [hk, keyComment] at h
      have h : '<' :: '!' :: '[' :: _ <+: '<' :: '!' :: '-' :: _ := h
      simp [List.cons_prefix_cons] at h

theorem not_wrap_infix_hidden (document : Text) (last : ℕ) (s x : Text) :
    ¬ sectionDelimiters.wrap x <:+: hidden document last s := by
  induction s using cut_induction sectionAt? generalizing last with
  | nil =>
    intro h
    exact List.cons_ne_nil _ _ (List.infix_nil.1 (wrap_eq_append x ▸ h))
  | char c s hs ih =>
    have hstart := not_wrap_prefix_hidden document last (c :: s) x
    rw [hidden_cons_of_none hs] at hstart ⊢
    rw [List.infix_cons_iff, not_or]
    exact ⟨hstart, ih last⟩
  | hit c s t n hs ih =>
    -- nothing begins within a comment
    have hstart := not_wrap_prefix_hidden document last (c :: s) x
    obtain ⟨k, hk⟩ := hidden_cons_of_some document last hs
    obtain ⟨m, hm, hangle⟩ := separate_commentLabels.label_eq_cons k
    rw [hk, keyComment_label, hm, List.cons_append] at hstart ⊢
    rw [List.infix_cons_iff, not_or]
    refine ⟨hstart, fun h => ih k ?_⟩
    rw [wrap_eq_append] at h ⊢
    exact infix_of_notMem_head hangle h

/-! ## The whole -/

/-- Keys are different and new to the markup and to all sections. Each of them is read at one place
once the sections are hidden, no section is left, and the loop that restores them gives the markup
back. -/
theorem restore_hideSections (markup : Text) :
    (sectionTable markup).Pairwise (fun p q => p.1 ≠ q.1) ∧
      (∀ p ∈ sectionTable markup, ¬ p.1 <:+: markup ∧
        (∀ q ∈ sectionTable markup, ¬ p.1 <:+: q.2) ∧
        occurrences (keyComment p.1) (hideSections markup) = 1) ∧
      (∀ x, ¬ sectionDelimiters.wrap x <:+: hideSections markup) ∧
      ∀ casing, (⟨none, casing, sectionTable markup⟩ : Recovery).restore (hideSections markup) =
        markup := by
  refine ⟨pairwise_sectionTable markup, fun p hp => ?_, fun x => ?_, fun casing => ?_⟩
  · exact ⟨not_key_infix_markup hp, fun q hq => not_key_infix_section hp hq, occurrences_keyComment hp⟩
  · rw [hideSections_eq]
    exact not_wrap_infix_hidden _ _ _ x
  · exact reopen_hideSections markup

/-- Two sections side by side with parts of a comment in them, where the text takes the numbers from
two to nine, so that one key begins the other. -/
def crowded : Text :=
  (List.range' 2 8).flatMap sectionKeys.label ++ "<![CDATA[<!--]]><![CDATA[-->]]>]]>".toList

theorem restore_hideSections_crowded :
    let p : Text × Text := ("bindify-cdata-1".toList, "![CDATA[<!--]]".toList)
    let q : Text × Text := ("bindify-cdata-10".toList, "![CDATA[-->]]".toList)
    sectionTable crowded = [p, q] ∧ p.1 <:+: q.1 ∧ ¬ p.1 <:+: crowded ∧
      occurrences (keyComment p.1) (hideSections crowded) = 1 ∧
      (⟨none, Casing.empty, [p, q]⟩ : Recovery).restore (hideSections crowded) = crowded := by
  intro p q
  have htable : sectionTable crowded = [p, q] := by decide +kernel
  obtain ⟨-, hkeys, -, hrestore⟩ := restore_hideSections crowded
  have hp : p ∈ sectionTable crowded := by simp [htable]
  rw [htable] at hrestore
  exact ⟨htable, by decide, (hkeys p hp).1, (hkeys p hp).2.2, hrestore Casing.empty⟩

end Markup
end InlineBinding
