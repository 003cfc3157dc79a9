import InlineBinding.Proofs.Binding.Retained
import InlineBinding.Proofs.Markup.Words
import InlineBinding.Proofs.Transform.Output

/-!
# Blocks that come back and blocks that do not

A block comes back when its mark, or the comment of the section in which the mark is hidden, gets
from the source into the tree. Nothing that is in the tree is lost any more. The marks that do not
get there stand in places of the source that can be named.
-/
namespace InlineBinding

namespace Markup
open Text Html

/-! ## Places of a word -/

section Places

variable (r : Recovery) (w : Text)

def Recovery.TagShows (t : Html.Tag) : Prop := (r.tag t).Holds w

def Recovery.LeafShows (l : Html.Leaf) : Prop := w <:+: renderLeaf (r.leaf l)

/-- The word is there when what the token gives is printed. -/
def Recovery.Shows (t : Token) : Prop := t.Gives (r.TagShows w) (r.LeafShows w)

instance : DecidablePred (r.TagShows w) :=
  fun t => inferInstanceAs (Decidable ((r.tag t).Holds w))

instance : DecidablePred (r.LeafShows w) :=
  fun l => inferInstanceAs (Decidable (w <:+: renderLeaf (r.leaf l)))

variable (markup : Text)

/-- In the tag of a section that is open already, or in a part of the tree that does not count. -/
def Omitted : Prop :=
  (∃ t ∈ Builder.start.misplaced (lex (source markup)), (Recovery.of markup).TagShows w t) ∨
    (strays (Recovery.startsDocument (Recovery.prepare markup)) (build (lex (source markup)))).Any
      ((Recovery.of markup).TagShows w) ((Recovery.of markup).LeafShows w)

instance : Decidable (Omitted w markup) := inferInstanceAs (Decidable (_ ∨ _))

/-- A word, or the comment for a section that holds it. -/
def Carries (x : Text) : Prop :=
  x = w ∨ ∃ p ∈ (Recovery.of markup).sections, w <:+: p.2 ∧ x = keyComment p.1

/-- The places of the source from which a word does not get into the tree. -/
inductive LeftOut : Prop
  /-- There is no mask, so that references are read. -/
  | unmasked (h : lacksMask markup = true)
  /-- It is in no token. -/
  | skipped (z : Text) (hz : z ∈ skipped (source markup)) (h : w <:+: z)
  /-- Names get the spelling that comes first, and attributes spelled alike become one. -/
  | respelled (t : Html.Tag) (ht : t ∈ (lex (source markup)).filterMap Token.startTag?)
      (h : t.Holds w) (hr : ¬ (Recovery.of markup).TagShows w t)
  /-- It is in a section, and no token shows it or the comment for the section. -/
  | hidden (p : Text × Text) (hp : p ∈ (Recovery.of markup).sections) (h : w <:+: p.2)
      (hk : ∀ x, Carries w markup x → ∀ t ∈ lex (source markup), ¬ (Recovery.of markup).Shows x t)
  | omitted (x : Text) (hx : Carries w markup x) (h : Omitted x markup)

end Places

/-! ## From the source to the tree -/

section Tree

variable {r : Recovery} {w x markup : Text}

theorem partial_leafShows (hw : w.Solid) : Leaf.Partial (r.LeafShows w) where
  ne_nil _ h he := hw.ne_nil (List.infix_nil.1 (he ▸ h))
  append a b h := h.elim (fun h => h.trans (List.prefix_append a b).isInfix)
    fun h => h.trans (List.suffix_append a b).isInfix
  skipBlank _ h := infix_skipBlank hw h

/-- Words of tokens are printed, except in tags that are spelled in another way. -/
theorem shows_or_respelled (hk : ∀ p ∈ r.sections, ¬ w <:+: p.1) {t : Token} (h : t.Holds w) :
    r.Shows w t ∨ ∃ tag slash, t = .startTag tag slash ∧ tag.Holds w ∧ ¬ r.TagShows w tag := by
  cases t with
  | text data => exact Or.inl h
  | raw data => exact Or.inl h
  | comment data =>
    refine Or.inl ?_
    have hleaf : r.commentLeaf data = ⟨.comment, data⟩ := by
      rw [Recovery.commentLeaf]
      split
      · rename_i s hs
        obtain ⟨before, after, he, -⟩ := List.lookup_eq_some_iff.1 hs
        exact absurd h (hk (data, s) (he ▸ List.mem_append_right _ List.mem_cons_self))
      · rfl
    change w <:+: renderLeaf (r.commentLeaf data)
    rw [hleaf]
    exact h.trans ⟨"<!--".toList, "-->".toList, rfl⟩
  | startTag tag slash =>
    by_cases hs : r.TagShows w tag
    · exact Or.inl hs
    · exact Or.inr ⟨tag, slash, rfl, h, hs⟩
  | endTag name => exact h.elim
  | cutTag name => exact h.elim

/-- What a token shows is in the tree or omitted. -/
theorem any_or_omitted (hx : x.Solid) {collapsing : Bool} {tree : Tree}
    (hp : parse collapsing markup = .ok tree) {t : Token} (ht : t ∈ lex (source markup))
    (h : (Recovery.of markup).Shows x t) :
    tree.Any (fun u => u.Holds x ∧ u.attributes.names.Nodup) (x <:+: renderLeaf ·) ∨
      Omitted x markup := by
  rcases any_build (partial_leafShows hx) ht h with h | h
  · have hnodes : (Html.read (Recovery.input (Recovery.prepare markup))).nodes.Any
        (fun t => ((Recovery.of markup).tag t).Holds x ∧
          ((Recovery.of markup).tag t).attributes.names.Nodup)
        ((Recovery.of markup).LeafShows x) :=
      h.mono (fun t ht => ⟨ht, Attributes.nodup_names_ofList _⟩) fun _ hl => hl
    have hcollapse (data : Text) (h : x <:+: renderLeaf ⟨.text, data⟩) :
        x <:+: renderLeaf ⟨.text, collapse data⟩ := hx.infix_collapse h
    refine (any_parse hcollapse hp hnodes).imp id fun h => Or.inr ?_
    exact h.mono (fun _ ht => ht.1) fun _ hl => hl
  · exact Or.inr (Or.inl h)

/-- A word of the source, or the comment of the section that it is in, is in the tree or left
out. -/
theorem any_or_leftOut (hw : Word w) (hk : ∀ p ∈ (Recovery.of markup).sections, ¬ w <:+: p.1)
    (hs : ∀ p ∈ (Recovery.of markup).sections, (keyComment p.1).Solid) {collapsing : Bool}
    {tree : Tree} (hp : parse collapsing markup = .ok tree) (h : w <:+: markup) :
    (∃ x, Carries w markup x ∧
      tree.Any (fun u => u.Holds x ∧ u.attributes.names.Nodup) (x <:+: renderLeaf ·)) ∨
        LeftOut w markup := by
  have hgiven {x : Text} (hx : Carries w markup x) {t : Token} (ht : t ∈ lex (source markup))
      (hg : (Recovery.of markup).Shows x t) :
      (∃ x, Carries w markup x ∧
        tree.Any (fun u => u.Holds x ∧ u.attributes.names.Nodup) (x <:+: renderLeaf ·)) ∨
          LeftOut w markup := by
    have hsolid : x.Solid := by
      rcases hx with rfl | ⟨p, hp, -, rfl⟩
      · exact hw.solid
      · exact hs p hp
    exact (any_or_omitted hsolid hp ht hg).imp (fun h => ⟨x, hx, h⟩) (LeftOut.omitted x hx)
  cases hm : lacksMask markup with
  | true => exact Or.inr (.unmasked hm)
  | false =>
    rcases Word.holds_source hw hm h with ⟨t, ht, h⟩ | ⟨z, hz, h⟩ | ⟨p, hp, h⟩
    · rcases shows_or_respelled hk h with h | ⟨tag, slash, rfl, h, hr⟩
      · exact hgiven (Or.inl rfl) ht h
      · exact Or.inr (.respelled tag (List.mem_filterMap.2 ⟨_, ht, rfl⟩) h hr)
    · exact Or.inr (.skipped z hz h)
    · by_cases hg : ∃ x, Carries w markup x ∧ ∃ t ∈ lex (source markup),
          (Recovery.of markup).Shows x t
      · obtain ⟨x, hx, t, ht, hg⟩ := hg
        exact hgiven hx ht hg
      · exact Or.inr (.hidden p hp h fun x hx t ht hgt => hg ⟨x, hx, t, ht, hgt⟩)

end Tree

end Markup

namespace Transform
open Text Html Markup Literal Shield Binding Linked

/-! ## Marks -/

section Marks

variable {o : Options} {document markup : Text} {c : Clipping} {p : Text × Text}

theorem word_mark (hc : c ∈ blocks o document) : Word c.mark where
  ne_nil := (labelled_blocks o document).mark_ne_nil c hc
  chars x hx := by
    have hname : ∀ x ∈ "bindifyjs".toList, isWordChar x = true := forall_mem_of_all (by decide)
    rcases mem_literalMark (labelled_blocks o document) hc (List.mem_append_left _ hx) with h | h
    · exact hname x h
    · exact isWordChar_of_isDigit h

theorem solid_keyComment (hp : p ∈ (Recovery.of markup).sections) : (keyComment p.1).Solid where
  ne_nil := Recovery.keyComment_ne_nil p.1
  space x hx := by
    have hname : ∀ x ∈ keyComment sectionKeys.before, isSpace x = false :=
      forall_mem_of_all (by decide)
    rcases Recovery.mem_keyComment hp hx with h | h
    · exact hname x h
    · exact isSpace_of_isWordChar (isWordChar_of_isDigit h)

theorem mark_infix_shielded (hc : c ∈ blocks o document) : c.mark <:+: shielded o document := by
  obtain ⟨before, after, he⟩ := List.append_of_mem (Numbered.mem_clippings.1 hc)
  refine ⟨join Clipping.mark before, join Clipping.mark after, ?_⟩
  rw [shielded, shield, he, join_append, join_hit, List.append_assoc]

/-- Neither a mark nor a comment for a section is cut by bindings or escaped in values. -/
theorem whole_of_carries (hc : c ∈ blocks o document) {x : Text} (hx : Carries c.mark markup x) :
    x.Solid ∧ '"' ∉ x ∧ Delimiters.braces.Apart x := by
  have hw := word_mark hc
  obtain ⟨hsolid, hout⟩ : x.Solid ∧ ∀ y ∈ ['"', '\x7b', '\x7d'], y ∉ x := by
    rcases hx with rfl | ⟨q, hq, -, rfl⟩
    · have hall : ∀ y ∈ ['"', '\x7b', '\x7d'], isWordChar y = false :=
        forall_mem_of_all (by decide)
      exact ⟨hw.solid, fun y hy => hw.notMem (hall y hy)⟩
    · have hall : ∀ y ∈ ['"', '\x7b', '\x7d'], Recovery.Idle y := by
        unfold Recovery.Idle
        exact forall_mem_of_all (by decide)
      exact ⟨solid_keyComment hq, fun y hy => (hall y hy).notMem_keyComment hq⟩
  refine ⟨hsolid, hout _ (by decide), by decide, by decide, fun y hy => ?_, fun y hy => ?_⟩
  · rw [List.mem_singleton.1 hy]
    exact hout _ (by decide)
  · rw [List.mem_singleton.1 hy]
    exact hout _ (by decide)

end Marks

/-- Every mark is in the output before the blocks are put back, and then its block is in the
output, as it was or in a literal. The others stand in places that are left out. -/
theorem blocks_in_output {document output : Text}
    (h : (transformDefault .default document).result = .ok output) :
    ∃ tree n p, parse true (shielded .default document) = .ok tree ∧
      (scan .default document).run (Document.ofTree tree) = (.ok n, p) ∧
      let serialized := (recovery .default document).print false p.document.toTree
      output = unshield serialized (blocks .default document) ∧
        ∀ c ∈ blocks .default document,
          c.mark <:+: serialized ∧ (c.text <:+: output ∨ escape c.text <:+: output) ∨
            LeftOut c.mark (shielded .default document) := by
  obtain ⟨tree, n, p, hparse, hrun, rfl, -⟩ := transformDefault_ok h
  refine ⟨tree, n, p, hparse, hrun, rfl, fun c hc => ?_⟩
  have hw := word_mark hc
  have hkeys : ∀ q ∈ (recovery .default document).sections, ¬ c.mark <:+: keyComment q.1 :=
    fun q hq => not_mark_infix_keyComment (labelled_blocks .default document) hc hq
  have hkey : ∀ q ∈ (recovery .default document).sections, ¬ c.mark <:+: q.1 :=
    fun q hq hi => hkeys q hq (hi.trans ⟨"<!--".toList, "-->".toList, rfl⟩)
  refine (any_or_leftOut hw hkey (fun q hq => solid_keyComment hq) hparse
    (mark_infix_shielded hc)).imp ?_ id
  rintro ⟨x, hx, hany⟩
  obtain ⟨hsolid, hquote, hapart⟩ := whole_of_carries hc hx
  have hrender : x <:+: render false p.document.toTree :=
    Scan.infix_render_of_run (by decide) (unquoted (labelled_blocks .default document)) _ hrun
      hapart hsolid hquote hany
  have hmark : c.mark <:+: (recovery .default document).print false p.document.toTree := by
    rcases hx with rfl | ⟨q, hq, hi, rfl⟩
    · exact Recovery.infix_restore hw hkeys hrender
    · exact Recovery.infix_restore_of_section hw hq hi hrender
  exact ⟨hmark, bordered_default.infix_unshield legible_bindify hc hmark⟩

/-- A block in the tag of a body and one in a paragraph. -/
def themed : Text := "<body class=\"\x7b\x7bb\x7d\x7d\"><p>\x7b\x7ba\x7d\x7d</p></body>".toList

def themeBlock : Clipping := ⟨"bind1ify".toList, "\x7b\x7bb\x7d\x7d".toList⟩

def innerBlock : Clipping := ⟨"bind2ify".toList, "\x7b\x7ba\x7d\x7d".toList⟩

/-- The tag of the body is read inside a body already, so that its attributes are lost. -/
theorem blocks_in_output_themed :
    (transformDefault .default themed).result = .ok "<p>\x7b\x7ba\x7d\x7d</p>".toList ∧
      blocks .default themed = [themeBlock, innerBlock] ∧
      LeftOut themeBlock.mark (shielded .default themed) ∧
      ¬ LeftOut innerBlock.mark (shielded .default themed) := by
  have hresult : (transformDefault .default themed).result =
      .ok "<p>\x7b\x7ba\x7d\x7d</p>".toList := by decide +kernel
  have hblocks : blocks .default themed = [themeBlock, innerBlock] := by decide +kernel
  obtain ⟨tree, n, p, -, -, -, hc⟩ := blocks_in_output hresult
  refine ⟨hresult, hblocks, ?_, ?_⟩
  · have hdropped : ¬ (themeBlock.text <:+: "<p>\x7b\x7ba\x7d\x7d</p>".toList ∨
        escape themeBlock.text <:+: "<p>\x7b\x7ba\x7d\x7d</p>".toList) := by decide +kernel
    have hmem : themeBlock ∈ blocks .default themed := hblocks ▸ List.mem_cons_self
    exact (hc themeBlock hmem).resolve_left fun h => hdropped h.2
  · have hsections : (Recovery.of (shielded .default themed)).sections = [] := by decide +kernel
    intro h
    cases h with
    | unmasked h => exact absurd h (by decide +kernel)
    | skipped z hz h =>
      have hall : ∀ z ∈ skipped (source (shielded .default themed)),
          ¬ innerBlock.mark <:+: z := by decide +kernel
      exact hall z hz h
    | respelled t ht h hr =>
      have hall : ∀ t ∈ (lex (source (shielded .default themed))).filterMap Token.startTag?,
          ¬ t.Holds innerBlock.mark := by decide +kernel
      exact hall t ht h
    | hidden p hp h hk =>
      rw [hsections] at hp
      exact absurd hp List.not_mem_nil
    | omitted x hx h =>
      rcases hx with rfl | ⟨p, hp, -⟩
      · exact absurd h (by decide +kernel)
      · rw [hsections] at hp
        exact absurd hp List.not_mem_nil

end Transform
end InlineBinding
