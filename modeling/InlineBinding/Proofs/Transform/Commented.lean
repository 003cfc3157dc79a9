import InlineBinding.Proofs.Binding.Finished
import InlineBinding.Proofs.Markup.Commented
import InlineBinding.Proofs.Transform.Dropped
import InlineBinding.Proofs.Transform.Verbatim

/-!
# Comments are not bound

A comment between containers comes out of a transform as it went in. What stands before it and
behind it is bound as two parts, and no clause is made of anything in the comment.
-/
namespace InlineBinding

namespace Markup
open Text Html

theorem unmask_masked {markup : Text} {c : Char} (hc : c ∈ markup) (hnull : c.toNat ≠ 0) :
    (Recovery.of markup).unmask (masked (pickMask markup) c) = c := by
  have hvisible : (masked (pickMask markup) c).toNat ≠ 0 := by
    rcases masked_cases markup c with h | ⟨-, h, -⟩
    · rwa [h]
    · omega
  have htaken := unmask_taken markup hc hnull
  rwa [taken, readable, if_neg hvisible] at htaken

end Markup

namespace Binding
open Html Markup

/-- The default wrapper is one element. -/
theorem Scan.wrapperTag?_default (r : Recovery) (a : Attacher) :
    (Scan.of .default r a).wrapperTag? = some (r.tag ⟨"span".toList, []⟩) := by
  have hread : (Html.read (Recovery.wrapFragment "<span></span>".toList)).nodes =
      .element ⟨Builder.html, []⟩ (.element ⟨Builder.body, []⟩
        (.element ⟨"span".toList, []⟩ .nil .nil) .nil) .nil := by decide +kernel
  have hfragment : r.fragment true "<span></span>".toList =
      .ok (.element (r.tag ⟨"span".toList, []⟩) .nil .nil) := by
    rw [Recovery.fragment, hread]
    rfl
  unfold Scan.wrapperTag? Scan.wrapper
  have htag : (Scan.of .default r a).syntheticTag = "span".toList := rfl
  have hsource : '<' :: "span".toList ++ "></".toList ++ "span".toList ++ ['>'] =
      "<span></span>".toList := by decide
  have hcollapsing : (Scan.of .default r a).collapsing = true := rfl
  have hrecovery : (Scan.of .default r a).recovery = r := rfl
  simp only [htag, hsource, hcollapsing, hrecovery, hfragment]

end Binding

namespace Transform
open Text Html Markup Binding Linked Shield

/-- A document that is read as containers with a comment between them. The comment holds no block,
and no section stands in the markup. -/
structure Remarked (document : Text) (t u : Html.Tree) (c : Text) : Prop where
  shielded_eq : shielded .default document = Markup.around t u c
  before : Canonical t
  after : Canonical u
  enclosed : Enclosed c
  chars : '\r' ∉ c ∧ Char.ofNat 0 ∉ c
  sectionless : Sectionless (Markup.around t u c)
  whole : commented c <:+: document

section Parts

variable (document : Text) (t u : Html.Tree) (c : Text)

/-- What is read of a part. -/
def readPart (t : Html.Tree) : Markup.Tree := (recovery .default document).nodes false t

/-- What is read of the whole document. -/
def readWhole : Markup.Tree := readPart document t ++
  .leaf ⟨.comment, c.map (masked (pickMask (shielded .default document)))⟩ (readPart document u)

/-- What is printed of a part, of which the first node is the `n`-th of the document. -/
def image (xs : List Attachment) (n : ℕ) (part : Html.Tree) : Text :=
  reveal (recovery .default document) (blocks .default document)
    (render false ((scan .default document).treeAfter xs
      ((recovery .default document).tag ⟨"span".toList, []⟩) (readPart document part)
      (numbered n (readPart document part))))

/-- The bound places of such a part. -/
def partSites (store : Store) (n : ℕ) (part : Html.Tree) : List Site :=
  (scan .default document).sites store none (numbered n (readPart document part))

end Parts

section Reveal

variable {markup : Text} {cs : List Clipping} (hl : bindify.Labelled cs)

include hl in
/-- A comment without marks is printed as it is, with its ampersands. -/
theorem reveal_commented (hs : (Recovery.of markup).sections = []) {c d : Text}
    (hd : d.map (Recovery.of markup).unmask = c) (hc : ∀ x ∈ cs, ¬ x.mark <:+: commented c)
    (before after : Text) :
    reveal (Recovery.of markup) cs (before ++ (commented d ++ after)) =
      reveal (Recovery.of markup) cs before ++
        (commented c ++ reveal (Recovery.of markup) cs after) := by
  have hbare (s : Text) : (Recovery.of markup).Bare s := by
    intro p hp
    rw [hs] at hp
    exact absurd hp List.not_mem_nil
  have hends : Steady (Recovery.of markup).unmask "<!-->".toList :=
    Recovery.steady_unmask (forall_mem_of_all (by decide))
  have hopen : ∀ x ∈ cs, '<' ∉ x.literalMark := notMem_literalMark hl (by decide) (by decide)
  have hclose : ∀ x ∈ cs, '>' ∉ x.literalMark := notMem_literalMark hl (by decide) (by decide)
  have hcut (c : Text) : commented c = '<' :: ("!--".toList ++ c ++ "--".toList ++ ['>']) := by
    simp [commented]
  have hinner : unshield ("!--".toList ++ c ++ "--".toList) cs =
      "!--".toList ++ c ++ "--".toList := by
    refine unshield_eq_self hl.mark_ne_nil fun x hx hi => hc x hx (hi.trans ?_)
    exact ⟨['<'], ['>'], by rw [hcut]; rfl⟩
  have hmap : (commented d).map (Recovery.of markup).unmask = commented c := by
    have hsub {s : Text} (hs : s ⊆ "<!-->".toList) : s.map (Recovery.of markup).unmask = s :=
      Steady.map_eq fun x hx => hends x (hs hx)
    rw [commented, commented, List.map_append, List.map_append, hd, hsub (by decide),
      hsub (by decide)]
  rw [reveal_of_bare (hbare _), reveal_of_bare (hbare _), reveal_of_bare (hbare _), List.map_append,
    List.map_append, hmap, hcut, List.cons_append, unshield_append_cons hl.mark_ne_nil hopen,
    List.append_assoc, List.singleton_append, unshield_append_cons hl.mark_ne_nil hclose, hinner]
  simp

end Reveal

section Main

variable {document : Text} {t u : Html.Tree} {c : Text}

theorem Remarked.parse_eq (h : Remarked document t u c) :
    parse true (shielded .default document) = .ok (readWhole document t u c) := by
  have hparse := parse_around h.before h.after h.enclosed h.chars h.sectionless true
  rw [← h.shielded_eq] at hparse
  exact hparse

theorem Remarked.unmask_eq (h : Remarked document t u c) :
    (c.map (masked (pickMask (shielded .default document)))).map
      (Recovery.of (shielded .default document)).unmask = c := by
  have hc : ∀ x ∈ c, x ∈ shielded .default document := by
    intro x hx
    rw [h.shielded_eq, Markup.around, commented]
    simp [hx]
  have hid : ∀ x ∈ c, ((Recovery.of (shielded .default document)).unmask ∘
      masked (pickMask (shielded .default document))) x = id x := by
    intro x hx
    refine unmask_masked (hc x hx) fun hz => h.chars.2 ?_
    rwa [← hz, Char.ofNat_toNat]
  rw [List.map_map, List.map_congr_left hid, List.map_id]

theorem textual_readWhole : ∀ v ∈ (readWhole document t u c).elements, v.Textual := by
  rw [readWhole, Forest.elements_append, Forest.elements, readPart, readPart,
    Recovery.elements_nodes, Recovery.elements_nodes, List.forall_mem_append, List.forall_mem_map,
    List.forall_mem_map]
  exact ⟨fun v _ => Recovery.textual_tag _ v, fun v _ => Recovery.textual_tag _ v⟩

/-- The transform goes through, and its output has the comment between what becomes of the parts.
All bound places are in the parts. -/
theorem comment_in_output (h : Remarked document t u c) :
    let whole := readWhole document t u c
    let xs := attachments .default document whole
    let n := count (readPart document t) + 1
    parse true (shielded .default document) = .ok whole ∧
      (transformDefault .default document).result =
        .ok (image document xs 0 t ++ (commented c ++ image document xs n u)) ∧
      clausesIn (transformDefault .default document).events =
        xs.map (scan .default document).clause ∧
      xs.map Attachment.site = partSites document (Document.ofTree whole).store 0 t ++
        partSites document (Document.ofTree whole).store n u := by
  intro whole xs n
  have hskip : (scan .default document).skipped.contains
      (Text.lower (scan .default document).attacher.directiveName) = true :=
    Options.skips_bindingAttribute (by decide)
  have hwrapper : (scan .default document).wrapperTag? =
      some ((recovery .default document).tag ⟨"span".toList, []⟩) :=
    Scan.wrapperTag?_default _ _
  obtain ⟨m, p, hrun, htree⟩ := Scan.run_ofTree hskip hwrapper textual_readWhole
  obtain ⟨hafter, hsites⟩ := Scan.parts_of_leaf (s := scan .default document)
    (u := (recovery .default document).tag ⟨"span".toList, []⟩)
    (l := ⟨.comment, c.map (masked (pickMask (shielded .default document)))⟩) (by simp)
    (readPart document t) (readPart document u)
  have hmarks : ∀ x ∈ blocks .default document, ¬ x.mark <:+: commented c :=
    fun x hx hi => not_infix_document hx (hi.trans h.whole)
  have hresult : (transformDefault .default document).result =
      .ok (image document xs 0 t ++ (commented c ++ image document xs n u)) := by
    have hsections : (Recovery.of (shielded .default document)).sections = [] := by
      rw [h.shielded_eq]
      exact sections_around h.sectionless
    rw [result_of_run h.parse_eq hrun, htree]
    refine congrArg Except.ok (Eq.trans (congrArg (reveal _ _) ?_)
      (reveal_commented (labelled_blocks .default document) hsections h.unmask_eq hmarks _ _))
    exact (congrArg (render false) hafter).trans (render_append _ _ _)
  refine ⟨h.parse_eq, hresult, ?_, ?_⟩
  · obtain ⟨tree, k, q, hparse, hrun', -, hevents⟩ := transformDefault_ok hresult
    obtain rfl := Except.ok.inj (hparse.symm.trans h.parse_eq)
    obtain ⟨-, w, hw, -⟩ := Scan.reached_of_run (Document.shows_ofTree _) hskip hrun'
    exact hevents.trans hw.clauses
  · exact (Scan.map_site_attachments _ _ _).trans hsites

end Main

/-- Tags, a value, an ampersand and the beginning of a section in a comment. -/
def remark : Text := " \x7ba\x7d <p title=\"\x7bb\x7d\"> & <![CDATA[x] '-- ".toList

/-- The comment between a block and a binding. -/
def remarkedRow : Text :=
  "<div>\x7b\x7bx\x7d\x7d</div>".toList ++ (commented remark ++ "<span>\x7bc\x7d</span>".toList)

def rowBefore : Html.Tree :=
  .element ⟨"div".toList, []⟩ (.leaf (.text "bind1ify".toList) .nil) .nil

def rowAfter : Html.Tree :=
  .element ⟨"span".toList, []⟩ (.leaf (.text "\x7bc\x7d".toList) .nil) .nil

theorem comment_in_output_remark :
    (∃ x y, (transformDefault .default remarkedRow).result = .ok (x ++ (commented remark ++ y))) ∧
      clausesIn (transformDefault .default remarkedRow).events = ["text(first):this.c()".toList] := by
  have hsectionless : Sectionless (Markup.around rowBefore rowAfter remark) := by
    intro x hx
    have hclosing : sectionDelimiters.closing <:+: Markup.around rowBefore rowAfter remark :=
      (List.suffix_append _ _).isInfix.trans hx
    exact absurd hclosing (by decide +kernel)
  have hremarked : Remarked remarkedRow rowBefore rowAfter remark :=
    ⟨by decide +kernel, by decide +kernel, by decide +kernel, by decide +kernel, by decide +kernel,
      hsectionless, ⟨_, _, List.append_assoc _ _ _⟩⟩
  obtain ⟨-, hresult, -, -⟩ := comment_in_output hremarked
  exact ⟨⟨_, _, hresult⟩, by decide +kernel⟩

/-- Texts at which a comment ends early, or which are not read as they stand. -/
def endings : List Text := [">\x7ba\x7d".toList, "->\x7ba\x7d".toList,
  "x--!>\x7ba\x7d".toList, ['\r'], [Char.ofNat 0]]

/-- Around such a text the comment does not come out as it went in, and what stands behind the end
is bound. -/
theorem comment_in_output_endings :
    (∀ c ∈ endings, ¬ "-->".toList <:+: c ∧ '<' ∉ c ∧ blocks .default (commented c) = [] ∧
      (transformDefault .default (commented c)).result.toOption.map
        (fun output => decide (commented c <:+: output)) = some false) ∧
      ∀ c ∈ endings.take 3, clausesIn (transformDefault .default (commented c)).events ≠ [] := by
  decide +kernel

end Transform
end InlineBinding
