import InlineBinding.Proofs.Binding.Untouched
import InlineBinding.Proofs.Linked.Printing
import InlineBinding.Proofs.Transform.Patterns

/-!
# Paths in the output of a transform

In the place of a bound text stand its literals and, between the output delimiters, its paths. The
delimiters come from the options, while marks, mask and keys are new to the document only, so the
restoration may find them in what stands for a path.
-/
namespace InlineBinding.Transform
open Text Accessor Shield Markup Binding Linked

/-! ## What stands for a path -/

/-- A path between the output delimiters. -/
def live (o : Options) (path : Text) : Text := o.outputDelimiters.wrap (path ++ "()".toList)

theorem live_eq (o : Options) (path : Text) : live o path = o.outputDelimiters.opening ++
    (path ++ '(' :: (')' :: o.outputDelimiters.closing)) := by
  simp [live, Delimiters.wrap]

theorem paren_mem_live (o : Options) (path : Text) : '(' ∈ live o path := by simp [live_eq]

theorem still_paren : Still '(' := by
  unfold Still Recovery.Idle
  decide

section Live

variable {o : Options} {document path : Text}

theorem not_infix_path (hp : IsPath path) (hm : ∀ c ∈ blocks o document, ¬ c.mark <:+: path)
    {p : Text} (h : p ∈ patterns (recovery o document) (blocks o document)) : ¬ p <:+: path := by
  intro hi
  rcases mem_patterns.1 h with h | ⟨c, hc, rfl⟩
  · rcases mem_signs.1 h with ⟨q, -, rfl⟩ | ⟨m, hmask, rfl⟩ | ⟨c, hc, rfl⟩
    · rw [Recovery.keyComment_eq] at hi
      exact hp.notMem (by decide +kernel) (by decide) (hi.subset List.mem_cons_self)
    · have hrange := Recovery.mask_range hmask
      refine hp.notMem (Recovery.isPart_of_private hrange) ?_ (hi.subset List.mem_cons_self)
      rintro rfl
      exact absurd hrange.1 (by decide)
    · exact hm c hc hi
  · exact hm c hc ((List.prefix_append _ _).isInfix.trans hi)

/-- Between delimiters that no pattern has anything of, marks in the path are all that counts. -/
theorem spared_live_iff (hp : IsPath path) (hne : o.outputDelimiters.opening ≠ [])
    (hs : ∀ x ∈ o.outputDelimiters.opening ++ o.outputDelimiters.closing, Still x) :
    Spared o document (live o path) ↔ ∀ c ∈ blocks o document, ¬ c.mark <:+: path := by
  have hl := labelled_blocks o document
  rw [List.forall_mem_append] at hs
  constructor
  · intro h c hc hi
    refine (h _ (mark_mem_patterns hc)).within (hi.trans ⟨o.outputDelimiters.opening,
      '(' :: ')' :: o.outputDelimiters.closing, ?_⟩)
    rw [live_eq, List.append_assoc]
  · intro hm p hpat
    have hstill {x : Char} (hx : Still x) : x ∉ p := hx.notMem_patterns hl hpat
    have hclose : ∀ x ∈ ')' :: o.outputDelimiters.closing, Still x := by
      rw [List.forall_mem_cons]
      exact ⟨by unfold Still Recovery.Idle; decide, hs.2⟩
    obtain ⟨a, q, rfl⟩ := List.exists_cons_of_ne_nil (ne_nil_of_mem_patterns hl hpat)
    rw [live_eq]
    refine ⟨fun hi => ?_, fun hi => ?_, fun v hv hw => ?_, fun u hu hw => ?_⟩
    · have ha : a ∉ o.outputDelimiters.opening := fun h => hstill (hs.1 a h) List.mem_cons_self
      rcases infix_append_cons (hstill still_paren) (infix_of_notMem_head ha hi) with hi | hi
      · exact not_infix_path hp hm hpat hi
      · exact hstill (hclose a (hi.subset List.mem_cons_self)) List.mem_cons_self
    · exact hstill still_paren (hi.subset (by simp))
    · obtain ⟨x, opening, he⟩ := List.exists_cons_of_ne_nil hne
      rw [he, List.cons_append] at hw
      rcases List.prefix_cons_iff.1 hw with rfl | ⟨r, rfl, -⟩
      · rfl
      · exact absurd (hv.subset List.mem_cons_self) (hstill (hs.1 x (he ▸ List.mem_cons_self)))
    · obtain ⟨r, z, he⟩ := (List.eq_nil_or_concat' _).resolve_left
        (List.cons_ne_nil ')' o.outputDelimiters.closing)
      have hend : o.outputDelimiters.opening ++ (path ++ '(' :: (r ++ [z])) =
          o.outputDelimiters.opening ++ (path ++ '(' :: r) ++ [z] := by simp
      rw [he, hend] at hw
      rcases List.suffix_concat_iff.1 hw with rfl | ⟨y, rfl, -⟩
      · rfl
      · have hz : z ∈ ')' :: o.outputDelimiters.closing := by simp [he]
        exact absurd (hu.subset (List.mem_append_right y List.mem_cons_self))
          (hstill (hclose z hz))

end Live

/-! ## Bound texts in print -/

/-- Chunks as they stand in the document. -/
def laid (o : Options) (cs : List Chunk) : Text :=
  cs.flatMap (Expression.place o.outputDelimiters)

theorem reveal_laid {o : Options} {document path : Text}
    (h : Spared o document (live o path)) (s t : Text) (before behind : List Chunk) :
    reveal (recovery o document) (blocks o document)
        (s ++ laid o (before ++ .path path :: behind) ++ t) =
      reveal (recovery o document) (blocks o document) (s ++ laid o before) ++ live o path ++
        reveal (recovery o document) (blocks o document) (laid o behind ++ t) := by
  have hlaid : laid o (before ++ .path path :: behind) =
      laid o before ++ (live o path ++ laid o behind) := by
    rw [laid, List.flatMap_append, List.flatMap_cons]
    rfl
  have hparts : s ++ laid o (before ++ .path path :: behind) ++ t =
      s ++ laid o before ++ (live o path ++ (laid o behind ++ t)) := by
    rw [hlaid]
    simp only [List.append_assoc]
  rw [hparts, reveal_append h, List.append_assoc]

/-- What becomes of a text with these chunks that is printed between `s` and `t`: it is restored
together with them, and a path that no pattern touches comes out at its place as it is. -/
structure Placed (o : Options) (document s t : Text) (cs : List Chunk) (output : Text) : Prop where
  whole : output = reveal (recovery o document) (blocks o document) (s ++ laid o cs ++ t)
  apart : ∀ before path behind, cs = before ++ .path path :: behind →
    Spared o document (live o path) →
      output = reveal (recovery o document) (blocks o document) (s ++ laid o before) ++
        live o path ++ reveal (recovery o document) (blocks o document) (laid o behind ++ t)

/-- In the place of a bound text stand its chunks, each path between the output delimiters, and a
path that no pattern touches comes out there as it is. Where blocks are bordered, only such a path
does so whatever stands around it. If no pattern has a character of the delimiters, it is such a
path unless the mark of a block stands in it. -/
theorem paths_in_output {o : Options} {document output : Text}
    (ho : o.bindingAttribute ∈ o.skipAttributes)
    (h : (transformDefault o document).result = .ok output) :
    (∃ tree n p, parse o.normalizeWhitespace (shielded o document) = .ok tree ∧
      (scan o document).run (Document.ofTree tree) = (.ok n, p) ∧
      ∀ i ∈ (numbered 0 tree).labels, ∀ data,
        (scan o document).BindsText (Document.ofTree tree).store i data →
        ∃ s t, (∀ u, render o.xhtmlMode (p.document.withData i u).toTree = s ++ u ++ t) ∧
          Placed o document s t (Chunk.alternate false (o.bindingDelimiters.split data)) output) ∧
      ∀ path, IsPath path →
        ((shieldOf o).Bordered →
          (Spared o document (live o path) ↔ Verbatim o document (live o path))) ∧
        (o.outputDelimiters.opening ≠ [] →
          (∀ x ∈ o.outputDelimiters.opening ++ o.outputDelimiters.closing, Still x) →
          (Spared o document (live o path) ↔ ∀ c ∈ blocks o document, ¬ c.mark <:+: path)) := by
  refine ⟨?_, fun path hp => ⟨fun hd => spared_iff hd still_paren (paren_mem_live o path),
    spared_live_iff hp⟩⟩
  obtain ⟨tree, n, p, hparse, hrun, rfl, -⟩ := transformDefault_ok h
  refine ⟨tree, n, p, hparse, hrun, fun i hi data hb => ?_⟩
  obtain ⟨w, hframe⟩ := Scan.frame_of_run ho (standIns (blocks o document)) (recovery o document)
    (Document.shows_ofTree tree) hrun
  have hleaf := hframe.texts i hi data hb
  obtain ⟨s, t, hst⟩ := Document.exists_render hframe.shows o.xhtmlMode
    (Forest.mem_labels_wrap_of_mem w hi) hleaf
  have hprint : render o.xhtmlMode p.document.toTree =
      s ++ laid o (Chunk.alternate false (o.bindingDelimiters.split data)) ++ t := by
    rw [← Document.toTree_withData_self hframe.shows hleaf]
    exact hst _
  refine ⟨s, t, hst, by rw [hprint], fun before path behind hchunks hspared => ?_⟩
  rw [hprint, hchunks, reveal_laid hspared]

/-- A block in front of a binding. -/
def adjoining : Text := "<p>\x7b\x7bx\x7d\x7d\x7ba\x7d</p>".toList

/-- The opening delimiter is the mark of the block. -/
def capturing : Options :=
  { Options.default with outputDelimiters := ⟨"bind1ify".toList, "\x7d\x7d".toList⟩ }

/-- The output, with the text in front of the path. -/
def adjoined (opening : Text) : Text :=
  "<p data-bind=\"text(first):'\x7b\x7bx\x7d\x7d' + this.a()\">\x7b\x7bx\x7d\x7d".toList ++
    opening ++ "a()\x7d\x7d</p>".toList

/-- Braces come out as they are; a mark becomes the block. -/
theorem paths_in_output_adjoining :
    (Verbatim .default adjoining (live .default "a".toList) ∧
      ∃ s t, adjoined "\x7b\x7b".toList =
        reveal (recovery .default adjoining) (blocks .default adjoining) (s ++ "bind1ify".toList) ++
          "\x7b\x7ba()\x7d\x7d".toList ++
          reveal (recovery .default adjoining) (blocks .default adjoining) t) ∧
    (transformDefault capturing adjoining).result = .ok (adjoined "\x7b\x7bx\x7d\x7d".toList) ∧
      ¬ Verbatim capturing adjoining (live capturing "a".toList) := by
  have ho : Options.default.bindingAttribute ∈ Options.default.skipAttributes := by decide
  have hpath : IsPath "a".toList := .identifier ⟨'a', [], rfl, by decide, by simp⟩
  have hplain : (transformDefault .default adjoining).result =
      .ok (adjoined "\x7b\x7b".toList) := by decide +kernel
  have hcaptured : (transformDefault capturing adjoining).result =
      .ok (adjoined "\x7b\x7bx\x7d\x7d".toList) := by decide +kernel
  obtain ⟨⟨tree, n, p, hparse, -, hplaced⟩, hspared⟩ := paths_in_output ho hplain
  obtain ⟨-, hcapture⟩ := paths_in_output (o := capturing) ho hcaptured
  have hlive : Spared .default adjoining (live .default "a".toList) := by
    refine ((hspared _ hpath).2 (by decide) ?_).2 (by decide +kernel)
    unfold Still Recovery.Idle
    exact forall_mem_of_all (by decide)
  refine ⟨⟨((hspared _ hpath).1 bordered_default).1 hlive, ?_⟩, hcaptured, fun h => ?_⟩
  · have htree : parse true (shielded .default adjoining) =
        .ok (paragraphTree "bind1ify\x7ba\x7d".toList) := by decide +kernel
    obtain rfl := Except.ok.inj (hparse.symm.trans htree)
    have hlabel : 1 ∈ (numbered 0 (paragraphTree "bind1ify\x7ba\x7d".toList)).labels := by decide
    have hbinds : (scan .default adjoining).BindsText
        (Document.ofTree (paragraphTree "bind1ify\x7ba\x7d".toList)).store 1
        "bind1ify\x7ba\x7d".toList :=
      ⟨by decide +kernel, by decide +kernel, by decide +kernel⟩
    obtain ⟨s, t, -, h⟩ := hplaced 1 hlabel _ hbinds
    have hsplit : Options.default.bindingDelimiters.split "bind1ify\x7ba\x7d".toList =
        ["bind1ify".toList, "a".toList, []] := by decide +kernel
    have hbefore : laid .default [.literal "bind1ify".toList] = "bind1ify".toList := by decide
    have hbehind : laid .default [.literal []] = [] := rfl
    have hpath : live .default "a".toList = "\x7b\x7ba()\x7d\x7d".toList := by decide
    rw [hsplit] at h
    have hapart := h.apart [.literal "bind1ify".toList] "a".toList [.literal []] rfl hlive
    rw [hbefore, hbehind, hpath, List.nil_append] at hapart
    exact ⟨s, t, hapart⟩
  · have hmark := ((hcapture _ hpath).1 bordered_default).2 h
    have hmem : "bind1ify".toList ∈
        patterns (recovery capturing adjoining) (blocks capturing adjoining) := by decide +kernel
    exact (hmark _ hmem).within ⟨[], "a()\x7d\x7d".toList, rfl⟩

end InlineBinding.Transform
