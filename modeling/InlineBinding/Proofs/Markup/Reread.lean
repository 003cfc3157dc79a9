import InlineBinding.Markup.Reader
import InlineBinding.Proofs.Markup.Attributes
import InlineBinding.Proofs.Markup.Render
import InlineBinding.Proofs.Markup.Source

/-!
# Printing a plain tree and reading it again

Plain trees are printed as plain markup.  What is read of it is the tree itself, except that
whatever stands behind a shape without an end tag is in the shape.
-/
namespace InlineBinding.Markup
open Text Html

/-! ## Plain trees as they are printed -/

/-- A tree that was read, with its names as they are. -/
def shown : Html.Tree → Tree
  | .nil => .nil
  | .element t cs rest =>
    .element ⟨t.name, .plain, t.attributes.map fun a => (a.1, .text a.2)⟩ (shown cs) (shown rest)
  | .leaf (.text d) rest => .leaf ⟨.text, d⟩ (shown rest)
  | .leaf (.comment d) rest => .leaf ⟨.comment, d⟩ (shown rest)

theorem shown_injective : Function.Injective shown := by
  have hvalue : Function.Injective fun a : Text × Text => (a.1, Value.text a.2) := by
    rintro a b h
    injection h with hn hv
    exact Prod.ext hn (Value.text.inj hv)
  intro t u h
  induction t generalizing u with
  | nil =>
    cases u with
    | nil => rfl
    | element u cs rest => exact absurd h (by simp [shown])
    | leaf l rest => cases l <;> exact absurd h (by simp [shown])
  | element t cs rest ihc ihr =>
    cases u with
    | nil => exact absurd h (by simp [shown])
    | element u ds more =>
      simp only [shown, Forest.element.injEq, Tag.mk.injEq, true_and] at h
      obtain ⟨⟨hn, has⟩, hc, hr⟩ := h
      have ht : t = u := by
        obtain ⟨n, as⟩ := t
        obtain ⟨m, bs⟩ := u
        rw [Html.Tag.mk.injEq]
        exact ⟨hn, hvalue.list_map has⟩
      rw [ht, ihc hc, ihr hr]
    | leaf l rest => cases l <;> exact absurd h (by simp [shown])
  | leaf l rest ih =>
    cases u with
    | nil => cases l <;> exact absurd h (by simp [shown])
    | element u cs more => cases l <;> exact absurd h (by simp [shown])
    | leaf k more =>
      cases l <;> cases k <;>
        simp only [shown, Forest.leaf.injEq, Leaf.mk.injEq, reduceCtorEq, false_and, true_and] at h
      · rw [h.1, ih h.2]
      · rw [h.1, ih h.2]

section Print

variable {t : Html.Tree}

theorem openTag_shown {t : Html.Tag} (h : t.Plain) :
    openTag ⟨t.name, .plain, t.attributes.map fun a => (a.1, .text a.2)⟩ = writeOpening t := by
  rw [openTag, writeOpening, List.flatMap_map]
  refine congrArg _ (List.flatMap_congr fun a ha => ?_)
  rw [renderAttribute, quoteValue_eq_self fun hq => (h.valued a ha _ hq).1 rfl, writeAttribute]

theorem render_shown (h : Plain t) (xhtml : Bool) : render xhtml (shown t) = write xhtml t := by
  have hnames : ∀ n ∈ plainNames,
      unclosedNames.contains n = !containerNames.contains n := by decide
  induction t with
  | nil => rfl
  | element t cs rest ihc ihr =>
    obtain ⟨ht, hname, hcs, hc, hr⟩ := h
    rw [shown, render, renderElement, openTag_shown ht, closeTag, ihc hc, ihr hr, write,
      lower_plainName hname, hnames _ hname]
    by_cases hcontainer : t.name ∈ containerNames
    · have hempty (h : isNil (shown cs) = true) : write xhtml cs = [] := by
        rw [← ihc hc]
        cases hcs : shown cs with
        | nil => rfl
        | element u ds more => rw [hcs] at h; exact absurd h (by simp [isNil])
        | leaf l more => rw [hcs] at h; exact absurd h (by simp [isNil])
      cases hnil : isNil (shown cs) with
      | true => simp [hcontainer, hempty hnil, ending]
      | false => simp [hcontainer, ending]
    · simp [hcontainer, hcs hcontainer, shown, isNil, ending]
  | leaf l rest ih =>
    cases l with
    | text d => rw [shown, render, renderLeaf, write, ih h.2.2.2]
    | comment d => exact h.elim

end Print

/-! ## Reading -/

/-- Null characters are replaced. -/
def readable (c : Char) : Char := if c.toNat = 0 then Char.ofNat 0xfffd else c

theorem normalizeChars_eq_map {s : Text} (h : '\r' ∉ s) : normalizeChars s = s.map readable := by
  induction s with
  | nil => rfl
  | cons c s ih =>
    rw [List.mem_cons, not_or] at h
    rw [normalizeChars, ih h.2, List.map_cons, readable]
    · exact fun _ he _ => absurd he.symm h.1
    · exact fun he => absurd he.symm h.1

theorem steady_readable : Steady readable writtenChars := by
  intro c hc d
  have hvisible : ∀ c ∈ writtenChars, c.toNat ≠ 0 ∧ Char.ofNat 0xfffd ≠ c :=
    forall_mem_of_all (by decide)
  obtain ⟨hnull, hreplacement⟩ := hvisible c hc
  rw [readable]
  split
  · rename_i hd
    exact iff_of_false hreplacement fun he => hnull (he ▸ hd)
  · rfl

theorem isSpace_readable (c : Char) : isSpace (readable c) = isSpace c := by
  rw [readable]
  split
  · rename_i hc
    have hnull : c = Char.ofNat 0 := by rw [← hc, Char.ofNat_toNat]
    rw [hnull]
    decide
  · rfl

section Fragment

variable {t : Html.Tree}

theorem wrapFragment_eq (s : Text) : Recovery.wrapFragment s =
    '<' :: (Builder.html ++ '>' :: '<' :: (Builder.body ++ '>' ::
      (s ++ "</body></html>".toList))) := by
  have hopen : "<html><body>".toList =
      '<' :: (Builder.html ++ '>' :: '<' :: (Builder.body ++ ['>'])) := by decide
  unfold Recovery.wrapFragment
  simp only [hopen, List.cons_append, List.append_assoc, List.nil_append]

theorem normalize_wrapFragment_eq (s : Text) :
    Html.normalize (Recovery.wrapFragment s) = normalizeChars (Recovery.wrapFragment s) := by
  rw [wrapFragment_eq, Html.normalize, if_neg (by decide)]

theorem normalize_wrapFragment_eq_map {s : Text} (h : '\r' ∉ Recovery.wrapFragment s) :
    Html.normalize (Recovery.wrapFragment s) = (Recovery.wrapFragment s).map readable := by
  rw [normalize_wrapFragment_eq, normalizeChars_eq_map h]

theorem normalize_wrapFragment (h : Plain t) (hr : ∀ d ∈ data t, '\r' ∉ d) (slash : Bool) :
    Html.normalize (Recovery.wrapFragment (write slash t)) =
      Recovery.wrapFragment (write slash (mapData readable t)) := by
  have hid {s : Text} (hs : s ⊆ writtenChars) : s.map readable = s :=
    map_eq_self_of_subset steady_readable hs
  have hopen : readable '<' = '<' ∧ readable '>' = '>' := by decide
  have hreturn : '\r' ∉ Recovery.wrapFragment (write slash t) := by
    have hmarkup : '\r' ∉ write slash t := notMem_write h (by decide) hr slash
    have hends : '\r' ∉ Builder.html ∧ '\r' ∉ Builder.body ∧ '\r' ∉ "</body></html>".toList := by
      decide
    simp [wrapFragment_eq, hmarkup, hends]
  rw [normalize_wrapFragment_eq_map hreturn, wrapFragment_eq, wrapFragment_eq,
    write_mapData steady_readable h]
  simp only [List.map_cons, List.map_append, hopen, hid (s := Builder.html) (by decide),
    hid (s := Builder.body) (by decide), hid (s := "</body></html>".toList) (by decide)]

/-- A start tag without attributes. -/
theorem lex_bare {n : Text} (hn : n ∈ knownNames) (s : Text) :
    lex ('<' :: (n ++ '>' :: s)) = .startTag ⟨n, []⟩ false :: lex s := by
  have hplain : Html.Tag.Plain ⟨n, []⟩ := ⟨by simp, by simp, List.nodup_nil⟩
  simpa [writeOpening, ending] using lex_writeOpening (tagName_of_known hn) hplain (by simp) false s

/-- The end of the document around a fragment. -/
theorem lex_fragmentEnd :
    lex "</body></html>".toList = [.endTag Builder.body, .endTag Builder.html] := by
  have hbody : lex "</body></html>".toList = .endTag Builder.body :: lex "</html>".toList :=
    lex_closing (tagName_of_known (n := Builder.body) (by decide)) "</html>".toList
  have hhtml : lex "</html>".toList = .endTag Builder.html :: lex [] :=
    lex_closing (tagName_of_known (n := Builder.html) (by decide)) []
  rw [hbody, hhtml, lex_nil]

/-- A document of its own around plain markup. -/
theorem lex_wrapFragment (h : Plain t) (ha : ∀ d ∈ data t, '&' ∉ d) (slash : Bool) :
    lex (Recovery.wrapFragment (write slash t)) =
      .startTag ⟨Builder.html, []⟩ false :: .startTag ⟨Builder.body, []⟩ false ::
        (tokens slash t ++ [.endTag Builder.body, .endTag Builder.html]) := by
  rw [wrapFragment_eq, lex_bare (by decide), lex_bare (by decide),
    lex_write h ha slash (Or.inr rfl), lex_fragmentEnd]

theorem read_wrapFragment (h : Plain t) (ha : ∀ d ∈ data t, '&' ∉ d ∧ '\r' ∉ d) (slash : Bool) :
    (Html.read (Recovery.wrapFragment (write slash t))).nodes =
      .element ⟨Builder.html, []⟩ (.element ⟨Builder.body, []⟩
        (nest slash (mapData readable t)) .nil) .nil := by
  have hplain := h.mapData steady_readable
  have hamp : ∀ d ∈ data (mapData readable t), '&' ∉ d := by
    rw [data_mapData, List.forall_mem_map]
    intro d hd hm
    obtain ⟨c, hc, he⟩ := List.mem_map.1 hm
    rw [readable] at he
    split at he
    · exact absurd he (by decide)
    · exact (ha d hd).1 (he ▸ hc)
  rw [Html.read, normalize_wrapFragment h fun d hd => (ha d hd).2, lex_wrapFragment hplain hamp]
  exact Builder.build_tokens hplain

theorem Recovery.tag_eq {r : Recovery} (hr : r.casing = Casing.empty) {t : Html.Tag} (h : t.Plain)
    (hn : t.name ∈ plainNames) :
    r.tag t = ⟨t.name, .plain, t.attributes.map fun a => (a.1, .text a.2)⟩ := by
  have hnames : ∀ n ∈ plainNames, kindOf n = .plain := by decide
  have hdistinct : ((t.attributes.map fun a => (a.1, Value.text a.2)).map Prod.fst).Nodup := by
    rw [List.map_map]
    exact h.distinct
  rw [Recovery.tag, hr, lower_plainName hn, hnames _ hn]
  exact congrArg _ (Attributes.ofList_eq_self hdistinct)

theorem Recovery.nodes_nest {r : Recovery} (hr : r.casing = Casing.empty) (h : Plain t)
    (hs : ∀ d ∈ data t, collapse d = d) (keep slash : Bool) :
    r.nodes keep (nest slash t) = shown (nest slash t) := by
  have hnames : ∀ n ∈ plainNames, preservingNames.contains n = false := by decide
  induction t with
  | nil => rfl
  | element t cs rest ihc ihr =>
    obtain ⟨ht, hname, -, hc, hrest⟩ := h
    simp only [data, List.forall_mem_append] at hs
    rw [nest]
    split
    · rw [nodes, shown, tag_eq hr ht hname, lower_plainName hname, hnames _ hname, Bool.or_false,
        ihr hrest hs.2.2]
      rfl
    · rw [nodes, shown, tag_eq hr ht hname, lower_plainName hname, hnames _ hname, Bool.or_false,
        ihc hc hs.2.1, ihr hrest hs.2.2]
  | leaf l rest ih =>
    cases l with
    | text d =>
      simp only [data, List.forall_mem_cons] at hs
      rw [nest, nodes, shown, ih h.2.2.2 hs.2, hs.1, ite_self]
    | comment d => exact h.elim

/-- A written tree is read as it nests. -/
theorem Recovery.fragment_write {r : Recovery} (hr : r.casing = Casing.empty) (h : Plain t)
    (ha : ∀ d ∈ data t, '&' ∉ d) (hs : ∀ d ∈ data t, collapse d = d) (collapsing slash : Bool) :
    r.fragment collapsing (write slash t) = .ok (shown (nest slash (mapData readable t))) := by
  have hreturn (d : Text) (hd : d ∈ data t) : '\r' ∉ d := fun hm => by
    rw [← hs d hd] at hm
    exact absurd (eq_space_of_mem_collapse hm (by decide)) (by decide)
  have hcollapse : ∀ d ∈ data (mapData readable t), collapse d = d := by
    rw [data_mapData, List.forall_mem_map]
    intro d hd
    rw [collapse_map isSpace_readable (by decide), hs d hd]
  rw [fragment, read_wrapFragment h fun d hd => ⟨ha d hd, hreturn d hd⟩]
  simp only [Forest.root?, sectionContents, decide_true, Bool.or_true, if_true]
  rw [nodes_nest hr (h.mapData steady_readable) hcollapse, Forest.append_nil]

/-- Plain markup is read as it nests, with its ampersands masked. -/
theorem parse_write (h : Plain t) {slash : Bool} (hm : lacksMask (write slash t) = false)
    (hs : ∀ d ∈ data t, collapse d = d) (collapsing : Bool) :
    parse collapsing (write slash t) =
      .ok (shown (nest slash (mapData (readable ∘ masked (pickMask (write slash t))) t))) := by
  have hamp : ∀ d ∈ data (mapData (masked (pickMask (write slash t))) t), '&' ∉ d := by
    rw [data_mapData, List.forall_mem_map]
    intro d hd ha
    obtain ⟨c, hc, he⟩ := List.mem_map.1 ha
    exact masked_ne hm (subset_write h hd slash hc) he
  have hsettled : ∀ d ∈ data (mapData (masked (pickMask (write slash t))) t), collapse d = d := by
    rw [data_mapData, List.forall_mem_map]
    intro d hd
    rw [collapse_map (isSpace_masked _) rfl, hs d hd]
  rw [parse_write_eq h, Recovery.fragment_write (by rw [Recovery.of_write h])
    (h.mapData (steady_masked _)) hamp hsettled, mapData_mapData]

end Fragment

/-! ## Printing and reading -/

section Again

variable {t : Html.Tree}

theorem print_start (collapsing xhtml : Bool) (u : Tree) :
    (Reader.start collapsing).print xhtml u = render xhtml u := rfl

theorem parse_print (h : Plain t) (ha : ∀ d ∈ data t, '&' ∉ d)
    (hs : ∀ d ∈ data t, collapse d = d) (collapsing xhtml : Bool) :
    ((Reader.start collapsing).parse ((Reader.start collapsing).print xhtml (shown t))).1 =
      .ok (shown (nest xhtml (mapData readable t))) := by
  have hamp : (write xhtml t).contains '&' = false := by
    simpa using notMem_write h (by decide) ha xhtml
  have hmask : pickMask (write xhtml t) = none := by rw [pickMask, hamp]; rfl
  have hid : masked none = id := funext fun c => ite_self c
  rw [print_start, render_shown h, Reader.parse, parse_write h (by rw [lacksMask, hamp]; rfl) hs,
    hmask, hid, Function.comp_id]

theorem readable_eq_self_iff (c : Char) : readable c = c ↔ c.toNat ≠ 0 := by
  rw [readable]
  split
  · rename_i hc
    refine iff_of_false (fun he => ?_) (fun hn => hn hc)
    rw [← he] at hc
    exact absurd hc (by decide)
  · rename_i hc
    exact iff_of_true rfl hc

/-- What a printed tree is read as.  It is the tree itself exactly when no shape has been left open
before an element or a text, and no null character has been replaced. -/
theorem reread (h : Plain t) (ha : ∀ d ∈ data t, '&' ∉ d) (hs : ∀ d ∈ data t, collapse d = d)
    (collapsing xhtml : Bool) :
    ((Reader.start collapsing).parse ((Reader.start collapsing).print xhtml (shown t))).1 =
        .ok (shown (nest xhtml (mapData readable t))) ∧
      (((Reader.start collapsing).parse ((Reader.start collapsing).print xhtml (shown t))).1 =
        .ok (shown t) ↔ (xhtml = true ∨ ShapesLast t) ∧ ∀ d ∈ data t, ∀ c ∈ d, c.toNat ≠ 0) := by
  have hnest : nest xhtml t = t ↔ xhtml = true ∨ ShapesLast t := by
    cases xhtml with
    | true => simp [nest_true]
    | false => simpa using nest_false_eq_self_iff h
  refine ⟨parse_print h ha hs collapsing xhtml, ?_⟩
  rw [parse_print h ha hs, Except.ok.injEq, shown_injective.eq_iff, ← mapData_nest,
    mapData_nest_eq_self_iff, hnest, mapData_eq_self_iff]
  simp only [readable_eq_self_iff]

/-- A shape before an element and a text. -/
def openPath : Html.Tree :=
  .element ⟨"path".toList, [("d".toList, "M0".toList)]⟩ .nil
    (.element ⟨"br".toList, []⟩ .nil (.leaf (.text "ab".toList) .nil))

theorem reread_openPath :
    ((Reader.start true).parse "<path d=\"M0\"><br>ab".toList).1 =
        .ok (shown (.element ⟨"path".toList, [("d".toList, "M0".toList)]⟩
          (.element ⟨"br".toList, []⟩ .nil (.leaf (.text "ab".toList) .nil)) .nil)) ∧
      ((Reader.start true).parse "<path d=\"M0\"><br>ab".toList).1 ≠ .ok (shown openPath) ∧
      ((Reader.start true).parse "<path d=\"M0\" /><br />ab".toList).1 = .ok (shown openPath) := by
  have hplain : Plain openPath := by decide
  have hamp : ∀ d ∈ data openPath, '&' ∉ d := by decide
  have hspace : ∀ d ∈ data openPath, collapse d = d := by decide
  have hnot : ¬ ShapesLast openPath := by decide
  have hchars : ∀ d ∈ data openPath, (d.all fun c => decide (c.toNat ≠ 0)) = true := by decide
  have hnull : ∀ d ∈ data openPath, ∀ c ∈ d, c.toNat ≠ 0 :=
    fun d hd => forall_mem_of_all (hchars d hd)
  have hhtml : (Reader.start true).print false (shown openPath) =
      "<path d=\"M0\"><br>ab".toList := by decide
  have hxhtml : (Reader.start true).print true (shown openPath) =
      "<path d=\"M0\" /><br />ab".toList := by decide
  have hread := reread hplain hamp hspace true false
  have hclosed := reread hplain hamp hspace true true
  rw [hhtml] at hread
  rw [hxhtml] at hclosed
  refine ⟨hread.1, fun he => ?_, hclosed.2.2 ⟨Or.inl rfl, hnull⟩⟩
  exact hnot ((hread.2.1 he).1.resolve_left Bool.false_ne_true)

end Again

end InlineBinding.Markup
