import InlineBinding.Proofs.Html.References
import InlineBinding.Proofs.Markup.Commented

/-!
# Text in an element of its own

An element that is written with a start tag, a text and an end tag is read as that element with one
leaf, wherever nothing else is told about its name. The text is normalized, and where there is no
mask its references are decoded.
-/
namespace InlineBinding

namespace Html
open Text

/-- Names of elements that are read in a way of their own, or that have no content. -/
def apartNames : List Text := "plaintext".toList :: (rawNames ++ voidNames ++ sectionNames)

/-- Elements that hold text in the body, with values that are read as they are written. -/
structure Hosts (t : Tag) : Prop where
  plain : t.Plain
  first : t.name.head?.any isLetter = true
  chars : ∀ c ∈ t.name, isNameChar c = true
  apart : t.name ∉ apartNames
  page : ¬ Builder.html <+: t.name
  steady : ∀ d ∈ t.attributes.map Prod.snd, ∀ x ∈ unsteadyChars, x ∉ d

def writeClosing (n : Text) : Text := "</".toList ++ n ++ ['>']

/-- An element with nothing in it but a text. -/
def hosted (t : Tag) (s : Text) : Text := writeOpening t ++ '>' :: (s ++ writeClosing t.name)

namespace Hosts

variable {t : Tag} (h : Hosts t)
include h

theorem tagName : TagName t.name := by
  have hapart {n : Text} (hn : n ∈ apartNames) : t.name ≠ n := fun he => h.apart (he ▸ hn)
  refine ⟨h.first, fun c hc => ?_, asciiLower_name h.chars, ?_⟩
  · have hname := h.chars c hc
    exact of_ascii (p := fun c => isNameChar c = true → isTagChar c = true) (by decide +kernel)
      (isLow_of_isNameChar hname).1 hname
  · rw [Bool.or_eq_false_iff, decide_eq_false_iff_not, ← Bool.not_eq_true, List.contains_iff_mem]
    refine ⟨fun hraw => h.apart ?_, hapart List.mem_cons_self⟩
    simp [apartNames, hraw]

theorem name_subset : t.name ⊆ writtenChars := fun c hc => mem_writtenChars (h.chars c hc)

theorem notMem_opening {x : Char} (hx : x ∈ unsteadyChars) : x ∉ writeOpening t ++ ['>'] := by
  have hwritten : ∀ x ∈ unsteadyChars, x ∉ writtenChars ∧ x ∉ ['>'] :=
    forall_mem_of_all (by decide)
  rw [List.mem_append, not_or]
  exact ⟨notMem_writeOpening h.plain h.name_subset (hwritten x hx).1
    fun d hd => h.steady d hd x hx, (hwritten x hx).2⟩

theorem notMem_closing {x : Char} (hx : x ∈ unsteadyChars) : x ∉ writeClosing t.name := by
  have hwritten : ∀ x ∈ unsteadyChars, x ∉ writtenChars ∧ x ∉ "</".toList ∧ x ∉ ['>'] :=
    forall_mem_of_all (by decide)
  obtain ⟨hname, hfront, hback⟩ := hwritten x hx
  rw [writeClosing, List.mem_append, List.mem_append, not_or, not_or]
  exact ⟨⟨hfront, fun hm => hname (h.name_subset hm)⟩, hback⟩

/-! ## Reading -/

theorem lex_hosted {d rest : Text} (hne : d ≠ []) (hd : '<' ∉ d) :
    lex (hosted t d ++ rest) =
      .startTag t false :: .text (decodeReferences d) :: .endTag t.name :: lex rest := by
  have hamp : ∀ d ∈ t.attributes.map Prod.snd, '&' ∉ d :=
    fun d hd => h.steady d hd '&' (by decide)
  have hwrite : hosted t d ++ rest =
      writeOpening t ++ (ending false ++ (d ++ ("</".toList ++ t.name ++ '>' :: rest))) := by
    simp [hosted, writeClosing, ending]
  rw [hwrite, lex_writeOpening h.tagName h.plain hamp, lex_characters hne hd (Or.inr rfl),
    lex_closing h.tagName]

end Hosts

namespace Builder

/-- The element is put into the body, with its text. -/
theorem build_hosted {t : Tag} (h : Hosts t) {d : Text} (hd : d ≠ []) :
    build [.startTag ⟨html, []⟩ false, .startTag ⟨body, []⟩ false, .startTag t false, .text d,
      .endTag t.name, .endTag body, .endTag html] =
        .element ⟨html, []⟩ (.element ⟨body, []⟩
          (.element t (.leaf (.text d) .nil) .nil) .nil) .nil := by
  have hapart : ∀ n ∈ [html, head, body], n ∈ apartNames := by decide
  have hname : t.name ≠ html ∧ t.name ≠ head ∧ t.name ≠ body :=
    ⟨fun he => h.apart (he ▸ hapart html (by decide)),
      fun he => h.apart (he ▸ hapart head (by decide)),
      fun he => h.apart (he ▸ hapart body (by decide))⟩
  have hvoid : (false || voidNames.contains t.name) = false := by
    rw [Bool.false_or, ← Bool.not_eq_true, List.contains_iff_mem]
    exact fun hv => h.apart (by simp [apartNames, hv])
  have hbody : closes body t.name = false := by
    have hfirst : ∀ r ∈ closers, r.1.contains body = false := by decide
    rw [closes, List.any_eq_false]
    intro r hr
    rw [hfirst r hr, Bool.false_and]
    exact Bool.false_ne_true
  have hopened : (start.token (.startTag ⟨html, []⟩ false)).token (.startTag ⟨body, []⟩ false) =
      within [⟨⟨body, []⟩, .nil⟩, ⟨⟨html, []⟩, .nil⟩] := by
    rfl
  have hstart : (within [⟨⟨body, []⟩, .nil⟩, ⟨⟨html, []⟩, .nil⟩]).token (.startTag t false) =
      within [⟨t, .nil⟩, ⟨⟨body, []⟩, .nil⟩, ⟨⟨html, []⟩, .nil⟩] := by
    rw [token, startTag_inside hbody hname, hvoid, if_neg (by simp)]
  have htext : (within [⟨t, .nil⟩, ⟨⟨body, []⟩, .nil⟩, ⟨⟨html, []⟩, .nil⟩]).token (.text d) =
      within [⟨t, .leaf (.text d) .nil⟩, ⟨⟨body, []⟩, .nil⟩, ⟨⟨html, []⟩, .nil⟩] :=
    text_within ⟨hname.1, hname.2.1⟩ hd rfl
  have hend : (within [⟨t, .leaf (.text d) .nil⟩, ⟨⟨body, []⟩, .nil⟩, ⟨⟨html, []⟩, .nil⟩]).token
      (.endTag t.name) = within [⟨⟨body, []⟩, .element t (.leaf (.text d) .nil) .nil⟩,
        ⟨⟨html, []⟩, .nil⟩] := by
    have hinner : ∀ o ∈ ([] : List Frame), o.tag.name ≠ t.name ∧
        ¬ priority o.tag.name > priority t.name := fun o ho => absurd ho List.not_mem_nil
    exact endTag_within hinner rfl
  simp only [build, List.foldl_cons, List.foldl_nil, hopened, hstart, htext, hend]
  rfl

end Builder

theorem decodeReferences_ne_nil {s : Text} (h : s ≠ []) : decodeReferences s ≠ [] := by
  obtain ⟨c, s, rfl⟩ := List.exists_cons_of_ne_nil h
  rw [decodeReferences]
  cases hr : referenceAt? (c :: s) with
  | none =>
    rw [cut_cons_of_none hr, join_char]
    exact List.cons_ne_nil _ _
  | some a =>
    rw [cut_cons_of_some (a := a.1) (n := a.2) hr, join_hit]
    exact List.cons_ne_nil _ _

theorem normalizeChars_ne_nil {s : Text} (h : s ≠ []) : normalizeChars s ≠ [] := by
  unfold normalizeChars
  split
  · exact List.cons_ne_nil _ _
  · exact List.cons_ne_nil _ _
  · exact List.cons_ne_nil _ _
  · exact absurd rfl h

end Html

namespace Markup
open Text Html

/-- What becomes of a text, if its white space counts or not. -/
def settle (keep : Bool) (s : Text) : Text := if keep then s else collapse s

/-- Whether white space counts in the element. -/
def keeps (collapsing : Bool) (t : Html.Tag) : Bool :=
  !collapsing || Recovery.preservingNames.contains (lower t.name)

/-- The text of the element as it is read. -/
def readText (collapsing : Bool) (t : Html.Tag) (s : Text) : Text :=
  settle (keeps collapsing t)
    (decodeReferences (normalizeChars (s.map (masked (pickMask (hosted t s))))))

section Hosted

variable {t : Html.Tag} (h : Hosts t)
include h

theorem normalize_hosted (s : Text) : Html.normalize (Recovery.wrapFragment (hosted t s)) =
    Recovery.wrapFragment (hosted t (normalizeChars s)) := by
  have hends : ∀ x ∈ unsteadyChars, x ∉ "<html><body>".toList ∧ x ∉ "</body></html>".toList :=
    forall_mem_of_all (by decide)
  have hsteady {s : Text} (hs : ∀ x ∈ unsteadyChars, x ∉ s) :
      ∀ c ∈ s, c ≠ '\r' ∧ c.toNat ≠ 0 := by
    refine fun c hc => ⟨fun he => hs '\r' (by decide) (he ▸ hc), fun hz => ?_⟩
    refine hs (Char.ofNat 0) (by decide) ?_
    rwa [← hz, Char.ofNat_toNat]
  have hfront := hsteady (s := "<html><body>".toList ++ (writeOpening t ++ ['>'])) fun x hx =>
    List.mem_append.not.2 (not_or.2 ⟨(hends x hx).1, h.notMem_opening hx⟩)
  have hback := hsteady (s := writeClosing t.name ++ "</body></html>".toList) fun x hx =>
    List.mem_append.not.2 (not_or.2 ⟨h.notMem_closing hx, (hends x hx).2⟩)
  have hsplit (s : Text) : Recovery.wrapFragment (hosted t s) =
      "<html><body>".toList ++ (writeOpening t ++ ['>']) ++
        (s ++ (writeClosing t.name ++ "</body></html>".toList)) := by
    unfold Recovery.wrapFragment
    simp only [hosted, List.append_assoc, List.cons_append, List.nil_append]
  have hangle : writeClosing t.name ++ "</body></html>".toList =
      '<' :: ('/' :: t.name ++ ['>'] ++ "</body></html>".toList) := rfl
  have hclosing : normalizeChars (writeClosing t.name ++ "</body></html>".toList) =
      writeClosing t.name ++ "</body></html>".toList := by
    have happend := normalizeChars_append_of_forall hback []
    rwa [List.append_nil, normalizeChars, List.append_nil] at happend
  rw [normalize_wrapFragment_eq, hsplit, hsplit, normalizeChars_append_of_forall hfront, hangle,
    normalizeChars_append (by decide), ← hangle, hclosing]

/-- The element is all that is read. -/
theorem read_hosted {s : Text} (hne : s ≠ []) (hs : '<' ∉ s) :
    (Html.read (Recovery.wrapFragment (hosted t s))).nodes =
      .element ⟨Builder.html, []⟩ (.element ⟨Builder.body, []⟩ (.element t
        (.leaf (.text (decodeReferences (normalizeChars s))) .nil) .nil) .nil) .nil := by
  have hnormal := normalizeChars_ne_nil hne
  have hangle : '<' ∉ normalizeChars s := by
    intro hm
    rcases (mem_normalizeChars hm).2 with hm | ⟨hm, -⟩ | hm
    · exact absurd hm (by decide)
    · exact absurd hm (by decide)
    · exact hs hm
  rw [Html.read, normalize_hosted h, wrapFragment_eq, lex_bare (by decide), lex_bare (by decide),
    h.lex_hosted hnormal hangle, lex_fragmentEnd]
  exact Builder.build_hosted h (decodeReferences_ne_nil hnormal)

theorem sectionless_hosted {s : Text} (hs : '<' ∉ s) : Sectionless (hosted t s) := by
  intro x hx
  have hname : '<' ∉ t.name := fun hm => absurd (h.chars _ hm) (by decide)
  have hopen : ['<', '!'] <:+: hosted t s := by
    refine List.IsInfix.trans ⟨[], "[CDATA[".toList ++ x ++ "]]>".toList, ?_⟩ hx
    rw [Recovery.wrap_sectionDelimiters]
    simp
  have hwrite : hosted t s = '<' :: ((t.name ++ t.attributes.flatMap writeAttribute ++ ['>'] ++ s) ++
      '<' :: '/' :: (t.name ++ ['>'])) := by
    simp [hosted, writeOpening, writeClosing]
  have hinner : '<' ∉ t.name ++ t.attributes.flatMap writeAttribute ++ ['>'] ++ s := by
    simp only [List.mem_append, not_or]
    exact ⟨⟨⟨hname, h.plain.angle_notMem_attributes⟩, by decide⟩, hs⟩
  obtain ⟨c, n, hn, hletter⟩ := h.tagName.exists_cons
  rw [hwrite, List.infix_cons_iff] at hopen
  rcases hopen with hopen | hopen
  · rw [hn] at hopen
    have hc := (List.cons_prefix_cons.1 (List.cons_prefix_cons.1 hopen).2).1
    exact absurd (hc ▸ hletter) (by decide)
  · have hopen := infix_of_notMem_head hinner hopen
    rw [List.infix_cons_iff] at hopen
    rcases hopen with hopen | hopen
    · have hc := (List.cons_prefix_cons.1 (List.cons_prefix_cons.1 hopen).2).1
      exact absurd hc (by decide)
    · have hm := hopen.subset List.mem_cons_self
      simp [hname] at hm

/-- No other name begins with the name of the root and ends with it. -/
theorem startsDocument_hosted (s : Text) :
    Recovery.startsDocument (Recovery.prepare (hosted t s)) = false := by
  have hstop : ∃ x y, hosted t s = '<' :: (t.name ++ x :: y) ∧
      (x = ' ' ∨ x = '>') := by
    cases has : t.attributes with
    | nil =>
      refine ⟨'>', s ++ writeClosing t.name, ?_, Or.inr rfl⟩
      simp [hosted, writeOpening, has]
    | cons a as =>
      refine ⟨' ', (writeAttribute a).tail ++ as.flatMap writeAttribute ++
        '>' :: (s ++ writeClosing t.name), ?_, Or.inl rfl⟩
      simp [hosted, writeOpening, writeAttribute, has]
  obtain ⟨x, y, hwrite, hx⟩ := hstop
  have hlower : asciiLower (t.name ++ x :: y) = t.name ++ x :: asciiLower y := by
    have hchar : asciiLowerChar x = x := by rcases hx with rfl | rfl <;> decide
    have hname := h.tagName.lower
    rw [asciiLower] at hname
    rw [asciiLower, asciiLower, List.map_append, List.map_cons, hname, hchar]
  have hleads (w : Text) (hm : x ∉ w) (hw : ¬ w <+: t.name) :
      leads ('<' :: w) ('<' :: (t.name ++ x :: y)) = false := by
    have hfront : ∀ c ∈ ([] : Text), isSpace c = true := fun _ hc => absurd hc List.not_mem_nil
    have happend := leads_append (w := w) hfront (t.name ++ x :: y)
    rw [List.nil_append] at happend
    rw [happend, ← Bool.not_eq_true, startsWith_iff, hlower, prefix_append_cons_iff hm]
    exact hw
  obtain ⟨c, n, hn, hletter⟩ := h.tagName.exists_cons
  have hdoctype : ¬ "!doctype".toList <+: t.name := by
    rw [hn]
    intro hp
    have hc := (List.cons_prefix_cons.1 hp).1
    exact absurd (hc ▸ hletter) (by decide)
  rw [startsDocument_prepare, leadsPage, Bool.or_eq_false_iff, hwrite]
  refine ⟨hleads _ ?_ hdoctype, hleads _ ?_ h.page⟩
  · rcases hx with rfl | rfl <;> decide
  · rcases hx with rfl | rfl <;> decide

theorem map_masked_hosted (mask : Option Char) (s : Text) :
    (hosted t s).map (masked mask) = hosted t (s.map (masked mask)) := by
  have hopening := map_masked_eq_self mask (h.notMem_opening (x := '&') (by decide))
  have hclosing := map_masked_eq_self mask (h.notMem_closing (x := '&') (by decide))
  have hwrite (s : Text) : hosted t s = writeOpening t ++ ['>'] ++ (s ++ writeClosing t.name) := by
    simp [hosted]
  rw [hwrite, hwrite, List.map_append, hopening, List.map_append, hclosing]

variable {s : Text} (hs : '<' ∉ s)
include hs

theorem sectionless_masked (markup : Text) :
    Sectionless ((hosted t s).map (masked (pickMask markup))) :=
  (sectionless_hosted h hs).map (steady_sectionDelimiters markup)

theorem sections_hosted : (Recovery.of (hosted t s)).sections = [] := by
  change sectionTable (Recovery.maskWith _ _) = []
  rw [maskWith_eq_map, sectionTable_of_sectionless (sectionless_masked h hs _)]

theorem prepare_hosted : Recovery.prepare (hosted t s) =
    hosted t (s.map (masked (pickMask (hosted t s)))) := by
  rw [Recovery.prepare, maskWith_eq_map, hideSections_of_sectionless (sectionless_masked h hs _),
    map_masked_hosted h]

/-- The whole document is the element, with its text. -/
theorem parse_hosted (hne : s ≠ []) (collapsing : Bool) : parse collapsing (hosted t s) =
    .ok (.element ((Recovery.of (hosted t s)).tag t)
      (.leaf ⟨.text, readText collapsing t s⟩ .nil) .nil) := by
  have hsteady : Steady (masked (pickMask (hosted t s))) ['<'] :=
    steady_masked_of _ (forall_mem_of_all (by decide))
  have hmasked : '<' ∉ s.map (masked (pickMask (hosted t s))) := by
    intro hm
    obtain ⟨c, hc, he⟩ := List.mem_map.1 hm
    exact hs ((hsteady '<' List.mem_cons_self c).1 he ▸ hc)
  have hread := read_hosted h (s := s.map (masked (pickMask (hosted t s)))) (by simpa using hne)
    hmasked
  rw [parse, if_neg (by rw [startsDocument_hosted h]; exact Bool.false_ne_true),
    prepare_hosted h hs, Recovery.fragment, hread]
  simp only [Forest.root?, Recovery.sectionContents, decide_true, Bool.or_true, if_true,
    Forest.append_nil]
  rfl

end Hosted

end Markup
end InlineBinding
