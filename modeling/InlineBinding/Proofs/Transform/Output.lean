import InlineBinding.Proofs.Binding.Untouched
import InlineBinding.Proofs.Transform.Guarded

/-!
# Clauses in the output of a transform

Every clause that a transform makes stands in its output, restored. In which way it holds the
blocks of the document depends on where their marks came to stand.
-/
namespace InlineBinding
open Text Markup

/-! ## Clauses in a directive -/

/-- A text between commas, or at the ends. -/
def Text.Listed (c v : Text) : Prop :=
  ∃ a b, v = a ++ c ++ b ∧ (a = [] ∨ ∃ x, a = x ++ [',']) ∧ (b = [] ∨ ∃ y, b = [','] ++ y)

/-- A text that ends the way it begins, at a double quote or a comma. -/
def Text.Stands (z out : Text) : Prop :=
  ∃ a q b q', q ∈ ['"', ','] ∧ q' ∈ ['"', ','] ∧ out = a ++ q :: (z ++ q' :: b)

theorem Text.Stands.mono {z t u : Text} (h : z.Stands t) (hi : t <:+: u) : z.Stands u := by
  obtain ⟨a, q, b, q', hq, hq', rfl⟩ := h
  obtain ⟨x, y, rfl⟩ := hi
  exact ⟨x ++ a, q, b ++ y, q', hq, hq', by simp⟩

theorem Binding.Attacher.listed_directiveWith {a : Attacher} {t : Tag} {c : Text} {cs : List Text}
    (h : c ∈ cs) : ∃ v, a.directiveWith t cs = some (.text v) ∧ c.Listed v := by
  obtain ⟨c', cs, rfl⟩ := List.exists_cons_of_ne_nil (List.ne_nil_of_mem h)
  obtain ⟨x, y, he, hx, hy⟩ := exists_intercalate_eq [','] h
  refine ⟨_, rfl, opened (a.directiveText t) ++ x, y, by rw [he]; simp, ?_, hy⟩
  rcases hx with rfl | ⟨z, rfl⟩
  · rw [List.append_nil]
    exact opened_cases _
  · exact Or.inr ⟨opened (a.directiveText t) ++ z, by simp⟩

theorem Markup.stands_renderAttribute {c v : Text} (h : c.Listed v) (name : Text) :
    (quoteValue (.text c)).Stands (renderAttribute (name, .text v)) := by
  obtain ⟨a, b, rfl, ha, hb⟩ := h
  have hcomma : quoteValue (.text [',']) = [','] := rfl
  have hfront : ∃ x q, q ∈ ['"', ','] ∧ '"' :: quoteValue (.text a) = x ++ [q] := by
    rcases ha with rfl | ⟨x, rfl⟩
    · exact ⟨[], '"', by simp, rfl⟩
    · exact ⟨'"' :: quoteValue (.text x), ',', by simp, by rw [quoteValue_append, hcomma]; rfl⟩
  have hback : ∃ y q, q ∈ ['"', ','] ∧ quoteValue (.text b) ++ ['"'] = q :: y := by
    rcases hb with rfl | ⟨y, rfl⟩
    · exact ⟨[], '"', by simp, rfl⟩
    · exact ⟨quoteValue (.text y) ++ ['"'], ',', by simp, by rw [quoteValue_append, hcomma]; rfl⟩
  obtain ⟨x, q, hq, hx⟩ := hfront
  obtain ⟨y, q', hq', hy⟩ := hback
  refine ⟨' ' :: name ++ ['='] ++ x, q, y, q', hq, hq', ?_⟩
  calc renderAttribute (name, .text (a ++ c ++ b))
      = ' ' :: name ++ ['='] ++ ('"' :: quoteValue (.text a)) ++ quoteValue (.text c) ++
          (quoteValue (.text b) ++ ['"']) := by
        simp [renderAttribute, quoteValue_append]
    _ = ' ' :: name ++ ['='] ++ x ++ q :: (quoteValue (.text c) ++ q' :: y) := by
        rw [hx, hy]
        simp

/-! ## Transforms -/

namespace Transform
open Literal Accessor Shield Binding Linked

section Parts

variable (o : Options) (document : Text)

def shielded : Text := ((shieldOf o).shield document).1

def blocks : List Clipping := ((shieldOf o).shield document).2

def recovery : Recovery := Recovery.of (shielded o document)

def scan : Scan :=
  Scan.of o (recovery o document) (withMarks (Attacher.ofOptions o) (blocks o document))

/-- The scan with an attacher of one's own. -/
def scanWith (a : Attacher) : Scan :=
  Scan.of o (recovery o document) (withMarks a (blocks o document))

/-- What is attached to the document that has been read. -/
def attachments (tree : Tree) : List Attachment :=
  (scan o document).attachments (Document.ofTree tree).store none .nothing (numbered 0 tree)

/-- A clause between its double quotes, before anything is restored. -/
def quoted (x : Attachment) : Text := quoteValue (.text ((scan o document).clause x))

/-- A clause in the output. -/
def printed (x : Attachment) : Text :=
  reveal (recovery o document) (blocks o document) (quoted o document x)

def chunks (x : Attachment) : List Text := o.bindingDelimiters.split x.source

/-- A clause in the output, with every block in a literal. -/
def intended (x : Attachment) : Text :=
  kept (recovery o document) (blocks o document) (x.handler Dialect.default) (chunks o x)

/-- Marks come to stand in literals only. -/
def Safe (x : Attachment) : Prop :=
  Guarded (blocks o document)
    ((recovery o document).restore (quoteValue (.text (x.handler Dialect.default)))) (chunks o x)

end Parts

theorem labelled_blocks (o : Options) (document : Text) : bindify.Labelled (blocks o document) :=
  labelled_clippings (shieldOf o) document

variable {o : Options} {document : Text}

theorem stands_reveal {z t : Text} (h : z.Stands t) :
    (reveal (recovery o document) (blocks o document) z).Stands
      (reveal (recovery o document) (blocks o document) t) := by
  obtain ⟨a, q, b, q', hq, hq', rfl⟩ := h
  have hstill : ∀ q ∈ ['"', ','], Still q := by
    unfold Still Recovery.Idle
    exact forall_mem_of_all (by decide)
  refine ⟨reveal (recovery o document) (blocks o document) a, q,
    reveal (recovery o document) (blocks o document) b, q', hq, hq', ?_⟩
  have hl := labelled_blocks o document
  rw [recovery, reveal_append_cons hl (hstill q hq), reveal_append_cons hl (hstill q' hq')]

/-- What a transform has done when it comes to its end. -/
theorem transform_ok {a : Attacher} {output : Text}
    (h : (transform o a document).result = .ok output) :
    ∃ tree n p, parse o.normalizeWhitespace (shielded o document) = .ok tree ∧
      (scanWith o document a).run (Document.ofTree tree) = (.ok n, p) ∧
      output = reveal (recovery o document) (blocks o document)
        (render o.xhtmlMode p.document.toTree) ∧
      clausesIn (transform o a document).events = clausesIn p.events := by
  have hbefore : clausesIn (shieldEvents o (blocks o document) ++
      readEvents (shielded o document)) = [] := by
    rw [clausesIn_append, shieldEvents, readEvents]
    split <;> split <;> rfl
  rw [transform] at h ⊢
  cases hp : parse o.normalizeWhitespace (shielded o document) with
  | error f =>
    rw [shielded] at hp
    simp only [hp] at h
    exact absurd h (by simp)
  | ok tree =>
    rw [shielded] at hp
    simp only [hp] at h ⊢
    cases hrun : (scanWith o document a).run (Document.ofTree tree) with
    | mk scanned p =>
      rw [scanWith, recovery, shielded, blocks] at hrun
      cases scanned with
      | error f =>
        simp only [hrun] at h
        exact absurd h (by simp)
      | ok n =>
        simp only [hrun] at h ⊢
        refine ⟨tree, n, p, rfl, hrun, (Except.ok.inj h).symm, ?_⟩
        rw [clausesIn_append, clausesIn_append]
        rw [blocks, shielded] at hbefore
        rw [hbefore, List.nil_append]
        exact List.append_nil _

theorem transformDefault_ok {output : Text}
    (h : (transformDefault o document).result = .ok output) :
    ∃ tree n p, parse o.normalizeWhitespace (shielded o document) = .ok tree ∧
      (scan o document).run (Document.ofTree tree) = (.ok n, p) ∧
      output = reveal (recovery o document) (blocks o document)
        (render o.xhtmlMode p.document.toTree) ∧
      clausesIn (transformDefault o document).events = clausesIn p.events :=
  transform_ok h

/-- What a transform answers when the scan comes to its end. -/
theorem result_of_run {tree : Tree} {n : ℕ} {p : Progress}
    (hparse : parse o.normalizeWhitespace (shielded o document) = .ok tree)
    (hrun : (scan o document).run (Document.ofTree tree) = (.ok n, p)) :
    (transformDefault o document).result = .ok (reveal (recovery o document) (blocks o document)
      (render o.xhtmlMode p.document.toTree)) := by
  rw [shielded] at hparse
  rw [scan, recovery, shielded, blocks] at hrun
  rw [transformDefault, transform]
  simp only [hparse, hrun]
  rfl

theorem skips_directive (ho : o.bindingAttribute ∈ o.skipAttributes) :
    (scan o document).skipped.contains
      (Text.lower (scan o document).attacher.directiveName) = true :=
  Options.skips_bindingAttribute ho

/-- All clauses of an anchor stand in its directive. -/
theorem directive_tagAfter (ho : o.bindingAttribute ∈ o.skipAttributes) (tree : Tree) (a : Anchor)
    (t : Tag) : ((scan o document).tagAfter (attachments o document tree) a t).attributes.get?
        o.bindingAttribute = (scan o document).attacher.directiveWith t
          ((scan o document).clausesAt (attachments o document tree) a) := by
  refine Scan.get?_tagAfter (s := scan o document) (fun x _ => ?_) (fun i value hx => ?_) t
  · exact Scan.tidy_clause rfl (unquoted (labelled_blocks o document)) x
  · have hbound := Scan.mem_boundAttributes_of_mem hx
    exact absurd rfl (Scan.name_ne_of_mem (skips_directive ho) hbound)

/-- Resolved options, and the marks of a document, are as a scan needs them: with such options a
transform attaches every bound place of what it has read, and leaves the rest as it was. -/
theorem scan_of_resolve {settings : Setting} {output : Text}
    (ho : Options.resolve settings = .ok o)
    (h : (transformDefault o document).result = .ok output) :
    ∃ tree n p w, parse o.normalizeWhitespace (shielded o document) = .ok tree ∧
      (scan o document).run (Document.ofTree tree) = (.ok n, p) ∧
      (scan o document).Complete (Document.ofTree tree) (numbered 0 tree) n p w ∧
      (scan o document).Frame (Document.ofTree tree) (numbered 0 tree) w p ∧
      output = reveal (recovery o document) (blocks o document)
        (render o.xhtmlMode p.document.toTree) := by
  have hskip : (scan o document).skipped.contains
      (Text.lower (scan o document).attacher.directiveName) = true :=
    skips_directive (Options.mem_skipAttributes_of_resolve ho)
  have hm := unquoted (labelled_blocks o document)
  obtain ⟨tree, n, p, hparse, hrun, hout, -⟩ := transformDefault_ok h
  have hd := Document.shows_ofTree tree
  obtain ⟨rfl, w, hw, hused⟩ := Scan.reached_of_run hd hskip hrun
  exact ⟨tree, p.count, p, w, hparse, hrun, Scan.complete_of_reached rfl hm hskip hw hused,
    Scan.frame_of_reached hd hskip hw hused, hout⟩

/-- Clauses stand in the output. -/
theorem stands_of_run (ho : o.bindingAttribute ∈ o.skipAttributes) {tree : Tree} {n : ℕ}
    {p : Progress} (hrun : (scan o document).run (Document.ofTree tree) = (.ok n, p))
    {x : Attachment} (hx : x ∈ attachments o document tree) :
    (quoted o document x).Stands (render o.xhtmlMode p.document.toTree) := by
  have hd := Document.shows_ofTree tree
  obtain ⟨-, w, hw, -⟩ := Scan.reached_of_run hd (skips_directive ho) hrun
  obtain ⟨j, t, hj, ht⟩ := hw.exists_tag hd hx
  have hmem : (scan o document).clause x ∈
      (scan o document).clausesAt (attachments o document tree) x.anchor :=
    List.mem_map_of_mem (List.mem_filter.2 ⟨hx, decide_eq_true rfl⟩)
  obtain ⟨v, hv, hlisted⟩ := Attacher.listed_directiveWith hmem
  have hopen := renderAttribute_infix_openTag ((directive_tagAfter ho tree x.anchor t).trans hv)
  have hdepth : ((numbered 0 tree).wrap w).height ≤ p.document.store.size + 1 :=
    Nat.le_succ_of_le hw.shows.height_le
  have htag := Store.openTag_infix_render o.xhtmlMode hw.shows.owns hdepth hj ht
  rw [← hw.shows.roots] at htag
  exact (stands_renderAttribute hlisted _).mono (hopen.trans htag)

section Clause

variable {x : Attachment}

theorem isPath_of_mem_chunks (o : Options) (x : Attachment) :
    ∀ p, .path p ∈ Chunk.alternate false (chunks o x) → IsPath p :=
  fun _ h => Delimiters.isPath_of_path_mem h

theorem quoted_eq : quoted o document x = quoteValue (.text (x.handler Dialect.default)) ++
    ':' :: List.intercalate " + ".toList
      (Expression.terms (standIns (blocks o document)) (chunks o x)) := by
  have hplus : '"' ∉ " + ".toList := by decide
  have hexpr := Expression.notMem_intercalate hplus
    (separator_notMem_terms (labelled_blocks o document) (isPath_of_mem_chunks o x) (by decide))
  rw [← quoteValue_eq_self hexpr, ← quoteValue_cons _ (by decide), ← quoteValue_append]
  rfl

theorem bare_terms (hb : (recovery o document).Bare (quoted o document x)) :
    ∀ t ∈ Expression.terms (standIns (blocks o document)) (chunks o x),
      (recovery o document).Bare t := by
  intro t ht
  obtain ⟨a, b, he, -⟩ := exists_intercalate_eq " + ".toList ht
  rw [quoted_eq, he] at hb
  exact hb.mono ⟨quoteValue (.text (x.handler Dialect.default)) ++ ':' :: a, b, by simp⟩

theorem quote_notMem_intended (hb : (recovery o document).Bare (quoted o document x)) :
    '"' ∉ intended o document x := by
  have hs : Steady (recovery o document).unmask ['"'] :=
    Recovery.steady_unmask (forall_mem_of_all (by decide))
  have hhandler : (recovery o document).Bare (quoteValue (.text (x.handler Dialect.default))) := by
    rw [quoted_eq] at hb
    exact hb.mono (List.prefix_append _ _).isInfix
  have hexpr : '"' ∉ Expression.withBlocks (blocks o document) (recovery o document).unmask id
      (chunks o x) := quote_notMem_withBlocks (isPath_of_mem_chunks o x)
  rw [intended, kept, Recovery.restore_eq_map hhandler, List.mem_append, List.mem_map,
    List.mem_cons]
  rintro (⟨c, hc, he⟩ | h | h)
  · rw [(hs '"' List.mem_cons_self c).1 he] at hc
    exact quote_notMem_quoteValue _ hc
  · exact absurd h (by decide)
  · exact hexpr h

theorem Safe.printed_eq (hb : (recovery o document).Bare (quoted o document x))
    (hq : Quiet (blocks o document) (recovery o document).unmask (chunks o x))
    (hs : Safe o document x) : printed o document x = intended o document x :=
  Guarded.reveal_eq (labelled_blocks o document) (isPath_of_mem_chunks o x) (bare_terms hb) hq hs

theorem printed_eq_iff (hb : (recovery o document).Bare (quoted o document x))
    (hd : (shieldOf o).Bordered) :
    printed o document x = intended o document x ↔ Safe o document x :=
  ⟨guarded_of_reveal_eq hd, Safe.printed_eq hb (quiet_of_bordered hd _ _)⟩

/-- A section comes back in a clause as it was, and so do the blocks in it. -/
theorem section_infix_printed {p : Text × Text} (hp : p ∈ (recovery o document).sections)
    (h : keyComment p.1 <:+: quoted o document x) :
    '<' :: unshield (p.2.map (recovery o document).unmask) (blocks o document) ++ ['>'] <:+:
      printed o document x := by
  obtain ⟨a, b, he⟩ := Recovery.section_infix_restore hp h
  have hl := labelled_blocks o document
  have hopen : ∀ c ∈ blocks o document, '<' ∉ c.literalMark :=
    notMem_literalMark hl (by decide) (by decide)
  have hclose : ∀ c ∈ blocks o document, '>' ∉ c.literalMark :=
    notMem_literalMark hl (by decide) (by decide)
  refine ⟨unshield a (blocks o document), unshield b (blocks o document), ?_⟩
  have hassoc (y u z : Text) : y ++ ('<' :: u ++ ['>']) ++ z = y ++ '<' :: (u ++ '>' :: z) := by
    simp
  rw [printed, reveal, recovery, ← he, hassoc, hassoc, unshield_append_cons hl.mark_ne_nil hopen,
    unshield_append_cons hl.mark_ne_nil hclose]

end Clause

/-- Every clause stands in the output. Its blocks are in literals, and it holds no double quote, if
no mark can be read in its handler and in its paths, and where blocks are bordered only then. -/
theorem clauses_in_output (ho : o.bindingAttribute ∈ o.skipAttributes) {output : Text}
    (h : (transformDefault o document).result = .ok output) :
    ∃ tree, parse o.normalizeWhitespace (shielded o document) = .ok tree ∧
      clausesIn (transformDefault o document).events =
        (attachments o document tree).map (scan o document).clause ∧
      ∀ x ∈ attachments o document tree, (printed o document x).Stands output ∧
        ((recovery o document).Bare (quoted o document x) →
          '"' ∉ intended o document x ∧
          (Quiet (blocks o document) (recovery o document).unmask (chunks o x) →
            Safe o document x → printed o document x = intended o document x) ∧
          ((shieldOf o).Bordered →
            (printed o document x = intended o document x ↔ Safe o document x))) ∧
        ∀ p ∈ (recovery o document).sections, keyComment p.1 <:+: quoted o document x →
          '<' :: unshield (p.2.map (recovery o document).unmask) (blocks o document) ++ ['>'] <:+:
            printed o document x := by
  obtain ⟨tree, n, p, hparse, hrun, rfl, hevents⟩ := transformDefault_ok h
  refine ⟨tree, hparse, ?_, fun x hx => ⟨?_, fun hb => ⟨?_, ?_, ?_⟩, ?_⟩⟩
  · obtain ⟨-, w, hw, -⟩ := Scan.reached_of_run (Document.shows_ofTree tree)
      (Options.skips_bindingAttribute ho) hrun
    rw [hevents, hw.clauses]
    rfl
  · exact stands_reveal (stands_of_run ho hrun hx)
  · exact quote_notMem_intended hb
  · exact Safe.printed_eq hb
  · exact printed_eq_iff hb
  · exact fun p hp => section_infix_printed hp

theorem bordered_default : (shieldOf .default).Bordered := by
  intro d hd
  rcases List.mem_cons.1 hd with rfl | hd
  · exact ⟨⟨'<', ['%'], rfl, by unfold Foreign; decide⟩, '>', ['%'], rfl, by unfold Foreign; decide⟩
  · exact bordered_templates d hd

/-- A block behind a binding. -/
def paragraph : Text := "<p>\x7ba\x7d<%=\"x\"%></p>".toList

/-- A block between the delimiters of a binding. -/
def codeParagraph : Text := "<p>\x7b<%=\"x\"%>\x7d</p>".toList

def paragraphTree (data : Text) : Tree :=
  .element ⟨"p".toList, .plain, []⟩ (.leaf ⟨.text, data⟩ .nil) .nil

def paragraphText (data : Text) : Attachment := .text 1 data (.element 0) .first

/-- The first one is escaped in a literal, the second one becomes code. -/
theorem clauses_in_output_paragraphs :
    (printed .default paragraph (paragraphText "\x7ba\x7dbind1ify".toList) =
        "text(first):'' + this.a() + '<%=&quot;x&quot;%>'".toList ∧
      Safe .default paragraph (paragraphText "\x7ba\x7dbind1ify".toList)) ∧
    printed .default codeParagraph (paragraphText "\x7bbind1ify\x7d".toList) =
        "text(first):this.<%=\"x\"%>()".toList ∧
      ¬ Safe .default codeParagraph (paragraphText "\x7bbind1ify\x7d".toList) := by
  have ho : Options.default.bindingAttribute ∈ Options.default.skipAttributes := by decide
  have hbare {document : Text} (h : (recovery .default document).sections = []) (t : Text) :
      (recovery .default document).Bare t := by
    intro p hp
    rw [h] at hp
    exact absurd hp List.not_mem_nil
  have hresult : (transformDefault .default paragraph).result = .ok
      ("<p data-bind=\"text(first):'' + this.a() + '<%=&quot;x&quot;%>'\">".toList ++
        "\x7b\x7ba()\x7d\x7d<%=\"x\"%></p>".toList) := by decide +kernel
  have hcode : (transformDefault .default codeParagraph).result = .ok
      ("<p data-bind=\"text(first):this.<%=\"x\"%>()\">".toList ++
        "\x7b\x7b<%=\"x\"%>()\x7d\x7d</p>".toList) := by decide +kernel
  constructor
  · obtain ⟨tree, hparse, -, hx⟩ := clauses_in_output ho hresult
    have hp : parse true (shielded .default paragraph) =
        .ok (paragraphTree "\x7ba\x7dbind1ify".toList) := by decide +kernel
    obtain rfl := Except.ok.inj (hparse.symm.trans hp)
    obtain ⟨-, hsafe, -⟩ := hx (paragraphText "\x7ba\x7dbind1ify".toList) (by decide +kernel)
    obtain ⟨-, -, hsafe⟩ := hsafe (hbare (by decide +kernel) _)
    exact ⟨by decide +kernel, (hsafe bordered_default).1 (by decide +kernel)⟩
  · obtain ⟨tree, hparse, -, hx⟩ := clauses_in_output ho hcode
    have hp : parse true (shielded .default codeParagraph) =
        .ok (paragraphTree "\x7bbind1ify\x7d".toList) := by decide +kernel
    obtain rfl := Except.ok.inj (hparse.symm.trans hp)
    obtain ⟨-, hsafe, -⟩ := hx (paragraphText "\x7bbind1ify\x7d".toList) (by decide +kernel)
    obtain ⟨-, -, hsafe⟩ := hsafe (hbare (by decide +kernel) _)
    refine ⟨by decide +kernel, fun h => ?_⟩
    have hne : printed .default codeParagraph (paragraphText "\x7bbind1ify\x7d".toList) ≠
        intended .default codeParagraph (paragraphText "\x7bbind1ify\x7d".toList) := by
      decide +kernel
    exact hne ((hsafe bordered_default).2 h)

end Transform
end InlineBinding
