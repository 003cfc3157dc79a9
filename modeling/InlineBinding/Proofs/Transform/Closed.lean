import InlineBinding.Proofs.Binding.Finished
import InlineBinding.Proofs.Binding.Sources
import InlineBinding.Proofs.Markup.Spelled
import InlineBinding.Proofs.Transform.Commented
import InlineBinding.Proofs.Transform.Dropped

/-!
# Values between their double quotes

A value is quoted when it is printed, and hidden sections come back afterwards. So a value ends at
the quote that closes it unless a section with a double quote is hidden in it, and what is hidden
in a value was hidden in one of the texts that a scan has made it of.
-/
namespace InlineBinding

namespace Markup
open Text

/-- A hidden section with a double quote stands in the text. -/
def Recovery.HidesQuote (r : Recovery) (t : Text) : Prop :=
  ∃ p ∈ r.sections, keyComment p.1 <:+: t ∧ '"' ∈ p.2

instance (r : Recovery) (t : Text) : Decidable (r.HidesQuote t) :=
  inferInstanceAs (Decidable (∃ _ ∈ _, _))

namespace Recovery

variable {markup : Text}

/-- Comments of sections have no part in what bindings are written with. -/
theorem aside_keyComment {p : Text × Text} (hp : p ∈ (Recovery.of markup).sections) :
    Text.Aside (keyComment p.1) where
  ne_nil := keyComment_ne_nil p.1
  space c hc := by
    rcases mem_keyComment hp hc with h | h
    · exact forall_mem_of_all (p := fun c => isSpace c = false)
        (s := keyComment sectionKeys.before) (by decide) c h
    · exact Html.isSpace_of_isWordChar (Html.isWordChar_of_isDigit h)
  head := ⟨_, by rw [keyComment_eq]; rfl⟩
  notMem c hc := by
    have hidle : ∀ c ∈ "\x7b\x7d'\"\\&,:+ ().\n\r".toList, Idle c := by
      unfold Idle
      exact forall_mem_of_all (by decide)
    exact (hidle c hc).notMem_keyComment hp

theorem closed_iff {v : Value} : '"' ∉ (Recovery.of markup).restore (quoteValue v) ↔
    ¬ (Recovery.of markup).HidesQuote (quoteValue v) := by
  have hquote : Idle '"' := by
    unfold Idle
    decide
  have hnone : '"' ∉ quoteValue v := quote_notMem_quoteValue v.render
  rw [mem_restore_iff hquote (by decide), HidesQuote]
  simp [hnone]

end Recovery

/-! ## Start tags in print -/

theorem exists_render_eq (xhtml : Bool) {t : Tag} {f : Tree} (h : t ∈ f.elements) :
    ∃ front e back, e ∈ [">".toList, " />".toList] ∧
      render xhtml f = front ++ openTag t ++ e ++ back := by
  induction f with
  | nil => exact absurd h List.not_mem_nil
  | element u cs rest ihc ihr =>
    rw [Forest.elements, List.mem_cons, List.mem_append] at h
    rw [render]
    rcases h with rfl | h | h
    · rw [renderElement]
      split
      · exact ⟨[], ">".toList, render xhtml cs ++ closeTag t ++ render xhtml rest, by simp,
          by simp⟩
      · split
        · cases xhtml
          · exact ⟨[], ">".toList, render false rest, by simp, by simp⟩
          · exact ⟨[], " />".toList, render true rest, by simp, by simp⟩
        · exact ⟨[], ">".toList, closeTag t ++ render xhtml rest, by simp, by simp⟩
    · obtain ⟨front, e, back, he, hr⟩ := ihc h
      obtain ⟨x, y, hxy⟩ := infix_renderElement xhtml u cs
      exact ⟨x ++ front, e, back ++ y ++ render xhtml rest, he, by rw [← hxy, hr]; simp⟩
    · obtain ⟨front, e, back, he, hr⟩ := ihr h
      exact ⟨renderElement xhtml u (!isNil cs) (render xhtml cs) ++ front, e, back, he,
        by rw [hr]; simp⟩
  | leaf l rest ih =>
    obtain ⟨front, e, back, he, hr⟩ := ih h
    exact ⟨renderLeaf l ++ front, e, back, he, by rw [render, hr]; simp⟩

/-- What restoring makes of an attribute and of what stands around it. -/
theorem Recovery.restore_attribute {markup : Text} (q : Text × Value) (x y : Text) :
    (Recovery.of markup).restore (x ++ renderAttribute q ++ y) =
      (Recovery.of markup).restore x ++ ' ' :: (Recovery.of markup).restore q.1 ++ "=\"".toList ++
        (Recovery.of markup).restore (quoteValue q.2) ++ '"' :: (Recovery.of markup).restore y := by
  have hidle : ∀ c ∈ [' ', '=', '"'], Idle c := by
    unfold Idle
    exact forall_mem_of_all (by decide)
  have hsplit : x ++ renderAttribute q ++ y =
      x ++ ' ' :: (q.1 ++ '=' :: ([] ++ '"' :: (quoteValue q.2 ++ '"' :: y))) := by
    simp [renderAttribute]
  have hempty : (Recovery.of markup).restore [] = [] := by
    have hbare : (Recovery.of markup).Bare [] := fun p _ h =>
      keyComment_ne_nil p.1 (List.infix_nil.1 h)
    rw [restore_eq_map hbare, List.map_nil]
  rw [hsplit, restore_append_cons (hidle ' ' (by decide)),
    restore_append_cons (hidle '=' (by decide)), restore_append_cons (hidle '"' (by decide)),
    restore_append_cons (hidle '"' (by decide)), hempty]
  simp

/-- The attributes of an element in print, each with its value between double quotes. -/
theorem Recovery.print_attribute {markup : Text} (xhtml : Bool) {t : Tag} {f : Tree}
    (h : t ∈ f.elements) : ∃ front e back, e ∈ [">".toList, " />".toList] ∧
      render xhtml f = front ++ openTag t ++ e ++ back ∧
      ∀ before q behind, t.attributes = before ++ q :: behind →
        (Recovery.of markup).print xhtml f =
          (Recovery.of markup).restore (front ++ '<' :: t.name ++ before.flatMap renderAttribute) ++
            ' ' :: (Recovery.of markup).restore q.1 ++ "=\"".toList ++
            (Recovery.of markup).restore (quoteValue q.2) ++
            '"' :: (Recovery.of markup).restore (behind.flatMap renderAttribute ++ e ++ back) := by
  obtain ⟨front, e, back, he, hrender⟩ := exists_render_eq xhtml h
  refine ⟨front, e, back, he, hrender, fun before q behind hsplit => ?_⟩
  have hpieces : front ++ openTag t ++ e ++ back =
      (front ++ '<' :: t.name ++ before.flatMap renderAttribute) ++ renderAttribute q ++
        (behind.flatMap renderAttribute ++ e ++ back) := by
    rw [openTag, hsplit]
    simp
  rw [print, hrender, hpieces]
  exact restore_attribute q _ _

end Markup

namespace Binding
open Linked Markup

/-! ## The tags of a scanned tree -/

theorem Scan.exists_firstTag_of_mem {s : Scan} {store : Store} {xs : List Attachment} {u : Tag}
    (hu : s.wrapperTag? = some u) {t : Tree} {f : Shape} (h : store.Bears t f) {t' : Tag}
    (ht : t' ∈ (s.treeAfter xs u t f).elements) :
    ∃ a v, s.firstTag? store a = some v ∧ t' = s.tagAfter xs a v ∧ (v ∈ t.elements ∨ v = u) := by
  fun_induction store.Bears t f with
  | case1 => exact absurd ht List.not_mem_nil
  | case2 t cs rest i is more ihc ihr =>
    obtain ⟨hi, hc, hr⟩ := h
    rw [treeAfter, Forest.elements, List.mem_cons, List.mem_append] at ht
    rcases ht with rfl | ht | ht
    · exact ⟨.element i, t, hi, rfl, Or.inl List.mem_cons_self⟩
    · obtain ⟨a, v, hv, he, hm⟩ := ihc hc ht
      refine ⟨a, v, hv, he, hm.imp_left fun hm => ?_⟩
      exact List.mem_cons_of_mem _ (List.mem_append_left _ hm)
    · obtain ⟨a, v, hv, he, hm⟩ := ihr hr ht
      refine ⟨a, v, hv, he, hm.imp_left fun hm => ?_⟩
      exact List.mem_cons_of_mem _ (List.mem_append_right _ hm)
  | case3 l rest i more ih =>
    rw [treeAfter] at ht
    split at ht
    · rcases List.mem_cons.1 ht with rfl | ht
      · exact ⟨.around i, u, hu, rfl, Or.inr rfl⟩
      · exact ih h.2 ht
    · exact ih h.2 ht
  | case4 => exact h.elim

variable {collapsing : Bool} {markup : Text} {tree : Tree}

theorem elements_read (h : parse collapsing markup = .ok tree) {t : Tag} (ht : t ∈ tree.elements) :
    t.Textual ∧ t.attributes.names.Nodup := by
  rw [elements_parse h] at ht
  obtain ⟨u, -, rfl⟩ := List.mem_map.1 ht
  exact ⟨Recovery.textual_tag _ u, Attributes.nodup_names_ofList _⟩

/-- A value is closed where it ends, unless a double quote is hidden in what it is made of. -/
theorem Scan.closed_value_iff {store : Store} {f : Shape} {a : Anchor} {t : Tag}
    (ht : (standardScan (.of markup)).firstTag? store a = some t) (htextual : t.Textual)
    (hnodup : t.attributes.names.Nodup) {q : Text × Value}
    (hq : q ∈ ((standardScan (.of markup)).tagAfter
      ((standardScan (.of markup)).attachments store none .nothing f) a t).attributes) :
    '"' ∉ (Recovery.of markup).restore (quoteValue q.2) ↔
      ∀ z ∈ (standardScan (.of markup)).sources
        ((standardScan (.of markup)).attachments store none .nothing f) a t q.1,
        ¬ (Recovery.of markup).HidesQuote z := by
  have hsources {k : Text × Text} (hk : k ∈ (Recovery.of markup).sections) :=
    Scan.infix_value_iff (Recovery.aside_keyComment hk) ht htextual hnodup hq
  rw [Recovery.closed_iff, Recovery.HidesQuote]
  constructor
  · rintro hnone z hz ⟨k, hk, hin, hquote⟩
    exact hnone ⟨k, hk, (hsources hk).2 ⟨z, hz, hin⟩, hquote⟩
  · rintro hnone ⟨k, hk, hin, hquote⟩
    obtain ⟨z, hz, hin⟩ := (hsources hk).1 hin
    exact hnone z hz ⟨k, hk, hin, hquote⟩

/-- A scan with nothing set comes to its end. In what is printed of its tree, every attribute of
every element has its name and its value between double quotes, and the value ends there if and
only if no section with a double quote is hidden in what it is made of. -/
theorem values_of_scan (h : parse collapsing markup = .ok tree) (xhtml : Bool) :
    let r := Recovery.of markup
    let s := standardScan r
    let store := (Document.ofTree tree).store
    let xs := s.attachments store none .nothing (numbered 0 tree)
    ∃ n p, s.run (.ofTree tree) = (.ok n, p) ∧
      ∀ t' ∈ p.document.toTree.elements, ∃ a t, s.firstTag? store a = some t ∧
        t' = s.tagAfter xs a t ∧ ∃ front e back, e ∈ [">".toList, " />".toList] ∧
          render xhtml p.document.toTree = front ++ openTag t' ++ e ++ back ∧
          ∀ before q behind, t'.attributes = before ++ q :: behind →
            r.print xhtml p.document.toTree =
              r.restore (front ++ '<' :: t'.name ++ before.flatMap renderAttribute) ++
                ' ' :: r.restore q.1 ++ "=\"".toList ++ r.restore (quoteValue q.2) ++
                '"' :: r.restore (behind.flatMap renderAttribute ++ e ++ back) ∧
            ('"' ∉ r.restore (quoteValue q.2) ↔ ∀ z ∈ s.sources xs a t q.1, ¬ r.HidesQuote z) := by
  intro r s store xs
  set u := r.tag { name := "span".toList, attributes := [] } with hu
  have hwrapper : s.wrapperTag? = some u := Scan.wrapperTag?_default _ _
  have htextual : ∀ v ∈ tree.elements, v.Textual := fun v hv => (elements_read h hv).1
  obtain ⟨n, p, hrun, htree⟩ := Scan.run_ofTree (Scan.skips_standardScan r) hwrapper htextual
  refine ⟨n, p, hrun, fun t' ht' => ?_⟩
  obtain ⟨front, e, back, he, hrender, hattribute⟩ := Recovery.print_attribute xhtml ht'
  rw [htree] at ht'
  obtain ⟨a, t, ht, hafter, hfrom⟩ :=
    Scan.exists_firstTag_of_mem hwrapper (Document.bears_ofTree tree) ht'
  have hread : t.Textual ∧ t.attributes.names.Nodup := by
    rcases hfrom with hm | rfl
    · exact elements_read h hm
    · exact ⟨Recovery.textual_tag _ _, Attributes.nodup_names_ofList _⟩
  refine ⟨a, t, ht, hafter, front, e, back, he, hrender, fun before q behind hsplit =>
    ⟨hattribute before q behind hsplit, ?_⟩⟩
  have hq : q ∈ (s.tagAfter xs a t).attributes := by
    rw [← hafter, hsplit]
    exact List.mem_append_right _ List.mem_cons_self
  exact Scan.closed_value_iff ht hread.1 hread.2 hq

/-- A section with a double quote, in a value between single quotes. -/
def sectionParagraph : Text := "<p title='<![CDATA[\"]]>'>\x7ba\x7d</p>".toList

def sectionTree : Tree :=
  .element ⟨"p".toList, .plain, [("title".toList, .text "<!--bindify-cdata-1-->".toList)]⟩
    (.leaf ⟨.text, "\x7ba\x7d".toList⟩ .nil) .nil

def sectionTreeAfter : Tree :=
  .element ⟨"p".toList, .plain, [("title".toList, .text "<!--bindify-cdata-1-->".toList),
      ("data-bind".toList, .text "text(first):this.a()".toList)]⟩
    (.leaf ⟨.text, "\x7b\x7ba()\x7d\x7d".toList⟩ .nil) .nil

/-- The double quote comes back raw, and the value is closed by it. -/
theorem values_of_scan_section : parse true sectionParagraph = .ok sectionTree ∧ ∃ p,
    (standardScan (.of sectionParagraph)).run (.ofTree sectionTree) = (.ok 1, p) ∧
      (Recovery.of sectionParagraph).print false p.document.toTree =
        ("<p title=\"<![CDATA[\"]]>\" " ++
          "data-bind=\"text(first):this.a()\">\x7b\x7ba()\x7d\x7d</p>").toList ∧
      ∃ xs a t, ∃ z ∈ (standardScan (.of sectionParagraph)).sources xs a t "title".toList,
        (Recovery.of sectionParagraph).HidesQuote z := by
  have hparse : parse true sectionParagraph = .ok sectionTree := by decide +kernel
  obtain ⟨n, p, hrun, hvalues⟩ := values_of_scan hparse false
  have hcount : ((standardScan (.of sectionParagraph)).run (.ofTree sectionTree)).1 = .ok 1 := by
    decide +kernel
  have htree : ((standardScan (.of sectionParagraph)).run
      (.ofTree sectionTree)).2.document.toTree = sectionTreeAfter := by decide +kernel
  rw [hrun] at hcount htree
  obtain rfl := Except.ok.inj hcount
  rw [htree] at hvalues
  obtain ⟨a, t, -, -, _, _, _, -, -, hattribute⟩ := hvalues _ List.mem_cons_self
  have hraw : '"' ∈ (Recovery.of sectionParagraph).restore
      (quoteValue (.text "<!--bindify-cdata-1-->".toList)) := by decide +kernel
  have hhidden := mt (hattribute [] _ _ rfl).2.2 (not_not.2 hraw)
  simp only [not_forall, not_not, exists_prop] at hhidden
  refine ⟨hparse, p, hrun, ?_, _, a, t, hhidden⟩
  rw [htree]
  decide +kernel

end Binding
end InlineBinding
