import InlineBinding.Proofs.Binding.Naming
import InlineBinding.Proofs.Delimiters.Words
import InlineBinding.Proofs.Linked.Gathering

/-!
# Words that a scan keeps

A scan rewrites bound values and texts and extends directives. A word without white space that no
binding delimiter cuts stays in each of them, so whatever a document holds of such words it holds
when it is printed.
-/
namespace InlineBinding

namespace Markup

variable {w : Text}

/-- A word of a tag's name, or of an attribute's name or value. -/
def Tag.Holds (w : Text) (t : Tag) : Prop :=
  w <:+: t.name ∨ ∃ n v, t.attributes.get? n = some (.text v) ∧ (w <:+: n ∨ w <:+: v)

theorem Tag.holds_iff {t : Tag} : t.Holds w ↔ w <:+: t.name ∨ ∃ a ∈ t.attributes,
    t.attributes.get? a.1 = some a.2 ∧ a.2 = .text a.2.render ∧
      (w <:+: a.1 ∨ w <:+: a.2.render) := by
  constructor
  · rintro (h | ⟨n, v, hg, h⟩)
    · exact Or.inl h
    · obtain ⟨as, bs, he, -⟩ := List.lookup_eq_some_iff.1 hg
      exact Or.inr ⟨(n, .text v), he ▸ List.mem_append_right _ List.mem_cons_self, hg, rfl, h⟩
  · rintro (h | ⟨a, -, hg, hv, h⟩)
    · exact Or.inl h
    · exact Or.inr ⟨a.1, a.2.render, hv ▸ hg, h⟩

instance (t : Tag) : Decidable (t.Holds w) := decidable_of_iff _ Tag.holds_iff.symm

theorem Tag.Holds.infix_openTag {t : Tag} (hq : '"' ∉ w) (h : t.Holds w) : w <:+: openTag t := by
  rcases h with h | ⟨n, v, hg, h⟩
  · exact h.trans ⟨['<'], t.attributes.flatMap renderAttribute, rfl⟩
  · refine List.IsInfix.trans ?_ (renderAttribute_infix_openTag hg)
    rcases h with h | ⟨a, b, rfl⟩
    · exact h.trans ⟨[' '], "=\"".toList ++ quoteValue (.text v) ++ ['"'], by simp [renderAttribute]⟩
    · rw [renderAttribute, quoteValue_append, quoteValue_append, quoteValue_eq_self hq]
      exact ⟨' ' :: n ++ "=\"".toList ++ quoteValue (.text a), quoteValue (.text b) ++ ['"'],
        by simp⟩

end Markup

namespace Linked
open Markup

theorem Store.Bears.exists_of_any {s : Store} {t : Tree} {f : Shape} {P : Tag → Prop}
    {Q : Leaf → Prop} (h : s.Bears t f) (ha : t.Any P Q) :
    ∃ i ∈ f.labels, (∃ u, s.tag? i = some u ∧ P u) ∨ ∃ l, s.leaf? i = some l ∧ Q l := by
  fun_induction s.Bears t f with
  | case1 => exact ha.elim
  | case2 t cs rest i is more ihc ihr =>
    obtain ⟨ht, hc, hr⟩ := h
    rcases ha with ha | ha | ha
    · exact ⟨i, List.mem_cons_self, Or.inl ⟨t, ht, ha⟩⟩
    · obtain ⟨j, hj, hp⟩ := ihc hc ha
      exact ⟨j, Forest.mem_labels_of_children hj, hp⟩
    · obtain ⟨j, hj, hp⟩ := ihr hr ha
      exact ⟨j, Forest.mem_labels_of_rest hj, hp⟩
  | case3 l rest i more ih =>
    rcases ha with ha | ha
    · exact ⟨i, List.mem_cons_self, Or.inr ⟨l, h.1, ha⟩⟩
    · obtain ⟨j, hj, hp⟩ := ih h.2 ha
      exact ⟨j, List.mem_cons_of_mem i hj, hp⟩
  | case4 => exact h.elim

end Linked

namespace Binding
open Linked Markup

theorem Attacher.infix_opened {w v : Text} (hw : w.Solid) (h : w <:+: v) :
    w <:+: opened v := by
  have ht := hw.infix_trim h
  rw [opened]
  split
  · exact ht
  · exact ht.trans (List.prefix_append _ _).isInfix

namespace Scan

variable {s : Scan} {store : Store} {f : Shape} {w : Text} {i : Id}

theorem name_attached (x : Attachment) (t : Tag) : (s.attached x t).name = t.name := by
  cases x <;> rfl

theorem name_tagAfter (xs : List Attachment) (a : Anchor) (t : Tag) :
    (s.tagAfter xs a t).name = t.name := by
  induction xs generalizing t with
  | nil => rfl
  | cons x xs ih =>
    rw [tagAfter_cons, ih]
    split
    · exact name_attached x t
    · rfl

/-- A bound attribute is replaced by its placeholder. -/
theorem get?_tagAfter_of_mem {xs : List Attachment} {name value : Text} {t : Tag}
    (hx : .attr i name value ∈ xs) (hu : ∀ v, .attr i name v ∈ xs → v = value)
    (hn : name ≠ s.attacher.directiveName) :
    (s.tagAfter xs (.element i) t).attributes.get? name =
      some (.text (s.placeholder (.attr i name value))) := by
  induction xs generalizing t with
  | nil => exact absurd hx List.not_mem_nil
  | cons x xs ih =>
    have hu' : ∀ v, .attr i name v ∈ xs → v = value :=
      fun v h => hu v (List.mem_cons_of_mem x h)
    rw [tagAfter_cons]
    by_cases hlater : .attr i name value ∈ xs
    · exact ih hlater hu'
    · obtain rfl := (List.mem_cons.1 hx).resolve_right hlater
      have hnone (j : Id) (v : Text) (h : .attr j name v ∈ xs) : Anchor.element j ≠ .element i := by
        intro he
        obtain rfl := Anchor.element.inj he
        exact hlater (hu' v h ▸ h)
      have ha : (Attachment.attr i name value).anchor = .element i := rfl
      rw [get?_tagAfter_of_ne hn hnone, if_pos ha]
      exact Attributes.get?_set_self _ _ _

/-- What is attached to an attribute has its value. -/
theorem get?_of_attr_mem {t : Tag} (ht : store.tag? i = some t) (hu : t.attributes.names.Nodup)
    {name value : Text} (hx : .attr i name value ∈ s.attachments store none .nothing f) :
    t.attributes.get? name = some (.text value) := by
  obtain ⟨t', ht', hmem, -⟩ := exists_tag_of_mem (mem_boundAttributes_of_mem hx)
  obtain rfl := Option.some.inj (ht.symm.trans ht')
  exact Attributes.get?_of_mem hu hmem

theorem get?_tagAfter_attachments {t : Tag} (ht : store.tag? i = some t)
    (hu : t.attributes.names.Nodup) {name value : Text} (hn : name ≠ s.attacher.directiveName)
    (hx : .attr i name value ∈ s.attachments store none .nothing f) :
    (s.tagAfter (s.attachments store none .nothing f) (.element i) t).attributes.get? name =
      some (.text (s.placeholder (.attr i name value))) := by
  refine get?_tagAfter_of_mem hx (fun v hv => ?_) hn
  have he := (get?_of_attr_mem ht hu hv).symm.trans (get?_of_attr_mem ht hu hx)
  exact Value.text.inj (Option.some.inj he)

theorem leaf_of_mem {owner : Option Id} {before : Before} {data : Text} {a : Anchor}
    {place : Place} (h : .text i data a place ∈ s.attachments store owner before f) :
    store.leaf? i = some ⟨.text, data⟩ := by
  induction f generalizing owner before with
  | nil => exact absurd h List.not_mem_nil
  | element j cs rest ihc ihr =>
    rw [attachments, List.mem_append, List.mem_append, List.mem_map] at h
    rcases h with ⟨a, -, he⟩ | h | h
    · exact absurd he (by simp)
    · exact ihc h
    · exact ihr h
  | leaf j rest ih =>
    rw [attachments] at h
    split at h
    · exact ih h
    · rename_i u hb
      rcases List.mem_cons.1 h with he | h
      · obtain ⟨rfl, rfl, -, -⟩ := Attachment.text.inj he
        exact (boundText?_eq_some_iff.1 hb).1
      · exact ih h

theorem leafAfter_cases (xs : List Attachment) (i : Id) (l : Leaf) : s.leafAfter xs i l = l ∨
    ∃ data a place, .text i data a place ∈ xs ∧
      s.leafAfter xs i l = { l with data := s.placeholder (.text i data a place) } := by
  induction xs generalizing l with
  | nil => exact Or.inl rfl
  | cons x xs ih =>
    rw [leafAfter_cons]
    have hlater {m : Leaf} (h : ∃ data a place, .text i data a place ∈ xs ∧ s.leafAfter xs i m =
        { m with data := s.placeholder (.text i data a place) }) (hm : m.kind = l.kind) :
        ∃ data a place, .text i data a place ∈ x :: xs ∧ s.leafAfter xs i m =
          { l with data := s.placeholder (.text i data a place) } := by
      obtain ⟨data, a, place, hx, he⟩ := h
      exact ⟨data, a, place, List.mem_cons_of_mem x hx, by rw [he, hm]⟩
    cases x with
    | attr j name value => exact (ih l).imp id fun h => hlater h rfl
    | text j data a place =>
      rw [replaced]
      split
      · rename_i hj
        obtain rfl := hj
        refine Or.inr ((ih { l with data := s.placeholder (.text j data a place) }).elim
          (fun he => ?_) fun h => hlater h rfl)
        exact ⟨data, a, place, List.mem_cons_self, he⟩
      · exact (ih l).imp id fun h => hlater h rfl

section Words

variable (hd : s.delimiters.Apart w) (hw : w.Solid)

include hd hw

/-- A value keeps its words, whether it is bound, a directive, or neither. -/
theorem exists_get?_tagAfter
    (hskip : s.skipped.contains (Text.lower s.attacher.directiveName) = true)
    (htidy : ∀ x, Attacher.Tidy (s.clause x)) {t : Tag} (ht : store.tag? i = some t)
    (hu : t.attributes.names.Nodup) {n v : Text} (hg : t.attributes.get? n = some (.text v)) :
    ∃ v', (s.tagAfter (s.attachments store none .nothing f) (.element i) t).attributes.get? n =
      some (.text v') ∧ (w <:+: v → w <:+: v') := by
  have hdirected := directed_tagAfter (f := f) hskip htidy (a := .element i) ht
  by_cases hn : n = s.attacher.directiveName
  · subst hn
    have htext : s.attacher.directiveText t = v := by rw [Attacher.directiveText, hg]
    rw [hdirected.merged]
    cases s.clausesAt (s.attachments store none .nothing f) (.element i) with
    | nil => exact ⟨v, hg, id⟩
    | cons c cs =>
      refine ⟨_, rfl, fun h => ?_⟩
      rw [htext]
      exact (Attacher.infix_opened hw h).trans (List.prefix_append _ _).isInfix
  · by_cases hx : ∃ value, .attr i n value ∈ s.attachments store none .nothing f
    · obtain ⟨value, hx⟩ := hx
      obtain rfl := Value.text.inj (Option.some.inj (hg.symm.trans (get?_of_attr_mem ht hu hx)))
      refine ⟨_, get?_tagAfter_attachments ht hu hn hx, fun h => ?_⟩
      exact hd.infix_placeholder hw _ _ h
    · refine ⟨v, (get?_tagAfter_of_ne hn fun j value h he => ?_).trans hg, id⟩
      obtain rfl := Anchor.element.inj he
      exact hx ⟨value, h⟩

theorem holds_tagAfter (hskip : s.skipped.contains (Text.lower s.attacher.directiveName) = true)
    (htidy : ∀ x, Attacher.Tidy (s.clause x)) {t : Tag} (ht : store.tag? i = some t)
    (hu : t.attributes.names.Nodup) (h : t.Holds w) :
    (s.tagAfter (s.attachments store none .nothing f) (.element i) t).Holds w := by
  rcases h with h | ⟨n, v, hg, h⟩
  · exact Or.inl ((name_tagAfter _ _ t).symm ▸ h)
  · obtain ⟨v', hg', hv⟩ := exists_get?_tagAfter (f := f) hd hw hskip htidy ht hu hg
    exact Or.inr ⟨n, v', hg', h.imp id hv⟩

theorem infix_leafAfter {l : Leaf} (hl : store.leaf? i = some l) (h : w <:+: renderLeaf l) :
    w <:+: renderLeaf (s.leafAfter (s.attachments store none .nothing f) i l) := by
  rcases leafAfter_cases (s := s) (s.attachments store none .nothing f) i l with
    he | ⟨data, a, place, hx, he⟩
  · rwa [he]
  · obtain rfl := Option.some.inj (hl.symm.trans (leaf_of_mem hx))
    rw [he]
    exact hd.infix_placeholder hw s.attacher.output s.attacher.marks h

end Words

/-- Words of the tree that is scanned are words of what is printed. -/
theorem infix_render_of_run {o : Options} (ho : o.bindingAttribute ∈ o.skipAttributes)
    {ms : LiteralMarks} (hm : ms.Unquoted) (r : Recovery) {t : Tree} {n : ℕ} {p : Progress}
    (hrun : (Scan.of o r { Attacher.ofOptions o with marks := ms }).run (.ofTree t) = (.ok n, p))
    (hd : o.bindingDelimiters.Apart w) (hw : w.Solid) (hq : '"' ∉ w)
    (ht : t.Any (fun u => u.Holds w ∧ u.attributes.names.Nodup) (w <:+: renderLeaf ·)) :
    w <:+: render o.xhtmlMode p.document.toTree := by
  set s := Scan.of o r { Attacher.ofOptions o with marks := ms }
  have hskip : s.skipped.contains (Text.lower s.attacher.directiveName) = true :=
    Options.skips_bindingAttribute ho
  have htidy : ∀ x, Attacher.Tidy (s.clause x) := Scan.tidy_clause rfl hm
  have hd' : s.delimiters.Apart w := hd
  obtain ⟨-, wrappers, hreached, -⟩ :=
    Scan.reached_of_run (Document.shows_ofTree t) hskip hrun
  obtain ⟨i, hi, hnode⟩ := (Document.bears_ofTree t).exists_of_any ht
  have hdepth : ((numbered 0 t).wrap wrappers).height ≤ p.document.store.size + 1 :=
    Nat.le_succ_of_le hreached.shows.height_le
  rw [Document.toTree, Store.tree, hreached.shows.roots]
  apply infix_render_of_any
  refine Store.any_harvest hreached.shows.owns hdepth
    (Forest.mem_labels_wrap_of_mem wrappers hi) ?_
  rcases hnode with ⟨u, hu, hholds, hnodup⟩ | ⟨l, hl, hleaf⟩
  · refine Or.inl ⟨_, by rw [hreached.tags i hi, hu]; rfl, ?_⟩
    exact (holds_tagAfter hd' hw hskip htidy hu hnodup hholds).infix_openTag hq
  · refine Or.inr ⟨_, by rw [hreached.leaves i hi, hl]; rfl, ?_⟩
    exact infix_leafAfter hd' hw hl hleaf

end Scan
end Binding
end InlineBinding
