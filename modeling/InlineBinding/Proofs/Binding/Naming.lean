import InlineBinding.Proofs.Binding.Complete
import InlineBinding.Proofs.Markup.Attributes

/-!
# Names of attributes after a scan

A scan adds one name to an element at most, that of the directive as the options spell it. A
directive that the source spells in other letters is skipped, but it gets no clauses.
-/
namespace InlineBinding

namespace Markup.Attributes

/-- No two names are equal up to letter case. -/
def Distinct (as : Attributes) : Prop := (as.names.map Text.lower).Nodup

instance (as : Attributes) : Decidable as.Distinct :=
  inferInstanceAs (Decidable (List.Nodup _))

/-- No name is the given one in other letters. -/
def Spells (as : Attributes) (name : Text) : Prop :=
  ∀ n ∈ as.names, Text.lower n = Text.lower name → n = name

instance (as : Attributes) (name : Text) : Decidable (as.Spells name) :=
  inferInstanceAs (Decidable (∀ _ ∈ _, _))

theorem Distinct.spells {as : Attributes} {name : Text} (h : as.Distinct) (hn : name ∈ as.names) : as.Spells name :=
  fun _ hm he => List.inj_on_of_nodup_map h hm hn he

/-- One more name leaves the names distinct, unless it is there in other letters. -/
theorem distinct_set {as : Attributes} {name : Text} {v : Value} :
    (as.set name v).Distinct ↔ as.Distinct ∧ as.Spells name := by
  rw [Distinct, names_set]
  by_cases hn : name ∈ as.names
  · rw [if_pos hn]
    exact ⟨fun h => ⟨h, Distinct.spells h hn⟩, fun h => h.1⟩
  · rw [if_neg hn, List.map_append, List.map_singleton, ← List.concat_eq_append,
      List.nodup_concat, and_comm]
    refine and_congr_right fun _ => ⟨fun h m hm he => ?_, fun h hm => ?_⟩
    · exact absurd (List.mem_map.2 ⟨m, hm, he⟩) h
    · obtain ⟨m, hm, he⟩ := List.mem_map.1 hm
      exact hn (h m hm he ▸ hm)

end Markup.Attributes

namespace Binding
open Linked Markup

namespace Scan

variable {s : Scan} {store : Store} {xs : List Attachment} {a : Anchor} {t : Tag}

theorem names_attached {x : Attachment}
    (hx : ∀ i name value, x = .attr i name value → name ∈ t.attributes.names) (v : Value) :
    (s.attached x t).attributes.names =
      (t.attributes.set s.attacher.directiveName v).names := by
  rw [Attributes.names_set]
  cases x with
  | attr i name value =>
    have hn := hx i name value rfl
    rw [attached, Attributes.names_set, if_pos (Attributes.mem_names_set.2 (Or.inl hn)),
      Attributes.names_set]
  | text i data b place => exact Attributes.names_set _ _ _

/-- The directive is the only new name, and only with a clause. -/
theorem names_tagAfter
    (hx : ∀ i name value, .attr i name value ∈ xs → .element i = a → name ∈ t.attributes.names)
    (v : Value) :
    (s.tagAfter xs a t).attributes.names = if s.clausesAt xs a = [] then t.attributes.names
      else (t.attributes.set s.attacher.directiveName v).names := by
  induction xs generalizing t with
  | nil => rfl
  | cons x xs ih =>
    have hxs : ∀ i name value, .attr i name value ∈ xs → .element i = a →
        name ∈ t.attributes.names :=
      fun i name value h => hx i name value (List.mem_cons_of_mem x h)
    rw [tagAfter_cons, clausesAt, List.filter_cons]
    by_cases ha : x.anchor = a
    · have hattached := s.names_attached
        (fun i name value he => hx i name value (he ▸ List.mem_cons_self) (by rw [← ha, he]; rfl)) v
      have hmem {n : Text} (hn : n ∈ t.attributes.names ∨ n = s.attacher.directiveName) :
          n ∈ (s.attached x t).attributes.names := by
        rw [hattached]
        exact Attributes.mem_names_set.2 hn
      rw [if_pos ha, ih fun i name value h he => hmem (Or.inl (hxs i name value h he)),
        Attributes.names_set, if_pos (hmem (Or.inr rfl)), ite_self, hattached]
      simp [ha]
    · rw [if_neg ha, ih hxs]
      simp [ha, clausesAt]

/-- What is neither the directive nor attached stays as it was. -/
theorem get?_tagAfter_of_ne {name : Text} (hn : name ≠ s.attacher.directiveName)
    (hx : ∀ i value, .attr i name value ∈ xs → .element i ≠ a) :
    (s.tagAfter xs a t).attributes.get? name = t.attributes.get? name := by
  induction xs generalizing t with
  | nil => rfl
  | cons x xs ih =>
    rw [tagAfter_cons, ih fun i value h => hx i value (List.mem_cons_of_mem x h)]
    split
    · rename_i ha
      cases x with
      | attr i other value =>
        have ho : other ≠ name := fun h => hx i value (h ▸ List.mem_cons_self) ha
        rw [attached, Attributes.get?_set_of_ne ho, Attributes.get?_set_of_ne hn.symm]
      | text i data b place => exact Attributes.get?_set_of_ne hn.symm
    · rfl

/-- Nothing but the directive is new, so that names stay distinct without its other spellings. -/
theorem distinct_tagAfter
    (hx : ∀ i name value, .attr i name value ∈ xs → .element i = a → name ∈ t.attributes.names) :
    (s.tagAfter xs a t).attributes.Distinct ↔ t.attributes.Distinct ∧
      (s.clausesAt xs a = [] ∨ t.attributes.Spells s.attacher.directiveName) := by
  have hset : (t.attributes.set s.attacher.directiveName .null).Distinct ↔ t.attributes.Distinct ∧
      t.attributes.Spells s.attacher.directiveName := Attributes.distinct_set
  rw [Attributes.Distinct] at hset ⊢
  rw [names_tagAfter hx .null]
  split
  · rename_i hc
    exact ⟨fun h => ⟨h, Or.inl hc⟩, fun h => h.1⟩
  · rename_i hc
    exact hset.trans (and_congr_right fun _ => ⟨Or.inr, fun h => h.resolve_left hc⟩)

theorem nodup_names_tagAfter (xs : List Attachment) (a : Anchor)
    (ht : t.attributes.names.Nodup) : (s.tagAfter xs a t).attributes.names.Nodup :=
  attributes_tagAfter (P := fun as => as.names.Nodup)
    (fun _ name v h => Attributes.nodup_names_set h name (.text v)) xs a ht

/-- What attaching `xs` makes of the tag `t` of an anchor. Its clauses go into the directive, and
the attributes that spell the directive's name in other letters have no part in that. -/
structure Directed (s : Scan) (xs : List Attachment) (a : Anchor) (t t' : Tag) : Prop where
  names : t'.attributes.names =
    if s.clausesAt xs a = [] ∨ s.attacher.directiveName ∈ t.attributes.names
    then t.attributes.names else t.attributes.names ++ [s.attacher.directiveName]
  merged : t'.attributes.get? s.attacher.directiveName =
    s.attacher.directiveWith t (s.clausesAt xs a)
  others : ∀ name ≠ s.attacher.directiveName,
    Text.lower name = Text.lower s.attacher.directiveName →
      t'.attributes.get? name = t.attributes.get? name
  distinct : t'.attributes.Distinct ↔ t.attributes.Distinct ∧
    (s.clausesAt xs a = [] ∨ t.attributes.Spells s.attacher.directiveName)

theorem name_mem_of_attr {owner : Option Id} {before : Before} {f : Shape} {i : Id}
    {name value : Text} (h : .attr i name value ∈ s.attachments store owner before f)
    (ht : store.tag? i = some t) : name ∈ t.attributes.names := by
  obtain ⟨u, hu, hmem, -⟩ := exists_tag_of_mem (mem_boundAttributes_of_mem h)
  rw [ht] at hu
  rw [Option.some.inj hu]
  exact List.mem_map_of_mem hmem

theorem directed_tagAfter {f : Shape}
    (hskip : s.skipped.contains (Text.lower s.attacher.directiveName) = true)
    (htidy : ∀ x, Attacher.Tidy (s.clause x)) (ht : s.firstTag? store a = some t) :
    s.Directed (s.attachments store none .nothing f) a t
      (s.tagAfter (s.attachments store none .nothing f) a t) := by
  have hmem : ∀ i name value, .attr i name value ∈ s.attachments store none .nothing f →
      .element i = a → name ∈ t.attributes.names := by
    rintro i name value h rfl
    exact name_mem_of_attr h ht
  refine ⟨?_, get?_tagAfter (fun x _ => htidy x) ?_ t, ?_, distinct_tagAfter hmem⟩
  · rw [names_tagAfter hmem .null, Attributes.names_set]
    split <;> simp [*]
  · exact fun i value h => absurd rfl (name_ne_of_mem hskip (mem_boundAttributes_of_mem h))
  · intro name hn he
    refine get?_tagAfter_of_ne hn fun i value h => ?_
    exact absurd he (lower_ne_of_mem hskip (mem_boundAttributes_of_mem h))

end Scan

variable {d : Document} {f : Shape} {n : ℕ} {p : Progress}

/-- Names that were distinct are distinct after a scan if and only if no element with a clause
spells the directive's name in other letters, and wrappers come with distinct names themselves. -/
theorem Scan.distinct_iff_of_run {o : Options} (ho : o.bindingAttribute ∈ o.skipAttributes)
    {ms : LiteralMarks} (hm : ms.Unquoted) (r : Recovery) (hd : d.Shows f)
    (hf : ∀ i ∈ f.labels, ∀ t, d.store.tag? i = some t → t.attributes.Distinct)
    (hrun : (Scan.of o r { Attacher.ofOptions o with marks := ms }).run d = (.ok n, p)) :
    let s := Scan.of o r { Attacher.ofOptions o with marks := ms }
    let xs := s.attachments d.store none .nothing f
    ∃ w, p.document.Shows (f.wrap w) ∧
      (∀ j ∈ (f.wrap w).labels, ∃! a : Anchor, a.In f ∧ a.id? w = some j) ∧
      (∀ (a : Anchor) j, a.In f → a.id? w = some j → ∀ t', p.document.store.tag? j = some t' →
        ∃ t, s.firstTag? d.store a = some t ∧ s.Directed xs a t t') ∧
      ((∀ j ∈ (f.wrap w).labels, ∀ t', p.document.store.tag? j = some t' →
          t'.attributes.Distinct) ↔
        ∀ x ∈ xs, ∀ t, s.firstTag? d.store x.anchor = some t →
          t.attributes.Distinct ∧ t.attributes.Spells o.bindingAttribute) := by
  intro s xs
  have hskip : s.skipped.contains (Text.lower s.attacher.directiveName) = true :=
    Options.skips_bindingAttribute ho
  have htidy : ∀ x, Attacher.Tidy (s.clause x) := Scan.tidy_clause rfl hm
  obtain ⟨-, w, hw, hused⟩ := Scan.reached_of_run hd hskip hrun
  have hdirected (a : Anchor) (j : Id) (ha : a.In f) (hj : a.id? w = some j) (t' : Tag)
      (ht' : p.document.store.tag? j = some t') :
      ∃ t, s.firstTag? d.store a = some t ∧ s.Directed xs a t t' := by
    rw [hw.tag?_eq ha hj, Option.map_eq_some_iff] at ht'
    obtain ⟨t, ht, rfl⟩ := ht'
    exact ⟨t, ht, directed_tagAfter hskip htidy ht⟩
  refine ⟨w, hw.shows, fun j => hw.anchors, hdirected, fun h x hx t ht => ?_, fun h j hj t' ht' => ?_⟩
  · have ha := Scan.anchor_of hx
    obtain ⟨j, hj, hmem⟩ := hw.exists_id hx ha
    have ht' : p.document.store.tag? j = some (s.tagAfter xs x.anchor t) := by
      rw [hw.tag?_eq ha.belongs hj, ht, Option.map_some]
    have hdist := (directed_tagAfter hskip htidy ht).distinct.1 (h j hmem _ ht')
    exact ⟨hdist.1, hdist.2.resolve_left fun hc => clausesAt_eq_nil_iff.1 hc x hx rfl⟩
  · obtain ⟨a, ⟨ha, haj⟩, -⟩ := hw.anchors hj
    obtain ⟨t, ht, hdir⟩ := hdirected a j ha haj t' ht'
    rw [hdir.distinct]
    by_cases hx : ∃ x ∈ xs, x.anchor = a
    · obtain ⟨x, hx, rfl⟩ := hx
      exact (h x hx t ht).imp id Or.inr
    · refine ⟨?_, Or.inl (clausesAt_eq_nil_iff.2 fun x hxs ha => hx ⟨x, hxs, ha⟩)⟩
      cases a with
      | element i => exact hf i ha t ht
      | around i =>
        have hwi : w i = some j := haj
        exact absurd ((hused i).1 (by simp [hwi])) hx

/-- Directives with clauses to come, spelled as in the options and in other letters. -/
def spellings : Tree :=
  .element ⟨"p".toList, .plain, [("data-bind".toList, .text "x:1".toList),
      ("title".toList, .text "\x7ba\x7d".toList)]⟩
    (.leaf ⟨.text, "\x7bb\x7d".toList⟩ .nil)
    (.element ⟨"p".toList, .plain, [("Data-Bind".toList, .text "x:1".toList)]⟩
      (.leaf ⟨.text, "\x7bc\x7d".toList⟩ .nil) .nil)

theorem spellings_run : (rowScan.run (.ofTree spellings)).1 = .ok 3 := by decide +kernel

theorem spellings_distinct : ∀ i ∈ (numbered 0 spellings).labels, ∀ t : Tag,
    (Document.ofTree spellings).store.tag? i = some t → t.attributes.Distinct := by
  have h : ∀ i ∈ (numbered 0 spellings).labels,
      ((Document.ofTree spellings).store.tag? i).all fun t => t.attributes.Distinct := by
    decide +kernel
  intro i hi t ht
  have h := h i hi
  rwa [ht, Option.all_some, decide_eq_true_eq] at h

theorem spellings_not_distinct :
    ∃ w, (rowScan.run (.ofTree spellings)).2.document.Shows ((numbered 0 spellings).wrap w) ∧
      ¬ ∀ j ∈ ((numbered 0 spellings).wrap w).labels, ∀ t : Tag,
        (rowScan.run (.ofTree spellings)).2.document.store.tag? j = some t →
          t.attributes.Distinct := by
  have ho : Options.default.bindingAttribute ∈ Options.default.skipAttributes := by decide
  have hm : LiteralMarks.Unquoted [] := fun _ h => absurd h List.not_mem_nil
  obtain ⟨w, hshows, -, -, hiff⟩ := Scan.distinct_iff_of_run ho hm (.of [])
    (Document.shows_ofTree spellings) spellings_distinct (Prod.ext spellings_run rfl)
  refine ⟨w, hshows, fun h => ?_⟩
  have hx : .text 3 "\x7bc\x7d".toList (.element 2) .first ∈ rowScan.attachments
      (Document.ofTree spellings).store none .nothing (numbered 0 spellings) := by decide +kernel
  have hspells := (hiff.1 h _ hx ⟨"p".toList, .plain, [("Data-Bind".toList, .text "x:1".toList)]⟩
    (by decide +kernel)).2
  revert hspells
  decide +kernel

end Binding
end InlineBinding
