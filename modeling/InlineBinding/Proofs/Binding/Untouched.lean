import InlineBinding.Proofs.Binding.Finished
import InlineBinding.Proofs.Binding.Retained

/-!
# What a scan leaves as it was

Bound texts, bound attributes and the directives of anchors change, and wrappers come in.  The rest
of a document is after a scan what it was before: names, kinds, the other attributes in their order,
comments, declarations, raw text, and the arrangement but for the wrappers.
-/
namespace InlineBinding.Binding
open Linked Markup

namespace Scan

section Definitions

variable (s : Scan)

/-- A text with a binding, outside of scripts and styles. -/
structure BindsText (store : Store) (i : Id) (data : Text) : Prop where
  leaf : store.leaf? i = some ⟨.text, data⟩
  unraw : isRaw store ((store.get? i).bind Node.parent) = false
  bound : s.delimiters.hasBindings data = true

/-- What stands in the place of a bound text. -/
def placeholderOf (t : Text) : Text := (s.attacher.compile (s.delimiters.split t)).placeholder

/-- The places where a binding is found. -/
def Binds (store : Store) : Site → Prop
  | .attr i name value => ∃ t, store.tag? i = some t ∧ s.BindsAttribute t name value
  | .text i data => s.BindsText store i data

/-- What a tag may become when it gets the clauses `cs` and its bound attributes are `binds`. -/
structure Reworked (binds : Text → Text → Prop) (cs : List Text) (t t' : Tag) : Prop where
  name : t'.name = t.name
  kind : t'.kind = t.kind
  names : t'.attributes.names =
    if cs = [] ∨ s.attacher.directiveName ∈ t.attributes.names then t.attributes.names
    else t.attributes.names ++ [s.attacher.directiveName]
  directive : t'.attributes.get? s.attacher.directiveName =
    if cs = [] then t.attributes.get? s.attacher.directiveName
    else some (.text (cs.foldl Attacher.extend (s.attacher.directiveText t)))
  bound : t.attributes.names.Nodup → ∀ name value, binds name value →
    t'.attributes.get? name = some (.text (s.placeholderOf value))
  others : ∀ name ≠ s.attacher.directiveName, (∀ value, ¬ binds name value) →
    t'.attributes.get? name = t.attributes.get? name

/-- What a scan of the document `d`, arranged as `f`, has left as it was. The wrappers `w` stand
around bound texts and have got nothing but a directive. -/
structure Frame (d : Document) (f : Shape) (w : Id → Option Id) (p : Progress) : Prop where
  shows : p.document.Shows (f.wrap w)
  wrappers : ∀ i j, w i = some j → j ∉ f.labels ∧ (∃ data, s.BindsText d.store i data) ∧
    ∃ t t', s.wrapperTag? = some t ∧ p.document.store.tag? j = some t' ∧
      s.Reworked (fun _ _ => False)
        (s.clausesAt (s.attachments d.store none .nothing f) (.around i)) t t'
  elements : ∀ i ∈ f.labels, ∀ t, d.store.tag? i = some t →
    ∃ t', p.document.store.tag? i = some t' ∧ s.Reworked (s.BindsAttribute t)
      (s.clausesAt (s.attachments d.store none .nothing f) (.element i)) t t'
  texts : ∀ i ∈ f.labels, ∀ data, s.BindsText d.store i data →
    p.document.store.leaf? i = some ⟨.text, s.placeholderOf data⟩
  leaves : ∀ i ∈ f.labels, (∀ data, ¬ s.BindsText d.store i data) →
    p.document.store.leaf? i = d.store.leaf? i

end Definitions

/-! ## Bound places -/

section Places

variable {s : Scan} {store : Store} {d : Document} {f : Shape} {i : Id} {data : Text}

theorem bindsText_iff {owner prev next : Option Id} (h : store.links? i = some ⟨owner, prev, next⟩) :
    s.BindsText store i data ↔ s.boundText? store owner i = some data := by
  obtain ⟨n, hn, hlinks⟩ := Option.map_eq_some_iff.1 h
  have hparent : (store.get? i).bind Node.parent = owner := by
    rw [hn]
    exact (Links.mk.inj hlinks).1
  rw [boundText?_eq_some_iff]
  exact ⟨fun h => ⟨h.leaf, hparent ▸ h.unraw, h.bound⟩, fun h => ⟨h.1, hparent.symm ▸ h.2.1, h.2.2⟩⟩

/-- At an element its bound attributes are found. -/
theorem mem_own_iff {cs : List Id} (h : store.parts? i = some (some cs)) (x : Site) :
    x ∈ (s.boundAttributes store i).map (fun a => Site.attr i a.1 a.2) ↔
      x.node = i ∧ s.Binds store x := by
  cases x with
  | attr j name value =>
    rw [List.mem_map, Binds, ← mem_boundAttributes_iff]
    constructor
    · rintro ⟨a, ha, he⟩
      obtain ⟨rfl, rfl, rfl⟩ := Site.attr.inj he
      exact ⟨rfl, ha⟩
    · rintro ⟨rfl, ha⟩
      exact ⟨_, ha, rfl⟩
  | text j data =>
    refine iff_of_false (by simp) ?_
    rintro ⟨hj, hb⟩
    obtain rfl : j = i := hj
    obtain ⟨n, t, hn, hc, -⟩ := Store.tag?_of_parts? h
    have hleaf := hb.leaf
    rw [Store.leaf?_eq, hn, Option.map_some, hc] at hleaf
    exact absurd hleaf (by simp [Content.leaf?])

/-- At a leaf there may be a text. -/
theorem binds_leaf_iff {owner prev next : Option Id}
    (hl : store.links? i = some ⟨owner, prev, next⟩) (hp : store.parts? i = some none) (x : Site) :
    x.node = i ∧ s.Binds store x ↔
      ∃ data, s.boundText? store owner i = some data ∧ x = .text i data := by
  cases x with
  | attr j name value =>
    refine iff_of_false ?_ (by simp)
    rintro ⟨hj, t, ht, -⟩
    obtain rfl : j = i := hj
    obtain ⟨-, -, -, -, -, hnone⟩ := Store.leaf?_of_parts? hp
    rw [ht] at hnone
    exact absurd hnone (by simp)
  | text j data =>
    constructor
    · rintro ⟨rfl, hb⟩
      exact ⟨data, (bindsText_iff hl).1 hb, rfl⟩
    · rintro ⟨u, hb, he⟩
      obtain ⟨rfl, rfl⟩ := Site.text.inj he
      exact ⟨rfl, (bindsText_iff hl).2 hb⟩

/-- The bound places of a document are those where a binding is found. -/
theorem mem_sites_iff (hd : d.Shows f) {owner : Option Id} {done todo : Shape}
    (hl : f.Level owner (done ++ todo)) (x : Site) :
    x ∈ s.sites d.store owner todo ↔ x.node ∈ todo.labels ∧ s.Binds d.store x := by
  induction todo generalizing owner done with
  | nil => simp [sites, Forest.labels]
  | element j cs rest ihc ihr =>
    have hparts := (Store.owns_append.1 (hd.owns_level hl)).2.1
    have hlc : f.Level (some j) (.nil ++ cs) := hl.child
    rw [sites, List.mem_append, List.mem_append, mem_own_iff hparts, ihc hlc, ihr hl.past_element,
      Forest.labels, List.mem_cons, List.mem_append, or_and_right, or_and_right]
  | leaf j rest ih =>
    have hparts := (Store.owns_append.1 (hd.owns_level hl)).2.1
    have hlinks := (hd.leads_level hl).right.1
    rw [Forest.labels, List.mem_cons, or_and_right, ← ih hl.past_leaf, binds_leaf_iff hlinks hparts,
      sites]
    cases s.boundText? d.store owner j with
    | none => simp
    | some data => simp

theorem exists_attachment_iff (hd : d.Shows f) (x : Site) :
    (∃ y ∈ s.attachments d.store none .nothing f, y.site = x) ↔
      x.node ∈ f.labels ∧ s.Binds d.store x := by
  have hl : f.Level none (.nil ++ f) := rfl
  rw [← mem_sites_iff hd hl, ← map_site_attachments none .nothing f, List.mem_map]

theorem attr_mem_iff (hd : d.Shows f) {name value : Text} :
    .attr i name value ∈ s.attachments d.store none .nothing f ↔
      i ∈ f.labels ∧ ∃ t, d.store.tag? i = some t ∧ s.BindsAttribute t name value := by
  refine Iff.trans ⟨fun h => ⟨_, h, rfl⟩, ?_⟩ (exists_attachment_iff hd (.attr i name value))
  rintro ⟨x, hx, he⟩
  cases x with
  | attr j m v =>
    obtain ⟨rfl, rfl, rfl⟩ := Site.attr.inj he
    exact hx
  | text j data a place => exact absurd he (by simp [Attachment.site])

theorem exists_text_mem_iff (hd : d.Shows f) :
    (∃ a place, .text i data a place ∈ s.attachments d.store none .nothing f) ↔
      i ∈ f.labels ∧ s.BindsText d.store i data := by
  refine Iff.trans ⟨?_, ?_⟩ (exists_attachment_iff hd (.text i data))
  · rintro ⟨a, place, h⟩
    exact ⟨_, h, rfl⟩
  · rintro ⟨x, hx, he⟩
    cases x with
    | attr j name value => exact absurd he (by simp [Attachment.site])
    | text j u a place =>
      obtain ⟨rfl, rfl⟩ := Site.text.inj he
      exact ⟨a, place, hx⟩

theorem bindsText_of_mem (hd : d.Shows f) {a : Anchor} {place : Place}
    (h : .text i data a place ∈ s.attachments d.store none .nothing f) :
    s.BindsText d.store i data := ((exists_text_mem_iff hd).1 ⟨a, place, h⟩).2

end Places

/-! ## Leaves -/

section Leaves

variable {s : Scan} {d : Document} {f : Shape} {i : Id} {data : Text}

/-- A text that is attached is replaced by its placeholder. -/
theorem leafAfter_of_mem {xs : List Attachment}
    (hx : ∃ a place, .text i data a place ∈ xs)
    (hu : ∀ u a place, .text i u a place ∈ xs → u = data) {l : Leaf} :
    s.leafAfter xs i l = ⟨l.kind, s.placeholderOf data⟩ := by
  induction xs generalizing l with
  | nil =>
    obtain ⟨a, place, hx⟩ := hx
    exact absurd hx List.not_mem_nil
  | cons x xs ih =>
    have hu' : ∀ u a place, .text i u a place ∈ xs → u = data :=
      fun u a place h => hu u a place (List.mem_cons_of_mem x h)
    rw [leafAfter_cons]
    by_cases hlater : ∃ a place, .text i data a place ∈ xs
    · rw [ih hlater hu']
      cases x with
      | attr j name value => rfl
      | text j u a place =>
        rw [replaced]
        split <;> rfl
    · obtain ⟨a, place, hx⟩ := hx
      obtain rfl := (List.mem_cons.1 hx).resolve_right fun h => hlater ⟨a, place, h⟩
      have hreplaced : s.replaced (.text i data a place) i l = ⟨l.kind, s.placeholderOf data⟩ :=
        if_pos rfl
      rw [hreplaced]
      rcases leafAfter_cases (s := s) xs i ⟨l.kind, s.placeholderOf data⟩ with
        he | ⟨u, b, place', h, -⟩
      · exact he
      · obtain rfl := hu' u b place' h
        exact absurd ⟨b, place', h⟩ hlater

theorem leafAfter_of_binds (hd : d.Shows f) (hi : i ∈ f.labels) (hb : s.BindsText d.store i data) :
    s.leafAfter (s.attachments d.store none .nothing f) i ⟨.text, data⟩ =
      ⟨.text, s.placeholderOf data⟩ := by
  refine leafAfter_of_mem ((exists_text_mem_iff hd).2 ⟨hi, hb⟩) fun u a place h => ?_
  have hleaf := (bindsText_of_mem hd h).leaf
  rw [hb.leaf] at hleaf
  exact (Leaf.mk.inj (Option.some.inj hleaf)).2.symm

theorem leafAfter_of_not_binds (hd : d.Shows f) (hb : ∀ data, ¬ s.BindsText d.store i data)
    (l : Leaf) : s.leafAfter (s.attachments d.store none .nothing f) i l = l := by
  rcases leafAfter_cases (s := s) (s.attachments d.store none .nothing f) i l with
    he | ⟨data, a, place, h, -⟩
  · exact he
  · exact absurd (bindsText_of_mem hd h) (hb data)

end Leaves

/-! ## Tags -/

section Tags

variable {s : Scan} {xs : List Attachment} {a : Anchor} {t : Tag}

/-- A tag when its attributes in `binds` are attached and the others are not. -/
theorem reworked_tagAfter {binds : Text → Text → Prop}
    (hdirective : ∀ i value, .attr i s.attacher.directiveName value ∉ xs)
    (hbinds : ∀ i name value, .attr i name value ∈ xs → .element i = a → binds name value)
    (hmem : ∀ name value, binds name value → (name, .text value) ∈ t.attributes ∧
      ∃ i, .element i = a ∧ .attr i name value ∈ xs) :
    s.Reworked binds (s.clausesAt xs a) t (s.tagAfter xs a t) where
  name := name_tagAfter xs a t
  kind := kind_tagAfter xs a t
  names := by
    have hnames : ∀ i name value, .attr i name value ∈ xs → .element i = a →
        name ∈ t.attributes.names :=
      fun i name value h ha => List.mem_map_of_mem (hmem name value (hbinds i name value h ha)).1
    rw [names_tagAfter hnames .null, Attributes.names_set]
    split <;> simp [*]
  directive := get?_tagAfter_directive fun i value h => absurd h (hdirective i value)
  bound hnodup name value h := by
    obtain ⟨hvalue, i, rfl, hx⟩ := hmem name value h
    have hn : name ≠ s.attacher.directiveName := by
      rintro rfl
      exact hdirective i value hx
    refine get?_tagAfter_of_mem hx (fun v hv => ?_) hn
    have hv := (hmem name v (hbinds i name v hv rfl)).1
    have he := (Attributes.get?_of_mem hnodup hv).symm.trans (Attributes.get?_of_mem hnodup hvalue)
    exact Value.text.inj (Option.some.inj he)
  others name hn hnone :=
    get?_tagAfter_of_ne hn fun i value h ha => hnone value (hbinds i name value h ha)

/-- An element of the document gets its bound attributes attached. -/
theorem reworked_of_tag? {d : Document} {f : Shape} (hd : d.Shows f)
    (hdirective : ∀ i value, .attr i s.attacher.directiveName value ∉
      s.attachments d.store none .nothing f) {i : Id} (hi : i ∈ f.labels)
    (ht : d.store.tag? i = some t) :
    s.Reworked (s.BindsAttribute t)
      (s.clausesAt (s.attachments d.store none .nothing f) (.element i)) t
      (s.tagAfter (s.attachments d.store none .nothing f) (.element i) t) := by
  refine reworked_tagAfter hdirective ?_ ?_
  · rintro k name value h ha
    obtain rfl := Anchor.element.inj ha
    obtain ⟨-, u, hu, hb⟩ := (attr_mem_iff hd).1 h
    obtain rfl := Option.some.inj (ht.symm.trans hu)
    exact hb
  · exact fun name value hb => ⟨hb.mem, i, rfl, (attr_mem_iff hd).2 ⟨hi, t, ht, hb⟩⟩

end Tags

variable {d : Document} {f : Shape} {n : ℕ} {p : Progress}

/-- When the attribute for bindings is skipped, only what is attached has changed anything. -/
theorem frame_of_reached {s : Scan} {w : Id → Option Id} (hd : d.Shows f)
    (hskip : s.skipped.contains (Text.lower s.attacher.directiveName) = true)
    (hw : Reached s d f w (s.attachments d.store none .nothing f) p)
    (hused : ∀ k, w k ≠ none ↔
      ∃ x ∈ s.attachments d.store none .nothing f, x.anchor = .around k) :
    s.Frame d f w p := by
  have hdirective : ∀ i value, .attr i s.attacher.directiveName value ∉
      s.attachments d.store none .nothing f :=
    fun i value h => name_ne_of_mem hskip (mem_boundAttributes_of_mem h) rfl
  refine ⟨hw.shows, fun i j hj => ⟨hw.fresh i j hj, ?_, ?_⟩, fun i hi t ht => ?_,
    fun i hi data hb => ?_, fun i hi hb => ?_⟩
  · obtain ⟨x, hx, ha⟩ := (hused i).1 (by rw [hj]; exact Option.some_ne_none j)
    obtain ⟨data, place, hm⟩ :=
      ((makes_attachments none .nothing f).exists_text_of_around hx ha).resolve_right (by simp)
    exact ⟨data, bindsText_of_mem hd hm⟩
  · obtain ⟨t, ht, ht'⟩ := hw.wrappers i j hj
    refine ⟨t, _, ht, ht', reworked_tagAfter hdirective ?_ ?_⟩
    · exact fun k name value _ ha => absurd ha (by simp)
    · exact fun name value h => h.elim
  · exact ⟨_, by rw [hw.tags i hi, ht, Option.map_some], reworked_of_tag? hd hdirective hi ht⟩
  · rw [hw.leaves i hi, hb.leaf, Option.map_some, leafAfter_of_binds hd hi hb]
  · rw [hw.leaves i hi]
    cases d.store.leaf? i with
    | none => rfl
    | some l => rw [Option.map_some, leafAfter_of_not_binds hd hb]

/-- What a scan changes is what it is to change. -/
theorem frame_of_run {o : Options} (ho : o.bindingAttribute ∈ o.skipAttributes)
    (ms : LiteralMarks) (r : Recovery) (hd : d.Shows f)
    (hrun : (Scan.of o r { Attacher.ofOptions o with marks := ms }).run d = (.ok n, p)) :
    ∃ w, (Scan.of o r { Attacher.ofOptions o with marks := ms }).Frame d f w p := by
  set s := Scan.of o r { Attacher.ofOptions o with marks := ms }
  have hskip : s.skipped.contains (Text.lower s.attacher.directiveName) = true :=
    Options.skips_bindingAttribute ho
  obtain ⟨-, w, hw, hused⟩ := Scan.reached_of_run hd hskip hrun
  exact ⟨w, frame_of_reached hd hskip hw hused⟩

end Scan

/-- A script that is an anchor, a comment, and an attribute that is skipped in other letters. -/
def scripted : Tree :=
  .element ⟨"script".toList, .script, [("src".toList, .text "\x7ba\x7d".toList)]⟩
    (.leaf ⟨.text, "\x7bb\x7d".toList⟩ .nil)
    (.leaf ⟨.text, "\x7bc\x7d".toList⟩
      (.leaf ⟨.comment, "\x7bd\x7d".toList⟩
        (.element ⟨"p".toList, .plain, [("Data-Options".toList, .text "\x7be\x7d".toList),
          ("title".toList, .text "\x7bf\x7d".toList)]⟩ .nil .nil)))

theorem scripted_run : (rowScan.run (.ofTree scripted)).1 = .ok 2 := by decide +kernel

theorem scripted_frame : ∃ w, rowScan.Frame (.ofTree scripted) (numbered 0 scripted) w
    (rowScan.run (.ofTree scripted)).2 := by
  have ho : Options.default.bindingAttribute ∈ Options.default.skipAttributes := by decide
  exact Scan.frame_of_run ho [] (.of []) (Document.shows_ofTree scripted)
    (Prod.ext scripted_run rfl)

end InlineBinding.Binding
