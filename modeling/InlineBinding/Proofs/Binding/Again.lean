import InlineBinding.Proofs.Binding.Idle
import InlineBinding.Proofs.Binding.Untouched
import InlineBinding.Proofs.Delimiters.Placeholder

/-!
# A second scan

What a scan attaches leaves no binding in its place, and directives are skipped. So nothing is left
to be found, except in wrappers: they come into lists of siblings that the walk has taken already,
and the attributes that they bring along are not searched.
-/
namespace InlineBinding.Binding
open Linked Markup

namespace Scan

/-- No placeholder has a binding. -/
def Final (s : Scan) : Prop := ∀ t, s.delimiters.hasBindings (s.placeholderOf t) = false

/-- The bound attributes that a wrapper brings along. -/
def broughtAlong (s : Scan) : List (Text × Text) :=
  match s.wrapperTag? with
  | none => []
  | some u => if u.kind = .plain then u.attributes.filterMap s.isBound else []

/-! ## Elements -/

/-- An element whose bound attributes have been attached has none any more. -/
theorem Reworked.not_bindsAttribute {s : Scan} {t t' : Tag} {cs : List Text} (hfinal : s.Final)
    (hskip : s.skipped.contains (Text.lower s.attacher.directiveName) = true)
    (h : s.Reworked (s.BindsAttribute t) cs t t') (ht : t.attributes.names.Nodup)
    (ht' : t'.attributes.names.Nodup) (name value : Text) : ¬ s.BindsAttribute t' name value := by
  intro hb
  have hget := Attributes.get?_of_mem ht' hb.mem
  have hname : name ≠ s.attacher.directiveName := by
    rintro rfl
    rw [hb.unskipped] at hskip
    exact absurd hskip (by simp)
  by_cases hbefore : ∃ v, s.BindsAttribute t name v
  · obtain ⟨v, hv⟩ := hbefore
    rw [h.bound ht name v hv] at hget
    obtain rfl := Value.text.inj (Option.some.inj hget)
    exact absurd hb.bound (by simp [hfinal v])
  · rw [h.others name hname (not_exists.1 hbefore)] at hget
    obtain ⟨as, bs, he, -⟩ := List.lookup_eq_some_iff.1 hget
    exact hbefore ⟨value, h.kind ▸ hb.plain, he ▸ List.mem_append_right _ List.mem_cons_self,
      hb.unskipped, hb.bound⟩

section Reached

variable {s : Scan} {d : Document} {f : Shape} {w : Id → Option Id} {p : Progress}
  (hskip : s.skipped.contains (Text.lower s.attacher.directiveName) = true)
  (hw : Reached s d f w (s.attachments d.store none .nothing f) p)

include hw

theorem textual_of_reached (ht : ∀ i ∈ f.labels, ∀ t ∈ d.store.tag? i, t.Textual) :
    ∀ i ∈ (f.wrap w).labels, ∀ t ∈ p.document.store.tag? i, t.Textual := by
  have hset (as : Attributes) (name v : Text) (h : ∀ a ∈ as, a.2.isText = true) :
      ∀ a ∈ as.set name (.text v), a.2.isText = true := Attributes.forall_mem_set h rfl
  intro i hi t hti
  rcases Forest.mem_labels_wrap hi with hi | ⟨k, -, hk⟩
  · rw [hw.tags i hi] at hti
    obtain ⟨u, hu, rfl⟩ := Option.map_eq_some_iff.1 hti
    exact attributes_tagAfter hset _ _ (ht i hi u hu)
  · obtain ⟨u, hu, hwrapper⟩ := hw.wrappers k i hk
    obtain ⟨content, hc⟩ := exists_wrapper hu
    obtain rfl := Option.some.inj (hwrapper.symm.trans hti)
    exact attributes_tagAfter hset _ _ (textual_wrapper (hc (.leaf ⟨.text, []⟩)))

theorem isRaw_of_reached {owner : Option Id} (ho : ∀ q, owner = some q → q ∈ f.labels) :
    isRaw p.document.store owner = isRaw d.store owner := by
  cases owner with
  | none => rfl
  | some q =>
    rw [isRaw, isRaw, Option.bind_some, Option.bind_some, hw.tags q (ho q rfl)]
    cases d.store.tag? q with
    | none => rfl
    | some t => exact congrArg isRawText (kind_tagAfter _ _ t)

include hskip

/-- Wrappers get clauses only. -/
theorem boundAttributes_of_wrapper {i j : Id} (hj : w i = some j) :
    s.boundAttributes p.document.store j = s.broughtAlong := by
  obtain ⟨u, hu, htag⟩ := hw.wrappers i j hj
  have hsame : (s.tagAfter (s.attachments d.store none .nothing f) (.around i)
      u).attributes.filterMap s.isBound = u.attributes.filterMap s.isBound :=
    filterMap_tagAfter hskip (fun _ _ _ _ he => absurd he (by simp)) u
  rw [boundAttributes, broughtAlong, htag, hu]
  dsimp only
  rw [hsame, kind_tagAfter]

variable (hd : d.Shows f) (hfinal : s.Final)

include hd hfinal

theorem boundAttributes_of_reached
    (hnames : ∀ i ∈ f.labels, ∀ t ∈ d.store.tag? i, t.attributes.names.Nodup) {i : Id}
    (hi : i ∈ f.labels) : s.boundAttributes p.document.store i = [] := by
  have hdirective : ∀ i value, .attr i s.attacher.directiveName value ∉
      s.attachments d.store none .nothing f :=
    fun i value h => name_ne_of_mem hskip (mem_boundAttributes_of_mem h) rfl
  refine List.eq_nil_iff_forall_not_mem.2 fun a ha => ?_
  obtain ⟨t', ht', hb⟩ := mem_boundAttributes_iff.1 ha
  rw [hw.tags i hi] at ht'
  obtain ⟨t, ht, rfl⟩ := Option.map_eq_some_iff.1 ht'
  exact Reworked.not_bindsAttribute hfinal hskip (reworked_of_tag? hd hdirective hi ht)
    (hnames i hi t ht) (nodup_names_tagAfter _ _ (hnames i hi t ht)) _ _ hb

/-! ## Texts -/

omit hskip

/-- A text with a binding was not attached. -/
theorem leaf?_of_hasBindings {i : Id} {data : Text} (hi : i ∈ f.labels)
    (hl : p.document.store.leaf? i = some ⟨.text, data⟩)
    (hb : s.delimiters.hasBindings data = true) :
    d.store.leaf? i = some ⟨.text, data⟩ ∧ ∀ u, ¬ s.BindsText d.store i u := by
  have hnone (u : Text) : ¬ s.BindsText d.store i u := by
    intro hu
    rw [hw.leaves i hi, hu.leaf, Option.map_some, leafAfter_of_binds hd hi hu] at hl
    obtain ⟨-, rfl⟩ := Leaf.mk.inj (Option.some.inj hl)
    exact absurd hb (by simp [hfinal u])
  rw [hw.leaves i hi] at hl
  obtain ⟨l, hl, he⟩ := Option.map_eq_some_iff.1 hl
  rw [leafAfter_of_not_binds hd hnone] at he
  exact ⟨he ▸ hl, hnone⟩

/-- A text that stays where it is, below an element or at the top. -/
theorem boundText?_of_reached {owner : Option Id} (ho : ∀ q, owner = some q → q ∈ f.labels) {i : Id}
    (hi : i ∈ f.labels)
    (hsites : ∀ data, s.boundText? d.store owner i = some data → s.BindsText d.store i data) :
    s.boundText? p.document.store owner i = none := by
  refine Option.eq_none_iff_forall_not_mem.2 fun data hdata => ?_
  obtain ⟨hl, hraw, hb⟩ := boundText?_eq_some_iff.1 hdata
  obtain ⟨hl, hnone⟩ := leaf?_of_hasBindings hw hd hfinal hi hl hb
  rw [isRaw_of_reached hw ho] at hraw
  exact hnone data (hsites data (boundText?_eq_some_iff.2 ⟨hl, hraw, hb⟩))

/-- A text that has been wrapped is one that was attached. -/
theorem boundText?_of_wrapped {i j : Id} (hi : i ∈ f.labels) (hj : w i = some j)
    (hused : ∀ k, w k ≠ none ↔
      ∃ x ∈ s.attachments d.store none .nothing f, x.anchor = .around k) (owner : Option Id) :
    s.boundText? p.document.store owner i = none := by
  refine Option.eq_none_iff_forall_not_mem.2 fun data hdata => ?_
  obtain ⟨hl, -, hb⟩ := boundText?_eq_some_iff.1 hdata
  obtain ⟨x, hx, ha⟩ := (hused i).1 (by rw [hj]; exact Option.some_ne_none j)
  obtain ⟨u, place, hm⟩ :=
    ((makes_attachments none .nothing f).exists_text_of_around hx ha).resolve_right (by simp)
  exact (leaf?_of_hasBindings hw hd hfinal hi hl hb).2 u (bindsText_of_mem hd hm)

/-! ## What is left -/

include hskip

/-- By induction on siblings: nothing is left but what wrappers bring along. -/
theorem sites_of_reached
    (hnames : ∀ i ∈ f.labels, ∀ t ∈ d.store.tag? i, t.attributes.names.Nodup)
    (hused : ∀ k, w k ≠ none ↔
      ∃ x ∈ s.attachments d.store none .nothing f, x.anchor = .around k)
    {owner : Option Id} {done todo : Shape} (hl : f.Level owner (done ++ todo)) :
    s.sites p.document.store owner (todo.wrap w) = [] ↔
      s.broughtAlong = [] ∨ ∀ i ∈ todo.leafLabels, w i = none := by
  induction todo generalizing owner done with
  | nil => exact iff_of_true rfl (Or.inr fun i hi => absurd hi List.not_mem_nil)
  | element i cs rest ihc ihr =>
    have hi : i ∈ f.labels := hl.mem_labels (by simp [Forest.labels])
    have hlc : f.Level (some i) (.nil ++ cs) := hl.child
    rw [Forest.wrap, sites, boundAttributes_of_reached hskip hw hd hfinal hnames hi, List.map_nil,
      List.nil_append, List.append_eq_nil_iff, ihc hlc, ihr hl.past_element, ← or_and_left,
      Forest.leafLabels, List.forall_mem_append]
  | leaf i rest ih =>
    have hi : i ∈ f.labels := hl.mem_labels (by simp [Forest.labels])
    have hrest := ih hl.past_leaf
    rw [Forest.leafLabels, List.forall_mem_cons]
    cases hj : w i with
    | none =>
      have howner (q : Id) (hq : owner = some q) : q ∈ f.labels := by
        subst hq
        exact Forest.Below.mem hl
      have hlinks := (hd.leads_level hl).right.1
      have hnone := boundText?_of_reached hw hd hfinal howner hi
        fun data hb => (bindsText_iff hlinks).2 hb
      rw [Forest.wrap_leaf_of_none hj, sites, hnone]
      simpa using hrest
    | some j =>
      have hnone : s.sites p.document.store (some j) (.leaf i .nil) = [] := by
        rw [sites, boundText?_of_wrapped hw hd hfinal hi hj hused]
        rfl
      rw [Forest.wrap_leaf_of_some hj, sites, hnone, List.nil_append, List.append_eq_nil_iff,
        List.map_eq_nil_iff, boundAttributes_of_wrapper hskip hw hj, hrest]
      constructor
      · exact fun h => Or.inl h.1
      · rintro (h | h)
        · exact ⟨h, Or.inl h⟩
        · exact absurd h.1 (Option.some_ne_none j)

end Reached

section Run

variable {s : Scan} {d : Document} {f : Shape} {n : ℕ} {p : Progress}

/-- A second scan finds nothing if and only if no wrapper was put in, or wrappers have nothing to
find. -/
theorem run_again (hskip : s.skipped.contains (Text.lower s.attacher.directiveName) = true)
    (hfinal : s.Final) (hd : d.Shows f)
    (ht : ∀ i ∈ f.labels, ∀ t ∈ d.store.tag? i, t.Textual ∧ t.attributes.names.Nodup)
    (hrun : s.run d = (.ok n, p)) :
    s.run p.document = (.ok 0, Progress.start p.document) ↔ s.broughtAlong = [] ∨
      ∀ x ∈ s.attachments d.store none .nothing f, ∀ i, x.anchor ≠ .around i := by
  obtain ⟨-, w, hw, hused⟩ := Scan.reached_of_run hd hskip hrun
  have hl : f.Level none (.nil ++ f) := rfl
  have hsites := sites_of_reached hskip hw hd hfinal (fun i hi t h => (ht i hi t h).2) hused hl
  have hleft : (∀ i ∈ f.leafLabels, w i = none) ↔
      ∀ x ∈ s.attachments d.store none .nothing f, ∀ i, x.anchor ≠ .around i := by
    constructor
    · intro hnone x hx i ha
      have hof := Scan.anchor_of hx
      rw [ha] at hof
      exact (hused i).2 ⟨x, hx, ha⟩ (hnone i hof)
    · intro hnone i _
      by_contra hi
      obtain ⟨x, hx, ha⟩ := (hused i).1 hi
      exact hnone x hx i ha
  rw [← hleft, ← hsites]
  constructor
  · intro h
    obtain ⟨hcount, w', hw', -⟩ := Scan.reached_of_run hw.shows hskip h
    rw [hw'.count, ← List.length_map (f := Attachment.site), map_site_attachments] at hcount
    exact List.length_eq_zero_iff.1 hcount.symm
  · exact run_idle hw.shows (textual_of_reached hw fun i hi t h => (ht i hi t h).1)

/-- With the delimiters as they are by default, placeholders are not split again. -/
theorem split_placeholderOf (hin : s.delimiters = .braces)
    (hout : s.attacher.output = .doubleBraces) (t : Text) :
    s.delimiters.split (s.placeholderOf t) = [s.placeholderOf t] := by
  rw [placeholderOf, Attacher.compile, hin, hout]
  exact (Delimiters.clear_placeholder _ t).split_eq

/-- A scan with the default delimiters leaves no placeholder that is split again. A second scan
finds nothing and changes nothing, unless a text was wrapped and wrappers have bound attributes. -/
theorem again_of_run {o : Options} (ho : o.bindingAttribute ∈ o.skipAttributes)
    (hin : o.bindingDelimiters = .braces) (hout : o.outputDelimiters = .doubleBraces)
    (ms : LiteralMarks) (r : Recovery) (hd : d.Shows f)
    (ht : ∀ i ∈ f.labels, ∀ t ∈ d.store.tag? i, t.Textual ∧ t.attributes.names.Nodup)
    (hrun : (Scan.of o r { Attacher.ofOptions o with marks := ms }).run d = (.ok n, p)) :
    let s := Scan.of o r { Attacher.ofOptions o with marks := ms }
    (∀ t, s.delimiters.split (s.placeholderOf t) = [s.placeholderOf t]) ∧
      (s.run p.document = (.ok 0, Progress.start p.document) ↔ s.broughtAlong = [] ∨
        ∀ x ∈ s.attachments d.store none .nothing f, ∀ i, x.anchor ≠ .around i) := by
  intro s
  have hsplit : ∀ t, s.delimiters.split (s.placeholderOf t) = [s.placeholderOf t] :=
    split_placeholderOf hin hout
  have hfinal : s.Final := fun t => by
    rw [Delimiters.hasBindings, hsplit t]
    rfl
  exact ⟨hsplit, run_again (Options.skips_bindingAttribute ho) hfinal hd ht hrun⟩

end Run

end Scan

/-- Wrappers without attributes have nothing to find. -/
theorem again_of_run_row :
    rowScan.run (rowScan.run (.ofTree row)).2.document =
      (.ok 0, Progress.start (rowScan.run (.ofTree row)).2.document) := by
  have ho : Options.default.bindingAttribute ∈ Options.default.skipAttributes := by decide
  have ht : ∀ i ∈ (numbered 0 row).labels, ∀ t ∈ (Document.ofTree row).store.tag? i,
      t.Textual ∧ t.attributes.names.Nodup := by decide +kernel
  have hbrought : rowScan.broughtAlong = [] := by decide +kernel
  obtain ⟨-, hagain⟩ := Scan.again_of_run ho rfl rfl [] (.of []) (Document.shows_ofTree row) ht
    (Prod.ext rowScan_run rfl)
  exact hagain.2 (Or.inl hbrought)

/-- Wrappers that bring an attribute with a binding along. -/
def titledOptions : Options :=
  { Options.default with syntheticTag := "span title=\"\x7bb\x7d\"".toList }

def titledScan : Scan := Scan.of titledOptions (.of []) (Attacher.ofOptions titledOptions)

/-- A text alone, which has to be wrapped. -/
def alone : Document := .ofTree (.leaf ⟨.text, "\x7ba\x7d".toList⟩ .nil)

/-- The attribute of the wrapper is found by the second scan only. -/
theorem titledScan_again :
    Options.resolve (.object [("synthetic_tag".toList, .text titledOptions.syntheticTag)]) =
        .ok titledOptions ∧
      titledOptions.bindingDelimiters = .braces ∧ titledOptions.outputDelimiters = .doubleBraces ∧
      (titledScan.run alone).1 = .ok 1 ∧
      (titledScan.run (titledScan.run alone).2.document).1 = .ok 1 ∧
      (titledScan.run (titledScan.run alone).2.document).2.document ≠
        (titledScan.run alone).2.document := by
  exact ⟨by rfl, rfl, rfl, by decide +kernel, by decide +kernel, by decide +kernel⟩

end InlineBinding.Binding
