import InlineBinding.Options.Resolve
import InlineBinding.Proofs.Binding.Directive
import InlineBinding.Proofs.Binding.Walk
import InlineBinding.Proofs.Linked.Planting
import Mathlib.Data.List.Perm.Subperm

/-!
# A whole scan

A scan that comes to its end has attached every bound place of the document as it was before, each
of them once and in document order. The directives of all elements are known from that.
-/
namespace InlineBinding

theorem Linked.Document.Shows.height_le {d : Linked.Document} {f : Linked.Shape} (h : d.Shows f) :
    f.height ≤ d.store.size := by
  have hsub : f.labels ⊆ List.range d.store.size := by
    intro i hi
    exact List.mem_range.2 (h.owns.lt_size hi)
  have hl := (List.Nodup.subperm h.nodup hsub).length_le
  have hh := f.height_le_length_labels
  rw [List.length_range] at hl
  omega

theorem Options.skips_bindingAttribute {o : Options} (h : o.bindingAttribute ∈ o.skipAttributes) :
    (o.skipAttributes.map Text.lower).contains (Text.lower o.bindingAttribute) = true := by
  rw [List.contains_iff_mem]
  exact List.mem_map_of_mem h

theorem Options.mem_skipAttributes_of_resolve {settings : Setting} {o : Options}
    (h : Options.resolve settings = .ok o) : o.bindingAttribute ∈ o.skipAttributes := by
  rw [resolve] at h
  split at h
  · exact absurd h (by simp)
  · split at h
    · exact absurd h (by simp)
    · rw [← Except.ok.inj h]
      exact bindingAttribute_mem_skipAttributes _

namespace Binding
open Linked Markup

variable {s : Scan} {d : Document} {f : Shape} {n : ℕ} {p : Progress}

/-- What a run has attached, directives being read as they have become, and which texts it has
wrapped for that. -/
theorem Scan.gathered_of_run (hd : d.Shows f) (hrun : s.run d = (.ok n, p)) :
    n = p.count ∧ ∃ w, Reached s d f w (s.gathered d.store [] none .nothing f) p ∧
      ∀ k, w k ≠ none ↔ ∃ x ∈ s.gathered d.store [] none .nothing f, x.anchor = .around k := by
  rw [Scan.run] at hrun
  split at hrun
  · rename_i u q hall
    obtain ⟨hn, rfl⟩ := Prod.mk.inj hrun
    refine ⟨(Except.ok.inj hn).symm, ?_⟩
    rw [EStateM.run, Scan.all, Scan.document_bind] at hall
    have hroots : (Progress.start d).document.roots = f.tops := hd.roots
    rw [hroots] at hall
    have hdepth : f.height ≤ d.store.size + 2 := Nat.le_add_right_of_le hd.height_le
    have hl : f.Level none (.nil ++ f) := rfl
    have hb : Before.nothing.Fits d f (fun _ => none) .nil := rfl
    obtain ⟨w, hw, hout, hused⟩ := Reached.visit_siblings hd hdepth (Reached.start hd) hl
      (fun _ _ => rfl) (fun x hx => absurd hx List.not_mem_nil) hb hall
    refine ⟨w, hw, fun k => ⟨fun hk => ?_, ?_⟩⟩
    · by_cases hkf : k ∈ f.labels
      · exact hused k hkf hk
      · exact absurd (hout k hkf) hk
    · rintro ⟨x, hx, ha⟩
      have hr := hw.resolved x hx
      rwa [ha] at hr
  · exact absurd (Prod.mk.inj hrun).1 (by simp)

theorem Scan.makes_of_run (hd : d.Shows f) (hrun : s.run d = (.ok n, p)) :
    n = p.count ∧ ∃ xs w, s.Makes d.store none .nothing f xs ∧ Reached s d f w xs p ∧
      ∀ k, w k ≠ none ↔ ∃ x ∈ xs, x.anchor = .around k := by
  obtain ⟨hn, w, hw, hused⟩ := Scan.gathered_of_run hd hrun
  exact ⟨hn, _, w, Scan.makes_gathered hd.nodup fun x hx => absurd hx List.not_mem_nil, hw, hused⟩

/-- A run attaches what is to be attached. -/
theorem Scan.reached_of_run (hd : d.Shows f)
    (hskip : s.skipped.contains (Text.lower s.attacher.directiveName) = true)
    (hrun : s.run d = (.ok n, p)) :
    n = p.count ∧ ∃ w, Reached s d f w (s.attachments d.store none .nothing f) p ∧
      ∀ k, w k ≠ none ↔ ∃ x ∈ s.attachments d.store none .nothing f, x.anchor = .around k := by
  obtain ⟨hn, xs, w, hxs, hw, hused⟩ := Scan.makes_of_run hd hrun
  rw [hxs.eq_attachments hskip] at hw hused
  exact ⟨hn, w, hw, hused⟩

/-- The tag of an anchor before anything is attached to it. -/
def Scan.firstTag? (s : Scan) (store : Store) : Anchor → Option Tag
  | .element i => store.tag? i
  | .around _ => s.wrapperTag?

/-- The directive of a node, and whether it can have one. -/
def Scan.directive? (s : Scan) (store : Store) (i : Id) : Option (Option Value) :=
  (store.tag? i).map fun t => t.attributes.get? s.attacher.directiveName

/-- What a scan of the document `d`, arranged as `f`, has done when it returns `n`. The wrappers
`w` are the only new elements. -/
structure Scan.Complete (s : Scan) (d : Document) (f : Shape) (n : ℕ) (p : Progress)
    (w : Id → Option Id) : Prop where
  count : n = (s.sites d.store none f).length
  places : (s.attachments d.store none .nothing f).map Attachment.site = s.sites d.store none f
  clauses : clausesIn p.events = (s.attachments d.store none .nothing f).map s.clause
  shows : p.document.Shows (f.wrap w)
  wrapped : ∀ k, w k ≠ none ↔
    ∃ x ∈ s.attachments d.store none .nothing f, x.anchor = .around k
  anchors : ∀ j ∈ (f.wrap w).labels, ∃! a : Anchor, a.In f ∧ a.id? w = some j
  directives : ∀ (a : Anchor) j, a.In f → a.id? w = some j →
    s.directive? p.document.store j = (s.firstTag? d.store a).map fun t =>
      s.attacher.directiveWith t (s.clausesAt (s.attachments d.store none .nothing f) a)

theorem Reached.anchors {w : Id → Option Id} {xs : List Attachment} (h : Reached s d f w xs p)
    {j : Id} (hj : j ∈ (f.wrap w).labels) : ∃! a : Anchor, a.In f ∧ a.id? w = some j := by
  obtain ⟨a, ha, haj⟩ : ∃ a : Anchor, a.In f ∧ a.id? w = some j := by
    rcases Forest.mem_labels_wrap hj with hj | ⟨i, -, hi⟩
    · exact ⟨.element j, hj, rfl⟩
    · exact ⟨.around i, trivial, hi⟩
  exact ⟨a, ⟨ha, haj⟩, fun b hb => h.anchor_eq hb.1 ha hb.2 haj⟩

/-- The tag of an anchor has changed by what is attached to it. -/
theorem Reached.tag?_eq {w : Id → Option Id} {xs : List Attachment} (h : Reached s d f w xs p)
    {a : Anchor} {j : Id} (ha : a.In f) (hj : a.id? w = some j) :
    p.document.store.tag? j = (s.firstTag? d.store a).map (s.tagAfter xs a) := by
  cases a with
  | element i =>
    obtain rfl := Option.some.inj hj
    exact h.tags i ha
  | around i =>
    obtain ⟨t, hw, ht⟩ := h.wrappers i j hj
    rw [Scan.firstTag?, hw, ht]
    rfl

/-- The directive of an anchor has got its clauses, unless it is attached itself. -/
theorem Reached.directive?_eq {w : Id → Option Id} {xs : List Attachment}
    (h : Reached s d f w xs p) (hc : ∀ x ∈ xs, Attacher.Tidy (s.clause x)) {a : Anchor} {j : Id}
    (ha : a.In f) (hj : a.id? w = some j)
    (hx : ∀ i value, .attr i s.attacher.directiveName value ∈ xs → .element i ≠ a) :
    s.directive? p.document.store j = (s.firstTag? d.store a).map fun t =>
      s.attacher.directiveWith t (s.clausesAt xs a) := by
  rw [Scan.directive?, h.tag?_eq ha hj, Option.map_map]
  congr 1
  funext t
  exact Scan.get?_tagAfter hc hx t

/-- Anchors are elements of the document, or stand around its leaves. -/
def Anchor.Of (f : Shape) : Anchor → Prop
  | element i => ∃ cs, f.Below i cs
  | around i => i ∈ f.leafLabels

section Anchors

variable {P : Anchor → Prop} {owner : Option Id} {before : Before}

theorem Before.eq_around_of_ofText {i : Id} {a b : Anchor} (h : Before.ofText i a = .anchor b) :
    b = .around i := by
  rw [ofText] at h
  split at h
  · rename_i ha
    rw [← Before.anchor.inj h, ha]
  · exact absurd h (by simp)

theorem textAnchor_of {i : Id} {rest : Shape} (helement : ∀ j cs, rest.Below j cs → P (.element j))
    (howner : ∀ p, owner = some p → P (.element p)) (hbefore : ∀ a, before = .anchor a → P a)
    (hi : P (.around i)) : P (textAnchor owner before rest i).1 := by
  cases before with
  | anchor a => exact hbefore a rfl
  | leaf => exact hi
  | nothing =>
    cases owner with
    | some p => exact howner p rfl
    | none =>
      cases rest with
      | nil => exact hi
      | element j cs later => exact helement j cs (.here j cs later)
      | leaf j later => exact hi

theorem Scan.Makes.anchor_of_mem {store : Store} {f : Shape} {xs : List Attachment}
    {x : Attachment} (h : s.Makes store owner before f xs)
    (helement : ∀ j cs, f.Below j cs → P (.element j)) (hleaf : ∀ i ∈ f.leafLabels, P (.around i))
    (howner : ∀ p, owner = some p → P (.element p)) (hbefore : ∀ a, before = .anchor a → P a)
    (hx : x ∈ xs) : P x.anchor := by
  induction h with
  | nil owner before => exact absurd hx List.not_mem_nil
  | @element owner before i cs rest xs ys as has _ _ ihc ihr =>
    have hi : P (.element i) := helement i cs (.here i cs rest)
    rw [List.mem_append, List.mem_append, List.mem_map] at hx
    rcases hx with ⟨a, -, rfl⟩ | hx | hx
    · exact hi
    · exact ihc (fun j ks h => helement j ks (.child i rest h))
        (fun k hk => hleaf k (List.mem_append_left _ hk)) (fun p hp => Option.some.inj hp ▸ hi)
        (fun a ha => absurd ha (by simp)) hx
    · exact ihr (fun j ks h => helement j ks (.later i cs h))
        (fun k hk => hleaf k (List.mem_append_right _ hk)) howner
        (fun a ha => Before.anchor.inj ha ▸ hi) hx
  | @idle owner before i rest xs hb _ ih =>
    exact ih (fun j cs h => helement j cs (.behind i h))
      (fun k hk => hleaf k (List.mem_cons_of_mem i hk)) howner (fun a ha => absurd ha (by simp)) hx
  | @bound owner before i rest xs data hb _ ih =>
    have hi : P (.around i) := hleaf i List.mem_cons_self
    have hbelow (j : Id) (cs : Shape) (h : rest.Below j cs) : P (.element j) :=
      helement j cs (.behind i h)
    rcases List.mem_cons.1 hx with rfl | hx
    · exact textAnchor_of hbelow howner hbefore hi
    · exact ih hbelow (fun k hk => hleaf k (List.mem_cons_of_mem i hk)) howner
        (fun a ha => Before.eq_around_of_ofText ha ▸ hi) hx

end Anchors

theorem Scan.anchor_of {store : Store} {x : Attachment}
    (hx : x ∈ s.attachments store none .nothing f) : x.anchor.Of f :=
  (Scan.makes_attachments none .nothing f).anchor_of_mem (P := Anchor.Of f)
    (fun j cs h => ⟨cs, h⟩) (fun i hi => hi)
    (fun p hp => absurd hp (by simp)) (fun a ha => absurd ha (by simp)) hx

theorem Anchor.Of.belongs {a : Anchor} (h : a.Of f) : a.In f := by
  cases a with
  | element i =>
    obtain ⟨cs, hb⟩ := h
    exact hb.mem
  | around i => trivial

/-- The anchor of an attachment is there in the end. -/
theorem Reached.exists_id {w : Id → Option Id} {xs : List Attachment} (hw : Reached s d f w xs p)
    {x : Attachment} (hx : x ∈ xs) (ha : x.anchor.Of f) :
    ∃ j, x.anchor.id? w = some j ∧ j ∈ (f.wrap w).labels := by
  have hr := hw.resolved x hx
  cases hanchor : x.anchor with
  | element i =>
    rw [hanchor] at ha
    exact ⟨i, rfl, Forest.mem_labels_wrap_of_mem w ha.belongs⟩
  | around i =>
    rw [hanchor] at ha hr
    obtain ⟨j, hj⟩ := Option.ne_none_iff_exists'.1 hr
    exact ⟨j, hj, Forest.mem_labels_wrap_of_some ha hj⟩

/-- Anchors have a tag to begin with. -/
theorem Reached.exists_firstTag {w : Id → Option Id} {xs : List Attachment} (hd : d.Shows f)
    (hw : Reached s d f w xs p) {a : Anchor} {j : Id} (ha : a.Of f) (hj : a.id? w = some j) :
    ∃ t, s.firstTag? d.store a = some t := by
  cases a with
  | element i =>
    obtain ⟨cs, hb⟩ := ha
    obtain ⟨-, t, -, -, ht⟩ := Store.tag?_of_parts? (hd.owns.below hb).1
    exact ⟨t, ht⟩
  | around i =>
    obtain ⟨t, ht, -⟩ := hw.wrappers i j hj
    exact ⟨t, ht⟩

/-- Every attachment has its element in the end. -/
theorem Reached.exists_tag {w : Id → Option Id} (hd : d.Shows f)
    (hw : Reached s d f w (s.attachments d.store none .nothing f) p) {x : Attachment}
    (hx : x ∈ s.attachments d.store none .nothing f) :
    ∃ j t, j ∈ (f.wrap w).labels ∧ p.document.store.tag? j =
      some (s.tagAfter (s.attachments d.store none .nothing f) x.anchor t) := by
  have ha := Scan.anchor_of hx
  obtain ⟨j, hj, hmem⟩ := hw.exists_id hx ha
  obtain ⟨t, ht⟩ := hw.exists_firstTag hd ha hj
  exact ⟨j, t, hmem, by rw [hw.tag?_eq ha.belongs hj, ht, Option.map_some]⟩

/-- When the attribute for bindings is skipped, all that is attached can be read off in the end. -/
theorem Scan.complete_of_reached {w : Id → Option Id}
    (hdialect : s.attacher.dialect = Dialect.default) (hm : s.attacher.marks.Unquoted)
    (hskip : s.skipped.contains (Text.lower s.attacher.directiveName) = true)
    (hw : Reached s d f w (s.attachments d.store none .nothing f) p)
    (hused : ∀ k, w k ≠ none ↔
      ∃ x ∈ s.attachments d.store none .nothing f, x.anchor = .around k) :
    s.Complete d f p.count p w where
  count := by rw [hw.count, ← Scan.map_site_attachments none .nothing f, List.length_map]
  places := Scan.map_site_attachments _ _ f
  clauses := hw.clauses
  shows := hw.shows
  wrapped := hused
  anchors _ := hw.anchors
  directives a j ha hj := by
    refine hw.directive?_eq (fun x _ => Scan.tidy_clause hdialect hm x) ha hj fun i value hx => ?_
    exact absurd rfl (Scan.name_ne_of_mem hskip (Scan.mem_boundAttributes_of_mem hx))

/-- No bound place is lost, and none is attached twice or out of order. -/
theorem Scan.complete_of_run {o : Options} (ho : o.bindingAttribute ∈ o.skipAttributes)
    {ms : LiteralMarks} (hm : ms.Unquoted) (r : Recovery) (hd : d.Shows f)
    (hrun : (Scan.of o r { Attacher.ofOptions o with marks := ms }).run d = (.ok n, p)) :
    ∃ w, (Scan.of o r { Attacher.ofOptions o with marks := ms }).Complete d f n p w := by
  set s := Scan.of o r { Attacher.ofOptions o with marks := ms } with hs
  have hskip : s.skipped.contains (Text.lower s.attacher.directiveName) = true :=
    Options.skips_bindingAttribute ho
  obtain ⟨rfl, w, hw, hused⟩ := Scan.reached_of_run hd hskip hrun
  exact ⟨w, Scan.complete_of_reached rfl hm hskip hw hused⟩

/-- The first text needs a wrapper, the second one has an element above it. -/
def row : Tree :=
  .leaf ⟨.comment, "row".toList⟩
    (.leaf ⟨.text, "\x7ba\x7d".toList⟩
      (.element ⟨"p".toList, .plain, [("title".toList, .text "\x7bb\x7d".toList)]⟩
        (.leaf ⟨.text, "\x7bc\x7d".toList⟩ .nil) .nil))

def rowScan : Scan := Scan.of .default (.of []) (Attacher.ofOptions .default)

theorem rowScan_run : (rowScan.run (.ofTree row)).1 = .ok 3 := by decide +kernel

theorem rowScan_complete :
    ∃ w, rowScan.Complete (.ofTree row) (numbered 0 row) 3 (rowScan.run (.ofTree row)).2 w := by
  have ho : Options.default.bindingAttribute ∈ Options.default.skipAttributes := by decide
  have hm : LiteralMarks.Unquoted [] := fun _ h => absurd h List.not_mem_nil
  exact Scan.complete_of_run ho hm (.of []) (Document.shows_ofTree row) (Prod.ext rowScan_run rfl)

end Binding
end InlineBinding
