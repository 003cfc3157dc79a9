import InlineBinding.Proofs.Binding.Finished

/-!
# Scans that find nothing

A document without bound places is walked through to its end and left as it is.
-/
namespace InlineBinding.Binding
open Linked Markup

namespace Scan

variable {s : Scan} {p : Progress}

theorem forM_cons_of_ok {β : Type} {f : β → ScanM Unit} {b : β} {bs : List β}
    (h : f b p = .ok () p) : (b :: bs).forM f p = bs.forM f p :=
  bind_of_ok h

/-! ## Steps -/

theorem scanAttribute_idle {i : Id} {a : Text × Value} (ha : a.2.isText = true)
    (h : s.isBound a = none) : s.scanAttribute i a p = .ok () p := by
  obtain ⟨name, value⟩ := a
  rw [isBound] at h
  rw [scanAttribute]
  split
  · rfl
  · rename_i hskip
    rw [if_neg hskip] at h
    cases value with
    | text v =>
      dsimp only at h ⊢
      split
      · rename_i hv
        exact absurd h (by simp [hv])
      · rfl
    | null => exact absurd ha (by simp [Value.isText])
    | flag b => exact absurd ha (by simp [Value.isText])
    | number n => exact absurd ha (by simp [Value.isText])

theorem forM_scanAttribute {i : Id} {as : Attributes} (ha : ∀ a ∈ as, a.2.isText = true)
    (h : as.filterMap s.isBound = []) : as.forM (s.scanAttribute i) p = .ok () p := by
  rw [List.filterMap_eq_nil_iff] at h
  induction as with
  | nil => rfl
  | cons a as ih =>
    rw [List.forall_mem_cons] at ha h
    rw [forM_cons_of_ok (scanAttribute_idle ha.1 h.1), ih ha.2 h.2]

theorem visit_idle_element {i : Id} {t : Tag} {is : Shape} {depth : ℕ}
    (hi : p.document.store.parts? i = some (some is.tops))
    (ht : p.document.store.tag? i = some t) (htextual : t.Textual)
    (h : s.boundAttributes p.document.store i = [])
    (hbelow : is.tops.forM (s.visit depth) p = .ok () p) :
    s.visit (depth + 1) i p = .ok () p := by
  obtain ⟨n, u, hn, hcontent, hut⟩ := Store.tag?_of_parts? hi
  obtain rfl := Option.some.inj (hut.symm.trans ht)
  have hchildren : p.document.store.children i = is.tops := by
    rw [Store.children_eq, hi]
    rfl
  rw [← hchildren] at hbelow
  rw [boundAttributes, ht] at h
  rw [visit, document_bind]
  simp only [hn, hcontent]
  split
  · rename_i hkind
    rw [bind_of_ok (forM_scanAttribute htextual ((if_pos hkind).symm.trans h))]
    exact hbelow
  · exact hbelow

theorem isRawBelow_eq {owner : Option Id}
    (howner : ∀ q, owner = some q → ∃ t, p.document.store.tag? q = some t) :
    isRawBelow owner p = .ok (isRaw p.document.store owner) p := by
  cases owner with
  | none => rfl
  | some q =>
    obtain ⟨t, ht⟩ := howner q rfl
    have hraw : isRaw p.document.store (some q) = isRawText t.kind := by
      rw [isRaw, Option.bind_some, ht]
      rfl
    rw [hraw]
    exact bind_of_ok (tagOf_of_some ht _)

theorem visit_idle_leaf {i : Id} {owner prev next : Option Id}
    (hi : p.document.store.parts? i = some none)
    (hlinks : p.document.store.links? i = some ⟨owner, prev, next⟩)
    (howner : ∀ q, owner = some q → ∃ t, p.document.store.tag? q = some t)
    (h : s.boundText? p.document.store owner i = none) (depth : ℕ) :
    s.visit (depth + 1) i p = .ok () p := by
  obtain ⟨n, l, hn, hcontent, hleaf, -⟩ := Store.leaf?_of_parts? hi
  have hparent : n.parent = owner := by
    rw [Store.links?, hn] at hlinks
    exact congrArg Links.parent (Option.some.inj hlinks)
  rw [visit, document_bind]
  simp only [hn, hcontent]
  split
  · rename_i hkind
    rw [scanText, hparent, bind_of_ok (isRawBelow_eq howner), if_neg fun hb => ?_]
    · rfl
    · rw [Bool.and_eq_true, Bool.not_eq_true'] at hb
      have hsome := boundText?_eq_some_iff.2 ⟨by rw [hleaf, ← hkind], hb.1, hb.2⟩
      rw [h] at hsome
      exact absurd hsome (by simp)
  · rfl

/-! ## The walk -/

/-- By induction on the arrangement, for all depths at once. -/
theorem forM_visit_idle {f : Shape} {owner prev : Option Id} (ho : p.document.store.Owns f)
    (hl : p.document.store.Leads owner prev f)
    (howner : ∀ q, owner = some q → ∃ t, p.document.store.tag? q = some t)
    (ht : ∀ i ∈ f.labels, ∀ t ∈ p.document.store.tag? i, t.Textual)
    (hs : s.sites p.document.store owner f = []) (depth : ℕ) :
    f.tops.forM (s.visit depth) p = .ok () p := by
  induction f generalizing owner prev depth with
  | nil => rfl
  | element i cs rest ihc ihr =>
    obtain ⟨hi, hoc, hor⟩ := ho
    obtain ⟨-, hlc, hlr⟩ := hl
    rw [Forest.labels, List.forall_mem_cons, List.forall_mem_append] at ht
    rw [sites, List.append_eq_nil_iff, List.append_eq_nil_iff, List.map_eq_nil_iff] at hs
    have hone : s.visit depth i p = .ok () p := by
      cases depth with
      | zero => rfl
      | succ depth =>
        obtain ⟨-, t, -, -, htag⟩ := Store.tag?_of_parts? hi
        have hself (q : Id) (hq : some i = some q) : ∃ u, p.document.store.tag? q = some u :=
          ⟨t, Option.some.inj hq ▸ htag⟩
        exact visit_idle_element hi htag (ht.1 t htag) hs.1
          (ihc hoc hlc hself ht.2.1 hs.2.1 depth)
    rw [Forest.tops, forM_cons_of_ok hone]
    exact ihr hor hlr howner ht.2.2 hs.2.2 depth
  | leaf i rest ih =>
    obtain ⟨hi, hor⟩ := ho
    obtain ⟨hlinks, hlr⟩ := hl
    rw [Forest.labels, List.forall_mem_cons] at ht
    have hnone : s.boundText? p.document.store owner i = none := by
      rw [sites] at hs
      split at hs
      · assumption
      · exact absurd hs (List.cons_ne_nil _ _)
    rw [sites, hnone] at hs
    have hone : s.visit depth i p = .ok () p := by
      cases depth with
      | zero => rfl
      | succ depth => exact visit_idle_leaf hi hlinks howner hnone depth
    rw [Forest.tops, forM_cons_of_ok hone]
    exact ih hor hlr howner ht.2 hs depth

theorem run_idle {d : Document} {f : Shape} (hd : d.Shows f)
    (ht : ∀ i ∈ f.labels, ∀ t ∈ d.store.tag? i, t.Textual)
    (hs : s.sites d.store none f = []) : s.run d = (.ok 0, Progress.start d) := by
  have hall : s.all (Progress.start d) = .ok () (Progress.start d) := by
    rw [all, document_bind]
    have hroots : (Progress.start d).document.roots = f.tops := hd.roots
    rw [hroots]
    exact forM_visit_idle hd.owns hd.leads (fun q hq => absurd hq (by simp)) ht hs _
  rw [run, EStateM.run, hall]
  rfl

/-! ## Trees without bindings -/

/-- Neither a value nor a text that is searched holds a binding. -/
def Unbound (s : Scan) : Tree → Prop
  | .nil => True
  | .element t cs rest =>
    (∀ a ∈ t.attributes, ∃ v, a.2 = .text v ∧ s.delimiters.hasBindings v = false) ∧
      s.Unbound cs ∧ s.Unbound rest
  | .leaf l rest => s.delimiters.hasBindings l.data = false ∧ s.Unbound rest

theorem textual_of_unbound {t : Tree} (h : s.Unbound t) : ∀ v ∈ t.elements, v.Textual := by
  induction t with
  | nil => exact fun v hv => absurd hv List.not_mem_nil
  | element t cs rest ihc ihr =>
    rw [Forest.elements, List.forall_mem_cons, List.forall_mem_append]
    refine ⟨fun a ha => ?_, ihc h.2.1, ihr h.2.2⟩
    obtain ⟨v, hv, -⟩ := h.1 a ha
    rw [hv]
    rfl
  | leaf l rest ih => exact ih h.2

theorem sites_of_unbound {store : Store} {t : Tree} {f : Shape} (hb : store.Bears t f)
    (h : s.Unbound t) (owner : Option Id) : s.sites store owner f = [] := by
  fun_induction store.Bears t f generalizing owner with
  | case1 => rfl
  | case2 t cs rest i is more ihc ihr =>
    have hnone : t.attributes.filterMap s.isBound = [] := by
      rw [List.filterMap_eq_nil_iff]
      rintro ⟨name, value⟩ ha
      obtain ⟨v, rfl, hv⟩ := h.1 _ ha
      simp [isBound, hv]
    have hown : s.boundAttributes store i = [] := by
      rw [boundAttributes, hb.1]
      dsimp only
      rw [hnone, ite_self]
    rw [sites, hown, ihc hb.2.1 h.2.1, ihr hb.2.2 h.2.2]
    rfl
  | case3 l rest i more ih =>
    have hnone : s.boundText? store owner i = none := by
      rw [boundText?, hb.1]
      exact if_neg fun he => by simp [h.1] at he
    rw [sites, hnone]
    exact ih hb.2 h.2 owner
  | case4 => exact hb.elim

theorem run_unbound {t : Tree} (h : s.Unbound t) :
    s.run (.ofTree t) = (.ok 0, Progress.start (.ofTree t)) := by
  have hd := Document.shows_ofTree t
  have hb := Document.bears_ofTree t
  exact run_idle hd (Store.textual_of_bears hb hd.owns (textual_of_unbound h))
    (sites_of_unbound hb h none)

end Scan
end InlineBinding.Binding
