import InlineBinding.Proofs.Binding.Walk
import InlineBinding.Proofs.Forest
import InlineBinding.Proofs.Markup.Attributes

/-! # What a scan keeps

However far a scan has come, the document shows its arrangement with some texts wrapped, elements
have kept their names, and all values are texts.  From such a state every attachment and every
wrapping comes to its end, and leaves a state of the same kind.
-/
namespace InlineBinding

namespace Markup

def Value.isText : Value → Bool
  | text _ => true
  | _ => false

/-- All attribute values are texts. -/
def Tag.Textual (t : Tag) : Prop := ∀ a ∈ t.attributes, a.2.isText = true

instance (t : Tag) : Decidable t.Textual :=
  inferInstanceAs (Decidable (∀ a ∈ t.attributes, a.2.isText = true))

/-- The same element, with other attributes. -/
def Tag.Alike (t u : Tag) : Prop := u.name = t.name ∧ u.kind = t.kind

theorem Tag.Alike.trans {t u v : Tag} (h : t.Alike u) (k : u.Alike v) : t.Alike v :=
  ⟨k.1.trans h.1, k.2.trans h.2⟩

/-! ## Tags that have been read -/

namespace Recovery

variable (r : Recovery)

theorem textual_tag (t : Html.Tag) : (r.tag t).Textual := by
  refine Attributes.forall_mem_ofList fun a ha => ?_
  obtain ⟨b, -, rfl⟩ := List.mem_map.1 ha
  rfl

theorem textual_root_nodes {keep : Bool} {f : Html.Tree} {t : Tag} {cs : Tree}
    (h : (r.nodes keep f).root? = some (t, cs)) : t.Textual := by
  induction f with
  | nil => exact absurd h (by simp [nodes, Forest.root?])
  | element u kids rest =>
    rw [← (Prod.mk.inj (Option.some.inj h)).1]
    exact r.textual_tag u
  | leaf l rest ih =>
    cases l with
    | text data => exact ih h
    | comment data => exact ih h

theorem textual_root_sectionContents {keep : Bool} {f : Html.Tree} {t : Tag} {cs : Tree}
    (h : (r.sectionContents keep f).root? = some (t, cs)) : t.Textual := by
  induction f with
  | nil => exact absurd h (by simp [sectionContents, Forest.root?])
  | element u kids rest _ ih =>
    rw [sectionContents] at h
    split at h
    · rw [Forest.root?_append, Option.or_eq_some_iff] at h
      rcases h with h | ⟨-, h⟩
      · exact r.textual_root_nodes h
      · exact ih h
    · exact ih h
  | leaf l rest ih => exact ih h

end Recovery
end Markup

namespace Binding
open Linked Markup

/-- What a wrapper is does not depend on what goes into it. -/
theorem Scan.exists_wrapper {s : Scan} {t : Tag} (h : s.wrapperTag? = some t) :
    ∃ content, ∀ c, s.wrapper c = .ok (t, content) := by
  unfold wrapperTag? wrapper at h
  dsimp only at h
  split at h
  · rename_i u content hw
    split at hw
    · exact absurd hw (by simp)
    · rename_i v kids hf
      obtain ⟨rfl, rfl⟩ := Prod.mk.inj (Except.ok.inj hw)
      refine ⟨kids, fun c => ?_⟩
      unfold wrapper
      simp only [hf, Option.some.inj h]
    · exact absurd hw (by simp)
    · exact absurd hw (by simp)
  · exact absurd h (by simp)

theorem Scan.textual_wrapper {s : Scan} {c : Content} {t : Tag} {content : Tree}
    (h : s.wrapper c = .ok (t, content)) : t.Textual := by
  unfold wrapper at h
  dsimp only at h
  split at h
  · exact absurd h (by simp)
  · rename_i u kids hf
    rw [← (Prod.mk.inj (Except.ok.inj h)).1]
    rw [Recovery.fragment] at hf
    split at hf
    · exact absurd hf (by simp)
    · rename_i root below hroot
      have hroot : (s.recovery.sectionContents (!s.collapsing) below).root? = some (u, kids) := by
        rw [Except.ok.inj hf]
        rfl
      exact s.recovery.textual_root_sectionContents hroot
  · exact absurd h (by simp)
  · exact absurd h (by simp)

/-! ## Attaching to texts -/

namespace Attacher

variable (a : Attacher) {t : Tag}

theorem exists_directive (h : t.Textual) : ∃ v, a.directive t = .ok v := by
  rw [directive]
  cases hg : t.attributes.get? a.directiveName with
  | none => exact ⟨[], rfl⟩
  | some v =>
    obtain ⟨as, bs, he, -⟩ := List.lookup_eq_some_iff.1 hg
    have hv := h (a.directiveName, v) (by simp [he])
    cases v with
    | text v => exact ⟨v, rfl⟩
    | null => exact absurd hv (by simp [Value.isText])
    | flag b => exact absurd hv (by simp [Value.isText])
    | number n => exact absurd hv (by simp [Value.isText])

theorem exists_pushClause (h : t.Textual) (c : Text) :
    ∃ u, a.pushClause t c = .ok u ∧ u.Textual ∧ t.Alike u := by
  obtain ⟨v, hv⟩ := a.exists_directive h
  refine ⟨{ t with attributes := t.attributes.set a.directiveName (.text (extend v c)) }, ?_, ?_,
    rfl, rfl⟩
  · rw [pushClause, hv]
    rfl
  · exact Attributes.forall_mem_set h rfl

theorem exists_attachAttribute (h : t.Textual) (name : Text) (chunks : List Text) :
    ∃ r, a.attachAttribute t name chunks = .ok r ∧ r.1.Textual ∧ t.Alike r.1 := by
  obtain ⟨u, hu, hut, hua⟩ := a.exists_pushClause h
    (a.dialect.clause (a.dialect.attributeHandler name) (a.compile chunks).expression)
  refine ⟨({ u with attributes := u.attributes.set name (.text (a.compile chunks).placeholder) },
    a.pushed t (a.dialect.clause (a.dialect.attributeHandler name)
      (a.compile chunks).expression)), ?_, ?_, hua⟩
  · rw [attachAttribute]
    simp only [hu]
    rfl
  · exact Attributes.forall_mem_set hut rfl

end Attacher

/-! ## Runs that come to an end -/

/-- The run does not fail, and ends as `Q` says. -/
def Ends {α : Type} (x : ScanM α) (p : Progress) (Q : α → Progress → Prop) : Prop :=
  ∃ a q, x p = .ok a q ∧ Q a q

namespace Ends

variable {α β : Type} {p : Progress} {x : ScanM α} {f : α → ScanM β} {Q : α → Progress → Prop}
  {R : β → Progress → Prop}

theorem pure {a : α} (h : Q a p) : Ends (Pure.pure a) p Q := ⟨a, p, rfl, h⟩

theorem bind (hx : Ends x p Q) (hf : ∀ a q, Q a q → Ends (f a) q R) : Ends (x >>= f) p R := by
  obtain ⟨a, q, hx, hq⟩ := hx
  obtain ⟨b, r, hf, hr⟩ := hf a q hq
  exact ⟨b, r, by simp [Bind.bind, EStateM.bind, hx, hf], hr⟩

theorem bind_eq {a : α} {q : Progress} (hx : x p = .ok a q) (hf : Ends (f a) q R) :
    Ends (x >>= f) p R :=
  bind (Q := fun b r => b = a ∧ r = q) ⟨a, q, hx, rfl, rfl⟩ fun _ _ h => h.1 ▸ h.2 ▸ hf

theorem mono (hx : Ends x p Q) {Q' : α → Progress → Prop} (h : ∀ a q, Q a q → Q' a q) :
    Ends x p Q' := by
  obtain ⟨a, q, hx, hq⟩ := hx
  exact ⟨a, q, hx, h a q hq⟩

/-- A loop keeps what each of its steps keeps. -/
theorem forM {I : Progress → Prop} {g : β → ScanM Unit} {bs : List β}
    (h : ∀ b ∈ bs, ∀ q, I q → Ends (g b) q fun _ => I) (hp : I p) :
    Ends (bs.forM g) p fun _ => I := by
  induction bs generalizing p with
  | nil => exact pure hp
  | cons b bs ih =>
    exact bind (h b List.mem_cons_self p hp) fun _ q hq =>
      ih (fun c hc => h c (List.mem_cons_of_mem b hc)) hq

end Ends

/-! ## States -/

/-- The scan of the document `d`, arranged as `f`, has put in the wrappers `w`. -/
structure Kept (s : Scan) (d : Document) (f : Shape) (w : Id → Option Id) (p : Progress) :
    Prop where
  shows : p.document.Shows (f.wrap w)
  size : d.store.size ≤ p.document.store.size
  elements : ∀ i ∈ f.labels, ∀ t, d.store.tag? i = some t →
    ∃ u, p.document.store.tag? i = some u ∧ t.Alike u
  leaves : ∀ i ∈ f.labels,
    (p.document.store.leaf? i).map Leaf.kind = (d.store.leaf? i).map Leaf.kind
  wrapped : ∀ i j, w i = some j → i ∈ f.labels ∧
    (d.store.leaf? i).map Leaf.kind = some .text ∧ d.store.size ≤ j ∧
    ∃ t u, s.wrapperTag? = some t ∧ p.document.store.tag? j = some u ∧ t.Alike u
  textual : ∀ i ∈ (f.wrap w).labels, ∀ t, p.document.store.tag? i = some t → t.Textual

namespace Kept

variable {s : Scan} {d : Document} {f : Shape} {w : Id → Option Id} {p p' : Progress}

theorem start (hd : d.Shows f)
    (ht : ∀ i ∈ f.labels, ∀ t ∈ d.store.tag? i, t.Textual) :
    Kept s d f (fun _ => none) (Progress.start d) where
  shows := by
    rw [Forest.wrap_none]
    exact hd
  size := Nat.le_refl _
  elements i _ t h := ⟨t, h, rfl, rfl⟩
  leaves _ _ := rfl
  wrapped _ _ h := absurd h (by simp)
  textual i hi := ht i (by rwa [Forest.wrap_none] at hi)

/-- One element gets other attributes, and texts may change. -/
theorem relabel (h : Kept s d f w p) {j : Id} {t u : Tag} (ht : p.document.store.tag? j = some t)
    (hu : u.Textual) (ha : t.Alike u) (hroots : p'.document.roots = p.document.roots)
    (hsize : p'.document.store.size = p.document.store.size)
    (hparts : ∀ k, p'.document.store.parts? k = p.document.store.parts? k)
    (hlinks : ∀ k, p'.document.store.links? k = p.document.store.links? k)
    (htag : ∀ k, p'.document.store.tag? k = if j = k then some u else p.document.store.tag? k)
    (hleaf : ∀ k, (p'.document.store.leaf? k).map Leaf.kind =
      (p.document.store.leaf? k).map Leaf.kind) : Kept s d f w p' := by
  have hlike {k : Id} {v : Tag} (hv : p.document.store.tag? k = some v) :
      ∃ v', p'.document.store.tag? k = some v' ∧ v.Alike v' := by
    rw [htag]
    by_cases hk : j = k
    · subst hk
      obtain rfl := Option.some.inj (ht.symm.trans hv)
      exact ⟨u, if_pos rfl, ha⟩
    · exact ⟨v, by rw [if_neg hk, hv], rfl, rfl⟩
  refine ⟨h.shows.congr hroots hparts hlinks, hsize ▸ h.size, ?_, ?_, ?_, ?_⟩
  · intro i hi v hv
    obtain ⟨v', hv', ha'⟩ := h.elements i hi v hv
    obtain ⟨v'', hv'', ha''⟩ := hlike hv'
    exact ⟨v'', hv'', ha'.trans ha''⟩
  · exact fun i hi => (hleaf i).trans (h.leaves i hi)
  · intro i k hk
    obtain ⟨hi, htext, hfresh, v, v', hw, hv', ha'⟩ := h.wrapped i k hk
    obtain ⟨v'', hv'', ha''⟩ := hlike hv'
    exact ⟨hi, htext, hfresh, v, v'', hw, hv'', ha'.trans ha''⟩
  · intro i hi v hv
    rw [htag] at hv
    split at hv
    · rwa [← Option.some.inj hv]
    · exact h.textual i hi v hv

theorem ends_attr (h : Kept s d f w p) {i : Id} (hi : i ∈ (f.wrap w).labels) {t : Tag}
    (ht : p.document.store.tag? i = some t) (name : Text) (chunks : List Text) :
    Ends (Scan.attachAttribute s.attacher i name chunks >>= fun _ => modify Progress.counted) p
      fun _ q => Kept s d f w q ∧ (q.document.store.tag? i).isSome := by
  obtain ⟨r, hr, hrt, hra⟩ := s.attacher.exists_attachAttribute (h.textual i hi t ht) name chunks
  refine ⟨(), ((p.withStore (·.setTag i r.1)).record r.2).counted, ?_, ?_, ?_⟩
  · have htag : Scan.tagOf i "attributes".toList p = .ok t p := Scan.tagOf_of_some ht _
    simp only [Scan.attachAttribute, bind, EStateM.bind, htag, hr, Scan.ofExcept]
    rfl
  · refine h.relabel ht hrt hra rfl (Store.size_update _ _ _) (fun k => Store.parts?_setTag _ _ _ _)
      (fun k => Store.links?_setTag _ _ _ _) (fun k => Store.tag?_setTag_of_some ht _ k) fun k => ?_
    exact congrArg _ (Store.leaf?_setTag _ _ _ _)
  · refine (congrArg _ (Store.tag?_setTag _ _ _ _)).trans ?_
    rw [if_pos rfl, ht]
    rfl

theorem ends_text (h : Kept s d f w p) {i j : Id} (hj : j ∈ (f.wrap w).labels) {t : Tag}
    (ht : p.document.store.tag? j = some t) (node : Node) (chunks : List Text) :
    Ends (Scan.attachText s.attacher i node j chunks >>= fun _ => modify Progress.counted) p
      fun _ q => Kept s d f w q := by
  obtain ⟨u, hu, hut, hua⟩ :=
    s.attacher.exists_pushClause (h.textual j hj t ht) (s.attacher.textClause node chunks).1
  refine ⟨(), ((p.withStore fun st =>
    (st.setTag j u).setData i (s.attacher.textClause node chunks).2).record
      (s.attacher.pushed t (s.attacher.textClause node chunks).1)).counted, ?_, ?_⟩
  · have htag : Scan.tagOf j "attributes".toList p = .ok t p := Scan.tagOf_of_some ht _
    simp only [Scan.attachText, bind, EStateM.bind, htag, hu, Scan.ofExcept]
    rfl
  · refine h.relabel ht hut hua rfl ((Store.size_update _ _ _).trans (Store.size_update _ _ _))
      (fun k => (Store.parts?_setData _ _ _ _).trans (Store.parts?_setTag _ _ _ _))
      (fun k => (Store.links?_setData _ _ _ _).trans (Store.links?_setTag _ _ _ _))
      (fun k => (Store.tag?_setData _ _ _ _).trans (Store.tag?_setTag_of_some ht _ k)) fun k => ?_
    refine (congrArg _ (Store.leaf?_setData _ _ _ _)).trans ?_
    rw [Store.leaf?_setTag]
    split
    · exact Option.map_map ..
    · rfl

/-- A text goes into an element of its own. -/
theorem wrap (h : Kept s d f w p) {owner : Option Id} {done rest : Shape} {i : Id} {t : Tag}
    (content : Tree) (hl : f.Level owner (done ++ .leaf i rest)) (hi : w i = none)
    (htext : (d.store.leaf? i).map Leaf.kind = some .text) (ht : s.wrapperTag? = some t)
    (htt : t.Textual)
    (hd : p'.document = p.document.wrap t content owner (done.wrap w).tops.length i) :
    Kept s d f (Function.update w i (some p.document.store.size)) p' := by
  have hlevel := hl.wrap_leaf hi
  have hwrapper : (p.document.wrap t content owner (done.wrap w).tops.length i).store.tag?
      p.document.store.size = some t := h.shows.tag?_wrapper hlevel
  have hlt {k : Id} (hk : k ∈ f.labels) : k < p.document.store.size :=
    h.shows.owns.lt_size (Forest.mem_labels_wrap_of_mem w hk)
  refine ⟨?_, ?_, ?_, ?_, ?_, ?_⟩
  · rw [hd, ← Forest.wrap_wrap_only hi]
    exact h.shows.wrap hlevel
  · rw [hd]
    exact Nat.le_trans h.size (Nat.le_of_lt (Store.lt_size_of_tag? hwrapper))
  · intro k hk
    rw [hd, h.shows.tag?_wrap hlevel (hlt hk)]
    exact h.elements k hk
  · intro k hk
    rw [hd, h.shows.leaf?_wrap hlevel (hlt hk)]
    exact h.leaves k hk
  · intro k j hk
    by_cases hki : k = i
    · subst hki
      rw [Function.update_self] at hk
      obtain rfl := Option.some.inj hk
      refine ⟨hl.mem_labels (by simp [Forest.labels]), htext, h.size, t, t, ht, ?_, rfl, rfl⟩
      rw [hd, hwrapper]
    · rw [Function.update_of_ne hki] at hk
      obtain ⟨hkf, hkt, hfresh, t₀, u, hw, hu, ha⟩ := h.wrapped k j hk
      refine ⟨hkf, hkt, hfresh, t₀, u, hw, ?_, ha⟩
      rw [hd, h.shows.tag?_wrap hlevel (Store.lt_size_of_tag? hu), hu]
  · intro k hk u hu
    rw [← Forest.wrap_wrap_only hi] at hk
    rw [hd] at hu
    rcases Forest.mem_labels_wrap_only hk with hk | rfl
    · rw [h.shows.tag?_wrap hlevel (h.shows.owns.lt_size hk)] at hu
      exact h.textual k hk u hu
    · rw [hwrapper] at hu
      exact Option.some.inj hu ▸ htt

end Kept
end Binding
end InlineBinding
