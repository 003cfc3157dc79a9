import InlineBinding.Proofs.Linked.Gathering

/-!
# The place of a leaf in print

What is printed before and behind a leaf does not depend on its data.
-/
namespace InlineBinding.Linked
open Markup

namespace Store

variable {s : Store} {t : Tree}

theorem exists_bears {f : Shape} (h : s.Owns f) : ∃ t, s.Bears t f := by
  induction f with
  | nil => exact ⟨.nil, trivial⟩
  | element i cs rest ihc ihr =>
    obtain ⟨hi, hc, hr⟩ := h
    obtain ⟨-, t, -, -, ht⟩ := tag?_of_parts? hi
    obtain ⟨u, hu⟩ := ihc hc
    obtain ⟨v, hv⟩ := ihr hr
    exact ⟨.element t u v, ht, hu, hv⟩
  | leaf i rest ih =>
    obtain ⟨-, l, -, -, hl, -⟩ := leaf?_of_parts? h.1
    obtain ⟨v, hv⟩ := ih h.2
    exact ⟨.leaf l v, hl, hv⟩

theorem tag?_eq_none_of_leaf? {i : Id} {l : Leaf} (h : s.leaf? i = some l) : s.tag? i = none := by
  rw [leaf?_eq, Option.join_eq_some_iff, Option.map_eq_some_iff] at h
  obtain ⟨⟨c, _, _, _⟩, hn, hc⟩ := h
  rw [tag?_eq, hn, Option.map_some]
  cases c with
  | element t ids => exact absurd hc (by simp [Content.leaf?])
  | leaf l => rfl

theorem isNil_of_bears {f : Shape} {i : Id} (h : s.Bears t f) (hi : i ∈ f.labels) :
    isNil t = false := by
  cases t with
  | nil =>
    cases f with
    | nil => exact absurd hi List.not_mem_nil
    | element j is more => exact h.elim
    | leaf j more => exact h.elim
  | element _ _ _ => rfl
  | leaf _ _ => rfl

theorem Bears.setData {f : Shape} {i : Id} (h : s.Bears t f) (hi : i ∉ f.labels) (data : Text) :
    (s.setData i data).Bears t f := by
  refine bears_congr h (fun j _ => tag?_setData s i j data) fun j hj => ?_
  have hne : i ≠ j := fun he => hi (he ▸ hj)
  rw [leaf?_setData, if_neg hne]

/-- Other data in a leaf changes the print at one place. -/
theorem Bears.exists_render {f : Shape} {i : Id} {l : Leaf} (xhtml : Bool) (h : s.Bears t f)
    (hf : f.labels.Nodup) (hi : i ∈ f.labels) (hl : s.leaf? i = some l) :
    ∃ a b, ∀ data, ∃ t', (s.setData i data).Bears t' f ∧
      render xhtml t' = a ++ renderLeaf { l with data := data } ++ b := by
  fun_induction s.Bears t f with
  | case1 => exact absurd hi List.not_mem_nil
  | case2 t cs rest j is more ihc ihr =>
    obtain ⟨ht, hc, hr⟩ := h
    obtain ⟨-, -, hnc, hnr, hd⟩ := Forest.nodup_element hf
    have htag (data : Text) : (s.setData i data).tag? j = some t :=
      (tag?_setData s i j data).trans ht
    rw [Forest.labels, List.mem_cons, List.mem_append] at hi
    rcases hi with rfl | hi | hi
    · rw [tag?_eq_none_of_leaf? hl] at ht
      exact absurd ht (by simp)
    · obtain ⟨a, b, hab⟩ := ihc hc hnc hi
      refine ⟨openTag t ++ '>' :: a, b ++ closeTag t ++ render xhtml rest, fun data => ?_⟩
      obtain ⟨t', ht', hrender⟩ := hab data
      refine ⟨.element t t' rest, ⟨htag data, ht', hr.setData (hd i hi) data⟩, ?_⟩
      rw [render, renderElement, isNil_of_bears ht' hi, hrender]
      simp
    · obtain ⟨a, b, hab⟩ := ihr hr hnr hi
      refine ⟨renderElement xhtml t (!isNil cs) (render xhtml cs) ++ a, b, fun data => ?_⟩
      obtain ⟨t', ht', hrender⟩ := hab data
      refine ⟨.element t cs t', ⟨htag data, hc.setData (fun hc => hd i hc hi) data, ht'⟩, ?_⟩
      rw [render, hrender]
      simp only [List.append_assoc]
  | case3 k rest j more ih =>
    obtain ⟨hk, hr⟩ := h
    obtain ⟨hj, hnr⟩ := List.nodup_cons.1 hf
    rcases List.mem_cons.1 hi with rfl | hi
    · refine ⟨[], render xhtml rest, fun data => ?_⟩
      refine ⟨.leaf { l with data := data } rest, ⟨?_, hr.setData hj data⟩, rfl⟩
      rw [leaf?_setData, if_pos rfl, hl, Option.map_some]
    · obtain ⟨a, b, hab⟩ := ih hr hnr hi
      refine ⟨renderLeaf k ++ a, b, fun data => ?_⟩
      obtain ⟨t', ht', hrender⟩ := hab data
      have hne : i ≠ j := fun he => hj (he ▸ hi)
      refine ⟨.leaf k t', ⟨?_, ht'⟩, ?_⟩
      · rw [leaf?_setData, if_neg hne]
        exact hk
      · rw [render, hrender]
        simp only [List.append_assoc]
  | case4 => exact h.elim

end Store

namespace Document

/-- The document with other data in a leaf. -/
def withData (d : Document) (i : Id) (data : Text) : Document :=
  { d with store := d.store.setData i data }

section Data

variable {d : Document} {f : Shape} {i : Id} {l : Leaf} (h : d.Shows f)

include h

theorem shows_withData (data : Text) : (d.withData i data).Shows f :=
  h.congr rfl (Store.parts?_setData d.store i · data) (Store.links?_setData d.store i · data)

theorem toTree_withData_self (hl : d.store.leaf? i = some l) :
    (d.withData i l.data).toTree = d.toTree := by
  obtain ⟨t, ht⟩ := Store.exists_bears h.owns
  rw [toTree_eq_of_bears h ht]
  refine toTree_eq_of_bears (shows_withData h l.data)
    (Store.bears_congr ht (fun j _ => Store.tag?_setData d.store i j l.data) fun j _ => ?_)
  refine (Store.leaf?_setData d.store i j l.data).trans ?_
  split
  · rename_i hj
    obtain rfl := hj
    rw [hl, Option.map_some]
  · rfl

theorem exists_render (xhtml : Bool) (hi : i ∈ f.labels) (hl : d.store.leaf? i = some l) :
    ∃ a b, ∀ data,
      render xhtml (d.withData i data).toTree = a ++ renderLeaf { l with data := data } ++ b := by
  obtain ⟨t, ht⟩ := Store.exists_bears h.owns
  obtain ⟨a, b, hab⟩ := ht.exists_render xhtml h.nodup hi hl
  refine ⟨a, b, fun data => ?_⟩
  obtain ⟨t', ht', hrender⟩ := hab data
  rw [toTree_eq_of_bears (shows_withData h data) ht', hrender]

end Data

end Document
end InlineBinding.Linked
