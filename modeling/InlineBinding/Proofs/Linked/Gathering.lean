import InlineBinding.Proofs.Binding.Complete
import InlineBinding.Proofs.Markup.Render

/-! # Reading a planted tree back

The nodes of a document hold the tags and leaves of the tree that it was made of, so the tree comes
out again as it was planted.
-/
namespace InlineBinding.Linked
open Markup (Tree)

namespace Store

/-- The nodes of an arrangement hold the tags and leaves of a tree. -/
def Bears (s : Store) : Tree → Shape → Prop
  | .nil, .nil => True
  | .element t cs rest, .element i is more =>
    s.tag? i = some t ∧ s.Bears cs is ∧ s.Bears rest more
  | .leaf l rest, .leaf i more => s.leaf? i = some l ∧ s.Bears rest more
  | _, _ => False

variable {s s' : Store} {t : Tree}

theorem bears_congr {f : Shape} (h : s.Bears t f) (ht : ∀ j ∈ f.labels, s'.tag? j = s.tag? j)
    (hl : ∀ j ∈ f.labels, s'.leaf? j = s.leaf? j) : s'.Bears t f := by
  fun_induction s.Bears t f with
  | case1 => trivial
  | case2 t cs rest i is more ihc ihr =>
    rw [Forest.labels, List.forall_mem_cons, List.forall_mem_append] at ht hl
    exact ⟨ht.1.trans h.1, ihc h.2.1 ht.2.1 hl.2.1, ihr h.2.2 ht.2.2 hl.2.2⟩
  | case3 l rest i more ih =>
    rw [Forest.labels, List.forall_mem_cons] at ht hl
    exact ⟨hl.1.trans h.1, ih h.2 ht.2 hl.2⟩
  | case4 => exact h.elim

theorem Grows.tag?_eq (h : s.Grows s') {j : Id} (hj : j < s.size) : s'.tag? j = s.tag? j := by
  rw [tag?, h.get? j hj, tag?]

theorem Grows.leaf?_eq (h : s.Grows s') {j : Id} (hj : j < s.size) : s'.leaf? j = s.leaf? j := by
  rw [leaf?, h.get? j hj, leaf?]

theorem bears_plant (t : Tree) (s : Store) : (plant t s).2.Bears t (numbered s.size t) := by
  induction t generalizing s with
  | nil => trivial
  | leaf l rest ih =>
    have ha := size_add s (.leaf l)
    have hlt : s.size < (s.add (.leaf l)).2.size := by omega
    refine ⟨?_, ha ▸ ih (s.add (.leaf l)).2⟩
    refine ((grows_plant rest _).1.leaf?_eq hlt).trans ?_
    rw [leaf?, get?_add, if_pos rfl]
    rfl
  | element t cs rest ihc ihr =>
    have ha := size_add s (.element t [])
    have hlt : s.size < (s.add (.element t [])).2.size := by omega
    have hc := ihc (s.add (.element t [])).2
    have hsize := (planted cs (s.add (.element t [])).2).size
    have htag : (plant cs (s.add (.element t [])).2).2.tag? s.size = some t := by
      refine ((grows_plant cs _).1.tag?_eq hlt).trans ?_
      rw [tag?, get?_add, if_pos rfl]
      rfl
    rw [ha] at hc hsize
    rw [plant_element]
    dsimp only
    generalize hs' : adopt s.size (plant cs (s.add (.element t [])).2) = s'
    have hg := (grows_plant rest s').1
    have hsize' : s'.size = s.size + 1 + count cs := by rw [← hs', size_adopt, hsize]
    have hin {j : Id} (hj : j ∈ (numbered (s.size + 1) cs).labels) : j < s'.size := by
      rw [hsize']
      exact (mem_numbered.1 hj).2
    refine ⟨?_, bears_congr hc (fun j hj => ?_) fun j hj => ?_, hsize' ▸ ihr s'⟩
    · have hi : s.size < s'.size := by omega
      rw [hg.tag?_eq hi, ← hs', adopt, tag?_link, tag?_setChildren, htag]
    · rw [hg.tag?_eq (hin hj), ← hs', adopt, tag?_link, tag?_setChildren]
    · rw [hg.leaf?_eq (hin hj), ← hs', adopt, leaf?_link, leaf?_setChildren]

theorem harvest_eq {f : Shape} {depth : ℕ} (h : s.Bears t f) (ho : s.Owns f)
    (hd : f.height ≤ depth) : s.harvest depth f.tops = t := by
  fun_induction s.Bears t f generalizing depth with
  | case1 => cases depth <;> rfl
  | case2 t cs rest i is more ihc ihr =>
    obtain ⟨ht, hc, hr⟩ := h
    obtain ⟨hi, hoc, hor⟩ := ho
    obtain ⟨n, u, hn, hcontent, hu⟩ := tag?_of_parts? hi
    obtain rfl := Option.some.inj (hu.symm.trans ht)
    simp only [Forest.height, Nat.max_le] at hd
    obtain ⟨k, rfl⟩ : ∃ k, depth = k + 1 := ⟨depth - 1, by omega⟩
    rw [Forest.tops, harvest_element hn hcontent, ihc hc hoc (Nat.le_of_succ_le_succ hd.1),
      ihr hr hor hd.2]
  | case3 l rest i more ih =>
    obtain ⟨hl, hr⟩ := h
    obtain ⟨n, k, hn, hcontent, hk, -⟩ := leaf?_of_parts? ho.1
    obtain rfl := Option.some.inj (hk.symm.trans hl)
    simp only [Forest.height, Nat.max_le] at hd
    obtain ⟨k, rfl⟩ : ∃ k, depth = k + 1 := ⟨depth - 1, by omega⟩
    rw [Forest.tops, harvest_leaf hn hcontent, ih hr ho.2 hd.2]
  | case4 => exact h.elim

end Store

namespace Document

theorem bears_ofTree (t : Tree) : (ofTree t).store.Bears t (numbered 0 t) :=
  Store.bears_congr (Store.bears_plant t Store.empty) (fun _ _ => Store.tag?_link _ _ _)
    fun _ _ => Store.leaf?_link _ _ _

theorem toTree_eq_of_bears {d : Document} {f : Shape} {t : Tree} (h : d.Shows f)
    (ht : d.store.Bears t f) : d.toTree = t := by
  rw [toTree, Store.tree, h.roots]
  exact Store.harvest_eq ht h.owns (Nat.le_succ_of_le h.height_le)

theorem toTree_ofTree (t : Tree) : (ofTree t).toTree = t :=
  toTree_eq_of_bears (shows_ofTree t) (bears_ofTree t)

end Document
end InlineBinding.Linked
