import InlineBinding.Linked.Tree
import InlineBinding.Proofs.Linked.Shape

/-! # Stores that hold an arrangement

A document shows an arrangement when its children lists are those of the arrangement and the links
of every node lead to its neighbours there.  Children and links are read separately, since one
operation changes the ones and leaves the others alone.
-/
namespace InlineBinding.Linked
open Markup (Tag Leaf Tree)

abbrev Shape := Forest Id Id

namespace Content

/-- The children of an element; a leaf has no list. -/
def parts : Content → Option (List Id)
  | element _ cs => some cs
  | leaf _ => none

def tag? : Content → Option Tag
  | element t _ => some t
  | leaf _ => none

def leaf? : Content → Option Leaf
  | element _ _ => none
  | leaf l => some l

end Content

structure Links where
  parent : Option Id
  prev : Option Id
  next : Option Id

def Node.links (n : Node) : Links := ⟨n.parent, n.prev, n.next⟩

namespace Store

def parts? (s : Store) (i : Id) : Option (Option (List Id)) :=
  (s.get? i).map fun n => n.content.parts

def links? (s : Store) (i : Id) : Option Links := (s.get? i).map Node.links

theorem tag?_eq (s : Store) (i : Id) :
    s.tag? i = ((s.get? i).map fun n => n.content.tag?).join := by
  rw [tag?]
  cases s.get? i with
  | none => rfl
  | some n =>
    obtain ⟨c, _, _, _⟩ := n
    cases c <;> rfl

theorem leaf?_eq (s : Store) (i : Id) :
    s.leaf? i = ((s.get? i).map fun n => n.content.leaf?).join := by
  rw [leaf?]
  cases s.get? i with
  | none => rfl
  | some n =>
    obtain ⟨c, _, _, _⟩ := n
    cases c <;> rfl

theorem children_eq (s : Store) (i : Id) : s.children i = (s.parts? i).join.getD [] := by
  rw [children, parts?]
  cases s.get? i with
  | none => rfl
  | some n =>
    obtain ⟨c, _, _, _⟩ := n
    cases c <;> rfl

theorem anchor?_eq (s : Store) (i : Id) :
    s.anchor? i = (s.links? i).bind fun l => l.prev.or (l.parent.or l.next) := by
  rw [anchor?, links?]
  cases s.get? i <;> rfl

/-- An element has a label, and no data. -/
theorem tag?_of_parts? {s : Store} {i : Id} {cs : List Id} (h : s.parts? i = some (some cs)) :
    ∃ n t, s.get? i = some n ∧ n.content = .element t cs ∧ s.tag? i = some t := by
  obtain ⟨n, hn, hc⟩ := Option.map_eq_some_iff.1 h
  cases hcontent : n.content with
  | leaf l =>
    rw [hcontent] at hc
    exact absurd hc (by simp [Content.parts])
  | element t ids =>
    rw [hcontent] at hc
    obtain rfl := Option.some.inj hc
    exact ⟨n, t, hn, hcontent, by rw [tag?_eq, hn, Option.map_some, hcontent]; rfl⟩

theorem leaf?_of_parts? {s : Store} {i : Id} (h : s.parts? i = some none) :
    ∃ n l, s.get? i = some n ∧ n.content = .leaf l ∧ s.leaf? i = some l ∧ s.tag? i = none := by
  obtain ⟨n, hn, hc⟩ := Option.map_eq_some_iff.1 h
  cases hcontent : n.content with
  | element t ids =>
    rw [hcontent] at hc
    exact absurd hc (by simp [Content.parts])
  | leaf l =>
    refine ⟨n, l, hn, hcontent, ?_, ?_⟩
    · rw [leaf?_eq, hn, Option.map_some, hcontent]
      rfl
    · rw [tag?_eq, hn, Option.map_some, hcontent]
      rfl

theorem get?_eq_none_iff {s : Store} {i : Id} : s.get? i = none ↔ s.size ≤ i :=
  Array.getElem?_eq_none_iff

theorem lt_size_of_tag? {s : Store} {i : Id} {t : Tag} (h : s.tag? i = some t) : i < s.size := by
  by_contra hn
  rw [tag?, get?_eq_none_iff.2 (Nat.le_of_not_lt hn)] at h
  exact absurd h (by simp)

/-! ## What operations change -/

section Updates

variable (s : Store) (i j : Id)

/-- What an update makes of a reading. -/
theorem map_get?_update_of {β : Type} (q : Node → β) {f : Node → Node} {g : β → β}
    (h : ∀ n, q (f n) = g (q n)) : ((s.update i f).get? j).map q =
      if i = j then ((s.get? j).map q).map g else (s.get? j).map q := by
  rw [get?_update]
  split
  · rw [Option.map_map, Option.map_map]
    exact congrArg (fun r => (s.get? j).map r) (funext h)
  · rfl

/-- What an update does not touch reads the same. -/
theorem map_get?_update {β : Type} (q : Node → β) {f : Node → Node} (h : ∀ n, q (f n) = q n) :
    ((s.update i f).get? j).map q = (s.get? j).map q := by
  rw [map_get?_update_of s i j q (g := id) h, Option.map_id, id, ite_self]

variable (ids : List Id) (t : Tag) (data : Text)

@[simp] theorem links?_setChildren : (s.setChildren i ids).links? j = s.links? j := by
  apply map_get?_update
  rintro ⟨c, p, q, r⟩
  cases c <;> rfl

@[simp] theorem tag?_setChildren : (s.setChildren i ids).tag? j = s.tag? j := by
  rw [tag?_eq, tag?_eq]
  apply congrArg Option.join
  apply map_get?_update
  rintro ⟨c, p, q, r⟩
  cases c <;> rfl

@[simp] theorem leaf?_setChildren : (s.setChildren i ids).leaf? j = s.leaf? j := by
  rw [leaf?_eq, leaf?_eq]
  apply congrArg Option.join
  apply map_get?_update
  rintro ⟨c, p, q, r⟩
  cases c <;> rfl

theorem parts?_setChildren : (s.setChildren i ids).parts? j =
    if i = j then (s.parts? j).map (Option.map fun _ => ids) else s.parts? j := by
  apply map_get?_update_of
  rintro ⟨c, p, q, r⟩
  cases c <;> rfl

@[simp] theorem links?_setTag : (s.setTag i t).links? j = s.links? j := by
  apply map_get?_update
  rintro ⟨c, p, q, r⟩
  cases c <;> rfl

@[simp] theorem parts?_setTag : (s.setTag i t).parts? j = s.parts? j := by
  apply map_get?_update
  rintro ⟨c, p, q, r⟩
  cases c <;> rfl

@[simp] theorem leaf?_setTag : (s.setTag i t).leaf? j = s.leaf? j := by
  rw [leaf?_eq, leaf?_eq]
  apply congrArg Option.join
  apply map_get?_update
  rintro ⟨c, p, q, r⟩
  cases c <;> rfl

theorem tag?_setTag : (s.setTag i t).tag? j =
    if i = j then (s.tag? j).map fun _ => t else s.tag? j := by
  rw [tag?_eq, tag?_eq, ← Option.join_map_eq_map_join, ← apply_ite Option.join]
  apply congrArg Option.join
  apply map_get?_update_of
  rintro ⟨c, p, q, r⟩
  cases c <;> rfl

theorem tag?_setTag_of_some {s : Store} {i : Id} {u : Tag} (h : s.tag? i = some u) (t : Tag)
    (j : Id) : (s.setTag i t).tag? j = if i = j then some t else s.tag? j := by
  rw [tag?_setTag]
  split
  · rename_i he
    rw [← he, h, Option.map_some]
  · rfl

@[simp] theorem links?_setData : (s.setData i data).links? j = s.links? j := by
  apply map_get?_update
  rintro ⟨c, p, q, r⟩
  cases c <;> rfl

@[simp] theorem parts?_setData : (s.setData i data).parts? j = s.parts? j := by
  apply map_get?_update
  rintro ⟨c, p, q, r⟩
  cases c <;> rfl

@[simp] theorem tag?_setData : (s.setData i data).tag? j = s.tag? j := by
  rw [tag?_eq, tag?_eq]
  apply congrArg Option.join
  apply map_get?_update
  rintro ⟨c, p, q, r⟩
  cases c <;> rfl

theorem leaf?_setData : (s.setData i data).leaf? j =
    if i = j then (s.leaf? j).map fun l => { l with data := data } else s.leaf? j := by
  rw [leaf?_eq, leaf?_eq, ← Option.join_map_eq_map_join, ← apply_ite Option.join]
  apply congrArg Option.join
  apply map_get?_update_of
  rintro ⟨c, p, q, r⟩
  cases c <;> rfl

end Updates

/-! ## Linking -/

section Linking

variable {owner : Option Id}

/-- One step of linking: `i` comes after `prev`. -/
def linkNext (s : Store) (owner prev : Option Id) (i : Id) : Store :=
  let s := s.update i fun n => { n with parent := owner, prev := prev, next := none }
  match prev with
  | some p => s.update p fun n => { n with next := some i }
  | none => s

theorem linkFrom_cons (prev : Option Id) (i : Id) (ids : List Id) (s : Store) :
    linkFrom owner prev (i :: ids) s = linkFrom owner (some i) ids (s.linkNext owner prev i) := by
  cases prev <;> rfl

theorem links?_linkNext_self {prev : Option Id} {i : Id} (s : Store) (hp : prev ≠ some i) :
    (s.linkNext owner prev i).links? i = (s.links? i).map fun _ => ⟨owner, prev, none⟩ := by
  cases prev with
  | none =>
    rw [linkNext, links?, get?_update_self, links?]
    cases s.get? i <;> rfl
  | some p =>
    have hne : p ≠ i := fun he => hp (by rw [he])
    rw [linkNext, links?, get?_update_of_ne _ _ hne, get?_update_self, links?]
    cases s.get? i <;> rfl

theorem links?_linkNext_of_ne {prev : Option Id} {i j : Id} (s : Store) (hi : i ≠ j)
    (hp : prev ≠ some j) : (s.linkNext owner prev i).links? j = s.links? j := by
  cases prev with
  | none => rw [linkNext, links?, get?_update_of_ne _ _ hi, links?]
  | some p =>
    have hne : p ≠ j := fun he => hp (by rw [he])
    rw [linkNext, links?, get?_update_of_ne _ _ hne, get?_update_of_ne _ _ hi, links?]

/-- Linking changes links only. -/
theorem map_get?_linkFrom {β : Type} (q : Content → β) (prev : Option Id) (ids : List Id)
    (s : Store) (j : Id) :
    ((linkFrom owner prev ids s).get? j).map (fun n => q n.content) =
      (s.get? j).map fun n => q n.content := by
  induction ids generalizing prev s with
  | nil => rfl
  | cons i ids ih =>
    have hu (s : Store) (k : Id) {f : Node → Node} (hf : ∀ n, (f n).content = n.content) :
        ((s.update k f).get? j).map (fun n => q n.content) =
          (s.get? j).map fun n => q n.content :=
      map_get?_update s k j (fun n => q n.content) fun n => congrArg q (hf n)
    rw [linkFrom_cons, ih]
    cases prev with
    | none =>
      rw [linkNext, hu]
      exact fun _ => rfl
    | some p =>
      rw [linkNext, hu, hu]
      · exact fun _ => rfl
      · exact fun _ => rfl

@[simp] theorem parts?_link (s : Store) (ids : List Id) (j : Id) :
    (s.link owner ids).parts? j = s.parts? j :=
  map_get?_linkFrom Content.parts none ids s j

@[simp] theorem tag?_link (s : Store) (ids : List Id) (j : Id) :
    (s.link owner ids).tag? j = s.tag? j := by
  rw [tag?_eq, tag?_eq]
  exact congrArg Option.join (map_get?_linkFrom Content.tag? none ids s j)

@[simp] theorem leaf?_link (s : Store) (ids : List Id) (j : Id) :
    (s.link owner ids).leaf? j = s.leaf? j := by
  rw [leaf?_eq, leaf?_eq]
  exact congrArg Option.join (map_get?_linkFrom Content.leaf? none ids s j)

theorem links?_linkFrom_of_notMem {prev : Option Id} {ids : List Id} {s : Store} {j : Id}
    (hj : j ∉ ids) (hp : prev ≠ some j) : (linkFrom owner prev ids s).links? j = s.links? j := by
  induction ids generalizing prev s with
  | nil => rfl
  | cons i ids ih =>
    rw [List.mem_cons, not_or] at hj
    rw [linkFrom_cons, ih hj.2 fun h => hj.1 (Option.some.inj h).symm,
      links?_linkNext_of_ne s (Ne.symm hj.1) hp]

/-- The node before the first one gets it as its next. -/
theorem links?_linkFrom_prev {p : Id} {ids : List Id} {s : Store} (hp : p ∉ ids) :
    (linkFrom owner (some p) ids s).links? p =
      (s.links? p).map fun l => { l with next := ids.head?.or l.next } := by
  cases ids with
  | nil =>
    rw [linkFrom, links?]
    cases s.get? p <;> rfl
  | cons i ids =>
    rw [List.mem_cons, not_or] at hp
    rw [linkFrom_cons, links?_linkFrom_of_notMem hp.2 fun h => hp.1 (Option.some.inj h).symm,
      linkNext, links?, get?_update_self, get?_update_of_ne _ _ (Ne.symm hp.1), links?]
    cases s.get? p <;> rfl

end Linking
end Store

/-! ## Arrangements in a store -/

namespace Store

/-- Elements and leaves are those of the arrangement, and elements have its children. -/
def Owns (s : Store) : Shape → Prop
  | .nil => True
  | .element i cs rest => s.parts? i = some (some cs.tops) ∧ s.Owns cs ∧ s.Owns rest
  | .leaf i rest => s.parts? i = some none ∧ s.Owns rest

/-- Links lead to the owner and to the neighbours. -/
def Leads (s : Store) : (owner prev : Option Id) → Shape → Prop
  | _, _, .nil => True
  | owner, prev, .element i cs rest =>
    s.links? i = some ⟨owner, prev, rest.tops.head?⟩ ∧ s.Leads (some i) none cs ∧
      s.Leads owner (some i) rest
  | owner, prev, .leaf i rest =>
    s.links? i = some ⟨owner, prev, rest.tops.head?⟩ ∧ s.Leads owner (some i) rest

/-- The links below the siblings; those of the siblings themselves are left open. -/
def LeadsInside (s : Store) : Shape → Prop
  | .nil => True
  | .element i cs rest => s.Leads (some i) none cs ∧ s.LeadsInside rest
  | .leaf _ rest => s.LeadsInside rest

section Arrangement

variable {s s' : Store} {f g sib : Shape} {owner prev : Option Id} {p : Id}

theorem Owns.congr (h : s.Owns f) (he : ∀ j ∈ f.labels, s'.parts? j = s.parts? j) : s'.Owns f := by
  induction f with
  | nil => trivial
  | element i cs rest ihc ihr =>
    obtain ⟨hi, hc, hr⟩ := h
    exact ⟨(he i List.mem_cons_self).trans hi,
      ihc hc fun j hj => he j (Forest.mem_labels_of_children hj),
      ihr hr fun j hj => he j (Forest.mem_labels_of_rest hj)⟩
  | leaf i rest ih =>
    exact ⟨(he i List.mem_cons_self).trans h.1,
      ih h.2 fun j hj => he j (List.mem_cons_of_mem i hj)⟩

theorem owns_append : s.Owns (f ++ g) ↔ s.Owns f ∧ s.Owns g := by
  induction f with
  | nil => exact (true_and _).symm ▸ Iff.rfl
  | element i cs rest _ ih => rw [Forest.element_append, Owns, Owns, ih, and_assoc, and_assoc]
  | leaf i rest ih => rw [Forest.leaf_append, Owns, Owns, ih, and_assoc]

theorem Owns.below (h : s.Owns f) (hb : f.Below p sib) :
    s.parts? p = some (some sib.tops) ∧ s.Owns sib := by
  induction hb with
  | here p cs rest => exact ⟨h.1, h.2.1⟩
  | child j rest _ ih => exact ih h.2.1
  | later j cs _ ih => exact ih h.2.2
  | behind j _ ih => exact ih h.2

theorem Owns.lt_size (h : s.Owns f) {j : Id} (hj : j ∈ f.labels) : j < s.size := by
  have hlt {i : Id} {l : Option (List Id)} (hi : s.parts? i = some l) : i < s.size := by
    by_contra hn
    rw [parts?, get?_eq_none_iff.2 (Nat.le_of_not_lt hn)] at hi
    exact absurd hi (by simp)
  induction f with
  | nil => exact absurd hj List.not_mem_nil
  | element i cs rest ihc ihr =>
    rw [Forest.labels, List.mem_cons, List.mem_append] at hj
    rcases hj with rfl | hj | hj
    · exact hlt h.1
    · exact ihc h.2.1 hj
    · exact ihr h.2.2 hj
  | leaf i rest ih =>
    rcases List.mem_cons.1 hj with rfl | hj
    · exact hlt h.1
    · exact ih h.2 hj

theorem Owns.links?_ne_none (h : s.Owns f) {j : Id} (hj : j ∈ f.labels) : s.links? j ≠ none := by
  intro hn
  rw [links?, Option.map_eq_none_iff, get?_eq_none_iff] at hn
  exact Nat.not_lt.2 hn (h.lt_size hj)

theorem Leads.congr (h : s.Leads owner prev f) (he : ∀ j ∈ f.labels, s'.links? j = s.links? j) :
    s'.Leads owner prev f := by
  induction f generalizing owner prev with
  | nil => trivial
  | element i cs rest ihc ihr =>
    obtain ⟨hi, hc, hr⟩ := h
    exact ⟨(he i List.mem_cons_self).trans hi,
      ihc hc fun j hj => he j (Forest.mem_labels_of_children hj),
      ihr hr fun j hj => he j (Forest.mem_labels_of_rest hj)⟩
  | leaf i rest ih =>
    exact ⟨(he i List.mem_cons_self).trans h.1,
      ih h.2 fun j hj => he j (List.mem_cons_of_mem i hj)⟩

theorem Leads.right (h : s.Leads owner prev (f ++ g)) :
    s.Leads owner (f.tops.getLast?.or prev) g := by
  induction f generalizing prev with
  | nil => exact h
  | element i cs rest _ ih =>
    have hr := ih h.2.2
    rw [Forest.tops, List.getLast?_cons]
    cases hl : rest.tops.getLast? with
    | none => rwa [hl] at hr
    | some k => rwa [hl] at hr
  | leaf i rest ih =>
    have hr := ih h.2
    rw [Forest.tops, List.getLast?_cons]
    cases hl : rest.tops.getLast? with
    | none => rwa [hl] at hr
    | some k => rwa [hl] at hr

theorem Leads.below (h : s.Leads owner prev f) (hb : f.Below p sib) :
    s.Leads (some p) none sib := by
  induction hb generalizing owner prev with
  | here p cs rest => exact h.2.1
  | child j rest _ ih => exact ih h.2.1
  | later j cs _ ih => exact ih h.2.2
  | behind j _ ih => exact ih h.2

theorem Leads.inside (h : s.Leads owner prev f) : s.LeadsInside f := by
  induction f generalizing owner prev with
  | nil => trivial
  | element i cs rest _ ih => exact ⟨h.2.1, ih h.2.2⟩
  | leaf i rest ih => exact ih h.2

theorem leadsInside_append : s.LeadsInside (f ++ g) ↔ s.LeadsInside f ∧ s.LeadsInside g := by
  induction f with
  | nil => exact (true_and _).symm ▸ Iff.rfl
  | element i cs rest _ ih => rw [Forest.element_append, LeadsInside, LeadsInside, ih, and_assoc]
  | leaf i rest ih => rw [Forest.leaf_append, LeadsInside, LeadsInside, ih]

theorem LeadsInside.congr (h : s.LeadsInside f) (hf : f.labels.Nodup)
    (he : ∀ j ∈ f.labels, j ∉ f.tops → s'.links? j = s.links? j) : s'.LeadsInside f := by
  induction f with
  | nil => trivial
  | element i cs rest _ ih =>
    obtain ⟨-, hir, -, hr, -⟩ := Forest.nodup_element hf
    refine ⟨h.1.congr fun j hj => ?_, ih h.2 hr fun j hj hn => ?_⟩
    · exact he j (Forest.mem_labels_of_children hj)
        (Forest.Below.notMem_tops (.here i cs rest) hf hj)
    · refine he j (Forest.mem_labels_of_rest hj) fun ht => ?_
      rcases List.mem_cons.1 ht with rfl | ht
      · exact hir hj
      · exact hn ht
  | leaf i rest ih =>
    obtain ⟨hir, hr⟩ := List.nodup_cons.1 hf
    refine ih h hr fun j hj hn => he j (List.mem_cons_of_mem i hj) fun ht => ?_
    rcases List.mem_cons.1 ht with rfl | ht
    · exact hir hj
    · exact hn ht

/-- A node before its siblings, when these have been linked behind it. -/
theorem links?_first {i : Id} {rest : Shape} (hs : s.links? i ≠ none) (hp : prev ≠ some i)
    (hi : i ∉ rest.tops) :
    (linkFrom owner (some i) rest.tops (s.linkNext owner prev i)).links? i =
      some ⟨owner, prev, rest.tops.head?⟩ := by
  rw [links?_linkFrom_prev hi, links?_linkNext_self s hp]
  cases hl : s.links? i with
  | none => exact absurd hl hs
  | some l => cases rest.tops.head? <;> rfl

/-- Linking the siblings of an arrangement. -/
theorem leads_linkFrom (hin : s.LeadsInside f) (hf : f.labels.Nodup)
    (hs : ∀ j ∈ f.tops, s.links? j ≠ none) (hp : ∀ p, prev = some p → p ∉ f.labels) :
    (linkFrom owner prev f.tops s).Leads owner prev f := by
  induction f generalizing prev s with
  | nil => trivial
  | element i cs rest _ ih =>
    obtain ⟨hic, hir, hc, hr, hd⟩ := Forest.nodup_element hf
    have hpi : prev ≠ some i := fun he => hp i he List.mem_cons_self
    have hpj {j : Id} (hj : j ∈ cs.labels ++ rest.labels) : prev ≠ some j :=
      fun he => hp j he (List.mem_cons_of_mem i hj)
    have hstep {j : Id} (hj : j ∈ cs.labels ++ rest.labels) :
        (s.linkNext owner prev i).links? j = s.links? j := by
      refine links?_linkNext_of_ne s ?_ (hpj hj)
      rintro rfl
      exact (List.mem_append.1 hj).elim hic hir
    rw [Forest.tops, linkFrom_cons]
    refine ⟨?_, ?_, ?_⟩
    · exact links?_first (hs i List.mem_cons_self) hpi
        fun h => hir (Forest.mem_labels_of_mem_tops h)
    · refine hin.1.congr fun j hj => ?_
      rw [links?_linkFrom_of_notMem, hstep (List.mem_append_left _ hj)]
      · exact fun h => hd j hj (Forest.mem_labels_of_mem_tops h)
      · rintro he
        exact hic (Option.some.inj he ▸ hj)
    · refine ih (hin.2.congr hr fun j hj _ => hstep (List.mem_append_right _ hj)) hr ?_ ?_
      · intro j hj
        rw [hstep (List.mem_append_right _ (Forest.mem_labels_of_mem_tops hj))]
        exact hs j (List.mem_cons_of_mem i hj)
      · rintro p he
        exact Option.some.inj he ▸ hir
  | leaf i rest ih =>
    obtain ⟨hir, hr⟩ := List.nodup_cons.1 hf
    have hpi : prev ≠ some i := fun he => hp i he List.mem_cons_self
    have hstep {j : Id} (hj : j ∈ rest.labels) :
        (s.linkNext owner prev i).links? j = s.links? j := by
      refine links?_linkNext_of_ne s ?_ fun he => hp j he (List.mem_cons_of_mem i hj)
      rintro rfl
      exact hir hj
    rw [Forest.tops, linkFrom_cons]
    refine ⟨?_, ?_⟩
    · exact links?_first (hs i List.mem_cons_self) hpi
        fun h => hir (Forest.mem_labels_of_mem_tops h)
    · have hin : s.LeadsInside rest := hin
      refine ih (hin.congr hr fun j hj _ => hstep hj) hr ?_ ?_
      · intro j hj
        rw [hstep (Forest.mem_labels_of_mem_tops hj)]
        exact hs j (List.mem_cons_of_mem i hj)
      · rintro p he
        exact Option.some.inj he ▸ hir

end Arrangement

end Store

/-- A document that consists of the nodes of the arrangement, each of them once. -/
structure Document.Shows (d : Document) (f : Shape) : Prop where
  roots : d.roots = f.tops
  nodup : f.labels.Nodup
  owns : d.store.Owns f
  leads : d.store.Leads none none f

/-- Labels and texts can change without a change in the arrangement. -/
theorem Document.Shows.congr {d d' : Document} {f : Shape} (h : d.Shows f)
    (hr : d'.roots = d.roots) (hp : ∀ j, d'.store.parts? j = d.store.parts? j)
    (hl : ∀ j, d'.store.links? j = d.store.links? j) : d'.Shows f where
  roots := hr.trans h.roots
  nodup := h.nodup
  owns := h.owns.congr fun j _ => hp j
  leads := h.leads.congr fun j _ => hl j

end InlineBinding.Linked
