import InlineBinding.Proofs.Linked.Planting

/-! # Wrapping a leaf in its place

A wrapper takes the place of a leaf among its siblings and gets the leaf as its only child.  The
document then shows the arrangement with that leaf wrapped, and no label or leaf has changed.
-/
namespace InlineBinding.Linked
open Markup (Tag Leaf Tree)
open Forest (only)

namespace Store

/-! ## Grafting -/

section Grafting

variable {s s' : Store} {f sib : Shape} {p i w : Id}

theorem Owns.graft (h : s.Owns f) (hf : f.labels.Nodup) (hb : f.Below p sib) (hi : i ∈ sib.tops)
    (he : ∀ j ∈ f.labels, j ≠ p → s'.parts? j = s.parts? j)
    (hp : s'.parts? p = some (some (sib.wrap (only i w)).tops))
    (hs : s'.Owns (sib.wrap (only i w))) : s'.Owns (f.wrap (only i w)) := by
  have hl := Forest.mem_labels_of_mem_tops hi
  induction hb with
  | here p cs rest =>
    obtain ⟨hpc, hpr, hc, hr, hd⟩ := Forest.nodup_element hf
    rw [Forest.wrap, Forest.wrap_only_of_notMem (hd i hl)]
    refine ⟨hp, hs, h.2.2.congr fun j hj => he j ?_ ?_⟩
    · exact List.mem_cons_of_mem p (List.mem_append_right _ hj)
    · rintro rfl
      exact hpr hj
  | child j rest hb ih =>
    obtain ⟨hjc, hjr, hc, hr, hd⟩ := Forest.nodup_element hf
    rw [Forest.wrap, Forest.wrap_only_of_notMem (hd i (hb.mem_labels hl))]
    refine ⟨?_, ?_, ?_⟩
    · rw [Forest.tops_wrap_only (hb.notMem_tops hc hl), he j List.mem_cons_self]
      · exact h.1
      · rintro rfl
        exact hjc hb.mem
    · exact ih h.2.1 hc hi
        (fun k hk => he k (List.mem_cons_of_mem j (List.mem_append_left _ hk))) hp hs hl
    · refine h.2.2.congr fun k hk => he k ?_ ?_
      · exact List.mem_cons_of_mem j (List.mem_append_right _ hk)
      · rintro rfl
        exact hd k hb.mem hk
  | later j cs hb ih =>
    obtain ⟨hjc, hjr, hc, hr, hd⟩ := Forest.nodup_element hf
    rw [Forest.wrap, Forest.wrap_only_of_notMem fun hic => hd i hic (hb.mem_labels hl)]
    refine ⟨?_, ?_, ?_⟩
    · rw [he j List.mem_cons_self]
      · exact h.1
      · rintro rfl
        exact hjr hb.mem
    · refine h.2.1.congr fun k hk => he k ?_ ?_
      · exact List.mem_cons_of_mem j (List.mem_append_left _ hk)
      · rintro rfl
        exact hd k hk hb.mem
    · exact ih h.2.2 hr hi
        (fun k hk => he k (List.mem_cons_of_mem j (List.mem_append_right _ hk))) hp hs hl
  | behind j hb ih =>
    obtain ⟨hjr, hr⟩ := List.nodup_cons.1 hf
    have hji : j ≠ i := by
      rintro rfl
      exact hjr (hb.mem_labels hl)
    rw [Forest.wrap_leaf_of_none (Forest.only_of_ne hji)]
    refine ⟨?_, ?_⟩
    · rw [he j List.mem_cons_self]
      · exact h.1
      · rintro rfl
        exact hjr hb.mem
    · exact ih h.2 hr hi (fun k hk => he k (List.mem_cons_of_mem j hk)) hp hs hl

theorem Leads.graft {owner prev : Option Id} (h : s.Leads owner prev f) (hf : f.labels.Nodup)
    (hb : f.Below p sib) (hi : i ∈ sib.tops)
    (he : ∀ j ∈ f.labels, j ∉ sib.tops → s'.links? j = s.links? j)
    (hs : s'.Leads (some p) none (sib.wrap (only i w))) :
    s'.Leads owner prev (f.wrap (only i w)) := by
  have hl := Forest.mem_labels_of_mem_tops hi
  induction hb generalizing owner prev with
  | here p cs rest =>
    obtain ⟨hpc, hpr, hc, hr, hd⟩ := Forest.nodup_element hf
    rw [Forest.wrap, Forest.wrap_only_of_notMem (hd i hl)]
    refine ⟨?_, hs, h.2.2.congr fun j hj => he j ?_ fun ht => ?_⟩
    · rw [he p List.mem_cons_self fun ht => hpc (Forest.mem_labels_of_mem_tops ht)]
      exact h.1
    · exact List.mem_cons_of_mem p (List.mem_append_right _ hj)
    · exact hd j (Forest.mem_labels_of_mem_tops ht) hj
  | child j rest hb ih =>
    obtain ⟨hjc, hjr, hc, hr, hd⟩ := Forest.nodup_element hf
    have hsub {k : Id} (hk : k ∈ _) := hb.mem_labels (Forest.mem_labels_of_mem_tops hk)
    rw [Forest.wrap, Forest.wrap_only_of_notMem (hd i (hb.mem_labels hl))]
    refine ⟨?_, ?_, ?_⟩
    · rw [he j List.mem_cons_self fun ht => hjc (hsub ht)]
      exact h.1
    · exact ih h.2.1 hc hi
        (fun k hk => he k (List.mem_cons_of_mem j (List.mem_append_left _ hk))) hs hl
    · refine h.2.2.congr fun k hk => he k ?_ fun ht => hd k (hsub ht) hk
      exact List.mem_cons_of_mem j (List.mem_append_right _ hk)
  | later j cs hb ih =>
    obtain ⟨hjc, hjr, hc, hr, hd⟩ := Forest.nodup_element hf
    have hsub {k : Id} (hk : k ∈ _) := hb.mem_labels (Forest.mem_labels_of_mem_tops hk)
    rw [Forest.wrap, Forest.wrap_only_of_notMem fun hic => hd i hic (hb.mem_labels hl)]
    refine ⟨?_, ?_, ?_⟩
    · rw [Forest.tops_wrap_only (hb.notMem_tops hr hl),
        he j List.mem_cons_self fun ht => hjr (hsub ht)]
      exact h.1
    · refine h.2.1.congr fun k hk => he k ?_ fun ht => hd k hk (hsub ht)
      exact List.mem_cons_of_mem j (List.mem_append_left _ hk)
    · exact ih h.2.2 hr hi
        (fun k hk => he k (List.mem_cons_of_mem j (List.mem_append_right _ hk))) hs hl
  | behind j hb ih =>
    obtain ⟨hjr, hr⟩ := List.nodup_cons.1 hf
    have hsub {k : Id} (hk : k ∈ _) := hb.mem_labels (Forest.mem_labels_of_mem_tops hk)
    have hji : j ≠ i := by
      rintro rfl
      exact hjr (hb.mem_labels hl)
    rw [Forest.wrap_leaf_of_none (Forest.only_of_ne hji)]
    refine ⟨?_, ?_⟩
    · rw [Forest.tops_wrap_only (hb.notMem_tops hr hl),
        he j List.mem_cons_self fun ht => hjr (hsub ht)]
      exact h.1
    · exact ih h.2 hr hi (fun k hk => he k (List.mem_cons_of_mem j hk)) hs hl

end Grafting

/-! ## The new element -/

/-- A store with one more element, linked to nothing, and the nodes below it. -/
def withWrapper (s : Store) (tag : Tag) (content : Tree) : Store :=
  (plant (.element tag content .nil) s).2.link none [s.size]

variable (s : Store) (tag : Tag) (content : Tree)

theorem grows_withWrapper : s.Grows (s.withWrapper tag content) := by
  refine grows_linkFrom (grows_plant _ s).1 (fun i hi => ?_) fun p hp => absurd hp (by simp)
  exact Nat.le_of_eq (List.mem_singleton.1 hi).symm

theorem get?_withWrapper : ∃ kids n, (s.withWrapper tag content).get? s.size = some n ∧
    n.content = .element tag kids := by
  have ha : (s.add (.element tag [])).2.get? s.size = some (.unlinked (.element tag [])) := by
    rw [get?_add, if_pos rfl]
  have hlt : s.size < (s.add (.element tag [])).2.size := by
    rw [add, size, size, Array.size_push]
    exact Nat.lt_succ_self _
  have hg := (grows_plant content (s.add (.element tag [])).2).1.get? s.size hlt
  rw [ha] at hg
  generalize hp : plant content (s.add (.element tag [])).2 = planted at hg
  have hc : ((s.withWrapper tag content).get? s.size).map (fun n => n.content) =
      some (.element tag planted.1) := by
    rw [withWrapper, plant_element, hp]
    refine (map_get?_linkFrom id none _ _ _).trans ?_
    refine (map_get?_linkFrom id none _ _ _).trans ?_
    rw [setChildren, get?_update_self, hg]
    rfl
  obtain ⟨n, hn, hc⟩ := Option.map_eq_some_iff.1 hc
  exact ⟨planted.1, n, hn, hc⟩

end Store

/-! ## Splicing -/

theorem replaceSlice_one {α : Type} (a b : List α) (x y : α) :
    replaceSlice a.length 1 [y] (a ++ x :: b) = a ++ y :: b := by
  have h1 : clampIndex (a ++ x :: b).length a.length = a.length := by
    rw [clampIndex, if_neg (by omega), Int.toNat_natCast, List.length_append, List.length_cons]
    omega
  have h2 : clampIndex (a ++ x :: b).length (a.length + 1) = a.length + 1 := by
    rw [clampIndex, if_neg (by omega), List.length_append, List.length_cons]
    omega
  rw [replaceSlice, h1, h2, Nat.max_eq_right (Nat.le_add_right _ 1), List.take_left' rfl,
    List.append_assoc, ← List.drop_drop, List.drop_left' rfl]
  rfl

theorem replaceSlice_all {α : Type} (new old : List α) :
    replaceSlice 0 old.length new old = new := by
  have h1 : clampIndex old.length 0 = 0 := by simp [clampIndex]
  have h2 : clampIndex old.length (0 + old.length) = old.length := by
    rw [clampIndex, if_neg (by omega)]
    omega
  rw [replaceSlice, h1, h2, Nat.max_eq_right (Nat.zero_le _), List.take_zero, List.drop_length,
    List.nil_append, List.append_nil]

namespace Document

variable {d : Document} {owner : Option Id}

@[simp] theorem tag?_setSiblings (d : Document) (ids : List Id) (owner : Option Id) (j : Id) :
    (d.setSiblings ids owner).store.tag? j = d.store.tag? j := by
  cases owner with
  | none => rfl
  | some p => exact Store.tag?_setChildren d.store p j ids

@[simp] theorem leaf?_setSiblings (d : Document) (ids : List Id) (owner : Option Id) (j : Id) :
    (d.setSiblings ids owner).store.leaf? j = d.store.leaf? j := by
  cases owner with
  | none => rfl
  | some p => exact Store.leaf?_setChildren d.store p j ids

@[simp] theorem links?_setSiblings (d : Document) (ids : List Id) (owner : Option Id) (j : Id) :
    (d.setSiblings ids owner).store.links? j = d.store.links? j := by
  cases owner with
  | none => rfl
  | some p => exact Store.links?_setChildren d.store p j ids

theorem parts?_setSiblings (d : Document) (ids : List Id) (owner : Option Id) (j : Id) :
    (d.setSiblings ids owner).store.parts? j =
      if owner = some j then (d.store.parts? j).map (Option.map fun _ => ids)
      else d.store.parts? j := by
  cases owner with
  | none => rfl
  | some p =>
    rw [setSiblings, Store.parts?_setChildren]
    by_cases hp : p = j
    · rw [if_pos hp, if_pos (by rw [hp])]
    · rw [if_neg hp, if_neg fun he => hp (Option.some.inj he)]

theorem Shows.siblings_eq {f sib : Shape} (h : d.Shows f) (hl : f.Level owner sib) :
    d.siblings owner = sib.tops := by
  cases owner with
  | none =>
    change sib = f at hl
    rw [siblings, h.roots, hl]
  | some p =>
    rw [siblings, Store.children_eq, (h.owns.below hl).1]
    rfl

theorem Shows.leads_level {f sib : Shape} (h : d.Shows f) (hl : f.Level owner sib) :
    d.store.Leads owner none sib := by
  cases owner with
  | none =>
    change sib = f at hl
    rw [hl]
    exact h.leads
  | some p => exact h.leads.below hl

theorem Shows.owns_level {f sib : Shape} (h : d.Shows f) (hl : f.Level owner sib) :
    d.store.Owns sib := by
  cases owner with
  | none =>
    change sib = f at hl
    rw [hl]
    exact h.owns
  | some p => exact (h.owns.below hl).2

/-! ## The whole operation -/

section Wrap

variable {f done rest : Shape} {i : Id} (tag : Tag) (content : Tree)

/-- The wrapper in the place of the leaf. -/
def placed (d : Document) (tag : Tag) (content : Tree) (owner : Option Id) (ids : List Id) :
    Document :=
  { store := ((({ d with store := d.store.withWrapper tag content } : Document).setSiblings
      ids owner).store).link owner ids,
    roots := if owner = none then ids else d.roots }

theorem Shows.wrap_eq (h : d.Shows f) (hl : f.Level owner (done ++ .leaf i rest)) :
    d.wrap tag content owner done.tops.length i =
      let d' := d.placed tag content owner (done.tops ++ d.store.size :: rest.tops)
      { d' with
        store := (d'.store.setChildren d.store.size [i]).link (some d.store.size) [i] } := by
  have hs : ({ d with store := d.store.withWrapper tag content } : Document).siblings owner =
      done.tops ++ i :: rest.tops := by
    have hd := h.siblings_eq hl
    rw [Forest.tops_append, Forest.tops] at hd
    rw [← hd]
    cases owner with
    | none => rfl
    | some p =>
      have hp := h.owns.lt_size (Forest.Below.mem hl)
      rw [siblings, siblings, Store.children_eq, Store.children_eq, Store.parts?, Store.parts?,
        (Store.grows_withWrapper d.store tag content).get? p hp]
  have hw : d.wrap tag content owner done.tops.length i =
      let d₀ : Document := { d with store := d.store.withWrapper tag content }
      let d₁ := d₀.splice owner done.tops.length 1 [d.store.size]
      d₁.splice (some d.store.size) 0 (d₁.siblings (some d.store.size)).length [i] := rfl
  have hd : ({ d with store := d.store.withWrapper tag content } : Document).splice owner
      done.tops.length 1 [d.store.size] =
        d.placed tag content owner (done.tops ++ d.store.size :: rest.tops) := by
    rw [splice, hs, replaceSlice_one, placed]
    cases owner <;> rfl
  rw [hw]
  simp only [hd]
  rw [splice, replaceSlice_all]
  rfl

variable {tag content}

theorem links?_placed_of_notMem {ids : List Id} {j : Id} (hj : j < d.store.size) (hn : j ∉ ids) :
    (d.placed tag content owner ids).store.links? j = d.store.links? j := by
  rw [placed, Store.link, Store.links?_linkFrom_of_notMem hn (by simp), links?_setSiblings,
    Store.links?, (Store.grows_withWrapper d.store tag content).get? j hj, Store.links?]

theorem parts?_placed {ids : List Id} {j : Id} (hj : j < d.store.size) :
    (d.placed tag content owner ids).store.parts? j =
      if owner = some j then (d.store.parts? j).map (Option.map fun _ => ids)
      else d.store.parts? j := by
  rw [placed, Store.parts?_link, parts?_setSiblings, Store.parts?,
    (Store.grows_withWrapper d.store tag content).get? j hj, Store.parts?]

theorem Shows.leads_placed (h : d.Shows f) (hl : f.Level owner (done ++ .leaf i rest)) :
    (d.placed tag content owner (done.tops ++ d.store.size :: rest.tops)).store.Leads owner none
      (done ++ .leaf d.store.size rest) := by
  have hown := h.owns_level hl
  have hlt {j : Id} (hj : j ∈ done.labels ++ rest.labels) : j < d.store.size := by
    apply hown.lt_size
    rw [Forest.labels_append, Forest.labels]
    rcases List.mem_append.1 hj with hj | hj
    · exact List.mem_append_left _ hj
    · exact List.mem_append_right _ (List.mem_cons_of_mem i hj)
  have hlinks {j : Id} (hj : j ∈ done.labels ++ rest.labels) (ids : List Id) :
      (({ d with store := d.store.withWrapper tag content } : Document).setSiblings
        ids owner).store.links? j = d.store.links? j := by
    rw [links?_setSiblings, Store.links?,
      (Store.grows_withWrapper d.store tag content).get? j (hlt hj), Store.links?]
  have hnodup : (done ++ .leaf d.store.size rest : Shape).labels.Nodup := by
    have hn := hl.nodup h.nodup
    rw [Forest.labels_append, Forest.labels, List.nodup_append, List.nodup_cons] at hn ⊢
    obtain ⟨hnd, ⟨-, hnr⟩, hd⟩ := hn
    refine ⟨hnd, ⟨fun hw => ?_, hnr⟩, fun x hx y hy => ?_⟩
    · exact Nat.lt_irrefl _ (hlt (List.mem_append_right _ hw))
    · rcases List.mem_cons.1 hy with rfl | hy
      · exact Nat.ne_of_lt (hlt (List.mem_append_left _ hx))
      · exact hd x hx y (List.mem_cons_of_mem i hy)
  have htops : (done ++ .leaf d.store.size rest : Shape).tops =
      done.tops ++ d.store.size :: rest.tops := Forest.tops_append _ _
  have hin : d.store.LeadsInside (done ++ .leaf d.store.size rest) := by
    have hin := (h.leads_level hl).inside
    rw [Store.leadsInside_append] at hin ⊢
    exact hin
  have hmem {j : Id} (hj : j ∈ (done ++ .leaf d.store.size rest : Shape).labels)
      (hw : j ≠ d.store.size) : j ∈ done.labels ++ rest.labels := by
    rw [Forest.labels_append, Forest.labels, List.mem_append, List.mem_cons] at hj
    exact List.mem_append.2 (hj.imp_right fun hj => hj.resolve_left hw)
  rw [placed, ← htops, Store.link]
  apply Store.leads_linkFrom
  · refine hin.congr hnodup fun j hj hn => hlinks (hmem hj ?_) _
    rintro rfl
    exact hn (by rw [htops]; simp)
  · exact hnodup
  · intro j hj
    by_cases hw : j = d.store.size
    · obtain ⟨kids, n, hn, -⟩ := d.store.get?_withWrapper tag content
      rw [links?_setSiblings, hw, Store.links?, hn]
      simp
    · have hj := hmem (Forest.mem_labels_of_mem_tops hj) hw
      rw [hlinks hj]
      apply hown.links?_ne_none
      rw [Forest.labels_append, Forest.labels]
      rcases List.mem_append.1 hj with hj | hj
      · exact List.mem_append_left _ hj
      · exact List.mem_append_right _ (List.mem_cons_of_mem i hj)
  · exact fun p hp => absurd hp (by simp)

/-- A leaf becomes an element that holds it. -/
theorem Store.Leads.enclose {s : Store} {prev : Option Id} {w : Id}
    (h : s.Leads owner prev (done ++ .leaf w rest)) (hi : s.links? i = some ⟨some w, none, none⟩) :
    s.Leads owner prev (done ++ .element w (.leaf i .nil) rest) := by
  have ht (done : Shape) : (done ++ .element w (.leaf i .nil) rest : Shape).tops =
      (done ++ .leaf w rest : Shape).tops := by
    rw [Forest.tops_append, Forest.tops_append]
    rfl
  induction done generalizing prev with
  | nil => exact ⟨h.1, ⟨hi, trivial⟩, h.2⟩
  | element j cs done _ ih =>
    refine ⟨?_, h.2.1, ih h.2.2⟩
    change s.links? j = some (Links.mk _ _ (done ++ _ : Shape).tops.head?)
    rw [ht]
    exact h.1
  | leaf j done ih =>
    refine ⟨?_, ih h.2⟩
    change s.links? j = some (Links.mk _ _ (done ++ _ : Shape).tops.head?)
    rw [ht]
    exact h.1

/-- The leaf goes into the wrapper that has taken its place. -/
def filled (d : Document) (w i : Id) : Document :=
  { d with store := (d.store.setChildren w [i]).link (some w) [i] }

theorem parts?_filled (d : Document) (w i j : Id) : (d.filled w i).store.parts? j =
    if w = j then (d.store.parts? j).map (Option.map fun _ => [i]) else d.store.parts? j := by
  rw [filled, Store.parts?_link, Store.parts?_setChildren]

theorem links?_filled_of_ne (d : Document) (w : Id) {i j : Id} (h : j ≠ i) :
    (d.filled w i).store.links? j = d.store.links? j := by
  rw [filled, Store.link, Store.links?_linkFrom_of_notMem (by simpa using h) (by simp),
    Store.links?_setChildren]

theorem links?_filled_self {d : Document} (w : Id) {i : Id} (h : d.store.links? i ≠ none) :
    (d.filled w i).store.links? i = some ⟨some w, none, none⟩ := by
  rw [filled, Store.link, Store.linkFrom_cons, Store.linkFrom,
    Store.links?_linkNext_self _ (by simp), Store.links?_setChildren]
  cases hl : d.store.links? i with
  | none => exact absurd hl h
  | some l => rfl

theorem Shows.owns_wrap (h : d.Shows f) (hl : f.Level owner (done ++ .leaf i rest)) :
    ((d.placed tag content owner (done.tops ++ d.store.size :: rest.tops)).filled
      d.store.size i).store.Owns (f.wrap (only i d.store.size)) := by
  have hsib := Forest.wrap_only_append (j := d.store.size) (hl.nodup h.nodup)
  have hlt {j : Id} (hj : j ∈ f.labels) := h.owns.lt_size hj
  have hkeep {j : Id} (hj : j ∈ f.labels) (ho : owner ≠ some j) :
      ((d.placed tag content owner (done.tops ++ d.store.size :: rest.tops)).filled
        d.store.size i).store.parts? j = d.store.parts? j := by
    rw [parts?_filled, if_neg (Nat.ne_of_gt (hlt hj)), parts?_placed (hlt hj), if_neg ho]
  have hnew : ((d.placed tag content owner (done.tops ++ d.store.size :: rest.tops)).filled
      d.store.size i).store.parts? d.store.size = some (some [i]) := by
    obtain ⟨kids, n, hn, hc⟩ := d.store.get?_withWrapper tag content
    rw [parts?_filled, if_pos rfl, placed, Store.parts?_link, parts?_setSiblings, Store.parts?, hn]
    split <;> simp [hc, Content.parts]
  have hnot {j : Id} (hj : j ∈ (done ++ .leaf i rest : Shape).labels) : owner ≠ some j := by
    rintro rfl
    exact Forest.Below.notMem hl h.nodup hj
  have hlevel : ((d.placed tag content owner (done.tops ++ d.store.size :: rest.tops)).filled
      d.store.size i).store.Owns (done ++ .element d.store.size (.leaf i .nil) rest) := by
    have hown := (h.owns_level hl).congr fun j hj => hkeep (hl.mem_labels hj) (hnot hj)
    rw [Store.owns_append] at hown ⊢
    exact ⟨hown.1, hnew, ⟨hown.2.1, trivial⟩, hown.2.2⟩
  cases owner with
  | none =>
    change _ = f at hl
    rw [← hl, hsib]
    exact hlevel
  | some p =>
    have hp := Forest.Below.mem hl
    refine h.owns.graft h.nodup hl (by simp [Forest.tops]) (fun j hj hne => ?_) ?_ ?_
    · exact hkeep hj fun he => hne (Option.some.inj he).symm
    · rw [parts?_filled, if_neg (Nat.ne_of_gt (hlt hp)), parts?_placed (hlt hp), if_pos rfl,
        (h.owns.below hl).1, hsib, Forest.tops_append, Forest.tops_append]
      rfl
    · rw [hsib]
      exact hlevel

theorem Shows.leads_wrap (h : d.Shows f) (hl : f.Level owner (done ++ .leaf i rest)) :
    ((d.placed tag content owner (done.tops ++ d.store.size :: rest.tops)).filled
      d.store.size i).store.Leads none none (f.wrap (only i d.store.size)) := by
  have hnodup := hl.nodup h.nodup
  have hsib := Forest.wrap_only_append (j := d.store.size) hnodup
  have hi : i ∈ (done ++ .leaf i rest : Shape).tops := by simp [Forest.tops]
  have hif := hl.mem_labels (Forest.mem_labels_of_mem_tops hi)
  have hkeep {j : Id} (hj : j ∈ f.labels) (hn : j ∉ (done ++ .leaf i rest : Shape).tops) :
      ((d.placed tag content owner (done.tops ++ d.store.size :: rest.tops)).filled
        d.store.size i).store.links? j = d.store.links? j := by
    have hj := h.owns.lt_size hj
    rw [Forest.tops_append, Forest.tops, List.mem_append, List.mem_cons] at hn
    rw [links?_filled_of_ne _ _ fun he => hn (Or.inr (Or.inl he)), links?_placed_of_notMem hj]
    rw [List.mem_append, List.mem_cons]
    exact fun hm => hn (hm.imp_right fun hm => Or.inr (hm.resolve_left (Nat.ne_of_lt hj)))
  have hlevel : ((d.placed tag content owner (done.tops ++ d.store.size :: rest.tops)).filled
      d.store.size i).store.Leads owner none
        (done ++ .element d.store.size (.leaf i .nil) rest) := by
    have hin : i ∉ (done ++ .leaf d.store.size rest : Shape).labels := by
      rw [Forest.labels_append, Forest.labels, List.nodup_append, List.nodup_cons] at hnodup
      rw [Forest.labels_append, Forest.labels, List.mem_append, List.mem_cons]
      rintro (hj | hj | hj)
      · exact hnodup.2.2 _ hj _ List.mem_cons_self rfl
      · exact Nat.ne_of_lt (h.owns.lt_size hif) hj
      · exact hnodup.2.1.1 hj
    have hid : i ∉ done.tops ++ d.store.size :: rest.tops := by
      intro hm
      apply hin
      apply Forest.mem_labels_of_mem_tops
      rw [Forest.tops_append]
      exact hm
    apply Store.Leads.enclose
    · refine (h.leads_placed hl).congr fun j hj => links?_filled_of_ne _ _ ?_
      rintro rfl
      exact hin hj
    · apply links?_filled_self
      rw [links?_placed_of_notMem (h.owns.lt_size hif) hid]
      exact h.owns.links?_ne_none hif
  cases owner with
  | none =>
    change _ = f at hl
    rw [← hl, hsib]
    exact hlevel
  | some p =>
    refine h.leads.graft h.nodup hl hi (fun j hj hn => hkeep hj hn) ?_
    rw [hsib]
    exact hlevel

/-- Wrapping a leaf shows the arrangement with the leaf wrapped. -/
theorem Shows.wrap (h : d.Shows f) (hl : f.Level owner (done ++ .leaf i rest)) :
    (d.wrap tag content owner done.tops.length i).Shows (f.wrap (only i d.store.size)) := by
  rw [h.wrap_eq tag content hl]
  refine ⟨?_, ?_, h.owns_wrap hl, h.leads_wrap hl⟩
  · cases owner with
    | none =>
      change _ = f at hl
      rw [← hl, Forest.wrap_only_append (hl ▸ h.nodup), Forest.tops_append]
      rfl
    | some p =>
      have hi : i ∈ (done ++ .leaf i rest : Shape).labels := by simp [Forest.labels]
      rw [Forest.tops_wrap_only (Forest.Below.notMem_tops hl h.nodup hi), ← h.roots]
      rfl
  · exact Forest.nodup_wrap_only h.nodup fun hw => Nat.lt_irrefl _ (h.owns.lt_size hw)

/-! ### What is left as it was -/

theorem Shows.tag?_wrap (h : d.Shows f) (hl : f.Level owner (done ++ .leaf i rest)) {j : Id}
    (hj : j < d.store.size) :
    (d.wrap tag content owner done.tops.length i).store.tag? j = d.store.tag? j := by
  rw [h.wrap_eq tag content hl]
  simp only [placed, Store.tag?_link, Store.tag?_setChildren, tag?_setSiblings]
  rw [Store.tag?, (Store.grows_withWrapper d.store tag content).get? j hj, Store.tag?]

theorem Shows.leaf?_wrap (h : d.Shows f) (hl : f.Level owner (done ++ .leaf i rest)) {j : Id}
    (hj : j < d.store.size) :
    (d.wrap tag content owner done.tops.length i).store.leaf? j = d.store.leaf? j := by
  rw [h.wrap_eq tag content hl]
  simp only [placed, Store.leaf?_link, Store.leaf?_setChildren, leaf?_setSiblings]
  rw [Store.leaf?, (Store.grows_withWrapper d.store tag content).get? j hj, Store.leaf?]

theorem Shows.tag?_wrapper (h : d.Shows f) (hl : f.Level owner (done ++ .leaf i rest)) :
    (d.wrap tag content owner done.tops.length i).store.tag? d.store.size = some tag := by
  obtain ⟨kids, n, hn, hc⟩ := d.store.get?_withWrapper tag content
  rw [h.wrap_eq tag content hl]
  simp only [placed, Store.tag?_link, Store.tag?_setChildren, tag?_setSiblings]
  rw [Store.tag?_eq, hn, Option.map_some, hc]
  rfl

end Wrap

end Document
end InlineBinding.Linked
