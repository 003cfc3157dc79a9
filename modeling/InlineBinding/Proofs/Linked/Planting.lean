import InlineBinding.Proofs.Linked.Held

/-! # Planting a tree

A planted tree gets the next identities in document order, and the nodes that were there before
stay as they are.  Planted into an empty store, a tree becomes a document of its own arrangement.
-/
namespace InlineBinding.Linked
open Markup (Tag Leaf Tree)

namespace Store

theorem size_linkFrom (owner prev : Option Id) (ids : List Id) (s : Store) :
    (linkFrom owner prev ids s).size = s.size := by
  induction ids generalizing prev s with
  | nil => rfl
  | cons i ids ih =>
    rw [linkFrom_cons, ih]
    cases prev with
    | none => exact size_update _ _ _
    | some p => exact (size_update _ _ _).trans (size_update _ _ _)

/-- Planting adds nodes behind those that are there. -/
structure Grows (s s' : Store) : Prop where
  size : s.size ≤ s'.size
  get? : ∀ j, j < s.size → s'.get? j = s.get? j

theorem Grows.refl (s : Store) : s.Grows s := ⟨Nat.le_refl _, fun _ _ => rfl⟩

theorem Grows.trans {s t u : Store} (h : s.Grows t) (k : t.Grows u) : s.Grows u :=
  ⟨Nat.le_trans h.size k.size,
    fun j hj => (k.get? j (Nat.lt_of_lt_of_le hj h.size)).trans (h.get? j hj)⟩

theorem grows_add (s : Store) (c : Content) : s.Grows (s.add c).2 := by
  refine ⟨?_, fun j hj => ?_⟩
  · rw [add, size, size, Array.size_push]
    exact Nat.le_succ _
  · rw [get?_add, if_neg (Nat.ne_of_lt hj)]

theorem grows_update {s t : Store} (h : s.Grows t) {i : Id} (hi : s.size ≤ i) (f : Node → Node) :
    s.Grows (t.update i f) := by
  refine ⟨?_, fun j hj => ?_⟩
  · rw [size_update]
    exact h.size
  · rw [get?_update_of_ne _ _ (Nat.ne_of_gt (Nat.lt_of_lt_of_le hj hi))]
    exact h.get? j hj

theorem grows_linkFrom {s t : Store} (h : s.Grows t) {owner prev : Option Id} {ids : List Id}
    (hi : ∀ i ∈ ids, s.size ≤ i) (hp : ∀ p, prev = some p → s.size ≤ p) :
    s.Grows (linkFrom owner prev ids t) := by
  induction ids generalizing prev t with
  | nil => exact h
  | cons i ids ih =>
    have hu := grows_update h (hi i List.mem_cons_self)
    rw [linkFrom_cons]
    refine ih ?_ (fun j hj => hi j (List.mem_cons_of_mem i hj)) ?_
    · cases prev with
      | none => exact hu _
      | some p => exact grows_update (hu _) (hp p rfl) _
    · rintro p he
      exact Option.some.inj he ▸ hi i List.mem_cons_self

/-- Planted siblings become the children of an element. -/
def adopt (i : Id) (planted : List Id × Store) : Store :=
  (planted.2.setChildren i planted.1).link (some i) planted.1

theorem plant_element (t : Tag) (cs rest : Tree) (s : Store) :
    plant (.element t cs rest) s =
      let s' := adopt s.size (plant cs (s.add (.element t [])).2)
      (s.size :: (plant rest s').1, (plant rest s').2) := rfl

theorem grows_adopt {s : Store} {i : Id} {planted : List Id × Store} (hi : s.size ≤ i)
    (h : s.Grows planted.2) (hp : ∀ j ∈ planted.1, s.size ≤ j) : s.Grows (adopt i planted) :=
  grows_linkFrom (grows_update h hi _) hp fun _ he => absurd he (by simp)

theorem grows_plant (t : Tree) (s : Store) :
    s.Grows (plant t s).2 ∧ ∀ i ∈ (plant t s).1, s.size ≤ i := by
  induction t generalizing s with
  | nil => exact ⟨.refl s, fun _ h => absurd h List.not_mem_nil⟩
  | leaf l rest ih =>
    have ha := grows_add s (.leaf l)
    obtain ⟨hg, hi⟩ := ih (s.add (.leaf l)).2
    refine ⟨ha.trans hg, fun i h => ?_⟩
    rcases List.mem_cons.1 h with rfl | h
    · exact Nat.le_refl _
    · exact Nat.le_trans ha.size (hi i h)
  | element t cs rest ihc ihr =>
    have ha := grows_add s (.element t [])
    obtain ⟨hc, hic⟩ := ihc (s.add (.element t [])).2
    have hl := grows_adopt (Nat.le_refl _) (ha.trans hc) fun i h => Nat.le_trans ha.size (hic i h)
    rw [plant_element]
    obtain ⟨hr, hir⟩ := ihr (adopt s.size (plant cs (s.add (.element t [])).2))
    refine ⟨hl.trans hr, fun i h => ?_⟩
    rcases List.mem_cons.1 h with rfl | h
    · exact Nat.le_refl _
    · exact Nat.le_trans hl.size (hir i h)

theorem Grows.parts?_eq {s s' : Store} (h : s.Grows s') {j : Id} (hj : j < s.size) :
    s'.parts? j = s.parts? j := by
  rw [parts?, h.get? j hj, parts?]

theorem Grows.links?_eq {s s' : Store} (h : s.Grows s') {j : Id} (hj : j < s.size) :
    s'.links? j = s.links? j := by
  rw [links?, h.get? j hj, links?]

end Store

/-! ## The arrangement of a tree -/

def count : Tree → ℕ
  | .nil => 0
  | .element _ cs rest => count cs + count rest + 1
  | .leaf _ rest => count rest + 1

/-- Identities in document order, from `n` on. -/
def numbered : ℕ → Tree → Shape
  | _, .nil => .nil
  | n, .element _ cs rest => .element n (numbered (n + 1) cs) (numbered (n + 1 + count cs) rest)
  | n, .leaf _ rest => .leaf n (numbered (n + 1) rest)

theorem labels_numbered (n : ℕ) (t : Tree) : (numbered n t).labels = List.range' n (count t) := by
  induction t generalizing n with
  | nil => rfl
  | element t cs rest ihc ihr =>
    rw [numbered, Forest.labels, ihc, ihr, count, List.range'_succ, List.range'_append_1]
  | leaf l rest ih => rw [numbered, Forest.labels, ih, count, List.range'_succ]

theorem nodup_numbered (n : ℕ) (t : Tree) : (numbered n t).labels.Nodup := by
  rw [labels_numbered]
  exact List.nodup_range' ..

theorem mem_numbered {n : ℕ} {t : Tree} {i : Id} :
    i ∈ (numbered n t).labels ↔ n ≤ i ∧ i < n + count t := by
  rw [labels_numbered, List.mem_range'_1]

namespace Store

theorem size_add (s : Store) (c : Content) : (s.add c).2.size = s.size + 1 := Array.size_push _

theorem size_adopt (i : Id) (planted : List Id × Store) :
    (adopt i planted).size = planted.2.size :=
  (size_linkFrom _ _ _ _).trans (size_update _ _ _)

/-- What planting a tree behind the nodes of `s` has brought about. -/
structure Planted (s : Store) (t : Tree) (planted : List Id × Store) : Prop where
  size : planted.2.size = s.size + count t
  tops : planted.1 = (numbered s.size t).tops
  owns : planted.2.Owns (numbered s.size t)
  inside : planted.2.LeadsInside (numbered s.size t)

theorem Planted.adopt {s : Store} {cs : Tree} {planted : List Id × Store}
    (h : s.Planted cs planted) {i : Id} (hi : i < s.size) {ids : List Id}
    (hp : planted.2.parts? i = some (some ids)) :
    (adopt i planted).parts? i = some (some (numbered s.size cs).tops) ∧
      (adopt i planted).Owns (numbered s.size cs) ∧
      (adopt i planted).Leads (some i) none (numbered s.size cs) := by
  have hne {j : Id} (hj : j ∈ (numbered s.size cs).labels) : i ≠ j :=
    Nat.ne_of_lt (Nat.lt_of_lt_of_le hi (mem_numbered.1 hj).1)
  refine ⟨?_, ?_, ?_⟩
  · rw [Store.adopt, parts?_link, parts?_setChildren, if_pos rfl, hp, h.tops]
    rfl
  · refine h.owns.congr fun j hj => ?_
    rw [Store.adopt, parts?_link, parts?_setChildren, if_neg (hne hj)]
  · rw [Store.adopt, h.tops]
    apply leads_linkFrom
    · exact h.inside.congr (nodup_numbered _ _) fun j _ _ => links?_setChildren _ _ _ _
    · exact nodup_numbered _ _
    · intro j hj
      rw [links?_setChildren]
      exact h.owns.links?_ne_none (Forest.mem_labels_of_mem_tops hj)
    · exact fun p hp => absurd hp (by simp)

theorem planted (t : Tree) (s : Store) : s.Planted t (plant t s) := by
  induction t generalizing s with
  | nil => exact ⟨rfl, rfl, trivial, trivial⟩
  | leaf l rest ih =>
    have ha := size_add s (.leaf l)
    have hg := (grows_plant rest (s.add (.leaf l)).2).1
    obtain ⟨hsize, htops, howns, hinside⟩ := ih (s.add (.leaf l)).2
    rw [ha] at hsize htops howns hinside
    refine ⟨?_, ?_, ⟨?_, howns⟩, hinside⟩
    · rw [count]
      exact hsize.trans (by omega)
    · exact congrArg (s.size :: ·) htops
    · have hlt : s.size < (s.add (.leaf l)).2.size := by omega
      refine (hg.parts?_eq hlt).trans ?_
      rw [parts?, get?_add, if_pos rfl]
      rfl
  | element t cs rest ihc ihr =>
    have ha := size_add s (.element t [])
    have hlt : s.size < (s.add (.element t [])).2.size := by omega
    have hc := ihc (s.add (.element t [])).2
    have hp : (plant cs (s.add (.element t [])).2).2.parts? s.size = some (some []) := by
      refine ((grows_plant cs _).1.parts?_eq hlt).trans ?_
      rw [parts?, get?_add, if_pos rfl]
      rfl
    obtain ⟨hparts, howns, hleads⟩ := hc.adopt hlt hp
    have hsize := hc.size
    rw [ha] at hparts howns hleads hsize
    rw [plant_element]
    dsimp only
    generalize hs' : adopt s.size (plant cs (s.add (.element t [])).2) = s' at *
    have hsize' : s'.size = s.size + 1 + count cs := by
      rw [← hs', size_adopt, hsize]
    have hr := ihr s'
    have hg := (grows_plant rest s').1
    have hin {j : Id} (hj : j ∈ (numbered (s.size + 1) cs).labels) : j < s'.size := by
      rw [hsize']
      exact (mem_numbered.1 hj).2
    refine ⟨?_, ?_, ⟨?_, ?_, ?_⟩, ?_, ?_⟩
    · rw [hr.size, hsize', count]
      omega
    · rw [hr.tops, numbered, hsize', Forest.tops]
    · have hi : s.size < s'.size := by omega
      exact (hg.parts?_eq hi).trans hparts
    · exact howns.congr fun j hj => hg.parts?_eq (hin hj)
    · exact hsize' ▸ hr.owns
    · exact hleads.congr fun j hj => hg.links?_eq (hin hj)
    · exact hsize' ▸ hr.inside

end Store

/-- The document of a tree. -/
theorem Document.shows_ofTree (t : Tree) : (Document.ofTree t).Shows (numbered 0 t) := by
  obtain ⟨hsize, htops, howns, hinside⟩ := Store.planted t Store.empty
  have hnodup := nodup_numbered 0 t
  refine ⟨htops, hnodup, howns.congr fun j _ => Store.parts?_link _ _ _, ?_⟩
  have hlinks (j : Id) (hj : j ∈ (numbered 0 t).tops) :
      (Store.plant t Store.empty).2.links? j ≠ none :=
    howns.links?_ne_none (Forest.mem_labels_of_mem_tops hj)
  have hnone (p : Id) (hp : none = some p) : p ∉ (numbered 0 t).labels := absurd hp (by simp)
  have hl : Store.Leads _ none none (numbered 0 t) :=
    Store.leads_linkFrom hinside hnodup hlinks hnone
  have htops : (Store.plant t Store.empty).1 = (numbered 0 t).tops := htops
  rwa [← htops] at hl

end InlineBinding.Linked
