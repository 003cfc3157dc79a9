import InlineBinding.Forest
import Mathlib.Data.List.Nodup
import Mathlib.Data.List.Perm.Lattice

/-! # Arrangements

An arrangement is a forest of identities.  Wrapping puts some of its leaves into elements of their
own, one each, and leaves all other nodes where they are.
-/
namespace InlineBinding.Forest

variable {α : Type}

/-- The siblings, without what is below them. -/
def tops : Forest α α → List α
  | nil => []
  | element i _ rest => i :: tops rest
  | leaf i rest => i :: tops rest

/-- Parents before children. -/
def labels : Forest α α → List α
  | nil => []
  | element i cs rest => i :: (labels cs ++ labels rest)
  | leaf i rest => i :: labels rest

/-- The labels of all leaves. -/
def leafLabels : Forest α α → List α
  | nil => []
  | element _ cs rest => leafLabels cs ++ leafLabels rest
  | leaf i rest => i :: leafLabels rest

def height : Forest α α → ℕ
  | nil => 0
  | element _ cs rest => max (height cs + 1) (height rest)
  | leaf _ rest => max 1 (height rest)

theorem height_le_length_labels (f : Forest α α) : f.height ≤ f.labels.length := by
  induction f with
  | nil => exact Nat.le_refl 0
  | element i cs rest ihc ihr =>
    simp only [height, labels, List.length_cons, List.length_append]
    omega
  | leaf i rest ih =>
    simp only [height, labels, List.length_cons]
    omega

@[simp] theorem tops_append (f g : Forest α α) : (f ++ g).tops = f.tops ++ g.tops := by
  induction f with
  | nil => rfl
  | element i cs rest _ ih => rw [element_append, tops, ih, tops, List.cons_append]
  | leaf i rest ih => rw [leaf_append, tops, ih, tops, List.cons_append]

@[simp] theorem labels_append (f g : Forest α α) : (f ++ g).labels = f.labels ++ g.labels := by
  induction f with
  | nil => rfl
  | element i cs rest _ ih =>
    rw [element_append, labels, ih, labels, List.cons_append, List.append_assoc]
  | leaf i rest ih => rw [leaf_append, labels, ih, labels, List.cons_append]

theorem mem_labels_of_children {i x : α} {cs rest : Forest α α} (h : x ∈ cs.labels) :
    x ∈ (element i cs rest).labels :=
  List.mem_cons_of_mem i (List.mem_append_left _ h)

theorem mem_labels_of_rest {i x : α} {cs rest : Forest α α} (h : x ∈ rest.labels) :
    x ∈ (element i cs rest).labels :=
  List.mem_cons_of_mem i (List.mem_append_right _ h)

theorem mem_labels_of_mem_tops {f : Forest α α} {x : α} (h : x ∈ f.tops) : x ∈ f.labels := by
  induction f with
  | nil => exact h
  | element i cs rest _ ih =>
    rcases List.mem_cons.1 h with rfl | h
    · exact List.mem_cons_self
    · exact mem_labels_of_rest (ih h)
  | leaf i rest ih =>
    rcases List.mem_cons.1 h with rfl | h
    · exact List.mem_cons_self
    · exact List.mem_cons_of_mem i (ih h)

theorem mem_labels_of_mem_leafLabels {f : Forest α α} {x : α} (h : x ∈ f.leafLabels) :
    x ∈ f.labels := by
  induction f with
  | nil => exact h
  | element i cs rest ihc ihr =>
    rw [labels, List.mem_cons, List.mem_append]
    exact Or.inr ((List.mem_append.1 h).imp ihc ihr)
  | leaf i rest ih =>
    rcases List.mem_cons.1 h with rfl | h
    · exact List.mem_cons_self
    · exact List.mem_cons_of_mem i (ih h)

/-! ## Levels -/

/-- The children of an element somewhere in the forest. -/
inductive Below : Forest α α → α → Forest α α → Prop where
  | here (p : α) (cs rest : Forest α α) : Below (element p cs rest) p cs
  | child {cs : Forest α α} {p : α} {sib : Forest α α} (j : α) (rest : Forest α α)
      (h : Below cs p sib) : Below (element j cs rest) p sib
  | later {rest : Forest α α} {p : α} {sib : Forest α α} (j : α) (cs : Forest α α)
      (h : Below rest p sib) : Below (element j cs rest) p sib
  | behind {rest : Forest α α} {p : α} {sib : Forest α α} (j : α)
      (h : Below rest p sib) : Below (leaf j rest) p sib

/-- All siblings below an owner; those of the document itself are the forest. -/
def Level (f : Forest α α) : (owner : Option α) → Forest α α → Prop
  | none, sib => sib = f
  | some p, sib => f.Below p sib

variable {f g sib : Forest α α} {p x : α}

theorem Below.mem (h : f.Below p sib) : p ∈ f.labels := by
  induction h with
  | here p cs rest => exact List.mem_cons_self
  | child j rest _ ih => exact List.mem_cons_of_mem j (List.mem_append_left _ ih)
  | later j cs _ ih => exact List.mem_cons_of_mem j (List.mem_append_right _ ih)
  | behind j _ ih => exact List.mem_cons_of_mem j ih

theorem Below.mem_labels (h : f.Below p sib) (hx : x ∈ sib.labels) : x ∈ f.labels := by
  induction h with
  | here p cs rest => exact List.mem_cons_of_mem p (List.mem_append_left _ hx)
  | child j rest _ ih => exact List.mem_cons_of_mem j (List.mem_append_left _ (ih hx))
  | later j cs _ ih => exact List.mem_cons_of_mem j (List.mem_append_right _ (ih hx))
  | behind j _ ih => exact List.mem_cons_of_mem j (ih hx)

theorem Below.trans {q : α} (h : f.Below p g) (hg : g.Below q sib) : f.Below q sib := by
  induction h with
  | here p cs rest => exact .child p rest hg
  | child j rest _ ih => exact .child j rest (ih hg)
  | later j cs _ ih => exact .later j cs (ih hg)
  | behind j _ ih => exact .behind j (ih hg)

theorem below_append (f : Forest α α) (h : g.Below p sib) : (f ++ g).Below p sib := by
  induction f with
  | nil => exact h
  | element j cs rest _ ih => exact .later j cs ih
  | leaf j rest ih => exact .behind j ih

theorem nodup_element {j : α} {cs rest : Forest α α} (h : (element j cs rest).labels.Nodup) :
    j ∉ cs.labels ∧ j ∉ rest.labels ∧ cs.labels.Nodup ∧ rest.labels.Nodup ∧
      ∀ x ∈ cs.labels, x ∉ rest.labels := by
  rw [labels, List.nodup_cons, List.mem_append, not_or, List.nodup_append] at h
  obtain ⟨⟨hc, hr⟩, hnc, hnr, hd⟩ := h
  exact ⟨hc, hr, hnc, hnr, fun x hx hxr => hd x hx x hxr rfl⟩

theorem Below.nodup (h : f.Below p sib) (hf : f.labels.Nodup) : sib.labels.Nodup := by
  induction h with
  | here p cs rest => exact (nodup_element hf).2.2.1
  | child j rest _ ih => exact ih (nodup_element hf).2.2.1
  | later j cs _ ih => exact ih (nodup_element hf).2.2.2.1
  | behind j _ ih => exact ih (List.nodup_cons.1 hf).2

theorem Below.notMem (h : f.Below p sib) (hf : f.labels.Nodup) : p ∉ sib.labels := by
  induction h with
  | here p cs rest => exact (nodup_element hf).1
  | child j rest _ ih => exact ih (nodup_element hf).2.2.1
  | later j cs _ ih => exact ih (nodup_element hf).2.2.2.1
  | behind j _ ih => exact ih (List.nodup_cons.1 hf).2

/-- What is below an element is none of the siblings of the whole forest. -/
theorem Below.notMem_tops (h : f.Below p sib) (hf : f.labels.Nodup) (hx : x ∈ sib.labels) :
    x ∉ f.tops := by
  induction h with
  | here p cs rest =>
    obtain ⟨hc, -, -, -, hd⟩ := nodup_element hf
    rw [tops, List.mem_cons, not_or]
    exact ⟨fun he => hc (he ▸ hx), fun ht => hd x hx (mem_labels_of_mem_tops ht)⟩
  | child j rest h ih =>
    obtain ⟨hc, -, -, -, hd⟩ := nodup_element hf
    have hx := h.mem_labels hx
    rw [tops, List.mem_cons, not_or]
    exact ⟨fun he => hc (he ▸ hx), fun ht => hd x hx (mem_labels_of_mem_tops ht)⟩
  | later j cs h ih =>
    obtain ⟨-, hr, -, hn, -⟩ := nodup_element hf
    rw [tops, List.mem_cons, not_or]
    exact ⟨fun he => hr (he ▸ h.mem_labels hx), ih hn hx⟩
  | behind j h ih =>
    obtain ⟨hr, hn⟩ := List.nodup_cons.1 hf
    rw [tops, List.mem_cons, not_or]
    exact ⟨fun he => hr (he ▸ h.mem_labels hx), ih hn hx⟩

namespace Level

variable {owner : Option α}

theorem child {done : Forest α α} {i : α} {cs rest : Forest α α}
    (h : f.Level owner (done ++ element i cs rest)) : f.Level (some i) cs := by
  have hb : (done ++ element i cs rest).Below i cs := below_append done (.here i cs rest)
  cases owner with
  | none =>
    change _ = f at h
    rw [← h]
    exact hb
  | some p => exact Below.trans h hb

theorem nodup (h : f.Level owner sib) (hf : f.labels.Nodup) : sib.labels.Nodup := by
  cases owner with
  | none => exact h ▸ hf
  | some p => exact Below.nodup h hf

theorem mem_labels (h : f.Level owner sib) (hx : x ∈ sib.labels) : x ∈ f.labels := by
  cases owner with
  | none => exact h ▸ hx
  | some p => exact Below.mem_labels h hx

variable {done todo rest cs : Forest α α} {i : α}

theorem nodup_todo (h : f.Level owner (done ++ todo)) (hf : f.labels.Nodup) :
    todo.labels.Nodup :=
  (labels_append done todo ▸ h.nodup hf).of_append_right

theorem past_element (h : f.Level owner (done ++ element i cs rest)) :
    f.Level owner (done ++ element i cs nil ++ rest) := by
  rw [append_assoc]
  exact h

theorem past_leaf (h : f.Level owner (done ++ leaf i rest)) :
    f.Level owner (done ++ leaf i nil ++ rest) := by
  rw [append_assoc]
  exact h

end Level

/-! ## Wrapping -/

/-- Each leaf for which `w` names a wrapper goes into it. -/
def wrap (w : α → Option α) : Forest α α → Forest α α
  | nil => nil
  | element i cs rest => element i (wrap w cs) (wrap w rest)
  | leaf i rest =>
    match w i with
    | none => leaf i (wrap w rest)
    | some j => element j (leaf i nil) (wrap w rest)

variable {w v : α → Option α}

theorem wrap_leaf_of_none {i : α} (h : w i = none) (rest : Forest α α) :
    (leaf i rest).wrap w = leaf i (rest.wrap w) := by
  rw [wrap, h]

theorem wrap_leaf_of_some {i j : α} (h : w i = some j) (rest : Forest α α) :
    (leaf i rest).wrap w = element j (leaf i nil) (rest.wrap w) := by
  rw [wrap, h]

@[simp] theorem wrap_append (f g : Forest α α) : (f ++ g).wrap w = f.wrap w ++ g.wrap w := by
  induction f with
  | nil => rfl
  | element i cs rest _ ih => rw [element_append, wrap, ih, wrap, element_append]
  | leaf i rest ih =>
    cases h : w i with
    | none => rw [leaf_append, wrap_leaf_of_none h, wrap_leaf_of_none h, ih, leaf_append]
    | some j => rw [leaf_append, wrap_leaf_of_some h, wrap_leaf_of_some h, ih, element_append]

theorem wrap_congr (h : ∀ i ∈ f.labels, w i = v i) : f.wrap w = f.wrap v := by
  induction f with
  | nil => rfl
  | element i cs rest ihc ihr =>
    rw [wrap, wrap, ihc fun x hx => h x (mem_labels_of_children hx),
      ihr fun x hx => h x (mem_labels_of_rest hx)]
  | leaf i rest ih =>
    rw [wrap, wrap, h i List.mem_cons_self, ih fun x hx => h x (List.mem_cons_of_mem i hx)]

theorem wrap_none (f : Forest α α) : f.wrap (fun _ => none) = f := by
  induction f with
  | nil => rfl
  | element i cs rest ihc ihr => rw [wrap, ihc, ihr]
  | leaf i rest ih => rw [wrap_leaf_of_none rfl, ih]

theorem wrap_eq_self (h : ∀ i ∈ f.labels, w i = none) : f.wrap w = f := by
  rw [wrap_congr h, wrap_none]

theorem Below.wrap (h : f.Below p sib) (w : α → Option α) : (f.wrap w).Below p (sib.wrap w) := by
  induction h with
  | here p cs rest => exact .here p _ _
  | child j rest _ ih => exact .child j _ ih
  | later j cs _ ih => exact .later j _ ih
  | behind j _ ih =>
    rw [Forest.wrap]
    split
    · exact .behind j ih
    · exact .later _ _ ih

theorem Level.wrap {owner : Option α} (h : f.Level owner sib) (w : α → Option α) :
    (f.wrap w).Level owner (sib.wrap w) := by
  cases owner with
  | none => exact congrArg (Forest.wrap w) h
  | some p => exact Below.wrap h w

/-- The siblings of a leaf without a wrapper. -/
theorem Level.wrap_leaf {owner : Option α} {done rest : Forest α α} {i : α}
    (h : f.Level owner (done ++ leaf i rest)) (hi : w i = none) :
    (f.wrap w).Level owner (done.wrap w ++ leaf i (rest.wrap w)) := by
  have h := h.wrap w
  rwa [wrap_append, wrap_leaf_of_none hi] at h

theorem mem_labels_wrap (h : x ∈ (f.wrap w).labels) :
    x ∈ f.labels ∨ ∃ i ∈ f.labels, w i = some x := by
  induction f with
  | nil => exact Or.inl h
  | element i cs rest ihc ihr =>
    rw [wrap, labels, List.mem_cons, List.mem_append] at h
    rcases h with rfl | h | h
    · exact Or.inl List.mem_cons_self
    · rcases ihc h with h | ⟨k, hk, hx⟩
      · exact Or.inl (by simp [labels, h])
      · exact Or.inr ⟨k, by simp [labels, hk], hx⟩
    · rcases ihr h with h | ⟨k, hk, hx⟩
      · exact Or.inl (by simp [labels, h])
      · exact Or.inr ⟨k, by simp [labels, hk], hx⟩
  | leaf i rest ih =>
    cases hi : w i with
    | none =>
      rw [wrap_leaf_of_none hi, labels, List.mem_cons] at h
      rcases h with rfl | h
      · exact Or.inl List.mem_cons_self
      · rcases ih h with h | ⟨k, hk, hx⟩
        · exact Or.inl (by simp [labels, h])
        · exact Or.inr ⟨k, by simp [labels, hk], hx⟩
    | some j =>
      rw [wrap_leaf_of_some hi, labels, List.mem_cons, List.mem_append] at h
      rcases h with rfl | h | h
      · exact Or.inr ⟨i, List.mem_cons_self, hi⟩
      · rw [List.mem_singleton.1 h]
        exact Or.inl List.mem_cons_self
      · rcases ih h with h | ⟨k, hk, hx⟩
        · exact Or.inl (by simp [labels, h])
        · exact Or.inr ⟨k, by simp [labels, hk], hx⟩

theorem mem_labels_wrap_of_mem (w : α → Option α) (h : x ∈ f.labels) : x ∈ (f.wrap w).labels := by
  induction f with
  | nil => exact h
  | element i cs rest ihc ihr =>
    rw [labels, List.mem_cons, List.mem_append] at h
    rw [wrap, labels, List.mem_cons, List.mem_append]
    exact h.imp_right fun h => h.imp ihc ihr
  | leaf i rest ih =>
    rw [labels, List.mem_cons] at h
    cases hi : w i with
    | none =>
      rw [wrap_leaf_of_none hi, labels, List.mem_cons]
      exact h.imp_right ih
    | some j =>
      rw [wrap_leaf_of_some hi, labels, List.mem_cons, List.mem_append]
      exact Or.inr (h.imp (fun h => List.mem_singleton.2 h) ih)

theorem mem_labels_wrap_of_some {i : α} (hi : i ∈ f.leafLabels) (hx : w i = some x) :
    x ∈ (f.wrap w).labels := by
  induction f with
  | nil => exact absurd hi List.not_mem_nil
  | element j cs rest ihc ihr =>
    rw [wrap, labels, List.mem_cons, List.mem_append]
    exact Or.inr ((List.mem_append.1 hi).imp ihc ihr)
  | leaf j rest ih =>
    rcases List.mem_cons.1 hi with rfl | hi
    · rw [wrap_leaf_of_some hx]
      exact List.mem_cons_self
    · rw [wrap]
      split
      · exact List.mem_cons_of_mem j (ih hi)
      · exact mem_labels_of_rest (ih hi)

section Only

variable [DecidableEq α] {i j : α}

/-- One leaf is wrapped. -/
def only (i j : α) : α → Option α := fun x => if x = i then some j else none

@[simp] theorem only_self (i j : α) : only i j i = some j := if_pos rfl

theorem only_of_ne {x : α} (h : x ≠ i) : only i j x = none := if_neg h

theorem wrap_only_of_notMem (h : i ∉ f.labels) : f.wrap (only i j) = f :=
  wrap_eq_self fun _ hx => only_of_ne fun he => h (he ▸ hx)

theorem tops_wrap_only (h : i ∉ f.tops) : (f.wrap (only i j)).tops = f.tops := by
  induction f with
  | nil => rfl
  | element k cs rest _ ih =>
    rw [tops, List.mem_cons, not_or] at h
    rw [wrap, tops, ih h.2, tops]
  | leaf k rest ih =>
    rw [tops, List.mem_cons, not_or] at h
    rw [wrap_leaf_of_none (only_of_ne (Ne.symm h.1)), tops, ih h.2, tops]

/-- Among its siblings. -/
theorem wrap_only_append {done rest : Forest α α} (h : (done ++ leaf i rest).labels.Nodup) :
    (done ++ leaf i rest).wrap (only i j) = done ++ element j (leaf i nil) rest := by
  rw [labels_append, labels, List.nodup_append, List.nodup_cons] at h
  obtain ⟨-, ⟨hr, -⟩, hd⟩ := h
  rw [wrap_append, wrap_leaf_of_some (only_self i j), wrap_only_of_notMem hr,
    wrap_only_of_notMem fun hi => hd i hi i List.mem_cons_self rfl]

theorem mem_labels_wrap_only (h : x ∈ (f.wrap (only i j)).labels) : x ∈ f.labels ∨ x = j := by
  rcases mem_labels_wrap h with h | ⟨k, -, hk⟩
  · exact Or.inl h
  · rw [only] at hk
    split at hk
    · exact Or.inr (Option.some.inj hk).symm
    · exact absurd hk (by simp)

theorem nodup_wrap_only (hf : f.labels.Nodup) (hj : j ∉ f.labels) :
    (f.wrap (only i j)).labels.Nodup := by
  induction f with
  | nil => exact hf
  | element k cs rest ihc ihr =>
    obtain ⟨hkc, hkr, hc, hr, hd⟩ := nodup_element hf
    rw [labels, List.mem_cons, List.mem_append, not_or, not_or] at hj
    obtain ⟨hjk, hjc, hjr⟩ := hj
    rw [wrap, labels, List.nodup_cons, List.mem_append, List.nodup_append]
    refine ⟨?_, ihc hc hjc, ihr hr hjr, ?_⟩
    · rintro (h | h)
      · exact (mem_labels_wrap_only h).elim hkc fun he => hjk he.symm
      · exact (mem_labels_wrap_only h).elim hkr fun he => hjk he.symm
    · -- the leaf that is wrapped lies on one side only
      rintro x hx y hy rfl
      by_cases hi : i ∈ cs.labels
      · rw [wrap_only_of_notMem (hd i hi)] at hy
        rcases mem_labels_wrap_only hx with hx | rfl
        · exact hd x hx hy
        · exact hjr hy
      · rw [wrap_only_of_notMem hi] at hx
        rcases mem_labels_wrap_only hy with hy | rfl
        · exact hd x hx hy
        · exact hjc hx
  | leaf k rest ih =>
    obtain ⟨hk, hr⟩ := List.nodup_cons.1 hf
    rw [labels, List.mem_cons, not_or] at hj
    have hrest := ih hr hj.2
    by_cases hki : k = i
    · subst hki
      rw [wrap_leaf_of_some (only_self k j), wrap_only_of_notMem hk]
      simp [labels, hk, hr, hj.1, hj.2]
    · rw [wrap_leaf_of_none (only_of_ne hki), labels, List.nodup_cons]
      exact ⟨fun h => (mem_labels_wrap_only h).elim hk fun he => hj.1 he.symm, hrest⟩

/-- One more leaf is wrapped. -/
theorem wrap_wrap_only (hi : w i = none) :
    (f.wrap w).wrap (only i j) = f.wrap (Function.update w i (some j)) := by
  induction f with
  | nil => rfl
  | element k cs rest ihc ihr => rw [wrap, wrap, ihc, ihr, wrap]
  | leaf k rest ih =>
    by_cases hk : k = i
    · subst hk
      rw [wrap_leaf_of_none hi, wrap_leaf_of_some (only_self k j), ih,
        wrap_leaf_of_some (Function.update_self k _ w)]
    · have hu : Function.update w i (some j) k = w k := Function.update_of_ne hk _ w
      cases h : w k with
      | none => rw [wrap_leaf_of_none h, wrap_leaf_of_none (only_of_ne hk), ih,
          wrap_leaf_of_none (hu.trans h)]
      | some m => rw [wrap_leaf_of_some h, wrap, wrap_leaf_of_none (only_of_ne hk), ih,
          wrap_leaf_of_some (hu.trans h)]; rfl

end Only

end InlineBinding.Forest
