import InlineBinding.Markup.Node
import Mathlib.Data.List.Basic
import Mathlib.Data.List.Nodup

/-!
# Attributes as a table

A name that is set again keeps its place, so a list of attributes loses one for each name that
occurs in it once more.
-/
namespace InlineBinding.Markup.Attributes

def names (as : Attributes) : List Text := as.map Prod.fst

/-! ## One more attribute -/

section Set

variable {as : Attributes} {name : Text}

theorem set_of_notMem (h : name ∉ as.map Prod.fst) (v : Value) :
    as.set name v = as ++ [(name, v)] := by
  induction as with
  | nil => rfl
  | cons a as ih =>
    rw [List.map_cons, List.mem_cons, not_or] at h
    rw [set, if_neg (Ne.symm h.1), ih h.2, List.cons_append]

theorem length_set_of_mem (h : name ∈ as.map Prod.fst) (v : Value) :
    (as.set name v).length = as.length := by
  induction as with
  | nil => exact absurd h List.not_mem_nil
  | cons a as ih =>
    rw [set]
    split
    · rfl
    · rename_i hne
      rw [List.map_cons, List.mem_cons] at h
      rw [List.length_cons, ih (h.resolve_left (Ne.symm hne)), List.length_cons]

theorem names_set (as : Attributes) (name : Text) (v : Value) :
    (as.set name v).names = if name ∈ as.names then as.names else as.names ++ [name] := by
  induction as with
  | nil => rfl
  | cons a as ih =>
    have hmem : name ∈ names (a :: as) ↔ name = a.1 ∨ name ∈ names as := List.mem_cons
    rw [set]
    split
    · rename_i ha
      rw [if_pos (hmem.2 (Or.inl ha.symm))]
      exact congrArg (· :: names as) ha.symm
    · rename_i ha
      have hcons : names (a :: set as name v) = a.1 :: (set as name v).names := rfl
      rw [hcons, ih]
      by_cases hn : name ∈ names as
      · rw [if_pos hn, if_pos (hmem.2 (Or.inr hn))]
        rfl
      · rw [if_neg hn, if_neg fun h => (hmem.1 h).elim (fun he => ha he.symm) hn]
        rfl

theorem mem_names_set {n : Text} {v : Value} :
    n ∈ (as.set name v).names ↔ n ∈ as.names ∨ n = name := by
  rw [names_set]
  split
  · rename_i h
    exact ⟨Or.inl, fun hn => hn.elim id fun he => he ▸ h⟩
  · rw [List.mem_append, List.mem_singleton]

theorem nodup_names_set (h : as.names.Nodup) (name : Text) (v : Value) :
    (as.set name v).names.Nodup := by
  rw [names_set]
  split
  · exact h
  · rename_i hn
    refine List.nodup_append.2 ⟨h, List.nodup_singleton _, fun n hm m hd he => ?_⟩
    rw [List.mem_singleton] at hd
    exact hn (hd ▸ he ▸ hm)

theorem forall_mem_set {P : Text × Value → Prop} {v : Value} (h : ∀ a ∈ as, P a)
    (hv : P (name, v)) : ∀ a ∈ as.set name v, P a := by
  induction as with
  | nil => simpa [set] using hv
  | cons a as ih =>
    rw [set]
    split
    · exact List.forall_mem_cons.2 ⟨hv, (List.forall_mem_cons.1 h).2⟩
    · exact List.forall_mem_cons.2 ⟨(List.forall_mem_cons.1 h).1, ih (List.forall_mem_cons.1 h).2⟩

theorem get?_of_mem (h : as.names.Nodup) {v : Value} (hm : (name, v) ∈ as) :
    as.get? name = some v := by
  induction as with
  | nil => exact absurd hm List.not_mem_nil
  | cons a as ih =>
    obtain ⟨k, u⟩ := a
    obtain ⟨hk, hnodup⟩ := List.nodup_cons.1 h
    rw [get?, List.lookup_cons]
    rcases List.mem_cons.1 hm with he | hlater
    · obtain ⟨rfl, rfl⟩ := Prod.mk.inj he
      simp
    · have hne : name ≠ k := by
        rintro rfl
        have hmem : name ∈ names as := List.mem_map_of_mem hlater
        exact hk hmem
      rw [beq_false_of_ne hne]
      exact ih hnodup hlater

end Set

/-! ## A list of attributes -/

section OfList

variable {ps : List (Text × Value)}

theorem forall_mem_ofList {P : Text × Value → Prop} (h : ∀ a ∈ ps, P a) : ∀ a ∈ ofList ps, P a := by
  have hfold (as : Attributes) (ha : ∀ a ∈ as, P a) :
      ∀ a ∈ ps.foldl (fun as p => set as p.1 p.2) as, P a := by
    induction ps generalizing as with
    | nil => exact ha
    | cons p ps ih =>
      obtain ⟨hp, hr⟩ := List.forall_mem_cons.1 h
      exact ih hr _ (forall_mem_set ha hp)
  exact hfold [] fun _ ha => absurd ha List.not_mem_nil

theorem nodup_names_ofList (ps : List (Text × Value)) : (ofList ps).names.Nodup :=
  List.foldlRecOn ps _ (motive := fun as : Attributes => as.names.Nodup) List.nodup_nil
    fun _ h p _ => nodup_names_set h p.1 p.2

theorem ofList_eq_self (h : (ps.map Prod.fst).Nodup) : ofList ps = ps := by
  have hfold (as bs : Attributes) (h : ((as ++ bs).map Prod.fst).Nodup) :
      bs.foldl (fun cs p => set cs p.1 p.2) as = as ++ bs := by
    induction bs generalizing as with
    | nil => exact (List.append_nil as).symm
    | cons b bs ih =>
      have hb : b.1 ∉ as.map Prod.fst := by
        rw [List.map_append, List.map_cons, List.nodup_append] at h
        exact fun hm => h.2.2 b.1 hm b.1 List.mem_cons_self rfl
      rw [List.foldl_cons, set_of_notMem hb, ih (as ++ [b]) (by simpa using h), List.append_assoc]
      rfl
  exact hfold [] ps h

/-- No attributes became one if there are as many as before. -/
theorem ofList_eq_of_length (h : ps.length ≤ (ofList ps).length) : ofList ps = ps := by
  have hstep (as : Attributes) (p : Text × Value) : p.1 ∈ as.map Prod.fst ∧
      (as.set p.1 p.2).length = as.length ∨ as.set p.1 p.2 = as ++ [p] := by
    by_cases hm : p.1 ∈ as.map Prod.fst
    · exact Or.inl ⟨hm, length_set_of_mem hm p.2⟩
    · exact Or.inr (set_of_notMem hm p.2)
  have hle (as : Attributes) (ps : List (Text × Value)) :
      (ps.foldl (fun as p => set as p.1 p.2) as).length ≤ as.length + ps.length := by
    induction ps generalizing as with
    | nil => exact Nat.le_refl _
    | cons p ps ih =>
      refine Nat.le_trans (ih (as.set p.1 p.2)) ?_
      rcases hstep as p with ⟨-, hs⟩ | hs
      · rw [hs, List.length_cons]
        omega
      · rw [hs, List.length_append, List.length_cons, List.length_cons, List.length_nil]
        omega
  have hfold (as : Attributes) (ps : List (Text × Value))
      (h : as.length + ps.length ≤ (ps.foldl (fun as p => set as p.1 p.2) as).length) :
      ps.foldl (fun as p => set as p.1 p.2) as = as ++ ps := by
    induction ps generalizing as with
    | nil => exact (List.append_nil as).symm
    | cons p ps ih =>
      rw [List.foldl_cons] at h ⊢
      rcases hstep as p with ⟨-, hs⟩ | hs
      · have := hle (as.set p.1 p.2) ps
        rw [List.length_cons] at h
        omega
      · rw [hs] at h ⊢
        rw [ih (as ++ [p]) (by simpa [Nat.add_assoc, Nat.add_comm 1] using h), List.append_assoc]
        rfl
  exact hfold [] ps (by simpa [ofList] using h)

/-- They become fewer if and only if a name occurs twice. -/
theorem length_ofList_lt_iff :
    (ofList ps).length < ps.length ↔ ¬ (ps.map Prod.fst).Nodup := by
  constructor
  · intro h hnodup
    rw [ofList_eq_self hnodup] at h
    exact Nat.lt_irrefl _ h
  · intro h
    by_contra hle
    have hsame := ofList_eq_of_length (Nat.le_of_not_lt hle)
    exact h (hsame ▸ nodup_names_ofList ps)

end OfList

end InlineBinding.Markup.Attributes
