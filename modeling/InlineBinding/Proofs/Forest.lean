import InlineBinding.Forest
import Mathlib.Data.Nat.Notation
import Mathlib.Tactic.Tauto

/-!
# Nodes of a forest

What is said of some node is said of the whole forest, wherever the node stands in it. What is said
of all inner nodes may depend on how deep they stand.
-/
namespace InlineBinding.Forest

variable {ε μ : Type}

theorem reverse_reverseOnto (f g : Forest ε μ) : (f.reverseOnto g).reverse = g.reverse ++ f := by
  induction f generalizing g with
  | nil => exact (append_nil _).symm
  | element e cs rest _ ih =>
    rw [reverseOnto, ih, reverse, reverseOnto, reverseOnto_eq, append_assoc]
    rfl
  | leaf l rest ih =>
    rw [reverseOnto, ih, reverse, reverseOnto, reverseOnto_eq, append_assoc]
    rfl

theorem root?_append (f g : Forest ε μ) : (f ++ g).root? = f.root?.or g.root? := by
  induction f with
  | nil => rfl
  | element e cs rest => rfl
  | leaf l rest ih => exact ih

/-- Some inner node has the property `P`, or some leaf has `Q`. -/
def Any (P : ε → Prop) (Q : μ → Prop) : Forest ε μ → Prop
  | nil => False
  | element e cs rest => P e ∨ Any P Q cs ∨ Any P Q rest
  | leaf l rest => Q l ∨ Any P Q rest

variable {P P' : ε → Prop} {Q Q' : μ → Prop}

instance decidableAny [DecidablePred P] [DecidablePred Q] : (f : Forest ε μ) → Decidable (f.Any P Q)
  | nil => inferInstanceAs (Decidable False)
  | element e cs rest =>
    have := decidableAny cs
    have := decidableAny rest
    inferInstanceAs (Decidable (P e ∨ Any P Q cs ∨ Any P Q rest))
  | leaf l rest =>
    have := decidableAny rest
    inferInstanceAs (Decidable (Q l ∨ Any P Q rest))

theorem any_append {f g : Forest ε μ} : (f ++ g).Any P Q ↔ f.Any P Q ∨ g.Any P Q := by
  induction f with
  | nil => exact (iff_of_eq (false_or _)).symm
  | element e cs rest _ ih => rw [element_append, Any, Any, ih, or_assoc, or_assoc]
  | leaf l rest ih => rw [leaf_append, Any, Any, ih, or_assoc]

theorem any_reverse {f : Forest ε μ} : f.reverse.Any P Q ↔ f.Any P Q := by
  have honto (f g : Forest ε μ) : (f.reverseOnto g).Any P Q ↔ f.Any P Q ∨ g.Any P Q := by
    induction f generalizing g with
    | nil => exact (iff_of_eq (false_or _)).symm
    | element e cs rest _ ih =>
      rw [reverseOnto, ih, Any, Any]
      tauto
    | leaf l rest ih =>
      rw [reverseOnto, ih, Any, Any]
      tauto
  exact (honto f nil).trans (iff_of_eq (or_false _))

theorem Any.mono (hp : ∀ e, P e → P' e) (hq : ∀ l, Q l → Q' l) {f : Forest ε μ}
    (h : f.Any P Q) : f.Any P' Q' := by
  induction f with
  | nil => exact h
  | element e cs rest ihc ihr => exact h.imp (hp e) (Or.imp ihc ihr)
  | leaf l rest ih => exact h.imp (hq l) ih

/-! ## By depth -/

/-- All inner nodes have the property for their depth; the siblings stand at depth `n`. -/
def AllAt (P : ℕ → ε → Prop) (n : ℕ) : Forest ε μ → Prop
  | nil => True
  | element e cs rest => P n e ∧ AllAt P (n + 1) cs ∧ AllAt P n rest
  | leaf _ rest => AllAt P n rest

variable {P : ℕ → ε → Prop} {n : ℕ}

theorem allAt_append {f g : Forest ε μ} : (f ++ g).AllAt P n ↔ f.AllAt P n ∧ g.AllAt P n := by
  induction f with
  | nil => exact (iff_of_eq (true_and _)).symm
  | element e cs rest _ ih => rw [element_append, AllAt, AllAt, ih, and_assoc, and_assoc]
  | leaf l rest ih => rw [leaf_append, AllAt, AllAt, ih]

theorem allAt_reverse {f : Forest ε μ} : f.reverse.AllAt P n ↔ f.AllAt P n := by
  have honto (f g : Forest ε μ) : (f.reverseOnto g).AllAt P n ↔ f.AllAt P n ∧ g.AllAt P n := by
    induction f generalizing g with
    | nil => exact (iff_of_eq (true_and _)).symm
    | element e cs rest _ ih =>
      rw [reverseOnto, ih, AllAt, AllAt]
      tauto
    | leaf l rest ih => rw [reverseOnto, ih, AllAt, AllAt]
  exact (honto f nil).trans (iff_of_eq (and_true _))

/-- The labels of the inner nodes, each before those below it. -/
def elements : Forest ε μ → List ε
  | nil => []
  | element e cs rest => e :: (elements cs ++ elements rest)
  | leaf _ rest => elements rest

theorem elements_append (f g : Forest ε μ) : (f ++ g).elements = f.elements ++ g.elements := by
  induction f with
  | nil => rfl
  | element e cs rest _ ih => simp [elements, ih]
  | leaf l rest ih => exact ih

theorem exists_depth_of_mem_elements {f : Forest ε μ} {e : ε}
    (h : f.AllAt P n) (he : e ∈ f.elements) : ∃ m ≥ n, P m e := by
  induction f generalizing n with
  | nil => exact absurd he List.not_mem_nil
  | element d cs rest ihc ihr =>
    obtain ⟨hd, hc, hr⟩ := h
    rw [elements, List.mem_cons, List.mem_append] at he
    rcases he with rfl | he | he
    · exact ⟨n, Nat.le_refl n, hd⟩
    · obtain ⟨m, hm, hp⟩ := ihc hc he
      exact ⟨m, Nat.le_of_succ_le hm, hp⟩
    · exact ihr hr he
  | leaf l rest ih => exact ih h he

end InlineBinding.Forest
