import InlineBinding.Expression
import InlineBinding.Proofs.Delimiters.Binding
import InlineBinding.Proofs.Text.Labels

/-!
# Chunks of a text

A text is split into literals and paths in turn. There is always a literal, and every path is one
that a binding in the text names.
-/
namespace InlineBinding.Delimiters
open Text Accessor

theorem chunks_ne_nil (ps : List (Piece Text)) : chunks ps ≠ [] := by
  match ps with
  | [] => exact List.cons_ne_nil _ _
  | .hit path :: ps => exact List.cons_ne_nil _ _
  | .char c :: ps =>
    rw [chunks]
    split <;> exact List.cons_ne_nil _ _

theorem hit_of_path_mem {ps : List (Piece Text)} {p : Text}
    (h : .path p ∈ Chunk.alternate false (chunks ps)) : .hit p ∈ ps := by
  induction ps with
  | nil => exact absurd h (by simp [chunks, Chunk.alternate])
  | cons q ps ih =>
    cases q with
    | char c =>
      rw [chunks] at h
      split at h
      · exact absurd h (by simp [Chunk.alternate])
      · rename_i literal rest he
        rw [he] at ih
        simp only [Chunk.alternate, List.mem_cons, reduceCtorEq, false_or] at h ih
        exact List.mem_cons_of_mem _ (by simpa using ih h)
    | hit path =>
      simp only [chunks, Chunk.alternate, List.mem_cons, reduceCtorEq, false_or,
        Chunk.path.injEq] at h
      rcases h with rfl | h
      · exact List.mem_cons_self
      · exact List.mem_cons_of_mem _ (ih h)

theorem char_of_literal_mem {ps : List (Piece Text)} {t : Text} {c : Char}
    (h : .literal t ∈ Chunk.alternate false (chunks ps)) (hc : c ∈ t) : .char c ∈ ps := by
  induction ps generalizing t with
  | nil =>
    simp only [chunks, Chunk.alternate, List.mem_singleton, Chunk.literal.injEq] at h
    exact absurd (h ▸ hc) List.not_mem_nil
  | cons q ps ih =>
    cases q with
    | char d =>
      obtain ⟨literal, rest, he⟩ := List.exists_cons_of_ne_nil (chunks_ne_nil ps)
      rw [he] at ih
      simp only [chunks, he, Chunk.alternate, List.mem_cons, Chunk.literal.injEq] at h ih ⊢
      rcases h with rfl | h
      · rw [List.mem_cons] at hc
        exact hc.imp (congrArg Piece.char) (ih (Or.inl rfl))
      · exact Or.inr (ih (Or.inr h) hc)
    | hit path =>
      simp only [chunks, Chunk.alternate, List.mem_cons, Chunk.literal.injEq, reduceCtorEq,
        false_or] at h
      rcases h with rfl | h
      · exact absurd hc List.not_mem_nil
      · exact List.mem_cons_of_mem _ (ih h hc)

/-- A text in front of the first chunk. -/
def prepend (t : Text) : List Text → List Text
  | [] => [t]
  | literal :: rest => (t ++ literal) :: rest

theorem split_cons_of_none {d : Delimiters} {c : Char} {s : Text}
    (h : d.bindingAt? (c :: s) = none) : d.split (c :: s) = prepend [c] (d.split s) := by
  rw [split, cut_cons_of_none h, chunks, ← split]
  cases d.split s <;> rfl

theorem split_cons_of_some {d : Delimiters} {c : Char} {s p : Text} {k : ℕ}
    (h : d.bindingAt? (c :: s) = some (p, k)) :
    d.split (c :: s) = [] :: p :: d.split (s.drop (k - 1)) := by
  rw [split, cut_cons_of_some h, chunks, split]

/-- Every odd chunk is an accessor path. -/
theorem isPath_of_path_mem {d : Delimiters} {s p : Text}
    (h : .path p ∈ Chunk.alternate false (d.split s)) : IsPath p := by
  obtain ⟨t, n, ht⟩ := rule_of_mem_cut (hit_of_path_mem h)
  obtain ⟨w, v, r, h, -⟩ := bindingAt?_eq_some_iff.1 ht
  exact h.isPath

/-- Every even chunk is a piece of the text. -/
theorem mem_of_literal_mem {d : Delimiters} {s t : Text} {c : Char}
    (h : .literal t ∈ Chunk.alternate false (d.split s)) (hc : c ∈ t) : c ∈ s :=
  mem_of_char_mem_cut (char_of_literal_mem h hc)

end InlineBinding.Delimiters
