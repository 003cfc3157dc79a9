import InlineBinding.Shield
import InlineBinding.Proofs.Delimiters.Block
import InlineBinding.Proofs.Text.Labels

/-! # Documents cut at their blocks

The pieces of a document spell the document, and so do the marked pieces when every mark is
written as its block.  A block begins with an opening delimiter and ends with the closing one.
-/
namespace InlineBinding
open Text

namespace Shield

variable {delimiters : List Delimiters} {document : Text}

theorem lengthAt?_eq_some {s : Text} {n : ℕ} (h : lengthAt? delimiters s = some n) :
    ∃ d ∈ delimiters, ∃ x, s.take n = d.wrap x := by
  obtain ⟨d, hd, hn⟩ := List.exists_of_findSome?_eq_some h
  exact ⟨d, hd, Delimiters.blockAt?_eq_some hn⟩

theorem blocksAt?_eq_some {s : Text} {blocks : List Text} {n : ℕ}
    (h : blocksAt? delimiters s = some (blocks, n)) :
    0 < n ∧ blocks.flatten = s.take n ∧
      (lengthAt? delimiters s = some 0 ∨
        lengthAt? delimiters s = some n ∧ blocks = [s.take n]) := by
  rw [blocksAt?] at h
  split at h
  · exact absurd h (by simp)
  · rename_i hl
    obtain ⟨rfl, rfl⟩ := Prod.mk.inj (Option.some.inj h)
    exact ⟨Nat.one_pos, by simp, Or.inl hl⟩
  · rename_i n hn hl
    obtain ⟨rfl, rfl⟩ := Prod.mk.inj (Option.some.inj h)
    exact ⟨Nat.pos_of_ne_zero hn, by simp, Or.inr ⟨hl, rfl⟩⟩

theorem join_map_hit (blocks : List Text) : join id (blocks.map .hit) = blocks.flatten := by
  induction blocks with
  | nil => rfl
  | cons b blocks ih => rw [List.map_cons, join_hit, ih, List.flatten_cons, id]

theorem join_atEnd : join id (atEnd delimiters) = [] := by
  rw [atEnd]
  split <;> rfl

theorem join_pieces (delimiters : List Delimiters) (document : Text) :
    join id (pieces delimiters document) = document := by
  unfold pieces
  rw [join_append, join_atEnd, List.append_nil]
  trans join List.flatten (cut (blocksAt? delimiters) document)
  · induction cut (blocksAt? delimiters) document with
    | nil => rfl
    | cons p ps ih =>
      rw [List.flatMap_cons, join_append, ih]
      cases p with
      | char c => rfl
      | hit blocks => rw [join_map_hit, join_hit]
  · refine join_cut (fun s blocks n h => ?_) document
    obtain ⟨hn, hb, -⟩ := blocksAt?_eq_some h
    exact ⟨hn, hb⟩

theorem labelled_clippings (s : Shield) (document : Text) :
    s.marks.Labelled (clippings (s.marked document)) :=
  Numbered.labelled_assign s.marks document 0 _

/-- Marks are new to the document. -/
theorem not_infix_document {s : Shield} {c : Clipping} (h : c ∈ clippings (s.marked document)) :
    ¬ c.mark <:+: document := by
  obtain ⟨k, -, -, hn⟩ := Numbered.exists_label_of_mem_assign (Numbered.mem_clippings.1 h)
  exact hn

theorem join_text_marked (s : Shield) (document : Text) :
    join Clipping.text (s.marked document) = document := by
  rw [marked, Numbered.join_text_assign, join_pieces]

/-- Without empty delimiters every block stands between two of them. -/
theorem exists_wrap_of_mem_pieces (hd : ∀ d ∈ delimiters, d.opening ≠ []) {t : Text}
    (h : .hit t ∈ pieces delimiters document) : ∃ d ∈ delimiters, ∃ x, t = d.wrap x := by
  have h0 (s : Text) : lengthAt? delimiters s ≠ some 0 := by
    intro hs
    obtain ⟨d, hm, x, hx⟩ := lengthAt?_eq_some hs
    rw [List.take_zero, Delimiters.wrap, List.append_assoc] at hx
    exact hd d hm (List.append_eq_nil_iff.1 hx.symm).1
  rw [pieces, atEnd, if_neg (h0 []), List.append_nil, List.mem_flatMap] at h
  obtain ⟨p, hp, ht⟩ := h
  cases p with
  | char c => exact absurd (List.mem_singleton.1 ht) (by simp)
  | hit blocks =>
    obtain ⟨b, hb, he⟩ := List.mem_map.1 ht
    obtain rfl := Piece.hit.inj he
    obtain ⟨s, n, hs⟩ := rule_of_mem_cut hp
    obtain ⟨-, -, hl⟩ := blocksAt?_eq_some hs
    obtain ⟨hn, rfl⟩ := hl.resolve_left (h0 s)
    rw [List.mem_singleton.1 hb]
    exact lengthAt?_eq_some hn

end Shield
end InlineBinding
