import InlineBinding.Proofs.Delimiters.Split
import InlineBinding.Proofs.Text.Words

/-!
# Words that splitting keeps

A word without white space that holds no character of the delimiters stands whole between two
bindings or in a path. It is there still when the chunks have become a placeholder.
-/
namespace InlineBinding.Delimiters
open Text Accessor

variable {d output : Delimiters} {w s : Text}

/-- The word shares no character with the delimiters. -/
structure Apart (d : Delimiters) (w : Text) : Prop where
  opening_ne : d.opening ≠ []
  closing_ne : d.closing ≠ []
  opening : ∀ c ∈ d.opening, c ∉ w
  closing : ∀ c ∈ d.closing, c ∉ w

/-- A placeholder is the text with each binding written anew. -/
theorem placeholder_split (output : Delimiters) (marks : LiteralMarks) (s : Text) :
    (Expression.compile output marks (d.split s)).placeholder =
      join (fun p => output.wrap (p ++ "()".toList)) (cut d.bindingAt? s) := by
  have hchunks (ps : List (Piece Text)) :
      (Chunk.alternate false (chunks ps)).flatMap (Expression.place output) =
        join (fun p => output.wrap (p ++ "()".toList)) ps := by
    induction ps with
    | nil => rfl
    | cons p ps ih =>
      cases p with
      | hit p =>
        rw [join_hit, ← ih]
        rfl
      | char c =>
        rw [join_char, ← ih, chunks]
        split
        · rename_i he
          exact absurd he (chunks_ne_nil ps)
        · rename_i literal rest he
          rw [he]
          rfl
  exact hchunks _

/-- A word of the text is a word of its placeholder. -/
theorem Apart.infix_join (hd : d.Apart w) (hw : w.Solid) {write : Text → Text}
    (hwrite : ∀ p, p <:+: write p) (h : w <:+: s) : w <:+: join write (cut d.bindingAt? s) := by
  -- at the front of the text, up to the next binding
  have hfront {v s : Text} (hv : v ⊆ w) (h : v <+: s) : v <+: join write (cut d.bindingAt? s) := by
    induction v generalizing s with
    | nil => exact List.nil_prefix
    | cons c v ih =>
      obtain ⟨r, rfl⟩ := h
      have hc : c ∉ d.opening := fun hm => hd.opening c hm (hv List.mem_cons_self)
      rw [List.cons_append, cut_cons_of_none (bindingAt?_cons_of_notMem hd.opening_ne hc _),
        join_char]
      exact List.cons_prefix_cons.2
        ⟨rfl, ih (fun x hx => hv (List.mem_cons_of_mem c hx)) (List.prefix_append v r)⟩
  induction hn : s.length using Nat.strong_induction_on generalizing s with
  | _ k ih =>
    subst hn
    cases hr : d.bindingAt? s with
    | none =>
      cases s with
      | nil => exact absurd (List.infix_nil.1 h) hw.ne_nil
      | cons c s =>
        rcases List.infix_cons_iff.1 h with h | h
        · exact (hfront (List.Subset.refl w) h).isInfix
        · rw [cut_cons_of_none hr, join_char]
          exact List.infix_cons (ih s.length (Nat.lt_succ_self _) h rfl)
    | some b =>
      obtain ⟨x, y, rest, ht, -⟩ := bindingAt?_eq_some_iff.1 hr
      rw [ht.cut_eq, join_hit]
      -- no occurrence holds the last character of the closing delimiter
      obtain ⟨r, z, hz⟩ := List.eq_nil_or_concat' d.closing |>.resolve_left hd.closing_ne
      have hend : z ∉ w := hd.closing z (hz ▸ List.mem_append_right r List.mem_cons_self)
      have hsplit : s = (d.opening ++ (x ++ b.1 ++ y) ++ r) ++ z :: rest := by
        rw [ht.text, hz]
        simp
      rw [hsplit] at h
      rcases infix_append_cons hend h with h | h
      · have hin := infix_of_disjoint hw.ne_nil hd.opening
          (fun c hc => hd.closing c (hz ▸ List.mem_append_left _ hc)) h
        have hpath : w <:+: b.1 := infix_of_disjoint hw.ne_nil (hw.notMem ht.spaceBefore)
          (hw.notMem ht.spaceBehind) hin
        exact (hpath.trans (hwrite b.1)).trans (List.prefix_append _ _).isInfix
      · exact (ih _ ht.length_lt h rfl).trans (List.suffix_append _ _).isInfix

/-- A word of a value is a word of what is left of it in the document. -/
theorem Apart.infix_placeholder (hd : d.Apart w) (hw : w.Solid) (output : Delimiters)
    (marks : LiteralMarks) (h : w <:+: s) :
    w <:+: (Expression.compile output marks (d.split s)).placeholder := by
  rw [placeholder_split]
  refine hd.infix_join hw (fun p => ⟨output.opening, "()".toList ++ output.closing, ?_⟩) h
  rw [wrap]
  simp only [List.append_assoc]

end InlineBinding.Delimiters
