import InlineBinding.Proofs.Delimiters.Split
import InlineBinding.Proofs.Text.Mapped

/-!
# Bindings in texts with other characters

Characters that can belong to no binding may be exchanged for each other: the same bindings are
found at the same places.
-/
namespace InlineBinding

/-! ## Cutting -/

/-- A piece with its characters and its match replaced. -/
def Text.Piece.map {α : Type} (f : Char → Char) (g : α → α) : Text.Piece α → Text.Piece α
  | .char c => .char (f c)
  | .hit a => .hit (g a)

theorem Text.cut_map {α : Type} {rule : Text → Option (α × Nat)} {f : Char → Char} {g : α → α}
    (h : ∀ s, rule (s.map f) = (rule s).map (Prod.map g id)) (s : Text) :
    cut rule (s.map f) = (cut rule s).map (Piece.map f g) := by
  have hfrom (skip : ℕ) (s : Text) :
      cutFrom rule skip (s.map f) = (cutFrom rule skip s).map (Piece.map f g) := by
    induction s generalizing skip with
    | nil => cases skip <;> rfl
    | cons c s ih =>
      cases skip with
      | succ skip => exact ih skip
      | zero =>
        have hc := h (c :: s)
        rw [List.map_cons] at hc
        rw [List.map_cons, cutFrom, cutFrom, hc]
        cases rule (c :: s) with
        | none => exact congrArg _ (ih 0)
        | some a => exact congrArg _ (ih (a.2 - 1))
  exact hfrom 0 s

namespace Delimiters
open Text Accessor

theorem chunks_map (f : Char → Char) (ps : List (Piece Text)) :
    chunks (ps.map (Piece.map f (List.map f))) = (chunks ps).map (List.map f) := by
  induction ps with
  | nil => rfl
  | cons q ps ih =>
    cases q with
    | hit path => exact congrArg (fun cs => [] :: path.map f :: cs) ih
    | char c =>
      rw [List.map_cons, Piece.map, chunks, chunks, ih]
      cases chunks ps <;> rfl

/-- Characters that are no part of a binding. -/
structure Inert (d : Delimiters) (c : Char) : Prop where
  part : isPart c = false
  dot : c ≠ '.'
  space : isSpace c = false
  opening : c ∉ d.opening
  closing : c ∉ d.closing

/-- Only inert characters are exchanged, and only for inert ones. -/
def Exchanges (d : Delimiters) (f : Char → Char) : Prop :=
  ∀ c, f c = c ∨ d.Inert c ∧ d.Inert (f c)

section Exchange

variable {d : Delimiters} {f : Char → Char} (h : d.Exchanges f)
include h

theorem isPart_exchange (c : Char) : isPart (f c) = isPart c := by
  rcases h c with he | ⟨hc, hf⟩
  · rw [he]
  · rw [hc.part, hf.part]

theorem isStart_exchange (c : Char) : isStart (f c) = isStart c := by
  rcases h c with he | ⟨hc, hf⟩
  · rw [he]
  · rw [isStart_eq_false hc.part, isStart_eq_false hf.part]

theorem isSpace_exchange (c : Char) : isSpace (f c) = isSpace c := by
  rcases h c with he | ⟨hc, hf⟩
  · rw [he]
  · rw [hc.space, hf.space]

theorem exchange_eq_iff {x : Char} (hx : ¬ d.Inert x) (c : Char) : f c = x ↔ c = x := by
  rcases h c with he | ⟨hc, hf⟩
  · rw [he]
  · exact iff_of_false (fun he => hx (he ▸ hf)) fun he => hx (he ▸ hc)

theorem spanFrom_exchange (fresh : Bool) (s : Text) :
    spanFrom fresh (s.map f) = spanFrom fresh s := by
  have hdot (c : Char) : f c = '.' ↔ c = '.' := exchange_eq_iff h (fun hd => hd.dot rfl) c
  induction s generalizing fresh with
  | nil => cases fresh <;> rfl
  | cons c s ih =>
    cases fresh with
    | true => simp only [List.map_cons, spanFrom, isStart_exchange h, ih]
    | false => simp only [List.map_cons, spanFrom, isPart_exchange h, ih, hdot]

theorem spans_exchange (s : Text) : spans (s.map f) = spans s := by
  have hdot (n : ℕ) : ((s.map f)[n - 1]? != some '.') = (s[n - 1]? != some '.') := by
    rw [List.getElem?_map]
    cases s[n - 1]? with
    | none => rfl
    | some c =>
      have hc := exchange_eq_iff h (fun hd => hd.dot rfl) c
      rw [Option.map_some, Bool.eq_iff_iff, bne_iff_ne, bne_iff_ne]
      simpa using not_congr hc
  have hspan : span (s.map f) = span s := spanFrom_exchange h true s
  rw [spans, spans, hspan]
  exact List.filter_congr fun n _ => hdot n

theorem closingAt?_exchange (s : Text) : d.closingAt? (s.map f) = d.closingAt? s := by
  have hblank : (s.map f).takeWhile isSpace = (s.takeWhile isSpace).map f := by
    rw [List.takeWhile_map]
    exact congrArg (fun p => (s.takeWhile p).map f) (funext (isSpace_exchange h))
  have hsteady : Steady f d.closing :=
    fun c hc x => exchange_eq_iff h (fun hi => hi.closing hc) x
  have hclosing (n : ℕ) :
      d.closing.isPrefixOf ((s.map f).drop n) = d.closing.isPrefixOf (s.drop n) := by
    rw [Bool.eq_iff_iff, isPrefixOf_eq_true, isPrefixOf_eq_true, ← List.map_drop,
      hsteady.prefix_map_iff]
  simp only [closingAt?, hblank, List.length_map, hclosing]

theorem opening_exchange (s : Text) :
    d.opening.isPrefixOf? (s.map f) = (d.opening.isPrefixOf? s).map (List.map f) := by
  have hsteady : Steady f d.opening :=
    fun c hc x => exchange_eq_iff h (fun hi => hi.opening hc) x
  cases hs : d.opening.isPrefixOf? s with
  | some inner =>
    obtain rfl := List.isPrefixOf?_eq_some_iff_append_eq.1 hs
    refine List.isPrefixOf?_eq_some_iff_append_eq.2 ?_
    rw [List.map_append, hsteady.map_eq]
  | none =>
    rw [isPrefixOf?_eq_none_iff] at hs
    exact isPrefixOf?_eq_none_iff.2 (mt hsteady.prefix_map_iff.1 hs)

theorem bindingAt?_exchange (s : Text) :
    d.bindingAt? (s.map f) = (d.bindingAt? s).map (Prod.map (List.map f) id) := by
  rw [bindingAt?, bindingAt?, opening_exchange h]
  cases d.opening.isPrefixOf? s with
  | none => rfl
  | some inner =>
    have hbody : trimStart (inner.map f) = (trimStart inner).map f := by
      rw [trimStart, List.dropWhile_map]
      exact congrArg (fun p => (inner.dropWhile p).map f) (funext (isSpace_exchange h))
    simp only [Option.map_some, hbody, spans_exchange h, List.length_map, ← List.map_drop,
      ← List.map_take, closingAt?_exchange h, List.map_findSome?, Function.comp_def,
      Option.map_map, Prod.map, id]

/-- The bindings stay where they are. -/
theorem split_exchange (s : Text) : d.split (s.map f) = (d.split s).map (List.map f) := by
  rw [split, cut_map (bindingAt?_exchange h), chunks_map, split]

theorem hasBindings_exchange (s : Text) : d.hasBindings (s.map f) = d.hasBindings s := by
  rw [hasBindings, split_exchange h, List.length_map, hasBindings]

end Exchange
end Delimiters
end InlineBinding
