import InlineBinding.Proofs.Delimiters.Exchange

/-!
# How far a binding looks ahead

A character that is no part of a binding is like the end of the text: whether a binding begins at
the start does not depend on what stands behind it.
-/
namespace InlineBinding

theorem findSome?_congr {α β : Type} {l : List α} {f g : α → Option β}
    (h : ∀ a ∈ l, f a = g a) : l.findSome? f = l.findSome? g := by
  induction l with
  | nil => rfl
  | cons a l ih =>
    rw [List.forall_mem_cons] at h
    rw [List.findSome?_cons, List.findSome?_cons, h.1, ih h.2]

namespace Accessor
open Text

section Stop

variable {x : Char} (hx : isPart x = false) (hd : x ≠ '.')
include hx hd

theorem spanFrom_append (fresh : Bool) (u s : Text) :
    spanFrom fresh (u ++ x :: s) = spanFrom fresh u := by
  have hstart := isStart_eq_false hx
  induction u generalizing fresh with
  | nil => cases fresh <;> simp [spanFrom, hstart, hx, hd]
  | cons c u ih => cases fresh <;> simp only [List.cons_append, spanFrom, ih]

theorem spans_append (u s : Text) : spans (u ++ x :: s) = spans u := by
  have hspan : span (u ++ x :: s) = span u := spanFrom_append hx hd true u s
  rw [spans, spans, hspan]
  refine List.filter_congr fun n hn => ?_
  obtain ⟨m, hm, rfl⟩ := List.mem_map.1 hn
  have hm := List.mem_range.1 (List.mem_reverse.1 hm)
  have hlength : m < u.length := Nat.lt_of_lt_of_le hm (spanFrom_le_length true u)
  rw [Nat.add_sub_cancel, List.getElem?_append_left hlength]

end Stop
end Accessor

namespace Delimiters
open Text Accessor

variable {d : Delimiters}

section Stop

variable {x : Char} (hx : d.Inert x)

include hx

theorem takeWhile_append_inert (u s : Text) :
    (u ++ x :: s).takeWhile isSpace = u.takeWhile isSpace := by
  rw [List.takeWhile_append]
  split
  · rename_i h
    rw [List.takeWhile_cons_of_neg (by simp [hx.space]), List.append_nil]
    exact ((List.takeWhile_prefix isSpace).eq_of_length h).symm
  · rfl

theorem closingAt?_append (u s : Text) : d.closingAt? (u ++ x :: s) = d.closingAt? u := by
  have hclosing (n : ℕ) (hn : n ∈ (List.range ((u.takeWhile isSpace).length + 1)).reverse) :
      d.closing.isPrefixOf ((u ++ x :: s).drop n) = d.closing.isPrefixOf (u.drop n) := by
    have hblank := (List.takeWhile_prefix isSpace (l := u)).length_le
    rw [List.mem_reverse, List.mem_range] at hn
    rw [Bool.eq_iff_iff, isPrefixOf_eq_true, isPrefixOf_eq_true,
      List.drop_append_of_le_length (by omega), prefix_append_cons_iff hx.closing]
  rw [closingAt?, closingAt?, takeWhile_append_inert hx]
  exact findSome?_congr fun n hn => by rw [hclosing n hn]

theorem bindingAt?_append (u s : Text) : d.bindingAt? (u ++ x :: s) = d.bindingAt? u := by
  rw [bindingAt?, bindingAt?]
  cases hu : d.opening.isPrefixOf? u with
  | none =>
    rw [isPrefixOf?_eq_none_iff, ← prefix_append_cons_iff hx.opening] at hu
    rw [isPrefixOf?_eq_none_iff.2 hu]
  | some inner =>
    obtain rfl := List.isPrefixOf?_eq_some_iff_append_eq.1 hu
    have hsome : d.opening.isPrefixOf? (d.opening ++ inner ++ x :: s) = some (inner ++ x :: s) :=
      List.isPrefixOf?_eq_some_iff_append_eq.2 (List.append_assoc _ _ _).symm
    have hbody : trimStart (inner ++ x :: s) = trimStart inner ++ x :: s := by
      rw [trimStart, trimStart, List.dropWhile_append]
      split
      · rename_i h
        rw [List.dropWhile_cons_of_neg (by simp [hx.space]), List.isEmpty_iff.1 h, List.nil_append]
      · rfl
    rw [hsome]
    dsimp only
    rw [hbody, spans_append hx.part hx.dot]
    refine findSome?_congr fun n hn => ?_
    have hn := le_length_of_mem_spans hn
    rw [List.drop_append_of_le_length hn, closingAt?_append hx, List.take_append_of_le_length hn,
      List.length_append, List.length_append, Nat.add_sub_add_right]

end Stop
end Delimiters
end InlineBinding
