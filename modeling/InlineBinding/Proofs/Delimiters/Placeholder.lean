import InlineBinding.Proofs.Delimiters.Grammar

/-!
# Placeholders have no bindings

A placeholder is the text with each path called between double braces. A single brace before the
path would be a binding again, were it not for the parentheses of the call.
-/
namespace InlineBinding.Delimiters
open Text Accessor

/-- No binding between braces begins in the text. -/
def Clear (s : Text) : Prop := ∀ x y, s = x ++ y → ¬ braces.Begins y

namespace Clear

variable {s : Text}

theorem split_eq (h : Clear s) : braces.split s = [s] := (Splits.literal h).eq_split.symm

theorem cons (h : Clear s) {c : Char} (hc : ¬ braces.Begins (c :: s)) : Clear (c :: s) := by
  intro x y he
  rcases List.cons_eq_append_iff.1 he with ⟨rfl, rfl⟩ | ⟨z, rfl, hz⟩
  · exact hc
  · exact h z y hz

/-- Without opening braces nothing begins. -/
theorem append (h : Clear s) {u : Text} (hu : '\x7b' ∉ u) : Clear (u ++ s) := by
  induction u with
  | nil => exact h
  | cons c u ih =>
    rw [List.mem_cons, not_or] at hu
    refine (ih hu.2).cons fun hb => hu.1 ?_
    obtain ⟨r, hr⟩ := hb.opening_prefix
    exact (List.cons.inj hr).1

end Clear

/-- A binding is not read over a character that is neither in it nor closes it. -/
theorem not_begins_of_stopped {a z : Text} {b : Char} (ha : '\x7d' ∉ a) (hspace : isSpace b = false)
    (hpart : isPart b = false) (hdot : b ≠ '.') (hclose : b ≠ '\x7d') :
    ¬ braces.Begins ('\x7b' :: (a ++ b :: z)) := by
  rintro ⟨w, p, v, r, h⟩
  have hb := notMem_between h.spaceBefore h.isPath h.spaceBehind hspace hpart hdot
  have htext : a ++ b :: z = w ++ p ++ v ++ '\x7d' :: r := by simpa [braces] using h.text
  rcases List.append_eq_append_iff.1 htext with ⟨c, hc, hr⟩ | ⟨c, hc, hr⟩
  · cases c with
    | nil => exact hclose (List.cons.inj hr).1
    | cons d c =>
      obtain ⟨rfl, -⟩ := List.cons.inj hr
      simp [hc] at hb
  · cases c with
    | nil => exact hclose (List.cons.inj hr).1.symm
    | cons d c =>
      obtain ⟨rfl, -⟩ := List.cons.inj hr
      simp [hc] at ha

/-- A call between double braces is no binding. -/
theorem Clear.call {p s : Text} (hp : IsPath p) (h : Clear s) :
    Clear (doubleBraces.wrap (p ++ "()".toList) ++ s) := by
  have hbody : Clear (p ++ '(' :: (")\x7d\x7d".toList ++ s)) := by
    refine Clear.append ?_ (hp.notMem (by decide) (by decide))
    exact Clear.append (u := "()\x7d\x7d".toList) h (by decide)
  have hinner : Clear ('\x7b' :: (p ++ '(' :: (")\x7d\x7d".toList ++ s))) :=
    hbody.cons (not_begins_of_stopped (hp.notMem (by decide) (by decide)) (by decide) (by decide)
      (by decide) (by decide))
  have houter : Clear ('\x7b' :: ([] ++ '\x7b' :: (p ++ '(' :: (")\x7d\x7d".toList ++ s)))) :=
    hinner.cons (not_begins_of_stopped List.not_mem_nil (by decide) (by decide) (by decide)
      (by decide))
  simpa [wrap, doubleBraces] using houter

/-- No binding begins in a literal, and none is read over the brace behind it. -/
theorem Clear.literal {literal s t : Text}
    (first : ∀ x y, literal ++ s = x ++ y → x.length < literal.length → ¬ braces.Begins y)
    (h : Clear ('\x7b' :: t)) : Clear (literal ++ '\x7b' :: t) := by
  intro x y he hy
  rcases List.append_eq_append_iff.1 he with ⟨u, -, hu⟩ | ⟨u, rfl, rfl⟩
  · exact h u y hu hy
  · cases u with
    | nil => exact h [] _ rfl hy
    | cons c u =>
      have hu := (Begins.of_append (List.cons_ne_nil c u) hy).append s
      exact first x (c :: u ++ s) (List.append_assoc _ _ _) (by simp) hu

theorem Splits.clear_placeholder {s : Text} {cs : List Text} (h : braces.Splits s cs)
    (marks : LiteralMarks) : Clear (Expression.compile doubleBraces marks cs).placeholder := by
  change Clear ((Chunk.alternate false cs).flatMap (Expression.place doubleBraces))
  induction h with
  | @literal s h =>
    have hplace : (Chunk.alternate false [s]).flatMap (Expression.place doubleBraces) = s :=
      List.append_nil s
    rw [hplace]
    exact h
  | @binding literal s w p v r cs first takes _ ih =>
    have hcall := Clear.call takes.isPath ih
    have hplace : (Chunk.alternate false (literal :: p :: cs)).flatMap
        (Expression.place doubleBraces) = literal ++ (doubleBraces.wrap (p ++ "()".toList) ++
          (Chunk.alternate false cs).flatMap (Expression.place doubleBraces)) := by
      simp [Chunk.alternate, Expression.place]
    rw [hplace]
    exact Clear.literal first hcall

/-- Splitting what splitting has led to finds nothing. -/
theorem clear_placeholder (marks : LiteralMarks) (s : Text) :
    Clear (Expression.compile doubleBraces marks (braces.split s)).placeholder :=
  (splits_split braces s).clear_placeholder marks

/-- The braces around a call may touch others. -/
example : (Expression.compile doubleBraces [] (braces.split "\x7b\x7b a \x7d".toList)).placeholder =
    "\x7b\x7b\x7ba()\x7d\x7d".toList := by decide

end InlineBinding.Delimiters
