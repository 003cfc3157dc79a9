import InlineBinding.Proofs.Text.Replace
import InlineBinding.Text.Space
import Mathlib.Data.List.TakeWhile

/-!
# Words in a text

A word stands in a text as a whole. What a text loses at its ends or in its white space leaves the
words in it alone.
-/
namespace InlineBinding.Text

/-- A text that white space does not cut. -/
structure Solid (w : Text) : Prop where
  ne_nil : w ≠ []
  space : ∀ c ∈ w, isSpace c = false

variable {w s : Text}

/-- What surrounds a word without its characters can be left out. -/
theorem infix_of_disjoint {a b : Text} (hw : w ≠ []) (ha : ∀ c ∈ a, c ∉ w) (hb : ∀ c ∈ b, c ∉ w)
    (h : w <:+: a ++ s ++ b) : w <:+: s := by
  have hleft {v x y : Text} (hv : v ≠ []) (hx : ∀ c ∈ x, c ∉ v) (h : v <:+: x ++ y) :
      v <:+: y := by
    obtain ⟨d, v, rfl⟩ := List.exists_cons_of_ne_nil hv
    exact infix_of_notMem_head (fun hd => hx d hd List.mem_cons_self) h
  rw [List.append_assoc] at h
  have h := hleft hw ha h
  rw [← List.reverse_infix, List.reverse_append] at h
  have h := hleft (by simpa using hw) (fun c hc => by simpa using hb c (List.mem_reverse.1 hc)) h
  rwa [List.reverse_infix] at h

theorem infix_dropWhile {p : Char → Bool} (hw : w ≠ []) (hp : ∀ c ∈ w, p c = false)
    (h : w <:+: s) : w <:+: s.dropWhile p := by
  refine infix_of_disjoint (a := s.takeWhile p) (b := []) hw (fun c hc hm => ?_) (by simp) ?_
  · exact absurd (List.mem_takeWhile_imp hc) (by simp [hp c hm])
  · rwa [List.append_nil, List.takeWhile_append_dropWhile]

namespace Solid

theorem notMem (hw : w.Solid) (hs : ∀ c ∈ s, isSpace c = true) : ∀ c ∈ s, c ∉ w := by
  intro c hc hm
  have hspace := hs c hc
  rw [hw.space c hm] at hspace
  exact Bool.noConfusion hspace

theorem infix_trim (hw : w.Solid) (h : w <:+: s) : w <:+: trim s := by
  have hr : ∀ c ∈ w.reverse, isSpace c = false := fun c hc => hw.space c (List.mem_reverse.1 hc)
  rw [trim, ← List.reverse_infix, List.reverse_reverse]
  apply infix_dropWhile (by simpa using hw.ne_nil) hr
  rw [List.reverse_infix]
  exact infix_dropWhile hw.ne_nil hw.space h

theorem infix_collapse (hw : w.Solid) (h : w <:+: s) : w <:+: collapse s := by
  have hfront {v s : Text} (hv : ∀ c ∈ v, isSpace c = false) (h : v <+: s) (inRun : Bool) :
      v <+: collapseFrom inRun s := by
    induction v generalizing s inRun with
    | nil => exact List.nil_prefix
    | cons c v ih =>
      obtain ⟨r, rfl⟩ := h
      rw [List.cons_append, collapseFrom, if_neg (by simp [hv c List.mem_cons_self])]
      exact List.cons_prefix_cons.2
        ⟨rfl, ih (fun d hd => hv d (List.mem_cons_of_mem c hd)) (List.prefix_append v r) false⟩
  have hall (inRun : Bool) : w <:+: collapseFrom inRun s := by
    induction s generalizing inRun with
    | nil => exact absurd (List.infix_nil.1 h) hw.ne_nil
    | cons c s ih =>
      rcases List.infix_cons_iff.1 h with h | h
      · exact (hfront hw.space h inRun).isInfix
      · rw [collapseFrom]
        split
        · split
          · exact ih h true
          · exact List.infix_cons (ih h true)
        · exact List.infix_cons (ih h false)
  exact hall false

end Solid

end InlineBinding.Text
