import InlineBinding.Proofs.Text.Settled
import Mathlib.Data.List.TakeWhile

/-!
# Runs of white space

Collapsing writes every run of white space as one space and keeps all other characters. It is the
same for a smaller class of characters in the texts that hold no other white space, and in no other
texts.
-/
namespace InlineBinding.Text

/-- Every longest run of characters of a class is written as one space, all others are kept. -/
inductive Collapses (p : Char → Bool) : Text → Text → Prop
  | nil : Collapses p [] []
  | keep {c : Char} {s w : Text} (hc : p c = false) (rest : Collapses p s w) :
    Collapses p (c :: s) (c :: w)
  | run {u s w : Text} (hne : u ≠ []) (hu : ∀ c ∈ u, p c = true) (hs : ∀ c ∈ s.head?, p c = false)
    (rest : Collapses p s w) : Collapses p (u ++ s) (' ' :: w)

variable {p q : Char → Bool} {s w : Text}

theorem collapseFrom_true (s : Text) : collapseFrom true s = collapse (s.dropWhile isSpace) := by
  induction s with
  | nil => rfl
  | cons c s ih =>
    by_cases hc : isSpace c = true
    · rw [collapseFrom, if_pos hc, if_pos rfl, ih, List.dropWhile_cons_of_pos hc]
    · rw [List.dropWhile_cons_of_neg hc, collapse, collapseFrom, collapseFrom, if_neg hc, if_neg hc]

theorem collapse_cons_of_space {c : Char} (h : isSpace c = true) (s : Text) :
    collapse (c :: s) = ' ' :: collapse (s.dropWhile isSpace) := by
  rw [collapse, collapseFrom, if_pos h, if_neg Bool.false_ne_true, collapseFrom_true]

theorem collapse_cons {c : Char} (h : isSpace c = false) (s : Text) :
    collapse (c :: s) = c :: collapse s := by
  rw [collapse, collapseFrom, if_neg (by simp [h]), collapse]

theorem collapses_collapse (s : Text) : Collapses isSpace s (collapse s) := by
  induction hn : s.length using Nat.strong_induction_on generalizing s with
  | _ n ih =>
    subst hn
    cases s with
    | nil => exact .nil
    | cons c s =>
      cases hc : isSpace c with
      | false =>
        rw [collapse_cons hc]
        exact .keep hc (ih _ (Nat.lt_succ_self _) s rfl)
      | true =>
        -- the run ends where the rest without its white space begins
        have hlt : (s.dropWhile isSpace).length < (c :: s).length :=
          Nat.lt_succ_of_le (List.dropWhile_sublist isSpace).length_le
        have hrun := Collapses.run (u := c :: s.takeWhile isSpace) (List.cons_ne_nil c _)
          (List.forall_mem_cons.2 ⟨hc, fun d hd => List.mem_takeWhile_imp hd⟩)
          (fun d hd => ?_) (ih _ hlt _ rfl)
        · rwa [List.cons_append, List.takeWhile_append_dropWhile, ← collapse_cons_of_space hc] at hrun
        · have hstop := List.head?_dropWhile_not isSpace s
          rwa [hd] at hstop

theorem Collapses.eq_collapse (h : Collapses isSpace s w) : collapse s = w := by
  induction h with
  | nil => rfl
  | keep hc _ ih => rw [collapse_cons hc, ih]
  | @run u s w hne hu hs _ ih =>
    obtain ⟨c, u, rfl⟩ := List.exists_cons_of_ne_nil hne
    rw [List.forall_mem_cons] at hu
    have hdrop : (u ++ s).dropWhile isSpace = s := by
      rw [List.dropWhile_append_of_pos hu.2]
      cases s with
      | nil => rfl
      | cons d s => exact List.dropWhile_cons_of_neg (by simp [hs d rfl])
    rw [List.cons_append, collapse_cons_of_space hu.1, hdrop, ih]

theorem collapses_iff : Collapses isSpace s w ↔ collapse s = w :=
  ⟨Collapses.eq_collapse, fun h => h ▸ collapses_collapse s⟩

theorem Collapses.congr (h : Collapses p s w) (hq : ∀ c ∈ s, q c = p c) : Collapses q s w := by
  induction h with
  | nil => exact .nil
  | keep hc _ ih =>
    rw [List.forall_mem_cons] at hq
    exact .keep (hq.1.trans hc) (ih hq.2)
  | @run u s w hne hu hs _ ih =>
    rw [List.forall_mem_append] at hq
    refine .run hne (fun c hc => (hq.1 c hc).trans (hu c hc)) (fun c hc => ?_) (ih hq.2)
    exact (hq.2 c (List.mem_of_mem_head? hc)).trans (hs c hc)

theorem Collapses.mem (h : Collapses p s w) {c : Char} (hc : c ∈ s) (hp : p c = false) : c ∈ w := by
  induction h with
  | nil => exact hc
  | keep _ _ ih =>
    rw [List.mem_cons] at hc ⊢
    exact hc.imp_right ih
  | run _ hu _ _ ih =>
    rcases List.mem_append.1 hc with hc | hc
    · rw [hu c hc] at hp
      exact Bool.noConfusion hp
    · exact List.mem_cons_of_mem _ (ih hc)

/-- Collapsing is the same for fewer characters exactly where there is no other white space. -/
theorem collapses_collapse_iff (hq : ∀ c, q c = true → isSpace c = true) (hspace : q ' ' = true) :
    Collapses q s (collapse s) ↔ ∀ c ∈ s, isSpace c = true → q c = true := by
  constructor
  · intro h c hc hs
    by_contra hn
    rw [Bool.not_eq_true] at hn
    have hkept := h.mem hc hn
    rw [eq_space_of_mem_collapse hkept hs, hspace] at hn
    exact Bool.noConfusion hn
  · intro h
    refine (collapses_collapse s).congr fun c hc => ?_
    rw [Bool.eq_iff_iff]
    exact ⟨hq c, h c hc⟩

end InlineBinding.Text
