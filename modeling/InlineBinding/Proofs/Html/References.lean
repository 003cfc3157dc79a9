import InlineBinding.Proofs.Html.Normalized
import InlineBinding.Proofs.Text.Settled
import Mathlib.Data.Nat.Notation

/-!
# Characters written by their numbers

Quotes, backslashes and commas of a text may be written as numeric references. Passes over the text
that look at white space and line ends only treat both writings alike, and decoding gives the text
back.
-/
namespace InlineBinding.Html
open Text

/-- Quotes, backslashes and commas are escaped in literals. -/
def referable : Text := ['\'', '\\', ',']

/-- A character by its number. -/
def reference (c : Char) : Text := "&#".toList ++ digits c.toNat ++ [';']

/-- Commas written as references are not counted. -/
def referenceCount (c : Char) : ℕ := if c = ',' then 0 else 1

/-- A text with some of its characters written as references; `n` of them are quotes and
backslashes. -/
inductive Refers : ℕ → Text → Text → Prop where
  | nil : Refers 0 [] []
  | char {n : ℕ} {s w : Text} (c : Char) (h : Refers n s w) : Refers n (c :: s) (c :: w)
  | reference {n : ℕ} {s w : Text} {c : Char} (hc : c ∈ referable) (h : Refers n s w) :
      Refers (n + referenceCount c) (c :: s) (Html.reference c ++ w)

theorem reference_eq : reference '\'' = "&#39;".toList ∧ reference '\\' = "&#92;".toList ∧
    reference ',' = "&#44;".toList := by decide

theorem reference_cases {c : Char} (hc : c ∈ referable) :
    c = '\'' ∧ reference c = "&#39;".toList ∨ c = '\\' ∧ reference c = "&#92;".toList ∨
      c = ',' ∧ reference c = "&#44;".toList := by
  obtain ⟨hquote, hbackslash, hcomma⟩ := reference_eq
  simp only [referable, List.mem_cons, List.not_mem_nil, or_false] at hc
  rcases hc with rfl | rfl | rfl
  · exact Or.inl ⟨rfl, hquote⟩
  · exact Or.inr (Or.inl ⟨rfl, hbackslash⟩)
  · exact Or.inr (Or.inr ⟨rfl, hcomma⟩)

/-- Of these characters references are made. -/
def referenceChars : Text := "&#3924;".toList

theorem reference_subset {c : Char} (hc : c ∈ referable) : reference c ⊆ referenceChars := by
  rcases reference_cases hc with ⟨-, h⟩ | ⟨-, h⟩ | ⟨-, h⟩ <;>
    · rw [h]
      decide

/-! ## Decoding -/

theorem decodeReferences_cons {c : Char} (hc : c ≠ '&') (s : Text) :
    decodeReferences (c :: s) = c :: decodeReferences s := by
  have hnone : referenceAt? (c :: s) = none := by
    unfold referenceAt?
    split <;> first | rfl | exact absurd (List.cons.inj ‹_›).1 hc
  rw [decodeReferences, cut_cons_of_none hnone, join_char, ← decodeReferences]

theorem decodeReferences_match {m : Text} {c : Char} (s : Text) (hm : m ≠ [])
    (h : referenceAt? (m ++ s) = some (c, m.length)) :
    decodeReferences (m ++ s) = c :: decodeReferences s := by
  rw [decodeReferences, cut_match_append hm h, join_hit, decodeReferences, List.singleton_append]

theorem decodeReferences_reference {c : Char} (hc : c ∈ referable) (s : Text) :
    decodeReferences (reference c ++ s) = c :: decodeReferences s := by
  rcases reference_cases hc with ⟨rfl, h⟩ | ⟨rfl, h⟩ | ⟨rfl, h⟩ <;>
    · rw [h]
      exact decodeReferences_match s (List.cons_ne_nil _ _) rfl

theorem decodeReferences_quot (s : Text) :
    decodeReferences ("&quot;".toList ++ s) = '"' :: decodeReferences s :=
  decodeReferences_match s (List.cons_ne_nil _ _) rfl

/-! ## Passes -/

/-- An exchange of characters that spares line ends and null characters can be made before. -/
theorem normalizeChars_map {f : Char → Char}
    (hf : Steady f ['\r', '\n', Char.ofNat 0, Char.ofNat 0xfffd]) (s : Text) :
    normalizeChars (s.map f) = (normalizeChars s).map f := by
  have hreturn := hf '\r' (by decide)
  have hfeed := hf '\n' (by decide)
  have hnull := hf (Char.ofNat 0) (by decide)
  have hmark := hf (Char.ofNat 0xfffd) (by decide)
  fun_induction normalizeChars s with
  | case1 s ih =>
    rw [List.map_cons, List.map_cons, (hreturn '\r').2 rfl, (hfeed '\n').2 rfl,
      normalizeChars, ih, List.map_cons, (hfeed '\n').2 rfl]
  | case2 s hs ih =>
    have hnext (r : Text) : s.map f ≠ '\n' :: r := by
      intro he
      obtain ⟨c, t, rfl, hc, -⟩ := List.map_eq_cons_iff.1 he
      exact hs t (by rw [(hfeed c).1 hc])
    rw [List.map_cons, (hreturn '\r').2 rfl, normalizeChars.eq_2 _ hnext, ih, List.map_cons,
      (hfeed '\n').2 rfl]
  | case3 c s _ hr ih =>
    have hne : f c ≠ '\r' := fun he => hr ((hreturn c).1 he)
    have hzero : (f c).toNat = 0 ↔ c.toNat = 0 := by
      have hiff (d : Char) : d.toNat = 0 ↔ d = Char.ofNat 0 := by
        refine ⟨fun hd => ?_, fun hd => hd ▸ rfl⟩
        rw [← hd, Char.ofNat_toNat]
      rw [hiff, hiff, hnull]
    rw [List.map_cons, normalizeChars.eq_3 _ _ (fun _ he _ => hne he) hne, ih, List.map_cons]
    simp only [hzero]
    split
    · rw [(hmark _).2 rfl]
    · rfl
  | case4 => rfl

/-- Text without white space passes as it is. -/
theorem collapseFrom_append {x : Text} (hx : ∀ c ∈ x, isSpace c = false) (hne : x ≠ [])
    (inRun : Bool) (y : Text) : collapseFrom inRun (x ++ y) = x ++ collapseFrom false y := by
  induction x generalizing inRun with
  | nil => exact absurd rfl hne
  | cons d x ih =>
    rw [List.forall_mem_cons] at hx
    rw [List.cons_append, collapseFrom, if_neg (by simp [hx.1]), List.cons_append]
    cases x with
    | nil => rfl
    | cons e x => rw [ih hx.2 (List.cons_ne_nil e x)]

namespace Refers

variable {n : ℕ} {s w : Text}

theorem refl (s : Text) : Refers 0 s s := by
  induction s with
  | nil => exact .nil
  | cons c s ih => exact .char c ih

theorem decode_eq (h : Refers n s w) (ha : '&' ∉ s) : decodeReferences w = s := by
  induction h with
  | nil => rfl
  | char c _ ih =>
    rw [List.mem_cons, not_or] at ha
    rw [decodeReferences_cons (Ne.symm ha.1), ih ha.2]
  | reference hc _ ih =>
    rw [List.mem_cons, not_or] at ha
    rw [decodeReferences_reference hc, ih ha.2]

theorem append {m : ℕ} {x y : Text} (h : Refers n s w) (hx : Refers m x y) :
    Refers (n + m) (s ++ x) (w ++ y) := by
  induction h with
  | nil => rwa [Nat.zero_add]
  | char c _ ih => exact .char c ih
  | @reference n s w c hc _ ih =>
    rw [Nat.add_right_comm, List.append_assoc]
    exact .reference hc ih

/-- What stands before the first reference is the same in both texts. -/
theorem exists_front (h : Refers n s w) : ∃ u s' w', s = u ++ s' ∧ w = u ++ w' ∧ Refers n s' w' ∧
    (s' = [] ∧ w' = [] ∨ ∃ c x y, c ∈ referable ∧ s' = c :: x ∧ w' = '&' :: y) := by
  induction h with
  | nil => exact ⟨[], [], [], rfl, rfl, .nil, Or.inl ⟨rfl, rfl⟩⟩
  | char c _ ih =>
    obtain ⟨u, s', w', rfl, rfl, h, hend⟩ := ih
    exact ⟨c :: u, s', w', rfl, rfl, h, hend⟩
  | @reference n s w c hc h _ =>
    exact ⟨[], _, _, rfl, rfl, .reference hc h, Or.inr ⟨c, s, _, hc, rfl, rfl⟩⟩

theorem notMem {x : Char} (h : Refers n s w) (hx : x ∉ referenceChars) (hs : x ∉ s) : x ∉ w := by
  induction h with
  | nil => exact hs
  | char c _ ih =>
    rw [List.mem_cons, not_or] at hs ⊢
    exact ⟨hs.1, ih hs.2⟩
  | reference hc _ ih =>
    rw [List.mem_cons, not_or] at hs
    rw [List.mem_append, not_or]
    exact ⟨fun hm => hx (reference_subset hc hm), ih hs.2⟩

theorem eq_nil_iff (h : Refers n s w) : s = [] ↔ w = [] := by
  cases h with
  | nil => rfl
  | char c _ => simp
  | reference hc _ => simp [Html.reference]

theorem exists_of_cons (h : Refers n s ('\n' :: w)) : ∃ t, s = '\n' :: t := by
  generalize he : '\n' :: w = x at h
  cases h with
  | nil => exact absurd he (List.cons_ne_nil _ _)
  | @char _ t _ c _ => exact ⟨t, by rw [(List.cons.inj he).1]⟩
  | reference hc _ => exact absurd (List.cons.inj he).1 (by decide)

/-- Line ends are no part of a reference and none of the characters written by one. -/
theorem normalizeChars (h : Refers n s w) :
    Refers n (Html.normalizeChars s) (Html.normalizeChars w) := by
  have hchars : ∀ x ∈ referable ++ referenceChars, x ≠ '\r' ∧ x.toNat ≠ 0 :=
    forall_mem_of_all (by decide)
  fun_induction Html.normalizeChars s generalizing n w with
  | case1 s ih =>
    cases h with
    | char _ h =>
      cases h with
      | char _ h => exact .char '\n' (ih h)
      | reference hc h => exact absurd hc (by decide)
    | reference hc h => exact absurd hc (by decide)
  | case2 s hs ih =>
    cases h with
    | @char _ _ w _ h =>
      have hw (r : Text) : w ≠ '\n' :: r := by
        rintro rfl
        obtain ⟨t, rfl⟩ := exists_of_cons h
        exact hs t rfl
      rw [Html.normalizeChars.eq_2 w hw]
      exact .char '\n' (ih h)
    | reference hc h => exact absurd hc (by decide)
  | case3 c s hs hr ih =>
    cases h with
    | @char _ _ w _ h =>
      rw [Html.normalizeChars.eq_3 c w (fun _ he _ => hr he) hr]
      exact .char _ (ih h)
    | reference hc h =>
      have hreference : ∀ x ∈ Html.reference c, x ≠ '\r' ∧ x.toNat ≠ 0 :=
        fun x hx => hchars x (List.mem_append_right _ (reference_subset hc hx))
      rw [if_neg (hchars c (List.mem_append_left _ hc)).2,
        normalizeChars_append_of_forall hreference]
      exact .reference hc (ih h)
  | case4 =>
    cases h
    exact .nil

theorem collapse (h : Refers n s w) : Refers n (Text.collapse s) (Text.collapse w) := by
  have hsolid : ∀ x ∈ referable ++ referenceChars, isSpace x = false :=
    forall_mem_of_all (by decide)
  have hfrom (inRun : Bool) : Refers n (collapseFrom inRun s) (collapseFrom inRun w) := by
    induction h generalizing inRun with
    | nil => cases inRun <;> exact .nil
    | char c _ ih =>
      rw [collapseFrom, collapseFrom]
      split
      · split
        · exact ih true
        · exact .char ' ' (ih true)
      · exact .char c (ih false)
    | @reference n s w c hc _ ih =>
      have hchar := hsolid c (List.mem_append_left _ hc)
      have hreference : ∀ x ∈ Html.reference c, isSpace x = false :=
        fun x hx => hsolid x (List.mem_append_right _ (reference_subset hc hx))
      rw [collapseFrom_append hreference (by simp [Html.reference]), collapseFrom,
        if_neg (by simp [hchar])]
      exact .reference hc (ih false)
  exact hfrom false

end Refers

end InlineBinding.Html
