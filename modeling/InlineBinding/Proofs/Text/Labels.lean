import InlineBinding.Text.Numbered
import InlineBinding.Proofs.Text.Passes
import Mathlib.Data.List.Pairwise

/-!
# Labels and what they stand for

Different numbers give different labels. Labels are self-delimiting when they begin with a
character that they hold nowhere else and their number is followed by something else than a
digit: none of them can then be read in part in another. A labelled text turns back into the text
itself when every label is written as its match.
-/
namespace InlineBinding.Text

theorem digits_injective {i j : Nat} (h : digits i = digits j) : i = j := by
  have hi := Nat.ofDigitChars_ten_toDigits (n := i)
  have hj := Nat.ofDigitChars_ten_toDigits (n := j)
  rw [digits, digits] at h
  rw [← hi, h, hj]

theorem isDigit_of_mem_digits {c : Char} {k : Nat} (h : c ∈ digits k) : c.isDigit = true :=
  Nat.isDigit_of_mem_toDigits (by decide) (by decide) h

namespace Numbered

variable {n : Numbered}

theorem label_injective {i j : Nat} (h : n.label i = n.label j) : i = j :=
  digits_injective (List.append_cancel_left (List.append_cancel_right h))

theorem notMem_label {c : Char} (hb : c ∉ n.before) (ha : c ∉ n.after) (hd : c.isDigit = false)
    (k : Nat) : c ∉ n.label k := by
  rw [label, List.mem_append, List.mem_append]
  rintro ((h | h) | h)
  · exact hb h
  · rw [isDigit_of_mem_digits h] at hd
    exact Bool.noConfusion hd
  · exact ha h

theorem label_ne_nil (n : Numbered) (k : Nat) : n.label k ≠ [] := by
  have hk : 0 < (digits k).length := Nat.length_toDigits_pos
  intro h
  rw [label, List.append_eq_nil_iff, List.append_eq_nil_iff] at h
  rw [h.1.2] at hk
  exact Nat.lt_irrefl 0 hk

/-- Labels of this kind begin with `b` and hold it nowhere else, and a number in one of them is
not followed by a digit. -/
structure Separate (n : Numbered) (b : Char) : Prop where
  opens : ∃ p, n.before = b :: p ∧ b ∉ p
  notMem_after : b ∉ n.after
  notDigit : b.isDigit = false
  closes : ∃ a q, n.after = a :: q ∧ a.isDigit = false

namespace Separate

variable {b : Char}

theorem label_eq_cons (h : n.Separate b) (k : Nat) : ∃ m, n.label k = b :: m ∧ b ∉ m := by
  obtain ⟨p, hp, hb⟩ := h.opens
  refine ⟨p ++ digits k ++ n.after, by rw [label, hp]; rfl, ?_⟩
  rw [List.mem_append, List.mem_append]
  rintro ((hm | hm) | hm)
  · exact hb hm
  · have := isDigit_of_mem_digits hm
    rw [h.notDigit] at this
    exact Bool.noConfusion this
  · exact h.notMem_after hm

/-- No label begins another one. -/
theorem eq_of_append_eq (h : n.Separate b) {i j : Nat} {x y : Text}
    (he : n.label i ++ x = n.label j ++ y) : i = j ∧ x = y := by
  obtain ⟨a, q, ha, hd⟩ := h.closes
  have hn (k : Nat) : a ∉ digits k := by
    intro hm
    rw [isDigit_of_mem_digits hm] at hd
    exact Bool.noConfusion hd
  simp only [label, ha, List.append_assoc, List.append_cancel_left_eq, List.cons_append] at he
  obtain ⟨hk, he⟩ := append_cons_unique (hn i) (hn j) he
  exact ⟨digits_injective hk, List.append_cancel_left he⟩

theorem eq_of_label_prefix (h : n.Separate b) {i j : Nat} {x y : Text}
    (hp : n.label i ++ x <+: n.label j ++ y) : i = j ∧ x <+: y := by
  obtain ⟨v, hv⟩ := hp
  rw [List.append_assoc] at hv
  obtain ⟨hk, he⟩ := h.eq_of_append_eq hv
  exact ⟨hk, v, he⟩

end Separate

/-! ## Assigning labels -/

variable {document : Text}

theorem le_free (n : Numbered) (document : Text) (k : Nat) : k ≤ n.free document k := by
  fun_induction free n document k with
  | case1 k _ ih => exact Nat.le_of_succ_le ih
  | case2 k _ => exact Nat.le_refl k

theorem free_eq_self {k : Nat} (h : occurs (n.label k) document = false) :
    n.free document k = k := by
  rw [free, dif_neg (by rw [h]; exact Bool.noConfusion)]

theorem exists_label_of_mem_assign {last : Nat} {ps : List (Piece Text)} {c : Clipping}
    (h : .hit c ∈ n.assign document last ps) :
    ∃ k, last < k ∧ c.mark = n.label k ∧ ¬ c.mark <:+: document := by
  induction ps generalizing last with
  | nil => exact absurd h List.not_mem_nil
  | cons p ps ih =>
    cases p with
    | char d =>
      rw [assign, List.mem_cons] at h
      exact ih (h.resolve_left (by simp))
    | hit t =>
      have hf := le_free n document (last + 1)
      rw [assign, List.mem_cons] at h
      rcases h with h | h
      · obtain rfl := Piece.hit.inj h
        exact ⟨_, hf, rfl, not_infix_of_occurs (not_occurs_free n document _)⟩
      · obtain ⟨k, hk, hm⟩ := ih h
        exact ⟨k, by omega, hm⟩

theorem mem_clippings {qs : List (Piece Clipping)} {c : Clipping} :
    c ∈ clippings qs ↔ .hit c ∈ qs := by
  rw [clippings, List.mem_filterMap]
  constructor
  · rintro ⟨q, hq, h⟩
    cases q with
    | char d => exact absurd h (by simp)
    | hit a => rwa [← Option.some.inj h]
  · exact fun h => ⟨_, h, rfl⟩

theorem mem_of_mem_assign {last : Nat} {ps : List (Piece Text)} {c : Clipping}
    (h : .hit c ∈ n.assign document last ps) : .hit c.text ∈ ps := by
  induction ps generalizing last with
  | nil => exact absurd h List.not_mem_nil
  | cons p ps ih =>
    cases p with
    | char d =>
      rw [assign, List.mem_cons] at h
      exact List.mem_cons_of_mem _ (ih (h.resolve_left (by simp)))
    | hit t =>
      rw [assign, List.mem_cons] at h
      rcases h with h | h
      · obtain rfl := Piece.hit.inj h
        exact List.mem_cons_self
      · exact List.mem_cons_of_mem _ (ih h)

/-- Every label is used once. -/
theorem pairwise_mark_ne (n : Numbered) (document : Text) (last : Nat) (ps : List (Piece Text)) :
    (clippings (n.assign document last ps)).Pairwise fun c d => c.mark ≠ d.mark := by
  induction ps generalizing last with
  | nil => exact .nil
  | cons p ps ih =>
    cases p with
    | char d => exact ih last
    | hit t =>
      refine .cons (fun d hd he => ?_) (ih _)
      obtain ⟨k, hk, hm, -⟩ := exists_label_of_mem_assign (mem_clippings.1 hd)
      have := label_injective (he.trans hm)
      omega

theorem assign_map_char (n : Numbered) (document : Text) (last : Nat) (t : Text) :
    n.assign document last (t.map .char) = t.map .char := by
  induction t with
  | nil => rfl
  | cons c t ih => exact congrArg (.char c :: ·) ih

/-- Clippings whose marks are labels, each of them used once. -/
structure Labelled (n : Numbered) (cs : List Clipping) : Prop where
  exists_label : ∀ c ∈ cs, ∃ k, c.mark = n.label k
  distinct : cs.Pairwise fun c d => c.mark ≠ d.mark

theorem Labelled.mark_ne_nil {cs : List Clipping} (h : n.Labelled cs) : ∀ c ∈ cs, c.mark ≠ [] := by
  intro c hc
  obtain ⟨k, hk⟩ := h.exists_label c hc
  exact hk ▸ label_ne_nil n k

theorem labelled_assign (n : Numbered) (document : Text) (last : Nat) (ps : List (Piece Text)) :
    n.Labelled (clippings (n.assign document last ps)) where
  exists_label c h := by
    obtain ⟨k, -, hm, -⟩ := exists_label_of_mem_assign (mem_clippings.1 h)
    exact ⟨k, hm⟩
  distinct := pairwise_mark_ne n document last ps

theorem Labelled.eq_of_mark_eq {cs : List Clipping} (h : n.Labelled cs) {c d : Clipping}
    (hc : c ∈ cs) (hd : d ∈ cs) (he : c.mark = d.mark) : c = d := by
  have : Std.Symm fun c d : Clipping => c.mark ≠ d.mark := ⟨fun _ _ h => h.symm⟩
  by_contra hne
  exact h.distinct.forall hc hd hne he

theorem Labelled.perm {cs ds : List Clipping} (h : n.Labelled cs) (hp : ds.Perm cs) :
    n.Labelled ds where
  exists_label c hc := h.exists_label c (hp.mem_iff.1 hc)
  distinct := (hp.pairwise_iff Ne.symm).2 h.distinct

theorem Labelled.nodup {cs : List Clipping} (h : n.Labelled cs) : cs.Nodup :=
  h.distinct.imp fun hne he => hne (congrArg Clipping.mark he)

section Separate

variable {b : Char} {cs : List Clipping}

theorem Labelled.mark_eq_cons (h : n.Labelled cs) (hb : n.Separate b) {c : Clipping}
    (hc : c ∈ cs) : ∃ m, c.mark = b :: m ∧ b ∉ m := by
  obtain ⟨k, hk⟩ := h.exists_label c hc
  rw [hk]
  exact hb.label_eq_cons k

/-- No mark begins another one. -/
theorem Labelled.eq_of_mark_append_prefix (h : n.Labelled cs) (hb : n.Separate b) {a c : Clipping}
    (ha : a ∈ cs) (hc : c ∈ cs) {x y : Text} (hp : c.mark ++ x <+: a.mark ++ y) :
    a = c ∧ x <+: y := by
  obtain ⟨i, hi⟩ := h.exists_label a ha
  obtain ⟨k, hk⟩ := h.exists_label c hc
  rw [hi, hk] at hp
  obtain ⟨he, hx⟩ := hb.eq_of_label_prefix hp
  exact ⟨h.eq_of_mark_eq ha hc (by rw [hi, hk, he]), hx⟩

theorem Labelled.mark_prefix_iff (h : n.Labelled cs) (hb : n.Separate b) {a c : Clipping}
    (ha : a ∈ cs) (hc : c ∈ cs) {t : Text} : c.mark <+: a.mark ++ t ↔ a = c := by
  constructor
  · intro hp
    rw [← List.append_nil c.mark] at hp
    exact (h.eq_of_mark_append_prefix hb ha hc hp).1
  · rintro rfl
    exact List.prefix_append _ _

end Separate

theorem join_text_assign (n : Numbered) (document : Text) (last : Nat) (ps : List (Piece Text)) :
    join Clipping.text (n.assign document last ps) = join id ps := by
  induction ps generalizing last with
  | nil => rfl
  | cons p ps ih =>
    cases p with
    | char d => exact congrArg (d :: ·) (ih last)
    | hit t => exact congrArg (t ++ ·) (ih _)

end Numbered

/-! ## Cutting and joining -/

theorem rule_of_mem_cut {α : Type} {rule : Text → Option (α × Nat)} {s : Text} {a : α}
    (h : .hit a ∈ cut rule s) : ∃ s' n, rule s' = some (a, n) := by
  induction s using cut_induction rule with
  | nil => exact absurd h List.not_mem_nil
  | char c s hr ih =>
    rw [cut_cons_of_none hr, List.mem_cons] at h
    exact ih (h.resolve_left (by simp))
  | hit c s b n hr ih =>
    rw [cut_cons_of_some hr, List.mem_cons] at h
    rcases h with h | h
    · obtain rfl := Piece.hit.inj h
      exact ⟨_, _, hr⟩
    · exact ih h

theorem mem_of_char_mem_cut {α : Type} {rule : Text → Option (α × Nat)} {s : Text} {x : Char}
    (h : .char x ∈ cut rule s) : x ∈ s := by
  induction s using cut_induction rule with
  | nil => exact absurd h List.not_mem_nil
  | char c s hr ih =>
    rw [cut_cons_of_none hr, List.mem_cons] at h
    rcases h with h | h
    · obtain rfl := Piece.char.inj h
      exact List.mem_cons_self
    · exact List.mem_cons_of_mem c (ih h)
  | hit c s a n hr ih =>
    rw [cut_cons_of_some hr, List.mem_cons] at h
    exact List.mem_cons_of_mem c (List.mem_of_mem_drop (ih (h.resolve_left (by simp))))

/-- A text comes back when every match is written as the characters that it took. -/
theorem join_cut {α : Type} {rule : Text → Option (α × Nat)} {write : α → Text}
    (h : ∀ s a n, rule s = some (a, n) → 0 < n ∧ write a = s.take n) (s : Text) :
    join write (cut rule s) = s := by
  induction s using cut_induction rule with
  | nil => rfl
  | char c s hr ih => rw [cut_cons_of_none hr, join_char, ih]
  | hit c s a n hr ih =>
    obtain ⟨hn, ha⟩ := h _ _ _ hr
    rw [cut_cons_of_some hr, join_hit, ih, ha]
    obtain ⟨i, rfl⟩ := Nat.exists_eq_add_of_lt hn
    simp

/-- A pass leaves what can be read beside the matches of its pattern. -/
theorem infix_replace_of_enclosed {p m : Text} (new : Text) {s : Text} (hm : Enclosed p m)
    (hn : ¬ p <:+: m) (h : p <:+: s) : p <:+: replace m new s := by
  obtain ⟨x, r, y, rfl, -⟩ := id hm
  have hjoin : join (fun _ => x :: (r ++ [y])) (cut (occurrenceAt? (x :: (r ++ [y]))) s) = s := by
    refine join_cut (fun t a n ht => ?_) s
    rw [occurrenceAt?] at ht
    split at ht
    · rename_i hp
      obtain ⟨u, rfl⟩ := isPrefixOf_eq_true.1 hp
      obtain rfl := (Prod.mk.inj (Option.some.inj ht)).2
      exact ⟨Nat.succ_pos _, List.take_left.symm⟩
    · exact absurd ht (by simp)
  rw [← hjoin] at h
  exact infix_join_of_enclosed (u := []) (fun a _ => ⟨hm, hn⟩) h

/-- What the rule finds cannot be read between the matches. -/
theorem not_infix_cut {α : Type} {rule : Text → Option (α × Nat)} {write : α → Text}
    (h : ∀ s a n, rule s = some (a, n) → 0 < n ∧ write a = s.take n) {p : Text} {x : Char}
    (hp : p ≠ []) (hx : x ∉ p) (hr : ∀ s, p <+: s → rule s ≠ none) (s : Text) :
    ¬ p <:+: join (fun _ => [x]) (cut rule s) := by
  induction s using cut_induction rule with
  | nil => exact fun hi => hp (List.infix_nil.1 hi)
  | char c s hc ih =>
    rw [cut_cons_of_none hc, join_char, List.infix_cons_iff]
    rintro (hi | hi)
    · -- up to the next match the text is as it was
      obtain ⟨d, q, rfl⟩ := List.exists_cons_of_ne_nil hp
      obtain ⟨rfl, hd⟩ := List.cons_prefix_cons.1 hi
      have hq : q <+: join write (cut rule s) :=
        prefix_join_of_notMem (b := x) (fun _ _ => Or.inr ⟨[], rfl, List.not_mem_nil⟩)
          (fun hm => hx (List.mem_cons_of_mem d hm)) hd
      rw [join_cut h] at hq
      exact hr _ (List.cons_prefix_cons.2 ⟨rfl, hq⟩) hc
    · exact ih hi
  | hit c s a n hc ih =>
    rw [cut_cons_of_some hc, join_hit]
    intro hi
    rcases infix_append_cons (s := []) hx hi with hi | hi
    · exact hp (List.infix_nil.1 hi)
    · exact ih hi

end InlineBinding.Text
