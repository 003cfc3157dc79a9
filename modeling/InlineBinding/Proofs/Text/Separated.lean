import InlineBinding.Proofs.Text.Replace

/-!
# Parts of a text between separators

A text is split at every place of one character, and its parts, none of which holds it, are joined
again by it.
-/
namespace InlineBinding.Text

theorem notMem_of_mem_splitOn {x : Char} {s t : Text} (h : s ∈ t.splitOn x) : x ∉ s := by
  induction t generalizing s with
  | nil =>
    rw [List.splitOn_nil, List.mem_singleton] at h
    rw [h]
    exact List.not_mem_nil
  | cons c t ih =>
    rw [List.splitOn_cons_eq_if_modifyHead] at h
    split at h
    · rcases List.mem_cons.1 h with rfl | h
      · exact List.not_mem_nil
      · exact ih h
    · rename_i hc
      obtain ⟨u, us, hsplit⟩ := List.exists_cons_of_ne_nil (List.splitOn_ne_nil x t)
      rw [hsplit] at ih h
      rcases List.mem_cons.1 h with rfl | h
      · have hne : x ≠ c := fun he => hc (by simp [he])
        rw [List.mem_cons, not_or]
        exact ⟨hne, ih List.mem_cons_self⟩
      · exact ih (List.mem_cons_of_mem u h)

/-- Parts that are joined by a separator can be read back unless they hold it. -/
theorem splitOn_intercalate_iff {x : Char} {ss : List Text} (hne : ss ≠ []) :
    (List.intercalate [x] ss).splitOn x = ss ↔ ∀ s ∈ ss, x ∉ s := by
  refine ⟨fun h s hs => ?_, fun h => List.splitOn_intercalate x h hne⟩
  rw [← h] at hs
  exact notMem_of_mem_splitOn hs

/-- What holds nothing of a text stands before it or behind it. -/
theorem infix_separated_iff {sep w s t : Text} (hw : w ≠ []) (hsep : sep ≠ [])
    (hn : ∀ c ∈ sep, c ∉ w) : w <:+: s ++ sep ++ t ↔ w <:+: s ∨ w <:+: t := by
  constructor
  · intro h
    obtain ⟨x, sep, rfl⟩ := List.exists_cons_of_ne_nil hsep
    rw [List.append_assoc, List.cons_append] at h
    refine (infix_append_cons (hn x List.mem_cons_self) h).imp_right fun h => ?_
    obtain ⟨d, w, rfl⟩ := List.exists_cons_of_ne_nil hw
    exact infix_of_notMem_head (fun hd => hn d (List.mem_cons_of_mem x hd) List.mem_cons_self) h
  · rintro (h | h)
    · rw [List.append_assoc]
      exact h.trans (List.prefix_append _ _).isInfix
    · exact h.trans (List.suffix_append _ _).isInfix

/-- A part stands between separators, or at the ends. -/
theorem exists_intercalate_eq (sep : Text) {s : Text} {ss : List Text} (h : s ∈ ss) :
    ∃ a b, List.intercalate sep ss = a ++ s ++ b ∧ (a = [] ∨ ∃ x, a = x ++ sep) ∧
      (b = [] ∨ ∃ y, b = sep ++ y) := by
  induction ss with
  | nil => exact absurd h List.not_mem_nil
  | cons t ss ih =>
    rcases List.mem_cons.1 h with rfl | h
    · cases ss with
      | nil => exact ⟨[], [], by simp, Or.inl rfl, Or.inl rfl⟩
      | cons u ss =>
        refine ⟨[], sep ++ List.intercalate sep (u :: ss), ?_, Or.inl rfl, Or.inr ⟨_, rfl⟩⟩
        rw [List.intercalate_cons_cons, List.nil_append, List.append_assoc]
    · obtain ⟨a, b, he, ha, hb⟩ := ih h
      obtain ⟨u, ss, rfl⟩ := List.exists_cons_of_ne_nil (List.ne_nil_of_mem h)
      refine ⟨t ++ sep ++ a, b, ?_, Or.inr ?_, hb⟩
      · rw [List.intercalate_cons_cons, he]
        simp only [List.append_assoc]
      · rcases ha with rfl | ⟨x, rfl⟩
        · exact ⟨t, List.append_nil _⟩
        · exact ⟨t ++ sep ++ x, by simp only [List.append_assoc]⟩

/-- What holds nothing of a separator stands in one of the parts. -/
theorem infix_intercalate_iff {sep w : Text} {ss : List Text} (hw : w ≠ []) (hsep : sep ≠ [])
    (hn : ∀ c ∈ sep, c ∉ w) : w <:+: List.intercalate sep ss ↔ ∃ s ∈ ss, w <:+: s := by
  constructor
  · intro h
    induction ss with
    | nil => exact absurd (List.infix_nil.1 h) hw
    | cons s ss ih =>
      cases ss with
      | nil =>
        rw [List.intercalate_singleton] at h
        exact ⟨s, List.mem_cons_self, h⟩
      | cons t ss =>
        rw [List.intercalate_cons_cons] at h
        rcases (infix_separated_iff hw hsep hn).1 h with h | h
        · exact ⟨s, List.mem_cons_self, h⟩
        · obtain ⟨u, hu, h⟩ := ih h
          exact ⟨u, List.mem_cons_of_mem s hu, h⟩
  · rintro ⟨s, hs, h⟩
    obtain ⟨a, b, he, -⟩ := exists_intercalate_eq sep hs
    rw [he]
    exact h.trans ⟨a, b, rfl⟩

end InlineBinding.Text
