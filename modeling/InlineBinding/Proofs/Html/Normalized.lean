import InlineBinding.Html.Document

/-!
# Uniform line ends

A text is normalized part by part wherever no line feed begins the second part, and only carriage
returns and null characters are replaced.
-/
namespace InlineBinding.Html

variable {c : Char} {s : Text}

theorem normalizeChars_append (hc : c ≠ '\n') (s t : Text) :
    normalizeChars (s ++ c :: t) = normalizeChars s ++ normalizeChars (c :: t) := by
  fun_induction normalizeChars s with
  | case1 s ih => exact congrArg ('\n' :: ·) ih
  | case2 s hs ih =>
    have hnext (r : Text) : s ++ c :: t ≠ '\n' :: r := by
      cases s with
      | nil => exact fun he => hc (List.cons.inj he).1
      | cons d s => exact fun he => hs _ (congrArg (· :: s) (List.cons.inj he).1)
    rw [List.cons_append, normalizeChars, ih, List.cons_append]
    exact hnext
  | case3 d s _ hreturn ih =>
    rw [List.cons_append, normalizeChars, ih, List.cons_append]
    · exact fun _ hd _ => hreturn hd
    · exact hreturn
  | case4 => rfl

theorem normalizeChars_cons (hr : c ≠ '\r') (hn : c.toNat ≠ 0) (s : Text) :
    normalizeChars (c :: s) = c :: normalizeChars s := by
  rw [normalizeChars, if_neg hn]
  · exact fun _ he _ => hr he
  · exact fun he => hr he

theorem normalizeChars_append_of_forall (h : ∀ c ∈ s, c ≠ '\r' ∧ c.toNat ≠ 0) (t : Text) :
    normalizeChars (s ++ t) = s ++ normalizeChars t := by
  induction s with
  | nil => rfl
  | cons c s ih =>
    rw [List.forall_mem_cons] at h
    rw [List.cons_append, normalizeChars_cons h.1.1 h.1.2, ih h.2, List.cons_append]

theorem normalizeChars_return (s : Text) : ∃ t, normalizeChars ('\r' :: s) = '\n' :: t := by
  unfold normalizeChars
  split
  · exact ⟨_, rfl⟩
  · exact ⟨_, rfl⟩
  · rename_i hreturn he
    exact absurd (List.cons.inj he).1.symm hreturn
  · rename_i he
    exact absurd he (List.cons_ne_nil _ _)

theorem mem_normalizeChars (hm : c ∈ normalizeChars s) :
    c ≠ '\r' ∧ (c = '\n' ∨ c = Char.ofNat 0xfffd ∧ Char.ofNat 0 ∈ s ∨ c ∈ s) := by
  have hlater {d : Char} {t : Text}
      (h : c ≠ '\r' ∧ (c = '\n' ∨ c = Char.ofNat 0xfffd ∧ Char.ofNat 0 ∈ t ∨ c ∈ t)) :
      c ≠ '\r' ∧ (c = '\n' ∨ c = Char.ofNat 0xfffd ∧ Char.ofNat 0 ∈ d :: t ∨ c ∈ d :: t) :=
    h.imp_right (Or.imp_right (Or.imp (And.imp_right (List.mem_cons_of_mem d))
      (List.mem_cons_of_mem d)))
  have hfeed (h : c = '\n') : c ≠ '\r' := by
    rw [h]
    decide
  fun_induction normalizeChars s with
  | case1 s ih =>
    rcases List.mem_cons.1 hm with h | h
    · exact ⟨hfeed h, Or.inl h⟩
    · exact hlater (hlater (ih h))
  | case2 s _ ih =>
    rcases List.mem_cons.1 hm with h | h
    · exact ⟨hfeed h, Or.inl h⟩
    · exact hlater (ih h)
  | case3 d s _ hreturn ih =>
    rcases List.mem_cons.1 hm with h | h
    · split at h
      · rename_i hd
        refine ⟨h ▸ by decide, Or.inr (Or.inl ⟨h, ?_⟩)⟩
        rw [← hd, Char.ofNat_toNat]
        exact List.mem_cons_self
      · exact ⟨fun he => hreturn (h ▸ he), Or.inr (Or.inr (h ▸ List.mem_cons_self))⟩
    · exact hlater (ih h)
  | case4 => exact absurd hm List.not_mem_nil

theorem mem_normalizeChars_of_mem (hr : c ≠ '\r') (hn : c ≠ '\n') (h0 : c.toNat ≠ 0) (hm : c ∈ s) :
    c ∈ normalizeChars s := by
  fun_induction normalizeChars s with
  | case1 s ih => simp_all
  | case2 s _ ih => simp_all
  | case3 d s _ _ ih =>
    rcases List.mem_cons.1 hm with rfl | h
    · rw [if_neg h0]
      exact List.mem_cons_self
    · exact List.mem_cons_of_mem _ (ih h)
  | case4 => exact hm

end InlineBinding.Html
