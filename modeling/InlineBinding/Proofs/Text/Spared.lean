import InlineBinding.Proofs.Text.Replace

/-!
# Texts that a pattern does not touch

A text that has no part in common with a pattern, neither at its ends nor inside, goes through a
pass as it is, whatever stands around it.
-/
namespace InlineBinding.Text

/-! ## Texts apart from a pattern -/

/-- No occurrence of `p` takes anything of `w`, whatever stands around `w`. -/
structure Spares (p w : Text) : Prop where
  within : ¬ p <:+: w
  around : ¬ w <:+: p
  before : ∀ v, v <:+ p → v <+: w → v = []
  behind : ∀ u, u <+: p → u <:+ w → u = []

theorem spares_iff {p w : Text} : Spares p w ↔ (¬ p <:+: w ∧ ¬ w <:+: p) ∧
    (∀ v ∈ p.tails, v <+: w → v = []) ∧ ∀ u ∈ p.inits, u <:+ w → u = [] := by
  simp only [List.mem_tails, List.mem_inits]
  exact ⟨fun h => ⟨⟨h.within, h.around⟩, h.before, h.behind⟩, fun h => ⟨h.1.1, h.1.2, h.2.1, h.2.2⟩⟩

instance (p w : Text) : Decidable (Spares p w) := decidable_of_iff _ spares_iff.symm

section Spares

variable {p w : Text}

theorem Spares.ne_nil (h : Spares p w) : p ≠ [] := by
  rintro rfl
  exact h.within List.nil_infix

theorem Spares.symm (h : Spares p w) : Spares w p :=
  ⟨h.around, h.within, fun v hv hp => h.behind v hp hv, fun u hu hp => h.before u hp hu⟩

theorem Spares.not_straddles_left (h : Spares p w) (s t : Text) : ¬ Straddles p s (w ++ t) := by
  rintro ⟨u, v, -, hv, rfl, -, ht⟩
  rcases prefix_append_or ht with hw | ⟨r, rfl, -⟩
  · exact hv (h.before v (List.suffix_append u v) hw)
  · exact h.around ⟨u, r, List.append_assoc u w r⟩

theorem Spares.not_straddles_right (h : Spares p w) (t : Text) : ¬ Straddles p w t := by
  rintro ⟨u, v, hu, -, rfl, hs, -⟩
  exact hu (h.behind u (List.prefix_append u v) hs)

theorem Spares.replace_append (h : Spares p w) (new s t : Text) :
    replace p new (s ++ (w ++ t)) = replace p new s ++ (w ++ replace p new t) := by
  rw [Text.replace_append new h.ne_nil (h.not_straddles_left s t),
    Text.replace_append new h.ne_nil (h.not_straddles_right t),
    replace_eq_self new h.ne_nil h.within]

/-- A series of passes, the last one first. -/
theorem foldr_replace_append {κ : Type} {pat txt : κ → Text} {cs : List κ}
    (h : ∀ c ∈ cs, Spares (pat c) w) (s t : Text) :
    cs.foldr (fun c s => replace (pat c) (txt c) s) (s ++ (w ++ t)) =
      cs.foldr (fun c s => replace (pat c) (txt c) s) s ++
        (w ++ cs.foldr (fun c s => replace (pat c) (txt c) s) t) := by
  induction cs with
  | nil => rfl
  | cons c cs ih =>
    rw [List.foldr_cons, ih fun d hd => h d (List.mem_cons_of_mem c hd),
      (h c List.mem_cons_self).replace_append, List.foldr_cons, List.foldr_cons]

/-- A character that a pattern does not hold. -/
theorem spares_char {x : Char} (hp : p ≠ []) (hx : x ∉ p) : Spares p [x] where
  within h := by
    rcases List.infix_cons_iff.1 h with h | h
    · rcases List.prefix_cons_iff.1 h with rfl | ⟨r, rfl, -⟩
      · exact hp rfl
      · exact hx List.mem_cons_self
    · exact hp (List.infix_nil.1 h)
  around h := hx (h.subset List.mem_cons_self)
  before v hv h := by
    rcases List.prefix_cons_iff.1 h with rfl | ⟨r, rfl, -⟩
    · rfl
    · exact absurd (hv.subset List.mem_cons_self) hx
  behind u hu h := by
    rcases List.suffix_cons_iff.1 h with rfl | h
    · exact absurd (hu.subset List.mem_cons_self) hx
    · exact List.suffix_nil.1 h

/-- Parts of the pattern on either side are enough to tell. -/
theorem spares_of_contexts (hp : p ≠ []) (ha : ¬ w <:+: p)
    (hb : ∀ u, u <+: p → u ≠ p → ¬ p <:+: u ++ w) (hf : ∀ v, v <:+ p → v ≠ p → ¬ p <:+: w ++ v) :
    Spares p w where
  within := hb [] List.nil_prefix (Ne.symm hp)
  around := ha
  before v hv hw := by
    obtain ⟨u, rfl⟩ := hv
    by_contra hne
    refine hb u (List.prefix_append u v) (fun he => hne (List.append_right_eq_self.1 he.symm)) ?_
    exact ((List.prefix_append_right_inj u).2 hw).isInfix
  behind u hu hw := by
    obtain ⟨v, rfl⟩ := hu
    by_contra hne
    refine hf v (List.suffix_append u v) (fun he => hne (List.append_left_eq_self.1 he.symm)) ?_
    obtain ⟨x, rfl⟩ := hw
    exact ⟨x, [], by simp⟩

end Spares

/-! ## Characters that a pass adds -/

section Count

variable {p new : Text} {x : Char}

/-- A pass takes away no character that its pattern does not hold. -/
theorem count_le_replace (new : Text) (hp : p ≠ []) (hx : x ∉ p) (s : Text) :
    s.count x ≤ (replace p new s).count x := by
  induction s using pass_induction hp with
  | nil => exact Nat.zero_le _
  | pattern s ih =>
    rw [replace_pattern_append new s hp, List.count_append, List.count_append,
      List.count_eq_zero.2 hx]
    omega
  | char c s hb ih =>
    rw [replace_cons_of_not_begin new hp hb, List.count_cons, List.count_cons]
    omega

/-- Where the pattern is found, all that is put in its place is added. -/
theorem count_lt_replace (hp : p ≠ []) (hx : x ∉ p) (hnew : x ∈ new) {s : Text} (h : p <:+: s) :
    s.count x < (replace p new s).count x := by
  induction s with
  | nil => exact absurd (List.infix_nil.1 h) hp
  | cons c s ih =>
    by_cases hb : p <+: c :: s
    · obtain ⟨t, ht⟩ := hb
      have hle := count_le_replace new hp hx t
      have hpos := List.count_pos_iff.2 hnew
      rw [← ht, replace_pattern_append new t hp, List.count_append, List.count_append,
        List.count_eq_zero.2 hx]
      omega
    · have hs := ih ((List.infix_cons_iff.1 h).resolve_left hb)
      rw [replace_cons_of_not_begin new hp hb, List.count_cons, List.count_cons]
      omega

theorem count_le_foldr_replace {κ : Type} {pat txt : κ → Text} {cs : List κ}
    (h : ∀ c ∈ cs, pat c ≠ [] ∧ x ∉ pat c) (s : Text) :
    s.count x ≤ (cs.foldr (fun c s => replace (pat c) (txt c) s) s).count x := by
  induction cs with
  | nil => exact Nat.le_refl _
  | cons c cs ih =>
    obtain ⟨hne, hx⟩ := h c List.mem_cons_self
    exact (ih fun d hd => h d (List.mem_cons_of_mem c hd)).trans (count_le_replace _ hne hx _)

end Count

end InlineBinding.Text
