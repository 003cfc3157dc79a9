import InlineBinding.Proofs.Literal.Escape

/-!
# Texts with characters exchanged

When characters are exchanged that a pattern does not hold, and none of its own comes in, the
pattern can be read at the same places as before, and a pass commutes with the exchange.
-/
namespace InlineBinding.Text
open Literal

/-- `f` leaves the characters of `p` alone and makes no other one into them. -/
def Steady (f : Char → Char) (p : Text) : Prop := ∀ c ∈ p, ∀ d, f d = c ↔ d = c

variable {f : Char → Char} {p s : Text}

theorem Steady.map_eq (h : Steady f p) : p.map f = p := by
  rw [List.map_congr_left (g := id) fun c hc => (h c hc c).2 rfl, List.map_id]

theorem Steady.eq_of_map_eq (h : Steady f p) (hs : s.map f = p) : s = p := by
  induction p generalizing s with
  | nil => exact List.map_eq_nil_iff.1 hs
  | cons c p ih =>
    obtain ⟨d, s, rfl, hd, hs⟩ := List.map_eq_cons_iff.1 hs
    rw [(h c List.mem_cons_self d).1 hd, ih (fun x hx => h x (List.mem_cons_of_mem c hx)) hs]

theorem exists_infix_of_map (h : p <:+: s.map f) : ∃ w, w <:+: s ∧ w.map f = p := by
  obtain ⟨x, y, he⟩ := h
  obtain ⟨front, z, rfl, hfront, -⟩ := List.map_eq_append_iff.1 he.symm
  obtain ⟨v, w, rfl, -, hw⟩ := List.map_eq_append_iff.1 hfront
  exact ⟨w, ⟨v, z, rfl⟩, hw⟩

theorem Steady.infix_of_infix_map (h : Steady f p) (hp : p <:+: s.map f) : p <:+: s := by
  obtain ⟨w, hw, he⟩ := exists_infix_of_map hp
  rwa [h.eq_of_map_eq he] at hw

theorem Steady.prefix_map_iff (h : Steady f p) : p <+: s.map f ↔ p <+: s := by
  induction p generalizing s with
  | nil => simp
  | cons c p ih =>
    have hp : Steady f p := fun d hd => h d (List.mem_cons_of_mem c hd)
    cases s with
    | nil => simp
    | cons d s =>
      have hd : c = f d ↔ c = d := by
        rw [eq_comm, h c List.mem_cons_self d, eq_comm]
      rw [List.map_cons, List.cons_prefix_cons, List.cons_prefix_cons, ih hp, hd]

theorem Steady.replace_map (h : Steady f p) (hp : p ≠ []) {new : Text} (hn : new.map f = new)
    (s : Text) : replace p new (s.map f) = (replace p new s).map f := by
  induction s using pass_induction hp with
  | nil => simp [hp]
  | pattern s ih =>
    rw [List.map_append, h.map_eq, replace_pattern_append _ _ hp, replace_pattern_append _ _ hp,
      List.map_append, hn, ih]
  | char c s hs ih =>
    have hm : ¬ p <+: f c :: s.map f := fun hi => hs (h.prefix_map_iff.1 hi)
    rw [List.map_cons, replace_cons_of_not_begin new hp hm, replace_cons_of_not_begin new hp hs,
      List.map_cons, ih]

/-- What is spelled as itself may be exchanged. -/
theorem escape_map (he : Steady f escaped) (hs : ∀ c ∈ spelling, f c = c) (s : Text) :
    escape (s.map f) = (escape s).map f := by
  have hchar (c : Char) : escapeChar (f c) = (escapeChar c).map f := by
    by_cases hc : c ∈ escaped
    · rw [(he c hc c).2 rfl]
      have hm : ∀ x ∈ escapeChar c, f x = x :=
        fun x hx => hs x (List.mem_flatMap.2 ⟨c, hc, hx⟩)
      rw [List.map_congr_left (g := id) hm, List.map_id]
    · have hf : f c ∉ escaped := by
        intro hm
        have := (he (f c) hm c).1 rfl
        exact hc (this ▸ hm)
      rw [escapeChar_of_notMem hc, escapeChar_of_notMem hf, List.map_singleton]
  induction s with
  | nil => rw [List.map_nil, escape_nil, List.map_nil]
  | cons c s ih => rw [List.map_cons, escape_cons, escape_cons, List.map_append, ih, hchar]

end InlineBinding.Text
