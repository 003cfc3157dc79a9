import InlineBinding.Proofs.Text.Replace

/-!
# Passes over marked texts

A text is given as pieces, and a writing says what stands for each match: `w` as the text is now
and `z` as it is to be. Marks begin with a character `b` that they hold nowhere else. When no
pattern can be read in the final text, a pass hits the marks that it looks for and nothing else,
and so does a series of passes in any order.
-/
namespace InlineBinding.Text

variable {α : Type} {b : Char} {w z : α → Text} {qs : List (Piece α)}

theorem join_congr (h : ∀ a, .hit a ∈ qs → w a = z a) : join w qs = join z qs := by
  induction qs with
  | nil => rfl
  | cons q qs ih =>
    have ih := ih fun a ha => h a (List.mem_cons_of_mem q ha)
    cases q with
    | char c => rw [join_char, join_char, ih]
    | hit a => rw [join_hit, join_hit, ih, h a List.mem_cons_self]

/-- What begins a text and does not hold `b` ends before the first mark, so that it begins the
final text as well. -/
theorem prefix_join_of_notMem (hw : ∀ a, .hit a ∈ qs → w a = z a ∨ ∃ r, w a = b :: r ∧ b ∉ r)
    {v : Text} (hb : b ∉ v) (h : v <+: join w qs) : v <+: join z qs := by
  induction qs generalizing v with
  | nil => exact h
  | cons q qs ih =>
    have ih := @ih fun a ha => hw a (List.mem_cons_of_mem q ha)
    cases q with
    | char c =>
      rw [join_char] at h ⊢
      cases v with
      | nil => exact List.nil_prefix
      | cons d v =>
        obtain ⟨rfl, hv⟩ := List.cons_prefix_cons.1 h
        exact List.cons_prefix_cons.2 ⟨rfl, ih (fun hm => hb (List.mem_cons_of_mem d hm)) hv⟩
    | hit a =>
      rw [join_hit] at h ⊢
      rcases hw a List.mem_cons_self with he | ⟨r, he, -⟩
      · rw [he] at h
        rcases prefix_append_or h with hv | ⟨u, rfl, hu⟩
        · exact hv.trans (List.prefix_append _ _)
        · exact (List.prefix_append_right_inj _).2
            (ih (fun hm => hb (List.mem_append_right _ hm)) hu)
      · cases v with
        | nil => exact List.nil_prefix
        | cons d v =>
          rw [he, List.cons_append] at h
          obtain ⟨rfl, -⟩ := List.cons_prefix_cons.1 h
          exact absurd List.mem_cons_self hb

/-- A pattern that begins in no mark and does not hold `b` lies between two of them. -/
theorem infix_join_of_notMem {a : Char} {p : Text} (hb : b ∉ p)
    (hw : ∀ q, .hit q ∈ qs → a ∉ w q ∧ ∃ r, w q = b :: r ∧ b ∉ r)
    (h : a :: p <:+: join w qs) : a :: p <:+: join z qs := by
  induction qs with
  | nil => exact h
  | cons q qs ih =>
    have hw' := fun q hq => hw q (List.mem_cons_of_mem _ hq)
    cases q with
    | char c =>
      rw [join_char, List.infix_cons_iff] at h ⊢
      refine h.imp (fun h => ?_) (ih hw')
      obtain ⟨rfl, hp⟩ := List.cons_prefix_cons.1 h
      have hp := prefix_join_of_notMem (z := z) (fun q hq => Or.inr (hw' q hq).2) hb hp
      exact List.cons_prefix_cons.2 ⟨rfl, hp⟩
    | hit q =>
      rw [join_hit] at h ⊢
      have h := infix_of_notMem_head (hw q List.mem_cons_self).1 h
      exact (ih hw' h).trans (List.suffix_append _ _).isInfix

/-- Whatever can be read in a marked text and not in the final one begins with a mark. -/
theorem infix_join {m : Text} (hb : b ∉ m)
    (hw : ∀ a, .hit a ∈ qs → w a = z a ∨ ∃ r, w a = b :: r ∧ b ∉ r)
    (h : b :: m <:+: join w qs) : b :: m <:+: join z qs ∨
      ∃ pre a post, qs = pre ++ .hit a :: post ∧ w a ≠ z a ∧ b :: m <+: w a ++ join w post := by
  induction qs with
  | nil => exact Or.inl h
  | cons q qs ih =>
    have hw' := fun a ha => hw a (List.mem_cons_of_mem q ha)
    -- an occurrence that does not begin in the first piece is one behind it
    have hlater (h : b :: m <:+: join w qs) {s : Text} :
        b :: m <:+: s ++ join z qs ∨ ∃ pre a post, q :: qs = pre ++ .hit a :: post ∧ w a ≠ z a ∧
          b :: m <+: w a ++ join w post := by
      rcases ih hw' h with hz | ⟨pre, a, post, rfl, hp⟩
      · exact Or.inl (hz.trans (List.suffix_append s _).isInfix)
      · exact Or.inr ⟨q :: pre, a, post, rfl, hp⟩
    -- and one that begins in a piece of plain text ends before the next mark
    have hplain {s : Text} (h : b :: m <:+: s ++ join w qs) :
        b :: m <:+: s ++ join z qs ∨ b :: m <:+: join w qs := by
      rw [List.infix_append_iff_ne_nil] at h
      rcases h with h | h | ⟨u, v, hu, -, he, ⟨x, hx⟩, hv⟩
      · exact Or.inl (h.trans (List.prefix_append s _).isInfix)
      · exact Or.inr h
      · cases u with
        | nil => exact absurd rfl hu
        | cons d u =>
          obtain ⟨rfl, rfl⟩ := List.cons.inj he
          obtain ⟨y, hy⟩ :=
            prefix_join_of_notMem hw' (fun hm => hb (List.mem_append_right u hm)) hv
          exact Or.inl ⟨x, y, by rw [← hx, ← hy]; simp⟩
    cases q with
    | char c => exact (hplain (s := [c]) h).elim Or.inl fun h => hlater (s := [c]) h
    | hit a =>
      rw [join_hit] at h ⊢
      by_cases he : w a = z a
      · rw [he] at h
        exact (hplain h).elim Or.inl fun h => hlater h
      · obtain ⟨r, hr, hbr⟩ := (hw a List.mem_cons_self).resolve_left he
        rw [hr, List.cons_append, List.infix_cons_iff] at h
        rcases h with h | h
        · exact Or.inr ⟨[], a, qs, rfl, he, by rwa [hr]⟩
        · exact hlater (infix_of_notMem_head hbr h)

/-- A pattern that begins in a piece of plain text and ends behind it can be read in the final
text, so a pass can be made behind the piece. -/
theorem replace_append_join {m t s : Text} (hb : b ∉ m)
    (hw : ∀ a, .hit a ∈ qs → w a = z a ∨ ∃ r, w a = b :: r ∧ b ∉ r)
    (hz : ¬ b :: m <:+: s ++ join z qs) :
    replace (b :: m) t (s ++ join w qs) = s ++ replace (b :: m) t (join w qs) := by
  have hs : ¬ Straddles (b :: m) s (join w qs) := by
    rintro ⟨u, v, hu, -, he, ⟨x, hx⟩, hv⟩
    cases u with
    | nil => exact hu rfl
    | cons d u =>
      obtain ⟨rfl, rfl⟩ := List.cons.inj he
      obtain ⟨y, hy⟩ :=
        prefix_join_of_notMem hw (fun hm => hb (List.mem_append_right u hm)) hv
      exact hz ⟨x, y, by rw [← hx, ← hy]; simp⟩
  rw [replace_append t (List.cons_ne_nil b m) hs, replace_eq_self t (List.cons_ne_nil b m)]
  exact fun h => hz (h.trans (List.prefix_append s _).isInfix)

/-- One pass. -/
theorem replace_join {m t : Text} (hb : b ∉ m)
    (hw : ∀ a, .hit a ∈ qs → w a = z a ∨ ∃ r, w a = b :: r ∧ b ∉ r)
    (hctx : ∀ pre a post, qs = pre ++ .hit a :: post → w a ≠ z a →
      b :: m <+: w a ++ join w post → w a = b :: m)
    (hz : ¬ b :: m <:+: join z qs) :
    replace (b :: m) t (join w qs) = join (fun a => if w a = b :: m then t else w a) qs := by
  induction qs with
  | nil => exact replace_nil_of_ne (List.cons_ne_nil b m) t
  | cons q qs ih =>
    have hw' := fun a ha => hw a (List.mem_cons_of_mem q ha)
    have ih := ih hw' (fun pre a post hq => hctx (q :: pre) a post (by rw [hq, List.cons_append]))
    cases q with
    | char c =>
      rw [join_char] at hz
      have hc := replace_append_join (t := t) (s := [c]) hb hw' hz
      rw [List.singleton_append, List.singleton_append] at hc
      rw [join_char, join_char, hc, ih fun h => hz (List.infix_cons h)]
    | hit a =>
      rw [join_hit] at hz
      have ih := ih fun h => hz (h.trans (List.suffix_append (z a) _).isInfix)
      rw [join_hit, join_hit]
      by_cases he : w a = z a
      · have hne : w a ≠ b :: m := by
          intro hm
          rw [← he, hm] at hz
          exact hz (List.prefix_append _ _).isInfix
        rw [if_neg hne, ← ih, he]
        exact replace_append_join hb hw' hz
      · obtain ⟨r, hr, hbr⟩ := (hw a List.mem_cons_self).resolve_left he
        by_cases hm : w a = b :: m
        · rw [if_pos hm, hm, replace_pattern_append t _ (List.cons_ne_nil b m), ih]
        · have hn : ¬ b :: m <+: w a ++ join w qs := fun h => hm (hctx [] a qs rfl he h)
          rw [if_neg hm, ← ih, hr, List.cons_append,
            replace_cons_of_not_begin t (List.cons_ne_nil b m) (by rwa [hr] at hn),
            replace_append_of_notMem_head t hbr, List.cons_append]

/-- A series of passes, the last one first. -/
theorem foldr_replace_join {κ : Type} {pat txt : κ → Text} (cs : List κ)
    (hpat : ∀ c ∈ cs, ∃ m, pat c = b :: m ∧ b ∉ m)
    (hw : ∀ a, .hit a ∈ qs → w a = z a ∨ ∃ r, w a = b :: r ∧ b ∉ r)
    (hctx : ∀ c ∈ cs, ∀ w' : α → Text, (∀ a, w' a = w a ∨ w' a = z a) → ∀ pre a post,
      qs = pre ++ .hit a :: post → w a ≠ z a → pat c <+: w a ++ join w' post → w a = pat c)
    (hz : ∀ c ∈ cs, ¬ pat c <:+: join z qs)
    (htxt : ∀ c ∈ cs, ∀ a, .hit a ∈ qs → w a = pat c → txt c = z a) :
    cs.foldr (fun c s => replace (pat c) (txt c) s) (join w qs) =
      join (fun a => if w a ∈ cs.map pat then z a else w a) qs := by
  induction cs with
  | nil => exact join_congr fun a _ => rfl
  | cons c cs ih =>
    have ih := ih (fun d hd => hpat d (List.mem_cons_of_mem c hd))
      (fun d hd => hctx d (List.mem_cons_of_mem c hd))
      (fun d hd => hz d (List.mem_cons_of_mem c hd))
      (fun d hd => htxt d (List.mem_cons_of_mem c hd))
    obtain ⟨m, hm, hb⟩ := hpat c List.mem_cons_self
    have hzc := hz c List.mem_cons_self
    have hc := hctx c List.mem_cons_self
    rw [hm] at hzc hc
    rw [List.foldr_cons, ih, hm]
    have hw' : ∀ a, .hit a ∈ qs → (if w a ∈ cs.map pat then z a else w a) = z a ∨
        ∃ r, (if w a ∈ cs.map pat then z a else w a) = b :: r ∧ b ∉ r := by
      intro a ha
      split
      · exact Or.inl rfl
      · exact hw a ha
    rw [replace_join hb hw' ?_ hzc]
    · refine join_congr fun a ha => ?_
      rw [List.map_cons, hm]
      have hza : z a ≠ b :: m := by
        rintro h
        obtain ⟨pre, post, rfl⟩ := List.append_of_mem ha
        refine hzc ?_
        rw [join_append, join_hit, h]
        exact ⟨join z pre, join z post, by simp⟩
      by_cases hp : w a ∈ cs.map pat
      · rw [if_pos hp, if_neg hza, if_pos (List.mem_cons_of_mem _ hp)]
      · by_cases he : w a = b :: m
        · rw [if_neg hp, if_pos he, if_pos (he ▸ List.mem_cons_self)]
          exact htxt c List.mem_cons_self a ha (he.trans hm.symm)
        · rw [if_neg hp, if_neg he, if_neg fun h => (List.mem_cons.1 h).elim he hp]
    · intro pre a post hq hne hpre
      by_cases hp : w a ∈ cs.map pat
      · rw [if_pos hp] at hne
        exact absurd rfl hne
      · rw [if_neg hp] at hne hpre ⊢
        refine hc _ (fun d => ?_) pre a post hq hne hpre
        by_cases hd : w d ∈ cs.map pat
        · exact Or.inr (if_pos hd)
        · exact Or.inl (if_neg hd)

/-! ## Matches between characters that a pattern does not hold -/

/-- A text that begins and ends with characters that `p` does not hold. -/
def Enclosed (p t : Text) : Prop := ∃ x r y, t = x :: (r ++ [y]) ∧ x ∉ p ∧ y ∉ p

/-- What can be read around such matches can be read in what stands between them, however they
are written. -/
theorem infix_join_of_enclosed {p : Text} {v : α → Text}
    (hq : ∀ a, .hit a ∈ qs → Enclosed p (w a) ∧ ¬ p <:+: w a) {u : Text}
    (h : p <:+: u ++ join w qs) : p <:+: u ++ join v qs := by
  induction qs generalizing u with
  | nil => exact h
  | cons q qs ih =>
    have ih := @ih fun a ha => hq a (List.mem_cons_of_mem q ha)
    cases q with
    | char c =>
      have ih := @ih (u ++ [c])
      simp only [List.append_assoc, List.singleton_append] at ih
      exact ih h
    | hit a =>
      obtain ⟨⟨x, r, y, ha, hx, hy⟩, hn⟩ := hq a List.mem_cons_self
      rw [join_hit, ha, List.cons_append] at h
      rw [join_hit]
      rcases infix_append_cons hx h with h | h
      · exact h.trans (List.prefix_append u _).isInfix
      · rw [List.append_assoc, List.singleton_append] at h
        rcases infix_append_cons hy h with h | h
        · refine absurd ?_ hn
          rw [ha]
          exact h.trans ⟨[x], [y], by simp⟩
        · have h := ih (u := []) h
          rw [List.nil_append] at h
          exact h.trans ⟨u ++ v a, [], by simp⟩

end InlineBinding.Text
