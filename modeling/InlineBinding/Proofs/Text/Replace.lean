import InlineBinding.Text.Basic
import Mathlib.Data.List.Infix

/-!
# Replacing a pattern

A nonempty pattern is replaced in one pass from left to right. The pass leaves a text alone that
does not hold the pattern, and it can be made on two halves apart whenever no occurrence lies
across the seam between them.
-/
namespace InlineBinding.Text

theorem isPrefixOf_eq_true {p s : Text} : p.isPrefixOf s = true ↔ p <+: s :=
  List.isPrefixOf_iff_prefix

theorem isPrefixOf?_eq_none_iff {p s : Text} : p.isPrefixOf? s = none ↔ ¬ p <+: s := by
  rw [← Option.not_isSome_iff_eq_none, List.isSome_isPrefixOf?_eq_isPrefixOf, isPrefixOf_eq_true]

theorem occurs_iff {p s : Text} : occurs p s = true ↔ p <:+: s := by
  induction s with
  | nil => cases p <;> simp [occurs]
  | cons c s ih => rw [occurs, Bool.or_eq_true, isPrefixOf_eq_true, ih, List.infix_cons_iff]

theorem not_infix_of_occurs {p s : Text} (h : occurs p s = false) : ¬ p <:+: s := by
  intro hp
  rw [occurs_iff.2 hp] at h
  exact Bool.noConfusion h

/-- Two cuts at the first place of a character are the same. -/
theorem append_cons_unique {a : Char} {s t x y : Text} (hs : a ∉ s) (ht : a ∉ t)
    (h : s ++ a :: x = t ++ a :: y) : s = t ∧ x = y := by
  induction s generalizing t with
  | nil =>
    cases t with
    | nil => exact ⟨rfl, by simpa using h⟩
    | cons d t =>
      obtain ⟨rfl, -⟩ := List.cons.inj h
      exact absurd List.mem_cons_self ht
  | cons c s ih =>
    cases t with
    | nil =>
      obtain ⟨rfl, -⟩ := List.cons.inj h
      exact absurd List.mem_cons_self hs
    | cons d t =>
      simp only [List.cons_append, List.cons.injEq] at h
      obtain ⟨rfl, h⟩ := h
      obtain ⟨hst, hxy⟩ :=
        ih (fun hc => hs (List.mem_cons_of_mem c hc)) (fun hc => ht (List.mem_cons_of_mem c hc)) h
      exact ⟨by rw [hst], hxy⟩

/-- To decide it for the members of a text only; there are finitely many characters at all. -/
theorem forall_mem_of_all {p : Char → Prop} [DecidablePred p] {s : Text}
    (h : (s.all fun c => decide (p c)) = true) : ∀ c ∈ s, p c :=
  fun c hc => of_decide_eq_true (List.all_eq_true.1 h c hc)

theorem of_ascii {p : Char → Prop} (h : ∀ n < 0x80, p (Char.ofNat n)) {c : Char}
    (hc : c.toNat < 0x80) : p c := by
  have hp := h c.toNat hc
  rwa [Char.ofNat_toNat] at hp

/-! ## Cutting -/

theorem cutFrom_eq_drop {α : Type} (rule : Text → Option (α × Nat)) (n : Nat) (s : Text) :
    cutFrom rule n s = cut rule (s.drop n) := by
  induction n generalizing s with
  | zero => rfl
  | succ n ih =>
    cases s with
    | nil => rfl
    | cons c s => exact ih s

theorem cut_cons_of_none {α : Type} {rule : Text → Option (α × Nat)} {c : Char} {s : Text}
    (h : rule (c :: s) = none) : cut rule (c :: s) = .char c :: cut rule s := by
  simp only [cut, cutFrom, h]

theorem cut_cons_of_some {α : Type} {rule : Text → Option (α × Nat)} {c : Char} {s : Text} {a : α}
    {n : Nat} (h : rule (c :: s) = some (a, n)) :
    cut rule (c :: s) = .hit a :: cut rule (s.drop (n - 1)) := by
  rw [← cutFrom_eq_drop]
  simp only [cut, cutFrom, h]

/-- A match at the front is one piece, and the cut goes on behind it. -/
theorem cut_match_append {α : Type} {rule : Text → Option (α × Nat)} {m s : Text} {a : α}
    (hm : m ≠ []) (h : rule (m ++ s) = some (a, m.length)) :
    cut rule (m ++ s) = .hit a :: cut rule s := by
  obtain ⟨c, m, rfl⟩ := List.exists_cons_of_ne_nil hm
  rw [List.cons_append] at h ⊢
  rw [cut_cons_of_some h, List.length_cons, Nat.add_sub_cancel, List.drop_left]

/-- Induction along a cut: it passes over one character, or goes on behind a match. -/
@[elab_as_elim]
theorem cut_induction {α : Type} (rule : Text → Option (α × Nat)) {motive : Text → Prop}
    (nil : motive [])
    (char : ∀ c s, rule (c :: s) = none → motive s → motive (c :: s))
    (hit : ∀ c s a n, rule (c :: s) = some (a, n) → motive (s.drop (n - 1)) → motive (c :: s))
    (s : Text) : motive s := by
  induction hn : s.length using Nat.strong_induction_on generalizing s with
  | _ k ih =>
    subst hn
    cases s with
    | nil => exact nil
    | cons c s =>
      have hlt (n : ℕ) : (s.drop n).length < (c :: s).length := by
        rw [List.length_drop, List.length_cons]
        omega
      cases hr : rule (c :: s) with
      | none => exact char c s hr (ih _ (hlt 0) s rfl)
      | some p => exact hit c s p.1 p.2 hr (ih _ (hlt _) _ rfl)

/-- Where nothing is found, all characters are left. -/
theorem cut_eq_map {α : Type} {rule : Text → Option (α × Nat)} {s : Text}
    (h : ∀ x, x ≠ [] → x <:+ s → rule x = none) : cut rule s = s.map .char := by
  induction s with
  | nil => rfl
  | cons c s ih =>
    rw [cut_cons_of_none (h _ (List.cons_ne_nil c s) List.suffix_rfl), List.map_cons,
      ih fun x hx hs => h x hx (hs.trans (List.suffix_cons c s))]

theorem join_map_char {α : Type} (write : α → Text) (s : Text) : join write (s.map .char) = s := by
  induction s with
  | nil => rfl
  | cons c s ih => rw [List.map_cons, join_char, ih]

theorem hits_cons_of_none {α : Type} {rule : Text → Option (α × Nat)} {c : Char} {s : Text}
    (h : rule (c :: s) = none) : hits rule (c :: s) = hits rule s := by
  rw [hits, cut_cons_of_none h]
  rfl

theorem hits_match_append {α : Type} {rule : Text → Option (α × Nat)} {m s : Text} {a : α}
    (hm : m ≠ []) (h : rule (m ++ s) = some (a, m.length)) :
    hits rule (m ++ s) = a :: hits rule s := by
  rw [hits, cut_match_append hm h]
  rfl

/-- Characters at which nothing begins are passed over. -/
theorem hits_append {α : Type} {rule : Text → Option (α × Nat)} {s t : Text}
    (h : ∀ c ∈ s, ∀ r, rule (c :: r) = none) : hits rule (s ++ t) = hits rule t := by
  induction s with
  | nil => rfl
  | cons c s ih =>
    rw [List.cons_append, hits_cons_of_none (h c List.mem_cons_self _),
      ih fun d hd => h d (List.mem_cons_of_mem c hd)]

@[simp] theorem join_append {α : Type} (write : α → Text) (ps qs : List (Piece α)) :
    join write (ps ++ qs) = join write ps ++ join write qs :=
  List.flatMap_append

/-! ## One pass -/

@[simp] theorem replace_nil_of_ne {p : Text} (hp : p ≠ []) (new : Text) :
    replace p new [] = [] := by
  cases p with
  | nil => exact absurd rfl hp
  | cons a p => rfl

/-- A character at which the pattern does not begin stays. -/
theorem replace_cons_of_not_begin {p : Text} (new : Text) {c : Char} {s : Text} (hp : p ≠ [])
    (h : ¬ p <+: c :: s) : replace p new (c :: s) = c :: replace p new s := by
  cases p with
  | nil => exact absurd rfl hp
  | cons a p =>
    have hn : occurrenceAt? (a :: p) (c :: s) = none := by
      rw [occurrenceAt?, if_neg]
      rwa [isPrefixOf_eq_true]
    simp only [replace, cut_cons_of_none hn, join_char]

/-- A pattern at the front goes, and the pass goes on behind it. -/
theorem replace_pattern_append {p : Text} (new s : Text) (hp : p ≠ []) :
    replace p new (p ++ s) = new ++ replace p new s := by
  cases p with
  | nil => exact absurd rfl hp
  | cons a p =>
    have hs : occurrenceAt? (a :: p) (a :: p ++ s) = some ((), (a :: p).length) := by
      rw [occurrenceAt?, if_pos (isPrefixOf_eq_true.2 (List.prefix_append (a :: p) s))]
    rw [replace, cut_match_append hp hs, join_hit, replace]

/-- Induction along a pass: the pattern is at the front, or one character is passed over. -/
@[elab_as_elim]
theorem pass_induction {p : Text} (hp : p ≠ []) {motive : Text → Prop} (nil : motive [])
    (pattern : ∀ s, motive s → motive (p ++ s))
    (char : ∀ c s, ¬ p <+: c :: s → motive s → motive (c :: s)) (s : Text) : motive s := by
  induction hn : s.length using Nat.strong_induction_on generalizing s with
  | _ n ih =>
    subst hn
    by_cases hb : p <+: s
    · obtain ⟨t, rfl⟩ := hb
      have hpos := List.length_pos_iff.2 hp
      exact pattern t (ih t.length (by rw [List.length_append]; omega) t rfl)
    · cases s with
      | nil => exact nil
      | cons c s => exact char c s hb (ih s.length (Nat.lt_succ_self _) s rfl)

theorem replace_eq_self {p : Text} (new : Text) {s : Text} (hp : p ≠ []) (h : ¬ p <:+: s) :
    replace p new s = s := by
  induction s with
  | nil => exact replace_nil_of_ne hp new
  | cons c s ih =>
    rw [replace_cons_of_not_begin new hp (fun hc => h hc.isInfix),
      ih (fun hs => h (List.infix_cons hs))]

theorem notMem_replace {p new : Text} {x : Char} (hp : p ≠ []) (hn : x ∉ new) {s : Text}
    (hs : x ∉ s) : x ∉ replace p new s := by
  induction s using pass_induction hp with
  | nil => simp [hp]
  | pattern s ih =>
    rw [List.mem_append, not_or] at hs
    rw [replace_pattern_append _ _ hp, List.mem_append, not_or]
    exact ⟨hn, ih hs.2⟩
  | char c s hb ih =>
    rw [List.mem_cons, not_or] at hs
    rw [replace_cons_of_not_begin new hp hb, List.mem_cons, not_or]
    exact ⟨hs.1, ih hs.2⟩

/-! ## Seams -/

/-- Some occurrence of `p` begins in `s` and ends in `t`. -/
def Straddles (p s t : Text) : Prop :=
  ∃ u v, u ≠ [] ∧ v ≠ [] ∧ p = u ++ v ∧ u <:+ s ∧ v <+: t

theorem Straddles.of_cons {p : Text} {c : Char} {s t : Text} (h : Straddles p s t) :
    Straddles p (c :: s) t := by
  obtain ⟨u, v, hu, hv, hp, hs, ht⟩ := h
  exact ⟨u, v, hu, hv, hp, hs.trans (List.suffix_cons c s), ht⟩

theorem prefix_append_or {r s t : Text} (h : r <+: s ++ t) :
    r <+: s ∨ ∃ v, r = s ++ v ∧ v <+: t := by
  rcases le_total r.length s.length with hl | hl
  · exact Or.inl (List.prefix_of_prefix_length_le h (List.prefix_append s t) hl)
  · obtain ⟨v, rfl⟩ := List.prefix_of_prefix_length_le (List.prefix_append s t) h hl
    exact Or.inr ⟨v, rfl, (List.prefix_append_right_inj s).1 h⟩

theorem suffix_append_or {r s t : Text} (h : r <:+ s ++ t) :
    r <:+ t ∨ ∃ u, r = u ++ t ∧ u <:+ s := by
  rcases le_total r.length t.length with hl | hl
  · exact Or.inl (List.suffix_of_suffix_length_le h (List.suffix_append s t) hl)
  · obtain ⟨u, rfl⟩ := List.suffix_of_suffix_length_le (List.suffix_append s t) h hl
    obtain ⟨x, hx⟩ := h
    exact Or.inr ⟨u, rfl, x, List.append_cancel_right ((List.append_assoc x u t).trans hx)⟩

/-- What stands behind a character that is not in a pattern does not make it longer. -/
theorem prefix_append_cons_iff {w u s : Text} (hw : x ∉ w) : w <+: u ++ x :: s ↔ w <+: u := by
  refine ⟨fun h => ?_, fun h => h.trans (List.prefix_append u _)⟩
  rcases prefix_append_or h with h | ⟨v, rfl, hv⟩
  · exact h
  · cases v with
    | nil => rw [List.append_nil]
    | cons y v =>
      obtain rfl := (List.cons_prefix_cons.1 hv).1
      exact absurd (List.mem_append_right u List.mem_cons_self) hw

/-- A pattern at the front of two texts joined lies in the first one or across the seam. -/
theorem prefix_append_cases {p s t : Text} (hs : s ≠ []) (h : p <+: s ++ t) :
    p <+: s ∨ Straddles p s t := by
  rcases prefix_append_or h with h | ⟨v, rfl, hv⟩
  · exact Or.inl h
  · by_cases hn : v = []
    · exact Or.inl (by rw [hn, List.append_nil])
    · exact Or.inr ⟨s, v, hs, hn, rfl, List.suffix_rfl, hv⟩

theorem replace_append {p : Text} (new : Text) {s t : Text} (hp : p ≠ [])
    (h : ¬ Straddles p s t) :
    replace p new (s ++ t) = replace p new s ++ replace p new t := by
  induction s using pass_induction hp with
  | nil => rw [replace_nil_of_ne hp, List.nil_append, List.nil_append]
  | pattern s ih =>
    have hs : ¬ Straddles p s t := by
      rintro ⟨u, v, hu, hv, he, hs, ht⟩
      exact h ⟨u, v, hu, hv, he, hs.trans (List.suffix_append p s), ht⟩
    rw [List.append_assoc, replace_pattern_append new _ hp, replace_pattern_append new _ hp, ih hs,
      List.append_assoc]
  | char c s hc ih =>
    have hct : ¬ p <+: c :: (s ++ t) := by
      intro hct
      rcases prefix_append_cases (List.cons_ne_nil c s) hct with hs | hs
      · exact hc hs
      · exact h hs
    rw [List.cons_append, replace_cons_of_not_begin new hp hct,
      replace_cons_of_not_begin new hp hc, ih fun hs => h hs.of_cons, List.cons_append]

/-- A character that the pattern does not hold is a seam that no occurrence crosses. -/
theorem not_straddles_cons {p : Text} {c : Char} (hc : c ∉ p) (s t : Text) :
    ¬ Straddles p s (c :: t) := by
  rintro ⟨u, v, -, hv, rfl, -, ht⟩
  cases v with
  | nil => exact hv rfl
  | cons d v =>
    obtain rfl := (List.cons_prefix_cons.1 ht).1
    exact hc (List.mem_append_right u List.mem_cons_self)

theorem infix_append_cons {p : Text} {c : Char} (hc : c ∉ p) {s t : Text}
    (h : p <:+: s ++ c :: t) : p <:+: s ∨ p <:+: t := by
  rw [List.infix_append_iff_ne_nil] at h
  rcases h with h | h | ⟨u, v, hu, hv, h⟩
  · exact Or.inl h
  · rcases List.infix_cons_iff.1 h with h | h
    · cases p with
      | nil => exact Or.inl List.nil_infix
      | cons d p =>
        obtain rfl := (List.cons_prefix_cons.1 h).1
        exact absurd List.mem_cons_self hc
    · exact Or.inr h
  · exact absurd ⟨u, v, hu, hv, h⟩ (not_straddles_cons hc s t)

theorem infix_of_notMem_head {a : Char} {p s t : Text} (ha : a ∉ s) (h : a :: p <:+: s ++ t) :
    a :: p <:+: t := by
  induction s with
  | nil => exact h
  | cons c s ih =>
    rw [List.cons_append, List.infix_cons_iff] at h
    rcases h with h | h
    · obtain rfl := (List.cons_prefix_cons.1 h).1
      exact absurd List.mem_cons_self ha
    · exact ih (fun hm => ha (List.mem_cons_of_mem c hm)) h

theorem replace_cons_of_notMem {p : Text} (new : Text) {c : Char} (hp : p ≠ []) (hc : c ∉ p)
    (s : Text) : replace p new (c :: s) = c :: replace p new s := by
  refine replace_cons_of_not_begin new hp ?_
  intro h
  cases p with
  | nil => exact hp rfl
  | cons d p =>
    obtain rfl := (List.cons_prefix_cons.1 h).1
    exact hc List.mem_cons_self

/-- The pass can be made on both sides of such a character. -/
theorem replace_append_cons {p : Text} (new : Text) {c : Char} (hp : p ≠ []) (hc : c ∉ p)
    (s t : Text) :
    replace p new (s ++ c :: t) = replace p new s ++ c :: replace p new t := by
  rw [replace_append new hp (not_straddles_cons hc s t), replace_cons_of_notMem new hp hc]

/-- A text without the pattern's first character is passed over. -/
theorem replace_append_of_notMem_head {a : Char} {p : Text} (new : Text) {s : Text}
    (ha : a ∉ s) (t : Text) :
    replace (a :: p) new (s ++ t) = s ++ replace (a :: p) new t := by
  induction s with
  | nil => rfl
  | cons c s ih =>
    have hc : ¬ a :: p <+: c :: (s ++ t) := by
      intro h
      obtain rfl := (List.cons_prefix_cons.1 h).1
      exact ha List.mem_cons_self
    rw [List.cons_append, replace_cons_of_not_begin new (List.cons_ne_nil a p) hc,
      ih (fun hs => ha (List.mem_cons_of_mem c hs)), List.cons_append]

/-- A pass over a text in which the pattern can be read at one place only. -/
theorem replace_unique {p : Text} (new : Text) {s t : Text} (hp : p ≠ [])
    (h : ∀ x y, s ++ (p ++ t) = x ++ (p ++ y) → x = s) :
    replace p new (s ++ (p ++ t)) = s ++ (new ++ t) := by
  induction s with
  | nil =>
    rw [List.nil_append, List.nil_append, replace_pattern_append new t hp, replace_eq_self new hp]
    rintro ⟨x, y, rfl⟩
    have := h (p ++ x) y (by simp)
    exact hp (List.append_eq_nil_iff.1 this).1
  | cons c s ih =>
    have hc : ¬ p <+: c :: (s ++ (p ++ t)) := by
      rintro ⟨y, hy⟩
      exact absurd (h [] y (by rw [List.nil_append, hy, List.cons_append])) (by simp)
    rw [List.cons_append, replace_cons_of_not_begin new hp hc, ih, List.cons_append]
    intro x y hxy
    exact (List.cons.inj (h (c :: x) y (by rw [List.cons_append, hxy, List.cons_append]))).2

theorem infix_replace {p : Text} (new : Text) {s : Text} (hp : p ≠ []) (h : p <:+: s) :
    new <:+: replace p new s := by
  induction s with
  | nil => exact absurd (List.infix_nil.1 h) hp
  | cons c s ih =>
    by_cases hb : p <+: c :: s
    · obtain ⟨t, ht⟩ := hb
      rw [← ht, replace_pattern_append new t hp]
      exact (List.prefix_append _ _).isInfix
    · rw [replace_cons_of_not_begin new hp hb]
      exact List.infix_cons (ih ((List.infix_cons_iff.1 h).resolve_left hb))

/-! ### Patterns with characters at their ends only -/

section Ends

variable {a z : Char} {m : Text}

/-- A character that a pattern has at its front only is reached by no occurrence from before. -/
theorem not_straddles_head {p : Text} (ha : a ∉ p) (s t : Text) :
    ¬ Straddles (a :: p) s (a :: t) := by
  rintro ⟨c, d, hc, hd, he, -, ht⟩
  obtain ⟨c', c, rfl⟩ := List.exists_cons_of_ne_nil hc
  obtain ⟨d', d, rfl⟩ := List.exists_cons_of_ne_nil hd
  obtain rfl := (List.cons_prefix_cons.1 ht).1
  obtain ⟨-, rfl⟩ := List.cons.inj he
  exact ha (by simp)

theorem not_straddles_last {p : Text} (hz : z ∉ p) (s t : Text) :
    ¬ Straddles (p ++ [z]) (s ++ [z]) t := by
  rintro ⟨c, d, hc, hd, he, ⟨w, hw⟩, -⟩
  obtain ⟨c, c', rfl⟩ := List.eq_nil_or_concat' c |>.resolve_left hc
  obtain ⟨d, d', rfl⟩ := List.eq_nil_or_concat' d |>.resolve_left hd
  rw [← List.append_assoc] at hw
  obtain rfl : c' = z := List.singleton_inj.1 (List.append_inj_right' hw rfl)
  apply hz
  rw [← List.append_assoc] at he
  rw [List.append_inj_left' he rfl]
  simp

theorem infix_append_of_not_straddles {p s t : Text} (hs : ¬ Straddles p s t)
    (h : p <:+: s ++ t) : p <:+: s ∨ p <:+: t := by
  rw [List.infix_append_iff_ne_nil] at h
  rcases h with h | h | ⟨u, v, h⟩
  · exact Or.inl h
  · exact Or.inr h
  · exact absurd ⟨u, v, h⟩ hs

/-- Texts between two characters that a pattern has at its ends only are passed over when the
pattern cannot be read in them. -/
theorem infix_replace_of_ends {u : Text} (new : Text) {s : Text} (ha : a ∉ m ++ [z])
    (hz : z ∉ a :: m) (hu : ¬ a :: m ++ [z] <:+: a :: u ++ [z]) (h : a :: u ++ [z] <:+: s) :
    a :: u ++ [z] <:+: replace (a :: m ++ [z]) new s := by
  have hp : a :: m ++ [z] ≠ [] := List.cons_ne_nil _ _
  obtain ⟨x, y, rfl⟩ := h
  have hs : x ++ (a :: u ++ [z]) ++ y = x ++ a :: (u ++ [z] ++ y) := by simp
  have hs' : a :: (u ++ [z] ++ y) = a :: u ++ [z] ++ y := by simp
  rw [hs, replace_append new hp (not_straddles_head ha x _), hs',
    replace_append new hp (not_straddles_last hz (a :: u) y), replace_eq_self new hp hu]
  exact ⟨_, _, List.append_assoc _ _ _⟩

/-- A pattern with such characters is brought in by no text between them that does not hold it. -/
theorem infix_of_infix_replace_ends {p u : Text} {s : Text} (hp : p ≠ []) (ha : a ∉ m ++ [z])
    (hz : z ∉ a :: m) (hu : ¬ a :: m ++ [z] <:+: a :: u ++ [z])
    (h : a :: m ++ [z] <:+: replace p (a :: u ++ [z]) s) : a :: m ++ [z] <:+: s := by
  suffices hall : ∀ x, a :: m ++ [z] <:+: x ++ replace p (a :: u ++ [z]) s →
      a :: m ++ [z] <:+: x ++ s from hall [] h
  clear h
  intro x h
  induction s using pass_induction hp generalizing x with
  | nil => rwa [replace_nil_of_ne hp] at h
  | pattern s ih =>
    rw [replace_pattern_append _ s hp] at h
    rcases infix_append_of_not_straddles (not_straddles_head ha x _) h with h | h
    · exact h.trans (List.prefix_append _ _).isInfix
    · rcases infix_append_of_not_straddles (not_straddles_last hz (a :: u) _) h with h | h
      · exact absurd h hu
      · exact (ih [] h).trans ⟨x ++ p, [], by simp⟩
  | char c s hb ih =>
    rw [replace_cons_of_not_begin _ hp hb] at h
    have hs := ih (x ++ [c]) (by simpa using h)
    simpa using hs

end Ends

/-- A single character is replaced wherever it stands. -/
theorem replace_singleton (a : Char) (new s : Text) :
    replace [a] new s = s.flatMap fun c => if c = a then new else [c] := by
  induction s with
  | nil => exact replace_nil_of_ne (List.cons_ne_nil a []) new
  | cons c s ih =>
    by_cases hc : c = a
    · subst hc
      change replace [c] new ([c] ++ s) = _
      rw [replace_pattern_append new s (List.cons_ne_nil c []), ih]
      simp
    · rw [replace_cons_of_notMem new (List.cons_ne_nil a []) (by simpa using hc), ih]
      simp [hc]

/-! ## Texts with characters spelled in another way -/

section Spelled

variable {g : Char → Text} {s : Text}

/-- What begins a text with other spellings ends before the first of them. -/
theorem prefix_of_prefix_flatMap {p : Text} (hg : ∀ c, g c = [c] ∨ ∃ x e, g c = x :: e ∧ x ∉ p)
    (h : p <+: s.flatMap g) : p <+: s := by
  induction s generalizing p with
  | nil => exact h
  | cons c s ih =>
    cases p with
    | nil => exact List.nil_prefix
    | cons d p =>
      rw [List.flatMap_cons] at h
      rcases hg c with he | ⟨x, e, he, hx⟩
      · rw [he, List.singleton_append, List.cons_prefix_cons] at h
        refine List.cons_prefix_cons.2 ⟨h.1, ih (fun c => (hg c).imp_right ?_) h.2⟩
        rintro ⟨x, e, he, hx⟩
        exact ⟨x, e, he, fun hm => hx (List.mem_cons_of_mem d hm)⟩
      · rw [he, List.cons_append, List.cons_prefix_cons] at h
        exact absurd List.mem_cons_self (h.1 ▸ hx)

/-- A pattern that begins in no spelling and does not reach into one can be read in the text. -/
theorem infix_of_infix_flatMap {a : Char} {p : Text}
    (hg : ∀ c, g c = [c] ∨ a ∉ g c ∧ ∃ x e, g c = x :: e ∧ x ∉ p)
    (h : a :: p <:+: s.flatMap g) : a :: p <:+: s := by
  induction s with
  | nil => exact h
  | cons c s ih =>
    rw [List.flatMap_cons] at h
    rcases hg c with he | ⟨hn, -⟩
    · rw [he, List.singleton_append, List.infix_cons_iff, List.cons_prefix_cons] at h
      rcases h with ⟨rfl, h⟩ | h
      · have hp := prefix_of_prefix_flatMap (fun c => (hg c).imp_right And.right) h
        exact (List.cons_prefix_cons.2 ⟨rfl, hp⟩).isInfix
      · exact List.infix_cons (ih h)
    · exact List.infix_cons (ih (infix_of_notMem_head hn h))

end Spelled

end InlineBinding.Text
