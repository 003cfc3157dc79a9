import InlineBinding.Proofs.Accessor.Path

/-!
# Paths at the start of a text

The spans of a text are the lengths of all paths with which it begins, the longest one first.
-/
namespace InlineBinding.Accessor
open Text

theorem mem_spans {s : Text} {n : ℕ} :
    n ∈ spans s ↔ ∃ k < span s, s[k]? ≠ some '.' ∧ k + 1 = n := by
  simp only [spans, List.mem_filter, List.mem_map, List.mem_reverse, List.mem_range,
    bne_iff_ne]
  constructor
  · rintro ⟨⟨k, hk, rfl⟩, hd⟩
    exact ⟨k, hk, hd, rfl⟩
  · rintro ⟨k, hk, hd, rfl⟩
    exact ⟨⟨k, hk, rfl⟩, hd⟩

theorem spans_descending (s : Text) : (spans s).Pairwise (· > ·) := by
  refine List.Pairwise.filter _ ?_
  rw [List.pairwise_map, List.pairwise_reverse]
  refine List.pairwise_lt_range.imp fun h => ?_
  omega

theorem spanFrom_le_length (fresh : Bool) (s : Text) : spanFrom fresh s ≤ s.length := by
  induction s generalizing fresh with
  | nil => cases fresh <;> exact Nat.le_refl 0
  | cons c s ih =>
    have hfalse := ih false
    have htrue := ih true
    cases fresh <;> rw [spanFrom, List.length_cons] <;> split
    · omega
    · split
      · split <;> omega
      · omega
    · omega
    · omega

theorem le_length_of_mem_spans {n : ℕ} {s : Text} (h : n ∈ spans s) : n ≤ s.length := by
  obtain ⟨k, hk, -, rfl⟩ := mem_spans.1 h
  exact Nat.le_trans hk (spanFrom_le_length true s)

/-! ## Spans are lengths of paths -/

theorem isIdentifier_append {u t : Text} (hu : IsIdentifier u) (ht : ∀ d ∈ t, isPart d = true) :
    IsIdentifier (u ++ t) := by
  obtain ⟨c, v, rfl, hc, hv⟩ := hu
  refine ⟨c, v ++ t, rfl, hc, fun d hd => ?_⟩
  exact (List.mem_append.1 hd).elim (hv d) (ht d)

/-- As many characters as a span has, or fewer of them, are a path when no dot comes last. Inside
of an identifier the path goes on from what has been read of it. -/
theorem isPath_take (s : Text) :
    (∀ n, n < spanFrom true s → s[n]? ≠ some '.' → IsPath (s.take (n + 1))) ∧
      ∀ u n, IsIdentifier u → n ≤ spanFrom false s → (∀ k, n = k + 1 → s[k]? ≠ some '.') →
        IsPath (u ++ s.take n) := by
  induction s with
  | nil =>
    refine ⟨fun n hn _ => absurd hn (Nat.not_lt_zero n), fun u n hu _ _ => ?_⟩
    rw [List.take_nil, List.append_nil]
    exact .identifier hu
  | cons c s ih =>
    obtain ⟨hfresh, hgoing⟩ := ih
    constructor
    · intro n hn hd
      rw [spanFrom] at hn
      split at hn
      · rename_i hc
        rw [List.take_succ_cons]
        apply hgoing [c] n ⟨c, [], rfl, hc, fun d h => absurd h List.not_mem_nil⟩ (by omega)
        rintro k rfl
        exact hd
      · exact absurd hn (Nat.not_lt_zero n)
    · intro u n hu hn hd
      cases n with
      | zero =>
        rw [List.take_zero, List.append_nil]
        exact .identifier hu
      | succ m =>
        have hd := hd m rfl
        rw [spanFrom] at hn
        rw [List.take_succ_cons]
        split at hn
        · rename_i hc
          have hu' : IsIdentifier (u ++ [c]) := isIdentifier_append hu (by simpa using hc)
          have hp := hgoing (u ++ [c]) m hu' (by omega) (by rintro k rfl; exact hd)
          rwa [List.append_assoc] at hp
        · split at hn
          · rename_i hc
            subst hc
            cases m with
            | zero => exact absurd rfl hd
            | succ j =>
              have hj : j < spanFrom true s := by
                split at hn <;> omega
              exact .dot hu (hfresh j hj hd)
          · exact absurd hn (Nat.not_succ_le_zero m)

/-! ## Lengths of paths are spans -/

theorem spanFrom_append_part {u : Text} (hu : ∀ c ∈ u, isPart c = true) (s : Text) :
    spanFrom false (u ++ s) = u.length + spanFrom false s := by
  induction u with
  | nil => simp
  | cons c u ih =>
    rw [List.forall_mem_cons] at hu
    rw [List.cons_append, spanFrom, if_pos hu.1, ih hu.2, List.length_cons]
    omega

theorem IsIdentifier.spanFrom_append {u : Text} (hu : IsIdentifier u) (s : Text) :
    spanFrom true (u ++ s) = u.length + spanFrom false s := by
  obtain ⟨c, t, rfl, hc, ht⟩ := hu
  rw [List.cons_append, spanFrom, if_pos hc, spanFrom_append_part ht, List.length_cons]
  omega

theorem IsPath.length_le_span {p : Text} (hp : IsPath p) (s : Text) : p.length ≤ span (p ++ s) := by
  induction hp with
  | identifier hu =>
    rw [span, hu.spanFrom_append]
    exact Nat.le_add_right _ _
  | @dot u p hu hp ih =>
    obtain ⟨c, t, rfl, -⟩ := hp.head
    have hdot : isPart '.' = false := by decide
    rw [span, List.append_assoc, hu.spanFrom_append, List.cons_append, spanFrom,
      if_neg (by simp [hdot]), if_pos rfl, List.length_append, List.length_cons]
    rw [span, List.length_cons] at ih
    split
    · omega
    · simp only [List.length_cons]
      omega

theorem IsPath.getLast?_ne {p : Text} (hp : IsPath p) : p.getLast? ≠ some '.' := by
  induction hp with
  | identifier hu =>
    intro h
    have hpart := hu.isPart '.' (List.mem_of_getLast? h)
    exact absurd hpart (by decide)
  | @dot u p hu hp ih =>
    obtain ⟨c, t, rfl, -⟩ := hp.head
    simpa [List.getLast?_append, List.getLast?_cons] using ih

/-- The spans are the lengths of all paths with which the text begins. -/
theorem mem_spans_iff {s : Text} {n : ℕ} :
    n ∈ spans s ↔ ∃ p r, s = p ++ r ∧ IsPath p ∧ p.length = n := by
  constructor
  · intro h
    have hlength := le_length_of_mem_spans h
    obtain ⟨k, hk, hd, rfl⟩ := mem_spans.1 h
    exact ⟨s.take (k + 1), s.drop (k + 1), (List.take_append_drop _ s).symm,
      (isPath_take s).1 k hk hd, List.length_take_of_le hlength⟩
  · rintro ⟨p, r, rfl, hp, rfl⟩
    have hspan := hp.length_le_span r
    have hlast := hp.getLast?_ne
    obtain ⟨c, t, rfl, -⟩ := hp.head
    refine mem_spans.2 ⟨t.length, hspan, ?_, rfl⟩
    rw [List.getLast?_eq_getElem?] at hlast
    rw [List.getElem?_append_left (by simp)]
    simpa using hlast

end InlineBinding.Accessor
