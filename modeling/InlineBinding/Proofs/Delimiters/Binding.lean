import InlineBinding.Delimiters
import InlineBinding.Proofs.Accessor.Span
import Mathlib.Data.List.TakeWhile

/-!
# Which binding is read

A binding is read between its delimiters as white space, a path, and white space. Of the readings
at one place, the one with the longest path counts, and then the one with the most white space
behind it.
-/
namespace InlineBinding

/-- In a descending list, the largest number with a result decides. -/
theorem findSome?_eq_some_of_descending {β : Type} {l : List ℕ} {f : ℕ → Option β}
    (hl : l.Pairwise (· > ·)) {b : β} :
    l.findSome? f = some b ↔ ∃ n ∈ l, f n = some b ∧ ∀ m ∈ l, n < m → f m = none := by
  rw [List.findSome?_eq_some_iff]
  constructor
  · rintro ⟨larger, n, smaller, rfl, hb, hnone⟩
    refine ⟨n, by simp, hb, fun m hm hlt => ?_⟩
    rw [List.pairwise_append, List.pairwise_cons] at hl
    rcases List.mem_append.1 hm with hm | hm
    · exact hnone m hm
    · rcases List.mem_cons.1 hm with rfl | hm
      · exact absurd hlt (Nat.lt_irrefl _)
      · exact absurd (hl.2.1.1 m hm) (Nat.lt_asymm hlt)
  · rintro ⟨n, hn, hb, hlarger⟩
    obtain ⟨larger, smaller, rfl⟩ := List.append_of_mem hn
    rw [List.pairwise_append] at hl
    exact ⟨larger, n, smaller, rfl, hb, fun m hm =>
      hlarger m (List.mem_append_left _ hm) (hl.2.2 m hm n List.mem_cons_self)⟩

namespace Delimiters
open Text Accessor

variable {d : Delimiters} {s : Text}

/-- A binding with which a text begins, part by part. -/
structure Reads (d : Delimiters) (s before path behind rest : Text) : Prop where
  text : s = d.opening ++ before ++ path ++ behind ++ d.closing ++ rest
  spaceBefore : ∀ c ∈ before, isSpace c = true
  isPath : IsPath path
  spaceBehind : ∀ c ∈ behind, isSpace c = true

def Begins (d : Delimiters) (s : Text) : Prop :=
  ∃ before path behind rest, d.Reads s before path behind rest

/-- The binding that counts: no other one has a longer path, and no other one with this path has
more white space behind it. -/
structure Takes (d : Delimiters) (s before path behind rest : Text) : Prop
    extends d.Reads s before path behind rest where
  longest : ∀ v q w r, d.Reads s v q w r → q.length ≤ path.length
  widest : ∀ v w r, d.Reads s v path w r → w.length ≤ behind.length

/-! ## The closing delimiter -/

/-- The places at which the closing delimiter is looked for. -/
theorem closing_prefix_drop_iff {k : ℕ} :
    k < (s.takeWhile isSpace).length + 1 ∧ d.closing <+: s.drop k ↔
      ∃ w r, s = w ++ d.closing ++ r ∧ (∀ c ∈ w, isSpace c = true) ∧ w.length = k := by
  constructor
  · rintro ⟨hk, r, hr⟩
    have hblank := (List.takeWhile_prefix isSpace (l := s)).length_le
    have htake : s.take k <+: s.takeWhile isSpace :=
      List.prefix_of_prefix_length_le (List.take_prefix k s) (List.takeWhile_prefix isSpace)
        (by rw [List.length_take]; omega)
    refine ⟨s.take k, r, ?_, fun c hc => List.mem_takeWhile_imp (htake.subset hc),
      List.length_take_of_le (by omega)⟩
    rw [List.append_assoc, hr, List.take_append_drop]
  · rintro ⟨w, r, rfl, hw, rfl⟩
    rw [List.append_assoc, List.takeWhile_append_of_pos hw, List.length_append, List.drop_left]
    exact ⟨by omega, List.prefix_append _ _⟩

theorem closingAt?_eq_some_iff {n : ℕ} : d.closingAt? s = some n ↔
    ∃ w r, s = w ++ d.closing ++ r ∧ (∀ c ∈ w, isSpace c = true) ∧
      n = w.length + d.closing.length ∧
        ∀ v t, s = v ++ d.closing ++ t → (∀ c ∈ v, isSpace c = true) → v.length ≤ w.length := by
  have hl (k : ℕ) : ((List.range k).reverse).Pairwise (· > ·) := by
    rw [List.pairwise_reverse]
    exact List.pairwise_lt_range
  rw [closingAt?, findSome?_eq_some_of_descending (hl _)]
  simp only [List.mem_reverse, List.mem_range, isPrefixOf_eq_true, ite_eq_right_iff,
    Option.ite_none_right_eq_some, Option.some.injEq, reduceCtorEq, imp_false]
  constructor
  · rintro ⟨k, hk, ⟨hp, rfl⟩, hlarger⟩
    obtain ⟨w, r, hs, hw, rfl⟩ := closing_prefix_drop_iff.1 ⟨hk, hp⟩
    refine ⟨w, r, hs, hw, rfl, fun v t hv hspace => ?_⟩
    by_contra hlt
    obtain ⟨hv, hp⟩ := closing_prefix_drop_iff.2 ⟨v, t, hv, hspace, rfl⟩
    exact hlarger v.length hv (by omega) hp
  · rintro ⟨w, r, hs, hw, rfl, hwidest⟩
    obtain ⟨hk, hp⟩ := closing_prefix_drop_iff.2 ⟨w, r, hs, hw, rfl⟩
    refine ⟨w.length, hk, ⟨hp, rfl⟩, fun m hm hlt hp => ?_⟩
    obtain ⟨v, t, hv, hspace, rfl⟩ := closing_prefix_drop_iff.1 ⟨hm, hp⟩
    exact absurd (hwidest v t hv hspace) (by omega)

theorem closingAt?_eq_none_iff : d.closingAt? s = none ↔
    ∀ w r, (∀ c ∈ w, isSpace c = true) → s ≠ w ++ d.closing ++ r := by
  rw [closingAt?, List.findSome?_eq_none_iff]
  simp only [List.mem_reverse, List.mem_range, isPrefixOf_eq_true, ite_eq_right_iff,
    reduceCtorEq, imp_false]
  constructor
  · intro h w r hw hs
    obtain ⟨hk, hp⟩ := closing_prefix_drop_iff.2 ⟨w, r, hs, hw, rfl⟩
    exact h w.length hk hp
  · intro h k hk hp
    obtain ⟨w, r, hs, hw, -⟩ := closing_prefix_drop_iff.1 ⟨hk, hp⟩
    exact h w r hw hs

/-! ## Readings -/

/-- The white space before a path is all that there is. -/
theorem reads_iff {inner w p v r : Text} : d.Reads (d.opening ++ inner) w p v r ↔
    w = inner.takeWhile isSpace ∧ trimStart inner = p ++ (v ++ d.closing ++ r) ∧ IsPath p ∧
      ∀ c ∈ v, isSpace c = true := by
  constructor
  · rintro ⟨hs, hw, hp, hv⟩
    obtain ⟨c, t, rfl, hc⟩ := hp.head
    have hc := isSpace_of_isStart hc
    have hinner : inner = w ++ (c :: t ++ (v ++ d.closing ++ r)) := by
      refine List.append_cancel_left (hs.trans ?_)
      simp only [List.append_assoc]
    refine ⟨?_, ?_, hp, hv⟩
    · rw [hinner, List.takeWhile_append_of_pos hw, List.cons_append,
        List.takeWhile_cons_of_neg (by simp [hc]), List.append_nil]
    · rw [trimStart, hinner, List.dropWhile_append_of_pos hw, List.cons_append,
        List.dropWhile_cons_of_neg (by simp [hc])]
  · rintro ⟨rfl, hbody, hp, hv⟩
    refine ⟨?_, fun c hc => List.mem_takeWhile_imp hc, hp, hv⟩
    have hinner : inner = inner.takeWhile isSpace ++ trimStart inner :=
      List.takeWhile_append_dropWhile.symm
    rw [List.append_assoc, List.append_assoc, List.append_assoc, List.append_assoc]
    congr 1
    rw [hbody] at hinner
    simpa only [List.append_assoc] using hinner

theorem Begins.opening_prefix (h : d.Begins s) : d.opening <+: s := by
  obtain ⟨w, p, v, r, hr⟩ := h
  exact ⟨w ++ p ++ v ++ d.closing ++ r, by rw [hr.text]; simp only [List.append_assoc]⟩

theorem not_begins_nil : ¬ d.Begins [] := by
  rintro ⟨w, p, v, r, h⟩
  obtain ⟨c, t, rfl, -⟩ := h.isPath.head
  simpa using h.text

/-- What can be read stays readable when something follows. -/
theorem Begins.append (h : d.Begins s) (t : Text) : d.Begins (s ++ t) := by
  obtain ⟨w, p, v, r, h⟩ := h
  exact ⟨w, p, v, r ++ t, by rw [h.text]; simp only [List.append_assoc], h.spaceBefore, h.isPath,
    h.spaceBehind⟩

theorem Reads.length_lt {w p v r : Text} (h : d.Reads s w p v r) : r.length < s.length := by
  obtain ⟨c, t, rfl, -⟩ := h.isPath.head
  rw [h.text]
  simp only [List.length_append, List.length_cons]
  omega

/-! ## The binding at the front -/

theorem bindingAt?_eq_none_iff : d.bindingAt? s = none ↔ ¬ d.Begins s := by
  cases hi : d.opening.isPrefixOf? s with
  | none =>
    rw [bindingAt?, hi]
    exact iff_of_true rfl fun h => isPrefixOf?_eq_none_iff.1 hi h.opening_prefix
  | some inner =>
    rw [bindingAt?, hi]
    obtain rfl := List.isPrefixOf?_eq_some_iff_append_eq.1 hi
    simp only [List.findSome?_eq_none_iff, Option.map_eq_none_iff, closingAt?_eq_none_iff]
    constructor
    · rintro h ⟨w, p, v, r, hr⟩
      obtain ⟨-, hbody, hp, hv⟩ := reads_iff.1 hr
      refine h p.length (mem_spans_iff.2 ⟨p, _, hbody, hp, rfl⟩) v r hv ?_
      rw [hbody, List.drop_left]
    · intro h n hn v r hv hdrop
      obtain ⟨p, t, hbody, hp, rfl⟩ := mem_spans_iff.1 hn
      rw [hbody, List.drop_left] at hdrop
      exact h ⟨_, p, v, r, reads_iff.2 ⟨rfl, by rw [hbody, hdrop], hp, hv⟩⟩

/-- A binding begins with its delimiter. -/
theorem bindingAt?_cons_of_notMem {c : Char} (hd : d.opening ≠ []) (hc : c ∉ d.opening) (s : Text) :
    d.bindingAt? (c :: s) = none := by
  rw [bindingAt?_eq_none_iff]
  intro h
  obtain ⟨o, r, ho⟩ := List.exists_cons_of_ne_nil hd
  have hp := h.opening_prefix
  rw [ho] at hc hp
  exact hc ((List.cons_prefix_cons.1 hp).1 ▸ List.mem_cons_self)

/-- Behind the opening delimiter nothing longer is closed than the path, and it is closed past all
the white space that can be. -/
theorem takes_iff {inner w p v r : Text} : d.Takes (d.opening ++ inner) w p v r ↔
    d.Reads (d.opening ++ inner) w p v r ∧
      (∀ m ∈ spans (trimStart inner), m > p.length →
        d.closingAt? ((trimStart inner).drop m) = none) ∧
      d.closingAt? ((trimStart inner).drop p.length) = some (v.length + d.closing.length) := by
  constructor
  · rintro ⟨h, hlongest, hwidest⟩
    obtain ⟨rfl, hbody, hp, hv⟩ := reads_iff.1 h
    refine ⟨h, fun m hm hlt => ?_, ?_⟩
    · obtain ⟨q, t, hbody', hq, rfl⟩ := mem_spans_iff.1 hm
      rw [hbody', List.drop_left, closingAt?_eq_none_iff]
      rintro v' r' hv' rfl
      have hle := hlongest _ q v' r' (reads_iff.2 ⟨rfl, hbody', hq, hv'⟩)
      exact absurd hlt (Nat.not_lt_of_le hle)
    · rw [hbody, List.drop_left, closingAt?_eq_some_iff]
      refine ⟨v, r, rfl, hv, rfl, fun v' r' hv' hspace => ?_⟩
      exact hwidest _ v' r' (reads_iff.2 ⟨rfl, by rw [hbody, hv'], hp, hspace⟩)
  · rintro ⟨h, hlarger, hclosing⟩
    obtain ⟨rfl, hbody, hp, hv⟩ := reads_iff.1 h
    refine ⟨h, fun w' q v' r' h' => ?_, fun w' v' r' h' => ?_⟩
    · obtain ⟨-, hbody', hq, hv'⟩ := reads_iff.1 h'
      by_contra hlt
      have hnone := hlarger q.length (mem_spans_iff.2 ⟨q, _, hbody', hq, rfl⟩) (by omega)
      rw [hbody', List.drop_left, closingAt?_eq_none_iff] at hnone
      exact hnone v' r' hv' rfl
    · obtain ⟨-, hbody', -, hv'⟩ := reads_iff.1 h'
      rw [hbody, List.drop_left] at hclosing
      rw [hbody] at hbody'
      obtain ⟨u, t, -, -, hlength, hwidest⟩ := closingAt?_eq_some_iff.1 hclosing
      have hle := hwidest v' r' (List.append_cancel_left hbody') hv'
      omega

theorem bindingAt?_eq_some_iff {p : Text} {n : ℕ} : d.bindingAt? s = some (p, n) ↔
    ∃ w v r, d.Takes s w p v r ∧ n = (d.opening ++ w ++ p ++ v ++ d.closing).length := by
  cases hi : d.opening.isPrefixOf? s with
  | none =>
    rw [bindingAt?, hi]
    refine iff_of_false (by simp) ?_
    rintro ⟨w, v, r, h, -⟩
    exact isPrefixOf?_eq_none_iff.1 hi (Begins.opening_prefix ⟨w, p, v, r, h.toReads⟩)
  | some inner =>
    rw [bindingAt?, hi]
    obtain rfl := List.isPrefixOf?_eq_some_iff_append_eq.1 hi
    have hlength : inner.length - (trimStart inner).length = (inner.takeWhile isSpace).length := by
      have h := congrArg List.length (List.takeWhile_append_dropWhile (p := isSpace) (l := inner))
      rw [List.length_append] at h
      rw [trimStart]
      omega
    simp only [findSome?_eq_some_of_descending (spans_descending _), hlength,
      Option.map_eq_some_iff, Option.map_eq_none_iff, Prod.mk.injEq]
    constructor
    · rintro ⟨k, hk, ⟨m, hm, htake, rfl⟩, hlarger⟩
      obtain ⟨q, t, hbody, hq, rfl⟩ := mem_spans_iff.1 hk
      obtain rfl : q = p := by rw [← htake, hbody, List.take_left]
      have hclosing := hm
      rw [hbody, List.drop_left] at hclosing
      obtain ⟨v, r, rfl, hv, rfl, -⟩ := closingAt?_eq_some_iff.1 hclosing
      refine ⟨_, v, r, takes_iff.2 ⟨reads_iff.2 ⟨rfl, hbody, hq, hv⟩, hlarger, hm⟩, ?_⟩
      simp only [List.length_append]
      omega
    · rintro ⟨w, v, r, h, rfl⟩
      obtain ⟨hreads, hlarger, hclosing⟩ := takes_iff.1 h
      obtain ⟨rfl, hbody, hp, -⟩ := reads_iff.1 hreads
      refine ⟨p.length, mem_spans_iff.2 ⟨p, _, hbody, hp, rfl⟩, ⟨_, hclosing, ?_, ?_⟩, hlarger⟩
      · rw [hbody, List.take_left]
      · simp only [List.length_append]
        omega

theorem bindingAt?_le_length {p : Text} {n : ℕ} (h : d.bindingAt? s = some (p, n)) :
    n ≤ s.length := by
  obtain ⟨w, v, r, ht, rfl⟩ := bindingAt?_eq_some_iff.1 h
  rw [ht.text]
  exact (List.prefix_append _ r).length_le

/-- The binding at the front is one piece, and what follows is cut as if it stood alone. -/
theorem Takes.cut_eq {w p v r : Text} (h : d.Takes s w p v r) :
    cut d.bindingAt? s = .hit p :: cut d.bindingAt? r := by
  have hne : d.opening ++ w ++ p ++ v ++ d.closing ≠ [] := by
    obtain ⟨c, t, rfl, -⟩ := h.isPath.head
    simp
  have hrule := bindingAt?_eq_some_iff.2 ⟨w, v, r, h, rfl⟩
  obtain rfl := h.text
  exact cut_match_append hne hrule

end Delimiters
end InlineBinding
