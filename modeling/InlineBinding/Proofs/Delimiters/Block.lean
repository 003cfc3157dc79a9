import InlineBinding.Delimiters
import InlineBinding.Proofs.Text.Replace

/-!
# Which block is found

A block goes from the opening delimiter at the front through the nearest closing one. There is none
only when the opening delimiter is missing at the front or the closing one anywhere behind it.
-/
namespace InlineBinding
open Text

theorem Text.through?_eq_none_iff {p s : Text} : through? p s = none ↔ ¬ p <:+: s := by
  induction s with
  | nil => simp [through?]
  | cons c s ih =>
    rw [through?, List.infix_cons_iff]
    split
    · rename_i h
      simp [isPrefixOf_eq_true.1 h]
    · rename_i h
      rw [isPrefixOf_eq_true] at h
      simp [h, ih]

theorem Text.through?_eq_some_iff {p s : Text} {n : ℕ} : through? p s = some n ↔
    ∃ x r, s = x ++ p ++ r ∧ (∀ y t, s = y ++ p ++ t → x.length ≤ y.length) ∧
      n = x.length + p.length := by
  induction s generalizing n with
  | nil =>
    rw [through?]
    constructor
    · intro h
      split at h
      · rename_i hp
        obtain rfl := List.isEmpty_iff.1 hp
        exact ⟨[], [], rfl, fun y t _ => Nat.zero_le _, (Option.some.inj h).symm⟩
      · exact absurd h (by simp)
    · rintro ⟨x, r, he, -, rfl⟩
      simp only [List.nil_eq, List.append_eq_nil_iff] at he
      obtain ⟨⟨rfl, rfl⟩, rfl⟩ := he
      rfl
  | cons c s ih =>
    rw [through?]
    split
    · rename_i hp
      obtain ⟨t, ht⟩ := isPrefixOf_eq_true.1 hp
      constructor
      · intro h
        obtain rfl := Option.some.inj h
        exact ⟨[], t, by rw [List.nil_append, ht], fun y u _ => Nat.zero_le _, by simp⟩
      · rintro ⟨x, r, -, hnearest, rfl⟩
        have hx := hnearest [] t (by rw [List.nil_append, ht])
        rw [List.length_nil, Nat.le_zero] at hx
        rw [hx, Nat.zero_add]
    · rename_i hp
      rw [isPrefixOf_eq_true] at hp
      -- no occurrence begins at the first character
      have hlater {x r : Text} (he : c :: s = x ++ p ++ r) : ∃ z, x = c :: z ∧ s = z ++ p ++ r := by
        rw [List.append_assoc] at he
        rcases List.cons_eq_append_iff.1 he with ⟨-, hr⟩ | ⟨z, rfl, hz⟩
        · exact absurd ⟨r, hr⟩ hp
        · exact ⟨z, rfl, by rw [List.append_assoc, hz]⟩
      rw [Option.map_eq_some_iff]
      constructor
      · rintro ⟨m, hm, rfl⟩
        obtain ⟨x, r, hs, hnearest, rfl⟩ := ih.1 hm
        refine ⟨c :: x, r, by rw [hs]; rfl, fun y t hy => ?_, by rw [List.length_cons]; omega⟩
        obtain ⟨z, rfl, hz⟩ := hlater hy
        exact Nat.succ_le_succ (hnearest z t hz)
      · rintro ⟨x, r, hs, hnearest, rfl⟩
        obtain ⟨z, rfl, hz⟩ := hlater hs
        refine ⟨z.length + p.length, ih.2 ⟨z, r, hz, fun y t hy => ?_, rfl⟩, ?_⟩
        · exact Nat.le_of_succ_le_succ (hnearest (c :: y) t (by rw [hy]; rfl))
        · rw [List.length_cons]
          omega

namespace Delimiters

variable {d : Delimiters} {s : Text}

/-- The opening delimiter stands at the front, and the closing one anywhere behind it. -/
def Opens (d : Delimiters) (s : Text) : Prop := ∃ x r, s = d.wrap x ++ r

/-- `x` stands between the opening delimiter at the front and the nearest closing one. -/
structure Encloses (d : Delimiters) (s x r : Text) : Prop where
  text : s = d.wrap x ++ r
  nearest : ∀ y t, s = d.wrap y ++ t → x.length ≤ y.length

theorem opens_iff : d.Opens s ↔ ∃ r, s = d.opening ++ r ∧ d.closing <:+: r := by
  constructor
  · rintro ⟨x, r, rfl⟩
    exact ⟨x ++ d.closing ++ r, by simp [wrap], x, r, rfl⟩
  · rintro ⟨-, rfl, x, r, rfl⟩
    exact ⟨x, r, by simp [wrap]⟩

theorem wrap_append_eq {x r inner : Text} :
    d.opening ++ inner = d.wrap x ++ r ↔ inner = x ++ d.closing ++ r := by
  simp [wrap]

theorem blockAt?_eq_none_iff : d.blockAt? s = none ↔ ¬ d.Opens s := by
  rw [blockAt?, opens_iff]
  cases hi : d.opening.isPrefixOf? s with
  | none =>
    refine iff_of_true rfl ?_
    rintro ⟨r, hr, -⟩
    exact isPrefixOf?_eq_none_iff.1 hi ⟨r, hr.symm⟩
  | some inner =>
    obtain rfl := List.isPrefixOf?_eq_some_iff_append_eq.1 hi
    simp only [Option.map_eq_none_iff, through?_eq_none_iff, List.append_cancel_left_eq,
      exists_eq_left']

theorem blockAt?_eq_some_iff {n : ℕ} :
    d.blockAt? s = some n ↔ ∃ x r, d.Encloses s x r ∧ n = (d.wrap x).length := by
  rw [blockAt?]
  cases hi : d.opening.isPrefixOf? s with
  | none =>
    refine iff_of_false (by simp) ?_
    rintro ⟨x, r, h, -⟩
    obtain ⟨inner, hinner, -⟩ := opens_iff.1 ⟨x, r, h.text⟩
    exact isPrefixOf?_eq_none_iff.1 hi ⟨inner, hinner.symm⟩
  | some inner =>
    obtain rfl := List.isPrefixOf?_eq_some_iff_append_eq.1 hi
    simp only [Option.map_eq_some_iff, through?_eq_some_iff]
    constructor
    · rintro ⟨-, ⟨x, r, he, hnearest, rfl⟩, rfl⟩
      exact ⟨x, r, ⟨wrap_append_eq.2 he, fun y t hy => hnearest y t (wrap_append_eq.1 hy)⟩,
        by simp [wrap]⟩
    · rintro ⟨x, r, h, rfl⟩
      exact ⟨_, ⟨x, r, wrap_append_eq.1 h.text, fun y t hy => h.nearest y t (wrap_append_eq.2 hy),
        rfl⟩, by simp [wrap]⟩

/-- What is taken is a block. -/
theorem blockAt?_eq_some {n : ℕ} (h : d.blockAt? s = some n) : ∃ x, s.take n = d.wrap x := by
  obtain ⟨x, r, hx, rfl⟩ := blockAt?_eq_some_iff.1 h
  exact ⟨x, by rw [hx.text, List.take_left]⟩

end Delimiters
end InlineBinding
