import InlineBinding.Accessor
import InlineBinding.Text.Space
import InlineBinding.Proofs.Literal.Escape

/-!
# Accessor paths as a language

A path is declared by its grammar, and a call by the path that it reads on the view model. No
character of a call separates clauses, opens a reference or closes an argument list early.
-/
namespace InlineBinding.Accessor
open Text Literal

def IsIdentifier (s : Text) : Prop :=
  ∃ c t, s = c :: t ∧ isStart c = true ∧ ∀ d ∈ t, isPart d = true

/-- Identifiers joined by dots. -/
inductive IsPath : Text → Prop where
  | identifier {s : Text} (hs : IsIdentifier s) : IsPath s
  | dot {s p : Text} (hs : IsIdentifier s) (hp : IsPath p) : IsPath (s ++ '.' :: p)

/-- A path that begins at the view model. -/
def IsRooted (p : Text) : Prop := p = viewModel ∨ viewModel ++ ['.'] <+: p

theorem isPart_of_isStart {c : Char} (h : isStart c = true) : isPart c = true := by
  simp only [isStart, Bool.or_eq_true, decide_eq_true_eq] at h
  rcases h with (rfl | rfl) | h
  · decide
  · decide
  · simp only [isAsciiLetter, Ranges.has, List.any_cons, List.any_nil, Bool.or_false,
      Bool.or_eq_true, Bool.and_eq_true, decide_eq_true_eq] at h
    have hc : c.toNat < 0x80 := by omega
    simp only [isPart, isWord, if_pos hc, asciiWordRanges, Ranges.has, List.any_cons,
      List.any_nil, Bool.or_false, Bool.or_eq_true, Bool.and_eq_true, decide_eq_true_eq]
    omega

/-- What is no part of an identifier starts none. -/
theorem isStart_eq_false {c : Char} (h : isPart c = false) : isStart c = false := by
  rw [← Bool.not_eq_true]
  intro hs
  exact Bool.noConfusion ((isPart_of_isStart hs).symm.trans h)

/-- White space belongs to no word. -/
theorem isPart_of_isSpace {c : Char} (h : isSpace c = true) : isPart c = false := by
  by_cases hc : c.toNat < 0x80
  · have hall : ∀ n < 0x80, isSpace (Char.ofNat n) = true → isPart (Char.ofNat n) = false := by
      decide +kernel
    exact of_ascii (p := fun c => isSpace c = true → isPart c = false) hall hc h
  · have hapart : ∀ q ∈ spaceRanges, ∀ p ∈ otherWordRanges, p.2 < q.1 ∨ q.2 < p.1 := by
      decide +kernel
    rw [isSpace, Ranges.has, List.any_eq_true] at h
    obtain ⟨q, hq, h⟩ := h
    have hword : otherWordRanges.has c = false := by
      rw [Ranges.has, List.any_eq_false]
      intro p hp
      have := hapart q hq p hp
      simp only [Bool.and_eq_true, decide_eq_true_eq] at h ⊢
      omega
    have hdollar : c ≠ '$' := by
      rintro rfl
      exact hc (by decide)
    simp [isPart, isWord, hc, hword, hdollar]

theorem isSpace_of_isStart {c : Char} (h : isStart c = true) : isSpace c = false := by
  rw [← Bool.not_eq_true]
  intro hs
  exact Bool.noConfusion ((isPart_of_isStart h).symm.trans (isPart_of_isSpace hs))

theorem IsIdentifier.isPart {s : Text} (h : IsIdentifier s) : ∀ d ∈ s, isPart d = true := by
  obtain ⟨c, t, rfl, hc, ht⟩ := h
  intro d hd
  rcases List.mem_cons.1 hd with rfl | hd
  · exact isPart_of_isStart hc
  · exact ht d hd

theorem IsPath.chars {p : Text} (h : IsPath p) : ∀ d ∈ p, isPart d = true ∨ d = '.' := by
  induction h with
  | identifier hs => exact fun d hd => Or.inl (hs.isPart d hd)
  | dot hs hp ih =>
    intro d hd
    rcases List.mem_append.1 hd with hd | hd
    · exact Or.inl (hs.isPart d hd)
    · rcases List.mem_cons.1 hd with rfl | hd
      · exact Or.inr rfl
      · exact ih d hd

theorem IsPath.head {p : Text} (h : IsPath p) : ∃ c t, p = c :: t ∧ isStart c = true := by
  cases h with
  | identifier hs =>
    obtain ⟨c, t, rfl, hc, -⟩ := hs
    exact ⟨c, t, rfl, hc⟩
  | dot hs hp =>
    obtain ⟨c, t, rfl, hc, -⟩ := hs
    exact ⟨c, _, rfl, hc⟩

/-- What is neither part of an identifier nor a dot stands in no path. -/
theorem IsPath.notMem {p : Text} (h : IsPath p) {x : Char} (hx : isPart x = false) (hd : x ≠ '.') :
    x ∉ p := by
  intro hp
  rcases h.chars x hp with hp | hp
  · rw [hx] at hp
    exact Bool.noConfusion hp
  · exact hd hp

theorem IsPath.isSpace_eq {p : Text} (hp : IsPath p) : ∀ c ∈ p, isSpace c = false := by
  intro c hc
  by_contra hspace
  rw [Bool.not_eq_false] at hspace
  rcases hp.chars c hc with h | rfl
  · simp [isPart_of_isSpace hspace] at h
  · exact absurd hspace (by decide)

/-! ## Calls -/

theorem isIdentifier_viewModel : IsIdentifier viewModel :=
  ⟨'t', ['h', 'i', 's'], rfl, by decide, forall_mem_of_all (by decide)⟩

/-- A call is a rooted path with an empty argument list. -/
theorem call_eq_append {p : Text} (hp : IsPath p) :
    ∃ q, IsPath q ∧ IsRooted q ∧ call p = q ++ ['(', ')'] := by
  unfold call
  split
  · rename_i h
    refine ⟨p, hp, ?_, rfl⟩
    rw [Bool.or_eq_true, decide_eq_true_eq, isPrefixOf_eq_true] at h
    exact h
  · refine ⟨viewModel ++ '.' :: p, .dot isIdentifier_viewModel hp, Or.inr ⟨p, ?_⟩, ?_⟩
    · rw [List.append_assoc]
      rfl
    · rw [List.append_assoc]
      rfl

theorem notMem_call {p : Text} (hp : IsPath p) {x : Char} (hx : isPart x = false)
    (hc : x ∉ ['.', '(', ')']) : x ∉ call p := by
  simp only [List.mem_cons, List.not_mem_nil, or_false, not_or] at hc
  obtain ⟨q, hq, -, he⟩ := call_eq_append hp
  rw [he, List.mem_append]
  rintro (h | h)
  · exact hq.notMem hx hc.1 h
  · simp only [List.mem_cons, List.not_mem_nil, or_false] at h
    rcases h with h | h
    · exact hc.2.1 h
    · exact hc.2.2 h

theorem separators_notMem_call {p : Text} (hp : IsPath p) {x : Char} (hx : x ∈ separators) :
    x ∉ call p := by
  simp only [separators, List.mem_cons, List.not_mem_nil, or_false] at hx
  rcases hx with rfl | rfl | rfl | rfl <;> exact notMem_call hp (by decide) (by decide)

end InlineBinding.Accessor
