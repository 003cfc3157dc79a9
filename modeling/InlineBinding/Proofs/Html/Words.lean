import InlineBinding.Html.Token
import InlineBinding.Proofs.Html.Written
import InlineBinding.Proofs.Text.Words

/-!
# Words in markup

Words are made of characters that no rule of markup singles out, so a step of reading takes all of
a word or nothing of it.
-/
namespace InlineBinding.Html
open Text

/-! ## Characters -/

/-- Digits and small letters of ASCII. -/
def isWordChar (c : Char) : Bool := isNameChar c && c != '-'

theorem isNameChar_of_isWordChar {c : Char} (h : isWordChar c = true) : isNameChar c = true := by
  rw [isWordChar, Bool.and_eq_true] at h
  exact h.1

theorem isWordChar_of_isDigit {c : Char} (h : c.isDigit = true) : isWordChar c = true := by
  have hlow : c.toNat < 0x80 := by
    have hd := Char.isDigit_iff_toNat.1 h
    have h9 : '9'.toNat = 57 := rfl
    omega
  exact of_ascii (p := fun c => c.isDigit = true → isWordChar c = true) (by decide +kernel) hlow h

theorem isSpace_of_isWordChar {c : Char} (h : isWordChar c = true) : isSpace c = false :=
  of_ascii (p := fun c => isWordChar c = true → isSpace c = false) (by decide +kernel)
    (isLow_of_isNameChar (isNameChar_of_isWordChar h)).1 h

theorem isTagChar_of_isWordChar {c : Char} (h : isWordChar c = true) : isTagChar c = true := by
  obtain ⟨-, hb, hgt, hs, -⟩ := isNameChar_cases (isNameChar_of_isWordChar h)
  simp [isTagChar, isNameEnd, hb, hgt, hs]

theorem isAttributeChar_of_isWordChar {c : Char} (h : isWordChar c = true) :
    isAttributeChar c = true :=
  (isNameChar_cases (isNameChar_of_isWordChar h)).1

theorem isUnquotedChar_of_isWordChar {c : Char} (h : isWordChar c = true) :
    isUnquotedChar c = true := by
  obtain ⟨-, hb, hgt, -⟩ := isNameChar_cases (isNameChar_of_isWordChar h)
  simp [isUnquotedChar, hb, hgt]

theorem ne_of_isWordChar {x : Char} (hx : isWordChar x = false) {c : Char}
    (h : isWordChar c = true) : (c != x) = true := by
  rw [bne_iff_ne]
  rintro rfl
  rw [h] at hx
  exact Bool.noConfusion hx

theorem isSpace_of_isBlank {c : Char} (h : isBlank c = true) : isSpace c = true := by
  simp only [isBlank, Bool.or_eq_true, decide_eq_true_eq] at h
  rcases h with ((rfl | rfl) | rfl) | h
  · decide
  · decide
  · decide
  · rw [← Char.ofNat_toNat c, h]
    decide

/-! ## Words -/

theorem infix_skipBlank {w s : Text} (hw : w.Solid) (h : w <:+: s) : w <:+: skipBlank s := by
  refine infix_dropWhile hw.ne_nil (fun c hc => ?_) h
  by_contra hb
  have hspace := isSpace_of_isBlank (Bool.of_not_eq_false hb)
  rw [hw.space c hc] at hspace
  exact Bool.noConfusion hspace

structure Word (w : Text) : Prop where
  ne_nil : w ≠ []
  chars : ∀ c ∈ w, isWordChar c = true

namespace Word

variable {w s : Text} (hw : Word w)

include hw

theorem notMem {c : Char} (hc : isWordChar c = false) : c ∉ w := by
  intro h
  rw [hw.chars c h] at hc
  exact Bool.noConfusion hc

/-- A word stands on one side of a place where no word goes on. -/
theorem infix_append_or {a b : Text} (hb : ∀ c ∈ b.head?, isWordChar c = false)
    (h : w <:+: a ++ b) : w <:+: a ∨ w <:+: b := by
  cases b with
  | nil =>
    rw [List.append_nil] at h
    exact Or.inl h
  | cons c b => exact (infix_append_cons (hw.notMem (hb c rfl)) h).imp id List.infix_cons

/-- Something without word characters lies between, or nothing stands behind. -/
theorem infix_seam {a e b : Text} (he : ∀ c ∈ e, isWordChar c = false) (hb : e = [] → b = [])
    (h : w <:+: a ++ (e ++ b)) : w <:+: a ∨ w <:+: b := by
  have hhead : ∀ c ∈ (e ++ b).head?, isWordChar c = false := by
    cases e with
    | nil => simp [hb rfl]
    | cons x e => exact fun c hc => he c (by rw [← Option.some.inj hc]; exact List.mem_cons_self)
  refine (hw.infix_append_or hhead h).imp id fun h => ?_
  apply infix_of_disjoint (a := e) (b := []) hw.ne_nil (fun c hc => hw.notMem (he c hc)) (by simp)
  rwa [List.append_nil]

theorem infix_tail {c : Char} (hc : isWordChar c = false) (h : w <:+: c :: s) : w <:+: s :=
  (infix_append_cons (s := []) (hw.notMem hc) h).resolve_left fun h =>
    hw.ne_nil (List.infix_nil.1 h)

theorem infix_run {p : Char → Bool} (hp : ∀ c, isWordChar c = true → p c = true) {a : Text}
    (h : w <:+: a ++ s.dropWhile p) : w <:+: a ∨ w <:+: s.dropWhile p := by
  refine hw.infix_append_or (fun c hc => ?_) h
  have hout : p c = false := by simpa [Option.mem_def.1 hc] using List.head?_dropWhile_not p s
  by_contra hn
  rw [hp c (by simpa using hn)] at hout
  exact Bool.noConfusion hout

theorem infix_takeWhile_or {p : Char → Bool} (hp : ∀ c, isWordChar c = true → p c = true)
    (h : w <:+: s) : w <:+: s.takeWhile p ∨ w <:+: s.dropWhile p := by
  rw [← List.takeWhile_append_dropWhile (p := p) (l := s)] at h
  exact hw.infix_run hp h

theorem isNameChar {c : Char} (hc : c ∈ w) : isNameChar c = true :=
  isNameChar_of_isWordChar (hw.chars c hc)

theorem solid : w.Solid where
  ne_nil := hw.ne_nil
  space c hc := isSpace_of_isWordChar (hw.chars c hc)

theorem infix_asciiLower (h : w <:+: s) : w <:+: asciiLower s := by
  have hmap : asciiLower w = w := asciiLower_name fun c hc => hw.isNameChar hc
  have := h.map asciiLowerChar
  rwa [← asciiLower, ← asciiLower, hmap] at this

end Word

end InlineBinding.Html
