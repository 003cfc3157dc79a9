import InlineBinding.Literal
import InlineBinding.Proofs.Text.Replace

/-!
# Escaping character by character

The six passes over a literal amount to one: no pass rewrites what an earlier one has written, so
every character has its own spelling and the spellings stand side by side.
-/
namespace InlineBinding.Literal
open Text

/-- The spelling of one character. -/
def escapeChar (c : Char) : Text :=
  if c = '\\' then ['\\', '\\']
  else if c = '\'' then ['\\', '\'']
  else if c = '\r' then ['\\', 'r']
  else if c = '\n' then ['\\', 'n']
  else if c = '\"' then ['&', 'q', 'u', 'o', 't', ';']
  else if c = ',' then ['\\', 'x', '2', 'c']
  else [c]

/-- The characters that are not spelled as themselves. -/
def escaped : List Char := ['\\', '\'', '\r', '\n', '\"', ',']

theorem escapeChar_of_notMem {c : Char} (h : c ∉ escaped) : escapeChar c = [c] := by
  simp only [escaped, List.mem_cons, List.not_mem_nil, or_false, not_or] at h
  simp only [escapeChar, h, if_false]

theorem replacements_eq : replacements =
    [(['\\'], ['\\', '\\']), (['\''], ['\\', '\'']), (['\r'], ['\\', 'r']), (['\n'], ['\\', 'n']),
      (['\"'], ['&', 'q', 'u', 'o', 't', ';']), ([','], ['\\', 'x', '2', 'c'])] := rfl

theorem escape_eq_flatMap (s : Text) : escape s = s.flatMap escapeChar := by
  rw [escape, replacements_eq]
  simp only [List.foldl_cons, List.foldl_nil, replace_singleton, List.flatMap_assoc]
  congr 1
  funext c
  by_cases h : c ∈ escaped
  · simp only [escaped, List.mem_cons, List.not_mem_nil, or_false] at h
    rcases h with rfl | rfl | rfl | rfl | rfl | rfl <;> rfl
  · rw [escapeChar_of_notMem h]
    simp only [escaped, List.mem_cons, List.not_mem_nil, or_false, not_or] at h
    simp [h]

@[simp] theorem escape_nil : escape [] = [] := rfl

@[simp] theorem escape_append (s t : Text) : escape (s ++ t) = escape s ++ escape t := by
  simp only [escape_eq_flatMap, List.flatMap_append]

theorem escape_cons (c : Char) (s : Text) : escape (c :: s) = escapeChar c ++ escape s := by
  simp only [escape_eq_flatMap, List.flatMap_cons]

theorem escape_eq_self {s : Text} (h : ∀ c ∈ s, c ∉ escaped) : escape s = s := by
  induction s with
  | nil => rfl
  | cons c s ih =>
    rw [escape_cons, escapeChar_of_notMem (h c List.mem_cons_self),
      ih (fun d hd => h d (List.mem_cons_of_mem c hd)), List.singleton_append]

/-- A spelling is the character itself or begins with a backslash or an ampersand. -/
theorem escapeChar_cases (c : Char) :
    c ∉ escaped ∧ escapeChar c = [c] ∨
      c ∈ escaped ∧ ∃ e, (escapeChar c = '\\' :: e ∨ escapeChar c = '&' :: e) := by
  by_cases h : c ∈ escaped
  · refine Or.inr ⟨h, ?_⟩
    simp only [escaped, List.mem_cons, List.not_mem_nil, or_false] at h
    rcases h with rfl | rfl | rfl | rfl | rfl | rfl
    · exact ⟨['\\'], Or.inl rfl⟩
    · exact ⟨['\''], Or.inl rfl⟩
    · exact ⟨['r'], Or.inl rfl⟩
    · exact ⟨['n'], Or.inl rfl⟩
    · exact ⟨['q', 'u', 'o', 't', ';'], Or.inr rfl⟩
    · exact ⟨['x', '2', 'c'], Or.inl rfl⟩
  · exact Or.inl ⟨h, escapeChar_of_notMem h⟩

/-! ## Reading in an escaped text -/

/-- The characters that spellings are made of, apart from the characters spelled as themselves. -/
def spelling : List Char := escaped.flatMap escapeChar

theorem notMem_escapeChar_of_spelling {a c : Char} (ha : a ∉ spelling) (hc : c ∈ escaped) :
    a ∉ escapeChar c :=
  fun h => ha (List.mem_flatMap.2 ⟨c, hc, h⟩)

/-- What can be read in an escaped text was there before, unless it touches a spelling. -/
theorem infix_of_infix_escape {a : Char} {p s : Text} (ha : a ∉ spelling) (hb : '\\' ∉ p)
    (hn : '&' ∉ p) (h : a :: p <:+: escape s) : a :: p <:+: s := by
  rw [escape_eq_flatMap] at h
  refine infix_of_infix_flatMap (fun c => ?_) h
  rcases escapeChar_cases c with ⟨-, he⟩ | ⟨hc, e, he | he⟩
  · exact Or.inl he
  · exact Or.inr ⟨notMem_escapeChar_of_spelling ha hc, _, e, he, hb⟩
  · exact Or.inr ⟨notMem_escapeChar_of_spelling ha hc, _, e, he, hn⟩

/-- Characters that no spelling uses are as many as before. -/
theorem count_escape {a : Char} (ha : a ∉ spelling) (he : a ∉ escaped) (s : Text) :
    (escape s).count a = s.count a := by
  induction s with
  | nil => rfl
  | cons c s ih =>
    rw [escape_cons, List.count_append, ih]
    rcases escapeChar_cases c with ⟨-, hc⟩ | ⟨hc, -⟩
    · rw [hc, ← List.count_append, List.singleton_append]
    · have hne : c ≠ a := by rintro rfl; exact he hc
      rw [List.count_eq_zero.2 (notMem_escapeChar_of_spelling ha hc), Nat.zero_add,
        List.count_cons_of_ne hne]

/-- Line breaks, double quotes and commas that would end a clause or its attribute. -/
def separators : List Char := [',', '\"', '\r', '\n']

theorem notMem_escapeChar {x : Char} (hx : x ∈ separators) (c : Char) : x ∉ escapeChar c := by
  rcases escapeChar_cases c with ⟨hc, he⟩ | ⟨hc, -⟩
  · rw [he, List.mem_singleton]
    rintro rfl
    simp only [separators, List.mem_cons, List.not_mem_nil, or_false] at hx
    rcases hx with rfl | rfl | rfl | rfl <;> exact hc (by decide)
  · simp only [escaped, List.mem_cons, List.not_mem_nil, or_false] at hc
    simp only [separators, List.mem_cons, List.not_mem_nil, or_false] at hx
    rcases hc with rfl | rfl | rfl | rfl | rfl | rfl <;>
      rcases hx with rfl | rfl | rfl | rfl <;> decide

theorem notMem_escape {x : Char} (hx : x ∈ separators) (s : Text) : x ∉ escape s := by
  rw [escape_eq_flatMap, List.mem_flatMap]
  rintro ⟨c, -, hc⟩
  exact notMem_escapeChar hx c hc

theorem notMem_quote {x : Char} (hx : x ∈ separators) (s : Text) : x ∉ quote s := by
  have hq : x ≠ '\'' := by rintro rfl; exact absurd hx (by decide)
  simp [quote, hq, notMem_escape hx s]

end InlineBinding.Literal
