import InlineBinding.Html.Builder
import Mathlib.Data.Nat.Notation

/-!
# What the builder can do

A token closes some of the innermost elements, opens the sections that have to be there, and opens
an element or adds a leaf. What every token keeps is kept by these few operations.
-/
namespace InlineBinding.Html.Builder

variable {b : Builder}

/-! ## Sections that are opened by themselves -/

/-- Inside of some root. -/
def rooted (b : Builder) : Builder := if b.stack.isEmpty then b.push ⟨html, []⟩ else b

theorem stack_rooted : b.rooted.stack ≠ [] := by
  rw [rooted]
  split
  · exact List.cons_ne_nil _ _
  · rename_i hs
    exact fun he => hs (List.isEmpty_iff.2 he)

/-- Below the root at most one section is opened, and none after a body. -/
theorem imply_cases {name : Text} (h : name ≠ html) : b.imply name = b.rooted ∨
    b.bodySeen = false ∧ ∃ n, (n = head ∨ n = body) ∧ b.imply name = b.rooted.push ⟨n, []⟩ := by
  have hseen : b.rooted.bodySeen = b.bodySeen := by
    rw [rooted]
    split
    · exact (Bool.or_eq_left_iff_imp).2 fun he => absurd he (by decide)
    · rfl
  rw [← hseen, imply, if_neg h, rooted]
  generalize (if b.stack.isEmpty then b.push ⟨html, []⟩ else b) = root
  dsimp only
  split
  · exact Or.inl rfl
  split
  · split
    · exact Or.inl rfl
    · rename_i hs
      rw [Bool.or_eq_true, not_or, Bool.not_eq_true, Bool.not_eq_true] at hs
      exact Or.inr ⟨hs.2, head, Or.inl rfl, rfl⟩
  split
  · exact Or.inl rfl
  split
  · exact Or.inl rfl
  · rename_i hs
    simp only [Bool.or_eq_true, not_or, Bool.not_eq_true] at hs
    exact Or.inr ⟨hs.1.1, body, Or.inr rfl, rfl⟩

theorem stack_imply_ne_nil {name : Text} (h : name ≠ html) : (b.imply name).stack ≠ [] := by
  rcases imply_cases (b := b) h with h | ⟨-, n, -, h⟩
  · rw [h]
    exact stack_rooted
  · rw [h]
    exact List.cons_ne_nil _ _

/-! ## Tokens -/

/-- A misplaced start tag is counted, any other one opens an element. Either closes one at most. -/
theorem startTag_cases (b : Builder) (tag : Tag) (selfClosing : Bool) :
    let place := (b.autoClose tag.name).imply tag.name
    ∃ n, place.isMisplaced tag.name = true ∧
        b.startTag tag selfClosing = popMany n { place with ignored := place.ignored + 1 } ∨
      place.isMisplaced tag.name = false ∧
        b.startTag tag selfClosing = popMany n (place.push tag) := by
  intro place
  have hclosed (close : Bool) (c : Builder) : ∃ n, (if close then c.pop else c) = popMany n c := by
    cases close with
    | false => exact ⟨0, rfl⟩
    | true => exact ⟨1, rfl⟩
  rw [startTag]
  change ∃ n, _ ∧ (if place.isMisplaced tag.name then _ else _) = _ ∨ _
  cases place.isMisplaced tag.name with
  | true =>
    obtain ⟨n, hn⟩ := hclosed selfClosing { place with ignored := place.ignored + 1 }
    exact ⟨n, Or.inl ⟨rfl, hn⟩⟩
  | false =>
    obtain ⟨n, hn⟩ := hclosed (selfClosing || voidNames.contains tag.name) (place.push tag)
    exact ⟨n, Or.inr ⟨rfl, hn⟩⟩

/-- An end tag is counted, or it closes elements, or none. -/
theorem endTag_cases (b : Builder) (name : Text) :
    (∃ k, b.endTag name = { b with ignored := k }) ∨ ∃ n, b.endTag name = popMany n b := by
  rw [endTag]
  split
  · exact Or.inl ⟨_, rfl⟩
  split
  · exact Or.inr ⟨0, rfl⟩
  dsimp only
  split
  · exact Or.inr ⟨0, rfl⟩
  · exact Or.inr ⟨_, rfl⟩

/-- Blanks at the start of a text may go where the builder is. The rest goes there when it is blank,
and else into the sections that have to be around it. -/
theorem text_cases (b : Builder) (data : Text) : ∃ blanks rest,
    (rest = skipBlank data ∨ b.stack ≠ [] ∧ rest = data) ∧
      (rest = [] ∧ b.text data = b.addText blanks ∨
        rest.all isBlank = true ∧ b.text data = (b.addText blanks).addText rest ∨
        rest.all isBlank = false ∧
          ∃ n, b.text data = ((popMany n (b.addText blanks)).imply paragraph).addText rest) := by
  have hrest (inSection : Bool) : ∃ rest,
      (if b.stack.isEmpty || inSection then skipBlank data else data) = rest ∧
        (rest = skipBlank data ∨ b.stack ≠ [] ∧ rest = data) := by
    refine ⟨_, rfl, ?_⟩
    split
    · exact Or.inl rfl
    · rename_i hs
      rw [Bool.or_eq_true, not_or] at hs
      exact Or.inr ⟨fun he => hs.1 (List.isEmpty_iff.2 he), rfl⟩
  have hblanks (inSection : Bool) : ∃ blanks,
      (if inSection then b.addText (data.takeWhile isBlank) else b) = b.addText blanks := by
    split
    · exact ⟨_, rfl⟩
    · exact ⟨[], rfl⟩
  have hclosed (c : Builder) : ∃ n,
      (if c.current? = some head then c.autoClose paragraph else c) = popMany n c := by
    split
    · exact ⟨_, rfl⟩
    · exact ⟨0, rfl⟩
  rw [text]
  generalize (decide (b.current? = some html) || decide (b.current? = some head)) = inSection
  obtain ⟨rest, hr, hcases⟩ := hrest inSection
  obtain ⟨blanks, hb⟩ := hblanks inSection
  rw [hr, hb]
  obtain ⟨n, hn⟩ := hclosed (b.addText blanks)
  refine ⟨blanks, rest, hcases, ?_⟩
  dsimp only
  rw [hn]
  split
  · rename_i he
    exact Or.inl ⟨List.isEmpty_iff.1 he, rfl⟩
  split
  · rename_i hall
    exact Or.inr (Or.inl ⟨hall, rfl⟩)
  · rename_i hall
    exact Or.inr (Or.inr ⟨Bool.not_eq_true _ ▸ hall, n, rfl⟩)

end InlineBinding.Html.Builder
