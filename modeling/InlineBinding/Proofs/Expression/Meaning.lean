import InlineBinding.Expression
import InlineBinding.Proofs.Expression.Grammar
import Mathlib.Data.List.Forall2

/-!
# What a compiled expression means

The expression compiled from chunks is read in one way only. No literal escapes its quotes, and
the value of the sum is the text of the chunks with the values of their paths filled in. A path
that stands alone keeps the type of its value.
-/
namespace InlineBinding.Expression
open Text Accessor Literal

/-! ## References -/

def quoteReference : Text := ['&', 'q', 'u', 'o', 't', ';']

/-- An attribute is read back by turning its references into double quotes. -/
def unreference (s : Text) : Text := replace quoteReference ['\"'] s

theorem unreference_nil : unreference [] = [] := rfl

theorem unreference_append {s : Text} (hs : '&' ∉ s) (t : Text) :
    unreference (s ++ t) = s ++ unreference t :=
  replace_append_of_notMem_head _ hs t

theorem unreference_quote (t : Text) :
    unreference (quoteReference ++ t) = '\"' :: unreference t :=
  replace_pattern_append _ t (List.cons_ne_nil _ _)

/-! ## Terms -/

/-- `s` is read as `t` after references are read, whatever follows. -/
def Translates (s : Text) (t : Term) : Prop :=
  ∃ r, t.Reads r ∧ ∀ y, unreference (s ++ y) = r ++ unreference y

theorem spells_escapeChar {c : Char} (hc : c ≠ '\"') : Spells c (escapeChar c) := by
  rcases escapeChar_cases c with ⟨hn, he⟩ | ⟨hm, -⟩
  · rw [he]
    refine .plain fun hp => hn ?_
    simp only [List.mem_cons, List.not_mem_nil, or_false] at hp
    rcases hp with rfl | rfl | rfl | rfl <;> decide
  · simp only [escaped, List.mem_cons, List.not_mem_nil, or_false] at hm
    rcases hm with rfl | rfl | rfl | rfl | rfl | rfl
    · exact .backslash
    · exact .quote
    · exact .carriageReturn
    · exact .lineFeed
    · exact absurd rfl hc
    · exact .comma

theorem ampersand_notMem_escapeChar {c : Char} (hc : c ≠ '\"') (ha : c ≠ '&') :
    '&' ∉ escapeChar c := by
  rcases escapeChar_cases c with ⟨-, he⟩ | ⟨hm, -⟩
  · rw [he, List.mem_singleton]
    exact ha.symm
  · simp only [escaped, List.mem_cons, List.not_mem_nil, or_false] at hm
    rcases hm with rfl | rfl | rfl | rfl | rfl | rfl
    all_goals first | exact absurd rfl hc | decide

/-- Only double quotes are written as references, and they are read back as themselves. -/
theorem unreference_escape {v : Text} (hv : '&' ∉ v) :
    ∃ s, SpellsAll v s ∧ ∀ y, unreference (escape v ++ y) = s ++ unreference y := by
  induction v with
  | nil => exact ⟨[], .nil, fun y => rfl⟩
  | cons c v ih =>
    obtain ⟨s, hs, hy⟩ := ih (fun h => hv (List.mem_cons_of_mem c h))
    by_cases hc : c = '\"'
    · subst hc
      refine ⟨'\"' :: s, .cons (.plain (by decide)) hs, fun y => ?_⟩
      rw [escape_cons, List.append_assoc]
      exact (unreference_quote _).trans (by rw [hy, List.cons_append])
    · have ha : c ≠ '&' := fun h => hv (h ▸ List.mem_cons_self)
      refine ⟨escapeChar c ++ s, .cons (spells_escapeChar hc) hs, fun y => ?_⟩
      rw [escape_cons, List.append_assoc,
        unreference_append (ampersand_notMem_escapeChar hc ha), hy, List.append_assoc]

theorem translates_quote {v : Text} (hv : '&' ∉ v) : Translates (quote v) (.literal v) := by
  obtain ⟨s, hs, hy⟩ := unreference_escape hv
  refine ⟨'\'' :: s ++ ['\''], .literal hs, fun y => ?_⟩
  have hl : quote v ++ y = ['\''] ++ (escape v ++ (['\''] ++ y)) := by simp [quote]
  rw [hl, unreference_append (by decide), hy, unreference_append (by decide)]
  simp

theorem translates_call {p : Text} (hp : IsPath p) : Translates (call p) (.call (call p)) := by
  obtain ⟨q, hq, hr, he⟩ := call_eq_append hp
  refine ⟨call p, ?_, fun y => unreference_append (notMem_call hp (by decide) (by decide)) y⟩
  rw [he]
  exact .call hq hr

/-- Terms that translate one by one translate as a sum. -/
theorem reads_intercalate {ss : List Text} {ts : List Term} (h : List.Forall₂ Translates ss ts)
    (hne : ss ≠ []) : Reads (unreference (List.intercalate plus ss)) ts := by
  induction h with
  | nil => exact absurd rfl hne
  | @cons s t ss ts hst h ih =>
    obtain ⟨r, hr, hy⟩ := hst
    cases h with
    | nil =>
      have := hy []
      rw [List.append_nil, unreference_nil, List.append_nil] at this
      rw [List.intercalate_singleton, this]
      exact .single hr
    | @cons s' t' ss ts hst' h =>
      rw [List.intercalate_cons_cons, List.append_assoc, hy,
        unreference_append (by decide), ← List.append_assoc]
      exact .sum hr (ih (List.cons_ne_nil s' ss))

/-! ## Chunks -/

/-- The term that a chunk becomes; an empty literal becomes none. -/
def term (c : Chunk) : Option Term :=
  match c with
  | .literal [] => none
  | .literal t => some (.literal t)
  | .path p => some (.call (call p))

/-- A chunk as text, with the value of its path. -/
def spoken (calls : Text → Operand) : Chunk → Text
  | .literal t => t
  | .path p => (calls (call p)).toText

/-- Literals hold no ampersand, and paths are accessor paths. -/
def IsProper : Chunk → Prop
  | .literal t => '&' ∉ t
  | .path p => IsPath p

theorem translates_terms {cs : List Chunk} (h : ∀ c ∈ cs, IsProper c) :
    List.Forall₂ Translates (cs.filterMap (term? [])) (cs.filterMap term) := by
  induction cs with
  | nil => exact .nil
  | cons c cs ih =>
    have hc := h c List.mem_cons_self
    have ih := ih fun d hd => h d (List.mem_cons_of_mem c hd)
    rcases c with (_ | ⟨a, t⟩) | p
    · exact ih
    · exact .cons (translates_quote hc) ih
    · exact .cons (translates_call hc) ih

theorem spoken_terms (calls : Text → Operand) (cs : List Chunk) :
    (cs.filterMap term).flatMap (fun t => (t.value calls).toText) = cs.flatMap (spoken calls) := by
  induction cs with
  | nil => rfl
  | cons c cs ih =>
    rcases c with (_ | ⟨a, t⟩) | p
    · exact ih
    · exact congrArg ((a :: t) ++ ·) ih
    · exact congrArg ((calls (call p)).toText ++ ·) ih

/-- The reading of the whole: the terms of the chunks behind the seed. -/
def reading (chunks : List Text) : List Term :=
  (seed chunks).map (fun _ => .literal []) ++ (Chunk.alternate false chunks).filterMap term

theorem eq_of_mem_seed {chunks : List Text} {s : Text} (h : s ∈ seed chunks) : s = quote [] := by
  unfold seed at h
  split at h
  · split at h
    · exact absurd h List.not_mem_nil
    · exact List.mem_singleton.1 h
  · exact absurd h List.not_mem_nil

theorem translates_seed (chunks : List Text) :
    List.Forall₂ Translates (seed chunks) ((seed chunks).map fun _ => .literal []) := by
  unfold seed
  split
  · split
    · exact .nil
    · exact .cons (translates_quote (v := []) (by decide)) .nil
  · exact .nil

/-- What chunks stand for: their text, or the value of a path that stands alone. -/
def meaning (calls : Text → Operand) (chunks : List Text) : Operand :=
  match chunks with
  | [[], p, []] => calls (call p)
  | _ => .text ((Chunk.alternate false chunks).flatMap (spoken calls))

theorem meaning_of_not_lone (calls : Text → Operand) {chunks : List Text}
    (h : isLone chunks = false) :
    meaning calls chunks = .text ((Chunk.alternate false chunks).flatMap (spoken calls)) := by
  unfold meaning
  split
  · exact Bool.noConfusion h
  · rfl

theorem eq_of_isLone {chunks : List Text} (h : isLone chunks = true) :
    ∃ p, chunks = [[], p, []] := by
  unfold isLone at h
  split at h
  · exact ⟨_, rfl⟩
  · exact Bool.noConfusion h

theorem value?_reading (calls : Text → Operand) {chunks : List Text} (hne : chunks ≠ []) :
    value? calls (reading chunks) = some (meaning calls chunks) := by
  cases hl : isLone chunks with
  | true =>
    obtain ⟨p, rfl⟩ := eq_of_isLone hl
    rfl
  | false =>
    obtain ⟨t, rest, rfl⟩ := List.exists_cons_of_ne_nil hne
    rw [meaning_of_not_lone calls hl]
    cases t with
    | nil =>
      simp only [reading, seed, hl, Bool.false_eq_true, if_false, List.map_cons, List.map_nil,
        List.cons_append, List.nil_append, value?, Term.value]
      rw [addAll_text, spoken_terms, List.nil_append]
    | cons a t =>
      simp only [reading, seed, Chunk.alternate, List.map_nil, List.nil_append,
        List.filterMap_cons, term, value?, Term.value]
      rw [addAll_text, spoken_terms, List.flatMap_cons]
      rfl

/-! ## Separators -/

/-- A term is the seed, a literal or a call. -/
theorem cases_of_mem_terms {ms : LiteralMarks} {chunks : List Text} {s : Text}
    (h : s ∈ terms ms chunks) : s = quote [] ∨
      (∃ t, .literal t ∈ Chunk.alternate false chunks ∧ s = literal ms t) ∨
      ∃ p, .path p ∈ Chunk.alternate false chunks ∧ s = call p := by
  rcases List.mem_append.1 h with h | h
  · exact Or.inl (eq_of_mem_seed h)
  · obtain ⟨c, hc, hs⟩ := List.mem_filterMap.1 h
    rcases c with (_ | ⟨a, t⟩) | p
    · exact absurd hs (by simp [term?])
    · exact Or.inr (Or.inl ⟨a :: t, hc, (Option.some.inj hs).symm⟩)
    · exact Or.inr (Or.inr ⟨p, hc, (Option.some.inj hs).symm⟩)

theorem notMem_intercalate {x : Char} {sep : Text} {ss : List Text} (hx : x ∉ sep)
    (h : ∀ s ∈ ss, x ∉ s) : x ∉ List.intercalate sep ss := by
  induction ss with
  | nil => exact List.not_mem_nil
  | cons s ss ih =>
    have hs := h s List.mem_cons_self
    have ih := ih fun t ht => h t (List.mem_cons_of_mem s ht)
    cases ss with
    | nil => rwa [List.intercalate_singleton]
    | cons t ss =>
      rw [List.intercalate_cons_cons, List.mem_append, List.mem_append]
      rintro ((hm | hm) | hm)
      · exact hs hm
      · exact hx hm
      · exact ih hm

theorem separators_notMem_terms {chunks : List Text}
    (h : ∀ c ∈ Chunk.alternate false chunks, IsProper c) {x : Char} (hx : x ∈ separators) :
    ∀ s ∈ terms [] chunks, x ∉ s := by
  intro s hs
  rcases cases_of_mem_terms hs with rfl | ⟨t, -, rfl⟩ | ⟨p, hp, rfl⟩
  · exact notMem_quote hx []
  · exact notMem_quote hx t
  · exact separators_notMem_call (h _ hp) hx

/-! ## The whole -/

theorem terms_ne_nil {ms : LiteralMarks} {chunks : List Text} (hne : chunks ≠ []) :
    terms ms chunks ≠ [] := by
  cases hl : isLone chunks with
  | true =>
    obtain ⟨p, rfl⟩ := eq_of_isLone hl
    exact List.cons_ne_nil _ _
  | false =>
    obtain ⟨t, rest, rfl⟩ := List.exists_cons_of_ne_nil hne
    cases t with
    | nil => simp [terms, seed, hl]
    | cons a t => exact List.cons_ne_nil _ _

theorem reads_reading (output : Delimiters) {chunks : List Text} (hne : chunks ≠ [])
    (h : ∀ c ∈ Chunk.alternate false chunks, IsProper c) :
    Reads (unreference (compile output [] chunks).expression) (reading chunks) :=
  reads_intercalate (List.rel_append (translates_seed chunks) (translates_terms h))
    (terms_ne_nil hne)

/-- A compiled expression has exactly one reading, whatever its literals hold. Its value is the
text of the chunks with the values of the calls, or the value itself of a call that stands
alone; and it holds no character at which a clause or its attribute could end. -/
theorem compile_reads_uniquely (output : Delimiters) (chunks : List Text)
    (hodd : chunks.length % 2 = 1) (hproper : ∀ c ∈ Chunk.alternate false chunks, IsProper c) :
    (∃ ts, Reads (unreference (compile output [] chunks).expression) ts ∧
      (∀ us, Reads (unreference (compile output [] chunks).expression) us → us = ts) ∧
      ∀ calls, value? calls ts = some (meaning calls chunks)) ∧
    ∀ x ∈ [',', '\"', '\r', '\n'], x ∉ (compile output [] chunks).expression := by
  have hne : chunks ≠ [] := by
    rintro rfl
    exact absurd hodd (by decide)
  have hr := reads_reading output hne hproper
  refine ⟨⟨reading chunks, hr, fun us hu => hu.unique hr,
    fun calls => value?_reading calls hne⟩, ?_⟩
  intro x hx
  refine notMem_intercalate ?_ (separators_notMem_terms hproper hx)
  simp only [List.mem_cons, List.not_mem_nil, or_false] at hx
  rcases hx with rfl | rfl | rfl | rfl <;> decide

/-- Literals that look like code, and two numbers side by side. -/
def trickyChunks : List Text :=
  ["it's ' + this.x() + '\\".toList, "this.a".toList, [], "b".toList, "\",\n".toList]

theorem trickyChunks_proper : ∀ c ∈ Chunk.alternate false trickyChunks, IsProper c := by
  have ha : IsPath "this.a".toList :=
    .dot (s := viewModel) isIdentifier_viewModel
      (.identifier ⟨'a', [], rfl, by decide, by simp⟩)
  have hb : IsPath "b".toList := .identifier ⟨'b', [], rfl, by decide, by simp⟩
  intro c hc
  simp only [trickyChunks, Chunk.alternate, List.mem_cons, List.not_mem_nil, or_false] at hc
  rcases hc with rfl | rfl | rfl | rfl | rfl
  · exact (by decide : '&' ∉ "it's ' + this.x() + '\\".toList)
  · exact ha
  · exact (by decide : '&' ∉ ([] : Text))
  · exact hb
  · exact (by decide : '&' ∉ "\",\n".toList)

theorem compile_trickyChunks :
    trickyChunks.length % 2 = 1 ∧ (∀ c ∈ Chunk.alternate false trickyChunks, IsProper c) ∧
    (∃ ts, Reads (unreference (compile Delimiters.doubleBraces [] trickyChunks).expression) ts ∧
      (∀ us, Reads (unreference (compile Delimiters.doubleBraces [] trickyChunks).expression) us →
        us = ts) ∧
      ∀ calls, value? calls ts = some (meaning calls trickyChunks)) ∧
    ∀ x ∈ [',', '\"', '\r', '\n'],
      x ∉ (compile Delimiters.doubleBraces [] trickyChunks).expression :=
  ⟨rfl, trickyChunks_proper,
    compile_reads_uniquely Delimiters.doubleBraces trickyChunks rfl trickyChunks_proper⟩

end InlineBinding.Expression
