import InlineBinding.Proofs.Delimiters.Ahead
import InlineBinding.Proofs.Expression.Meaning
import InlineBinding.Proofs.Html.References

/-!
# References in expressions

Where a text has references, its bindings are found all the same, and its literals keep the
references. Decoding the expression as an attribute turns them into characters that nothing escapes:
a comma may stand so, while a quote or a backslash changes what is read.
-/
namespace InlineBinding

namespace Delimiters
open Text Html

/-! ## Chunks -/

/-- Chunks of a text, and of the same text with references in its literals. -/
inductive ChunksRefer : ℕ → List Text → List Text → Prop where
  | last {n : ℕ} {s w : Text} (h : Refers n s w) : ChunksRefer n [s] [w]
  | binding {n m : ℕ} {s w : Text} {cs ds : List Text} (h : Refers n s w) (p : Text)
      (hr : ChunksRefer m cs ds) : ChunksRefer (n + m) (s :: p :: cs) (w :: p :: ds)

theorem ChunksRefer.prepend {n m : ℕ} {s w : Text} {cs ds : List Text} (hs : Refers n s w)
    (h : ChunksRefer m cs ds) :
    ChunksRefer (n + m) (Delimiters.prepend s cs) (Delimiters.prepend w ds) := by
  cases h with
  | last h => exact .last (hs.append h)
  | binding h p hr =>
    rw [← Nat.add_assoc]
    exact .binding (hs.append h) p hr

theorem ChunksRefer.length_eq {n : ℕ} {cs ds : List Text} (h : ChunksRefer n cs ds) :
    cs.length = ds.length := by
  induction h with
  | last _ => rfl
  | binding _ p _ ih => simp [ih]

section Split

variable {c : Char} {s w : Text} {n : ℕ}

theorem braces_bindingAt?_of_ne (h : c ≠ '\x7b') : braces.bindingAt? (c :: s) = none :=
  bindingAt?_cons_of_notMem (List.cons_ne_nil _ _) (by simpa [braces] using h) s

theorem braces_split_append {x : Text} (h : '\x7b' ∉ x) (s : Text) :
    braces.split (x ++ s) = prepend x (braces.split s) := by
  have hne : braces.split s ≠ [] := chunks_ne_nil _
  obtain ⟨literal, rest, hs⟩ := List.exists_cons_of_ne_nil hne
  induction x with
  | nil => rw [List.nil_append, hs]; rfl
  | cons c x ih =>
    rw [List.mem_cons, not_or] at h
    rw [List.cons_append, split_cons_of_none (braces_bindingAt?_of_ne (Ne.symm h.1)), ih h.2, hs]
    rfl

/-- Up to the first reference both texts are the same, and there no binding goes on. -/
theorem bindingAt?_refers (h : Refers n s w) : braces.bindingAt? w = braces.bindingAt? s ∧
    ∀ p k, braces.bindingAt? s = some (p, k) → Refers n (s.drop k) (w.drop k) := by
  have hinert : ∀ c ∈ '&' :: referable, braces.Inert c := by
    have hall : ∀ c ∈ '&' :: referable, Accessor.isPart c = false ∧ c ≠ '.' ∧ isSpace c = false ∧
        c ∉ braces.opening ∧ c ∉ braces.closing := forall_mem_of_all (by decide +kernel)
    exact fun c hc => ⟨(hall c hc).1, (hall c hc).2.1, (hall c hc).2.2.1, (hall c hc).2.2.2.1,
      (hall c hc).2.2.2.2⟩
  obtain ⟨u, s', w', rfl, rfl, h, hend⟩ := h.exists_front
  rcases hend with ⟨rfl, rfl⟩ | ⟨c, x, y, hc, rfl, rfl⟩
  · refine ⟨rfl, fun p k _ => ?_⟩
    cases h
    exact .refl _
  · have hs := bindingAt?_append (hinert c (List.mem_cons_of_mem _ hc)) u x
    have hw := bindingAt?_append (hinert '&' List.mem_cons_self) u y
    refine ⟨hw.trans hs.symm, fun p k hk => ?_⟩
    have hlength := bindingAt?_le_length (hs.symm.trans hk)
    rw [List.drop_append_of_le_length hlength, List.drop_append_of_le_length hlength]
    have happend := (Refers.refl (u.drop k)).append h
    rwa [Nat.zero_add] at happend

theorem chunksRefer_split (h : Refers n s w) :
    ChunksRefer n (braces.split s) (braces.split w) := by
  induction s using cut_induction braces.bindingAt? generalizing n w with
  | nil =>
    cases h
    exact .last .nil
  | char c s hs ih =>
    have hrule := (bindingAt?_refers h).1
    cases h with
    | char c h =>
      rw [split_cons_of_none hs, split_cons_of_none (hrule.trans hs), ← Nat.zero_add n]
      exact (ih h).prepend (.refl [c])
    | @reference n _ w _ hc h =>
      have hchar : ∀ c ∈ referable, '\x7b' ∉ [c] := forall_mem_of_all (by decide)
      have hreference : '\x7b' ∉ reference c :=
        fun hm => absurd (reference_subset hc hm) (by decide)
      have hone : Refers (referenceCount c) [c] (reference c) := by
        have hone := Refers.reference hc .nil
        rwa [Nat.zero_add, List.append_nil] at hone
      rw [← List.singleton_append, braces_split_append (hchar c hc),
        braces_split_append hreference, Nat.add_comm]
      exact (ih h).prepend hone
  | hit c s p j hs ih =>
    obtain ⟨hrule, hdrop⟩ := bindingAt?_refers h
    cases h with
    | @char n _ w _ h =>
      have hrest : Refers n (s.drop (j - 1)) (w.drop (j - 1)) := by
        cases j with
        | zero => exact h
        | succ j => exact hdrop p (j + 1) hs
      rw [split_cons_of_some hs, split_cons_of_some (hrule.trans hs), ← Nat.zero_add n]
      exact .binding .nil p (ih hrest)
    | reference hc h =>
      -- no binding begins at a character that has a reference
      have hne : ∀ c ∈ referable, c ≠ '\x7b' := forall_mem_of_all (by decide)
      rw [braces_bindingAt?_of_ne (hne c hc)] at hs
      exact absurd hs (by simp)

end Split

end Delimiters

namespace Expression
open Text Html Literal

/-! ## Backslashes and commas -/

/-- A character of a literal has as many backslashes and commas in each of its spellings. -/
def weight (s : Text) : ℕ := s.count '\\' + s.count ','

theorem weight_append (s t : Text) : weight (s ++ t) = weight s + weight t := by
  rw [weight, weight, weight, List.count_append, List.count_append]
  omega

theorem weight_quoted (s : Text) : weight ('\'' :: s ++ ['\'']) = weight s := by
  have hquote : weight ['\''] = 0 := by decide
  rw [← List.singleton_append, weight_append, weight_append, hquote, Nat.zero_add, Nat.add_zero]

theorem Spells.weight_eq {c : Char} {e : Text} (h : Spells c e) :
    weight e = weight (escapeChar c) := by
  cases h with
  | plain hp =>
    by_cases hc : c ∈ escaped
    · simp only [escaped, List.mem_cons, List.not_mem_nil, or_false] at hc
      rcases hc with rfl | rfl | rfl | rfl | rfl | rfl
      · exact absurd hp (by decide)
      · exact absurd hp (by decide)
      · exact absurd hp (by decide)
      · exact absurd hp (by decide)
      · decide
      · decide
    · rw [escapeChar_of_notMem hc]
  | backslash => decide
  | quote => decide
  | carriageReturn => decide
  | lineFeed => decide
  | comma => decide

theorem SpellsAll.weight_eq {v s : Text} (h : SpellsAll v s) : weight s = weight (escape v) := by
  induction h with
  | nil => rfl
  | cons hc _ ih => rw [escape_cons, weight_append, weight_append, hc.weight_eq, ih]

def Term.weight : Term → ℕ
  | .literal v => Expression.weight (escape v)
  | .call c => Expression.weight c

/-- The backslashes and commas of all terms. -/
def Term.weights (ts : List Term) : ℕ := ts.foldr (fun t n => t.weight + n) 0

theorem Term.Reads.weight_eq {s : Text} {t : Term} (h : t.Reads s) :
    Expression.weight s = t.weight := by
  cases h with
  | literal h => rw [weight_quoted, h.weight_eq, Term.weight]
  | call _ _ => rfl

/-- All readings of a text have its backslashes and commas. -/
theorem Reads.weight_eq {s : Text} {ts : List Term} (h : Reads s ts) :
    weight s = Term.weights ts := by
  induction h with
  | single h => exact h.weight_eq
  | sum h _ ih =>
    have hplus : weight plus = 0 := by decide
    rw [weight_append, weight_append, hplus, h.weight_eq, ih, Nat.add_zero]
    rfl

/-! ## Decoding -/

/-- `s` is decoded as `r`, whatever follows. -/
def DecodesTo (s r : Text) : Prop := ∀ y, decodeReferences (s ++ y) = r ++ decodeReferences y

theorem DecodesTo.append {s r t u : Text} (h : DecodesTo s r) (ht : DecodesTo t u) :
    DecodesTo (s ++ t) (r ++ u) := by
  intro y
  rw [List.append_assoc, h, ht, List.append_assoc]

theorem decodesTo_self {s : Text} (h : '&' ∉ s) : DecodesTo s s := by
  induction s with
  | nil => exact fun _ => rfl
  | cons c s ih =>
    rw [List.mem_cons, not_or] at h
    intro y
    rw [List.cons_append, decodeReferences_cons (Ne.symm h.1), ih h.2, List.cons_append]

/-- A literal loses one backslash with every quote or backslash that is a reference, and without
such a reference it is spelled as before. -/
theorem decodesTo_escape {n : ℕ} {v w : Text} (h : Refers n v w) (hv : '&' ∉ v) :
    ∃ r, DecodesTo (escape w) r ∧ weight r + n = weight (escape v) ∧
      (n = 0 → SpellsAll v r) := by
  induction h with
  | nil => exact ⟨[], fun _ => rfl, rfl, fun _ => .nil⟩
  | @char n v w c _ ih =>
    rw [List.mem_cons, not_or] at hv
    obtain ⟨r, hr, hweight, hspells⟩ := ih hv.2
    have hchar : ∃ e, DecodesTo (escapeChar c) e ∧ Spells c e := by
      by_cases hc : c = '"'
      · subst hc
        exact ⟨['"'], decodeReferences_quot, .plain (by decide)⟩
      · exact ⟨escapeChar c, decodesTo_self (ampersand_notMem_escapeChar hc (Ne.symm hv.1)),
          spells_escapeChar hc⟩
    obtain ⟨e, he, hc⟩ := hchar
    refine ⟨e ++ r, ?_, ?_, fun hn => .cons hc (hspells hn)⟩
    · rw [escape_cons]
      exact he.append hr
    · rw [escape_cons, weight_append, weight_append, hc.weight_eq, Nat.add_assoc, hweight]
  | @reference n v w c hc _ ih =>
    rw [List.mem_cons, not_or] at hv
    obtain ⟨r, hr, hweight, hspells⟩ := ih hv.2
    have hchars : ∀ c ∈ referable, weight [c] + referenceCount c = weight (escapeChar c) ∧
        (referenceCount c = 0 → c ∉ ['\'', '\\', '\r', '\n']) :=
      forall_mem_of_all (by decide)
    obtain ⟨hone, hcomma⟩ := hchars c hc
    have hescaped : ∀ x ∈ referenceChars, x ∉ escaped := forall_mem_of_all (by decide)
    have hplain : ∀ x ∈ reference c, x ∉ escaped :=
      fun x hx => hescaped x (reference_subset hc hx)
    refine ⟨[c] ++ r, ?_, ?_, fun hn => ?_⟩
    · rw [escape_append, escape_eq_self hplain]
      exact DecodesTo.append (decodeReferences_reference hc) hr
    · rw [escape_cons, weight_append, weight_append]
      omega
    · exact .cons (.plain (hcomma (by omega))) (hspells (by omega))

/-! ## Terms -/

/-- Decoded, `s` has `n` backslashes and commas fewer than the term, and without this loss it is read
as the term. -/
def Decodes (n : ℕ) (s : Text) (t : Term) : Prop :=
  ∃ r, DecodesTo s r ∧ weight r + n = t.weight ∧ (n = 0 → t.Reads r)

inductive DecodesAll : ℕ → List Text → List Term → Prop where
  | nil : DecodesAll 0 [] []
  | cons {n m : ℕ} {s : Text} {t : Term} {ss : List Text} {ts : List Term} (h : Decodes n s t)
      (hs : DecodesAll m ss ts) : DecodesAll (n + m) (s :: ss) (t :: ts)

theorem DecodesTo.quoted {s r : Text} (h : DecodesTo s r) :
    DecodesTo ('\'' :: s ++ ['\'']) ('\'' :: r ++ ['\'']) := by
  have hend : DecodesTo ['\''] ['\''] := decodesTo_self (by decide)
  rw [← List.singleton_append, ← List.singleton_append]
  exact (hend.append h).append hend

theorem decodes_quote {n : ℕ} {v w : Text} (h : Refers n v w) (hv : '&' ∉ v) :
    Decodes n (quote w) (.literal v) := by
  obtain ⟨r, hr, hweight, hspells⟩ := decodesTo_escape h hv
  exact ⟨'\'' :: r ++ ['\''], hr.quoted, by rw [weight_quoted, hweight, Term.weight],
    fun hn => .literal (hspells hn)⟩

theorem decodes_call {p : Text} (hp : Accessor.IsPath p) :
    Decodes 0 (Accessor.call p) (.call (Accessor.call p)) := by
  obtain ⟨q, hq, hr, he⟩ := Accessor.call_eq_append hp
  refine ⟨Accessor.call p, decodesTo_self (Accessor.notMem_call hp (by decide) (by decide)), rfl,
    fun _ => ?_⟩
  rw [he]
  exact .call hq hr

theorem DecodesAll.exists_sum {n : ℕ} {ss : List Text} {ts : List Term} (h : DecodesAll n ss ts)
    (hne : ss ≠ []) : ∃ r, DecodesTo (List.intercalate plus ss) r ∧
      weight r + n = Term.weights ts ∧ (n = 0 → Reads r ts) := by
  induction h with
  | nil => exact absurd rfl hne
  | @cons n m s t ss ts h hs ih =>
    obtain ⟨r, hr, hweight, hreads⟩ := h
    cases hs with
    | nil =>
      refine ⟨r, ?_, ?_, fun hn => .single (hreads hn)⟩
      · rwa [List.intercalate_singleton]
      · exact hweight
    | @cons k l s' t' ss ts h' hs =>
      obtain ⟨r', hr', hweight', hreads'⟩ := ih (List.cons_ne_nil s' ss)
      have hplus : weight plus = 0 := by decide
      refine ⟨r ++ plus ++ r', ?_, ?_, fun hn => .sum (hreads (by omega)) (hreads' (by omega))⟩
      · rw [List.intercalate_cons_cons]
        exact (hr.append (decodesTo_self (by decide))).append hr'
      · have hsum : Term.weights (t :: t' :: ts) = t.weight + Term.weights (t' :: ts) := rfl
        rw [hsum, weight_append, weight_append, hplus]
        omega

/-! ## Expressions -/

section Chunks

variable {n : ℕ} {cs ds : List Text} (h : Delimiters.ChunksRefer n cs ds)
include h

theorem seed_refers : seed ds = seed cs := by
  cases h with
  | @last n s w h =>
    cases s <;> cases w
    · rfl
    · exact absurd (h.eq_nil_iff.1 rfl) (List.cons_ne_nil _ _)
    · exact absurd (h.eq_nil_iff.2 rfl) (List.cons_ne_nil _ _)
    · rfl
  | @binding n m s w cs ds h p hr =>
    cases s <;> cases w
    · cases hr with
      | @last m s w hr =>
        cases s <;> cases w
        · rfl
        · exact absurd (hr.eq_nil_iff.1 rfl) (List.cons_ne_nil _ _)
        · exact absurd (hr.eq_nil_iff.2 rfl) (List.cons_ne_nil _ _)
        · rfl
      | binding _ _ _ => simp [seed, isLone]
    · exact absurd (h.eq_nil_iff.1 rfl) (List.cons_ne_nil _ _)
    · exact absurd (h.eq_nil_iff.2 rfl) (List.cons_ne_nil _ _)
    · rfl

theorem decodesAll_terms (hproper : ∀ c ∈ Chunk.alternate false cs, IsProper c) :
    DecodesAll n ((Chunk.alternate false ds).filterMap (term? []))
      ((Chunk.alternate false cs).filterMap term) := by
  have hliteral {n : ℕ} {s w : Text} (h : Refers n s w) (hs : '&' ∉ s) {ss : List Text}
      {ts : List Term} {m : ℕ} (hall : DecodesAll m ss ts) :
      DecodesAll (n + m) ((term? [] (.literal w)).toList ++ ss)
        ((term (.literal s)).toList ++ ts) := by
    cases s <;> cases w
    · cases h
      rwa [Nat.zero_add]
    · exact absurd (h.eq_nil_iff.1 rfl) (List.cons_ne_nil _ _)
    · exact absurd (h.eq_nil_iff.2 rfl) (List.cons_ne_nil _ _)
    · exact .cons (decodes_quote h hs) hall
  have hcons {α β : Type} (f : α → Option β) (a : α) (l : List α) :
      (a :: l).filterMap f = (f a).toList ++ l.filterMap f := by
    rw [List.filterMap_cons]
    cases f a <;> rfl
  induction h with
  | last h =>
    simp only [Chunk.alternate, hcons]
    exact hliteral h (hproper _ List.mem_cons_self) .nil
  | binding h p hr ih =>
    simp only [Chunk.alternate, List.forall_mem_cons] at hproper
    have hcall := DecodesAll.cons (decodes_call hproper.2.1) (ih hproper.2.2)
    rw [Nat.zero_add] at hcall
    simp only [Chunk.alternate, hcons]
    exact hliteral h hproper.1 hcall

/-- Decoded, an expression is read as the chunks without references if and only if none of their
quotes and backslashes is written as one. -/
theorem reads_decoded_iff (output : Delimiters)
    (hproper : ∀ c ∈ Chunk.alternate false cs, IsProper c) :
    Reads (decodeReferences (compile output [] ds).expression) (reading cs) ↔ n = 0 := by
  have hne : ds ≠ [] := by
    rintro rfl
    cases h
  have hseed {m : ℕ} {ss : List Text} {ts : List Term} (hall : DecodesAll m ss ts) :
      DecodesAll m (seed cs ++ ss) ((seed cs).map (fun _ => .literal []) ++ ts) := by
    unfold seed
    split
    · split
      · exact hall
      · have hcons := DecodesAll.cons (decodes_quote .nil (List.not_mem_nil)) hall
        rwa [Nat.zero_add] at hcons
    · exact hall
  have hterms : terms [] ds = seed cs ++ (Chunk.alternate false ds).filterMap (term? []) := by
    rw [terms, seed_refers h]
  obtain ⟨r, hr, hweight, hreads⟩ :=
    (hseed (decodesAll_terms h hproper)).exists_sum (hterms ▸ terms_ne_nil hne)
  have hdecode : decodeReferences (compile output [] ds).expression = r := by
    have hnil : decodeReferences [] = [] := rfl
    have hend := hr []
    rwa [← hterms, hnil, List.append_nil, List.append_nil] at hend
  rw [hdecode]
  refine ⟨fun h => ?_, hreads⟩
  have hsum := h.weight_eq
  rw [reading, ← hweight] at hsum
  exact (Nat.left_eq_add.1 hsum)

end Chunks

/-- A text is compiled like the same text with references in it, if these are commas. -/
theorem reads_decoded_split_iff {n : ℕ} {s w : Text} (h : Refers n s w) (ha : '&' ∉ s)
    (output : Delimiters) :
    Reads (decodeReferences (compile output [] (Delimiters.braces.split w)).expression)
      (reading (Delimiters.braces.split s)) ↔ n = 0 := by
  refine reads_decoded_iff (Delimiters.chunksRefer_split h) output fun c hc => ?_
  cases c with
  | literal t => exact fun ht => ha (Delimiters.mem_of_literal_mem hc ht)
  | path p => exact Delimiters.isPath_of_path_mem hc

end Expression
end InlineBinding
