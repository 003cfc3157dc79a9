import InlineBinding.Proofs.Expression.Meaning

/-!
# Escaping and its inverse

The passes of escaping are one substitution, since no pass finds anything in what an earlier one has
written. It is undone by reading the references to double quotes first and then the spellings from
left to right, unless the text itself holds such a reference.
-/
namespace InlineBinding.Literal
open Text Expression

/-! ## Passes as one substitution -/

/-- What a table with single characters as its keys puts for a character. -/
def substitute (table : List (Text × Text)) (c : Char) : Text := (table.lookup [c]).getD [c]

theorem substitute_cons (a c : Char) (new : Text) (table : List (Text × Text)) :
    substitute (([a], new) :: table) c = if c = a then new else substitute table c := by
  by_cases h : c = a
  · rw [if_pos h, h, substitute, List.lookup_cons_self, Option.getD_some]
  · have hne : ([c] == [a]) = false := by simpa using h
    rw [if_neg h, substitute, List.lookup_cons, hne, substitute]

/-- Characters that are no keys are kept. -/
theorem flatMap_substitute_eq_self {table : List (Text × Text)} {t : Text}
    (h : ∀ r ∈ table, ¬ r.1 <:+: t) : t.flatMap (substitute table) = t := by
  rw [List.flatMap_congr (g := fun c => [c]), List.flatMap_singleton']
  intro c hc
  have hnone : table.lookup [c] = none := by
    rw [List.lookup_eq_none_iff]
    intro r hr
    rw [bne_iff_ne]
    intro he
    exact h r hr (he ▸ (List.singleton_infix_iff c t).2 hc)
  rw [substitute, hnone, Option.getD_none]

/-- A series of passes writes every character of the text as the table says, when no key stands in
what an earlier entry puts. -/
theorem foldl_replace_eq_flatMap {table : List (Text × Text)} (hkeys : ∀ r ∈ table, r.1.length = 1)
    (hlater : table.Pairwise fun r r' => ¬ r'.1 <:+: r.2) (s : Text) :
    table.foldl (fun t r => replace r.1 r.2 t) s = s.flatMap (substitute table) := by
  induction table generalizing s with
  | nil => exact (List.flatMap_singleton' s).symm
  | cons r table ih =>
    obtain ⟨key, new⟩ := r
    rw [List.forall_mem_cons] at hkeys
    rw [List.pairwise_cons] at hlater
    obtain ⟨a, rfl⟩ := List.length_eq_one_iff.1 hkeys.1
    rw [List.foldl_cons, ih hkeys.2 hlater.2, replace_singleton, List.flatMap_assoc]
    refine List.flatMap_congr fun c _ => ?_
    rw [substitute_cons]
    split
    · exact flatMap_substitute_eq_self hlater.1
    · exact List.flatMap_singleton _ c

/-- No pass finds anything in what an earlier one has written. -/
theorem pairwise_replacements : replacements.Pairwise fun r r' => ¬ r'.1 <:+: r.2 := by decide

theorem escape_eq_substitute (s : Text) : escape s = s.flatMap (substitute replacements) :=
  foldl_replace_eq_flatMap (by decide) pairwise_replacements s

/-! ## Reading spellings -/

/-- Spellings are read from left to right; all else stands for itself. -/
def unescape : Text → Text
  | '\\' :: '\\' :: s => '\\' :: unescape s
  | '\\' :: '\'' :: s => '\'' :: unescape s
  | '\\' :: 'r' :: s => '\r' :: unescape s
  | '\\' :: 'n' :: s => '\n' :: unescape s
  | '\\' :: 'x' :: '2' :: 'c' :: s => ',' :: unescape s
  | c :: s => c :: unescape s
  | [] => []

theorem unescape_cons {c : Char} (h : c ≠ '\\') (s : Text) :
    unescape (c :: s) = c :: unescape s := by
  rw [unescape] <;> simp [h]

theorem unescape_of_spells {c : Char} {e : Text} (h : Spells c e) (s : Text) :
    unescape (e ++ s) = c :: unescape s := by
  cases h with
  | plain hc =>
    refine unescape_cons (fun he => hc ?_) s
    rw [he]
    decide
  | backslash => rfl
  | quote => rfl
  | carriageReturn => rfl
  | lineFeed => rfl
  | comma => rfl

theorem spellsAll_cons {c : Char} {v s : Text} (hc : c ∉ ['\'', '\\', '\r', '\n'])
    (h : SpellsAll v s) : SpellsAll (c :: v) (c :: s) :=
  .cons (.plain hc) h

/-- What a text spells is read from it. -/
theorem unescape_of_spellsAll {v s : Text} (h : SpellsAll v s) : unescape s = v := by
  induction h with
  | nil => rfl
  | cons hc _ ih => rw [unescape_of_spells hc, ih]

/-! ## References in the text itself -/

/-- A reference in an escaped text stands for a double quote or was there before. -/
theorem reference_prefix_of_escape {t : Text} (h : quoteReference <+: '&' :: escape t) :
    quoteReference <+: '&' :: t := by
  obtain ⟨-, h⟩ := List.cons_prefix_cons.1 h
  rw [escape_eq_flatMap] at h
  refine List.cons_prefix_cons.2 ⟨rfl, prefix_of_prefix_flatMap (fun c => ?_) h⟩
  rcases escapeChar_cases c with ⟨-, he⟩ | ⟨-, e, he | he⟩
  · exact Or.inl he
  · exact Or.inr ⟨_, e, he, by decide⟩
  · exact Or.inr ⟨_, e, he, by decide⟩

/-- With its references read, an escaped text spells what it was made from. -/
theorem spellsAll_unreference {t : Text} (h : ¬ quoteReference <:+: t) :
    SpellsAll t (unreference (escape t)) := by
  induction t with
  | nil => exact .nil
  | cons c t ih =>
    have ih := ih fun hi => h (List.infix_cons hi)
    rw [escape_cons]
    by_cases hq : c = '\"'
    · subst hq
      rw [show escapeChar '\"' = quoteReference from rfl, unreference_quote]
      exact spellsAll_cons (by decide) ih
    by_cases ha : c = '&'
    · -- the ampersand itself begins no reference
      subst ha
      have hplain : escapeChar '&' = ['&'] := escapeChar_of_notMem (by decide)
      have hn : ¬ quoteReference <+: '&' :: escape t :=
        fun hp => h (reference_prefix_of_escape hp).isInfix
      have hne : quoteReference ≠ [] := List.cons_ne_nil _ _
      rw [hplain, List.singleton_append, unreference, replace_cons_of_not_begin _ hne hn]
      exact spellsAll_cons (by decide) ih
    · rw [unreference_append (ampersand_notMem_escapeChar hq ha)]
      exact .cons (spells_escapeChar hq) ih

/-- Escaping writes every character as the table says, whatever stands beside it, and no pass
rewrites what an earlier one has written. Reading the references to double quotes and then the
spellings undoes it. -/
theorem unescape_escape :
    (∀ a b : Text, escape (a ++ b) = escape a ++ escape b) ∧
      (∀ c, escape [c] = (replacements.lookup [c]).getD [c]) ∧
      replacements.Pairwise (fun r r' => replace r'.1 r'.2 r.2 = r.2) ∧
      ∀ t : Text, ¬ "&quot;".toList <:+: t →
        unescape (replace "&quot;".toList ['\"'] (escape t)) = t := by
  refine ⟨escape_append, fun c => ?_, ?_, fun t h => ?_⟩
  · rw [escape_eq_substitute, List.flatMap_singleton, substitute]
  · have hkeys : ∀ r ∈ replacements, r.1 ≠ [] := by decide
    exact pairwise_replacements.imp_of_mem fun _ hr h => replace_eq_self _ (hkeys _ hr) h
  · exact unescape_of_spellsAll (spellsAll_unreference h)

/-- Backslashes before a quote, before letters of spellings and at the end, and an ampersand before
the letters of a reference that is cut off. -/
theorem unescape_escape_backslashes :
    let t : Text := "\\\\'\\n\\x2c,\"&quot\r\n\\".toList
    ¬ "&quot;".toList <:+: t ∧
      escape t = "\\\\\\\\\\'\\\\n\\\\x2c\\x2c&quot;&quot\\r\\n\\\\".toList ∧
      unescape (replace "&quot;".toList ['\"'] (escape t)) = t := by
  intro t
  have h : ¬ "&quot;".toList <:+: t := by decide
  exact ⟨h, by decide, unescape_escape.2.2.2 t h⟩

end InlineBinding.Literal
