import InlineBinding.Proofs.Html.Words

/-!
# What the tokens leave out

Tokens do not hold all of the markup. End tags lose what stands in them, declarations of the
document type are skipped, a tag that the input cuts off loses its attributes, and an attribute
that is given again its value. Words in all other places come to stand in a token.
-/
namespace InlineBinding.Html
open Text

/-- A word of the tag's name, or of an attribute's name or value. -/
def Tag.Holds (w : Text) (t : Tag) : Prop :=
  w <:+: t.name ∨ ∃ a ∈ t.attributes, w <:+: a.1 ∨ w <:+: a.2

instance (w : Text) (t : Tag) : Decidable (t.Holds w) := inferInstanceAs (Decidable (_ ∨ _))

def Token.Holds (w : Text) : Token → Prop
  | .text data | .raw data | .comment data => w <:+: data
  | .startTag tag _ => tag.Holds w
  | .endTag _ | .cutTag _ => False

def Token.startTag? : Token → Option Tag
  | .startTag tag _ => some tag
  | _ => none

/-! ## Skipped parts -/

/-- Values of attributes whose names have been given before, `found` among them. -/
def repeatedValues (found : List (Text × Text)) : Text → List Text
  | [] => []
  | c :: s =>
    if isBlank c then repeatedValues found s
    else if c = '>' then []
    else if c = '/' then if s.head? = some '>' then [] else repeatedValues found s
    else
      let name := asciiLower (c :: s.takeWhile isAttributeChar)
      let value := attributeValue (s.dropWhile isAttributeChar)
      (if found.any (·.1 == name) then value.1.toList else []) ++
        repeatedValues (addAttribute found name value.1) value.2
termination_by s => s.length
decreasing_by
  · simp
  · simp
  · have := length_attributeValue_le (s.dropWhile isAttributeChar)
    have := length_dropWhile_le isAttributeChar s
    simp only [List.length_cons]
    omega

/-- From a start tag, from its name on. -/
def startTagSkips (s : Text) : List Text :=
  if (readAttributes [] (s.dropWhile isTagChar)).isNone then [s]
  else repeatedValues [] (s.dropWhile isTagChar)

/-- From an end tag, from behind its slash: all of it. -/
def endTagSkips (s : Text) : List Text :=
  if s.head?.any isLetter then
    match readAttributes [] (s.dropWhile isTagChar) with
    | none => [s]
    | some (_, _, rest) => [s.take (s.length - rest.length)]
  else []

/-- From behind an opening angle and an exclamation mark: the declaration of a document type. -/
def declarationSkips (s : Text) : List Text :=
  if "--".toList.isPrefixOf s then []
  else if startsWith "doctype".toList s then [(untilAngle s).1]
  else []

/-- From behind an opening angle. -/
def markupSkips (s : Text) : List Text :=
  match s with
  | '/' :: r => endTagSkips r
  | '!' :: r => declarationSkips r
  | c :: _ => if isLetter c then startTagSkips s else []
  | [] => []

/-- The parts of the markup that no token holds. -/
def skipped : Text → List Text
  | [] => []
  | c :: s => (if c = '<' then markupSkips s else []) ++ skipped (step c s).2
termination_by s => s.length
decreasing_by
  have := length_step_le c s
  simp only [List.length_cons]
  omega

/-! ## Attributes -/

section Attributes

variable {w s : Text} (hw : Word w)

include hw

theorem Word.infix_attributeValue (ha : '&' ∉ s) (h : w <:+: s) :
    (∃ v, (attributeValue s).1 = some v ∧ w <:+: v) ∨ w <:+: (attributeValue s).2 := by
  have h := infix_skipBlank hw.solid h
  have hsuffix : skipBlank s <:+ s := List.dropWhile_suffix _
  rw [attributeValue]
  split
  · rename_i r hr
    rw [hr] at h hsuffix
    have h := infix_skipBlank hw.solid (hw.infix_tail (by decide) h)
    have hsuffix : skipBlank r <:+ s :=
      (List.dropWhile_suffix _).trans ((List.suffix_cons '=' r).trans hsuffix)
    split
    · rename_i he
      rw [he] at h
      exact absurd (List.infix_nil.1 h) hw.ne_nil
    · rename_i c t he
      rw [he] at h hsuffix
      have hdecode {v : Text} (hv : v ⊆ c :: t) (h : w <:+: v) : w <:+: decodeReferences v := by
        rwa [decodeReferences_eq_self fun hm => ha (hsuffix.subset (hv hm))]
      split
      · rename_i hq
        have hc : isWordChar c = false := by
          rw [Bool.or_eq_true, decide_eq_true_eq, decide_eq_true_eq] at hq
          rcases hq with rfl | rfl <;> decide
        rcases hw.infix_takeWhile_or (fun _ => ne_of_isWordChar hc) (hw.infix_tail hc h)
          with h | h
        · have hsub : t.takeWhile (· != c) ⊆ c :: t := fun x hx =>
            List.mem_cons_of_mem c ((List.takeWhile_prefix _).subset hx)
          exact Or.inl ⟨_, rfl, hdecode hsub h⟩
        · refine Or.inr ?_
          cases hd : t.dropWhile (· != c) with
          | nil =>
            rw [hd] at h
            exact absurd (List.infix_nil.1 h) hw.ne_nil
          | cons x u =>
            have hx : x = c := by simpa [hd] using List.head?_dropWhile_not (· != c) t
            rw [hd, hx] at h
            exact hw.infix_tail hc h
      · rcases hw.infix_takeWhile_or (fun _ => isUnquotedChar_of_isWordChar) h with h | h
        · exact Or.inl ⟨_, rfl, hdecode (List.takeWhile_prefix _).subset h⟩
        · exact Or.inr h
  · exact Or.inr h

end Attributes

theorem subset_addAttribute (found : List (Text × Text)) (name : Text) (value : Option Text) :
    found ⊆ addAttribute found name value := by
  rw [addAttribute]
  split
  · exact List.Subset.refl _
  · exact List.subset_append_left _ _

theorem exists_mem_addAttribute (found : List (Text × Text)) (name : Text) (value : Option Text) :
    ∃ v, (name, v) ∈ addAttribute found name value := by
  rw [addAttribute]
  split
  · rename_i h
    obtain ⟨a, ha, he⟩ := List.any_eq_true.1 h
    exact ⟨a.2, beq_iff_eq.1 he ▸ ha⟩
  · exact ⟨_, List.mem_append_right _ List.mem_cons_self⟩

section Inside

variable {found as : List (Text × Text)} {s rest : Text} {slash : Bool}

theorem subset_readAttributes (h : readAttributes found s = some (as, slash, rest)) :
    found ⊆ as := by
  fun_induction readAttributes found s with
  | case1 => exact absurd h (by simp)
  | case2 _ _ _ _ ih => exact ih h
  | case3 =>
    obtain ⟨rfl, -⟩ := Prod.mk.inj (Option.some.inj h)
    exact List.Subset.refl _
  | case4 =>
    obtain ⟨rfl, -⟩ := Prod.mk.inj (Option.some.inj h)
    exact List.Subset.refl _
  | case5 _ _ _ _ _ ih => exact ih h
  | case6 _ _ _ _ _ _ _ ih => exact List.Subset.trans (subset_addAttribute _ _ _) (ih h)

/-- What stands inside a tag is held by its attributes, unless the value repeats one. -/
theorem Word.infix_readAttributes {w : Text} (hw : Word w) (ha : '&' ∉ s) (hs : w <:+: s)
    (h : readAttributes found s = some (as, slash, rest)) :
    (∃ a ∈ as, w <:+: a.1 ∨ w <:+: a.2) ∨ (∃ v ∈ repeatedValues found s, w <:+: v) ∨
      w <:+: rest := by
  fun_induction readAttributes found s with
  | case1 => exact absurd (List.infix_nil.1 hs) hw.ne_nil
  | case2 found c s hc ih =>
    have hword : isWordChar c = false := by
      by_contra hn
      rw [(isNameChar_cases (isNameChar_of_isWordChar (by simpa using hn))).2.1] at hc
      exact Bool.noConfusion hc
    rw [repeatedValues, if_pos hc]
    exact ih (fun hm => ha (List.mem_cons_of_mem c hm)) (hw.infix_tail hword hs) h
  | case3 =>
    obtain ⟨-, he⟩ := Prod.mk.inj (Option.some.inj h)
    rw [← (Prod.mk.inj he).2]
    exact Or.inr (Or.inr (hw.infix_tail (by decide) hs))
  | case4 _ s hangle =>
    obtain ⟨-, he⟩ := Prod.mk.inj (Option.some.inj h)
    obtain ⟨r, rfl⟩ := List.head?_eq_some_iff.1 hangle
    rw [← (Prod.mk.inj he).2]
    exact Or.inr (Or.inr (hw.infix_tail (by decide) (hw.infix_tail (by decide) hs)))
  | case5 found s hs' hb hgt ih =>
    rw [repeatedValues, if_neg hb, if_neg hgt, if_pos rfl, if_neg hs']
    exact ih (fun hm => ha (List.mem_cons_of_mem '/' hm)) (hw.infix_tail (by decide) hs) h
  | case6 found c s hb hgt hslash value ih =>
    have hsuffix : s.dropWhile isAttributeChar <:+ s := List.dropWhile_suffix _
    have hamp : '&' ∉ s := fun hm => ha (List.mem_cons_of_mem c hm)
    rw [repeatedValues, if_neg hb, if_neg hgt, if_neg hslash]
    rw [← List.takeWhile_append_dropWhile (p := isAttributeChar) (l := s), ← List.cons_append] at hs
    have hfound := subset_readAttributes h
    rcases hw.infix_run (fun _ => isAttributeChar_of_isWordChar) hs with hs | hs
    · obtain ⟨v, hv⟩ := exists_mem_addAttribute found
        (asciiLower (c :: s.takeWhile isAttributeChar)) value.1
      exact Or.inl ⟨_, hfound hv, Or.inl (hw.infix_asciiLower hs)⟩
    rcases hw.infix_attributeValue (fun hm => hamp (hsuffix.subset hm)) hs with ⟨v, hv, hs⟩ | hs
    · by_cases hany : found.any (·.1 == asciiLower (c :: s.takeWhile isAttributeChar)) = true
      · refine Or.inr (Or.inl ⟨v, List.mem_append_left _ ?_, hs⟩)
        rw [if_pos hany, hv]
        exact List.mem_singleton_self v
      · refine Or.inl ⟨(asciiLower (c :: s.takeWhile isAttributeChar), v), hfound ?_, Or.inr hs⟩
        rw [addAttribute, if_neg hany, show value.1 = some v from hv]
        exact List.mem_append_right _ List.mem_cons_self
    · have hvalue : '&' ∉ value.2 := fun hm =>
        hamp (hsuffix.subset ((suffix_attributeValue _).subset hm))
      rcases ih hvalue hs h with h | ⟨v, hv, h⟩ | h
      · exact Or.inl h
      · exact Or.inr (Or.inl ⟨v, List.mem_append_right _ hv, h⟩)
      · exact Or.inr (Or.inr h)

end Inside

/-! ## Other markup -/

section Seams

variable (name s : Text)

variable {name s} in
theorem head_of_endsAt {c : Char} (h : endsAt name (c :: s) = true) : c = '<' := by
  rw [endsAt, Bool.and_eq_true, Bool.and_eq_true, List.isPrefixOf_iff_prefix] at h
  exact (List.cons_prefix_cons.1 h.1.1).1.symm

/-- Raw text goes up to an end tag. -/
theorem head?_rawText : ∀ c ∈ (rawText name s).2.head?, c = '<' := by
  have huntil : ∀ c ∈ (rawUntil name s).2.head?, c = '<' := by
    induction s with
    | nil => simp [rawUntil]
    | cons c s ih =>
      rw [rawUntil]
      split
      · rename_i h
        intro d hd
        rw [← Option.some.inj hd, head_of_endsAt h]
      · exact ih
  have hscript (q : ScriptState) : ∀ c ∈ (rawScript q s).2.head?, c = '<' := by
    clear huntil
    induction s generalizing q with
    | nil => simp [rawScript]
    | cons c s ih =>
      rw [rawScript]
      split
      · rename_i h
        rw [Bool.and_eq_true] at h
        intro d hd
        rw [← Option.some.inj hd, head_of_endsAt h.2]
      · exact ih _
  rw [rawText]
  split
  · simp
  · split
    · exact hscript .plain
    · exact huntil

/-- A comment ends in dashes and an angle, or where the input ends. -/
theorem commentBody_append : ∃ e, (commentBody s).1 ++ (e ++ (commentBody s).2) = s ∧
    (∀ c ∈ e, isWordChar c = false) ∧ (e = [] → (commentBody s).2 = []) := by
  induction s with
  | nil => exact ⟨[], rfl, by simp, fun _ => rfl⟩
  | cons c s ih =>
    rw [commentBody]
    split
    · rename_i h
      obtain ⟨r, hr⟩ := List.isPrefixOf_iff_prefix.1 h
      obtain ⟨rfl, rfl⟩ : c = '-' ∧ s = '-' :: '>' :: r := List.cons.inj hr.symm
      exact ⟨"-->".toList, rfl, forall_mem_of_all (by decide), fun h => absurd h (by decide)⟩
    · split
      · rename_i h
        obtain ⟨r, hr⟩ := List.isPrefixOf_iff_prefix.1 h
        obtain ⟨rfl, rfl⟩ : c = '-' ∧ s = '-' :: '!' :: '>' :: r := List.cons.inj hr.symm
        exact ⟨"--!>".toList, rfl, forall_mem_of_all (by decide), fun h => absurd h (by decide)⟩
      · split
        · rename_i h
          have hall : ∀ e ∈ [['-'], "--".toList, "--!".toList],
              (e.all fun c => decide (isWordChar c = false)) = true := by decide
          exact ⟨c :: s, List.append_nil _, forall_mem_of_all (hall _ (List.contains_iff_mem.1 h)),
            fun _ => rfl⟩
        · obtain ⟨e, hs, he⟩ := ih
          exact ⟨e, congrArg (c :: ·) hs, he⟩

theorem comment_append : ∃ e, (comment s).1 ++ (e ++ (comment s).2) = s ∧
    (∀ c ∈ e, isWordChar c = false) ∧ (e = [] → (comment s).2 = []) := by
  unfold comment
  split
  · exact ⟨">".toList, rfl, forall_mem_of_all (by decide), fun h => absurd h (by decide)⟩
  · exact ⟨"->".toList, rfl, forall_mem_of_all (by decide), fun h => absurd h (by decide)⟩
  · exact commentBody_append s

theorem untilAngle_append : ∃ e, (untilAngle s).1 ++ (e ++ (untilAngle s).2) = s ∧
    (∀ c ∈ e, isWordChar c = false) ∧ (e = [] → (untilAngle s).2 = []) := by
  have happend := List.takeWhile_append_dropWhile (p := (· != '>')) (l := s)
  rw [untilAngle]
  cases hd : s.dropWhile (· != '>') with
  | nil =>
    rw [hd] at happend
    exact ⟨[], happend, by simp, fun _ => rfl⟩
  | cons c r =>
    have hc : c = '>' := by simpa [hd] using List.head?_dropWhile_not (· != '>') s
    rw [hd, hc] at happend
    exact ⟨['>'], happend, forall_mem_of_all (by decide), fun h => absurd h (by decide)⟩

end Seams

/-! ## One step -/

/-- After a step a word is in one of its tokens, in a part that it skips, or still to be read. -/
def Found (w : Text) (skips : List Text) (r : List Token × Text) : Prop :=
  (∃ t ∈ r.1, t.Holds w) ∨ (∃ z ∈ skips, w <:+: z) ∨ w <:+: r.2

section Step

variable {w s : Text} (hw : Word w)

include hw

theorem Word.found_characters {c : Char} (ha : '&' ∉ c :: s) (h : w <:+: c :: s) :
    Found w [] (characters c s) := by
  have hsub : c :: s.takeWhile (· != '<') ⊆ c :: s :=
    List.cons_subset_cons c (List.takeWhile_prefix _).subset
  have hdecode := decodeReferences_eq_self fun hm => ha (hsub hm)
  rw [← List.takeWhile_append_dropWhile (p := (· != '<')) (l := s), ← List.cons_append] at h
  rcases hw.infix_run (fun _ => ne_of_isWordChar (by decide)) h with h | h
  · refine Or.inl ⟨_, List.mem_singleton_self _, ?_⟩
    rw [Token.Holds, hdecode]
    exact h
  · exact Or.inr (Or.inr h)

theorem Word.found_bogusComment (h : w <:+: s) : Found w [] (bogusComment s) := by
  obtain ⟨e, hs, he, hend⟩ := untilAngle_append s
  rw [← hs] at h
  rcases hw.infix_seam he hend h with h | h
  · exact Or.inl ⟨_, List.mem_singleton_self _, h⟩
  · exact Or.inr (Or.inr h)

theorem Word.found_declaration (h : w <:+: s) :
    Found w (declarationSkips s) (declaration s) := by
  rw [declarationSkips, declaration]
  split
  · rename_i hp
    obtain ⟨r, rfl⟩ := List.isPrefixOf_iff_prefix.1 hp
    obtain ⟨e, hs, he, hend⟩ := comment_append r
    have h : w <:+: r := hw.infix_tail (by decide) (hw.infix_tail (by decide) h)
    rw [← hs] at h
    rcases hw.infix_seam he hend h with h | h
    · exact Or.inl ⟨_, List.mem_singleton_self _, h⟩
    · exact Or.inr (Or.inr h)
  · split
    · obtain ⟨e, hs, he, hend⟩ := untilAngle_append s
      rw [← hs] at h
      rcases hw.infix_seam he hend h with h | h
      · exact Or.inr (Or.inl ⟨_, List.mem_singleton_self _, h⟩)
      · exact Or.inr (Or.inr h)
    · exact hw.found_bogusComment h

theorem Word.found_endTag (h : w <:+: s) : Found w (endTagSkips s) (endTag s) := by
  unfold endTag
  split
  · exact absurd (List.infix_nil.1 h) hw.ne_nil
  · exact Or.inr (Or.inr (hw.infix_tail (by decide) h))
  · rename_i c r _
    rw [endTagSkips, List.head?_cons, Option.any_some]
    split
    · cases hr : readAttributes [] ((c :: r).dropWhile isTagChar) with
      | none => exact Or.inr (Or.inl ⟨c :: r, List.mem_singleton_self _, h⟩)
      | some found =>
        obtain ⟨as, slash, rest⟩ := found
        obtain ⟨a, ha⟩ := (suffix_readAttributes hr).trans (List.dropWhile_suffix _)
        have htake : (c :: r).take ((c :: r).length - rest.length) = a ++ ['>'] := by
          rw [← ha, List.append_cons, List.length_append, Nat.add_sub_cancel, List.take_left]
        rw [← ha] at h
        refine (infix_append_cons (hw.notMem (by decide)) h).elim (fun h => ?_) fun h => ?_
        · refine Or.inr (Or.inl ⟨_, List.mem_singleton_self _, ?_⟩)
          rw [htake]
          exact h.trans (List.prefix_append a ['>']).isInfix
        · exact Or.inr (Or.inr h)
    · exact hw.found_bogusComment h

theorem Word.found_startTag (ha : '&' ∉ s) (h : w <:+: s) :
    Found w (startTagSkips s) (startTag s) := by
  rw [startTagSkips, startTag]
  cases hr : readAttributes [] (s.dropWhile isTagChar) with
  | none => exact Or.inr (Or.inl ⟨s, List.mem_singleton_self s, h⟩)
  | some r =>
    obtain ⟨as, slash, rest⟩ := r
    have hinside : s.dropWhile isTagChar <:+ s := List.dropWhile_suffix _
    have hrest : rest <:+ s :=
      (List.suffix_cons '>' rest).trans ((suffix_readAttributes hr).trans hinside)
    have hheld : Tag.Holds w ⟨asciiLower (s.takeWhile isTagChar), as⟩ ∨
        (∃ z ∈ repeatedValues [] (s.dropWhile isTagChar), w <:+: z) ∨ w <:+: rest := by
      rcases hw.infix_takeWhile_or (fun _ => isTagChar_of_isWordChar) h with h | h
      · exact Or.inl (Or.inl (hw.infix_asciiLower h))
      · exact (hw.infix_readAttributes (fun hm => ha (hinside.subset hm)) h hr).imp Or.inr id
    have htag : Tag.Holds w ⟨asciiLower (s.takeWhile isTagChar), as⟩ →
        Token.Holds w (.startTag ⟨asciiLower (s.takeWhile isTagChar), as⟩ slash) := id
    rw [Option.isNone_some, if_neg Bool.false_ne_true]
    dsimp only
    split
    · rcases hheld with h | h | h
      · exact Or.inl ⟨_, List.mem_cons_self, htag h⟩
      · exact Or.inr (Or.inl h)
      · have hraw : (rawText (asciiLower (s.takeWhile isTagChar)) rest).1 <+: rest :=
          ⟨_, rawText_append _ rest⟩
        rw [← rawText_append (asciiLower (s.takeWhile isTagChar)) rest] at h
        rcases hw.infix_append_or (fun c hc => head?_rawText _ _ c hc ▸ by decide) h with h | h
        · refine Or.inl ⟨_, List.mem_cons_of_mem _ (List.mem_singleton_self _), ?_⟩
          have hdecode : decodeReferences (rawText (asciiLower (s.takeWhile isTagChar)) rest).1 =
              (rawText (asciiLower (s.takeWhile isTagChar)) rest).1 :=
            decodeReferences_eq_self fun hm => ha (hrest.subset (hraw.subset hm))
          rw [Token.Holds, hdecode, ite_self]
          exact h
        · exact Or.inr (Or.inr h)
    · rcases hheld with h | h | h
      · exact Or.inl ⟨_, List.mem_cons_self, htag h⟩
      · exact Or.inr (Or.inl h)
      · exact Or.inr (Or.inr h)

theorem Word.found_markup (ha : '&' ∉ s) (h : w <:+: s) :
    Found w (markupSkips s) (markup s) := by
  unfold markup
  split
  · exact hw.found_endTag (hw.infix_tail (by decide) h)
  · exact hw.found_declaration (hw.infix_tail (by decide) h)
  · exact hw.found_bogusComment h
  · rename_i c r hslash hbang _
    have hskips : markupSkips (c :: r) = if isLetter c then startTagSkips (c :: r) else [] := by
      unfold markupSkips
      split
      · rename_i he
        exact (hslash (List.cons.inj he).1).elim
      · rename_i he
        exact (hbang (List.cons.inj he).1).elim
      · rename_i he
        rw [he]
        obtain ⟨rfl, -⟩ := List.cons.inj he
        rfl
      · rename_i he
        exact absurd he (List.cons_ne_nil c r)
    rw [hskips]
    split
    · exact hw.found_startTag ha h
    · exact hw.found_characters (by simpa using ha) (List.infix_cons h)
  · exact absurd (List.infix_nil.1 h) hw.ne_nil

theorem Word.found_step {c : Char} (ha : '&' ∉ c :: s) (h : w <:+: c :: s) :
    Found w (if c = '<' then markupSkips s else []) (step c s) := by
  rw [step]
  split
  · rename_i hc
    rw [hc] at h
    exact hw.found_markup (fun hm => ha (List.mem_cons_of_mem c hm)) (hw.infix_tail (by decide) h)
  · exact hw.found_characters ha h

end Step

/-- Words of the input that no token holds stand in the skipped parts. -/
theorem Word.holds_lex {w s : Text} (hw : Word w) (ha : '&' ∉ s) (h : w <:+: s) :
    (∃ t ∈ lex s, t.Holds w) ∨ ∃ z ∈ skipped s, w <:+: z := by
  induction hn : s.length using Nat.strong_induction_on generalizing s with
  | _ n ih =>
  cases s with
  | nil => exact absurd (List.infix_nil.1 h) hw.ne_nil
  | cons c s =>
    rw [lex_cons, skipped]
    rcases hw.found_step ha h with ⟨t, ht, hw'⟩ | ⟨z, hz, hw'⟩ | hrest
    · exact Or.inl ⟨t, List.mem_append_left _ ht, hw'⟩
    · exact Or.inr ⟨z, List.mem_append_left _ hz, hw'⟩
    · have hlength : (step c s).2.length < n := by
        rw [← hn]
        exact Nat.lt_succ_of_le (length_step_le c s)
      have hamp : '&' ∉ (step c s).2 := fun hm =>
        ha (List.mem_cons_of_mem c ((suffix_step c s).subset hm))
      rcases ih _ hlength hamp hrest rfl with ⟨t, ht, hw'⟩ | ⟨z, hz, hw'⟩
      · exact Or.inl ⟨t, List.mem_append_right _ ht, hw'⟩
      · exact Or.inr ⟨z, List.mem_append_right _ hz, hw'⟩

end InlineBinding.Html
