import InlineBinding.Proofs.Html.Normalized
import InlineBinding.Proofs.Html.Sections

/-!
# The first tag of an input

White space in front of the first tag is one text token, and it opens a root unless all of it is
blank. A tag that the end of the input cuts off is the last token.
-/
namespace InlineBinding.Html
open Text

/-! ## White space in front -/

section Front

variable {u r : Text}

/-- Signs that are neither angles nor ampersands. -/
def Flat (u : Text) : Prop := '<' ∉ u ∧ '&' ∉ u

theorem lex_flat (hu : Flat u) (r : Text) :
    lex (u ++ '<' :: r) = (if u.isEmpty then [] else [.text u]) ++ lex ('<' :: r) := by
  cases u with
  | nil => rfl
  | cons c u => exact lex_text (List.cons_ne_nil c u) hu.1 hu.2 (Or.inr rfl)

theorem findSome?_lex_flat (hu : Flat u) (r : Text) :
    (lex (u ++ '<' :: r)).findSome? Token.root? =
      if u.all isBlank then (lex ('<' :: r)).findSome? Token.root? else some ⟨Builder.html, []⟩ := by
  rw [lex_flat hu]
  cases hall : u.all isBlank with
  | true =>
    have hskip : skipBlank u = [] := List.dropWhile_eq_nil_iff.2 (List.all_eq_true.1 hall)
    have htext : (Token.text u).root? = none := by
      rw [Token.root?, hskip]
      rfl
    split
    · rfl
    · rw [List.singleton_append, List.findSome?_cons, htext]
      rfl
  | false =>
    have hskip : (skipBlank u).isEmpty = false := by
      rw [List.isEmpty_eq_false_iff]
      intro he
      rw [List.all_eq_true.2 (List.dropWhile_eq_nil_iff.1 he)] at hall
      exact Bool.noConfusion hall
    have htext : (Token.text u).root? = some ⟨Builder.html, []⟩ := by
      rw [Token.root?, hskip]
      rfl
    split
    · rename_i he
      rw [List.isEmpty_iff.1 he] at hall
      exact Bool.noConfusion hall
    · rw [List.singleton_append, List.findSome?_cons, htext]
      rfl

/-- A tag is read to its end, or it is the last token. -/
theorem lex_startTag_cases (hr : r.head?.any isLetter = true) :
    lex ('<' :: r) = [.cutTag (asciiLower (r.takeWhile isTagChar))] ∨
      ∃ as selfClosing ts,
        lex ('<' :: r) = .startTag ⟨asciiLower (r.takeWhile isTagChar), as⟩ selfClosing :: ts := by
  obtain ⟨c, s, rfl⟩ : ∃ c s, r = c :: s := by
    cases r with
    | nil => exact absurd hr (by simp)
    | cons c s => exact ⟨c, s, rfl⟩
  have hletter : isLetter c = true := hr
  have hstep : step '<' (c :: s) = startTag (c :: s) := by
    rw [step, if_pos rfl, markup_letter hletter]
  rw [lex_cons, hstep, startTag]
  cases hread : readAttributes [] ((c :: s).dropWhile isTagChar) with
  | none => exact Or.inl (by simp)
  | some found =>
    obtain ⟨as, selfClosing, rest⟩ := found
    refine Or.inr ⟨as, selfClosing, ?_⟩
    dsimp only
    split
    · exact ⟨_, rfl⟩
    · exact ⟨_, rfl⟩

theorem lex_startTag_cut (hr : r.head?.any isLetter = true) (hd : r.dropWhile isTagChar = []) :
    lex ('<' :: r) = [.cutTag (asciiLower r)] := by
  obtain ⟨c, s, rfl⟩ : ∃ c s, r = c :: s := by
    cases r with
    | nil => exact absurd hr (by simp)
    | cons c s => exact ⟨c, s, rfl⟩
  have htake : (c :: s).takeWhile isTagChar = c :: s :=
    List.takeWhile_eq_self_iff.2 (List.dropWhile_eq_nil_iff.1 hd)
  have hstep : step '<' (c :: s) = ([.cutTag (asciiLower (c :: s))], []) := by
    rw [step, if_pos rfl, markup_letter hr, startTag, hd, htake, readAttributes]
  rw [lex_cons, hstep, lex_nil]
  rfl

end Front

/-! ## Declarations -/

theorem doctype?_skipBlank (s : Text) : doctype? s = doctype? (skipBlank s) := by
  induction s with
  | nil => rfl
  | cons c s ih =>
    cases hc : isBlank c with
    | true => rw [doctype?, if_pos hc, ih, skipBlank, skipBlank, List.dropWhile_cons_of_pos hc]
    | false => rw [skipBlank, List.dropWhile_cons_of_neg (by simp [hc])]

theorem skipBlank_append {u : Text} (hu : u.all isBlank = true) (r : Text) :
    skipBlank (u ++ '<' :: r) = '<' :: r := by
  rw [skipBlank, List.dropWhile_append_of_pos (List.all_eq_true.1 hu)]
  exact List.dropWhile_cons_of_neg (by decide)

theorem doctype?_flat {u : Text} (hu : Flat u) (hb : u.all isBlank = false) (r : Text) :
    doctype? (u ++ r) = none := by
  induction u with
  | nil => exact Bool.noConfusion hb
  | cons c u ih =>
    cases hc : isBlank c with
    | true =>
      rw [List.cons_append, doctype?, if_pos hc]
      refine ih ⟨fun h => hu.1 (List.mem_cons_of_mem c h), fun h => hu.2 (List.mem_cons_of_mem c h)⟩ ?_
      rwa [List.all_cons, hc, Bool.true_and] at hb
    | false =>
      have hangle (p : Text) : ('<' :: p).isPrefixOf (c :: (u ++ r)) = false := by
        have hne : ('<' == c) = false := beq_eq_false_iff_ne.2 fun he => hu.1 (he ▸ List.mem_cons_self)
        rw [List.isPrefixOf, hne, Bool.false_and]
      have hcomment : "<!--".toList.isPrefixOf (c :: (u ++ r)) = false := hangle _
      have hquestion : "<?".toList.isPrefixOf (c :: (u ++ r)) = false := hangle _
      have hdeclaration : "<!".toList.isPrefixOf (c :: (u ++ r)) = false := hangle _
      rw [List.cons_append, doctype?, hc, hcomment, hquestion, hdeclaration]
      rfl

/-- A declaration is read from behind its keyword. -/
theorem doctype?_declaration {x : Text} (hx : asciiLower x = "!doctype".toList) (r : Text) :
    doctype? ('<' :: (x ++ r)) = some (Doctype.read r) := by
  have hword : "!doctype".toList = '!' :: "doctype".toList := by decide
  have hkey : "doctype".toList = 'd' :: "octype".toList := by decide
  rw [hword] at hx
  obtain ⟨e, y, rfl, he, hy⟩ := List.map_eq_cons_iff.1 hx
  obtain rfl := eq_of_asciiLowerChar he (by decide)
  have hlength : y.length = 7 := by
    rw [← length_asciiLower, asciiLower, hy]
    rfl
  have hcomment : "<!--".toList.isPrefixOf ('<' :: '!' :: (y ++ r)) = false := by
    rw [hkey] at hy
    obtain ⟨d, z, rfl, hd, -⟩ := List.map_eq_cons_iff.1 hy
    have hne : ('-' == d) = false := by
      rw [beq_eq_false_iff_ne]
      rintro rfl
      exact absurd hd (by decide)
    change (('-' == d) && _) = false
    rw [hne, Bool.false_and]
  have hkeyword : startsWith "doctype".toList (y ++ r) = true := by
    have htake : (y ++ r).take 7 = y := List.take_left' hlength
    have hlow : asciiLower y = "doctype".toList := hy
    change (asciiLower ((y ++ r).take 7) == _) = true
    rw [htake, hlow]
    rfl
  have hdeclaration : ("<!".toList.isPrefixOf ('<' :: '!' :: (y ++ r)) &&
      startsWith "doctype".toList (('!' :: (y ++ r)).drop 1)) = true := hkeyword
  have hread : ('!' :: (y ++ r)).drop 8 = r := List.drop_left' hlength
  rw [List.cons_append, doctype?, if_neg (by decide), if_neg (by rw [hcomment]; decide),
    if_neg (by exact Bool.false_ne_true), if_pos hdeclaration, hread]

end InlineBinding.Html
