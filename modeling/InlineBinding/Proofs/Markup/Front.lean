import InlineBinding.Proofs.Html.Normalized
import InlineBinding.Proofs.Markup.Source

/-!
# How a markup begins

Whether a markup is read as a document depends on the word behind the white space at its start.
Nothing that is done to the markup before it is read changes that word.
-/
namespace InlineBinding

namespace Html
open Text

theorem startsWith_iff {w s : Text} : startsWith w s = true ↔ w <+: asciiLower s := by
  rw [startsWith, beq_iff_eq, asciiLower, List.map_take, List.prefix_iff_eq_take, asciiLower,
    eq_comm]

theorem startsWith_cons (x : Char) (w : Text) (c : Char) (s : Text) :
    startsWith (x :: w) (c :: s) = (asciiLowerChar c == x && startsWith w s) := rfl

theorem startsWith_eq_true {w s : Text} (h : startsWith w s = true) :
    ∃ x r, s = x ++ r ∧ asciiLower x = w :=
  ⟨s.take w.length, s.drop w.length, (List.take_append_drop _ s).symm, beq_iff_eq.1 h⟩

end Html

namespace Markup
open Text Html

/-- The words that a document begins with. -/
def doctypeWord : Text := "<!doctype".toList
def rootWord : Text := "<html".toList

/-- Behind white space there is a word in any case. -/
def leads (word s : Text) : Bool := startsWith word (trimStart s)

/-! ## White space at both ends -/

section Trim

variable {word s : Text}

theorem prefix_append_iff_of_notMem {w a b : Text} (h : ∀ x ∈ b, x ∉ w) :
    w <+: a ++ b ↔ w <+: a := by
  cases b with
  | nil => rw [List.append_nil]
  | cons x b => exact prefix_append_cons_iff (h x List.mem_cons_self)

/-- White space at the end is no part of a word at the start. -/
theorem startsWith_trim (hw : ∀ x ∈ word, isSpace x = false) :
    startsWith word (trim s) = leads word s := by
  have hsplit : trimStart s =
      trim s ++ ((trimStart s).reverse.takeWhile isSpace).reverse := by
    rw [trim, ← List.reverse_append, trimStart, trimStart, List.takeWhile_append_dropWhile,
      List.reverse_reverse]
  have hlow (c : Char) (hc : isSpace c = true) : asciiLowerChar c = c := by
    rw [asciiLowerChar]
    split
    · rename_i hupper
      have hrange := range_of_upper hupper
      have hno : isSpace c = false :=
        of_ascii (p := fun c => Ranges.has [(0x41, 0x5a)] c = true → isSpace c = false)
          (by decide +kernel) (by omega) hupper
      rw [hno] at hc
      exact Bool.noConfusion hc
    · rfl
  rw [leads, hsplit, Bool.eq_iff_iff, startsWith_iff, startsWith_iff, asciiLower, asciiLower,
    List.map_append]
  refine (prefix_append_iff_of_notMem fun x hx hm => ?_).symm
  obtain ⟨c, hc, rfl⟩ := List.mem_map.1 hx
  have hspace := List.mem_takeWhile_imp (List.mem_reverse.1 hc)
  have hno := hw _ hm
  rw [hlow c hspace, hspace] at hno
  exact Bool.noConfusion hno

theorem prefix_lower_trim (hw : ∀ x ∈ word, isSpace x = false ∧ x.toNat < 0x80 ∧ x ≠ 'i' ∧ x ≠ 'k') :
    word.isPrefixOf (lower (trim s)) = leads word s := by
  rw [← startsWith_trim fun x hx => (hw x hx).1, Bool.eq_iff_iff, isPrefixOf_eq_true,
    prefix_lower_iff fun x hx => (hw x hx).2, startsWith_iff]

theorem startsDoctype_eq (s : Text) : Recovery.startsDoctype s = leads doctypeWord s :=
  prefix_lower_trim (forall_mem_of_all (by decide))

theorem startsDocument_eq (s : Text) :
    Recovery.startsDocument s = (leads doctypeWord s || leads rootWord s) := by
  have hroot : rootWord.isPrefixOf (lower (trim s)) = leads rootWord s :=
    prefix_lower_trim (forall_mem_of_all (by decide))
  rw [Recovery.startsDocument, startsDoctype_eq, ← hroot]
  rfl

end Trim

/-! ## Masks and keys -/

section Prepare

variable {c : Char} {word s document : Text} {last : ℕ}

/-- Ampersands become characters for private use, if they change at all. -/
theorem masked_cases (markup : Text) (c : Char) : masked (pickMask markup) c = c ∨
    c = '&' ∧ 0xe000 ≤ (masked (pickMask markup) c).toNat ∧
      (masked (pickMask markup) c).toNat < 0xf900 := by
  rw [masked]
  split
  · rename_i hc
    cases hm : pickMask markup with
    | none => exact Or.inl rfl
    | some m => exact Or.inr ⟨hc, Recovery.mask_range hm⟩
  · exact Or.inl rfl

theorem asciiLower_masked (markup s : Text) :
    asciiLower (s.map (masked (pickMask markup))) =
      (asciiLower s).map (masked (pickMask markup)) := by
  rw [asciiLower, asciiLower, List.map_map, List.map_map]
  refine congrArg (s.map ·) (funext fun c => ?_)
  rw [Function.comp_apply, Function.comp_apply]
  by_cases hc : c = '&'
  · have hlow : asciiLowerChar '&' = '&' := by decide
    rw [hc, hlow, asciiLowerChar, if_neg]
    intro hupper
    have hrange := range_of_upper hupper
    rcases masked_cases markup '&' with h | ⟨-, h⟩
    · rw [h] at hupper
      exact absurd hupper (by decide)
    · omega
  · have hlow : asciiLowerChar c ≠ '&' := fun he => hc (eq_of_asciiLowerChar he (by decide))
    rw [masked, if_neg hc, masked, if_neg hlow]

theorem trimStart_masked (markup s : Text) : trimStart (s.map (masked (pickMask markup))) =
    (trimStart s).map (masked (pickMask markup)) := by
  rw [trimStart, trimStart, List.dropWhile_map]
  exact congrArg _ (congrArg (s.dropWhile ·) (funext fun c => isSpace_masked markup c))

theorem leads_masked (markup : Text) (hw : word ⊆ writtenChars) (s : Text) :
    leads word (s.map (masked (pickMask markup))) = leads word s := by
  have hsteady : Steady (masked (pickMask markup)) word :=
    fun c hc => steady_masked markup c (hw hc)
  rw [leads, leads, trimStart_masked, Bool.eq_iff_iff, startsWith_iff, startsWith_iff,
    asciiLower_masked, hsteady.prefix_map_iff]

/-- What is hidden of the rest of a document, when some keys have been used. -/
def hidden (document : Text) (last : ℕ) (s : Text) : Text :=
  join (fun c => keyComment c.mark) (sectionKeys.assign document last (cut sectionAt? s))

theorem hideSections_eq (s : Text) : hideSections s = hidden s 0 s := rfl

theorem hidden_cons_of_none (h : sectionAt? (c :: s) = none) :
    hidden document last (c :: s) = c :: hidden document last s := by
  rw [hidden, cut_cons_of_none h, Numbered.assign, join_char, hidden]

theorem sectionAt?_eq_none (h : ¬ "<![CDATA[".toList <+: s) : sectionAt? s = none := by
  rw [Recovery.sectionAt?_eq_none_iff]
  intro ho
  obtain ⟨r, rfl, -⟩ := Delimiters.opens_iff.1 ho
  exact h (List.prefix_append _ r)

theorem hidden_cons (h : c ≠ '<') : hidden document last (c :: s) = c :: hidden document last s :=
  hidden_cons_of_none (sectionAt?_eq_none fun hp =>
    h (List.cons_prefix_cons.1 hp).1.symm)

theorem hidden_append {a : Text} (h : '<' ∉ a) (s : Text) :
    hidden document last (a ++ s) = a ++ hidden document last s := by
  induction a with
  | nil => rfl
  | cons c a ih =>
    rw [List.mem_cons, not_or] at h
    rw [List.cons_append, hidden_cons (Ne.symm h.1), ih h.2, List.cons_append]

/-- Behind an angle all stays as it is, or a comment takes the place of a section. -/
theorem hidden_angle (document : Text) (last : ℕ) (s : Text) :
    hidden document last ('<' :: s) = '<' :: hidden document last s ∨
      "![CDATA[".toList <+: s ∧ ∃ r, hidden document last ('<' :: s) = "<!--".toList ++ r := by
  cases hs : sectionAt? ('<' :: s) with
  | none => exact Or.inl (hidden_cons_of_none hs)
  | some t =>
    refine Or.inr ⟨?_, ?_⟩
    · by_contra hp
      rw [sectionAt?_eq_none fun h => hp (List.cons_prefix_cons.1 h).2] at hs
      exact absurd hs (by simp)
    · rw [hidden, cut_cons_of_some hs, Numbered.assign, join_hit, keyComment]
      exact ⟨_, by rw [List.append_assoc, List.append_assoc]⟩

/-- A word without angles is at the start of what is hidden where it is at the start of it all. -/
theorem startsWith_hidden (hw : '<' ∉ word) :
    startsWith word (hidden document last s) = startsWith word s := by
  induction word generalizing s with
  | nil => rfl
  | cons x word ih =>
    rw [List.mem_cons, not_or] at hw
    have hangle (r : Text) : startsWith (x :: word) ('<' :: r) = false := by
      have hlow : asciiLowerChar '<' = '<' := by decide
      rw [startsWith_cons, hlow, beq_eq_false_iff_ne.2 hw.1, Bool.false_and]
    cases s with
    | nil => rfl
    | cons c s =>
      by_cases hc : c = '<'
      · rw [hc, hangle]
        rcases hidden_angle document last s with h | ⟨-, r, h⟩
        · rw [h, hangle]
        · rw [h]
          exact hangle _
      · rw [hidden_cons hc, startsWith_cons, startsWith_cons, ih hw.2]

theorem trimStart_cons_of_space (h : isSpace c = true) : trimStart (c :: s) = trimStart s :=
  List.dropWhile_cons_of_pos h

theorem trimStart_cons (h : isSpace c = false) : trimStart (c :: s) = c :: s :=
  List.dropWhile_cons_of_neg (by simp [h])

/-- Words at the start that could begin neither a section nor a comment. -/
theorem leads_hidden (hw : '<' ∉ word) (hs : ∀ r, startsWith word ("![CDATA[".toList ++ r) = false)
    (hk : ∀ r, startsWith word ("!--".toList ++ r) = false) :
    leads ('<' :: word) (hidden document last s) = leads ('<' :: word) s := by
  have hopens (r : Text) : leads ('<' :: word) ('<' :: r) = startsWith word r := by
    rw [leads, trimStart_cons (by decide), startsWith_cons]
    exact Bool.true_and _
  induction s with
  | nil => rfl
  | cons c s ih =>
    by_cases hc : c = '<'
    · rw [hc, hopens]
      rcases hidden_angle document last s with h | ⟨⟨t, rfl⟩, r, h⟩
      · rw [h, hopens, startsWith_hidden hw]
      · rw [h, hs]
        exact (hopens _).trans (hk r)
    · rw [hidden_cons hc]
      cases hspace : isSpace c with
      | true => rw [leads, leads, trimStart_cons_of_space hspace, trimStart_cons_of_space hspace,
          ← leads, ← leads, ih]
      | false =>
        have hne : (asciiLowerChar c == '<') = false :=
          beq_eq_false_iff_ne.2 fun he => hc (eq_of_asciiLowerChar he (by decide))
        rw [leads, leads, trimStart_cons hspace, trimStart_cons hspace, startsWith_cons,
          startsWith_cons, hne, Bool.false_and, Bool.false_and]

theorem leads_prepare {w : Text} (h : w = doctypeWord ∨ w = rootWord) (markup : Text) :
    leads w (Recovery.prepare markup) = leads w markup := by
  have hwritten : w ⊆ writtenChars := by rcases h with rfl | rfl <;> decide
  rw [Recovery.prepare, hideSections_eq, maskWith_eq_map, ← leads_masked markup hwritten markup]
  rcases h with rfl | rfl
  · exact leads_hidden (by decide) (fun _ => rfl) fun _ => rfl
  · exact leads_hidden (by decide) (fun _ => rfl) fun _ => rfl

theorem isNameEnd_of_le (h : 0x80 ≤ c.toNat) : isNameEnd c = false := by
  by_contra hend
  rw [Bool.not_eq_false, isNameEnd, Bool.or_eq_true, Bool.or_eq_true, decide_eq_true_eq,
    decide_eq_true_eq] at hend
  rcases hend with (hend | rfl) | rfl
  · simp only [isBlank, Bool.or_eq_true, decide_eq_true_eq] at hend
    rcases hend with ((rfl | rfl) | rfl) | hend
    · exact absurd h (by decide)
    · exact absurd h (by decide)
    · exact absurd h (by decide)
    · omega
  · exact absurd h (by decide)
  · exact absurd h (by decide)

/-- The next character behind a word ends a name when it did so in the markup. -/
theorem normalizeChars_hidden_cons (markup document : Text) (last : ℕ) (c : Char) (r : Text) :
    ∃ d s, normalizeChars (hidden document last ((c :: r).map (masked (pickMask markup)))) =
      d :: s ∧ isNameEnd d = (isNameEnd c || decide (c = '\r')) := by
  rw [List.map_cons]
  by_cases hc : c = '<'
  · have hmask : masked (pickMask markup) '<' = '<' := if_neg (by decide)
    have hplain (s : Text) : normalizeChars ('<' :: s) = '<' :: normalizeChars s :=
      normalizeChars_cons (by decide) (by decide) s
    rw [hc, hmask]
    rcases hidden_angle document last (r.map (masked (pickMask markup))) with h | ⟨-, t, h⟩
    · exact ⟨'<', _, by rw [h, hplain], by decide⟩
    · exact ⟨'<', _, by rw [h]; exact hplain _, by decide⟩
  · have hangle : masked (pickMask markup) c ≠ '<' :=
      fun he => hc ((steady_masked markup '<' (by decide) c).1 he)
    rw [hidden_cons hangle]
    by_cases hreturn : c = '\r'
    · have hmask : masked (pickMask markup) '\r' = '\r' := if_neg (by decide)
      rw [hreturn, hmask]
      obtain ⟨t, ht⟩ := normalizeChars_return
        (hidden document last (r.map (masked (pickMask markup))))
      exact ⟨'\n', t, ht, by decide⟩
    · have hkept : masked (pickMask markup) c ≠ '\r' := by
        rcases masked_cases markup c with h | ⟨-, h, -⟩
        · rwa [h]
        · intro he
          rw [he] at h
          exact absurd h (by decide)
      have hsame : isNameEnd (masked (pickMask markup) c) = isNameEnd c := by
        rcases masked_cases markup c with h | ⟨rfl, h, -⟩
        · rw [h]
        · exact isNameEnd_of_le (by omega)
      rw [normalizeChars, decide_eq_false hreturn, Bool.or_false]
      · refine ⟨_, _, rfl, ?_⟩
        split
        · rename_i hnull
          rw [← hsame, ← Char.ofNat_toNat (masked (pickMask markup) c), hnull]
          decide
        · exact hsame
      · exact fun _ he _ => hkept he
      · exact hkept

end Prepare

/-! ## A word behind white space -/

section Word

variable {front x r w markup : Text}

theorem exists_front (h : leads ('<' :: w) markup = true) :
    ∃ front x r, markup = front ++ '<' :: (x ++ r) ∧ (∀ c ∈ front, isSpace c = true) ∧
      asciiLower x = w := by
  obtain ⟨y, r, hy, hlow⟩ := startsWith_eq_true h
  obtain ⟨c, x, rfl, hc, hx⟩ := List.map_eq_cons_iff.1 hlow
  obtain rfl := eq_of_asciiLowerChar hc (by decide)
  refine ⟨markup.takeWhile isSpace, x, r, ?_, fun c hc => List.mem_takeWhile_imp hc, hx⟩
  rw [← List.cons_append, ← hy, trimStart, List.takeWhile_append_dropWhile]

theorem leads_append (hf : ∀ c ∈ front, isSpace c = true) (t : Text) :
    leads ('<' :: w) (front ++ '<' :: t) = startsWith w t := by
  rw [leads, trimStart, List.dropWhile_append_of_pos hf]
  change leads ('<' :: w) ('<' :: t) = _
  rw [leads, trimStart_cons (by decide), startsWith_cons]
  exact Bool.true_and _

section Page

variable (hw : '<' :: w = doctypeWord ∨ '<' :: w = rootWord) (hx : asciiLower x = w)
include hw

theorem eq_pageWord : w = "!doctype".toList ∨ w = "html".toList := by
  have hdoctype : doctypeWord = '<' :: "!doctype".toList := by decide
  have hroot : rootWord = '<' :: "html".toList := by decide
  rw [hdoctype, hroot] at hw
  exact hw.imp (fun h => (List.cons.inj h).2) fun h => (List.cons.inj h).2

include hx

theorem notMem_pageWord {c : Char} (hc : asciiLowerChar c = c) (hm : c ∉ "!doctypehtml".toList) :
    c ∉ x := by
  intro hin
  have hlow : c ∈ w := by
    rw [← hx, ← hc]
    exact List.mem_map_of_mem hin
  rcases eq_pageWord hw with rfl | rfl
  · exact hm (List.mem_of_mem_take (i := 8) hlow)
  · exact hm (List.mem_of_mem_drop (i := 8) hlow)

/-- No section and no comment begins where the word is. -/
theorem not_prefix_pageWord {p : Text} (hp : ['!', '['] <+: p ∨ ['!', '-'] <+: p) (s : Text) :
    ¬ p <+: x ++ s := by
  have hwords : 2 ≤ w.length ∧ ¬ ['!', '['] <+: w ∧ ¬ ['!', '-'] <+: w := by
    rcases eq_pageWord hw with rfl | rfl <;> decide
  obtain ⟨hlength, hsection, hcomment⟩ := hwords
  rw [← hx, length_asciiLower] at hlength
  have hword {q : Text} (hq : q.length = 2) (h : q <+: x ++ s) : asciiLower q <+: w := by
    have hprefix : q <+: x :=
      List.prefix_of_prefix_length_le h (List.prefix_append x s) (hq ▸ hlength)
    exact hx ▸ hprefix.map asciiLowerChar
  intro h
  rcases hp with hp | hp
  · exact hsection (hword rfl (hp.trans h))
  · exact hcomment (hword rfl (hp.trans h))

/-- Where a page begins, only what follows is changed before it is read. -/
theorem prepare_append (hf : ∀ c ∈ front, isSpace c = true) (r : Text) :
    ∃ document masking, Recovery.prepare (front ++ '<' :: (x ++ r)) =
      front ++ '<' :: (x ++ hidden document 0 (r.map (masked (pickMask masking)))) := by
  have hself {s : Text} (hs : '&' ∉ s) (mask : Option Char) : s.map (masked mask) = s := by
    rw [List.map_congr_left (g := id), List.map_id]
    intro c hc
    apply if_neg
    rintro rfl
    exact hs hc
  have hfront {c : Char} (hc : isSpace c = false) : c ∉ front := by
    intro hin
    rw [hf c hin] at hc
    exact Bool.noConfusion hc
  have hangle : '<' ∉ x := notMem_pageWord hw hx (by decide) (by decide)
  have hamp : '&' ∉ x := notMem_pageWord hw hx (by decide) (by decide)
  have hmap (mask : Option Char) : (front ++ '<' :: (x ++ r)).map (masked mask) =
      front ++ '<' :: (x ++ r.map (masked mask)) := by
    have hmask : masked mask '<' = '<' := if_neg (by decide)
    rw [List.map_append, List.map_cons, List.map_append, hmask, hself (hfront (by decide)),
      hself hamp]
  have hhidden (document t : Text) : hidden document 0 (front ++ '<' :: (x ++ t)) =
      front ++ '<' :: (x ++ hidden document 0 t) := by
    rw [hidden_append (hfront (by decide)), ← hidden_append hangle]
    refine congrArg (front ++ ·) (hidden_cons_of_none (sectionAt?_eq_none fun h => ?_))
    exact not_prefix_pageWord hw hx (Or.inl (by decide)) t (List.cons_prefix_cons.1 h).2
  refine ⟨(front ++ '<' :: (x ++ r)).map (masked (pickMask (front ++ '<' :: (x ++ r)))),
    front ++ '<' :: (x ++ r), ?_⟩
  rw [Recovery.prepare, maskWith_eq_map, hideSections_eq, ← hhidden, ← hmap]

end Page

end Word

end Markup
end InlineBinding
