import InlineBinding.Proofs.Html.Growth
import InlineBinding.Proofs.Html.Normalized
import InlineBinding.Proofs.Html.Skipped
import InlineBinding.Proofs.Markup.Recovered
import InlineBinding.Proofs.Markup.Source

/-!
# Words from the source to the printed text

Before markup is read its ampersands are masked, its sections are hidden and its line ends are
made uniform; when it is printed, sections and ampersands come back. Words outside of the sections
and of their keys are left alone by all of this.
-/
namespace InlineBinding

namespace Html
open Text

section Normalize

variable {w s : Text}

theorem Word.infix_normalizeChars (hw : Word w) (h : w <:+: s) : w <:+: normalizeChars s := by
  have hkept {c : Char} (hc : isWordChar c = true) (s : Text) :
      normalizeChars (c :: s) = c :: normalizeChars s := by
    have hreturn : isWordChar '\r' = false := by decide
    have hnull : isWordChar (Char.ofNat 0) = false := by decide
    refine normalizeChars_cons (bne_iff_ne.1 (ne_of_isWordChar hreturn hc)) (fun he => ?_) s
    exact bne_iff_ne.1 (ne_of_isWordChar hnull hc) (by rw [← he, Char.ofNat_toNat])
  have hfront {v s : Text} (hv : ∀ c ∈ v, isWordChar c = true) (h : v <+: s) :
      v <+: normalizeChars s := by
    induction v generalizing s with
    | nil => exact List.nil_prefix
    | cons c v ih =>
      obtain ⟨r, rfl⟩ := h
      rw [List.cons_append, hkept (hv c List.mem_cons_self)]
      exact List.cons_prefix_cons.2
        ⟨rfl, ih (fun d hd => hv d (List.mem_cons_of_mem c hd)) (List.prefix_append v r)⟩
  fun_induction normalizeChars s with
  | case1 s ih =>
    exact List.infix_cons (ih (hw.infix_tail (by decide) (hw.infix_tail (by decide) h)))
  | case2 s _ ih => exact List.infix_cons (ih (hw.infix_tail (by decide) h))
  | case3 c s hpair hreturn ih =>
    rcases List.infix_cons_iff.1 h with h | h
    · rw [← normalizeChars.eq_3 c s hpair hreturn]
      exact (hfront hw.chars h).isInfix
    · exact List.infix_cons (ih h)
  | case4 => exact h

theorem Word.infix_normalize (hw : Word w) (h : w <:+: s) : w <:+: normalize s := by
  cases s with
  | nil => exact h
  | cons c s =>
    apply hw.infix_normalizeChars
    split
    · rename_i hc
      have hmark : c = Char.ofNat 0xfeff := by rw [← hc, Char.ofNat_toNat]
      exact hw.infix_tail (hmark ▸ by decide) h
    · exact h

theorem notMem_normalize (h : '&' ∉ s) : '&' ∉ normalize s := by
  have hchars {s : Text} (h : '&' ∉ s) : '&' ∉ normalizeChars s := by
    fun_induction normalizeChars s with
    | case1 s ih => simp_all
    | case2 s _ ih => simp_all
    | case3 c s _ _ ih =>
      rw [List.mem_cons, not_or] at h ⊢
      refine ⟨?_, ih h.2⟩
      split
      · decide
      · exact h.1
    | case4 => exact h
  cases s with
  | nil => exact h
  | cons c s =>
    apply hchars
    split
    · exact fun hm => h (List.mem_cons_of_mem c hm)
    · exact h

end Normalize

end Html

namespace Markup
open Text Html

/-! ## Preparing -/

/-- What is cut into tokens. -/
def source (markup : Text) : Text := normalize (Recovery.input (Recovery.prepare markup))

section Prepare

variable {w markup : Text}

theorem infix_maskWith (hw : '&' ∉ w) (mask : Option Char) (h : w <:+: markup) :
    w <:+: Recovery.maskWith mask markup := by
  have hself : w.map (masked mask) = w := by
    rw [List.map_congr_left (g := id), List.map_id]
    intro c hc
    apply if_neg
    rintro rfl
    exact hw hc
  rw [maskWith_eq_map, ← hself]
  exact h.map _

/-- What no angle cuts stands in a section or outside of all of them. -/
theorem infix_hideSections_or (ho : '<' ∉ w) (hc : '>' ∉ w) (h : w <:+: markup) :
    w <:+: hideSections markup ∨ ∃ p ∈ sectionTable markup, w <:+: p.2 := by
  by_cases hs : ∃ p ∈ sectionTable markup, w <:+: p.2
  · exact Or.inr hs
  · refine Or.inl ?_
    rw [← Recovery.join_text_keyedSections markup] at h
    refine infix_join_of_enclosed (u := []) (fun a ha => ?_) h
    have htext := Recovery.text_of_mem_keyedSections ha
    refine ⟨⟨'<', _, '>', htext, ho, hc⟩, fun hi => hs ?_⟩
    rw [htext, List.cons_append] at hi
    refine ⟨_, List.mem_map_of_mem (Numbered.mem_clippings.2 ha), ?_⟩
    rcases infix_append_cons (s := []) ho hi with hi | hi
    · exact hi.trans List.nil_infix
    · exact (infix_append_cons hc hi).elim id fun hi => hi.trans List.nil_infix

theorem infix_prepare_or (ha : '&' ∉ w) (ho : '<' ∉ w) (hc : '>' ∉ w) (h : w <:+: markup) :
    w <:+: Recovery.prepare markup ∨ ∃ p ∈ (Recovery.of markup).sections, w <:+: p.2 :=
  infix_hideSections_or ho hc (infix_maskWith ha _ h)

theorem notMem_prepare (hm : lacksMask markup = false) : '&' ∉ Recovery.prepare markup := by
  intro h
  obtain ⟨q, hq, h⟩ := List.mem_flatMap.1 h
  cases q with
  | char c =>
    obtain rfl := List.mem_singleton.1 h
    have hmem : '&' ∈ Recovery.maskWith (pickMask markup) markup := by
      rw [← Recovery.join_text_keyedSections (Recovery.maskWith (pickMask markup) markup)]
      exact List.mem_flatMap.2 ⟨_, hq, List.mem_singleton_self _⟩
    rw [maskWith_eq_map] at hmem
    obtain ⟨c, hc, he⟩ := List.mem_map.1 hmem
    exact masked_ne hm hc he
  | hit c =>
    have hp : (c.mark, (c.text.drop 1).dropLast) ∈ (Recovery.of markup).sections :=
      List.mem_map_of_mem (Numbered.mem_clippings.2 hq)
    have hkey : '&' ∉ c.mark := Recovery.notMem_key hp (by decide) (by decide)
    simp [keyComment, hkey] at h

theorem infix_input (h : w <:+: markup) : w <:+: Recovery.input markup := by
  rw [Recovery.input]
  split
  · exact h
  · exact h.trans ⟨_, _, rfl⟩

theorem notMem_input (h : '&' ∉ markup) : '&' ∉ Recovery.input markup := by
  have hopen : '&' ∉ "<html><body>".toList := by decide
  have hclose : '&' ∉ "</body></html>".toList := by decide
  have hwrapped : '&' ∉ "<html><body>".toList ++ markup ++ "</body></html>".toList := by
    simp only [List.mem_append, not_or]
    exact ⟨⟨hopen, h⟩, hclose⟩
  rw [Recovery.input]
  by_cases hs : Recovery.startsDocument markup = true
  · rwa [if_pos hs]
  · rw [if_neg hs]
    exact hwrapped

/-- A word of the markup is in a token, in a skipped part, or in a section. -/
theorem Word.holds_source (hw : Word w) (hm : lacksMask markup = false) (h : w <:+: markup) :
    (∃ t ∈ lex (source markup), t.Holds w) ∨ (∃ z ∈ skipped (source markup), w <:+: z) ∨
      ∃ p ∈ (Recovery.of markup).sections, w <:+: p.2 := by
  have hamp : '&' ∉ source markup := notMem_normalize (notMem_input (notMem_prepare hm))
  rcases infix_prepare_or (hw.notMem (by decide)) (hw.notMem (by decide)) (hw.notMem (by decide)) h
    with h | h
  · exact (hw.holds_lex hamp (hw.infix_normalize (infix_input h))).imp id Or.inl
  · exact Or.inr (Or.inr h)

end Prepare

/-! ## Restoring -/

namespace Recovery

variable {w markup : Text}

theorem infix_reopen_of_word (hw : Word w) {ps : List (Text × Text)}
    (hps : ∀ p ∈ ps, ¬ w <:+: keyComment p.1) {t : Text} (h : w <:+: t) : w <:+: reopen ps t := by
  induction ps generalizing t with
  | nil => exact h
  | cons p ps ih =>
    have henclosed : Enclosed w (keyComment p.1) := by
      rw [keyComment_eq, List.cons_append]
      exact ⟨'<', _, '>', rfl, hw.notMem (by decide), hw.notMem (by decide)⟩
    apply ih fun q hq => hps q (List.mem_cons_of_mem p hq)
    exact infix_replace_of_enclosed _ henclosed (hps p List.mem_cons_self) h

theorem infix_map_unmask (hw : Word w) {t : Text} (h : w <:+: t) :
    w <:+: t.map (Recovery.of markup).unmask := by
  have hself : w.map (Recovery.of markup).unmask = w := by
    rw [List.map_congr_left (g := id), List.map_id]
    intro c hc
    have hlow : c.toNat < 0x80 := (isLow_of_isNameChar (hw.isNameChar hc)).1
    exact unmask_eq_self (Or.inl (by omega))
  rw [← hself]
  exact h.map _

theorem infix_restore (hw : Word w)
    (hk : ∀ p ∈ (Recovery.of markup).sections, ¬ w <:+: keyComment p.1) {t : Text}
    (h : w <:+: t) : w <:+: (Recovery.of markup).restore t := by
  rw [restore_eq]
  exact infix_map_unmask hw (infix_reopen_of_word hw hk h)

/-- A word of a section comes back where the comment for the section stands. -/
theorem infix_restore_of_section (hw : Word w) {p : Text × Text}
    (hp : p ∈ (Recovery.of markup).sections) (h : w <:+: p.2) {t : Text}
    (ht : keyComment p.1 <:+: t) : w <:+: (Recovery.of markup).restore t := by
  refine List.IsInfix.trans ?_ (section_infix_restore hp ht)
  exact (infix_map_unmask hw h).trans ⟨['<'], ['>'], rfl⟩

end Recovery

end Markup

end InlineBinding
