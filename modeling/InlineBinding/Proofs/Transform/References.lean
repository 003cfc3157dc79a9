import InlineBinding.Proofs.Expression.References
import InlineBinding.Proofs.Markup.Hosted
import InlineBinding.Proofs.Transform.Commented

/-!
# References in bound texts

The clause for a text holds the references of the text as they are. When the attribute is decoded,
quotes and backslashes come out of them unescaped. So two writings of a text, one with its commas as
references at most, give clauses with a common reading if and only if the other has no more.
-/
namespace InlineBinding

namespace Markup
open Text Html

section Mask

variable (markup : Text)

theorem pickMask_eq_none (h : lacksMask markup = true) : pickMask markup = none := by
  rw [lacksMask, Bool.and_eq_true, Option.isNone_iff_eq_none] at h
  exact h.2

theorem exchanges_unmask : Delimiters.braces.Exchanges (Recovery.of markup).unmask := by
  intro c
  rw [Recovery.unmask]
  split
  · rename_i hm
    exact Or.inr ⟨inert_of_private (Recovery.mask_range hm),
      by decide, by decide, by decide, by decide, by decide⟩
  · exact Or.inl rfl

theorem unmask_map_masked {s : Text} (h : s ⊆ markup) :
    (s.map (masked (pickMask markup))).map (Recovery.of markup).unmask = s := by
  have hid : ∀ c ∈ s,
      ((Recovery.of markup).unmask ∘ masked (pickMask markup)) c = id c := by
    intro c hc
    by_cases hz : c.toNat = 0
    · have hmasked : masked (pickMask markup) c = c := by
        rcases masked_cases markup c with he | ⟨rfl, -⟩
        · exact he
        · exact absurd hz (by decide)
      rw [Function.comp_apply, hmasked]
      exact Recovery.unmask_eq_self (Or.inl (by omega))
    · exact unmask_masked (h hc) hz
  rw [List.map_map, List.map_congr_left hid, List.map_id]

end Mask

theorem settle_map {f : Char → Char} (hf : ∀ c, isSpace (f c) = isSpace c) (hs : f ' ' = ' ')
    (keep : Bool) (s : Text) : (settle keep s).map f = settle keep (s.map f) := by
  cases keep
  · exact (collapse_map hf hs s).symm
  · rfl

theorem settle_refers {n : ℕ} {s w : Text} (h : Refers n s w) (keep : Bool) :
    Refers n (settle keep s) (settle keep w) := by
  cases keep
  · exact h.collapse
  · exact h

/-- The text of an element without references, in the output. -/
def content (collapsing : Bool) (t : Html.Tag) (s : Text) : Text :=
  settle (keeps collapsing t) (normalizeChars s)

/-- The references that are left: none where there is no mask, since all are decoded then. -/
def remaining (t : Html.Tag) (w : Text) (n : ℕ) : ℕ := if lacksMask (hosted t w) = true then 0 else n

theorem subset_hosted (t : Html.Tag) (w : Text) : w ⊆ hosted t w := by
  intro c hc
  simp [hosted, hc]

theorem ampersand_notMem_normalizeChars {s : Text} (h : '&' ∉ s) : '&' ∉ normalizeChars s := by
  intro hm
  rcases (mem_normalizeChars hm).2 with hm | ⟨hm, -⟩ | hm
  · exact absurd hm (by decide)
  · exact absurd hm (by decide)
  · exact h hm

/-- A text is read with its references, and with no others. -/
theorem refers_readText {t : Html.Tag} {s w : Text} {n : ℕ} (h : Refers n s w) (ha : '&' ∉ s)
    (collapsing : Bool) : Refers (remaining t w n) (content collapsing t s)
      ((readText collapsing t w).map (Recovery.of (hosted t w)).unmask) := by
  have hspace (c : Char) : isSpace ((Recovery.of (hosted t w)).unmask c) = isSpace c := by
    rw [Recovery.unmask]
    split
    · rename_i hm
      rw [Recovery.isSpace_of_private (Recovery.mask_range hm)]
      rfl
    · rfl
  have hblank : (Recovery.of (hosted t w)).unmask ' ' = ' ' :=
    Recovery.unmask_eq_self (Or.inl (by decide))
  rw [readText, settle_map hspace hblank, content, remaining]
  apply settle_refers
  split
  · rename_i hlacks
    have hmask := pickMask_eq_none _ hlacks
    have hid : (Recovery.of (hosted t w)).unmask = id := by
      funext c
      exact if_neg (by rw [show (Recovery.of (hosted t w)).mask = none from hmask]; simp)
    have hmasked : masked none = id := funext fun c => ite_self c
    rw [hmask, hmasked, hid, List.map_id, List.map_id,
      h.normalizeChars.decode_eq (ampersand_notMem_normalizeChars ha)]
    exact .refl _
  · rename_i hlacks
    rw [Bool.not_eq_true] at hlacks
    have hamp : '&' ∉ w.map (masked (pickMask (hosted t w))) := by
      intro hm
      obtain ⟨c, hc, he⟩ := List.mem_map.1 hm
      exact masked_ne hlacks (subset_hosted t w hc) he
    have hsteady : Steady (Recovery.of (hosted t w)).unmask
        ['\r', '\n', Char.ofNat 0, Char.ofNat 0xfffd] :=
      Recovery.steady_unmask_of (forall_mem_of_all (by decide))
    rw [decodeReferences_eq_self (ampersand_notMem_normalizeChars hamp),
      ← normalizeChars_map hsteady, unmask_map_masked _ (subset_hosted t w)]
    exact h.normalizeChars

end Markup

namespace Expression
open Text Literal Accessor Shield

/-- A chunk with its characters exchanged. -/
def exchanged (f : Char → Char) : Chunk → Chunk
  | .literal t => .literal (t.map f)
  | .path p => .path (p.map f)

theorem alternate_map (f : Char → Char) (isPath : Bool) (chunks : List Text) :
    Chunk.alternate isPath (chunks.map (List.map f)) =
      (Chunk.alternate isPath chunks).map (exchanged f) := by
  induction chunks generalizing isPath with
  | nil => cases isPath <;> rfl
  | cons t chunks ih => cases isPath <;> exact congrArg _ (ih _)

theorem seed_map (f : Char → Char) (chunks : List Text) :
    seed (chunks.map (List.map f)) = seed chunks := by
  rcases chunks with _ | ⟨_ | ⟨c, t⟩, _ | ⟨p, _ | ⟨_ | ⟨d, u⟩, _ | ⟨v, chunks⟩⟩⟩⟩ <;> rfl

/-- Characters may be exchanged before or after, where literals and calls allow for it. -/
theorem terms_map {f : Char → Char} (hq : f '\'' = '\'')
    (he : ∀ t, escape (t.map f) = (escape t).map f) {chunks : List Text}
    (hp : ∀ p, .path p ∈ Chunk.alternate false chunks → p.map f = p ∧ (call p).map f = call p) :
    (terms [] chunks).map (List.map f) = terms [] (chunks.map (List.map f)) := by
  have hquote (t : Text) : (quote t).map f = quote (t.map f) := by
    rw [quote, quote, he]
    simp [hq]
  rw [terms, terms, seed_map, alternate_map, List.map_append, List.filterMap_map,
    List.map_filterMap]
  congr 1
  · rw [List.map_congr_left (g := id), List.map_id]
    intro t ht
    rw [eq_of_mem_seed ht, hquote]
    rfl
  · apply List.filterMap_congr
    intro c hc
    rcases c with (_ | ⟨a, t⟩) | p
    · rfl
    · exact congrArg some (hquote (a :: t))
    · obtain ⟨hpath, hcall⟩ := hp p hc
      rw [Function.comp_apply, exchanged, hpath]
      exact congrArg some hcall

end Expression

namespace Transform
open Text Html Markup Binding Linked Shield

theorem intercalate_map (f : Char → Char) (sep : Text) (ss : List Text) :
    (List.intercalate sep ss).map f = List.intercalate (sep.map f) (ss.map (List.map f)) := by
  induction ss with
  | nil => rfl
  | cons s ss ih =>
    cases ss with
    | nil => rw [List.map_singleton, List.intercalate_singleton, List.intercalate_singleton]
    | cons t ss =>
      rw [List.map_cons, List.map_cons, List.intercalate_cons_cons, List.intercalate_cons_cons,
        List.map_append, List.map_append, ih, List.map_cons]

section Shielded

variable {o : Options} {document : Text} (h : blocks o document = [])
include h

/-- Without blocks there is nothing to shield. -/
theorem shielded_eq_self : shielded o document = document := by
  have hjoin (ps : List (Piece Clipping)) (h : clippings ps = []) :
      join Clipping.mark ps = join Clipping.text ps := by
    induction ps with
    | nil => rfl
    | cons p ps ih =>
      cases p with
      | char c => exact congrArg (c :: ·) (ih h)
      | hit c => exact absurd h (List.cons_ne_nil _ _)
  exact (hjoin _ h).trans (join_text_marked (shieldOf o) document)

/-- A clause in the output, where nothing has been hidden. -/
theorem printed_eq_of_blocks_nil (hs : (recovery o document).sections = []) (x : Attachment) :
    printed o document x =
      (quoteValue (.text (x.handler Dialect.default))).map (recovery o document).unmask ++
        ':' :: List.intercalate " + ".toList (Expression.terms []
          ((chunks o x).map (List.map (recovery o document).unmask))) := by
  have hsteady : Steady (recovery o document).unmask (':' :: '\'' :: " + ".toList) :=
    Recovery.steady_unmask (forall_mem_of_all (by decide))
  have hchar {c : Char} (hc : c ∈ ':' :: '\'' :: " + ".toList) :
      (recovery o document).unmask c = c := (hsteady c hc c).2 rfl
  have hplus : " + ".toList.map (recovery o document).unmask = " + ".toList :=
    Steady.map_eq fun c hc => hsteady c (List.mem_cons_of_mem _ (List.mem_cons_of_mem _ hc))
  have hbare : (recovery o document).Bare (quoted o document x) := by
    intro p hp
    rw [hs] at hp
    exact absurd hp List.not_mem_nil
  have hpaths (p : Text) (hp : .path p ∈ Chunk.alternate false (chunks o x)) :
      p.map (recovery o document).unmask = p ∧
        (Accessor.call p).map (recovery o document).unmask = Accessor.call p := by
    have hp := isPath_of_mem_chunks o x p hp
    exact ⟨Recovery.map_unmask_path hp, map_unmask_call hp⟩
  have hmarks : standIns (blocks o document) = [] := by
    rw [h]
    rfl
  rw [printed, reveal_of_bare hbare, h, unshield_nil, quoted_eq, hmarks, List.map_append,
    List.map_cons, hchar List.mem_cons_self, intercalate_map, hplus,
    Expression.terms_map (hchar (by decide)) Recovery.escape_map_unmask hpaths]

end Shielded

/-- What is read of an element that stands alone. -/
def hostedTree (t : Html.Tag) (w : Text) : Markup.Tree :=
  .element ((recovery .default (hosted t w)).tag t) (.leaf ⟨.text, readText true t w⟩ .nil) .nil

/-- The binding in its text. -/
def hostedText (t : Html.Tag) (w : Text) : Attachment :=
  .text 1 (readText true t w) (.element 0) .first

/-- In the output, the clause for the text of the element has this expression. -/
structure Gives (t : Html.Tag) (w e : Text) : Prop where
  parsed : parse true (shielded .default (hosted t w)) = .ok (hostedTree t w)
  bound : hostedText t w ∈ attachments .default (hosted t w) (hostedTree t w)
  clause : printed .default (hosted t w) (hostedText t w) = "text(first):".toList ++ e
  output : ∃ out, (transformDefault .default (hosted t w)).result = .ok out ∧
    (printed .default (hosted t w) (hostedText t w)).Stands out

section Main

variable {t : Html.Tag} (ht : Hosts t)

include ht in
/-- The text is found in the element, which is no script and no style. -/
theorem hostedText_mem {w : Text}
    (hd : Delimiters.braces.hasBindings (readText true t w) = true) :
    hostedText t w ∈ attachments .default (hosted t w) (hostedTree t w) := by
  have hlower : lower t.name = t.name :=
    lower_eq_self fun c hc => isLow_of_isNameChar (ht.chars c hc)
  have hkind : isRawText ((recovery .default (hosted t w)).tag t).kind = false := by
    have hraw : ∀ n ∈ ["script".toList, "style".toList], n ∈ apartNames := by decide
    have hscript : t.name ≠ "script".toList := fun he => ht.apart (he ▸ hraw _ (by decide))
    have hstyle : t.name ≠ "style".toList := fun he => ht.apart (he ▸ hraw _ (by decide))
    change isRawText (Recovery.kindOf (lower t.name)) = false
    rw [hlower, Recovery.kindOf, if_neg hscript, if_neg hstyle]
    rfl
  obtain ⟨htag, ⟨hleaf, -⟩, -⟩ := Document.bears_ofTree (hostedTree t w)
  have hraw : Scan.isRaw (Document.ofTree (hostedTree t w)).store (some 0) = false := by
    simp [Scan.isRaw, htag, hkind]
  have hbound : (scan .default (hosted t w)).boundText? (Document.ofTree (hostedTree t w)).store
      (some 0) 1 = some (readText true t w) := by
    rw [Scan.boundText?, hleaf]
    exact if_pos ⟨rfl, hraw, hd⟩
  have hnumbered : numbered 0 (hostedTree t w) = .element 0 (.leaf 1 .nil) .nil := rfl
  rw [attachments, hnumbered, Scan.attachments, List.mem_append, List.mem_append]
  refine Or.inr (Or.inl ?_)
  rw [Scan.attachments, hbound]
  exact List.mem_cons_self

variable {s w : Text} {n : ℕ} (h : Refers n s w)
  (hs : '<' ∉ s ∧ '&' ∉ s) (hb : Delimiters.braces.hasBindings (content true t s) = true)
  (hw : blocks .default (hosted t w) = [])

include h hs hb

theorem hasBindings_readText : Delimiters.braces.hasBindings (readText true t w) = true := by
  have hlength := (Delimiters.chunksRefer_split (refers_readText (t := t) h hs.2 true)).length_eq
  rw [← Delimiters.hasBindings_exchange (exchanges_unmask (hosted t w)), Delimiters.hasBindings,
    ← hlength]
  exact hb

include ht hw

/-- The transform goes through, and the clause is compiled from the text with its references. -/
theorem gives_expression : Gives t w (Expression.compile Delimiters.doubleBraces []
    (Delimiters.braces.split
      ((readText true t w).map (Recovery.of (hosted t w)).unmask))).expression := by
  have hread := hasBindings_readText h hs hb
  have hne : w ≠ [] := by
    rintro rfl
    have hnil : readText true t [] = [] := by
      rw [readText]
      cases keeps true t <;> rfl
    rw [hnil] at hread
    exact absurd hread (by decide)
  have hangle : '<' ∉ w := h.notMem (by decide) hs.1
  have hshielded := shielded_eq_self hw
  have hrecovery : recovery .default (hosted t w) = Recovery.of (hosted t w) := by
    rw [recovery, hshielded]
  have hparse : parse true (shielded .default (hosted t w)) = .ok (hostedTree t w) := by
    rw [hostedTree, hrecovery, hshielded]
    exact parse_hosted ht hangle hne true
  have hmem := hostedText_mem ht hread
  have htextual : ∀ v ∈ (hostedTree t w).elements, v.Textual := by
    intro v hv
    obtain rfl := List.mem_singleton.1 hv
    exact Recovery.textual_tag _ _
  have hskip : (scan .default (hosted t w)).skipped.contains
      (Text.lower (scan .default (hosted t w)).attacher.directiveName) = true :=
    Options.skips_bindingAttribute (by decide)
  obtain ⟨m, p, hrun, -⟩ := Scan.run_ofTree hskip (Scan.wrapperTag?_default _ _) htextual
  refine ⟨hparse, hmem, ?_, ⟨_, result_of_run hparse hrun,
    stands_reveal (stands_of_run (by decide) hrun hmem)⟩⟩
  have hsections : (recovery .default (hosted t w)).sections = [] := by
    rw [hrecovery]
    exact sections_hosted ht hangle
  have hhandler : quoteValue (.text ((hostedText t w).handler Dialect.default)) =
      "text(first)".toList := rfl
  have hsteady : Steady (Recovery.of (hosted t w)).unmask "text(first)".toList :=
    Recovery.steady_unmask (forall_mem_of_all (by decide))
  have hchunks : chunks .default (hostedText t w) =
      Delimiters.braces.split (readText true t w) := rfl
  rw [printed_eq_of_blocks_nil hw hsections, hrecovery, hhandler, hsteady.map_eq, hchunks,
    ← Delimiters.split_exchange (exchanges_unmask (hosted t w))]
  rfl

end Main

open Expression in
/-- Decoded, a clause is read as its text without references, if no quote and no backslash is left
as one. Two writings of a text have a common reading only then, if that is so for the first. -/
theorem common_reading_iff {t : Html.Tag} {s u v : Text} {m n : ℕ} (ht : Hosts t)
    (hs : '<' ∉ s ∧ '&' ∉ s) (hb : Delimiters.braces.hasBindings (content true t s) = true)
    (hu : Refers m s u) (hv : Refers n s v) (hblocks : blocks .default (hosted t u) = [] ∧
      blocks .default (hosted t v) = []) :
    let ts := reading (Delimiters.braces.split (content true t s))
    ∃ e f, Gives t u e ∧ Gives t v f ∧
      (Reads (decodeReferences e) ts ↔ remaining t u m = 0) ∧
      (Reads (decodeReferences f) ts ↔ remaining t v n = 0) ∧
      (remaining t u m = 0 →
        ((∃ us, Reads (decodeReferences e) us ∧ Reads (decodeReferences f) us) ↔
          remaining t v n = 0)) := by
  intro ts
  have hamp : '&' ∉ content true t s := by
    have hnormal := ampersand_notMem_normalizeChars hs.2
    rw [content, settle]
    split
    · exact hnormal
    · exact fun hm => hnormal (mem_of_mem_collapse hm (by decide))
  have hfirst := reads_decoded_split_iff (refers_readText (t := t) hu hs.2 true) hamp
    Delimiters.doubleBraces
  have hsecond := reads_decoded_split_iff (refers_readText (t := t) hv hs.2 true) hamp
    Delimiters.doubleBraces
  refine ⟨_, _, gives_expression ht hu hs hb hblocks.1, gives_expression ht hv hs hb hblocks.2,
    hfirst, hsecond, fun hm => ⟨?_, fun hn => ⟨ts, hfirst.2 hm, hsecond.2 hn⟩⟩⟩
  rintro ⟨us, hus, hvs⟩
  exact hsecond.1 ((hfirst.2 hm).unique hus ▸ hvs)

/-- A text with a quote, and the same text with a reference for it. -/
def quotedText : Text := "it's \x7ba\x7d".toList
def referringText : Text := "it&#39;s \x7ba\x7d".toList

open Expression in
/-- The reference ends the literal in the middle. -/
theorem common_reading_iff_apostrophe :
    Refers 0 quotedText quotedText ∧ Refers 1 quotedText referringText ∧
      ∃ e f, Gives ⟨"p".toList, []⟩ quotedText e ∧ Gives ⟨"p".toList, []⟩ referringText f ∧
        Reads (decodeReferences e) (reading ["it's ".toList, "a".toList, []]) ∧
        ¬ ∃ us, Reads (decodeReferences e) us ∧ Reads (decodeReferences f) us := by
  have ht : Hosts ⟨"p".toList, []⟩ :=
    ⟨by decide, by decide, forall_mem_of_all (by decide), by decide, by decide, by decide⟩
  have hrefers : Refers 1 quotedText referringText := by
    have htail := Refers.reference (c := '\'') (by decide) (.refl "s \x7ba\x7d".toList)
    exact .char 'i' (.char 't' htail)
  obtain ⟨e, f, he, hf, hfirst, -, hboth⟩ := common_reading_iff ht (s := quotedText) (by decide)
    (by decide +kernel) (.refl quotedText) hrefers ⟨by decide +kernel, by decide +kernel⟩
  have hnone : remaining ⟨"p".toList, []⟩ quotedText 0 = 0 := by decide +kernel
  have hone : remaining ⟨"p".toList, []⟩ referringText 1 ≠ 0 := by decide +kernel
  have hchunks : Delimiters.braces.split (content true ⟨"p".toList, []⟩ quotedText) =
      ["it's ".toList, "a".toList, []] := by decide +kernel
  rw [hchunks] at hfirst
  exact ⟨.refl _, hrefers, e, f, he, hf, hfirst.2 hnone, fun h => hone ((hboth hnone).1 h)⟩

end Transform
end InlineBinding
