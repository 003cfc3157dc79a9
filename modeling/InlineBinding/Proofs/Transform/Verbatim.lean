import InlineBinding.Proofs.Binding.Idle
import InlineBinding.Proofs.Delimiters.Exchange
import InlineBinding.Proofs.Markup.Reread
import InlineBinding.Proofs.Shield.RoundTrip
import InlineBinding.Transform

/-!
# Documents without bindings

Plain markup with template blocks in its texts and values, and without bindings, comes out of a
transform as it went in.
-/
namespace InlineBinding

namespace Markup
open Text Html

section Mask

variable (markup : Text)

/-- A character of the markup as it is read. -/
def taken (c : Char) : Char := readable (masked (pickMask markup) c)

theorem lacksMask_eq_false {markup : Text}
    (h : ∃ m, 0xe000 ≤ m.toNat ∧ m.toNat ≤ 0xf8ff ∧ m ∉ markup) : lacksMask markup = false := by
  obtain ⟨m, hfirst, hlast, habsent⟩ := h
  have hcandidate : m ∈ maskCandidates := by
    refine List.mem_map.2 ⟨m.toNat - 0xe000, List.mem_range.2 (by omega), ?_⟩
    rw [Nat.add_sub_cancel' hfirst, Char.ofNat_toNat]
  cases hamp : markup.contains '&' with
  | false => rw [lacksMask, hamp, Bool.false_and]
  | true =>
    have hsome : (maskCandidates.find? (!markup.contains ·)).isSome :=
      List.find?_isSome.2 ⟨m, hcandidate, by simpa using habsent⟩
    rw [lacksMask, pickMask, hamp, if_pos rfl, Bool.true_and]
    simpa using hsome

theorem taken_cases (c : Char) :
    taken markup c = c ∨ (c = '&' ∧ pickMask markup = some (taken markup c)) ∨
      (c = Char.ofNat 0 ∧ taken markup c = Char.ofNat 0xfffd) := by
  have hreadable (c : Char) (hc : c.toNat ≠ 0) : readable c = c := if_neg hc
  by_cases hamp : c = '&'
  · subst hamp
    cases hm : pickMask markup with
    | none =>
      have htaken : taken markup '&' = '&' := by
        rw [taken, hm]
        rfl
      exact Or.inl htaken
    | some m =>
      have hrange : 0xe000 ≤ m.toNat ∧ m.toNat < 0xf900 := Recovery.mask_range hm
      have htaken : taken markup '&' = m := by
        rw [taken, hm]
        exact hreadable m (by omega)
      exact Or.inr (Or.inl ⟨rfl, by rw [htaken]⟩)
  · have htaken : taken markup c = readable c := by rw [taken, masked, if_neg hamp]
    by_cases hc : c.toNat = 0
    · exact Or.inr (Or.inr ⟨by rw [← hc, Char.ofNat_toNat], htaken.trans (if_pos hc)⟩)
    · exact Or.inl (htaken.trans (hreadable c hc))

theorem inert_of_private {m : Char} (h : 0xe000 ≤ m.toNat ∧ m.toNat < 0xf900) :
    Delimiters.braces.Inert m := by
  have hne (x : Char) (hx : x.toNat < 0xe000) : m ≠ x := by
    rintro rfl
    omega
  exact ⟨Recovery.isPart_of_private h, hne _ (by decide), Recovery.isSpace_of_private h,
    fun hm => hne _ (by decide) (List.mem_singleton.1 hm),
    fun hm => hne _ (by decide) (List.mem_singleton.1 hm)⟩

/-- Reading makes no binding and breaks none. -/
theorem exchanges_taken : Delimiters.braces.Exchanges (taken markup) := by
  intro c
  rcases taken_cases markup c with h | ⟨rfl, hm⟩ | ⟨rfl, h⟩
  · exact Or.inl h
  · exact Or.inr ⟨⟨by decide, by decide, by decide, by decide, by decide⟩,
      inert_of_private (Recovery.mask_range hm)⟩
  · rw [h]
    exact Or.inr ⟨⟨by decide, by decide, by decide, by decide, by decide⟩,
      ⟨by decide +kernel, by decide, by decide, by decide, by decide⟩⟩

theorem unmask_taken {c : Char} (hc : c ∈ markup) (hnull : c.toNat ≠ 0) :
    (Recovery.of markup).unmask (taken markup c) = c := by
  have hmask : (Recovery.of markup).mask = pickMask markup := rfl
  rcases taken_cases markup c with h | ⟨rfl, hm⟩ | ⟨rfl, -⟩
  · rw [h, Recovery.unmask, hmask]
    split
    · rename_i hm
      rw [pickMask] at hm
      split at hm
      · have habsent := List.find?_some hm
        rw [List.contains_iff_mem.2 hc] at habsent
        exact absurd habsent (by decide)
      · exact absurd hm (by simp)
    · rfl
  · rw [Recovery.unmask, hmask, if_pos hm]
  · exact absurd rfl hnull

theorem steady_taken : Steady (taken markup) writtenChars := fun c hc d =>
  (steady_readable c hc _).trans (steady_masked markup c hc d)

end Mask

theorem print_taken {t : Html.Tree} (h : Plain t) (hnull : ∀ d ∈ data t, ∀ c ∈ d, c.toNat ≠ 0)
    (xhtml : Bool) :
    (Recovery.of (write xhtml t)).print xhtml (shown (mapData (taken (write xhtml t)) t)) =
      write xhtml t := by
  have hbare :
      (Recovery.of (write xhtml t)).Bare ((write xhtml t).map (taken (write xhtml t))) := by
    rw [Recovery.of_write h]
    exact fun _ hp => absurd hp List.not_mem_nil
  have hnull : ∀ c ∈ write xhtml t, c.toNat ≠ 0 := by
    have hnull : Char.ofNat 0 ∉ write xhtml t :=
      notMem_write h (by decide) (fun d hd hm => hnull d hd _ hm rfl) xhtml
    rintro c hc hz
    rw [← hz, Char.ofNat_toNat] at hnull
    exact hnull hc
  have hid : ∀ c ∈ write xhtml t,
      ((Recovery.of (write xhtml t)).unmask ∘ taken (write xhtml t)) c = id c :=
    fun c hc => unmask_taken _ hc (hnull c hc)
  rw [Recovery.print, render_shown (h.mapData (steady_taken _)), write_mapData (steady_taken _) h,
    Recovery.restore_eq_map hbare, List.map_map, List.map_congr_left hid, List.map_id]

theorem unbound_shown {s : Binding.Scan} {t : Html.Tree}
    (h : ∀ d ∈ data t, s.delimiters.hasBindings d = false) : s.Unbound (shown t) := by
  induction t with
  | nil => trivial
  | element t cs rest ihc ihr =>
    simp only [data, List.forall_mem_append, List.forall_mem_map] at h
    refine ⟨?_, ihc h.2.1, ihr h.2.2⟩
    rw [List.forall_mem_map]
    exact fun a ha => ⟨a.2, rfl, h.1 a ha⟩
  | leaf l rest ih =>
    cases l <;>
      · rw [data, List.forall_mem_cons] at h
        exact ⟨h.1, ih h.2⟩

end Markup

namespace Transform
open Text Html Markup Binding Linked

/-- What has been shielded comes out of the reader, the scan and the printer unchanged. -/
theorem transform_write {o : Options} {document : Text} {t : Html.Tree} (a : Attacher)
    (hd : ((shieldOf o).shield document).1 = write o.xhtmlMode t) (ht : Plain t)
    (hn : nest o.xhtmlMode t = t) (hm : lacksMask (write o.xhtmlMode t) = false)
    (hs : ∀ d ∈ data t, collapse d = d) (hnull : ∀ d ∈ data t, ∀ c ∈ d, c.toNat ≠ 0)
    (hx : o.bindingDelimiters.Exchanges (taken (write o.xhtmlMode t)))
    (hb : ∀ d ∈ data t, o.bindingDelimiters.hasBindings d = false) :
    (transform o a document).result =
      .ok (Shield.unshield (write o.xhtmlMode t) ((shieldOf o).shield document).2) := by
  have htree : nest o.xhtmlMode (mapData (taken (write o.xhtmlMode t)) t) =
      mapData (taken (write o.xhtmlMode t)) t := by
    rw [← mapData_nest, hn]
  have hparse : parse o.normalizeWhitespace ((shieldOf o).shield document).1 =
      .ok (shown (mapData (taken (write o.xhtmlMode t)) t)) := by
    rw [hd, ← htree]
    exact parse_write ht hm hs _
  have hunbound (r : Recovery) (a : Attacher) :
      (Scan.of o r a).Unbound (shown (mapData (taken (write o.xhtmlMode t)) t)) := by
    apply unbound_shown
    rw [data_mapData, List.forall_mem_map]
    exact fun d hd => (Delimiters.hasBindings_exchange hx d).trans (hb d hd)
  simp only [transform, hparse, Scan.run_unbound (hunbound _ _), Progress.start,
    Document.toTree_ofTree]
  rw [hd, print_taken ht hnull]

/-- A document whose shielded form is plain markup without bindings comes out as it went in, when
the markup lets a private character free and no block is glued to the end of a literal mark. -/
theorem transform_verbatim {document : Text} {t : Html.Tree}
    (hd : ((shieldOf .default).shield document).1 = write false t) (ht : Plain t)
    (hlast : ShapesLast t) (hs : ∀ d ∈ data t, collapse d = d)
    (hnull : ∀ d ∈ data t, ∀ c ∈ d, c.toNat ≠ 0)
    (hb : ∀ d ∈ data t, Delimiters.braces.hasBindings d = false)
    (hm : ∃ m, 0xe000 ≤ m.toNat ∧ m.toNat ≤ 0xf8ff ∧ m ∉ write false t)
    (hg : ¬ (shieldOf .default).Glued document) :
    (transformDefault .default document).result = .ok document := by
  have hmask := lacksMask_eq_false hm
  have hn : nest false t = t := (nest_false_eq_self_iff ht).2 hlast
  have hx := exchanges_taken (write false t)
  have hrestored := Shield.unshield_of_not_glued Shield.legible_bindify hg
  rw [hd] at hrestored
  rw [transformDefault, transform_write (Attacher.ofOptions .default) hd ht hn hmask hs hnull hx hb]
  exact congrArg _ hrestored

/-- A row with an ampersand and two blocks. -/
def mixed : Text := "<div title=\"R&D <%= x %>\">a \x7b\x7b y \x7d\x7d<br></div>".toList

def mixedTree : Html.Tree :=
  .element ⟨"div".toList, [("title".toList, "R&D bind1ify".toList)]⟩
    (.leaf (.text "a bind2ify".toList) (.element ⟨"br".toList, []⟩ .nil .nil)) .nil

theorem not_glued_mixed : ¬ (shieldOf .default).Glued mixed := by
  rintro ⟨before, c, after, he⟩
  have hj : 'j' ∉ mixed := by decide
  rw [← Shield.join_text_marked (shieldOf .default) mixed, he, join_append, join_hit, join_char]
    at hj
  simp at hj

theorem transform_verbatim_mixed : (transformDefault .default mixed).result = .ok mixed := by
  have hplain : Plain mixedTree := by decide
  have hlast : ShapesLast mixedTree := by decide
  have hchars : ∀ d ∈ data mixedTree, (d.all fun c => decide (c.toNat ≠ 0)) = true := by decide
  have hnull : ∀ d ∈ data mixedTree, ∀ c ∈ d, c.toNat ≠ 0 :=
    fun d hd => forall_mem_of_all (hchars d hd)
  have hshielded : ((shieldOf .default).shield mixed).1 = write false mixedTree := by
    decide +kernel
  have hfree : Char.ofNat 0xe000 ∉ write false mixedTree := by decide +kernel
  exact transform_verbatim hshielded hplain hlast (by decide +kernel) hnull (by decide +kernel)
    ⟨Char.ofNat 0xe000, by decide, by decide, hfree⟩ not_glued_mixed

end Transform
end InlineBinding
