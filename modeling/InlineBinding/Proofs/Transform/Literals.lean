import InlineBinding.Proofs.Shield.Fresh
import InlineBinding.Proofs.Transform.Clauses
import InlineBinding.Transform

/-!
# Literals of a shielded document

A piece of the shielded document that cuts no mark stands for a piece of the document itself. In a
literal, its marks become literal marks; restoring that literal gives the literal of the piece of
the document, whatever stands behind the marks.
-/
namespace InlineBinding.Shield
open Text Literal

variable {n : Numbered} {b : Char} {cs : List Clipping} {qs : List (Piece Clipping)}

/-- Cutting at new marks gives the pieces back that were marked. -/
theorem found_join_mark (hb : n.Separate b) (hl : n.Labelled cs) (hq : ∀ a, .hit a ∈ qs → a ∈ cs)
    (hz : ∀ c ∈ cs, ¬ c.mark <:+: join Clipping.text qs) :
    found cs (join Clipping.mark qs) = qs := by
  induction qs with
  | nil => rfl
  | cons q qs ih =>
    have hq' : ∀ a, .hit a ∈ qs → a ∈ cs := fun a ha => hq a (List.mem_cons_of_mem q ha)
    cases q with
    | char d =>
      have hnone : markAt? cs (d :: join Clipping.mark qs) = none := by
        rw [markAt?, Option.map_eq_none_iff, List.find?_eq_none]
        intro c hc
        rw [isPrefixOf_eq_true]
        exact not_mark_prefix_cons hb hl hq' hc (hz c hc)
      rw [join_char, found, cut_cons_of_none hnone, ← found, ih hq' fun c hc h => hz c hc ?_]
      exact List.infix_cons h
    | hit a =>
      have ha : a ∈ cs := hq a List.mem_cons_self
      have hsome : markAt? cs (a.mark ++ join Clipping.mark qs) = some (a, a.mark.length) := by
        rw [markAt?]
        cases hf : cs.find? fun c => c.mark.isPrefixOf (a.mark ++ join Clipping.mark qs) with
        | none =>
          have hn := List.find?_eq_none.1 hf a ha
          exact absurd (isPrefixOf_eq_true.2 (List.prefix_append _ _)) hn
        | some c =>
          have hc : c ∈ cs := List.mem_of_find?_eq_some hf
          have hp := isPrefixOf_eq_true.1 (List.find?_some (a := c) hf)
          rw [(hl.mark_prefix_iff hb ha hc).1 hp]
          rfl
      obtain ⟨r, hr, -⟩ := hl.mark_eq_cons hb ha
      have hne : a.mark ≠ [] := hr ▸ List.cons_ne_nil _ _
      have ih := ih hq' fun c hc h => hz c hc (h.trans (List.suffix_append _ _).isInfix)
      rw [join_hit, found, cut_match_append hne hsome, ← found, ih]

theorem withBlocks_join_mark (hb : n.Separate b) (hl : n.Labelled cs)
    (hq : ∀ a, .hit a ∈ qs → a ∈ cs) (hz : ∀ c ∈ cs, ¬ c.mark <:+: join Clipping.text qs) :
    withBlocks cs (join Clipping.mark qs) = join Clipping.text qs := by
  rw [withBlocks, found_join_mark hb hl hq hz]

/-! ## Positions between marks -/

/-- No mark goes across the position. -/
def uncut : List (Piece Clipping) → ℕ → Bool
  | _, 0 => true
  | [], _ + 1 => true
  | .char _ :: ps, k + 1 => uncut ps k
  | .hit c :: ps, k + 1 => c.mark.length ≤ k + 1 && uncut ps (k + 1 - c.mark.length)

/-- At such a position the pieces can be parted. -/
theorem exists_append_of_uncut {ps : List (Piece Clipping)} {x y : Text}
    (h : join Clipping.mark ps = x ++ y) (hx : uncut ps x.length = true) :
    ∃ l r, ps = l ++ r ∧ join Clipping.mark l = x ∧ join Clipping.mark r = y := by
  induction ps generalizing x with
  | nil =>
    obtain ⟨rfl, rfl⟩ := List.append_eq_nil_iff.1 h.symm
    exact ⟨[], [], rfl, rfl, rfl⟩
  | cons p ps ih =>
    cases x with
    | nil => exact ⟨[], p :: ps, rfl, rfl, h⟩
    | cons d x =>
      cases p with
      | char c =>
        obtain ⟨rfl, ht⟩ := List.cons.inj h
        obtain ⟨l, r, rfl, rfl, hr⟩ := ih ht hx
        exact ⟨.char c :: l, r, rfl, rfl, hr⟩
      | hit c =>
        rw [List.length_cons, uncut, Bool.and_eq_true, decide_eq_true_eq] at hx
        rw [join_hit] at h
        have hc : c.mark <+: d :: x ++ y := ⟨join Clipping.mark ps, h⟩
        obtain ⟨x', hx'⟩ : c.mark <+: d :: x :=
          List.prefix_of_prefix_length_le hc (List.prefix_append _ _) hx.1
        rw [← hx', List.append_assoc] at h
        have hlength : x.length + 1 - c.mark.length = x'.length := by
          have := congrArg List.length hx'
          rw [List.length_append, List.length_cons] at this
          omega
        obtain ⟨l, r, rfl, hl, hr⟩ := ih (List.append_cancel_left h) (hlength ▸ hx.2)
        exact ⟨.hit c :: l, r, rfl, by rw [join_hit, hl, hx'], hr⟩

theorem uncut_of_append {ps qs : List (Piece Clipping)} {k : ℕ}
    (h : uncut (ps ++ qs) k = true) : uncut ps k = true := by
  fun_induction uncut ps k with
  | case1 => rfl
  | case2 => rfl
  | case3 c ps k ih => exact ih h
  | case4 c ps k ih =>
    rw [List.cons_append, uncut, Bool.and_eq_true] at h
    rw [Bool.and_eq_true]
    exact ⟨h.1, ih h.2⟩

end InlineBinding.Shield

namespace InlineBinding.Transform
open Text Literal Shield Binding

/-- The literal of a piece of the shielded document becomes the literal of what the piece stands
for. -/
theorem unshield_literal_of_uncut (delimiters : List Delimiters) (document : Text) (a : Attacher)
    {x c y : Text} :
    let s : Shield := { delimiters := delimiters }
    (s.shield document).1 = x ++ c ++ y → uncut (s.marked document) x.length = true →
      uncut (s.marked document) (x ++ c).length = true →
      ∃ before piece after, s.marked document = before ++ piece ++ after ∧
        join Clipping.mark before = x ∧ join Clipping.mark piece = c ∧
        join Clipping.mark after = y ∧
        document = join Clipping.text before ++ join Clipping.text piece ++
          join Clipping.text after ∧
        unshield (Expression.literal (withMarks a (s.shield document).2).marks c)
          (s.shield document).2 = quote (join Clipping.text piece) := by
  intro s h hx hy
  change join Clipping.mark (s.marked document) = x ++ c ++ y at h
  obtain ⟨l, after, hla, hl, hafter⟩ := exists_append_of_uncut h hy
  rw [hla] at hx
  obtain ⟨before, piece, rfl, hbefore, hpiece⟩ := exists_append_of_uncut hl (uncut_of_append hx)
  have hdocument := join_text_marked s document
  rw [hla, join_append, join_append] at hdocument
  refine ⟨before, piece, after, hla, hbefore, hpiece, hafter, hdocument.symm, ?_⟩
  have hb : Legible s.marks 'b' := legible_bindify
  have hlabelled : bindify.Labelled (clippings (s.marked document)) := labelled_clippings s document
  have hq : ∀ d, .hit d ∈ piece → d ∈ clippings (s.marked document) := by
    intro d hd
    rw [Numbered.mem_clippings, hla]
    simp [hd]
  have hz : ∀ d ∈ clippings (s.marked document), ¬ d.mark <:+: join Clipping.text piece := by
    intro d hd hi
    exact not_infix_document hd (hi.trans ⟨_, _, hdocument⟩)
  have hblocks := withBlocks_join_mark hb.toSeparate hlabelled hq hz
  rw [← hpiece, ← hblocks]
  exact unshield_literal hb hlabelled (unescaped hlabelled) fun d hd => hblocks ▸ hz d hd

/-- A quote, a block, and the letters of a literal mark behind it. -/
def quotedBlock : Text := "it\x27s \x7b\x7ba, \"b\"\x7d\x7djs".toList

theorem unshield_literal_of_uncut_quotedBlock :
    (templates.shield quotedBlock).1 = "it'".toList ++ "s bind1ifyjs".toList ++ [] ∧
      ∃ piece, piece <:+: templates.marked quotedBlock ∧
        join Clipping.mark piece = "s bind1ifyjs".toList ∧
        quote (join Clipping.text piece) =
          "'s \x7b\x7ba\\x2c &quot;b&quot;\x7d\x7djs'".toList := by
  have h : (templates.shield quotedBlock).1 = "it'".toList ++ "s bind1ifyjs".toList ++ [] := by
    decide +kernel
  obtain ⟨before, piece, after, hm, -, hpiece, -, -, hliteral⟩ :=
    unshield_literal_of_uncut [.doubleBraces] quotedBlock .default h (by decide +kernel)
      (by decide +kernel)
  refine ⟨h, piece, ⟨before, after, hm.symm⟩, hpiece, hliteral.symm.trans ?_⟩
  decide +kernel

end InlineBinding.Transform
