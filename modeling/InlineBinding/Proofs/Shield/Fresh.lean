import InlineBinding.Proofs.Shield.RoundTrip
import Mathlib.Data.List.Nodup

/-! # Marks are new to the document

Marks are looked for before anything is shielded.  Every mark begins with a character that it
holds nowhere else, so what can be read across the seams of the shielded document, or of one that
is restored in part, ends before the next mark or is that mark.
-/
namespace InlineBinding.Text

/-- At how many places a pattern can be read in a text, overlapping ones included. -/
def occurrences (pattern s : Text) : ℕ := s.tails.countP fun t => pattern.isPrefixOf t

theorem occurrences_nil {p : Text} (hp : p ≠ []) : occurrences p [] = 0 := by
  cases p with
  | nil => exact absurd rfl hp
  | cons c p => rfl

theorem occurrences_cons (p : Text) (c : Char) (s : Text) :
    occurrences p (c :: s) = occurrences p s + if p <+: c :: s then 1 else 0 := by
  rw [occurrences, List.tails_cons, List.countP_cons, occurrences]
  simp only [isPrefixOf_eq_true]

/-- A pattern cannot be read from within a text that does not hold its first character. -/
theorem occurrences_append_of_notMem_head {a : Char} {p t : Text} (ha : a ∉ t) (s : Text) :
    occurrences (a :: p) (t ++ s) = occurrences (a :: p) s := by
  induction t with
  | nil => rfl
  | cons c t ih =>
    rw [List.mem_cons, not_or] at ha
    have hn : ¬ a :: p <+: c :: (t ++ s) := fun h => ha.1 (List.cons_prefix_cons.1 h).1
    rw [List.cons_append, occurrences_cons, if_neg hn, ih ha.2, Nat.add_zero]

/-! ## Marked texts -/

section Marked

variable {n : Numbered} {b : Char} {cs : List Clipping} {qs : List (Piece Clipping)}

/-- A mark that began in the text would end before the next one, where the text is as it was. -/
theorem not_mark_prefix_cons (hb : n.Separate b) (hl : n.Labelled cs)
    (hq : ∀ a, .hit a ∈ qs → a ∈ cs) {c : Clipping} (hc : c ∈ cs) {d : Char}
    (hz : ¬ c.mark <:+: d :: join Clipping.text qs) :
    ¬ c.mark <+: d :: join Clipping.mark qs := by
  obtain ⟨m, hm, hbm⟩ := hl.mark_eq_cons hb hc
  rw [hm] at hz ⊢
  intro h
  obtain ⟨rfl, hp⟩ := List.cons_prefix_cons.1 h
  have ht : m <+: join Clipping.text qs :=
    prefix_join_of_notMem (fun a ha => Or.inr (hl.mark_eq_cons hb (hq a ha))) hbm hp
  exact hz (List.cons_prefix_cons.2 ⟨rfl, ht⟩).isInfix

/-- A mark that is new to the text can be read where it was put, and nowhere else. -/
theorem occurrences_join_mark (hb : n.Separate b) (hl : n.Labelled cs)
    (hq : ∀ a, .hit a ∈ qs → a ∈ cs) {c : Clipping} (hc : c ∈ cs)
    (hz : ¬ c.mark <:+: join Clipping.text qs) :
    occurrences c.mark (join Clipping.mark qs) = (clippings qs).count c := by
  obtain ⟨m, hm, hbm⟩ := hl.mark_eq_cons hb hc
  induction qs with
  | nil => exact occurrences_nil (hl.mark_ne_nil c hc)
  | cons q qs ih =>
    have hq' : ∀ a, .hit a ∈ qs → a ∈ cs := fun a ha => hq a (List.mem_cons_of_mem q ha)
    cases q with
    | char d =>
      rw [join_char] at hz
      have hn := not_mark_prefix_cons hb hl hq' hc hz
      rw [join_char, occurrences_cons, if_neg hn, ih hq' fun h => hz (List.infix_cons h)]
      rfl
    | hit a =>
      rw [join_hit] at hz
      have ih := ih hq' fun h => hz (h.trans (List.suffix_append _ _).isInfix)
      have ha : a ∈ cs := hq a List.mem_cons_self
      have hcount : (clippings (.hit a :: qs)).count c =
          (clippings qs).count c + if a = c then 1 else 0 := by
        change (a :: clippings qs).count c = _
        simp only [List.count_cons, beq_iff_eq]
      have hstart := hl.mark_prefix_iff hb ha hc (t := join Clipping.mark qs)
      obtain ⟨r, hr, hbr⟩ := hl.mark_eq_cons hb ha
      rw [hr, List.cons_append] at hstart
      rw [join_hit, hcount, ← ih, hr, List.cons_append, occurrences_cons]
      simp only [hstart]
      rw [hm, occurrences_append_of_notMem_head hbr]

/-- New marks are put back one after the other, in any order. -/
theorem foldl_replace_mark (hb : n.Separate b) (hl : n.Labelled cs)
    (hq : ∀ a, .hit a ∈ qs → a ∈ cs) (hz : ∀ c ∈ cs, ¬ c.mark <:+: join Clipping.text qs) :
    cs.foldl (fun t c => replace c.mark c.text t) (join Clipping.mark qs) =
      join Clipping.text qs := by
  rw [← List.foldr_reverse, foldr_replace_join (z := Clipping.text) cs.reverse]
  · refine join_congr fun a ha => if_pos ?_
    rw [List.map_reverse, List.mem_reverse]
    exact List.mem_map_of_mem (hq a ha)
  · exact fun c hc => hl.mark_eq_cons hb (List.mem_reverse.1 hc)
  · exact fun a ha => Or.inr (hl.mark_eq_cons hb (hq a ha))
  · rintro c hc w' - pre a post rfl - hp
    rw [(hl.mark_prefix_iff hb (hq a (by simp)) (List.mem_reverse.1 hc)).1 hp]
  · exact fun c hc => hz c (List.mem_reverse.1 hc)
  · intro c hc a ha he
    rw [hl.eq_of_mark_eq (hq a ha) (List.mem_reverse.1 hc) he]

end Marked
end InlineBinding.Text

namespace InlineBinding.Shield
open Text

variable {s : Shield} {document : Text}

/-- The marks of a document are new to it, each of them can be read at one place in the shielded
document, and they can be put back in any order. -/
theorem shield_fresh (delimiters : List Delimiters) (document : Text) :
    let s : Shield := { delimiters := delimiters }
    (s.shield document).2.Pairwise (fun c d => c.mark ≠ d.mark) ∧
      (∀ c ∈ (s.shield document).2, ¬ c.mark <:+: document ∧
        (∀ d ∈ (s.shield document).2, ¬ c.mark <:+: d.text) ∧
        occurrences c.mark (s.shield document).1 = 1) ∧
      ∀ order : List Clipping, order.Perm (s.shield document).2 →
        order.foldl (fun t c => replace c.mark c.text t) (s.shield document).1 = document := by
  intro s
  have hl : s.marks.Labelled (clippings (s.marked document)) := labelled_clippings s document
  have hb : s.marks.Separate 'b' := legible_bindify.toSeparate
  have hz : ∀ c ∈ clippings (s.marked document),
      ¬ c.mark <:+: join Clipping.text (s.marked document) := by
    rw [join_text_marked]
    exact fun c hc => not_infix_document hc
  rw [shield]
  refine ⟨hl.distinct, fun c hc => ⟨not_infix_document hc, fun d hd => not_infix_text hd hc, ?_⟩,
    fun order hp => ?_⟩
  · rw [occurrences_join_mark hb hl (fun _ => Numbered.mem_clippings.2) hc (hz c hc)]
    exact List.count_eq_one_of_mem hl.nodup hc
  · rw [foldl_replace_mark hb (hl.perm hp) (fun a ha => ?_) fun c hc => ?_]
    · exact join_text_marked s document
    · exact hp.mem_iff.2 (Numbered.mem_clippings.2 ha)
    · exact hz c (hp.mem_iff.1 hc)

/-- Two blocks side by side, between texts that look like parts of their marks. -/
def neighbours : Text := "bind1ify\x7b\x7ba\x7d\x7d\x7b\x7bb\x7d\x7dify".toList

theorem shield_fresh_neighbours :
    let c : Clipping := ⟨"bind2ify".toList, "\x7b\x7ba\x7d\x7d".toList⟩
    let d : Clipping := ⟨"bind3ify".toList, "\x7b\x7bb\x7d\x7d".toList⟩
    (templates.shield neighbours).2 = [c, d] ∧
      occurrences c.mark (templates.shield neighbours).1 = 1 ∧
      [d, c].foldl (fun t c => replace c.mark c.text t) (templates.shield neighbours).1 =
        neighbours := by
  intro c d
  have hcs : (templates.shield neighbours).2 = [c, d] := by decide +kernel
  obtain ⟨-, hfresh, hany⟩ := shield_fresh [.doubleBraces] neighbours
  have hc : c ∈ (templates.shield neighbours).2 := by simp [hcs]
  have hp : [d, c].Perm (templates.shield neighbours).2 := by
    rw [hcs]
    exact List.Perm.swap c d []
  exact ⟨hcs, (hfresh c hc).2.2, hany [d, c] hp⟩

end InlineBinding.Shield
