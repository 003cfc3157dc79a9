import InlineBinding.Proofs.Shield.RoundTrip
import InlineBinding.Proofs.Text.Spared

/-!
# Marks in a text and in a literal

Any text can be cut at the marks that can be read in it. In a literal they have become literal
marks, and the block of each one comes back as part of what the literal says.
-/
namespace InlineBinding.Shield
open Text Literal

variable {cs : List Clipping}

/-! ## Marks that can be read -/

/-- The clipping with whose mark a text begins. -/
def markAt? (cs : List Clipping) (t : Text) : Option (Clipping × ℕ) :=
  (cs.find? fun c => c.mark.isPrefixOf t).map fun c => (c, c.mark.length)

/-- A text cut at its marks. -/
def found (cs : List Clipping) (t : Text) : List (Piece Clipping) := cut (markAt? cs) t

/-- A text with every block in the place of its mark. -/
def withBlocks (cs : List Clipping) (t : Text) : Text := join Clipping.text (found cs t)

theorem markAt?_eq_some {t : Text} {c : Clipping} {n : ℕ} (h : markAt? cs t = some (c, n)) :
    c ∈ cs ∧ c.mark = t.take n ∧ n = c.mark.length := by
  obtain ⟨d, hd, he⟩ := Option.map_eq_some_iff.1 h
  obtain ⟨rfl, rfl⟩ := Prod.mk.inj he
  have hp : d.mark.isPrefixOf t = true := List.find?_some (a := d) hd
  obtain ⟨u, hu⟩ := isPrefixOf_eq_true.1 hp
  exact ⟨List.mem_of_find?_eq_some hd, by rw [← hu, List.take_left], rfl⟩

theorem mem_of_mem_found {t : Text} {c : Clipping} (h : .hit c ∈ found cs t) : c ∈ cs := by
  obtain ⟨s, n, hs⟩ := rule_of_mem_cut h
  exact (markAt?_eq_some hs).1

section Found

variable (hn : ∀ c ∈ cs, c.mark ≠ [])

include hn

theorem join_mark_found (t : Text) : join Clipping.mark (found cs t) = t := by
  refine join_cut (fun s c n h => ?_) t
  obtain ⟨hc, ht, hl⟩ := markAt?_eq_some h
  exact ⟨hl ▸ List.length_pos_iff.2 (hn c hc), ht⟩

theorem not_infix_found {x : Char} {c : Clipping} (hc : c ∈ cs) (hx : x ∉ c.mark) (t : Text) :
    ¬ c.mark <:+: join (fun _ => [x]) (found cs t) := by
  have hrule (s : Text) (d : Clipping) (n : ℕ) (h : markAt? cs s = some (d, n)) :
      0 < n ∧ d.mark = s.take n := by
    obtain ⟨hd, ht, hl⟩ := markAt?_eq_some h
    exact ⟨hl ▸ List.length_pos_iff.2 (hn d hd), ht⟩
  apply not_infix_cut hrule (hn c hc) hx
  intro s hs hm
  have := List.find?_eq_none.1 (Option.map_eq_none_iff.1 hm) c hc
  exact this (isPrefixOf_eq_true.2 hs)

/-- Every mark in the text is found. -/
theorem hit_mem_found {n : Numbered} {b : Char} (hb : n.Separate b) (hl : n.Labelled cs)
    {c : Clipping} (hc : c ∈ cs) {x : Char} (hx : x ∉ c.mark) {t : Text} (h : c.mark <:+: t) :
    .hit c ∈ found cs t := by
  obtain ⟨m, hm, hbm⟩ := hl.mark_eq_cons hb hc
  have hnone := not_infix_found hn hc hx t
  rw [← join_mark_found hn t, hm] at h
  rcases infix_join (z := fun _ => [x]) hbm
    (fun a ha => Or.inr (hl.mark_eq_cons hb (mem_of_mem_found ha))) h with h | h
  · exact absurd (hm ▸ h) hnone
  · obtain ⟨before, a, after, he, -, hp⟩ := h
    have ha : .hit a ∈ found cs t := by
      rw [he]
      exact List.mem_append_right _ List.mem_cons_self
    rw [← hm] at hp
    rwa [← (hl.mark_prefix_iff hb (mem_of_mem_found ha) hc).1 hp]

end Found

/-! ## Characters between marks -/

/-- A text that no mark touches is left alone, whatever stands around it. -/
theorem unshield_append {w : Text} (h : ∀ c ∈ cs, Spares c.literalMark w ∧ Spares c.mark w)
    (s t : Text) : unshield (s ++ (w ++ t)) cs = unshield s cs ++ (w ++ unshield t cs) := by
  rw [unshield, foldr_replace_append fun c hc => (h c hc).1,
    foldr_replace_append fun c hc => (h c hc).2, unshield, unshield]

theorem unshield_append_cons {x : Char} (hn : ∀ c ∈ cs, c.mark ≠ [])
    (hx : ∀ c ∈ cs, x ∉ c.literalMark) (s t : Text) :
    unshield (s ++ x :: t) cs = unshield s cs ++ x :: unshield t cs := by
  refine unshield_append (w := [x]) (fun c hc => ⟨spares_char ?_ (hx c hc), ?_⟩) s t
  · exact fun h => hn c hc (List.append_eq_nil_iff.1 h).1
  · exact spares_char (hn c hc) fun h => hx c hc (List.mem_append_left _ h)

/-- Restoring takes away no character that stands in no mark. -/
theorem count_le_unshield {x : Char} (hn : ∀ c ∈ cs, c.mark ≠ [])
    (hx : ∀ c ∈ cs, x ∉ c.literalMark) (t : Text) : t.count x ≤ (unshield t cs).count x := by
  rw [unshield]
  refine (count_le_foldr_replace (fun c hc => ⟨?_, hx c hc⟩) t).trans
    (count_le_foldr_replace (fun c hc => ⟨hn c hc, ?_⟩) _)
  · exact fun h => hn c hc (List.append_eq_nil_iff.1 h).1
  · exact fun h => hx c hc (List.mem_append_left _ h)

theorem unshield_eq_self (hn : ∀ c ∈ cs, c.mark ≠ []) {t : Text}
    (h : ∀ c ∈ cs, ¬ c.mark <:+: t) : unshield t cs = t := by
  have hl : ∀ c ∈ cs, c.literalMark ≠ [] ∧ ¬ c.literalMark <:+: t := by
    intro c hc
    refine ⟨fun he => hn c hc (List.append_eq_nil_iff.1 he).1, fun hi => h c hc ?_⟩
    exact (List.prefix_append _ _).isInfix.trans hi
  rw [unshield, foldr_replace_eq_self hl]
  exact foldr_replace_eq_self fun c hc => ⟨hn c hc, h c hc⟩

/-! ## Literal marks -/

section Literals

variable {n : Numbered} {b : Char}

/-- No mark holds a character that a literal spells in another way. -/
def Unescaped (cs : List Clipping) : Prop := ∀ c ∈ cs, ∀ x ∈ c.mark, x ∉ escaped

/-- Pieces of a text as pieces of its spelling in a literal. -/
def escapedPieces (qs : List (Piece Clipping)) : List (Piece Clipping) :=
  qs.flatMap fun
    | .char c => (escapeChar c).map .char
    | .hit a => [.hit a]

theorem join_escapedPieces (w : Clipping → Text) (qs : List (Piece Clipping)) :
    join (fun a => escape (w a)) (escapedPieces qs) = escape (join w qs) := by
  induction qs with
  | nil => exact escape_nil.symm
  | cons q qs ih =>
    rw [escapedPieces, List.flatMap_cons, join_append]
    change _ ++ join _ (escapedPieces qs) = _
    rw [ih]
    cases q with
    | char c => rw [join_map_char, join_char, escape_cons]
    | hit a => rw [join_hit, join_hit, escape_append, join_nil, List.append_nil]

theorem mem_escapedPieces {qs : List (Piece Clipping)} {a : Clipping}
    (h : .hit a ∈ escapedPieces qs) : .hit a ∈ qs := by
  obtain ⟨q, hq, h⟩ := List.mem_flatMap.1 h
  cases q with
  | char c =>
    obtain ⟨d, -, hd⟩ := List.mem_map.1 h
    exact absurd hd (by simp)
  | hit d => rwa [List.mem_singleton.1 h]

/-- The marks of those that are done are literal marks already. -/
def partly (done : List Clipping) (a : Clipping) : Text :=
  if a ∈ done then a.literalMark else a.mark

theorem eq_of_mark_prefix (hb : Legible n b) (hl : n.Labelled cs) {a c : Clipping} (ha : a ∈ cs)
    (hc : c ∈ cs) {done : List Clipping} {t : Text} (h : c.mark <+: partly done a ++ t) :
    a = c := by
  obtain ⟨u, hu⟩ : ∃ u, partly done a = a.mark ++ u := by
    rw [partly]
    split
    · exact ⟨"js".toList, rfl⟩
    · exact ⟨[], (List.append_nil a.mark).symm⟩
  rw [hu, List.append_assoc] at h
  exact (hl.mark_prefix_iff hb.toSeparate ha hc).1 h

theorem replace_partly (hb : Legible n b) (hl : n.Labelled cs) {qs : List (Piece Clipping)}
    {z : Clipping → Text} (hq : ∀ a, .hit a ∈ qs → a ∈ cs) {done : List Clipping} {c : Clipping}
    (hc : c ∈ cs) (hd : c ∉ done) (hz : ¬ c.mark <:+: join z qs) :
    replace c.mark c.literalMark (join (partly done) qs) = join (partly (done ++ [c])) qs := by
  have hself : partly done c = c.mark := if_neg hd
  obtain ⟨m, hm, hbm⟩ := hl.mark_eq_cons hb.toSeparate hc
  have heq {a : Clipping} (ha : .hit a ∈ qs) {t : Text} (h : b :: m <+: partly done a ++ t) :
      a = c := eq_of_mark_prefix hb hl (hq a ha) hc (hm ▸ h)
  rw [hm] at hz ⊢
  rw [replace_join hbm ?_ ?_ hz]
  · refine join_congr fun a ha => ?_
    by_cases hac : a = c
    · subst hac
      rw [hself, if_pos hm, partly, if_pos (by simp)]
    · have hne : partly done a ≠ b :: m := by
        intro he
        exact hac (heq ha (t := []) (by rw [he, List.append_nil]))
      rw [if_neg hne, partly, partly]
      simp [hac]
  · intro a ha
    right
    rw [partly]
    split
    · exact hb.literalMark_eq_cons hl (hq a ha)
    · exact hl.mark_eq_cons hb.toSeparate (hq a ha)
  · rintro pre a post rfl - hp
    rw [heq (by simp) hp, hself, hm]

/-- Marks become literal marks one after the other. -/
theorem foldl_literalMark (hb : Legible n b) (hl : n.Labelled cs) {qs : List (Piece Clipping)}
    {z : Clipping → Text} (hq : ∀ a, .hit a ∈ qs → a ∈ cs)
    (hz : ∀ c ∈ cs, ¬ c.mark <:+: join z qs) :
    cs.foldl (fun s c => replace c.mark c.literalMark s) (join Clipping.mark qs) =
      join Clipping.literalMark qs := by
  have hpass (todo done : List Clipping) (h : done ++ todo = cs) :
      todo.foldl (fun s c => replace c.mark c.literalMark s) (join (partly done) qs) =
        join (partly cs) qs := by
    induction todo generalizing done with
    | nil => rw [List.foldl_nil, ← h, List.append_nil]
    | cons c todo ih =>
      have hc : c ∈ cs := by simp [← h]
      have hd : c ∉ done := by
        intro hd
        have hp := hl.distinct
        rw [← h, List.pairwise_append] at hp
        exact hp.2.2 c hd c List.mem_cons_self rfl
      rw [List.foldl_cons, replace_partly hb hl hq hc hd (hz c hc)]
      exact ih (done ++ [c]) (by simp [← h])
  have hnone : join (partly []) qs = join Clipping.mark qs :=
    join_congr fun a _ => if_neg List.not_mem_nil
  rw [← hnone, hpass cs [] rfl]
  exact join_congr fun a ha => if_pos (hq a ha)

/-- Every piece is taken for a literal mark. -/
theorem join_written_literal (qs : List (Piece Clipping)) :
    ∃ gs : List (Piece (Clipping × Bool)), (∀ a, .hit a ∈ gs → .hit a.1 ∈ qs) ∧
      join written gs = join Clipping.literalMark qs ∧
      join half gs = join (fun c => escape c.text) qs ∧
      join restored gs = join (fun c => escape c.text) qs := by
  induction qs with
  | nil => exact ⟨[], fun a h => absurd h List.not_mem_nil, rfl, rfl, rfl⟩
  | cons q qs ih =>
    obtain ⟨gs, hm, hw, hh, hr⟩ := ih
    cases q with
    | char c =>
      refine ⟨.char c :: gs, fun a h => ?_, ?_, ?_, ?_⟩
      · simp only [List.mem_cons, reduceCtorEq, false_or] at h
        exact List.mem_cons_of_mem _ (hm a h)
      · rw [join_char, join_char, hw]
      · rw [join_char, join_char, hh]
      · rw [join_char, join_char, hr]
    | hit c =>
      refine ⟨.hit (c, true) :: gs, fun a h => ?_, ?_, ?_, ?_⟩
      · rcases List.mem_cons.1 h with h | h
        · rw [Piece.hit.inj h]
          exact List.mem_cons_self
        · exact List.mem_cons_of_mem _ (hm a h)
      · rw [join_hit, join_hit, hw, written]
      · rw [join_hit, join_hit, hh, half]
      · rw [join_hit, join_hit, hr, restored]

/-- What a literal says in the end: its text with the blocks in it, escaped as a whole. -/
theorem unshield_escape (hb : Legible n b) (hl : n.Labelled cs) (he : Unescaped cs) {t : Text}
    (hq : ∀ c ∈ cs, ¬ c.mark <:+: withBlocks cs t) :
    unshield (cs.foldl (fun s c => replace c.mark c.literalMark s) (escape t)) cs =
      escape (withBlocks cs t) := by
  have hn := hl.mark_ne_nil
  have hspell {c : Clipping} (hc : c ∈ cs) {u : Text} (h : c.mark <:+: escape u) :
      c.mark <:+: u := by
    obtain ⟨k, hk⟩ := hl.exists_label c hc
    rw [hk] at h ⊢
    exact hb.infix_of_infix_restored (a := (⟨[], u⟩, true)) h
  have hmem {a : Clipping} (h : .hit a ∈ escapedPieces (found cs t)) : a ∈ cs :=
    mem_of_mem_found (mem_escapedPieces h)
  have hbackslash {c : Clipping} (hc : c ∈ cs) : '\\' ∉ c.mark := by
    intro hx
    exact he c hc '\\' hx (by decide)
  -- the spelling holds the same marks
  have hmarks : escape t = join Clipping.mark (escapedPieces (found cs t)) := by
    rw [← join_mark_found hn t, ← join_escapedPieces, join_mark_found hn t]
    apply join_congr
    intro c hc
    exact escape_eq_self (he c (hmem hc))
  obtain ⟨gs, hm, hw, hh, hr⟩ := join_written_literal (escapedPieces (found cs t))
  have hblocks : join restored gs = escape (withBlocks cs t) := by
    rw [hr, withBlocks, ← join_escapedPieces]
  rw [hmarks, foldl_literalMark hb hl (fun a => hmem) (z := fun _ => escape ['\\']), ← hw,
    unshield_join_written hb hl, hblocks]
  · exact fun a ha => hmem (hm a ha)
  · intro c hc h
    rw [hh, ← hr, hblocks] at h
    exact hq c hc (hspell hc ((List.prefix_append _ _).isInfix.trans h))
  · intro c hc h
    rw [hblocks] at h
    exact hq c hc (hspell hc h)
  · intro c hc h
    rw [join_escapedPieces (fun _ => ['\\'])] at h
    exact not_infix_found hn hc (hbackslash hc) t (hspell hc h)

end Literals

/-! ## Blocks between foreign characters -/

namespace Bordered

variable {s : Shield} {document : Text} {b : Char}

theorem not_infix_withBlocks (hd : s.Bordered) (hb : Legible s.marks b) (t : Text) :
    ∀ c ∈ clippings (s.marked document),
      ¬ c.mark <:+: withBlocks (clippings (s.marked document)) t := by
  intro c hc h
  obtain ⟨k, hk⟩ := (labelled_clippings s document).exists_label c hc
  have hn := (labelled_clippings s document).mark_ne_nil
  have hx : '\\' ∉ c.mark := hk ▸ hb.notMem_label (by decide) k
  refine not_infix_found hn hc hx t (infix_join_of_enclosed (u := []) (fun a ha => ?_) h)
  have ha := mem_of_mem_found ha
  obtain ⟨x, r, y, ht, hxp, hyp, -⟩ := (hd.framed (Numbered.mem_clippings.1 ha) k).left
  exact ⟨⟨x, r, y, ht, hk ▸ hxp, hk ▸ hyp⟩, not_infix_text ha hc⟩

theorem unshield_found (hd : s.Bordered) (hb : Legible s.marks b) (t : Text) :
    (∀ c ∈ clippings (s.marked document),
      ¬ c.mark <:+: unshield t (clippings (s.marked document))) ∧
      unshield t (clippings (s.marked document)) =
        join restored (glue (found (clippings (s.marked document)) t)) := by
  have hn := (labelled_clippings s document).mark_ne_nil
  have hu : ∀ c ∈ clippings (s.marked document), ¬ c.mark <:+:
      join (fun _ => ['\\']) (found (clippings (s.marked document)) t) := by
    intro c hc
    obtain ⟨k, hk⟩ := (labelled_clippings s document).exists_label c hc
    exact not_infix_found hn hc (hk ▸ hb.notMem_label (by decide) k) t
  obtain ⟨hz, ht⟩ := hd.unshield_join_mark hb (fun c => mem_of_mem_found) hu
  rw [join_mark_found hn] at ht
  exact ⟨ht ▸ hz, ht⟩

theorem not_infix_unshield (hd : s.Bordered) (hb : Legible s.marks b) (t : Text) :
    ∀ c ∈ clippings (s.marked document),
      ¬ c.mark <:+: unshield t (clippings (s.marked document)) :=
  (hd.unshield_found hb t).1

section Front

variable (hd : s.Bordered) (hb : Legible s.marks b) {c : Clipping}
  (hc : c ∈ clippings (s.marked document)) {t : Text}

include hd hb hc

/-- A mark in front of a text without marks. -/
theorem unshield_front (ht : ∀ d ∈ clippings (s.marked document), ¬ d.mark <:+: t) :
    unshield (c.mark ++ t) (clippings (s.marked document)) =
      join restored (glue (.hit c :: t.map .char)) := by
  have hu : ∀ d ∈ clippings (s.marked document), ¬ d.mark <:+:
      join (fun _ => ['\\']) (.hit c :: t.map .char) := by
    intro d hdc h
    obtain ⟨k, hk⟩ := (labelled_clippings s document).exists_label d hdc
    rw [join_hit, join_map_char] at h
    rcases infix_append_cons (s := []) (hk ▸ hb.notMem_label (by decide) k) h with h | h
    · exact (labelled_clippings s document).mark_ne_nil d hdc (List.infix_nil.1 h)
    · exact ht d hdc h
  have hps : ∀ d, .hit d ∈ (.hit c :: t.map .char : List (Piece Clipping)) →
      d ∈ clippings (s.marked document) := by
    intro d hm
    obtain rfl := Piece.hit.inj ((List.mem_cons.1 hm).resolve_right (by simp))
    exact hc
  have h := (hd.unshield_join_mark hb hps hu).2
  rwa [join_hit, join_map_char] at h

theorem unshield_mark_append (hj : ¬ "js".toList <+: t)
    (ht : ∀ d ∈ clippings (s.marked document), ¬ d.mark <:+: t) :
    unshield (c.mark ++ t) (clippings (s.marked document)) = c.text ++ t := by
  rw [hd.unshield_front hb hc ht, glue, glue_map_char, join_hit, join_map_char, restored]
  intro ps he
  obtain ⟨x, t, rfl, hx, he⟩ := List.map_eq_cons_iff.1 he
  obtain ⟨y, t, rfl, hy, -⟩ := List.map_eq_cons_iff.1 he
  rw [Piece.char.inj hx, Piece.char.inj hy] at hj
  exact hj (List.prefix_append "js".toList t)

theorem unshield_literalMark_append
    (ht : ∀ d ∈ clippings (s.marked document), ¬ d.mark <:+: "js".toList ++ t) :
    unshield (c.mark ++ ("js".toList ++ t)) (clippings (s.marked document)) =
      escape c.text ++ t := by
  rw [hd.unshield_front hb hc ht]
  change join restored (.hit (c, true) :: glue (t.map .char)) = _
  rw [join_hit, glue_map_char, join_map_char, restored]

end Front

/-- A block whose mark stands in a text comes back in it, as it was or escaped. -/
theorem infix_unshield (hd : s.Bordered) (hb : Legible s.marks b) {c : Clipping}
    (hc : c ∈ clippings (s.marked document)) {t : Text} (h : c.mark <:+: t) :
    c.text <:+: unshield t (clippings (s.marked document)) ∨
      escape c.text <:+: unshield t (clippings (s.marked document)) := by
  have hl := labelled_clippings s document
  obtain ⟨k, hk⟩ := hl.exists_label c hc
  have hx : '\\' ∉ c.mark := hk ▸ hb.notMem_label (by decide) k
  obtain ⟨g, hg⟩ := exists_mem_glue (hit_mem_found hl.mark_ne_nil hb.toSeparate hl hc hx h)
  obtain ⟨before, after, he⟩ := List.append_of_mem hg
  have hi : restored (c, g) <:+: unshield t (clippings (s.marked document)) := by
    rw [(hd.unshield_found hb t).2, he, join_append, join_hit]
    exact ⟨join restored before, join restored after, List.append_assoc _ _ _⟩
  cases g with
  | true => exact Or.inr hi
  | false => exact Or.inl hi

end Bordered

end InlineBinding.Shield
