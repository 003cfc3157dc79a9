import InlineBinding.Proofs.Delimiters.Words
import InlineBinding.Proofs.Shield.Blocks

/-!
# Which blocks are shielded

At one place the first delimiters decide that have a block there, and the block ends at the
nearest closing one. A document is cut at the leftmost block, and so on behind it; between the
blocks no delimiters stand open with their closing one anywhere later. Marks are foreign to
delimiters without letters and digits, so that a shielded document has no block left.
-/
namespace InlineBinding.Shield
open Text

/-- The block with which a text begins, and what follows: the first delimiters decide that have
one there. -/
inductive Takes : List Delimiters → Text → Text → Text → Prop
  | here {d : Delimiters} {ds : List Delimiters} {s x r : Text} (block : d.Encloses s x r) :
    Takes (d :: ds) s (d.wrap x) r
  | later {d : Delimiters} {ds : List Delimiters} {s b r : Text} (closed : ¬ d.Opens s)
    (takes : Takes ds s b r) : Takes (d :: ds) s b r

/-- A document cut at its blocks: each with the gap in front of it, and the gap behind the last
one. -/
inductive Cuts (delimiters : List Delimiters) : Text → List (Text × Text) → Text → Prop
  | gap {g : Text} (closed : ∀ x y, g = x ++ y → ∀ d ∈ delimiters, ¬ d.Opens y) :
    Cuts delimiters g [] g
  | block {g s b r last : Text} {blocks : List (Text × Text)}
    (closed : ∀ x y, g ++ s = x ++ y → x.length < g.length → ∀ d ∈ delimiters, ¬ d.Opens y)
    (takes : Takes delimiters s b r) (rest : Cuts delimiters r blocks last) :
    Cuts delimiters (g ++ s) ((g, b) :: blocks) last

variable {delimiters : List Delimiters} {s : Text}

theorem lengthAt?_eq_none_iff :
    lengthAt? delimiters s = none ↔ ∀ d ∈ delimiters, ¬ d.Opens s := by
  simp only [lengthAt?, List.findSome?_eq_none_iff, Delimiters.blockAt?_eq_none_iff]

theorem lengthAt?_eq_some_iff {n : ℕ} :
    lengthAt? delimiters s = some n ↔ ∃ b r, Takes delimiters s b r ∧ n = b.length := by
  rw [lengthAt?]
  induction delimiters with
  | nil =>
    refine iff_of_false (by simp) ?_
    rintro ⟨b, r, h, -⟩
    cases h
  | cons d ds ih =>
    rw [List.findSome?_cons]
    cases hb : d.blockAt? s with
    | none =>
      have hclosed := Delimiters.blockAt?_eq_none_iff.1 hb
      rw [ih]
      constructor
      · rintro ⟨b, r, h, rfl⟩
        exact ⟨b, r, .later hclosed h, rfl⟩
      · rintro ⟨b, r, h, rfl⟩
        cases h with
        | here h => exact absurd ⟨_, _, h.text⟩ hclosed
        | later _ h => exact ⟨b, r, h, rfl⟩
    | some m =>
      obtain ⟨x, r, hx, rfl⟩ := Delimiters.blockAt?_eq_some_iff.1 hb
      constructor
      · intro h
        exact ⟨d.wrap x, r, .here hx, (Option.some.inj h).symm⟩
      · rintro ⟨b, t, h, rfl⟩
        cases h with
        | @here _ _ _ y _ hy =>
          have hlength := Nat.le_antisymm (hx.nearest y t hy.text) (hy.nearest x r hx.text)
          simp [Delimiters.wrap, hlength]
        | later hclosed _ => exact absurd ⟨_, _, hx.text⟩ hclosed

theorem Takes.text {b r : Text} (h : Takes delimiters s b r) : s = b ++ r := by
  induction h with
  | here h => exact h.text
  | later _ _ ih => exact ih

theorem Takes.ne_nil (hd : ∀ d ∈ delimiters, d.opening ≠ []) {b r : Text}
    (h : Takes delimiters s b r) : b ≠ [] := by
  induction h with
  | here _ =>
    rw [Delimiters.wrap, List.append_assoc]
    exact List.append_ne_nil_of_left_ne_nil (hd _ List.mem_cons_self) _
  | later _ _ ih => exact ih fun d h => hd d (List.mem_cons_of_mem _ h)

/-! ## The pieces of a document -/

theorem pieces_nil (hd : ∀ d ∈ delimiters, d.opening ≠ []) : pieces delimiters [] = [] := by
  have hclosed : lengthAt? delimiters [] = none := by
    rw [lengthAt?_eq_none_iff]
    intro d hm h
    obtain ⟨r, hr, -⟩ := Delimiters.opens_iff.1 h
    exact hd d hm (List.append_eq_nil_iff.1 hr.symm).1
  simp [pieces, atEnd, hclosed]

theorem pieces_cons {c : Char} (h : ∀ d ∈ delimiters, ¬ d.Opens (c :: s)) :
    pieces delimiters (c :: s) = .char c :: pieces delimiters s := by
  have hnone : blocksAt? delimiters (c :: s) = none := by
    rw [blocksAt?, lengthAt?_eq_none_iff.2 h]
  rw [pieces, cut_cons_of_none hnone]
  rfl

theorem pieces_of_takes (hd : ∀ d ∈ delimiters, d.opening ≠ []) {b r : Text}
    (h : Takes delimiters s b r) : pieces delimiters s = .hit b :: pieces delimiters r := by
  have hne := h.ne_nil hd
  have hrule : blocksAt? delimiters s = some ([b], b.length) := by
    rw [blocksAt?, lengthAt?_eq_some_iff.2 ⟨b, r, h, rfl⟩, h.text]
    simp [hne]
  obtain rfl := h.text
  rw [pieces, cut_match_append hne hrule]
  rfl

/-- Blocks and the gaps between them as pieces. -/
def spread {α : Type} (blocks : List (Text × α)) (last : Text) : List (Piece α) :=
  blocks.flatMap (fun q => q.1.map .char ++ [.hit q.2]) ++ last.map .char

theorem spread_cons {α : Type} (g : Text) (a : α) (blocks : List (Text × α)) (last : Text) :
    spread ((g, a) :: blocks) last = g.map .char ++ .hit a :: spread blocks last := by
  simp [spread]

theorem join_spread {α : Type} (w : α → Text) (blocks : List (Text × α)) (last : Text) :
    join w (spread blocks last) = blocks.flatMap (fun q => q.1 ++ w q.2) ++ last := by
  induction blocks with
  | nil => exact join_map_char w last
  | cons q blocks ih =>
    rw [spread_cons, join_append, join_map_char, join_hit, ih]
    simp

/-- A gap ends at its block. -/
theorem exists_of_map_char_append {α : Type} {g g' : Text} {a : α} {ps qs : List (Piece α)}
    (h : g.map .char ++ .hit a :: ps = g'.map .char ++ qs) :
    ∃ t, g = g' ++ t ∧ qs = t.map .char ++ .hit a :: ps := by
  induction g' generalizing g with
  | nil => exact ⟨g, rfl, h.symm⟩
  | cons c g' ih =>
    cases g with
    | nil => simp at h
    | cons d g =>
      simp only [List.map_cons, List.cons_append, List.cons.injEq, Piece.char.injEq] at h
      obtain ⟨t, rfl, ht⟩ := ih h.2
      exact ⟨t, by rw [h.1]; rfl, ht⟩

theorem spread_injective {α : Type} {blocks blocks' : List (Text × α)} {last last' : Text}
    (h : spread blocks last = spread blocks' last') : blocks = blocks' ∧ last = last' := by
  have hchar : Function.Injective (Piece.char : Char → Piece α) := fun _ _ => Piece.char.inj
  induction blocks generalizing blocks' with
  | nil =>
    cases blocks' with
    | nil => exact ⟨rfl, List.map_injective_iff.2 hchar h⟩
    | cons q blocks' =>
      have hm : Piece.hit q.2 ∈ spread [] last := by rw [h, spread_cons]; simp
      simp [spread] at hm
  | cons p blocks ih =>
    cases blocks' with
    | nil =>
      have hm : Piece.hit p.2 ∈ spread [] last' := by rw [← h, spread_cons]; simp
      simp [spread] at hm
    | cons q blocks' =>
      rw [spread_cons, spread_cons] at h
      obtain ⟨t, ht, hrest⟩ := exists_of_map_char_append h
      cases t with
      | nil =>
        simp only [List.map_nil, List.nil_append, List.cons.injEq, Piece.hit.injEq] at hrest
        obtain ⟨rfl, rfl⟩ := ih hrest.2.symm
        exact ⟨by rw [Prod.ext (ht.trans (List.append_nil _)) hrest.1.symm], rfl⟩
      | cons c t => simp at hrest

theorem pieces_append {g : Text} (h : ∀ x y, g ++ s = x ++ y → x.length < g.length →
    ∀ d ∈ delimiters, ¬ d.Opens y) :
    pieces delimiters (g ++ s) = g.map .char ++ pieces delimiters s := by
  induction g with
  | nil => rfl
  | cons c g ih =>
    have hc : ∀ d ∈ delimiters, ¬ d.Opens (c :: (g ++ s)) := h [] _ rfl (Nat.succ_pos _)
    have hg := ih fun x y he hlt =>
      h (c :: x) y (by rw [List.cons_append, he]; rfl) (Nat.succ_lt_succ hlt)
    rw [List.cons_append, pieces_cons hc, hg]
    rfl

section Cuts

variable {document last : Text} {blocks : List (Text × Text)}

theorem Cuts.pieces_eq (hd : ∀ d ∈ delimiters, d.opening ≠ [])
    (h : Cuts delimiters document blocks last) :
    pieces delimiters document = spread blocks last := by
  induction h with
  | @gap g closed =>
    have hg := pieces_append (s := []) (g := g) fun x y he _ =>
      closed x y ((List.append_nil g).symm.trans he)
    rwa [List.append_nil, pieces_nil hd, List.append_nil] at hg
  | block closed takes _ ih => rw [pieces_append closed, pieces_of_takes hd takes, ih, spread_cons]

theorem Cuts.text (h : Cuts delimiters document blocks last) :
    document = join id (spread blocks last) := by
  induction h with
  | gap _ => exact (join_map_char id _).symm
  | block _ takes _ ih =>
    rw [spread_cons, join_append, join_map_char, join_hit, ← ih, takes.text, id]

theorem Cuts.cons {c : Char} (hc : ∀ d ∈ delimiters, ¬ d.Opens (c :: s))
    (h : Cuts delimiters s blocks last) :
    ∃ blocks last, Cuts delimiters (c :: s) blocks last := by
  cases h with
  | gap closed =>
    refine ⟨_, _, .gap fun x y he => ?_⟩
    rcases List.cons_eq_append_iff.1 he with ⟨rfl, rfl⟩ | ⟨z, rfl, hz⟩
    · exact hc
    · exact closed z y hz
  | @block g s b r _ blocks closed takes rest =>
    refine ⟨_, _, .block (g := c :: g) (fun x y he hlt => ?_) takes rest⟩
    rcases List.cons_eq_append_iff.1 he with ⟨rfl, rfl⟩ | ⟨z, rfl, hz⟩
    · exact hc
    · exact closed z y hz (Nat.lt_of_succ_lt_succ hlt)

theorem exists_cuts (hd : ∀ d ∈ delimiters, d.opening ≠ []) (document : Text) :
    ∃ blocks last, Cuts delimiters document blocks last := by
  induction hn : document.length using Nat.strong_induction_on generalizing document with
  | _ n ih =>
    subst hn
    cases hl : lengthAt? delimiters document with
    | some n =>
      obtain ⟨b, r, h, -⟩ := lengthAt?_eq_some_iff.1 hl
      have hlength := congrArg List.length h.text
      have hb := List.length_pos_iff.2 (h.ne_nil hd)
      rw [List.length_append] at hlength
      obtain ⟨blocks, last, hr⟩ := ih r.length (by omega) r rfl
      exact ⟨_, _, .block (g := []) (fun x y _ hlt => absurd hlt (Nat.not_lt_zero _)) h hr⟩
    | none =>
      have hclosed := lengthAt?_eq_none_iff.1 hl
      cases document with
      | nil =>
        refine ⟨_, _, .gap fun x y he => ?_⟩
        obtain ⟨-, rfl⟩ := List.append_eq_nil_iff.1 he.symm
        exact hclosed
      | cons c document =>
        obtain ⟨blocks, last, h⟩ := ih document.length (Nat.lt_succ_self _) document rfl
        exact h.cons hclosed

theorem cuts_iff (hd : ∀ d ∈ delimiters, d.opening ≠ []) :
    Cuts delimiters document blocks last ↔ pieces delimiters document = spread blocks last := by
  refine ⟨Cuts.pieces_eq hd, fun h => ?_⟩
  obtain ⟨blocks', last', hc⟩ := exists_cuts hd document
  obtain ⟨rfl, rfl⟩ := spread_injective (h.symm.trans (hc.pieces_eq hd))
  exact hc

end Cuts

/-! ## Marks for the blocks -/

theorem clippings_spread (blocks : List (Text × Clipping)) (last : Text) :
    clippings (spread blocks last) = blocks.map Prod.snd := by
  have hchars (g : Text) (ps : List (Piece Clipping)) :
      clippings (g.map .char ++ ps) = clippings ps := by
    induction g with
    | nil => rfl
    | cons c g ih => exact ih
  induction blocks with
  | nil =>
    have h := hchars last []
    rwa [List.append_nil] at h
  | cons q blocks ih =>
    rw [spread_cons, hchars]
    exact congrArg (q.2 :: ·) ih

/-- Labelled pieces have the gaps that they had. -/
theorem exists_assign_spread (n : Numbered) (document : Text) (k : ℕ)
    (blocks : List (Text × Text)) (last : Text) :
    ∃ labelled : List (Text × Clipping), labelled.map (fun q => (q.1, q.2.text)) = blocks ∧
      n.assign document k (spread blocks last) = spread labelled last := by
  have hchars (k : ℕ) (g : Text) (ps : List (Piece Text)) :
      n.assign document k (g.map .char ++ ps) = g.map .char ++ n.assign document k ps := by
    induction g with
    | nil => rfl
    | cons c g ih => exact congrArg (.char c :: ·) ih
  induction blocks generalizing k with
  | nil => exact ⟨[], rfl, n.assign_map_char document k last⟩
  | cons q blocks ih =>
    obtain ⟨labelled, hblocks, hassign⟩ := ih (n.free document (k + 1))
    refine ⟨(q.1, ⟨n.label (n.free document (k + 1)), q.2⟩) :: labelled, ?_, ?_⟩
    · rw [List.map_cons, hblocks]
    · rw [spread_cons, hchars, Numbered.assign, hassign, spread_cons]

/-! ## Marks beside delimiters -/

/-- A mark with two ends that shares no character with the delimiters. -/
structure Beside (d : Delimiters) (mark : Text) : Prop extends d.Apart mark where
  framed : ∃ x r y, mark = x :: (r ++ [y])

namespace Beside

variable {d : Delimiters} {mark : Text}

theorem ne_nil (h : Beside d mark) : mark ≠ [] := by
  obtain ⟨x, r, y, rfl⟩ := h.framed
  exact List.cons_ne_nil _ _

theorem enclosed (h : Beside d mark) : Enclosed d.closing mark ∧ ¬ d.closing <:+: mark := by
  obtain ⟨x, r, y, hmark⟩ := h.framed
  refine ⟨⟨x, r, y, hmark, fun hx => ?_, fun hy => ?_⟩, fun hi => ?_⟩
  · exact h.closing x hx (by simp [hmark])
  · exact h.closing y hy (by simp [hmark])
  · obtain ⟨c, t, hc⟩ := List.exists_cons_of_ne_nil h.closing_ne
    have hm : c ∈ d.closing := by rw [hc]; exact List.mem_cons_self
    exact h.closing c hm (hi.subset hm)

/-- Nothing opens within a mark. -/
theorem not_opens (h : Beside d mark) {v w t : Text} (hm : mark = v ++ w) (hw : w ≠ []) :
    ¬ d.Opens (w ++ t) := by
  intro hopens
  obtain ⟨r, hr, -⟩ := Delimiters.opens_iff.1 hopens
  obtain ⟨o, os, ho⟩ := List.exists_cons_of_ne_nil h.opening_ne
  obtain ⟨e, w, rfl⟩ := List.exists_cons_of_ne_nil hw
  rw [ho, List.cons_append, List.cons_append] at hr
  obtain ⟨rfl, -⟩ := List.cons.inj hr
  exact h.opening e (by rw [ho]; exact List.mem_cons_self) (by simp [hm])

/-- An opening delimiter that begins in front of a mark ends there. -/
theorem opening_prefix (h : Beside d mark) {g r t : Text}
    (he : g ++ (mark ++ t) = d.opening ++ r) :
    ∃ u, g = d.opening ++ u ∧ r = u ++ (mark ++ t) := by
  rcases List.append_eq_append_iff.1 he with ⟨u, hu, hmark⟩ | ⟨u, hu, hr⟩
  · cases u with
    | nil =>
      rw [List.append_nil] at hu
      exact ⟨[], by rw [hu, List.append_nil], hmark.symm⟩
    | cons e u =>
      obtain ⟨x, m, hx⟩ := List.exists_cons_of_ne_nil h.ne_nil
      rw [hx, List.cons_append, List.cons_append] at hmark
      obtain ⟨rfl, -⟩ := List.cons.inj hmark
      exact absurd (by simp [hx]) (h.opening x (by simp [hu]))
  · exact ⟨u, hu, hr⟩

end Beside

variable {marked : List (Text × Clipping)} {last document : Text}

/-- Delimiters that stand open in front of a mark stand open in the document. -/
theorem opens_text {d : Delimiters} {g : Text} {c : Clipping} (hc : Beside d c.mark)
    (hm : ∀ q ∈ marked, Beside d q.2.mark)
    (h : d.Opens (g ++ join Clipping.mark (.hit c :: spread marked last))) :
    d.Opens (g ++ join Clipping.text (.hit c :: spread marked last)) := by
  rw [Delimiters.opens_iff] at h ⊢
  obtain ⟨r, hr, hclosing⟩ := h
  obtain ⟨u, rfl, rfl⟩ := hc.opening_prefix hr
  refine ⟨_, List.append_assoc _ _ _, infix_join_of_enclosed (fun a ha => ?_) hclosing⟩
  have hmark : Beside d a.mark := by
    rcases List.mem_cons.1 ha with ha | ha
    · rwa [Piece.hit.inj ha]
    · rw [← Numbered.mem_clippings, clippings_spread, List.mem_map] at ha
      obtain ⟨q, hq, rfl⟩ := ha
      exact hm q hq
  exact hmark.enclosed

/-- No delimiters stand open in a document with marks in place of its blocks. -/
theorem Cuts.not_opens {blocks : List (Text × Text)} (h : Cuts delimiters document blocks last)
    (hmap : marked.map (fun q => (q.1, q.2.text)) = blocks)
    (hm : ∀ q ∈ marked, ∀ d ∈ delimiters, Beside d q.2.mark) {x y : Text}
    (he : join Clipping.mark (spread marked last) = x ++ y) : ∀ d ∈ delimiters, ¬ d.Opens y := by
  induction h generalizing marked x y with
  | gap closed =>
    obtain rfl := List.map_eq_nil_iff.1 hmap
    exact closed x y ((join_map_char Clipping.mark _).symm.trans he)
  | @block g s b r last blocks closed takes rest ih =>
    obtain ⟨⟨g', c⟩, marked, rfl, hq, hblocks⟩ := List.map_eq_cons_iff.1 hmap
    obtain ⟨rfl, rfl⟩ := Prod.mk.inj hq
    rw [List.forall_mem_cons] at hm
    have hlater {x y : Text} (he : join Clipping.mark (spread marked last) = x ++ y) :=
      ih hblocks hm.2 he
    have htext : s = join Clipping.text (.hit c :: spread marked last) := by
      rw [takes.text, rest.text, join_hit, join_spread, join_spread, ← hblocks, List.flatMap_map]
      rfl
    rw [spread_cons, join_append, join_map_char, join_hit] at he
    intro d hmem hopens
    have hc := hm.1 d hmem
    -- the place is in the gap, in the mark or behind it
    rcases List.append_eq_append_iff.1 he with ⟨u, rfl, hy⟩ | ⟨u, rfl, rfl⟩
    · rcases List.append_eq_append_iff.1 hy with ⟨v, -, hv⟩ | ⟨v, hv, rfl⟩
      · exact hlater hv d hmem hopens
      · cases v with
        | nil => exact hlater (x := []) rfl d hmem hopens
        | cons e v => exact hc.not_opens hv (List.cons_ne_nil e v) hopens
    · cases u with
      | nil => exact hc.not_opens (v := []) rfl hc.ne_nil hopens
      | cons e u =>
        have hgap := opens_text hc (fun q hq => hm.2 q hq d hmem) hopens
        rw [← htext] at hgap
        exact closed x _ (List.append_assoc _ _ _) (by simp) d hmem hgap

theorem pieces_eq_map (hd : ∀ d ∈ delimiters, d.opening ≠ [])
    (h : ∀ x y, document = x ++ y → ∀ d ∈ delimiters, ¬ d.Opens y) :
    pieces delimiters document = document.map .char := by
  rw [(Cuts.gap h).pieces_eq hd]
  rfl

/-- A document with no block is shielded by itself. -/
theorem shield_eq_self (s : Shield) (hd : ∀ d ∈ s.delimiters, d.opening ≠ [])
    (h : ∀ x y, document = x ++ y → ∀ d ∈ s.delimiters, ¬ d.Opens y) :
    s.shield document = (document, []) := by
  have hmarked : s.marked document = document.map .char := by
    rw [Shield.marked, pieces_eq_map hd h, Numbered.assign_map_char]
  have hclippings : clippings (document.map .char) = [] := clippings_spread [] document
  rw [shield, hmarked, join_map_char, hclippings]

/-! ## Marks of letters and digits -/

theorem isAlphanum_of_mem_label {c : Char} {k : ℕ}
    (h : c ∈ Numbered.label ⟨"bind".toList, "ify".toList⟩ k) : c.isAlphanum = true := by
  have hword {t : Text} (ht : t.all Char.isAlphanum = true) (hc : c ∈ t) : c.isAlphanum = true :=
    List.all_eq_true.1 ht c hc
  rw [Numbered.label, List.mem_append, List.mem_append] at h
  rcases h with (h | h) | h
  · exact hword (by decide) h
  · rw [Char.isAlphanum, isDigit_of_mem_digits h, Bool.or_true]
  · exact hword (by decide) h

theorem beside_label {d : Delimiters} (hd : d.opening ≠ [] ∧ d.closing ≠ [])
    (hword : ∀ c ∈ d.opening ++ d.closing, c.isAlphanum = false) (k : ℕ) :
    Beside d (Numbered.label ⟨"bind".toList, "ify".toList⟩ k) := by
  have hnone : ∀ c ∈ d.opening ++ d.closing,
      c ∉ Numbered.label ⟨"bind".toList, "ify".toList⟩ k := by
    intro c hc hl
    exact Bool.noConfusion ((isAlphanum_of_mem_label hl).symm.trans (hword c hc))
  exact {
    opening_ne := hd.1
    closing_ne := hd.2
    opening := fun c hc => hnone c (List.mem_append_left _ hc)
    closing := fun c hc => hnone c (List.mem_append_right _ hc)
    framed := ⟨'b', "ind".toList ++ digits k ++ "if".toList, 'y', by simp [Numbered.label]⟩ }

/-- Shielding masks the leftmost blocks, each of the first delimiters that have one there and
through the nearest closing one, and no others. Delimiters without letters and digits have no
block in the shielded document. -/
theorem shield_cuts (s : Shield) (hd : ∀ d ∈ s.delimiters, d.opening ≠ [] ∧ d.closing ≠ [])
    (document : Text) :
    (∃ (marked : List (Text × Clipping)) (last : Text),
      (∀ blocks rest, Cuts s.delimiters document blocks rest ↔
        blocks = marked.map (fun q => (q.1, q.2.text)) ∧ rest = last) ∧
      document = marked.flatMap (fun q => q.1 ++ q.2.text) ++ last ∧
      s.shield document = (marked.flatMap (fun q => q.1 ++ q.2.mark) ++ last,
        marked.map Prod.snd)) ∧
    (s.marks = ⟨"bind".toList, "ify".toList⟩ →
      (∀ d ∈ s.delimiters, ∀ c ∈ d.opening ++ d.closing, c.isAlphanum = false) →
      s.shield (s.shield document).1 = ((s.shield document).1, [])) := by
  have hopening : ∀ d ∈ s.delimiters, d.opening ≠ [] := fun d h => (hd d h).1
  obtain ⟨blocks, last, hcuts⟩ := exists_cuts hopening document
  have hpieces := hcuts.pieces_eq hopening
  obtain ⟨marked, hblocks, hassign⟩ := exists_assign_spread s.marks document 0 blocks last
  have hmarked : s.marked document = spread marked last := by rw [Shield.marked, hpieces, hassign]
  refine ⟨⟨marked, last, fun qs l => ?_, ?_, ?_⟩, fun hmarks hword => ?_⟩
  · rw [cuts_iff hopening, hpieces, hblocks]
    constructor
    · intro h
      obtain ⟨rfl, rfl⟩ := spread_injective h
      exact ⟨rfl, rfl⟩
    · rintro ⟨rfl, rfl⟩
      rfl
  · rw [← join_spread, ← hmarked, join_text_marked]
  · rw [shield, hmarked, join_spread, clippings_spread]
  · have hlabels : ∀ q ∈ marked, ∀ d ∈ s.delimiters, Beside d q.2.mark := by
      intro q hq d hmem
      have hq : q.2 ∈ clippings (s.marked document) := by
        rw [hmarked, clippings_spread]
        exact List.mem_map_of_mem hq
      obtain ⟨k, hk⟩ := (labelled_clippings s document).exists_label _ hq
      rw [hk, hmarks]
      exact beside_label (hd d hmem) (hword d hmem) k
    have hshielded : (s.shield document).1 = join Clipping.mark (spread marked last) := by
      rw [shield, hmarked]
    exact shield_eq_self s hopening fun x y he =>
      hcuts.not_opens hblocks hlabels (hshielded.symm.trans he)

/-- Where the first opening delimiter has no closing one, a shorter one behind it in the list may
have its block. -/
theorem shield_cuts_tags :
    let s : Shield := { delimiters := [⟨"<!--".toList, "-->".toList⟩, ⟨['<'], ['>']⟩] }
    (∃ blocks last, Cuts s.delimiters "<!--a>b<c>".toList blocks last ∧
      blocks.map Prod.snd = ["<!--a>".toList, "<c>".toList]) ∧
      (s.shield "<!--a>b<c>".toList).1 = "bind1ifybbind2ify".toList ∧
      s.shield "bind1ifybbind2ify".toList = ("bind1ifybbind2ify".toList, []) := by
  intro s
  have hshield : s.shield "<!--a>b<c>".toList = ("bind1ifybbind2ify".toList,
      [⟨"bind1ify".toList, "<!--a>".toList⟩, ⟨"bind2ify".toList, "<c>".toList⟩]) := by
    decide +kernel
  obtain ⟨⟨marked, last, hcuts, -, hmarked⟩, hagain⟩ :=
    shield_cuts s (by decide) "<!--a>b<c>".toList
  have hword : ∀ d ∈ s.delimiters,
      (d.opening ++ d.closing).all (fun c => c.isAlphanum = false) = true := by decide
  have hagain := hagain rfl fun d hd => forall_mem_of_all (hword d hd)
  rw [hshield] at hmarked hagain
  refine ⟨⟨_, last, (hcuts _ _).2 ⟨rfl, rfl⟩, ?_⟩, by rw [hshield], hagain⟩
  calc (marked.map fun q => (q.1, q.2.text)).map Prod.snd
      = (marked.map Prod.snd).map Clipping.text := by simp
    _ = ["<!--a>".toList, "<c>".toList] := by rw [← (Prod.mk.inj hmarked).2]; rfl

end InlineBinding.Shield
