import InlineBinding.Proofs.Literal.Escape
import InlineBinding.Proofs.Shield.Blocks

/-! # Putting the blocks back

A plain mark that stands before the letters of a literal mark is taken for one.  The two series of
passes then restore an escaped block and lose the letters; no other document is changed, as long
as marks can be told apart from each other and from what stands around them.
-/
namespace InlineBinding.Shield
open Text Literal

/-! ## Conditions -/

/-- Every mark can be read at one place only when its pass comes, and no literal mark anywhere. -/
def Clear (s : Shield) (document : Text) : Prop :=
  ∀ before c after, s.marked document = before ++ .hit c :: after →
    ¬ c.literalMark <:+: join Clipping.mark (s.marked document) ∧
    ∀ x y, join Clipping.mark before ++ (c.mark ++ join Clipping.text after) = x ++ (c.mark ++ y) →
      x = join Clipping.mark before

/-- Some block stands before the letters that end a literal mark. -/
def Glued (s : Shield) (document : Text) : Prop :=
  ∃ before c after, s.marked document = before ++ .hit c :: .char 'j' :: .char 's' :: after

/-- Marks of this kind stay apart from each other and from every spelling in a literal. -/
structure Legible (n : Numbered) (b : Char) : Prop extends n.Separate b where
  notMem_js : b ∉ "js".toList
  notMem_spelling : b ∉ spelling
  plain : ∀ c ∈ ['\\', '&'], c ∉ n.before ∧ c ∉ n.after

/-- A character that no mark holds and that is spelled as itself. -/
def Foreign (n : Numbered) (c : Char) : Prop :=
  c ∉ "js".toList ∧ c ∉ escaped ∧ c ∉ n.before ∧ c ∉ n.after ∧ c.isDigit = false

/-- Blocks begin and end with foreign characters. -/
def Bordered (s : Shield) : Prop :=
  ∀ d ∈ s.delimiters, (∃ c r, d.opening = c :: r ∧ Foreign s.marks c) ∧
    ∃ c r, d.closing = r ++ [c] ∧ Foreign s.marks c

/-! ## Clear documents -/

theorem foldr_replace_eq_self {pat txt : Clipping → Text} {cs : List Clipping} {t : Text}
    (hp : ∀ c ∈ cs, pat c ≠ [] ∧ ¬ pat c <:+: t) :
    cs.foldr (fun c s => replace (pat c) (txt c) s) t = t := by
  induction cs with
  | nil => rfl
  | cons c cs ih =>
    rw [List.foldr_cons, ih fun d hd => hp d (List.mem_cons_of_mem c hd)]
    exact replace_eq_self _ (hp c List.mem_cons_self).1 (hp c List.mem_cons_self).2

variable {s : Shield} {document : Text}

/-- The passes over the plain marks restore the blocks from the last one to the first. -/
theorem Clear.foldr_replace (h : s.Clear document) (before after : List (Piece Clipping))
    (he : s.marked document = before ++ after) :
    (clippings after).foldr (fun c s => replace c.mark c.text s)
        (join Clipping.mark before ++ join Clipping.mark after) =
      join Clipping.mark before ++ join Clipping.text after := by
  induction after generalizing before with
  | nil => rfl
  | cons p after ih =>
    have hn : s.marked document = (before ++ [p]) ++ after := by rw [he]; simp
    have ih := ih (before ++ [p]) hn
    cases p with
    | char c =>
      simp only [join_append, join_char, join_nil, List.append_assoc, List.singleton_append] at ih
      exact ih
    | hit c =>
      have hm : c ∈ clippings (s.marked document) := Numbered.mem_clippings.2 (by rw [he]; simp)
      have hne := (labelled_clippings s document).mark_ne_nil c hm
      have hc := (h before c after he).2
      simp only [join_append, join_hit, join_nil, List.append_nil, List.append_assoc] at ih
      change replace c.mark c.text ((clippings after).foldr _ _) = _
      rw [join_hit, ih, join_hit]
      exact replace_unique c.text hne hc

theorem Clear.unshield_eq (h : s.Clear document) :
    unshield (s.shield document).1 (s.shield document).2 = document := by
  have hl : ∀ c ∈ clippings (s.marked document), c.literalMark ≠ [] ∧
      ¬ c.literalMark <:+: join Clipping.mark (s.marked document) := by
    intro c hc
    rw [Numbered.mem_clippings] at hc
    obtain ⟨before, after, he⟩ := List.append_of_mem hc
    exact ⟨by simp [Clipping.literalMark], (h before c after he).1⟩
  have hf := h.foldr_replace [] _ (List.nil_append _).symm
  rw [shield, unshield, foldr_replace_eq_self hl]
  exact hf.trans (join_text_marked s document)

/-! ## Glued blocks -/

/-- Marks together with the letters behind them that make them literal marks. -/
def glue : List (Piece Clipping) → List (Piece (Clipping × Bool))
  | [] => []
  | .char c :: ps => .char c :: glue ps
  | .hit c :: .char 'j' :: .char 's' :: ps => .hit (c, true) :: glue ps
  | .hit c :: ps => .hit (c, false) :: glue ps

def written : Clipping × Bool → Text
  | (c, true) => c.literalMark
  | (c, false) => c.mark

/-- Between the two series of passes. -/
def half : Clipping × Bool → Text
  | (c, true) => escape c.text
  | (c, false) => c.mark

def restored : Clipping × Bool → Text
  | (c, true) => escape c.text
  | (c, false) => c.text

/-- The letters are kept, whatever stands for the mark before them. -/
def lettered (u : Clipping → Text) : Clipping × Bool → Text
  | (c, true) => u c ++ "js".toList
  | (c, false) => u c

theorem join_lettered_glue (u : Clipping → Text) (ps : List (Piece Clipping)) :
    join (lettered u) (glue ps) = join u ps := by
  fun_induction glue ps with
  | case1 => rfl
  | case2 c ps ih => rw [join_char, join_char, ih]
  | case3 c ps ih =>
    rw [join_hit, join_hit, ih, lettered, List.append_assoc]
    rfl
  | case4 c ps _ ih => rw [join_hit, join_hit, ih, lettered]

theorem glue_map_char (t : Text) : glue (t.map .char) = t.map .char := by
  induction t with
  | nil => rfl
  | cons c t ih => exact congrArg (.char c :: ·) ih

theorem written_eq : written = lettered Clipping.mark := by
  funext ⟨c, g⟩
  cases g <;> rfl

theorem mem_of_mem_glue {ps : List (Piece Clipping)} {a : Clipping × Bool}
    (h : .hit a ∈ glue ps) : .hit a.1 ∈ ps := by
  fun_induction glue ps with
  | case1 => exact absurd h List.not_mem_nil
  | case2 c ps ih =>
    rcases List.mem_cons.1 h with h | h
    · exact absurd h (by simp)
    · exact List.mem_cons_of_mem _ (ih h)
  | case3 c ps ih =>
    rcases List.mem_cons.1 h with h | h
    · obtain rfl := Piece.hit.inj h
      exact List.mem_cons_self
    · exact List.mem_cons_of_mem _ (List.mem_cons_of_mem _ (List.mem_cons_of_mem _ (ih h)))
  | case4 c ps _ ih =>
    rcases List.mem_cons.1 h with h | h
    · obtain rfl := Piece.hit.inj h
      exact List.mem_cons_self
    · exact List.mem_cons_of_mem _ (ih h)

theorem exists_mem_glue {ps : List (Piece Clipping)} {c : Clipping} (h : .hit c ∈ ps) :
    ∃ g, .hit (c, g) ∈ glue ps := by
  fun_induction glue ps with
  | case1 => exact absurd h List.not_mem_nil
  | case2 d ps ih =>
    obtain ⟨g, hg⟩ := ih ((List.mem_cons.1 h).resolve_left (by simp))
    exact ⟨g, List.mem_cons_of_mem _ hg⟩
  | case3 d ps ih =>
    simp only [List.mem_cons, Piece.hit.injEq, reduceCtorEq, false_or] at h
    rcases h with rfl | h
    · exact ⟨true, List.mem_cons_self⟩
    · obtain ⟨g, hg⟩ := ih h
      exact ⟨g, List.mem_cons_of_mem _ hg⟩
  | case4 d ps _ ih =>
    rcases List.mem_cons.1 h with h | h
    · rw [Piece.hit.inj h]
      exact ⟨false, List.mem_cons_self⟩
    · obtain ⟨g, hg⟩ := ih h
      exact ⟨g, List.mem_cons_of_mem _ hg⟩

theorem eq_cons_of_glue {ps : List (Piece Clipping)} {c : Char}
    {qs : List (Piece (Clipping × Bool))} (h : glue ps = .char c :: qs) :
    ∃ rest, ps = .char c :: rest ∧ glue rest = qs := by
  fun_cases glue ps with
  | case1 => exact absurd h (by simp [glue])
  | case2 d ps =>
    obtain ⟨hc, rfl⟩ := List.cons.inj h
    obtain rfl := Piece.char.inj hc
    exact ⟨ps, rfl, rfl⟩
  | case3 d ps => exact absurd h (by simp [glue])
  | case4 d ps hp => exact absurd h (by simp [glue])

/-- A mark that stays plain does not stand before the letters. -/
theorem not_glued_of_glue {ps : List (Piece Clipping)} {pre post : List (Piece (Clipping × Bool))}
    {c : Clipping} (h : glue ps = pre ++ .hit (c, false) :: post) :
    ∀ rest, post ≠ .char 'j' :: .char 's' :: rest := by
  fun_induction glue ps generalizing pre with
  | case1 => exact absurd h (by simp)
  | case2 d ps ih =>
    cases pre with
    | nil => exact absurd h (by simp)
    | cons p pre => exact ih (List.cons.inj h).2
  | case3 d ps ih =>
    cases pre with
    | nil => exact absurd h (by simp)
    | cons p pre => exact ih (List.cons.inj h).2
  | case4 d ps hp ih =>
    cases pre with
    | nil =>
      obtain ⟨-, rfl⟩ := List.cons.inj h
      intro rest hr
      obtain ⟨qs, rfl, hq⟩ := eq_cons_of_glue hr
      obtain ⟨qs, rfl, -⟩ := eq_cons_of_glue hq
      exact hp qs rfl
    | cons p pre => exact ih (List.cons.inj h).2

theorem exists_char_of_prefix_join {α : Type} {write : α → Text} {c : Char} {v : Text}
    {qs : List (Piece α)} (hq : ∀ a, .hit a ∈ qs → ∃ d r, write a = d :: r ∧ d ≠ c)
    (h : c :: v <+: join write qs) :
    ∃ rest, qs = .char c :: rest ∧ v <+: join write rest := by
  cases qs with
  | nil => exact absurd (List.prefix_nil.1 h) (List.cons_ne_nil c v)
  | cons q qs =>
    cases q with
    | char d =>
      rw [join_char, List.cons_prefix_cons] at h
      exact ⟨qs, by rw [h.1], h.2⟩
    | hit a =>
      obtain ⟨d, r, he, hd⟩ := hq a List.mem_cons_self
      rw [join_hit, he, List.cons_append, List.cons_prefix_cons] at h
      exact absurd h.1.symm hd

/-! ## Both series of passes -/

section Passes

variable {n : Numbered} {b : Char} {cs : List Clipping} {gs : List (Piece (Clipping × Bool))}

theorem Legible.notMem_label (hb : Legible n b) {c : Char} (hc : c ∈ ['\\', '&']) (k : ℕ) :
    c ∉ n.label k := by
  refine Numbered.notMem_label (hb.plain c hc).1 (hb.plain c hc).2 ?_ k
  simp only [List.mem_cons, List.not_mem_nil, or_false] at hc
  rcases hc with rfl | rfl <;> rfl

theorem Foreign.notMem_label {c : Char} (hc : Foreign n c) (k : ℕ) : c ∉ n.label k :=
  Numbered.notMem_label hc.2.2.1 hc.2.2.2.1 hc.2.2.2.2 k

theorem Legible.literalMark_eq_cons (hb : Legible n b) (hl : n.Labelled cs) {c : Clipping}
    (hc : c ∈ cs) : ∃ m, c.literalMark = b :: m ∧ b ∉ m := by
  obtain ⟨m, hm, hbm⟩ := hl.mark_eq_cons hb.toSeparate hc
  refine ⟨m ++ "js".toList, by rw [Clipping.literalMark, hm]; rfl, ?_⟩
  rw [List.mem_append]
  exact fun h => h.elim hbm hb.notMem_js

theorem literal_passes (hb : Legible n b) (hl : n.Labelled cs)
    (hg : ∀ a, .hit a ∈ gs → a.1 ∈ cs) (hz : ∀ c ∈ cs, ¬ c.literalMark <:+: join half gs) :
    cs.foldr (fun c s => replace c.literalMark (escape c.text) s) (join written gs) =
      join half gs := by
  rw [foldr_replace_join (z := half) cs]
  · apply join_congr
    rintro ⟨d, g⟩ ha
    have hd := hg _ ha
    cases g with
    | true => exact if_pos (List.mem_map_of_mem hd)
    | false => exact ite_self _
  · exact fun c hc => hb.literalMark_eq_cons hl hc
  · rintro ⟨d, g⟩ ha
    cases g with
    | true => exact Or.inr (hb.literalMark_eq_cons hl (hg _ ha))
    | false => exact Or.inl rfl
  · rintro c hc w' - pre ⟨d, g⟩ post rfl hne hp
    cases g with
    | false => exact absurd rfl hne
    | true =>
      rw [written, Clipping.literalMark, Clipping.literalMark, List.append_assoc] at hp
      have hd : d ∈ cs := hg (d, true) (by simp)
      rw [written, (hl.eq_of_mark_append_prefix hb.toSeparate hd hc hp).1]
  · exact hz
  · rintro c hc ⟨d, g⟩ ha he
    cases g with
    | true =>
      rw [hl.eq_of_mark_eq hc (hg _ ha) (List.append_cancel_right he.symm)]
      rfl
    | false =>
      have hp : c.mark ++ "js".toList <+: d.mark ++ [] := by
        have he : c.mark ++ "js".toList = d.mark := he.symm
        rw [he, List.append_nil]
      have hjs := (hl.eq_of_mark_append_prefix hb.toSeparate (hg _ ha) hc hp).2
      exact absurd (List.prefix_nil.1 hjs) (by simp)

theorem plain_passes (hb : Legible n b) (hl : n.Labelled cs)
    (hg : ∀ a, .hit a ∈ gs → a.1 ∈ cs) (hz : ∀ c ∈ cs, ¬ c.mark <:+: join restored gs) :
    cs.foldr (fun c s => replace c.mark c.text s) (join half gs) = join restored gs := by
  rw [foldr_replace_join (z := restored) cs]
  · apply join_congr
    rintro ⟨d, g⟩ ha
    have hd := hg _ ha
    cases g with
    | true => exact ite_self _
    | false => exact if_pos (List.mem_map_of_mem hd)
  · exact fun c hc => hl.mark_eq_cons hb.toSeparate hc
  · rintro ⟨d, g⟩ ha
    cases g with
    | true => exact Or.inl rfl
    | false => exact Or.inr (hl.mark_eq_cons hb.toSeparate (hg _ ha))
  · rintro c hc w' - pre ⟨d, g⟩ post rfl hne hp
    cases g with
    | true => exact absurd rfl hne
    | false =>
      have hd : d ∈ cs := hg (d, false) (by simp)
      rw [half, (hl.mark_prefix_iff hb.toSeparate hd hc).1 hp]
  · exact hz
  · rintro c hc ⟨d, g⟩ ha he
    cases g with
    | true =>
      obtain ⟨pre, post, hp⟩ := List.append_of_mem ha
      refine absurd ?_ (hz c hc)
      rw [hp, join_append, join_hit, restored, ← half, he]
      exact ⟨join restored pre, join restored post, List.append_assoc _ _ _⟩
    | false =>
      rw [hl.eq_of_mark_eq hc (hg _ ha) he.symm]
      rfl

/-- When no mark can be read where it is not to be, the two series hit what was written. -/
theorem unshield_join_written (hb : Legible n b) (hl : n.Labelled cs)
    (hg : ∀ a, .hit a ∈ gs → a.1 ∈ cs) (hh : ∀ c ∈ cs, ¬ c.literalMark <:+: join half gs)
    (hz : ∀ c ∈ cs, ¬ c.mark <:+: join restored gs) :
    unshield (join written gs) cs = join restored gs := by
  rw [unshield, literal_passes hb hl hg hh, plain_passes hb hl hg hz]

/-- Behind a mark that stays plain the letters can be read neither before nor after a pass. -/
theorem not_infix_half (hb : Legible n b) (hl : n.Labelled cs) {ps : List (Piece Clipping)}
    (hps : ∀ c, .hit c ∈ ps → c ∈ cs) (hz : ∀ c ∈ cs, ¬ c.mark <:+: join restored (glue ps))
    (hj : ∀ c, .hit (c, true) ∈ glue ps → ∃ d r, escape c.text = d :: r ∧ d ∉ "js".toList) :
    ∀ c ∈ cs, ¬ c.literalMark <:+: join half (glue ps) := by
  intro c hc h
  have hmem {a : Clipping × Bool} (ha : .hit a ∈ glue ps) : a.1 ∈ cs := hps _ (mem_of_mem_glue ha)
  have hhead : ∀ x ∈ "js".toList, ∀ a, .hit a ∈ glue ps → ∃ d r, half a = d :: r ∧ d ≠ x := by
    rintro x hx ⟨d, g⟩ ha
    cases g with
    | true =>
      obtain ⟨y, r, hy, hn⟩ := hj d ha
      exact ⟨y, r, hy, by rintro rfl; exact hn hx⟩
    | false =>
      obtain ⟨m, hm, -⟩ := hl.mark_eq_cons hb.toSeparate (hmem ha)
      exact ⟨b, m, hm, by rintro rfl; exact hb.notMem_js hx⟩
  obtain ⟨m, hm, hbm⟩ := hb.literalMark_eq_cons hl hc
  rw [hm] at h
  have hw : ∀ a, .hit a ∈ glue ps → half a = restored a ∨ ∃ r, half a = b :: r ∧ b ∉ r := by
    rintro ⟨d, g⟩ ha
    cases g with
    | true => exact Or.inl rfl
    | false => exact Or.inr (hl.mark_eq_cons hb.toSeparate (hmem ha))
  rcases infix_join hbm hw h with h | ⟨pre, ⟨d, g⟩, post, he, hne, hp⟩
  · rw [← hm] at h
    exact hz c hc ((List.prefix_append _ _).isInfix.trans h)
  · cases g with
    | true => exact absurd rfl hne
    | false =>
      have hd : d ∈ cs := hmem (a := (d, false)) (by rw [he]; simp)
      rw [← hm, Clipping.literalMark, half] at hp
      have hp := (hl.eq_of_mark_append_prefix hb.toSeparate hd hc hp).2
      have hpost : ∀ a, .hit a ∈ post → .hit a ∈ glue ps := by
        intro a ha
        rw [he]
        exact List.mem_append_right _ (List.mem_cons_of_mem _ ha)
      obtain ⟨rest, rfl, hs⟩ := exists_char_of_prefix_join
        (fun a ha => hhead 'j' (by decide) a (hpost a ha)) hp
      obtain ⟨rest, rfl, -⟩ := exists_char_of_prefix_join
        (fun a ha => hhead 's' (by decide) a (hpost a (List.mem_cons_of_mem _ ha))) hs
      exact not_glued_of_glue he rest rfl

/-- When nothing in the restored text looks like a mark, the passes hit what was glued. -/
theorem unshield_join_mark (hb : Legible n b) (hl : n.Labelled cs) {ps : List (Piece Clipping)}
    (hps : ∀ c, .hit c ∈ ps → c ∈ cs) (hz : ∀ c ∈ cs, ¬ c.mark <:+: join restored (glue ps))
    (hj : ∀ c, .hit (c, true) ∈ glue ps → ∃ d r, escape c.text = d :: r ∧ d ∉ "js".toList) :
    unshield (join Clipping.mark ps) cs = join restored (glue ps) := by
  rw [← join_lettered_glue, ← written_eq]
  apply unshield_join_written hb hl
  · exact fun a ha => hps _ (mem_of_mem_glue ha)
  · exact not_infix_half hb hl hps hz hj
  · exact hz

end Passes

/-! ## Glued and unglued documents -/

theorem glued_of_mem_glue {ps : List (Piece Clipping)} {c : Clipping}
    (h : .hit (c, true) ∈ glue ps) :
    ∃ before after, ps = before ++ .hit c :: .char 'j' :: .char 's' :: after := by
  fun_induction glue ps with
  | case1 => exact absurd h List.not_mem_nil
  | case2 d ps ih =>
    obtain ⟨before, after, rfl⟩ := ih ((List.mem_cons.1 h).resolve_left (by simp))
    exact ⟨.char d :: before, after, rfl⟩
  | case3 d ps ih =>
    rcases List.mem_cons.1 h with h | h
    · rw [Piece.hit.injEq, Prod.mk.injEq] at h
      exact ⟨[], ps, by rw [h.1]; rfl⟩
    · obtain ⟨before, after, rfl⟩ := ih h
      exact ⟨.hit d :: .char 'j' :: .char 's' :: before, after, rfl⟩
  | case4 d ps _ ih =>
    obtain ⟨before, after, rfl⟩ := ih ((List.mem_cons.1 h).resolve_left (by simp))
    exact ⟨.hit d :: before, after, rfl⟩

theorem mem_glue_of_glued {ps before after : List (Piece Clipping)} {c : Clipping}
    (h : ps = before ++ .hit c :: .char 'j' :: .char 's' :: after) :
    .hit (c, true) ∈ glue ps := by
  fun_induction glue ps generalizing before with
  | case1 => exact absurd h (by simp)
  | case2 d ps ih =>
    cases before with
    | nil => exact absurd h (by simp)
    | cons p before => exact List.mem_cons_of_mem _ (ih (List.cons.inj h).2)
  | case3 d ps ih =>
    rcases before with _ | ⟨p, _ | ⟨q, _ | ⟨r, before⟩⟩⟩
    · obtain ⟨hd, -⟩ := List.cons.inj h
      rw [Piece.hit.inj hd]
      exact List.mem_cons_self
    · exact absurd h (by simp)
    · exact absurd h (by simp)
    · simp only [List.cons_append, List.cons.injEq] at h
      exact List.mem_cons_of_mem _ (ih h.2.2.2)
  | case4 d ps hp ih =>
    cases before with
    | nil =>
      obtain ⟨-, rfl⟩ := List.cons.inj h
      exact absurd rfl (hp after)
    | cons p before => exact List.mem_cons_of_mem _ (ih (List.cons.inj h).2)

theorem join_restored_of_not_glued {ps : List (Piece Clipping)}
    (h : ∀ c, .hit (c, true) ∉ glue ps) : join restored (glue ps) = join Clipping.text ps := by
  fun_induction glue ps with
  | case1 => rfl
  | case2 c ps ih =>
    rw [join_char, join_char, ih fun d hd => h d (List.mem_cons_of_mem _ hd)]
  | case3 c ps ih => exact absurd List.mem_cons_self (h c)
  | case4 c ps _ ih =>
    rw [join_hit, join_hit, ih fun d hd => h d (List.mem_cons_of_mem _ hd)]
    rfl

def glued : Piece (Clipping × Bool) → Bool
  | .hit (_, true) => true
  | _ => false

/-- Every glued block costs the document one letter. -/
theorem count_join_restored (ps : List (Piece Clipping)) :
    (join restored (glue ps)).count 'j' + (glue ps).countP glued =
      (join Clipping.text ps).count 'j' := by
  fun_induction glue ps with
  | case1 => rfl
  | case2 c ps ih =>
    rw [join_char, join_char, List.countP_cons_of_neg (by simp [glued]), List.count_cons,
      List.count_cons]
    omega
  | case3 c ps ih =>
    rw [join_hit, join_hit, join_char, join_char, List.countP_cons_of_pos rfl, restored,
      List.count_append, List.count_append, count_escape (by decide) (by decide),
      List.count_cons_self, List.count_cons_of_ne (by decide)]
    omega
  | case4 c ps _ ih =>
    rw [join_hit, join_hit, List.countP_cons_of_neg (by simp [glued]), List.count_append,
      List.count_append, restored]
    omega

/-- A text whose first and last characters are spelled as themselves and stand not in `p`. -/
def Framed (p t : Text) : Prop :=
  ∃ x r y, t = x :: (r ++ [y]) ∧ x ∉ p ∧ y ∉ p ∧ x ∉ escaped ∧ y ∉ escaped

theorem Framed.left {p q t : Text} (h : Framed (p ++ q) t) : Framed p t := by
  obtain ⟨x, r, y, ht, hx, hy, he⟩ := h
  exact ⟨x, r, y, ht, fun hm => hx (List.mem_append_left q hm),
    fun hm => hy (List.mem_append_left q hm), he⟩

theorem Framed.escape_eq {p t : Text} (h : Framed p t) :
    ∃ x r y, escape t = x :: (r ++ [y]) ∧ x ∉ p ∧ y ∉ p := by
  obtain ⟨x, r, y, rfl, hx, hy, hxe, hye⟩ := h
  refine ⟨x, escape r, y, ?_, hx, hy⟩
  rw [escape_cons, escape_append, escape_cons, escapeChar_of_notMem hxe, escapeChar_of_notMem hye,
    escape_nil, List.append_nil, List.singleton_append]

theorem Framed.enclosed {p : Text} {a : Clipping × Bool} (h : Framed p a.1.text) :
    Enclosed p (restored a) := by
  obtain ⟨c, g⟩ := a
  cases g with
  | true => exact h.escape_eq
  | false =>
    obtain ⟨x, r, y, ht, hx, hy, -⟩ := h
    exact ⟨x, r, y, ht, hx, hy⟩

theorem Legible.infix_of_infix_restored {n : Numbered} {b : Char} (hb : Legible n b) {k : ℕ}
    {a : Clipping × Bool} (h : n.label k <:+: restored a) : n.label k <:+: a.1.text := by
  obtain ⟨c, g⟩ := a
  cases g with
  | true =>
    obtain ⟨m, hm, -⟩ := hb.label_eq_cons k
    have hs : '\\' ∉ n.label k := hb.notMem_label (by decide) k
    have ha : '&' ∉ n.label k := hb.notMem_label (by decide) k
    rw [hm, List.mem_cons, not_or] at hs ha
    rw [hm] at h ⊢
    exact infix_of_infix_escape hb.notMem_spelling hs.2 ha.2 h
  | false => exact h

/-- Between framed blocks nothing new can be read in the restored text. -/
theorem Legible.not_infix_restored {n : Numbered} {b : Char} (hb : Legible n b) {k : ℕ}
    {gs : List (Piece (Clipping × Bool))} {v : Clipping × Bool → Text}
    (hf : ∀ a, .hit a ∈ gs → Framed (n.label k) a.1.text ∧ ¬ n.label k <:+: a.1.text)
    (h : ¬ n.label k <:+: join v gs) : ¬ n.label k <:+: join restored gs := by
  intro hi
  refine h (infix_join_of_enclosed (u := []) (fun a ha => ?_) hi)
  exact ⟨(hf a ha).1.enclosed, fun hr => (hf a ha).2 (hb.infix_of_infix_restored hr)⟩

/-! ## The round trip -/

theorem Bordered.framed (h : s.Bordered) {c : Clipping} (hc : .hit c ∈ s.marked document)
    (k : ℕ) : Framed (s.marks.label k ++ "js".toList) c.text := by
  have ht : .hit c.text ∈ pieces s.delimiters document := Numbered.mem_of_mem_assign hc
  have hne : ∀ d ∈ s.delimiters, d.opening ≠ [] := by
    intro d hd
    obtain ⟨⟨y, o, ho, -⟩, -⟩ := h d hd
    rw [ho]
    exact List.cons_ne_nil y o
  obtain ⟨d, hd, x, hx⟩ := exists_wrap_of_mem_pieces hne ht
  obtain ⟨⟨y, o, ho, hy⟩, z, q, hq, hz⟩ := h d hd
  refine ⟨y, o ++ x ++ q, z, ?_, ?_, ?_, hy.2.1, hz.2.1⟩
  · rw [hx, Delimiters.wrap, ho, hq]
    simp
  · rw [List.mem_append]
    exact fun hm => hm.elim (hy.notMem_label k) hy.1
  · rw [List.mem_append]
    exact fun hm => hm.elim (hz.notMem_label k) hz.1

theorem unshield_of_not_glued {b : Char} (hb : Legible s.marks b) (hg : ¬ s.Glued document) :
    unshield (s.shield document).1 (s.shield document).2 = document := by
  have hg : ∀ c, .hit (c, true) ∉ glue (s.marked document) := by
    intro c hc
    obtain ⟨before, after, he⟩ := glued_of_mem_glue hc
    exact hg ⟨before, c, after, he⟩
  have hr := join_restored_of_not_glued hg
  rw [join_text_marked] at hr
  rw [shield, unshield_join_mark hb (labelled_clippings s document)
    (fun _ => Numbered.mem_clippings.2) ?_ fun c hc => absurd hc (hg c)]
  · exact hr
  · intro c hc
    rw [hr]
    exact not_infix_document hc

/-- A block stands in the document, a mark for it does not. -/
theorem not_infix_text {c d : Clipping} (hc : c ∈ clippings (s.marked document))
    (hd : d ∈ clippings (s.marked document)) : ¬ d.mark <:+: c.text := by
  obtain ⟨before, after, he⟩ := List.append_of_mem (Numbered.mem_clippings.1 hc)
  have ht : c.text <:+: document := by
    refine ⟨join Clipping.text before, join Clipping.text after, ?_⟩
    rw [← join_text_marked s document, he, join_append, join_hit, List.append_assoc]
  exact fun h => not_infix_document hd (h.trans ht)

theorem Bordered.unshield_join_mark {b : Char} (hd : s.Bordered) (hb : Legible s.marks b)
    {ps : List (Piece Clipping)} (hps : ∀ c, .hit c ∈ ps → c ∈ clippings (s.marked document))
    {u : Clipping → Text} (hu : ∀ c ∈ clippings (s.marked document), ¬ c.mark <:+: join u ps) :
    (∀ c ∈ clippings (s.marked document), ¬ c.mark <:+: join restored (glue ps)) ∧
      unshield (join Clipping.mark ps) (clippings (s.marked document)) =
        join restored (glue ps) := by
  have hz : ∀ c ∈ clippings (s.marked document), ¬ c.mark <:+: join restored (glue ps) := by
    intro c hc
    obtain ⟨k, hk⟩ := (labelled_clippings s document).exists_label c hc
    have huc := hu c hc
    rw [← join_lettered_glue, hk] at huc
    rw [hk]
    refine hb.not_infix_restored (fun a ha => ?_) huc
    have hm := hps _ (mem_of_mem_glue ha)
    exact ⟨(hd.framed (Numbered.mem_clippings.1 hm) k).left, hk ▸ not_infix_text hm hc⟩
  refine ⟨hz, Shield.unshield_join_mark hb (labelled_clippings s document) hps hz ?_⟩
  intro c hc
  obtain ⟨x, r, y, hx, hn, -⟩ :=
    (hd.framed (Numbered.mem_clippings.1 (hps _ (mem_of_mem_glue hc))) 0).escape_eq
  exact ⟨x, r ++ [y], hx, fun hm => hn (List.mem_append_right _ hm)⟩

theorem Bordered.unshield_eq {b : Char} (hd : s.Bordered) (hb : Legible s.marks b) :
    unshield (s.shield document).1 (s.shield document).2 =
      join restored (glue (s.marked document)) := by
  have hu : ∀ c ∈ clippings (s.marked document), ¬ c.mark <:+:
      join Clipping.text (s.marked document) := by
    intro c hc
    rw [join_text_marked]
    exact not_infix_document hc
  exact (hd.unshield_join_mark hb (fun _ => Numbered.mem_clippings.2) hu).2

theorem Bordered.unshield_ne {b : Char} (hd : s.Bordered) (hb : Legible s.marks b)
    (hg : s.Glued document) : unshield (s.shield document).1 (s.shield document).2 ≠ document := by
  obtain ⟨before, c, after, he⟩ := hg
  have hp : 0 < (glue (s.marked document)).countP glued :=
    List.countP_pos_iff.2 ⟨_, mem_glue_of_glued he, rfl⟩
  have hc := count_join_restored (s.marked document)
  intro h
  rw [← hd.unshield_eq hb, h, join_text_marked] at hc
  omega

/-- Restoring a shielded document gives the document back when its marks stand clear.  Legible
marks do so unless a block is glued to the letters of a literal mark, and then the restored text
is another one, at least where blocks begin and end with foreign characters. -/
theorem unshield_shield (s : Shield) (document : Text) :
    (s.Clear document → unshield (s.shield document).1 (s.shield document).2 = document) ∧
      ∀ b, Legible s.marks b →
        (¬ s.Glued document → unshield (s.shield document).1 (s.shield document).2 = document) ∧
        (s.Bordered → s.Glued document →
          unshield (s.shield document).1 (s.shield document).2 ≠ document) :=
  ⟨Clear.unshield_eq, fun _ hb => ⟨unshield_of_not_glued hb, fun hd hg => hd.unshield_ne hb hg⟩⟩

theorem legible_bindify : Legible ⟨"bind".toList, "ify".toList⟩ 'b' where
  opens := ⟨['i', 'n', 'd'], rfl, by decide⟩
  notMem_after := by decide
  notDigit := by decide
  closes := ⟨'i', ['f', 'y'], rfl, by decide⟩
  notMem_js := by decide
  notMem_spelling := by decide
  plain := forall_mem_of_all (by decide)

/-- Templates in double braces. -/
def templates : Shield := { delimiters := [.doubleBraces] }

theorem bordered_templates : templates.Bordered := by
  intro d hd
  obtain rfl := List.mem_singleton.1 hd
  exact ⟨⟨'\x7b', ['\x7b'], rfl, by unfold Foreign; decide⟩,
    '\x7d', ['\x7d'], rfl, by unfold Foreign; decide⟩

def block : Text := "\x7b\x7ba\x7d\x7d".toList

theorem marked_templates (rest : Text) (hn : occurs "bind1ify".toList (block ++ rest) = false)
    (hp : pieces templates.delimiters (block ++ rest) = .hit block :: rest.map .char) :
    templates.marked (block ++ rest) = .hit ⟨"bind1ify".toList, block⟩ :: rest.map .char := by
  have hk : templates.marks.free (block ++ rest) 1 = 1 := Numbered.free_eq_self hn
  rw [marked, hp, Numbered.assign, Numbered.assign_map_char, Nat.zero_add, hk]
  rfl

/-- A block alone, a block before other letters, and one before those of a literal mark. -/
theorem unshield_shield_templates :
    unshield (templates.shield block).1 (templates.shield block).2 = block ∧
      unshield (templates.shield (block ++ "jet".toList)).1
        (templates.shield (block ++ "jet".toList)).2 = block ++ "jet".toList ∧
      unshield (templates.shield (block ++ "js".toList)).1
        (templates.shield (block ++ "js".toList)).2 ≠ block ++ "js".toList := by
  have hclear : templates.Clear block := by
    have hm := marked_templates [] (by decide) rfl
    rw [List.append_nil] at hm
    intro before c after he
    rw [hm] at he
    cases before with
    | cons p before => exact absurd (List.cons.inj he).2 (by simp)
    | nil =>
      obtain ⟨hc, rfl⟩ := List.cons.inj he
      obtain rfl := Piece.hit.inj hc
      rw [hm]
      refine ⟨by decide, fun x y hxy => ?_⟩
      have hl := congrArg List.length hxy
      simp only [join_nil, List.length_append, List.length_nil, List.map_nil] at hl
      exact List.length_eq_zero_iff.1 (by omega)
  have hapart : ¬ templates.Glued (block ++ "jet".toList) := by
    rintro ⟨before, c, after, he⟩
    rw [marked_templates _ (by decide) rfl] at he
    cases before with
    | cons p before =>
      have hc : .hit c ∈ "jet".toList.map Piece.char := by
        rw [(List.cons.inj he).2]
        simp
      obtain ⟨x, -, hx⟩ := List.mem_map.1 hc
      exact absurd hx (by simp)
    | nil => exact absurd he (by simp)
  have hglued : templates.Glued (block ++ "js".toList) :=
    ⟨[], _, [], marked_templates _ (by decide) rfl⟩
  exact ⟨(unshield_shield templates _).1 hclear,
    ((unshield_shield templates _).2 'b' legible_bindify).1 hapart,
    ((unshield_shield templates _).2 'b' legible_bindify).2 bordered_templates hglued⟩

end InlineBinding.Shield
