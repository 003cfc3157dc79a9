import InlineBinding.Markup.Recovery
import InlineBinding.Proofs.Delimiters.Block
import InlineBinding.Proofs.Delimiters.Split
import InlineBinding.Proofs.Text.Mapped
import InlineBinding.Proofs.Text.Spared

/-!
# What restoring does to a text

Where no hidden section stands, restoring turns the mask back into ampersands and does nothing
else. The mask is a private character: no path holds it, and no spelling.
-/
namespace InlineBinding.Markup.Recovery
open Text Literal Accessor

/-- No hidden section stands in the text. -/
def Bare (r : Recovery) (t : Text) : Prop := ∀ p ∈ r.sections, ¬ keyComment p.1 <:+: t

def unmask (r : Recovery) (c : Char) : Char := if r.mask = some c then '&' else c

theorem keyComment_ne_nil (key : Text) : keyComment key ≠ [] := by simp [keyComment]

theorem Bare.mono {r : Recovery} {s t : Text} (h : r.Bare t) (hs : s <:+: t) : r.Bare s :=
  fun p hp hk => h p hp (hk.trans hs)

/-- All sections are put back, one after the other. -/
def reopen (ps : List (Text × Text)) (t : Text) : Text :=
  ps.foldl (fun s p => replace (keyComment p.1) ('<' :: p.2 ++ ['>']) s) t

theorem restore_eq (r : Recovery) (t : Text) :
    r.restore t = (reopen r.sections t).map r.unmask := by
  obtain ⟨mask, casing, sections⟩ := r
  cases mask with
  | none =>
    have hid : unmask ⟨none, casing, sections⟩ = id := funext fun c => if_neg (by simp)
    rw [hid, List.map_id]
    rfl
  | some m =>
    change replace [m] ['&'] (reopen sections t) = _
    rw [replace_singleton, ← List.flatMap_singleton' ((reopen sections t).map _), List.flatMap_map]
    congr 1
    funext c
    by_cases hc : c = m
    · simp [unmask, hc]
    · simp [unmask, hc, Ne.symm hc]

theorem restore_eq_map {r : Recovery} {t : Text} (h : r.Bare t) : r.restore t = t.map r.unmask := by
  have hs (ps : List (Text × Text)) (hp : ∀ p ∈ ps, ¬ keyComment p.1 <:+: t) : reopen ps t = t := by
    induction ps with
    | nil => rfl
    | cons p ps ih =>
      rw [reopen, List.foldl_cons,
        replace_eq_self _ (keyComment_ne_nil p.1) (hp p List.mem_cons_self)]
      exact ih fun q hq => hp q (List.mem_cons_of_mem p hq)
  rw [restore_eq, hs r.sections h]

theorem reopen_append {ps : List (Text × Text)} {w : Text}
    (h : ∀ p ∈ ps, Spares (keyComment p.1) w) (s t : Text) :
    reopen ps (s ++ (w ++ t)) = reopen ps s ++ (w ++ reopen ps t) := by
  simp only [reopen, List.foldl_eq_foldr_reverse]
  exact foldr_replace_append (fun p hp => h p (List.mem_reverse.1 hp)) s t

/-- A text that no comment of a section touches and that does not hold the mask is left alone. -/
theorem restore_append {r : Recovery} {w : Text}
    (hs : ∀ p ∈ r.sections, Spares (keyComment p.1) w) (hm : ∀ m, r.mask = some m → m ∉ w)
    (s t : Text) : r.restore (s ++ (w ++ t)) = r.restore s ++ (w ++ r.restore t) := by
  have hw : w.map r.unmask = w := by
    have hid : ∀ c ∈ w, r.unmask c = id c := fun c hc => if_neg fun h => hm c h hc
    rw [List.map_congr_left hid, List.map_id]
  rw [restore_eq, restore_eq, restore_eq, reopen_append hs, List.map_append, List.map_append, hw]

/-! ## The mask -/

section Mask

variable {markup : Text}

theorem mask_range {m : Char} (h : (Recovery.of markup).mask = some m) :
    0xe000 ≤ m.toNat ∧ m.toNat < 0xf900 := by
  have hm : m ∈ maskCandidates := by
    have h : pickMask markup = some m := h
    rw [pickMask] at h
    split at h
    · exact List.mem_of_find?_eq_some h
    · exact absurd h (by simp)
  obtain ⟨n, hn, rfl⟩ := List.mem_map.1 hm
  rw [List.mem_range] at hn
  have hv : Nat.isValidChar (0xe000 + n) := Or.inr ⟨by omega, by omega⟩
  have hc : (Char.ofNat (0xe000 + n)).toNat = 0xe000 + n := by
    rw [Char.ofNat, dif_pos hv]
    rfl
  omega

theorem unmask_eq_self {c : Char} (h : c.toNat < 0xe000 ∨ 0xf900 ≤ c.toNat) :
    (Recovery.of markup).unmask c = c := by
  rw [unmask]
  split
  · rename_i hm
    have := mask_range hm
    omega
  · rfl

/-- Characters that stand in no comment for a section and are no mask. -/
def Idle (x : Char) : Prop :=
  x ∉ keyComment sectionKeys.before ∧ x.isDigit = false ∧ x.toNat < 0xe000

theorem exists_key {p : Text × Text} (hp : p ∈ sectionTable markup) :
    ∃ k, p.1 = sectionKeys.before ++ digits k := by
  obtain ⟨c, hc, rfl⟩ := List.mem_map.1 hp
  obtain ⟨k, -, hk, -⟩ := Numbered.exists_label_of_mem_assign (Numbered.mem_clippings.1 hc)
  exact ⟨k, hk.trans (List.append_nil _)⟩

theorem mem_keyComment {p : Text × Text} (hp : p ∈ sectionTable markup) {x : Char}
    (hx : x ∈ keyComment p.1) : x ∈ keyComment sectionKeys.before ∨ x.isDigit = true := by
  obtain ⟨k, hk⟩ := exists_key hp
  simp only [keyComment, hk, List.mem_append] at hx ⊢
  rcases hx with (hx | hx | hx) | hx
  · exact Or.inl (Or.inl (Or.inl hx))
  · exact Or.inl (Or.inl (Or.inr hx))
  · exact Or.inr (isDigit_of_mem_digits hx)
  · exact Or.inl (Or.inr hx)

theorem Idle.notMem_keyComment {x : Char} (h : Idle x) {p : Text × Text}
    (hp : p ∈ (Recovery.of markup).sections) : x ∉ keyComment p.1 := by
  intro hx
  rcases mem_keyComment hp hx with hx | hd
  · exact h.1 hx
  · rw [h.2.1] at hd
    exact Bool.noConfusion hd

theorem private_notMem_keyComment {x : Char} (h : 0xe000 ≤ x.toNat) {p : Text × Text}
    (hp : p ∈ (Recovery.of markup).sections) : x ∉ keyComment p.1 := by
  have hlow : ∀ x ∈ keyComment sectionKeys.before, x.toNat < 0xe000 := forall_mem_of_all (by decide)
  intro hx
  rcases mem_keyComment hp hx with hx | hd
  · exact absurd h (Nat.not_le_of_lt (hlow x hx))
  · have hd := Char.isDigit_iff_toNat.1 hd
    have h9 : '9'.toNat = 57 := rfl
    omega

theorem restore_append_cons {x : Char} (hx : Idle x) (s t : Text) :
    (Recovery.of markup).restore (s ++ x :: t) =
      (Recovery.of markup).restore s ++ x :: (Recovery.of markup).restore t := by
  refine restore_append (w := [x]) (fun p hp => ?_) (fun m hm h => ?_) s t
  · exact spares_char (keyComment_ne_nil p.1) (hx.notMem_keyComment hp)
  · obtain rfl := List.mem_singleton.1 h
    exact absurd (mask_range hm).1 (Nat.not_le_of_lt hx.2.2)

theorem steady_unmask_of {p : Text}
    (h : ∀ c ∈ p, c ≠ '&' ∧ (c.toNat < 0xe000 ∨ 0xf900 ≤ c.toNat)) :
    Steady (Recovery.of markup).unmask p := by
  intro c hc d
  obtain ⟨ha, hr⟩ := h c hc
  constructor
  · intro hd
    rw [unmask] at hd
    split at hd
    · exact absurd hd.symm ha
    · exact hd
  · rintro rfl
    exact unmask_eq_self hr

theorem steady_unmask {p : Text} (h : ∀ c ∈ p, c ≠ '&' ∧ c.toNat < 0xe000) :
    Steady (Recovery.of markup).unmask p :=
  steady_unmask_of fun c hc => (h c hc).imp_right Or.inl

theorem escape_map_unmask (t : Text) :
    escape (t.map (Recovery.of markup).unmask) = (escape t).map (Recovery.of markup).unmask := by
  apply escape_map
  · exact steady_unmask (forall_mem_of_all (by decide))
  · intro c hc
    have hs : ∀ c ∈ spelling, c.toNat < 0xe000 := forall_mem_of_all (by decide)
    exact unmask_eq_self (Or.inl (hs c hc))

/-- Private characters belong to no word. -/
theorem isPart_of_private {c : Char} (h : 0xe000 ≤ c.toNat ∧ c.toNat < 0xf900) :
    isPart c = false := by
  have hr : ∀ p ∈ otherWordRanges, p.2 < 0xe000 ∨ 0xf900 ≤ p.1 := by decide +kernel
  have hw : otherWordRanges.has c = false := by
    rw [Ranges.has, List.any_eq_false]
    intro p hp
    have := hr p hp
    simp
    omega
  have hd : c ≠ '$' := by
    rintro rfl
    exact absurd h.1 (by decide)
  rw [isPart, isWord, if_neg (by omega), hw]
  simp [hd]

theorem isSpace_of_private {c : Char} (h : 0xe000 ≤ c.toNat ∧ c.toNat < 0xf900) :
    isSpace c = false := by
  have hr : ∀ p ∈ spaceRanges, p.2 < 0xe000 ∨ 0xf900 ≤ p.1 := by decide
  rw [isSpace, Ranges.has, List.any_eq_false]
  intro p hp
  have := hr p hp
  simp
  omega

theorem map_unmask_path {p : Text} (h : IsPath p) : p.map (Recovery.of markup).unmask = p := by
  rw [List.map_congr_left (g := id) ?_, List.map_id]
  intro c hc
  apply unmask_eq_self
  by_contra hn
  have hp : isPart c = false := isPart_of_private (by omega)
  rcases h.chars c hc with h | rfl
  · rw [hp] at h
    exact Bool.noConfusion h
  · exact absurd (by decide) hn

end Mask

/-! ## Hidden sections -/

section Sections

variable {markup : Text}

theorem keyComment_eq (key : Text) :
    keyComment key = '<' :: ("!--".toList ++ key ++ "--".toList) ++ ['>'] := by
  simp [keyComment]

theorem notMem_key {p : Text × Text} (hp : p ∈ sectionTable markup) {x : Char}
    (hx : x ∉ sectionKeys.before) (hd : x.isDigit = false) : x ∉ p.1 := by
  obtain ⟨k, hk⟩ := exists_key hp
  rw [hk, List.mem_append]
  rintro (h | h)
  · exact hx h
  · rw [isDigit_of_mem_digits h] at hd
    exact Bool.noConfusion hd

/-- Comments for sections have angles at their ends only. -/
theorem angles_notMem {p : Text × Text} (hp : p ∈ sectionTable markup) :
    '<' ∉ "!--".toList ++ p.1 ++ "--".toList ++ ['>'] ∧
      '>' ∉ '<' :: ("!--".toList ++ p.1 ++ "--".toList) := by
  have ho := notMem_key hp (x := '<') (by decide) (by decide)
  have hc := notMem_key hp (x := '>') (by decide) (by decide)
  simp [ho, hc]

theorem eq_of_infix_keyComment {p q : Text × Text} (hp : p ∈ sectionTable markup)
    (hq : q ∈ sectionTable markup) (h : keyComment q.1 <:+: keyComment p.1) : q = p := by
  obtain ⟨hpo, hpc⟩ := angles_notMem hp
  obtain ⟨-, hqc⟩ := angles_notMem hq
  rw [List.mem_cons, not_or] at hpc hqc
  rw [keyComment_eq, keyComment_eq, List.cons_append, List.cons_append, List.infix_cons_iff] at h
  have hprefix := h.resolve_right fun h => hpo (h.subset List.mem_cons_self)
  obtain ⟨r, hr⟩ := (List.cons_prefix_cons.1 hprefix).2
  have hkeys : q.1 = p.1 := by
    have he := (append_cons_unique (y := []) hqc.2 hpc.2 (by simpa using hr)).1
    exact List.append_cancel_left (List.append_cancel_right he)
  obtain ⟨c, hc, rfl⟩ := List.mem_map.1 hp
  obtain ⟨d, hd, rfl⟩ := List.mem_map.1 hq
  have hl := Numbered.labelled_assign sectionKeys markup 0 (cut sectionAt? markup)
  rw [hl.eq_of_mark_eq hd hc hkeys]

theorem wrap_sectionDelimiters (x : Text) : sectionDelimiters.wrap x =
    '<' :: ("![CDATA[".toList ++ x ++ "]]".toList) ++ ['>'] := by
  change "<![CDATA[".toList ++ x ++ "]]>".toList = _
  simp

theorem sectionAt?_eq_some {s t : Text} {n : ℕ} (h : sectionAt? s = some (t, n)) :
    t = s.take n ∧ ∃ x, t = sectionDelimiters.wrap x := by
  obtain ⟨m, hm, he⟩ := Option.map_eq_some_iff.1 h
  obtain ⟨rfl, rfl⟩ := Prod.mk.inj he
  exact ⟨rfl, Delimiters.blockAt?_eq_some hm⟩

theorem sectionAt?_eq_none_iff {s : Text} :
    sectionAt? s = none ↔ ¬ sectionDelimiters.Opens s := by
  rw [sectionAt?, Option.map_eq_none_iff, Delimiters.blockAt?_eq_none_iff]

/-- Whatever keys the sections get, their texts are those of the markup. -/
theorem join_text_sections (document : Text) (last : ℕ) (s : Text) :
    join Clipping.text (sectionKeys.assign document last (cut sectionAt? s)) = s := by
  rw [Numbered.join_text_assign]
  refine join_cut (fun s t n h => ?_) s
  obtain ⟨ht, x, hx⟩ := sectionAt?_eq_some h
  refine ⟨Nat.pos_of_ne_zero fun hn => ?_, ht⟩
  rw [ht, hn, List.take_zero, wrap_sectionDelimiters] at hx
  exact absurd hx (by simp)

theorem join_text_keyedSections (markup : Text) :
    join Clipping.text (keyedSections markup) = markup :=
  join_text_sections markup 0 markup

theorem text_of_mem_keyedSections {c : Clipping} (hc : .hit c ∈ keyedSections markup) :
    c.text = '<' :: (c.text.drop 1).dropLast ++ ['>'] := by
  obtain ⟨s, n, hs⟩ := rule_of_mem_cut (Numbered.mem_of_mem_assign hc)
  obtain ⟨-, x, hx⟩ := sectionAt?_eq_some hs
  rw [hx, wrap_sectionDelimiters, List.cons_append, List.drop_one, List.tail_cons,
    List.dropLast_concat, List.cons_append]

/-- A section with its angles stands in the markup. -/
theorem infix_markup {p : Text × Text} (hp : p ∈ sectionTable markup) :
    '<' :: p.2 ++ ['>'] <:+: markup := by
  obtain ⟨c, hc, rfl⟩ := List.mem_map.1 hp
  have hmem := Numbered.mem_clippings.1 hc
  obtain ⟨before, after, he⟩ := List.append_of_mem hmem
  rw [← text_of_mem_keyedSections hmem]
  refine ⟨join Clipping.text before, join Clipping.text after, ?_⟩
  have he : keyedSections markup = before ++ .hit c :: after := he
  have hjoin := join_text_keyedSections markup
  rw [he, join_append, join_hit] at hjoin
  rw [List.append_assoc, hjoin]

/-- A key does not. -/
theorem not_keyComment_infix_section {p q : Text × Text} (hp : p ∈ sectionTable markup)
    (hq : q ∈ sectionTable markup) : ¬ keyComment q.1 <:+: '<' :: p.2 ++ ['>'] := by
  intro h
  obtain ⟨c, hc, rfl⟩ := List.mem_map.1 hq
  obtain ⟨k, -, -, hk⟩ := Numbered.exists_label_of_mem_assign (Numbered.mem_clippings.1 hc)
  have hkey : c.mark <:+: keyComment c.mark := ⟨"<!--".toList, "-->".toList, rfl⟩
  exact hk (hkey.trans (h.trans (infix_markup hp)))

theorem infix_replace_keyComment {q : Text × Text} (hq : q ∈ sectionTable markup) (new : Text)
    {u t : Text} (hu : ¬ keyComment q.1 <:+: '<' :: u ++ ['>']) (h : '<' :: u ++ ['>'] <:+: t) :
    '<' :: u ++ ['>'] <:+: replace (keyComment q.1) new t := by
  obtain ⟨ho, hc⟩ := angles_notMem hq
  rw [keyComment_eq] at hu ⊢
  exact infix_replace_of_ends new ho hc hu h

/-- The comment of one section stays when another one is put back. -/
theorem keyComment_infix_replace {p q : Text × Text} (hp : p ∈ sectionTable markup)
    (hq : q ∈ sectionTable markup) (he : q ≠ p) (new : Text) {t : Text}
    (h : keyComment p.1 <:+: t) : keyComment p.1 <:+: replace (keyComment q.1) new t := by
  have hne : ¬ keyComment q.1 <:+: keyComment p.1 := fun hi => he (eq_of_infix_keyComment hp hq hi)
  rw [keyComment_eq p.1] at h hne ⊢
  exact infix_replace_keyComment hq new hne h

theorem infix_reopen {u : Text} {ps : List (Text × Text)} (hps : ps ⊆ sectionTable markup)
    (hu : ∀ q ∈ ps, ¬ keyComment q.1 <:+: '<' :: u ++ ['>']) {t : Text}
    (h : '<' :: u ++ ['>'] <:+: t) : '<' :: u ++ ['>'] <:+: reopen ps t := by
  induction ps generalizing t with
  | nil => exact h
  | cons q ps ih =>
    apply ih (fun r hr => hps (List.mem_cons_of_mem q hr))
      fun r hr => hu r (List.mem_cons_of_mem q hr)
    exact infix_replace_keyComment (hps List.mem_cons_self) _ (hu q List.mem_cons_self) h

theorem section_infix_reopen {p : Text × Text} {ps : List (Text × Text)}
    (hps : ps ⊆ sectionTable markup) (hp : p ∈ ps) {t : Text} (h : keyComment p.1 <:+: t) :
    '<' :: p.2 ++ ['>'] <:+: reopen ps t := by
  induction ps generalizing t with
  | nil => exact absurd hp List.not_mem_nil
  | cons q ps ih =>
    have hq := hps List.mem_cons_self
    have hps' : ps ⊆ sectionTable markup := fun r hr => hps (List.mem_cons_of_mem q hr)
    by_cases he : q = p
    · subst he
      apply infix_reopen hps' fun r hr => not_keyComment_infix_section hq (hps' hr)
      exact infix_replace _ (keyComment_ne_nil q.1) h
    · apply ih hps' ((List.mem_cons.1 hp).resolve_left fun h => he h.symm)
      exact keyComment_infix_replace (hps hp) hq he _ h

/-- Square brackets come with a section. -/
theorem bracket_mem_section {p : Text × Text} (hp : p ∈ sectionTable markup) :
    '[' ∈ '<' :: p.2 ++ ['>'] := by
  obtain ⟨c, hc, rfl⟩ := List.mem_map.1 hp
  have hmem := Numbered.mem_clippings.1 hc
  obtain ⟨s, n, hs⟩ := rule_of_mem_cut (Numbered.mem_of_mem_assign hmem)
  obtain ⟨-, x, hx⟩ := sectionAt?_eq_some hs
  rw [← text_of_mem_keyedSections hmem, hx, wrap_sectionDelimiters]
  simp

theorem count_le_reopen {x : Char} {ps : List (Text × Text)} (hx : ∀ p ∈ ps, x ∉ keyComment p.1)
    (t : Text) : t.count x ≤ (reopen ps t).count x := by
  rw [reopen, List.foldl_eq_foldr_reverse]
  refine count_le_foldr_replace (fun p hp => ⟨keyComment_ne_nil p.1, ?_⟩) t
  exact hx p (List.mem_reverse.1 hp)

theorem count_lt_reopen {p : Text × Text} {ps : List (Text × Text)} (hps : ps ⊆ sectionTable markup)
    (hp : p ∈ ps) {t : Text} (h : keyComment p.1 <:+: t) :
    t.count '[' < (reopen ps t).count '[' := by
  have hnone : ∀ q ∈ ps, '[' ∉ keyComment q.1 := fun q hq hm =>
    (mem_keyComment (hps hq) hm).elim (absurd · (by decide)) (absurd · (by decide))
  induction ps generalizing t with
  | nil => exact absurd hp List.not_mem_nil
  | cons q ps ih =>
    obtain ⟨hq, hnone'⟩ := List.forall_mem_cons.1 hnone
    by_cases he : q = p
    · subst he
      refine Nat.lt_of_lt_of_le ?_ (count_le_reopen hnone' _)
      exact count_lt_replace (keyComment_ne_nil q.1) hq (bracket_mem_section (hps hp)) h
    · refine Nat.lt_of_le_of_lt
        (count_le_replace ('<' :: q.2 ++ ['>']) (keyComment_ne_nil q.1) hq t) ?_
      exact ih (fun r hr => hps (List.mem_cons_of_mem q hr))
        ((List.mem_cons.1 hp).resolve_left fun h => he h.symm)
        (keyComment_infix_replace (hps hp) (hps List.mem_cons_self) he _ h) hnone'

theorem count_le_map_unmask {r : Recovery} {x : Char} (hx : r.mask ≠ some x) (t : Text) :
    t.count x ≤ (t.map r.unmask).count x := by
  rw [List.count_eq_countP, List.count_eq_countP, List.countP_map]
  refine List.countP_mono_left fun c _ hc => ?_
  obtain rfl := eq_of_beq hc
  exact beq_iff_eq.2 (if_neg hx)

/-- A text that holds a comment of a section gets more square brackets. -/
theorem count_lt_restore_of_section {p : Text × Text} (hp : p ∈ (Recovery.of markup).sections)
    {t : Text} (h : keyComment p.1 <:+: t) :
    t.count '[' < ((Recovery.of markup).restore t).count '[' := by
  have hmask : (Recovery.of markup).mask ≠ some '[' := by
    intro hm
    exact absurd (mask_range hm).1 (by decide)
  rw [restore_eq]
  exact Nat.lt_of_lt_of_le (count_lt_reopen (List.Subset.refl _) hp h)
    (count_le_map_unmask hmask _)

/-- A text that holds the mask gets more ampersands. -/
theorem count_lt_restore_of_mask {m : Char} (hm : (Recovery.of markup).mask = some m) {t : Text}
    (h : m ∈ t) : t.count '&' < ((Recovery.of markup).restore t).count '&' := by
  have hle {x : Char} (hx : ∀ p ∈ (Recovery.of markup).sections, x ∉ keyComment p.1) :
      t.count x ≤ (reopen (Recovery.of markup).sections t).count x := count_le_reopen hx t
  have hamp : Idle '&' := by unfold Idle; decide
  have hkept : m ∈ reopen (Recovery.of markup).sections t := by
    refine List.count_pos_iff.1 (Nat.lt_of_lt_of_le (List.count_pos_iff.2 h) (hle ?_))
    exact fun p hp => private_notMem_keyComment (mask_range hm).1 hp
  have hrestore : (Recovery.of markup).restore t =
      replace [m] ['&'] (reopen (Recovery.of markup).sections t) := by
    rw [restore, hm]
    rfl
  rw [hrestore]
  refine Nat.lt_of_le_of_lt (hle fun p hp => hamp.notMem_keyComment hp) ?_
  refine count_lt_replace (List.cons_ne_nil m []) (fun hx => ?_) List.mem_cons_self
    ((List.singleton_infix_iff m _).2 hkept)
  obtain rfl := List.mem_singleton.1 hx
  exact absurd (mask_range hm).1 (by decide)

/-- A section whose comment stands in a text comes back there, and nothing in it is escaped. -/
theorem section_infix_restore {p : Text × Text} (hp : p ∈ (Recovery.of markup).sections) {t : Text}
    (h : keyComment p.1 <:+: t) :
    '<' :: p.2.map (Recovery.of markup).unmask ++ ['>'] <:+: (Recovery.of markup).restore t := by
  have hs := (section_infix_reopen (List.Subset.refl _) hp h).map (Recovery.of markup).unmask
  have ho : (Recovery.of markup).unmask '<' = '<' := unmask_eq_self (Or.inl (by decide))
  have hc : (Recovery.of markup).unmask '>' = '>' := unmask_eq_self (Or.inl (by decide))
  rw [restore_eq]
  rwa [List.map_append, List.map_cons, List.map_singleton, ho, hc] at hs

/-! ## Characters of the restored text -/

theorem mem_reopen {x : Char} {ps : List (Text × Text)} (hps : ps ⊆ sectionTable markup)
    (hx : x ≠ '<' ∧ x ≠ '>') {t : Text} (h : x ∈ reopen ps t) :
    x ∈ t ∨ ∃ p ∈ ps, keyComment p.1 <:+: t ∧ x ∈ p.2 := by
  induction ps generalizing t with
  | nil => exact Or.inl h
  | cons p ps ih =>
    have hp := hps List.mem_cons_self
    have hps' : ps ⊆ sectionTable markup := fun q hq => hps (List.mem_cons_of_mem p hq)
    rcases ih hps' h with h | ⟨q, hq, hk, hxq⟩
    · by_cases hk : keyComment p.1 <:+: t
      · by_cases ht : x ∈ t
        · exact Or.inl ht
        · refine Or.inr ⟨p, List.mem_cons_self, hk, ?_⟩
          by_contra hn
          refine notMem_replace (keyComment_ne_nil p.1) (fun hnew => ?_) ht h
          simp [hx, hn] at hnew
      · have hsame := replace_eq_self ('<' :: p.2 ++ ['>']) (keyComment_ne_nil p.1) hk
        exact Or.inl (hsame ▸ h)
    · refine Or.inr ⟨q, List.mem_cons_of_mem p hq, ?_, hxq⟩
      obtain ⟨ho, hc⟩ := angles_notMem (hps' hq)
      have hn := not_keyComment_infix_section hp (hps' hq)
      rw [keyComment_eq q.1] at hk hn ⊢
      exact infix_of_infix_replace_ends (keyComment_ne_nil p.1) ho hc hn hk

/-- Beside the characters that stood there, those of hidden sections come into a text. -/
theorem mem_restore_iff {x : Char} (hx : Idle x) (ha : x ≠ '&') {t : Text} :
    x ∈ (Recovery.of markup).restore t ↔
      x ∈ t ∨ ∃ p ∈ (Recovery.of markup).sections, keyComment p.1 <:+: t ∧ x ∈ p.2 := by
  have hsteady : Steady (Recovery.of markup).unmask [x] :=
    steady_unmask (by simpa using ⟨ha, hx.2.2⟩)
  have hmap (u : Text) : x ∈ u.map (Recovery.of markup).unmask ↔ x ∈ u := by
    rw [List.mem_map]
    simp only [hsteady x List.mem_cons_self, exists_eq_right]
  have hangles : x ≠ '<' ∧ x ≠ '>' := by
    constructor <;> rintro rfl <;> exact hx.1 (by decide)
  constructor
  · intro h
    rw [restore_eq, hmap] at h
    exact mem_reopen (List.Subset.refl _) hangles h
  · rintro (h | ⟨p, hp, hk, h⟩)
    · rw [restore_eq, hmap, ← List.count_pos_iff]
      refine Nat.lt_of_lt_of_le (List.count_pos_iff.2 h) (count_le_reopen (fun p hp => ?_) t)
      exact hx.notMem_keyComment hp
    · refine (section_infix_restore hp hk).subset ?_
      simp [(hmap p.2).2 h]

end Sections
end InlineBinding.Markup.Recovery
