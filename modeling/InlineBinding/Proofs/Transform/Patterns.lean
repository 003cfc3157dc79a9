import InlineBinding.Proofs.Transform.Output

/-!
# What a restoration rewrites

The output is searched for the comments of hidden sections, for the mask, and for the marks of
blocks. A text that is apart from all of them comes out as it is, whatever stands around it; where
blocks are bordered no other text does.
-/
namespace InlineBinding.Transform
open Text Literal Accessor Shield Markup

section Patterns

variable (r : Recovery) (cs : List Clipping)

/-- None of them holds another one. -/
def signs : List Text :=
  (r.sections.map fun p => keyComment p.1) ++ (r.mask.toList.map fun m => [m]) ++
    cs.map Clipping.mark

/-- What a restoration looks for. -/
def patterns : List Text := signs r cs ++ cs.map Clipping.literalMark

end Patterns

section Restoring

variable {r : Recovery} {cs : List Clipping}

theorem mem_signs {p : Text} : p ∈ signs r cs ↔ (∃ q ∈ r.sections, keyComment q.1 = p) ∨
    (∃ m, r.mask = some m ∧ [m] = p) ∨ ∃ c ∈ cs, c.mark = p := by
  simp [signs]

theorem mem_patterns {p : Text} : p ∈ patterns r cs ↔ p ∈ signs r cs ∨
    ∃ c ∈ cs, c.literalMark = p := by
  simp [patterns]

theorem keyComment_mem_patterns {p : Text × Text} (hp : p ∈ r.sections) :
    keyComment p.1 ∈ patterns r cs := mem_patterns.2 (Or.inl (mem_signs.2 (Or.inl ⟨p, hp, rfl⟩)))

theorem mask_mem_patterns {m : Char} (hm : r.mask = some m) : [m] ∈ patterns r cs :=
  mem_patterns.2 (Or.inl (mem_signs.2 (Or.inr (Or.inl ⟨m, hm, rfl⟩))))

theorem mark_mem_patterns {c : Clipping} (hc : c ∈ cs) : c.mark ∈ patterns r cs :=
  mem_patterns.2 (Or.inl (mem_signs.2 (Or.inr (Or.inr ⟨c, hc, rfl⟩))))

theorem literalMark_mem_patterns {c : Clipping} (hc : c ∈ cs) : c.literalMark ∈ patterns r cs :=
  mem_patterns.2 (Or.inr ⟨c, hc, rfl⟩)

theorem reveal_append {w : Text} (h : ∀ p ∈ patterns r cs, Spares p w) (s t : Text) :
    reveal r cs (s ++ (w ++ t)) = reveal r cs s ++ (w ++ reveal r cs t) := by
  have hmask : ∀ m, r.mask = some m → m ∉ w := fun m hm hw =>
    (h _ (mask_mem_patterns hm)).within ((List.singleton_infix_iff m w).2 hw)
  rw [reveal, Recovery.restore_append (fun p hp => h _ (keyComment_mem_patterns hp)) hmask]
  exact unshield_append
    (fun c hc => ⟨h _ (literalMark_mem_patterns hc), h _ (mark_mem_patterns hc)⟩) _ _

theorem reveal_eq_self (hn : ∀ c ∈ cs, c.mark ≠ []) {t : Text}
    (h : ∀ p ∈ patterns r cs, ¬ p <:+: t) : reveal r cs t = t := by
  have hid : ∀ c ∈ t, r.unmask c = id c := fun c hc =>
    if_neg fun hm => h _ (mask_mem_patterns hm) ((List.singleton_infix_iff c t).2 hc)
  rw [reveal_of_bare fun p hp => h _ (keyComment_mem_patterns hp), List.map_congr_left hid,
    List.map_id, unshield_eq_self hn fun c hc => h _ (mark_mem_patterns hc)]

end Restoring

/-! ## Patterns and their parts -/

section Parts

variable {markup : Text} {cs : List Clipping} (hl : bindify.Labelled cs)

include hl

theorem ne_nil_of_mem_patterns {p : Text} (hp : p ∈ patterns (Recovery.of markup) cs) : p ≠ [] := by
  rcases mem_patterns.1 hp with hp | ⟨c, hc, rfl⟩
  · rcases mem_signs.1 hp with ⟨q, -, rfl⟩ | ⟨m, -, rfl⟩ | ⟨c, hc, rfl⟩
    · exact Recovery.keyComment_ne_nil q.1
    · exact List.cons_ne_nil m []
    · exact hl.mark_ne_nil c hc
  · exact fun h => hl.mark_ne_nil c hc (List.append_eq_nil_iff.1 h).1

theorem Still.notMem_patterns {x : Char} (hx : Still x) {p : Text}
    (hp : p ∈ patterns (Recovery.of markup) cs) : x ∉ p := by
  have hmark := notMem_literalMark hl hx.2 hx.1.2.1
  rcases mem_patterns.1 hp with hp | ⟨c, hc, rfl⟩
  · rcases mem_signs.1 hp with ⟨q, hq, rfl⟩ | ⟨m, hm, rfl⟩ | ⟨c, hc, rfl⟩
    · exact hx.1.notMem_keyComment hq
    · intro h
      obtain rfl := List.mem_singleton.1 h
      exact absurd (Recovery.mask_range hm).1 (Nat.not_le_of_lt hx.1.2.2)
    · exact fun h => hmark c hc (List.mem_append_left _ h)
  · exact hmark c hc

theorem not_mark_infix_append {y u : Text} (hy : 'b' ∉ y) (hu : ∀ c ∈ cs, ¬ c.mark <:+: u) :
    ∀ c ∈ cs, ¬ c.mark <:+: y ++ u := by
  intro c hc h
  obtain ⟨m, hm, -⟩ := hl.mark_eq_cons legible_bindify.toSeparate hc
  rw [hm] at h
  exact hu c hc (hm ▸ infix_of_notMem_head hy h)

theorem mask_notMem_mark {m : Char} (hm : (Recovery.of markup).mask = some m) {c : Clipping}
    (hc : c ∈ cs) : m ∉ c.mark := by
  intro h
  have hs : Steady (Recovery.of markup).unmask c.literalMark := steady_literalMark hl hc
  have he := (hs m (List.mem_append_left _ h) m).2 rfl
  rw [Recovery.unmask, if_pos hm] at he
  subst he
  exact absurd (Recovery.mask_range hm).1 (by decide)

/-- No pattern can be read in a comment, in the mask or in a mark, but itself. -/
theorem eq_of_infix_sign {p q : Text} (hp : p ∈ signs (Recovery.of markup) cs)
    (hq : q ∈ patterns (Recovery.of markup) cs) (h : q <:+: p) : q = p := by
  rcases mem_signs.1 hp with ⟨u, hu, rfl⟩ | ⟨m, hm, rfl⟩ | ⟨c, hc, rfl⟩
  · rcases mem_patterns.1 hq with hq | ⟨d, hd, rfl⟩
    · rcases mem_signs.1 hq with ⟨v, hv, rfl⟩ | ⟨m, hm, rfl⟩ | ⟨d, hd, rfl⟩
      · rw [Recovery.eq_of_infix_keyComment hu hv h]
      · have hmem := h.subset List.mem_cons_self
        exact absurd hmem (Recovery.private_notMem_keyComment (Recovery.mask_range hm).1 hu)
      · exact absurd h (not_mark_infix_keyComment hl hd hu)
    · exact absurd ((List.prefix_append _ _).isInfix.trans h) (not_mark_infix_keyComment hl hd hu)
  · have hlength : q.length ≤ 1 := h.length_le
    have hpos := List.length_pos_iff.2 (ne_nil_of_mem_patterns hl hq)
    exact h.eq_of_length (by rw [List.length_singleton]; omega)
  · have hmark {d : Clipping} (hd : d ∈ cs) (h : d.mark <:+: c.mark) : d = c := by
      obtain ⟨m, hm, hbm⟩ := hl.mark_eq_cons legible_bindify.toSeparate hc
      obtain ⟨m', hm', -⟩ := hl.mark_eq_cons legible_bindify.toSeparate hd
      have hprefix : d.mark <+: c.mark ++ [] := by
        rw [hm, hm', List.infix_cons_iff] at h
        rw [hm, hm', List.append_nil]
        exact h.resolve_right fun h => hbm (h.subset List.mem_cons_self)
      exact ((hl.mark_prefix_iff legible_bindify.toSeparate hc hd).1 hprefix).symm
    rcases mem_patterns.1 hq with hq | ⟨d, hd, rfl⟩
    · rcases mem_signs.1 hq with ⟨v, hv, rfl⟩ | ⟨m, hm, rfl⟩ | ⟨d, hd, rfl⟩
      · have hopen : '<' ∉ c.literalMark := notMem_literalMark hl (by decide) (by decide) c hc
        rw [Recovery.keyComment_eq] at h
        exact absurd (List.mem_append_left _ (h.subset List.mem_cons_self)) hopen
      · exact absurd (h.subset List.mem_cons_self) (mask_notMem_mark hl hm hc)
      · rw [hmark hd h]
    · obtain rfl := hmark hd ((List.prefix_append _ _).isInfix.trans h)
      have hlength := h.length_le
      rw [Clipping.literalMark, List.length_append] at hlength
      exact absurd hlength (Nat.not_le_of_lt (Nat.lt_add_of_pos_right (by decide)))

theorem restore_of_infix_literalMark {c : Clipping} (hc : c ∈ cs) {u : Text}
    (hu : u <:+: c.literalMark) : (Recovery.of markup).restore u = u := by
  have hopen : '<' ∉ c.literalMark := notMem_literalMark hl (by decide) (by decide) c hc
  have hs : Steady (Recovery.of markup).unmask c.literalMark := steady_literalMark hl hc
  have hu' : Steady (Recovery.of markup).unmask u := fun x hx => hs x (hu.subset hx)
  rw [Recovery.restore_eq_map fun p _ h => ?_, hu'.map_eq]
  rw [Recovery.keyComment_eq] at h
  exact hopen (hu.subset (h.subset List.mem_cons_self))

/-- Parts of a comment or a mark come out as they are. -/
theorem reveal_part {p u : Text} (hp : p ∈ signs (Recovery.of markup) cs) (hu : u <:+: p)
    (hne : u ≠ p) : reveal (Recovery.of markup) cs u = u := by
  refine reveal_eq_self hl.mark_ne_nil fun q hq h => hne ?_
  obtain rfl := eq_of_infix_sign hl hp hq (h.trans hu)
  exact hu.eq_of_length (Nat.le_antisymm hu.length_le h.length_le)

end Parts

/-! ## Texts that come out as they are -/

section Verbatim

variable {o : Options} {document : Text} {w : Text}

/-- No pattern touches the text. -/
def Spared (o : Options) (document w : Text) : Prop :=
  ∀ p ∈ patterns (recovery o document) (blocks o document), Spares p w

instance (o : Options) (document w : Text) : Decidable (Spared o document w) :=
  inferInstanceAs (Decidable (∀ p ∈ patterns (recovery o document) (blocks o document), Spares p w))

/-- The text comes out as it is and changes nothing around it. -/
def Verbatim (o : Options) (document w : Text) : Prop :=
  ∀ s t, reveal (recovery o document) (blocks o document) (s ++ (w ++ t)) =
    reveal (recovery o document) (blocks o document) s ++
      (w ++ reveal (recovery o document) (blocks o document) t)

/-- A text that holds a pattern is changed. -/
theorem not_infix_of_reveal_eq (hd : (shieldOf o).Bordered) {t : Text}
    (h : reveal (recovery o document) (blocks o document) t = t) :
    ∀ p ∈ patterns (recovery o document) (blocks o document), ¬ p <:+: t := by
  have hl := labelled_blocks o document
  have hcount {x : Char} (hx : x ∉ "bindifyjs".toList) (hd : x.isDigit = false) :
      ((recovery o document).restore t).count x ≤ t.count x := by
    have hle := count_le_unshield hl.mark_ne_nil (notMem_literalMark hl hx hd)
      ((recovery o document).restore t)
    rwa [← reveal, h] at hle
  have hmark : ∀ c ∈ blocks o document, ¬ c.mark <:+: t := by
    rw [← h]
    exact hd.not_infix_unshield legible_bindify _
  intro p hp hi
  rcases mem_patterns.1 hp with hp | ⟨c, hc, rfl⟩
  · rcases mem_signs.1 hp with ⟨q, hq, rfl⟩ | ⟨m, hm, rfl⟩ | ⟨c, hc, rfl⟩
    · exact absurd (hcount (x := '[') (by decide) (by decide))
        (Nat.not_le_of_lt (Recovery.count_lt_restore_of_section hq hi))
    · exact absurd (hcount (x := '&') (by decide) (by decide))
        (Nat.not_le_of_lt (Recovery.count_lt_restore_of_mask hm (hi.subset List.mem_cons_self)))
    · exact hmark c hc hi
  · exact hmark c hc ((List.prefix_append _ _).isInfix.trans hi)

section Contexts

variable {x : Char} (hd : (shieldOf o).Bordered) (hx : Still x) (hw : x ∈ w)
  (h : Verbatim o document w)

include hd hx hw h

theorem Verbatim.spares_sign {p : Text} (hp : p ∈ signs (recovery o document) (blocks o document)) :
    Spares p w := by
  have hl := labelled_blocks o document
  have hmem := mem_patterns.2 (Or.inl hp)
  have hnil : reveal (recovery o document) (blocks o document) [] = [] := reveal_nil hl
  refine spares_of_contexts (ne_nil_of_mem_patterns hl hmem) ?_ (fun u hu hne => ?_)
    fun v hv hne => ?_
  · exact fun hi => hx.notMem_patterns hl hmem (hi.subset hw)
  · have hs := h u []
    rw [hnil, List.append_nil, recovery, reveal_part hl hp hu.isInfix hne] at hs
    exact not_infix_of_reveal_eq hd hs p hmem
  · have ht := h [] v
    rw [hnil, List.nil_append, List.nil_append, recovery, reveal_part hl hp hv.isInfix hne] at ht
    exact not_infix_of_reveal_eq hd ht p hmem

/-- The text does not begin like the end of a literal mark: the mark before it would be taken for
one, and the block would be escaped. -/
theorem Verbatim.not_prefix {c : Clipping} (hc : c ∈ blocks o document) {y v : Text}
    (hy : y ++ v = "js".toList) (hv : v ≠ []) : ¬ v <+: w := by
  rintro ⟨t, rfl⟩
  have hl := labelled_blocks o document
  have hsign := fun {p} hp => h.spares_sign hd hx hw (p := p) (mem_signs.2 hp)
  have hmark : ∀ d ∈ blocks o document, ¬ d.mark <:+: v ++ t :=
    fun d hdc => (hsign (Or.inr (Or.inr ⟨d, hdc, rfl⟩))).within
  have hb : 'b' ∉ y := fun hb => absurd (hy ▸ List.mem_append_left v hb) (by decide)
  have hjs : y ++ (v ++ t) = "js".toList ++ t := by rw [← List.append_assoc, hy]
  have hfront : (recovery o document).restore (c.mark ++ y) = c.mark ++ y := by
    refine restore_of_infix_literalMark hl hc ⟨[], v, ?_⟩
    rw [List.nil_append, List.append_assoc, hy, Clipping.literalMark]
  have hwhole : (recovery o document).restore (c.mark ++ y ++ (v ++ t ++ [])) =
      c.mark ++ ("js".toList ++ t) := by
    have hnil : (recovery o document).restore [] = [] :=
      restore_of_infix_literalMark hl hc List.nil_infix
    rw [Recovery.restore_append (fun p hp => hsign (Or.inl ⟨p, hp, rfl⟩)) fun m hm hmem => ?_,
      hfront, hnil, List.append_nil, List.append_assoc, hjs]
    exact (hsign (Or.inr (Or.inl ⟨m, hm, rfl⟩))).within ((List.singleton_infix_iff m _).2 hmem)
  have hglued : unshield (c.mark ++ ("js".toList ++ t)) (blocks o document) =
      escape c.text ++ t :=
    hd.unshield_literalMark_append legible_bindify hc (hjs ▸ not_mark_infix_append hl hb hmark)
  have hapart : unshield (c.mark ++ y) (blocks o document) = c.text ++ y := by
    refine hd.unshield_mark_append legible_bindify hc (fun hp => hv ?_) fun d hdc hi => ?_
    · have hlength := hp.length_le
      rw [← hy, List.length_append] at hlength
      exact List.length_eq_zero_iff.1 (by omega)
    · obtain ⟨m, hm, -⟩ := hl.mark_eq_cons legible_bindify.toSeparate hdc
      rw [hm] at hi
      exact hb (hi.subset List.mem_cons_self)
  have hverbatim := h (c.mark ++ y) []
  rw [reveal, reveal, hwhole, hfront, recovery, reveal_nil hl, List.append_nil, hglued, hapart,
    List.append_assoc, hjs] at hverbatim
  have hcount := congrArg (List.count 'j') hverbatim
  rw [List.count_append, List.count_append, List.count_append,
    count_escape (by decide) (by decide)] at hcount
  have hone : "js".toList.count 'j' = 1 := rfl
  omega

theorem Verbatim.spared : Spared o document w := by
  have hl := labelled_blocks o document
  intro p hp
  rcases mem_patterns.1 hp with hp | ⟨c, hc, rfl⟩
  · exact h.spares_sign hd hx hw hp
  · have hmark := h.spares_sign hd hx hw (mem_signs.2 (Or.inr (Or.inr ⟨c, hc, rfl⟩)))
    refine ⟨fun hi => ?_, fun hi => ?_, fun v hv hvw => ?_, fun u hu huw => ?_⟩
    · exact hmark.within ((List.prefix_append _ _).isInfix.trans hi)
    · exact hx.notMem_patterns hl hp (hi.subset hw)
    · by_contra hne
      rcases suffix_append_or hv with ⟨y, hy⟩ | ⟨u, rfl, hu⟩
      · exact h.not_prefix hd hx hw hc hy hne hvw
      · obtain rfl := hmark.before u hu ((List.prefix_append u _).trans hvw)
        exact h.not_prefix hd hx hw hc (y := []) rfl hne hvw
    · rcases prefix_append_or hu with hu | ⟨r, rfl, -⟩
      · exact hmark.behind u hu huw
      · exact absurd ((List.prefix_append _ _).isInfix.trans huw.isInfix) hmark.within

end Contexts

theorem spared_iff (hd : (shieldOf o).Bordered) {x : Char} (hx : Still x) (hw : x ∈ w) :
    Spared o document w ↔ Verbatim o document w :=
  ⟨fun h s t => reveal_append h s t, fun h => h.spared hd hx hw⟩

end Verbatim

end InlineBinding.Transform
