import InlineBinding.Proofs.Text.Mapped
import InlineBinding.Text.Lower
import InlineBinding.Text.Space

/-!
# Texts that are in order already

Lower case letters are left alone by lowering, and single spaces by collapsing.
-/
namespace InlineBinding.Text

/-! ## Lower case -/

section Lower

variable {c : Char} {s t before : Text}

/-- ASCII characters that are no capitals. -/
def IsLow (c : Char) : Prop := c.toNat < 0x80 ∧ asciiLowerChar c = c

instance : DecidablePred IsLow := fun c =>
  inferInstanceAs (Decidable (c.toNat < 0x80 ∧ asciiLowerChar c = c))

theorem range_of_upper (h : Ranges.has [(0x41, 0x5a)] c = true) :
    0x41 ≤ c.toNat ∧ c.toNat ≤ 0x5a := by
  simpa [Ranges.has] using h

/-- Only letters are the ASCII lower case of other characters. -/
theorem eq_of_asciiLowerChar {x : Char} (h : asciiLowerChar c = x)
    (hx : isAsciiLetter x = false) : c = x := by
  rw [asciiLowerChar] at h
  split at h
  · rename_i hupper
    have hrange := range_of_upper hupper
    have hletter : isAsciiLetter (Char.ofNat (c.toNat + 32)) = true :=
      of_ascii (p := fun c => Ranges.has [(0x41, 0x5a)] c = true →
        isAsciiLetter (Char.ofNat (c.toNat + 32)) = true) (by decide +kernel) (by omega) hupper
    rw [h, hx] at hletter
    exact Bool.noConfusion hletter
  · exact h

theorem lowerAt_of_ascii (h : c.toNat < 0x80) (before after : Text) :
    lowerAt before c after = [asciiLowerChar c] := by
  have hsigma : c ≠ 'Σ' := by
    rintro rfl
    exact absurd h (by decide)
  have hdotted : c ≠ 'İ' := by
    rintro rfl
    exact absurd h (by decide)
  rw [lowerAt, if_neg hsigma, if_neg hdotted, simpleLower, if_pos h]

theorem exists_lowerAt (before : Text) (c : Char) (after : Text) :
    ∃ x y, lowerAt before c after = x :: y := by
  rw [lowerAt]
  split
  · split <;> exact ⟨_, _, rfl⟩
  · split <;> exact ⟨_, _, rfl⟩

theorem lowerAt_of_isLow (h : IsLow c) (before after : Text) : lowerAt before c after = [c] := by
  rw [lowerAt_of_ascii h.1, h.2]

theorem lowerFrom_append (before : Text) (hs : ∀ c ∈ s, IsLow c) (t : Text) :
    lowerFrom before (s ++ t) = s ++ lowerFrom (s.reverse ++ before) t := by
  induction s generalizing before with
  | nil => rfl
  | cons c s ih =>
    rw [List.cons_append, lowerFrom, lowerAt_of_isLow (hs c List.mem_cons_self),
      ih (c :: before) fun d hd => hs d (List.mem_cons_of_mem c hd), List.reverse_cons,
      List.append_assoc]
    rfl

theorem lower_eq_self (hs : ∀ c ∈ s, IsLow c) : lower s = s := by
  have h := lowerFrom_append [] hs []
  rwa [List.append_nil, lowerFrom, List.append_nil] at h

/-! ### Capitals lowered first -/

theorem range_asciiLowerChar (h : Ranges.has [(0x41, 0x5a)] c = true) :
    0x61 ≤ (asciiLowerChar c).toNat ∧ (asciiLowerChar c).toNat ≤ 0x7a :=
  of_ascii (p := fun c => Ranges.has [(0x41, 0x5a)] c = true →
    0x61 ≤ (asciiLowerChar c).toNat ∧ (asciiLowerChar c).toNat ≤ 0x7a) (by decide +kernel)
    (by have := range_of_upper h; omega) h

theorem asciiLowerChar_of_not_upper (h : Ranges.has [(0x41, 0x5a)] c = false) :
    asciiLowerChar c = c := by
  rw [asciiLowerChar, h, if_neg Bool.false_ne_true]

/-- A set that has all ASCII letters or none of them does not tell capitals from the others. -/
theorem has_asciiLowerChar {r : Ranges} {b : Bool} (hr : ∀ c : Char,
    0x41 ≤ c.toNat ∧ c.toNat ≤ 0x5a ∨ 0x61 ≤ c.toNat ∧ c.toNat ≤ 0x7a → r.has c = b) (c : Char) :
    r.has (asciiLowerChar c) = r.has c := by
  cases h : Ranges.has [(0x41, 0x5a)] c with
  | true => rw [hr _ (Or.inr (range_asciiLowerChar h)), hr c (Or.inl (range_of_upper h))]
  | false => rw [asciiLowerChar_of_not_upper h]

theorem caseIgnorable_asciiLowerChar (c : Char) :
    caseIgnorableRanges.has (asciiLowerChar c) = caseIgnorableRanges.has c := by
  refine has_asciiLowerChar (b := false) (fun c hc => ?_) c
  have hapart : ∀ p ∈ caseIgnorableRanges,
      p.2 < 0x41 ∨ 0x5a < p.1 ∧ p.2 < 0x61 ∨ 0x7a < p.1 := by decide +kernel
  rw [Ranges.has, List.any_eq_false]
  intro p hp
  have hp := hapart p hp
  rw [Bool.and_eq_true, decide_eq_true_eq, decide_eq_true_eq]
  omega

theorem cased_asciiLowerChar (c : Char) :
    casedRanges.has (asciiLowerChar c) = casedRanges.has c := by
  refine has_asciiLowerChar (b := true) ?_ c
  rintro c (hc | hc)
  · exact List.any_eq_true.2 ⟨(0x41, 0x5a), by decide, by simpa using hc⟩
  · exact List.any_eq_true.2 ⟨(0x61, 0x7a), by decide, by simpa using hc⟩

theorem reachesCased_asciiLower (s : Text) : reachesCased (asciiLower s) = reachesCased s := by
  have hskip : caseIgnorableRanges.has ∘ asciiLowerChar = caseIgnorableRanges.has :=
    funext caseIgnorable_asciiLowerChar
  rw [reachesCased, reachesCased, asciiLower, List.dropWhile_map, hskip]
  cases s.dropWhile caseIgnorableRanges.has with
  | nil => rfl
  | cons c r => exact cased_asciiLowerChar c

theorem lowerAt_asciiLower (before : Text) (c : Char) (after : Text) :
    lowerAt (asciiLower before) (asciiLowerChar c) (asciiLower after) = lowerAt before c after := by
  cases h : Ranges.has [(0x41, 0x5a)] c with
  | true =>
    have hc : c.toNat < 0x80 := by have := range_of_upper h; omega
    have hl : (asciiLowerChar c).toNat < 0x80 := by have := range_asciiLowerChar h; omega
    have htwice : asciiLowerChar (asciiLowerChar c) = asciiLowerChar c :=
      of_ascii (p := fun c => asciiLowerChar (asciiLowerChar c) = asciiLowerChar c)
        (by decide +kernel) hc
    rw [lowerAt_of_ascii hl, lowerAt_of_ascii hc, htwice]
  | false =>
    rw [asciiLowerChar_of_not_upper h, lowerAt, lowerAt, reachesCased_asciiLower,
      reachesCased_asciiLower]

theorem lowerFrom_asciiLower (before s : Text) :
    lowerFrom (asciiLower before) (asciiLower s) = lowerFrom before s := by
  induction s generalizing before with
  | nil => rfl
  | cons c s ih =>
    change lowerAt (asciiLower before) (asciiLowerChar c) (asciiLower s) ++
      lowerFrom (asciiLower (c :: before)) (asciiLower s) = _
    rw [lowerAt_asciiLower, ih]
    rfl

/-- ASCII letters may be lowered first: they and their lower case end the same words. -/
theorem lower_asciiLower (s : Text) : lower (asciiLower s) = lower s :=
  lowerFrom_asciiLower [] s

/-- Apart from k, and from i before a dot, ASCII characters are the lower case of ASCII characters
only. -/
theorem ascii_of_lowerAt {x : Char} {after y : Text} (hx : x.toNat < 0x80) (hk : x ≠ 'k')
    (hi : x = 'i' → ∀ d ∈ y, d.toNat < 0x80) (h : lowerAt before c after = x :: y) :
    c.toNat < 0x80 ∧ asciiLowerChar c = x ∧ y = [] := by
  have hruns : ∀ r ∈ caseRuns, r.last < 0x80 ∨ (0x80 : Int) ≤ r.first + r.distance ∨
      r.first = 0x212a ∧ r.last = 0x212a ∧ r.distance = -8383 := by decide +kernel
  have hvalid : ∀ r ∈ caseRuns, (r.last + r.distance : Int) < 0xd800 ∨
      (0xe000 : Int) ≤ r.first + r.distance ∧ (r.last + r.distance : Int) < 0x110000 := by
    decide +kernel
  by_cases hc : c.toNat < 0x80
  · rw [lowerAt_of_ascii hc] at h
    exact ⟨hc, (List.cons.inj h).1, (List.cons.inj h).2.symm⟩
  rw [lowerAt] at h
  split at h
  · split at h
    · exact absurd ((List.cons.inj h).1 ▸ hx) (by decide)
    · exact absurd ((List.cons.inj h).1 ▸ hx) (by decide)
  split at h
  · obtain ⟨rfl, rfl⟩ := List.cons.inj h
    exact absurd (hi rfl _ List.mem_cons_self) (by decide)
  have h := (List.cons.inj h).1
  rw [simpleLower, if_neg hc] at h
  split at h
  · rename_i r hr
    have hhas := List.find?_some hr
    have hrun := hruns r (List.mem_of_find?_eq_some hr)
    rw [CaseRun.has, Bool.and_eq_true, Bool.and_eq_true, decide_eq_true_eq,
      decide_eq_true_eq] at hhas
    have hchar : (c.toNat + r.distance).toNat.isValidChar := by
      have hr := hvalid r (List.mem_of_find?_eq_some hr)
      rw [Nat.isValidChar]
      omega
    have hne : (c.toNat + r.distance).toNat ≠ 0x6b := fun he => hk (by rw [← h, he])
    rw [Char.ofNat, dif_pos hchar] at h
    have hvalue := congrArg Char.toNat h
    change (c.toNat + r.distance).toNat = x.toNat at hvalue
    omega
  · exact absurd (h ▸ hx) hc

/-- Only an angle is lowered to an angle. -/
theorem eq_angle_of_lowerAt {after y : Text} (h : lowerAt before c after = '<' :: y) : c = '<' := by
  obtain ⟨-, hc, -⟩ := ascii_of_lowerAt (by decide) (by decide) (fun hi => absurd hi (by decide)) h
  exact eq_of_asciiLowerChar hc (by decide)

/-- A text whose lower case begins with an angle begins with it. -/
theorem eq_cons_of_angle_lower {y : Text} (h : lower s = '<' :: y) : ∃ r, s = '<' :: r := by
  cases s with
  | nil => exact absurd h (by simp)
  | cons c r =>
    rw [lower, lowerFrom] at h
    obtain ⟨x, z, hx⟩ := exists_lowerAt [] c r
    rw [hx, List.cons_append] at h
    obtain rfl := (List.cons.inj h).1
    exact ⟨r, by rw [eq_angle_of_lowerAt hx]⟩

/-- Words without these two letters are found in lower case where they are in ASCII lower case. -/
theorem prefix_lower_iff {w : Text} (hw : ∀ x ∈ w, x.toNat < 0x80 ∧ x ≠ 'i' ∧ x ≠ 'k') :
    w <+: lower s ↔ w <+: asciiLower s := by
  have hfrom (before : Text) : w <+: lowerFrom before s ↔ w <+: asciiLower s := by
    induction w generalizing s before with
    | nil => exact iff_of_true List.nil_prefix List.nil_prefix
    | cons x w ih =>
      rw [List.forall_mem_cons] at hw
      obtain ⟨⟨hx, hi, hk⟩, hw⟩ := hw
      cases s with
      | nil => rfl
      | cons c s =>
        rw [lowerFrom, asciiLower, List.map_cons, List.cons_prefix_cons]
        constructor
        · intro h
          obtain ⟨z, y, hz⟩ := exists_lowerAt before c s
          rw [hz, List.cons_append, List.cons_prefix_cons] at h
          obtain ⟨rfl, h⟩ := h
          obtain ⟨-, hc, rfl⟩ := ascii_of_lowerAt hx hk (fun he => absurd he hi) hz
          exact ⟨hc.symm, (ih hw _).1 h⟩
        · rintro ⟨rfl, h⟩
          have hc : c.toNat < 0x80 := by
            rw [asciiLowerChar] at hx
            split at hx
            · rename_i hupper
              have hrange := range_of_upper hupper
              omega
            · exact hx
          rw [lowerAt_of_ascii hc]
          exact List.cons_prefix_cons.2 ⟨rfl, (ih hw _).2 h⟩
  exact hfrom []

/-- A word without k is the lower case of what it is the ASCII lower case of. -/
theorem lower_eq_iff {w : Text} (hw : ∀ x ∈ w, IsLow x ∧ x ≠ 'k') :
    lower s = w ↔ asciiLower s = w := by
  have hfrom (before : Text) (h : lowerFrom before s = w) : asciiLower s = w := by
    induction s generalizing before w with
    | nil => exact h
    | cons c s ih =>
      obtain ⟨x, y, hx⟩ := exists_lowerAt before c s
      rw [lowerFrom, hx, List.cons_append] at h
      subst h
      rw [List.forall_mem_cons, List.forall_mem_append] at hw
      obtain ⟨-, hc, rfl⟩ := ascii_of_lowerAt hw.1.1.1 hw.1.2 (fun _ d hd => (hw.2.1 d hd).1.1) hx
      rw [asciiLower, List.map_cons, hc]
      exact congrArg (x :: ·) (ih hw.2.2 (c :: before) rfl)
  refine ⟨hfrom [], fun h => ?_⟩
  rw [← lower_asciiLower, h]
  exact lower_eq_self fun x hx => (hw x hx).1

end Lower

/-! ## White space -/

section Space

variable {f : Char → Char} {s : Text}

theorem collapse_map (hf : ∀ c, isSpace (f c) = isSpace c) (hs : f ' ' = ' ') (s : Text) :
    collapse (s.map f) = (collapse s).map f := by
  have hfrom (inRun : Bool) (s : Text) :
      collapseFrom inRun (s.map f) = (collapseFrom inRun s).map f := by
    induction s generalizing inRun with
    | nil => cases inRun <;> rfl
    | cons c s ih =>
      rw [List.map_cons, collapseFrom, collapseFrom, hf]
      split
      · split
        · exact ih true
        · rw [List.map_cons, hs, ih]
      · rw [List.map_cons, ih]
  exact hfrom false s

theorem eq_space_of_mem_collapse {c : Char} (h : c ∈ collapse s) (hc : isSpace c = true) :
    c = ' ' := by
  have hfrom (inRun : Bool) (s : Text) (h : c ∈ collapseFrom inRun s) : c = ' ' := by
    induction s generalizing inRun with
    | nil => cases inRun <;> exact absurd h List.not_mem_nil
    | cons d s ih =>
      rw [collapseFrom] at h
      split at h
      · split at h
        · exact ih _ h
        · rcases List.mem_cons.1 h with h | h
          · exact h
          · exact ih _ h
      · rename_i hd
        rcases List.mem_cons.1 h with rfl | h
        · exact absurd hc hd
        · exact ih _ h
  exact hfrom false s h

theorem mem_of_mem_collapse {c : Char} (h : c ∈ collapse s) (hc : c ≠ ' ') : c ∈ s := by
  have hfrom (inRun : Bool) (s : Text) (h : c ∈ collapseFrom inRun s) : c ∈ s := by
    induction s generalizing inRun with
    | nil => cases inRun <;> exact absurd h List.not_mem_nil
    | cons d s ih =>
      rw [collapseFrom] at h
      split at h
      · split at h
        · exact List.mem_cons_of_mem d (ih _ h)
        · exact List.mem_cons_of_mem d (ih _ ((List.mem_cons.1 h).resolve_left hc))
      · rw [List.mem_cons] at h ⊢
        exact h.imp_right (ih _)
  exact hfrom false s h

end Space
end InlineBinding.Text
