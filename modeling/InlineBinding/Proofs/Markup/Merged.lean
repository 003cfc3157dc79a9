import InlineBinding.Proofs.Markup.Spelled

/-!
# Attributes that become one

Attributes are read with ASCII capitals lowered, and the table of spellings is asked for such a
name; but its keys are names with all capitals lowered. So the name that is recalled for an
attribute can be the one that another attribute of the element has, and then the two become one.
This is the only way: names that are recalled for different keys are different.
-/
namespace InlineBinding.Markup
open Text Html

/-! ## Names that meet -/

section Recalled

variable {names : List Text} {x y z : Text}

theorem lower_eq_of_recalled (h : recalled names x = some y) : lower y = x ∧ y ≠ x := by
  have hfound := List.find?_some h
  rw [Bool.and_eq_true, beq_iff_eq, bne_iff_ne] at hfound
  exact hfound

/-- Names that are recalled belong to one key. -/
theorem eq_of_recalled (hx : recalled names x = some z) (hy : recalled names y = some z) : x = y :=
  (lower_eq_of_recalled hx).1.symm.trans (lower_eq_of_recalled hy).1

/-- The name recalled for one attribute is that of another one, for which none is recalled. -/
def Merges (names : List Text) (as : List (Text × Text)) : Prop :=
  ∃ a ∈ as, ∃ b ∈ as, recalled names a.1 = some b.1 ∧ recalled names b.1 = none

instance (names : List Text) (as : List (Text × Text)) : Decidable (Merges names as) :=
  inferInstanceAs (Decidable (∃ _ ∈ _, ∃ _ ∈ _, _))

/-- Names without capitals of any kind do not meet. -/
theorem not_merges {as : List (Text × Text)} (h : ∀ a ∈ as, lower a.1 = a.1) :
    ¬ Merges names as := by
  rintro ⟨a, -, b, hb, hrecalled, -⟩
  obtain ⟨hlower, hne⟩ := lower_eq_of_recalled hrecalled
  exact hne ((h b hb).symm.trans hlower)

/-- Two keys get one name only if the one is what is recalled for the other. -/
theorem recalled_cases (hne : x ≠ y)
    (h : (recalled names x).getD x = (recalled names y).getD y) :
    recalled names x = some y ∧ recalled names y = none ∨
      recalled names y = some x ∧ recalled names x = none := by
  cases hx : recalled names x with
  | some u =>
    cases hy : recalled names y with
    | some v =>
      have huv : u = v := by simpa [hx, hy] using h
      exact absurd (eq_of_recalled hx (huv ▸ hy)) hne
    | none =>
      have hu : u = y := by simpa [hx, hy] using h
      exact Or.inl ⟨congrArg some hu, rfl⟩
  | none =>
    cases hy : recalled names y with
    | some v =>
      have hv : x = v := by simpa [hx, hy] using h
      exact Or.inr ⟨congrArg some hv.symm, rfl⟩
    | none => exact absurd (by simpa [hx, hy] using h) hne

theorem nodup_recalled_iff {as : List (Text × Text)} (h : (as.map Prod.fst).Nodup) :
    (as.map fun a => (recalled names a.1).getD a.1).Nodup ↔ ¬ Merges names as := by
  constructor
  · rintro hnodup ⟨a, ha, b, hb, hab, hnone⟩
    have hsame : (recalled names a.1).getD a.1 = (recalled names b.1).getD b.1 := by
      rw [hab, hnone]
      rfl
    have heq : a = b := List.inj_on_of_nodup_map hnodup ha hb hsame
    rw [heq, hnone] at hab
    exact absurd hab (by simp)
  · intro hnone
    refine List.Nodup.map_on (fun a ha b hb hsame => ?_) (List.Nodup.of_map _ h)
    by_contra hne
    have hkeys : a.1 ≠ b.1 := fun he => hne (List.inj_on_of_nodup_map h ha hb he)
    rcases recalled_cases hkeys hsame with ⟨hab, hb'⟩ | ⟨hba, ha'⟩
    · exact hnone ⟨a, ha, b, hb, hab, hb'⟩
    · exact hnone ⟨b, hb, a, ha, hba, ha'⟩

end Recalled

/-! ## Attributes of an element -/

section Parsed

variable {collapsing : Bool} {markup : Text} {tree : Tree}

theorem nodup_read {o : Html.Tag} (h : o ∈ origins markup) :
    (o.read.attributes.map Prod.fst).Nodup := by
  rcases origin_cases h with ⟨-, hnone⟩ | ⟨place, -, -, rfl⟩
  · have hread : o.read = o := by rw [Tag.read, hnone]
    rw [hread, hnone]
    exact List.nodup_nil
  · have hnodup : ((writtenAttributes place).map (asciiLower ·.1)).Nodup :=
      nodup_writtenFrom List.nodup_nil
    rw [Tag.read, List.map_map]
    exact hnodup

/-- The attributes of every element are those that were read, each with its value and in their
order, unless two names meet; then they are fewer. -/
theorem attributes_of_parse (h : parse collapsing markup = .ok tree) :
    tree.elements = (origins markup).map (fun o => (Recovery.of markup).tag o.read) ∧
    ∀ o ∈ origins markup,
      let names := attributeNames (lookedIn markup)
      let t := (Recovery.of markup).tag o.read
      (o.read.attributes.map Prod.fst).Nodup ∧
        (t.attributes = o.read.attributes.map (fun a =>
            ((recalled names a.1).getD a.1, .text a.2)) ↔ ¬ Merges names o.read.attributes) ∧
        (t.attributes.length < o.read.attributes.length ↔ Merges names o.read.attributes) ∧
        ((∀ a ∈ o.read.attributes, lower a.1 = a.1) → ¬ Merges names o.read.attributes) := by
  refine ⟨elements_origins h, fun o ho => ?_⟩
  intro names t
  set as := o.read.attributes with has
  set spelled := as.map (fun a => ((recalled names a.1).getD a.1, Value.text a.2)) with hspelled
  have hattributes : t.attributes = Attributes.ofList spelled := by
    simp only [t, Recovery.tag, spelling_attributes]
    rfl
  have hlength : spelled.length = as.length := List.length_map _
  have hnames : (spelled.map Prod.fst).Nodup ↔ ¬ Merges names as := by
    rw [← nodup_recalled_iff (nodup_read ho), hspelled, List.map_map]
    rfl
  have hfewer : t.attributes.length < as.length ↔ Merges names as := by
    rw [hattributes, ← hlength, Attributes.length_ofList_lt_iff, hnames, not_not]
  refine ⟨nodup_read ho, ⟨fun he hm => ?_, fun hm => ?_⟩, hfewer, not_merges⟩
  · have hlt := hfewer.2 hm
    rw [he, hlength] at hlt
    exact Nat.lt_irrefl _ hlt
  · rw [hattributes]
    exact Attributes.ofList_eq_self (hnames.2 hm)

/-- Two attributes of one name up to letter case, but not up to that of ASCII letters. -/
def umlauts : Text := "<p Ä='1' ä='2'>x</p>".toList

/-- They are read as two, and the element has one. -/
theorem attributes_of_parse_umlauts : ∃ tree, parse true umlauts = .ok tree ∧
    (origins umlauts).map (fun o => o.read.attributes) =
      [[("Ä".toList, "1".toList), ("ä".toList, "2".toList)]] ∧
    tree.elements.map (fun t => t.attributes) = [[("Ä".toList, .text "2".toList)]] ∧
    ∀ o ∈ origins umlauts, Merges (attributeNames (lookedIn umlauts)) o.read.attributes := by
  have hfragment : Recovery.startsDocument (Recovery.prepare umlauts) = false := by decide +kernel
  obtain ⟨tree, hparse, -⟩ := parse_fragment true hfragment
  obtain ⟨helements, happart⟩ := attributes_of_parse hparse
  have hshorter : ∀ o ∈ origins umlauts,
      ((Recovery.of umlauts).tag o.read).attributes.length < o.read.attributes.length := by
    decide +kernel
  refine ⟨tree, hparse, by decide +kernel, ?_, fun o ho => ?_⟩
  · rw [helements, List.map_map]
    decide +kernel
  · exact (happart o ho).2.2.1.1 (hshorter o ho)

end Parsed

end InlineBinding.Markup
