import InlineBinding.Proofs.Html.Nesting
import InlineBinding.Proofs.Text.Mapped

/-!
# Exchanged characters in texts and values

When the exchanged characters are none of those that markup is made of, a tree with other
characters in its data is written as the same markup with these characters.
-/
namespace InlineBinding.Html
open Text (Steady)

/-- What stands around texts and values. -/
def writtenChars : Text := "<>/=\" !-abcdefghijklmnopqrstuvwxyz0123456789".toList

def mapData (f : Char → Char) : Tree → Tree
  | .nil => .nil
  | .element t cs rest =>
    .element ⟨t.name, t.attributes.map fun a => (a.1, a.2.map f)⟩ (mapData f cs) (mapData f rest)
  | .leaf (.text d) rest => .leaf (.text (d.map f)) (mapData f rest)
  | .leaf (.comment d) rest => .leaf (.comment (d.map f)) (mapData f rest)

variable {f g : Char → Char} {t : Tree}

theorem mapData_mapData (f g : Char → Char) (t : Tree) :
    mapData g (mapData f t) = mapData (g ∘ f) t := by
  induction t with
  | nil => rfl
  | element t cs rest ihc ihr => simp [mapData, ihc, ihr]
  | leaf l rest ih => cases l <;> simp [mapData, ih]

theorem data_mapData (f : Char → Char) (t : Tree) :
    data (mapData f t) = (data t).map (List.map f) := by
  induction t with
  | nil => rfl
  | element t cs rest ihc ihr => simp [mapData, data, ihc, ihr]
  | leaf l rest ih => cases l <;> simp [mapData, data, ih]

theorem mapData_eq_self_iff : mapData f t = t ↔ ∀ d ∈ data t, ∀ c ∈ d, f c = c := by
  have hmap (d : Text) : d.map f = d ↔ ∀ c ∈ d, f c = c := by
    induction d with
    | nil => simp
    | cons c d ih => rw [List.map_cons, List.cons_eq_cons, ih, List.forall_mem_cons]
  have hvalues (as : List (Text × Text)) :
      as.map (fun a => (a.1, a.2.map f)) = as ↔ ∀ d ∈ as.map Prod.snd, ∀ c ∈ d, f c = c := by
    induction as with
    | nil => simp
    | cons a as ih =>
      rw [List.map_cons, List.cons_eq_cons, ih, List.map_cons, List.forall_mem_cons, ← hmap,
        Prod.ext_iff, and_iff_right rfl]
  induction t with
  | nil => simp [mapData, data]
  | element t cs rest ihc ihr =>
    obtain ⟨n, as⟩ := t
    simp only [mapData, data, Forest.element.injEq, ihc, ihr, List.forall_mem_append, ← hvalues,
      Tag.mk.injEq, true_and]
  | leaf l rest ih =>
    cases l <;> simp only [mapData, data, Forest.leaf.injEq, ih, List.forall_mem_cons, ← hmap,
      Leaf.text.injEq, Leaf.comment.injEq]

theorem startsText_mapData (f : Char → Char) (t : Tree) :
    startsText (mapData f t) = startsText t := by
  cases t with
  | nil => rfl
  | element t cs rest => rfl
  | leaf l rest => cases l <;> rfl

theorem mapData_nest (f : Char → Char) (slash : Bool) (t : Tree) :
    mapData f (nest slash t) = nest slash (mapData f t) := by
  induction t with
  | nil => rfl
  | element t cs rest ihc ihr =>
    rw [nest, mapData, nest]
    split <;> simp [mapData, ihc, ihr]
  | leaf l rest ih => cases l <;> simp [mapData, nest, ih]

/-- Exchanging characters makes up for no nesting. -/
theorem mapData_nest_eq_self_iff {slash : Bool} :
    mapData f (nest slash t) = t ↔ nest slash t = t ∧ mapData f t = t := by
  constructor
  · intro h
    induction t with
    | nil => exact ⟨rfl, rfl⟩
    | element t cs rest ihc ihr =>
      rw [nest] at h ⊢
      split at h
      · rename_i hopen
        rw [if_pos hopen]
        simp only [mapData, Forest.element.injEq, true_and] at h ⊢
        obtain ⟨ht, hc, rfl⟩ := h
        obtain rfl : cs = .nil := hc.symm
        exact ⟨⟨rfl, rfl⟩, ht, rfl, rfl⟩
      · rename_i hopen
        rw [if_neg hopen]
        simp only [mapData, Forest.element.injEq, true_and] at h ⊢
        obtain ⟨ht, hc, hr⟩ := h
        exact ⟨⟨(ihc hc).1, (ihr hr).1⟩, ht, (ihc hc).2, (ihr hr).2⟩
    | leaf l rest ih =>
      cases l <;> simp only [nest, mapData, Forest.leaf.injEq, true_and] at h ⊢ <;>
        exact ⟨(ih h.2).1, h.1, (ih h.2).2⟩
  · rintro ⟨hn, hm⟩
    rw [hn, hm]

/-- All data stands in what is written. -/
theorem subset_write {d : Text} (h : Plain t) (hd : d ∈ data t) (slash : Bool) :
    d ⊆ write slash t := by
  induction t with
  | nil => exact absurd hd List.not_mem_nil
  | element t cs rest ihc ihr =>
    obtain ⟨-, -, hcs, hc, hr⟩ := h
    intro c hcd
    rw [data, List.mem_append, List.mem_append] at hd
    rw [write]
    rcases hd with hd | hd | hd
    · obtain ⟨a, ha, rfl⟩ := List.mem_map.1 hd
      have hopening : c ∈ writeOpening t := by
        rw [writeOpening, List.mem_append, List.mem_flatMap]
        exact Or.inr ⟨a, ha, by simp [writeAttribute, hcd]⟩
      split <;> simp [hopening]
    · by_cases hcontainer : t.name ∈ containerNames
      · simp [hcontainer, ihc hc hd hcd]
      · rw [hcs hcontainer] at hd
        exact absurd hd List.not_mem_nil
    · split <;> simp [ihr hr hd hcd]
  | leaf l rest ih =>
    cases l with
    | text e =>
      rw [data, List.mem_cons] at hd
      rw [write]
      rcases hd with rfl | hd
      · exact List.subset_append_left _ _
      · exact List.Subset.trans (ih h.2.2.2 hd) (List.subset_append_right _ _)
    | comment e => exact h.elim

theorem mem_writtenChars {c : Char} (h : isNameChar c = true) : c ∈ writtenChars :=
  Text.of_ascii (p := fun c => isNameChar c = true → c ∈ writtenChars) (by decide +kernel)
    (isLow_of_isNameChar h).1 h

theorem notMem_writeOpening {x : Char} {t : Tag} (h : t.Plain) (hn : t.name ⊆ writtenChars)
    (hx : x ∉ writtenChars) (hd : ∀ d ∈ t.attributes.map Prod.snd, x ∉ d) :
    x ∉ writeOpening t := by
  have hnone {s : Text} (hs : s ⊆ writtenChars) : x ∉ s := fun hm => hx (hs hm)
  rw [writeOpening, List.mem_append, List.mem_flatMap, not_or]
  refine ⟨hnone (List.cons_subset.2 ⟨by decide, hn⟩), ?_⟩
  rintro ⟨a, ha, hin⟩
  have hname : ' ' :: a.1 ⊆ writtenChars :=
    List.cons_subset.2 ⟨by decide, fun c hc => mem_writtenChars ((h.named a ha).2 c hc)⟩
  rw [writeAttribute, List.mem_append, List.mem_append, List.mem_append] at hin
  rcases hin with ((hin | hin) | hin) | hin
  · exact hnone hname hin
  · exact hnone (by decide) hin
  · exact hd a.2 (List.mem_map_of_mem ha) hin
  · exact hnone (by decide) hin

/-- What stands in no data and is no markup stands nowhere. -/
theorem notMem_write {x : Char} (h : Plain t) (hx : x ∉ writtenChars) (hd : ∀ d ∈ data t, x ∉ d)
    (slash : Bool) : x ∉ write slash t := by
  have hnone {s : Text} (hs : s ⊆ writtenChars) : x ∉ s := fun hm => hx (hs hm)
  have hending (slash : Bool) : x ∉ ending slash := by cases slash <;> exact hnone (by decide)
  have hnames : ∀ n ∈ plainNames, n ⊆ writtenChars ∧
      "</".toList ++ n ++ ['>'] ⊆ writtenChars := by decide
  induction t with
  | nil => exact List.not_mem_nil
  | element t cs rest ihc ihr =>
    obtain ⟨ht, hname, -, hc, hr⟩ := h
    simp only [data, List.forall_mem_append] at hd
    have hopening := notMem_writeOpening ht (hnames _ hname).1 hx hd.1
    have hclosing := hnone (hnames _ hname).2
    simp only [List.mem_append, List.mem_singleton, not_or] at hclosing
    rw [write]
    split <;> simp only [List.mem_append, List.mem_cons, not_or]
    · exact ⟨⟨⟨⟨⟨hopening, hending false⟩, ihc hc hd.2.1⟩, hclosing.1.1⟩, hclosing.1.2⟩,
        hclosing.2, ihr hr hd.2.2⟩
    · exact ⟨⟨hopening, hending slash⟩, ihr hr hd.2.2⟩
  | leaf l rest ih =>
    cases l with
    | text d =>
      rw [data, List.forall_mem_cons] at hd
      rw [write, List.mem_append, not_or]
      exact ⟨hd.1, ih h.2.2.2 hd.2⟩
    | comment d => exact h.elim

section Steady

variable (hf : Steady f writtenChars)
include hf

theorem map_eq_self_of_subset {s : Text} (hs : s ⊆ writtenChars) : s.map f = s := by
  rw [List.map_congr_left (g := id) fun c hc => (hf c (hs hc) c).2 rfl, List.map_id]

theorem Plain.mapData (h : Plain t) : Plain (mapData f t) := by
  have hkeep {c d : Char} (hc : c ∈ writtenChars) (hd : d ≠ c) : f d ≠ c :=
    fun he => hd ((hf c hc d).1 he)
  induction t with
  | nil => trivial
  | element t cs rest ihc ihr =>
    obtain ⟨⟨hnamed, hvalued, hdistinct⟩, hname, hcs, hc, hr⟩ := h
    refine ⟨⟨?_, ?_, ?_⟩, hname, fun hn => by rw [hcs hn]; rfl, ihc hc, ihr hr⟩
    · exact List.forall_mem_map.2 hnamed
    · rw [List.forall_mem_map]
      intro a ha
      rw [List.forall_mem_map]
      intro c hc
      obtain ⟨hq, ho, hcl⟩ := hvalued a ha c hc
      exact ⟨hkeep (by decide) hq, hkeep (by decide) ho, hkeep (by decide) hcl⟩
    · rwa [List.map_map]
  | leaf l rest ih =>
    cases l with
    | text d =>
      obtain ⟨hne, hd, hstart, hr⟩ := h
      refine ⟨by simpa using hne, ?_, by rwa [startsText_mapData], ih hr⟩
      rw [List.forall_mem_map]
      intro c hc
      exact ⟨hkeep (by decide) (hd c hc).1, hkeep (by decide) (hd c hc).2⟩
    | comment d => exact h.elim

theorem writeAttribute_map {a : Text × Text} (h : ∀ c ∈ a.1, isNameChar c = true) :
    writeAttribute (a.1, a.2.map f) = (writeAttribute a).map f := by
  have hid {s : Text} (hs : s ⊆ writtenChars) : s.map f = s := map_eq_self_of_subset hf hs
  have hspace : f ' ' = ' ' := (hf ' ' (by decide) ' ').2 rfl
  simp only [writeAttribute, List.map_append, List.map_cons, hspace,
    hid fun c hc => mem_writtenChars (h c hc), hid (s := "=\"".toList) (by decide),
    hid (s := ['"']) (by decide)]

theorem writeOpening_map {t : Tag} (h : t.Plain) (hname : t.name ∈ plainNames) :
    writeOpening ⟨t.name, t.attributes.map fun a => (a.1, a.2.map f)⟩ = (writeOpening t).map f := by
  have hnames : ∀ n ∈ plainNames, n ⊆ writtenChars := by decide
  have hangle : f '<' = '<' := (hf '<' (by decide) '<').2 rfl
  rw [writeOpening, writeOpening, List.map_append, List.map_cons, hangle,
    map_eq_self_of_subset hf (hnames _ hname), List.flatMap_map, List.map_flatMap]
  exact congrArg _ (List.flatMap_congr fun a ha => writeAttribute_map hf (h.named a ha).2)

theorem write_mapData (h : Plain t) (slash : Bool) :
    write slash (Html.mapData f t) = (write slash t).map f := by
  have hnames : ∀ n ∈ plainNames, n ⊆ writtenChars := by decide
  have hid {s : Text} (hs : s ⊆ writtenChars) : s.map f = s := map_eq_self_of_subset hf hs
  have hangle : f '>' = '>' := (hf '>' (by decide) '>').2 rfl
  have hending (slash : Bool) : (ending slash).map f = ending slash := by
    cases slash <;> exact hid (by decide)
  induction t with
  | nil => rfl
  | element t cs rest ihc ihr =>
    obtain ⟨ht, hname, -, hc, hr⟩ := h
    rw [Html.mapData, write, write]
    split
    · simp only [List.map_append, List.map_cons, writeOpening_map hf ht hname, hending, ihc hc,
        ihr hr, hid (hnames _ hname), hid (s := "</".toList) (by decide), hangle]
    · simp only [List.map_append, writeOpening_map hf ht hname, hending, ihr hr]
  | leaf l rest ih =>
    cases l with
    | text d => rw [Html.mapData, write, write, List.map_append, ih h.2.2.2]
    | comment d => exact h.elim

end Steady

end InlineBinding.Html
