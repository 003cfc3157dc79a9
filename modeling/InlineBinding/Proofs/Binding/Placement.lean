import InlineBinding.Proofs.Binding.Complete

/-! # Where bound texts stand in the end

A clause names the place of its text as it is when the clause is pushed.  Later wrappers take the
place of single texts, so they do not come between a text and its anchor: what has been named
holds for the whole scan.
-/
namespace InlineBinding.Binding
open Linked Markup

/-- The text `t` stands where the place says, seen from the element `a`. -/
def Place.Holds (g : Shape) (t a : Id) : Place → Prop
  | next => ∃ owner sib before after, g.Level owner sib ∧ sib.tops = before ++ a :: t :: after
  | first => ∃ sib, g.Below a sib ∧ sib.tops.head? = some t
  | prev => ∃ after, g.tops = t :: a :: after

theorem leads_next {store : Store} {owner prev : Option Id} {sib : Shape} {a t : Id}
    {before after : List Id} (h : store.Leads owner prev sib)
    (ht : sib.tops = before ++ a :: t :: after) :
    (store.links? a).bind Links.next = some t := by
  induction sib generalizing prev before with
  | nil => exact absurd ht (by simp [Forest.tops])
  | element i cs rest _ ih =>
    rw [Forest.tops] at ht
    cases before with
    | nil =>
      obtain ⟨rfl, hrest⟩ := List.cons.inj ht
      rw [h.1, hrest]
      rfl
    | cons b before => exact ih h.2.2 (List.cons.inj ht).2
  | leaf i rest ih =>
    rw [Forest.tops] at ht
    cases before with
    | nil =>
      obtain ⟨rfl, hrest⟩ := List.cons.inj ht
      rw [h.1, hrest]
      rfl
    | cons b before => exact ih h.2 (List.cons.inj ht).2

/-- At each place there is one text. -/
theorem Place.Holds.unique {d : Document} {g : Shape} (hd : d.Shows g) {place : Place}
    {t u a : Id} (ht : place.Holds g t a) (hu : place.Holds g u a) : t = u := by
  cases place with
  | next =>
    obtain ⟨owner, sib, before, after, hl, ht⟩ := ht
    obtain ⟨owner', sib', before', after', hl', hu⟩ := hu
    exact Option.some.inj ((leads_next (hd.leads_level hl) ht).symm.trans
      (leads_next (hd.leads_level hl') hu))
  | first =>
    obtain ⟨sib, hb, ht⟩ := ht
    obtain ⟨sib', hb', hu⟩ := hu
    have htops := (hd.owns.below hb).1.symm.trans (hd.owns.below hb').1
    rw [Option.some.inj (Option.some.inj htops), hu] at ht
    exact (Option.some.inj ht).symm
  | prev =>
    obtain ⟨after, ht⟩ := ht
    obtain ⟨after', hu⟩ := hu
    exact (List.cons.inj (ht.symm.trans hu)).1

section Texts

variable {s : Scan} {d : Document} {f rest done todo : Shape} {w : Id → Option Id}
  {owner : Option Id} {before : Before} {i : Id} {xs : List Attachment}

/-- A text that has been wrapped for its clause is the only child of its wrapper. -/
theorem holds_around {j : Id} (hl : f.Level owner (done ++ .leaf i rest)) (hj : w i = some j) :
    Place.first.Holds (f.wrap w) i j := by
  have hl := hl.wrap w
  rw [Forest.wrap_append, Forest.wrap_leaf_of_some hj] at hl
  exact ⟨_, hl.child, rfl⟩

theorem holds_textAnchor (hl : f.Level owner (done ++ .leaf i rest)) (hb : before.Fits d f w done)
    (hbefore : before ≠ .anchor (.around i))
    (hi : w i ≠ none ↔ (textAnchor owner before rest i).1 = .around i) :
    ∃ j, (textAnchor owner before rest i).1.id? w = some j ∧
      (textAnchor owner before rest i).2.Holds (f.wrap w) i j := by
  have haround (ha : (textAnchor owner before rest i).1 = .around i)
      (hp : (textAnchor owner before rest i).2 = .first) :
      ∃ j, (textAnchor owner before rest i).1.id? w = some j ∧
        (textAnchor owner before rest i).2.Holds (f.wrap w) i j := by
    obtain ⟨j, hj⟩ := Option.ne_none_iff_exists'.1 (hi.2 ha)
    rw [ha, hp]
    exact ⟨j, hj, holds_around hl hj⟩
  have hlevel (ha : (textAnchor owner before rest i).1 ≠ .around i) :=
    hl.wrap_leaf (not_not.1 fun hn => ha (hi.1 hn))
  cases before with
  | anchor b =>
    have hlevel := hlevel fun he => hbefore (congrArg Before.anchor he)
    obtain ⟨-, -, j, hj, hlast⟩ := hb
    obtain ⟨ids, hids⟩ := List.getLast?_eq_some_iff.1 hlast
    refine ⟨j, hj, owner, _, ids, (rest.wrap w).tops, hlevel, ?_⟩
    rw [Forest.tops_append, hids, Forest.tops, List.append_assoc]
    rfl
  | leaf => exact haround rfl rfl
  | nothing =>
    obtain rfl : done = .nil := hb
    cases owner with
    | some p =>
      have hlevel := hlevel (by simp [textAnchor])
      exact ⟨p, rfl, _, hlevel, rfl⟩
    | none =>
      cases rest with
      | nil => exact haround rfl rfl
      | leaf j later => exact haround rfl rfl
      | element j cs later =>
        have hlevel : _ = f.wrap w := hlevel (by simp [textAnchor])
        refine ⟨j, rfl, (later.wrap w).tops, ?_⟩
        rw [← hlevel]
        rfl

/-- A text is anchored in its own wrapper, or in that of the text before it. -/
theorem eq_or_of_textAnchor {k : Id} (h : (textAnchor owner before rest i).1 = .around k) :
    k = i ∨ before = .anchor (.around k) := by
  cases before with
  | anchor b => exact Or.inr (congrArg Before.anchor h)
  | leaf => exact Or.inl (Anchor.around.inj h).symm
  | nothing =>
    cases owner with
    | some p => exact absurd h (by simp [textAnchor])
    | none =>
      cases rest with
      | nil => exact Or.inl (Anchor.around.inj h).symm
      | leaf j later => exact Or.inl (Anchor.around.inj h).symm
      | element j cs later => exact absurd h (by simp [textAnchor])

/-- A wrapper is the anchor of its own text first. -/
theorem Scan.Makes.mem_of_around {store : Store} (h : s.Makes store owner before f xs)
    {x : Attachment} (hx : x ∈ xs) {k : Id} (ha : x.anchor = .around k) :
    k ∈ f.labels ∨ before = .anchor (.around k) := by
  refine h.anchor_of_mem
    (P := fun a => a = .around k → k ∈ f.labels ∨ before = .anchor (.around k)) ?_ ?_ ?_ ?_ hx ha
  · exact fun j cs _ he => absurd he (by simp)
  · exact fun i hi he => Or.inl (Anchor.around.inj he ▸ Forest.mem_labels_of_mem_leafLabels hi)
  · exact fun p _ he => absurd he (by simp)
  · exact fun a hb he => Or.inr (he ▸ hb)

/-- The texts of `f` that have a wrapper are those with an attachment in it. -/
def Wraps (w : Id → Option Id) (f : Shape) (xs : List Attachment) : Prop :=
  ∀ k ∈ f.labels, w k ≠ none ↔ ∃ x ∈ xs, x.anchor = .around k

/-- The other attachments do not matter to a part of the arrangement. -/
theorem Wraps.part {g : Shape} {ys : List Attachment} (h : Wraps w f xs)
    (hg : ∀ k ∈ g.labels, k ∈ f.labels) (hys : ∀ y ∈ ys, y ∈ xs)
    (hxs : ∀ x ∈ xs, ∀ k ∈ g.labels, x.anchor = .around k → x ∈ ys) : Wraps w g ys := by
  intro k hk
  rw [h k (hg k hk)]
  constructor
  · rintro ⟨x, hx, ha⟩
    exact ⟨x, hxs x hx k hk ha, ha⟩
  · rintro ⟨y, hy, ha⟩
    exact ⟨y, hys y hy, ha⟩

/-- A text that has been attached has a wrapper if that is its anchor. -/
theorem Wraps.head {data : Text}
    (h : Wraps w (.leaf i rest) (.text i data (textAnchor owner before rest i).1
      (textAnchor owner before rest i).2 :: xs))
    (hxs : s.Makes d.store owner (.ofText i (textAnchor owner before rest i).1) rest xs)
    (hir : i ∉ rest.labels) : w i ≠ none ↔ (textAnchor owner before rest i).1 = .around i := by
  rw [h i List.mem_cons_self]
  refine ⟨?_, fun ha => ⟨_, List.mem_cons_self, ha⟩⟩
  rintro ⟨x, hx, ha⟩
  rcases List.mem_cons.1 hx with rfl | hx
  · exact ha
  · have he := (hxs.mem_of_around hx ha).resolve_left hir
    rw [Before.ofText] at he
    split at he
    · assumption
    · exact absurd he (by simp)

/-- Where the attachments of some siblings say that their texts stand, they stand in the end. -/
theorem Scan.Makes.holds (h : s.Makes d.store owner before todo xs) (hd : d.Shows f)
    (hl : f.Level owner (done ++ todo)) (hb : before.Fits d f w done)
    (hbefore : ∀ k ∈ todo.labels, before ≠ .anchor (.around k)) (hw : Wraps w todo xs)
    {data : Text} {a : Anchor} {place : Place} (hx : .text i data a place ∈ xs) :
    ∃ j, a.id? w = some j ∧ place.Holds (f.wrap w) i j := by
  induction h generalizing done with
  | nil owner before => exact absurd hx List.not_mem_nil
  | @element owner before j cs rest xs ys as has hcs hrest ihc ihr =>
    obtain ⟨-, -, -, -, hcr⟩ := Forest.nodup_element (hl.nodup_todo hd.nodup)
    have hxs {x : Attachment} {k : Id} (hx : x ∈ xs) (ha : x.anchor = .around k) :
        k ∈ cs.labels := (hcs.mem_of_around hx ha).resolve_right (by simp)
    have hys {x : Attachment} {k : Id} (hx : x ∈ ys) (ha : x.anchor = .around k) :
        k ∈ rest.labels := (hrest.mem_of_around hx ha).resolve_right (by simp)
    have hor {x : Attachment} {k : Id} (ha : x.anchor = .around k)
        (hx : x ∈ as.map (fun a => .attr j a.1 a.2) ++ (xs ++ ys)) : x ∈ xs ∨ x ∈ ys := by
      rw [List.mem_append, List.mem_append, List.mem_map] at hx
      refine hx.resolve_left ?_
      rintro ⟨a, -, rfl⟩
      exact absurd ha (by simp [Attachment.anchor])
    have hwc : Wraps w cs xs := by
      refine hw.part (fun k hk => by simp [Forest.labels, hk]) (fun x hx => by simp [hx]) ?_
      exact fun x hx k hk ha => (hor ha hx).resolve_right fun hx => hcr k hk (hys hx ha)
    have hwr : Wraps w rest ys := by
      refine hw.part (fun k hk => by simp [Forest.labels, hk]) (fun x hx => by simp [hx]) ?_
      exact fun x hx k hk ha => (hor ha hx).resolve_left fun hx => hcr k (hxs hx ha) hk
    have hlc : f.Level (some j) (.nil ++ cs) := hl.child
    rw [List.mem_append, List.mem_append, List.mem_map] at hx
    rcases hx with ⟨a, -, he⟩ | hx | hx
    · exact absurd he (by simp)
    · exact ihc hlc rfl (fun k _ => by simp) hwc hx
    · exact ihr hl.past_element (Before.fits_element hd hl) (fun k _ => by simp) hwr hx
  | @idle owner before j rest xs hj hrest ih =>
    obtain ⟨hjr, -⟩ := List.nodup_cons.1 (hl.nodup_todo hd.nodup)
    have hwj : w j = none := by
      by_contra hn
      obtain ⟨x, hx, ha⟩ := (hw j List.mem_cons_self).1 hn
      exact (hrest.mem_of_around hx ha).elim hjr fun he => absurd he (by simp)
    exact ih hl.past_leaf (Before.fits_leaf hd hl hwj) (fun k _ => by simp)
      (fun k hk => hw k (List.mem_cons_of_mem j hk)) hx
  | @bound owner before j rest xs data' hj hrest ih =>
    obtain ⟨hjr, -⟩ := List.nodup_cons.1 (hl.nodup_todo hd.nodup)
    have hwj := hw.head hrest hjr
    rcases List.mem_cons.1 hx with he | hx
    · obtain ⟨rfl, -, rfl, rfl⟩ := Attachment.text.inj he
      exact holds_textAnchor hl hb (hbefore i List.mem_cons_self) hwj
    · have hwr : Wraps w rest xs := by
        refine hw.part (fun k hk => List.mem_cons_of_mem j hk)
          (fun x hx => List.mem_cons_of_mem _ hx) fun x hx k hk ha => ?_
        rcases List.mem_cons.1 hx with rfl | hx
        · rcases eq_or_of_textAnchor ha with rfl | he
          · exact absurd hk hjr
          · exact absurd he (hbefore k (List.mem_cons_of_mem j hk))
        · exact hx
      refine ih hl.past_leaf (Before.fits_ofText hd hl hwj) (fun k hk he => hjr ?_) hwr hx
      rwa [← Anchor.around.inj (Before.eq_around_of_ofText he)]

end Texts

/-! ## Different places -/

/-- The text that is attached. -/
def Attachment.text? : Attachment → Option Id
  | attr _ _ _ => none
  | text i _ _ _ => some i

/-- The element that carries the clause of a text, and where it says that the text stands. -/
def Attachment.spot? (w : Id → Option Id) : Attachment → Option (Option Id × Place)
  | attr _ _ _ => none
  | text _ _ a place => some (a.id? w, place)

theorem Scan.Makes.sublist_text? {s : Scan} {store : Store} {owner : Option Id} {before : Before}
    {f : Shape} {xs : List Attachment} (h : s.Makes store owner before f xs) :
    (xs.filterMap Attachment.text?).Sublist f.labels := by
  induction h with
  | nil owner before => exact .slnil
  | @element owner before i cs rest xs ys as has _ _ ihc ihr =>
    have hown : (as.map fun a => Attachment.attr i a.1 a.2).filterMap Attachment.text? = [] := by
      rw [List.filterMap_eq_nil_iff]
      intro x hx
      obtain ⟨a, -, rfl⟩ := List.mem_map.1 hx
      rfl
    rw [List.filterMap_append, List.filterMap_append, hown, List.nil_append]
    exact (ihc.append ihr).cons i
  | idle before hi _ ih => exact ih.cons _
  | bound hi _ ih => exact ih.cons_cons _

variable {s : Scan} {d : Document} {f : Shape} {n : ℕ} {p : Progress}

/-- Every bound text stands where its clause says, and no element has two texts at one place. -/
theorem Scan.places_of_run (hd : d.Shows f) (hrun : s.run d = (.ok n, p)) :
    ∃ xs w, s.Makes d.store none .nothing f xs ∧ Reached s d f w xs p ∧
      (∀ i data a place, .text i data a place ∈ xs →
        ∃ j, a.id? w = some j ∧ place.Holds (f.wrap w) i j) ∧
      (xs.filterMap (Attachment.spot? w)).Nodup := by
  obtain ⟨-, xs, w, hxs, hw, hused⟩ := Scan.makes_of_run hd hrun
  have hl : f.Level none (.nil ++ f) := rfl
  have hholds (i : Id) (data : Text) (a : Anchor) (place : Place)
      (hx : .text i data a place ∈ xs) : ∃ j, a.id? w = some j ∧ place.Holds (f.wrap w) i j :=
    hxs.holds hd hl rfl (fun _ _ => by simp) (fun k _ => hused k) hx
  refine ⟨xs, w, hxs, hw, hholds, ?_⟩
  have htexts : (xs.filterMap Attachment.text?).Nodup := hd.nodup.sublist hxs.sublist_text?
  rw [List.Nodup, List.pairwise_filterMap] at htexts ⊢
  refine htexts.imp_of_mem fun {x y} hx hy hne => ?_
  cases x with
  | attr i name value => exact fun b hb => absurd hb (by simp [Attachment.spot?])
  | text i data a place =>
    cases y with
    | attr k name value => exact fun b _ c hc => absurd hc (by simp [Attachment.spot?])
    | text k data' a' place' =>
      rintro b hb c hc rfl
      obtain ⟨j, hj, hi⟩ := hholds i data a place hx
      obtain ⟨j', hj', hk⟩ := hholds k data' a' place' hy
      obtain ⟨ha, rfl⟩ := Prod.mk.inj (Option.some.inj (hb.trans hc.symm))
      rw [hj, hj'] at ha
      obtain rfl := Option.some.inj ha
      exact hne i rfl k rfl (hi.unique hw.shows hk)

theorem rowScan_places :
    ∃ xs w, rowScan.Makes (Document.ofTree row).store none .nothing (numbered 0 row) xs ∧
      Reached rowScan (.ofTree row) (numbered 0 row) w xs (rowScan.run (.ofTree row)).2 ∧
      (∀ i data a place, .text i data a place ∈ xs →
        ∃ j, a.id? w = some j ∧ place.Holds ((numbered 0 row).wrap w) i j) ∧
      (xs.filterMap (Attachment.spot? w)).Nodup :=
  Scan.places_of_run (Document.shows_ofTree row) (Prod.ext rowScan_run rfl)

end InlineBinding.Binding
