import InlineBinding.Proofs.Binding.Complete
import InlineBinding.Proofs.Binding.Kept

/-! # A scan that cannot fail

On a document with consistent links whose values are texts, each visit comes to its end.  The
induction is over the arrangement, as the walk is: siblings that are still to be visited have no
wrapper yet, so a snapshot of their list stays the list.
-/
namespace InlineBinding.Binding
open Linked Markup

variable {s : Scan} {d : Document} {f : Shape} {w : Id → Option Id} {p : Progress}

/-- What a text is anchored at is in the document. -/
theorem mem_labels_of_anchor? {owner : Option Id} {done rest : Shape} {i j : Id} (h : d.Shows f)
    (hl : f.Level owner (done ++ .leaf i rest)) (hj : d.store.anchor? i = some j) :
    j ∈ f.labels := by
  rw [Store.anchor?_eq, (h.leads_level hl).right.1, Option.bind_some] at hj
  simp only [Option.or_eq_some_iff, Option.or_none] at hj
  rcases hj with hj | ⟨-, hj | ⟨-, hj⟩⟩
  · refine hl.mem_labels (Forest.mem_labels_of_mem_tops ?_)
    rw [Forest.tops_append]
    exact List.mem_append_left _ (List.mem_of_getLast? hj)
  · subst hj
    exact Forest.Below.mem hl
  · refine hl.mem_labels (Forest.mem_labels_of_mem_tops ?_)
    rw [Forest.tops_append, Forest.tops]
    exact List.mem_append_right _ (List.mem_cons_of_mem i (List.mem_of_head? hj))

namespace Kept

/-! ## Attributes -/

theorem ends_scanAttribute (h : Kept s d f w p) {i : Id} (hi : i ∈ (f.wrap w).labels)
    (ht : (p.document.store.tag? i).isSome) {a : Text × Value} (ha : a.2.isText = true) :
    Ends (s.scanAttribute i a) p fun _ q =>
      Kept s d f w q ∧ (q.document.store.tag? i).isSome := by
  obtain ⟨name, v⟩ := a
  obtain ⟨t, ht⟩ := Option.isSome_iff_exists.1 ht
  have hsame : Kept s d f w p ∧ (p.document.store.tag? i).isSome := ⟨h, by rw [ht]; rfl⟩
  cases v with
  | text value =>
    rw [Scan.scanAttribute]
    split
    · exact .pure hsame
    · dsimp only
      split
      · exact h.ends_attr hi ht name _
      · exact .pure hsame
  | null => exact absurd ha (by simp [Value.isText])
  | flag b => exact absurd ha (by simp [Value.isText])
  | number n => exact absurd ha (by simp [Value.isText])

theorem ends_attributes (h : Kept s d f w p) {i : Id} (hi : i ∈ (f.wrap w).labels) {t : Tag}
    (ht : p.document.store.tag? i = some t) :
    Ends (t.attributes.forM (s.scanAttribute i)) p fun _ q => Kept s d f w q := by
  have hall := h.textual i hi t ht
  have hsame : Kept s d f w p ∧ (p.document.store.tag? i).isSome := ⟨h, by rw [ht]; rfl⟩
  refine (Ends.forM (I := fun q => Kept s d f w q ∧ (q.document.store.tag? i).isSome)
    (fun a ha q hq => ?_) hsame).mono fun _ _ hq => hq.1
  exact hq.1.ends_scanAttribute hi hq.2 (hall a ha)

/-! ## Texts -/

section Texts

variable {owner : Option Id} {done rest : Shape} {i : Id}

/-- Since the wrappers were `w`, at most the text `i` has got one. -/
def Onward (s : Scan) (d : Document) (f : Shape) (w : Id → Option Id) (i : Id) (q : Progress) :
    Prop :=
  ∃ w', Kept s d f w' q ∧ ∀ k, k ≠ i → w' k = w k

theorem ends_anchorFor (h : Kept s d f w p) {t : Tag} (hw : s.wrapperTag? = some t)
    (hl : f.Level owner (done ++ .leaf i rest)) (hi : w i = none)
    (htext : (d.store.leaf? i).map Leaf.kind = some .text) {node : Node}
    (hn : p.document.store.get? i = some node) :
    Ends (s.anchorFor i node) p fun j q => ∃ w' u, Kept s d f w' q ∧ (∀ k, k ≠ i → w' k = w k) ∧
      j ∈ (f.wrap w').labels ∧ q.document.store.tag? j = some u := by
  have hlevel := hl.wrap_leaf hi
  rw [Scan.anchorFor]
  refine .bind_eq (a := p.document) rfl (.bind_eq (a := p.document) rfl ?_)
  split
  · rename_i hnear
    obtain ⟨u, hu⟩ := Option.isSome_iff_exists.1 hnear
    obtain ⟨j, hj, hu⟩ := Option.bind_eq_some_iff.1 hu
    refine .bind_eq (a := some j) (q := p) (by rw [hj]; rfl) (.pure ?_)
    exact ⟨w, u, h, fun _ _ => rfl, mem_labels_of_anchor? h.shows hlevel hj, hu⟩
  · obtain ⟨content, hwrapper⟩ := Scan.exists_wrapper hw
    have htextual := Scan.textual_wrapper (hwrapper node.content)
    obtain ⟨q, hpromote, hdocument, -, -⟩ :=
      exists_promote h.shows hlevel hn (hwrapper node.content)
    refine .bind_eq hpromote (.pure ?_)
    refine ⟨Function.update w i (some p.document.store.size), t,
      h.wrap content hl hi htext hw htextual hdocument,
      fun k hk => Function.update_of_ne hk _ w, ?_, ?_⟩
    · have hin := hl.wrap (Function.update w i (some p.document.store.size))
      rw [Forest.wrap_append, Forest.wrap_leaf_of_some (Function.update_self i _ w)] at hin
      exact hin.mem_labels (by simp [Forest.labels])
    · rw [hdocument]
      exact h.shows.tag?_wrapper hlevel

theorem ends_bindText (h : Kept s d f w p) {t : Tag} (hw : s.wrapperTag? = some t)
    (hl : f.Level owner (done ++ .leaf i rest)) (hi : w i = none)
    (htext : (d.store.leaf? i).map Leaf.kind = some .text) {node : Node}
    (hn : p.document.store.get? i = some node) (data : Text) :
    Ends (s.bindText i node data) p fun _ q => Onward s d f w i q := by
  refine (h.ends_anchorFor hw hl hi htext hn).bind ?_
  rintro j q ⟨w', u, hq, hout, hj, hu⟩
  refine .bind_eq (a := q.document) rfl ?_
  exact (hq.ends_text hj hu _ _).mono fun _ r hr => ⟨w', hr, hout⟩

theorem ends_isRawBelow (h : p.document.Shows f) {sib : Shape} (hl : f.Level owner sib) :
    ∃ b, Scan.isRawBelow owner p = .ok b p := by
  cases owner with
  | none => exact ⟨false, rfl⟩
  | some q =>
    obtain ⟨n, t, -, -, ht⟩ := Store.tag?_of_parts? (h.owns.below hl).1
    exact ⟨isRawText t.kind, bind_of_ok (Scan.tagOf_of_some ht _)⟩

theorem ends_visit_leaf (h : Kept s d f w p) {t : Tag} (hw : s.wrapperTag? = some t)
    (hl : f.Level owner (done ++ .leaf i rest)) (hi : w i = none) (n : ℕ) :
    Ends (s.visit (n + 1) i) p fun _ q => Onward s d f w i q := by
  have hlevel := hl.wrap_leaf hi
  have hif : i ∈ f.labels := hl.mem_labels (by simp [Forest.labels])
  obtain ⟨node, l, hn, hc, hleaf, -⟩ :=
    Store.leaf?_of_parts? (Store.owns_append.1 (h.shows.owns_level hlevel)).2.1
  have hlinks := (h.shows.leads_level hlevel).right.1
  rw [Store.links?, hn, Option.map_some] at hlinks
  obtain ⟨hparent, -, -⟩ := Links.mk.inj (Option.some.inj hlinks)
  have hsame : Onward s d f w i p := ⟨w, h, fun _ _ => rfl⟩
  rw [Scan.visit]
  refine .bind_eq (a := p.document) rfl ?_
  simp only [hn, hc]
  split
  · rename_i hk
    have htext : (d.store.leaf? i).map Leaf.kind = some .text := by
      rw [← h.leaves i hif, hleaf, Option.map_some, hk]
    obtain ⟨b, hb⟩ := ends_isRawBelow h.shows hlevel
    rw [Scan.scanText, hparent]
    refine .bind_eq hb ?_
    split
    · exact h.ends_bindText hw hl hi htext hn l.data
    · exact .pure hsame
  · exact .pure hsame

end Texts

/-! ## The walk -/

/-- Since the wrappers were `w`, only texts in `todo` have got one. -/
def Beyond (s : Scan) (d : Document) (f : Shape) (w : Id → Option Id) (todo : Shape)
    (q : Progress) : Prop :=
  ∃ w', Kept s d f w' q ∧ ∀ k, k ∉ todo.labels → w' k = w k

/-- Below an element the walk goes over the children as they are before it. -/
theorem ends_visit_element (h : Kept s d f w p) {i : Id} {cs : Shape} (hl : f.Below i cs)
    (hn : ∀ k ∈ cs.labels, w k = none) {n : ℕ}
    (hcs : ∀ q, Kept s d f w q →
      Ends (cs.tops.forM (s.visit n)) q fun _ r => Beyond s d f w cs r) :
    Ends (s.visit (n + 1) i) p fun _ q => Beyond s d f w cs q := by
  have hlevel : (f.wrap w).Below i cs := by
    have hl := hl.wrap w
    rwa [Forest.wrap_eq_self hn] at hl
  obtain ⟨node, t, hnode, hc, ht⟩ := Store.tag?_of_parts? (h.shows.owns.below hlevel).1
  have hchildren (q : Progress) (hq : Kept s d f w q) :
      Ends (do
        let children := (← Scan.document).store.children i
        children.forM (s.visit n)) q fun _ r => Beyond s d f w cs r := by
    refine .bind_eq (a := q.document) rfl ?_
    rw [Store.children_eq, (hq.shows.owns.below hlevel).1]
    exact hcs q hq
  rw [Scan.visit]
  refine .bind_eq (a := p.document) rfl ?_
  simp only [hnode, hc]
  split
  · exact (h.ends_attributes hlevel.mem ht).bind fun _ q hq => hchildren q hq
  · exact hchildren p h

theorem ends_visit_siblings (hd : d.Shows f) {t : Tag} (hw : s.wrapperTag? = some t)
    {todo : Shape} {depth : ℕ} {owner : Option Id} {done : Shape} (hdepth : todo.height ≤ depth)
    (h : Kept s d f w p) (hl : f.Level owner (done ++ todo)) (hn : ∀ k ∈ todo.labels, w k = none) :
    Ends (todo.tops.forM (s.visit depth)) p fun _ q => Beyond s d f w todo q := by
  induction todo generalizing depth owner done w p with
  | nil => exact .pure ⟨w, h, fun _ _ => rfl⟩
  | element i cs rest ihc ihr =>
    obtain ⟨-, -, -, -, hcr⟩ := Forest.nodup_element (hl.nodup_todo hd.nodup)
    rw [Forest.height] at hdepth
    obtain ⟨n, rfl⟩ : ∃ n, depth = n + 1 := ⟨depth - 1, by omega⟩
    -- the element itself and what is below it
    have hnc (k : Id) (hk : k ∈ cs.labels) : w k = none := hn k (Forest.mem_labels_of_children hk)
    have hdc : cs.height ≤ n := by omega
    have hlc : f.Level (some i) (.nil ++ cs) := hl.child
    refine (h.ends_visit_element hl.child hnc fun q hq => ihc hdc hq hlc hnc).bind ?_
    -- what is behind it
    rintro - q ⟨w₁, h₁, hout₁⟩
    have hdr : rest.height ≤ n + 1 := by omega
    refine (ihr hdr h₁ hl.past_element fun k hk => ?_).mono ?_
    · exact (hout₁ k fun hkc => hcr k hkc hk).trans (hn k (Forest.mem_labels_of_rest hk))
    · rintro - r ⟨w₂, h₂, hout₂⟩
      refine ⟨w₂, h₂, fun k hk => ?_⟩
      rw [hout₂ k fun hkr => hk (Forest.mem_labels_of_rest hkr),
        hout₁ k fun hkc => hk (Forest.mem_labels_of_children hkc)]
  | leaf i rest ih =>
    obtain ⟨hir, -⟩ := List.nodup_cons.1 (hl.nodup_todo hd.nodup)
    rw [Forest.height] at hdepth
    obtain ⟨n, rfl⟩ : ∃ n, depth = n + 1 := ⟨depth - 1, by omega⟩
    refine (h.ends_visit_leaf hw hl (hn i List.mem_cons_self) n).bind ?_
    rintro - q ⟨w₁, h₁, hout₁⟩
    have hdr : rest.height ≤ n + 1 := by omega
    refine (ih hdr h₁ hl.past_leaf fun k hk => ?_).mono ?_
    · exact (hout₁ k fun he => hir (he ▸ hk)).trans (hn k (List.mem_cons_of_mem i hk))
    · rintro - r ⟨w₂, h₂, hout₂⟩
      refine ⟨w₂, h₂, fun k hk => ?_⟩
      rw [Forest.labels, List.mem_cons, not_or] at hk
      exact (hout₂ k hk.2).trans (hout₁ k hk.1)

end Kept

/-- The walk over a whole document. -/
theorem Scan.ends_all (hd : d.Shows f)
    (ht : ∀ i ∈ f.labels, ∀ t ∈ d.store.tag? i, t.Textual) {t : Tag}
    (hw : s.wrapperTag? = some t) :
    Ends s.all (Progress.start d) fun _ q => ∃ w, Kept s d f w q := by
  rw [Scan.all]
  refine .bind_eq (a := d) (q := Progress.start d) rfl ?_
  rw [hd.roots]
  have hdepth : f.height ≤ d.store.size + 2 := Nat.le_add_right_of_le hd.height_le
  have hl : f.Level none (.nil ++ f) := rfl
  refine (Kept.ends_visit_siblings hd hw hdepth (.start hd ht) hl fun _ _ => rfl).mono ?_
  rintro - q ⟨w, h, -⟩
  exact ⟨w, h⟩

/-- A scan does not fail on consistent links, and only puts texts into wrappers. -/
theorem Scan.run_keeps (hd : d.Shows f)
    (ht : ∀ i ∈ f.labels, ∀ t ∈ d.store.tag? i, t.Textual) {t : Tag}
    (hw : s.wrapperTag? = some t) : ∃ n p w, s.run d = (.ok n, p) ∧ Kept s d f w p := by
  obtain ⟨u, p, hrun, w, h⟩ := Scan.ends_all hd ht hw
  refine ⟨p.count, p, w, ?_, h⟩
  rw [Scan.run, EStateM.run, hrun]

theorem rowScan_keeps :
    ∃ n p w, rowScan.run (.ofTree row) = (.ok n, p) ∧
      Kept rowScan (.ofTree row) (numbered 0 row) w p := by
  have ht : ∀ i ∈ (numbered 0 row).labels, ∀ t ∈ (Document.ofTree row).store.tag? i,
      t.Textual := by decide +kernel
  have hw : rowScan.wrapperTag? = some ⟨"span".toList, .plain, []⟩ := by decide +kernel
  exact Scan.run_keeps (Document.shows_ofTree row) ht hw

end InlineBinding.Binding
