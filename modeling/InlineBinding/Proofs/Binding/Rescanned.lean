import InlineBinding.Proofs.Binding.Untouched

/-!
# Directives that are scanned themselves

The attributes to skip come with the options, the name of the directive with the attacher.  Where
the two do not fit together, a directive with a binding is taken for an attribute like others: its
placeholder replaces it, and with it the clauses that it has got so far.
-/
namespace InlineBinding.Binding
open Linked Markup

namespace Scan

/-! ## The tags that are read -/

/-- The tags as a scan comes to read them. A bound text at the very beginning gives its clause to
the element behind it before that is reached. -/
def primed (s : Scan) (store : Store) : Shape → Store
  | .leaf i (.element j _ _) =>
    match s.boundText? store none i, store.tag? j with
    | some data, some t => store.setTag j (s.attached (.text i data (.element j) .prev) t)
    | _, _ => store
  | _ => store

/-- All that a scan of `d`, arranged as `f`, attaches, whether its directive is skipped or not. -/
def made (s : Scan) (d : Document) (f : Shape) : List Attachment :=
  s.attachments (s.primed d.store f) none .nothing f

/-- The store `store'` has the tags of `f` as they are after the attachments `done`. -/
structure Reads (s : Scan) (store store' : Store) (done : List Attachment) (f : Shape) : Prop where
  tags : ∀ i ∈ f.labels, store'.tag? i = (store.tag? i).map (s.tagAfter done (.element i))
  leaves : ∀ i, store'.leaf? i = store.leaf? i
  kinds : ∀ i, (store'.tag? i).map Tag.kind = (store.tag? i).map Tag.kind

section Reading

variable {s : Scan} {store store' : Store} {done : List Attachment} {owner : Option Id}
  {before : Before} {f g : Shape}

theorem Reads.refl (s : Scan) (store : Store) (f : Shape) : s.Reads store store [] f where
  tags i _ := by cases store.tag? i <;> rfl
  leaves _ := rfl
  kinds _ := rfl

/-- Attachments elsewhere do not matter. -/
theorem Reads.later (h : s.Reads store store' done f) (hg : ∀ k ∈ g.labels, k ∈ f.labels)
    {ys : List Attachment} (hys : ∀ k ∈ g.labels, ∀ y ∈ ys, y.anchor ≠ .element k) :
    s.Reads store store' (done ++ ys) g where
  tags i hi := by
    rw [h.tags i (hg i hi)]
    congr 1
    funext t
    rw [tagAfter_append, tagAfter_of_ne (hys i hi)]
  leaves := h.leaves
  kinds := h.kinds

theorem Reads.boundText?_eq (h : s.Reads store store' done f) (owner : Option Id) (i : Id) :
    s.boundText? store' owner i = s.boundText? store owner i := by
  have hraw : isRaw store' owner = isRaw store owner := by
    cases owner with
    | none => rfl
    | some q =>
      have hany (st : Store) : isRaw st (some q) = ((st.tag? q).map Tag.kind).any isRawText := by
        rw [isRaw, Option.bind_some]
        cases st.tag? q <;> rfl
      rw [hany, hany, h.kinds]
  rw [boundText?, boundText?, h.leaves, hraw]

theorem Reads.ownAttachments_eq (h : s.Reads store store' done f) {i : Id} (hi : i ∈ f.labels) :
    s.ownAttachments store done i =
      (s.boundAttributes store' i).map fun a => .attr i a.1 a.2 := by
  rw [ownAttachments, boundAttributesAfter, boundAttributes, h.tags i hi]
  cases store.tag? i with
  | none => rfl
  | some t =>
    rw [Option.map_some]
    dsimp only
    rw [kind_tagAfter]

/-- What is gathered is what is bound in the tags that are read. -/
theorem Reads.gathered_eq (h : s.Reads store store' done f) (hf : f.labels.Nodup)
    (ha : ∀ i rest, f = .leaf i rest → ∀ k ∈ rest.labels,
      (textAnchor owner before rest i).1 ≠ .element k) :
    s.gathered store done owner before f = s.attachments store' owner before f := by
  induction f generalizing done owner before with
  | nil => rfl
  | element i cs rest ihc ihr =>
    obtain ⟨hic, hir, hc, hr, hcr⟩ := Forest.nodup_element hf
    have hcs : ∀ k ∈ cs.labels, k ∈ (Forest.element i cs rest).labels :=
      fun k hk => Forest.mem_labels_of_children hk
    have hrest : ∀ k ∈ rest.labels, k ∈ (Forest.element i cs rest).labels :=
      fun k hk => Forest.mem_labels_of_rest hk
    have hown : ∀ k, k ≠ i → ∀ y ∈ s.ownAttachments store done i, y.anchor ≠ .element k := by
      intro k hk y hy he
      obtain ⟨a, -, rfl⟩ := List.mem_map.1 hy
      exact hk (Anchor.element.inj he).symm
    have hbelow : s.gathered store (done ++ s.ownAttachments store done i) (some i) .nothing cs =
        s.attachments store' (some i) .nothing cs := by
      refine ihc (h.later hcs fun k hk => hown k fun he => hic (he ▸ hk)) hc ?_
      rintro j later rfl k hk he
      obtain rfl := Anchor.element.inj he
      exact hic (List.mem_cons_of_mem j hk)
    have hanchor : ∀ k ∈ rest.labels, ∀ y ∈ s.attachments store' (some i) .nothing cs,
        y.anchor ≠ .element k := by
      intro k hk y hy
      refine (makes_attachments (some i) .nothing cs).anchor_of_mem
        (P := fun a => a ≠ .element k) ?_ ?_ ?_ ?_ hy
      · rintro j ks hj he
        obtain rfl := Anchor.element.inj he
        exact hcr j hj.mem hk
      · exact fun j _ => by simp
      · rintro q hq he
        obtain rfl := Anchor.element.inj he
        exact hir (Option.some.inj hq ▸ hk)
      · exact fun a he => absurd he (by simp)
    have hbehind : s.gathered store (done ++ s.ownAttachments store done i ++
        s.attachments store' (some i) .nothing cs) owner (.anchor (.element i)) rest =
          s.attachments store' owner (.anchor (.element i)) rest := by
      have hreads := h.later hrest fun k hk => hown k fun he => hir (he ▸ hk)
      refine ihr (hreads.later (fun _ hk => hk) hanchor) hr ?_
      rintro j later rfl k hk he
      obtain rfl := Anchor.element.inj he
      exact hir (List.mem_cons_of_mem j hk)
    rw [gathered, attachments, hbelow, hbehind, h.ownAttachments_eq List.mem_cons_self]
  | leaf i rest ih =>
    obtain ⟨-, hr⟩ := List.nodup_cons.1 hf
    have hrest : ∀ k ∈ rest.labels, k ∈ (Forest.leaf i rest).labels :=
      fun k hk => List.mem_cons_of_mem i hk
    have hb := h.boundText?_eq owner i
    cases hbound : s.boundText? store owner i with
    | none =>
      rw [gathered_leaf_of_none hbound, attachments, hb, hbound]
      have hreads : s.Reads store store' done rest :=
        ⟨fun k hk => h.tags k (hrest k hk), h.leaves, h.kinds⟩
      exact ih hreads hr fun j later _ k _ => by simp [textAnchor]
    | some data =>
      rw [gathered_leaf_of_some hbound, attachments, hb, hbound]
      refine congrArg (_ :: ·) (ih (h.later hrest fun k hk y hy => ?_) hr fun j later _ k _ => ?_)
      · rw [List.mem_singleton.1 hy]
        exact ha i rest rfl k hk
      · rw [Before.ofText]
        split
        · rename_i he
          change (textAnchor owner before rest i).1 ≠ _
          simp [he]
        · simp [textAnchor]

end Reading

section Priming

variable {s : Scan} {d : Document} {f : Shape}

theorem primed_leaf_of_some {store : Store} {i j : Id} {cs rest : Shape} {data : Text} {t : Tag}
    (hb : s.boundText? store none i = some data) (ht : store.tag? j = some t) :
    s.primed store (.leaf i (.element j cs rest)) =
      store.setTag j (s.attached (.text i data (.element j) .prev) t) := by
  rw [primed, hb, ht]

theorem primed_cases (s : Scan) (store : Store) (f : Shape) :
    s.primed store f = store ∨ ∃ j t, s.primed store f = store.setTag j t := by
  unfold primed
  split
  · split
    · exact Or.inr ⟨_, _, rfl⟩
    · exact Or.inl rfl
  · exact Or.inl rfl

theorem shows_primed (s : Scan) (hd : d.Shows f) :
    ({ d with store := s.primed d.store f } : Document).Shows f := by
  rcases s.primed_cases d.store f with he | ⟨j, t, he⟩
  · rwa [he]
  · rw [he]
    exact hd.congr rfl (fun k => Store.parts?_setTag _ _ _ _) fun k => Store.links?_setTag _ _ _ _

/-- The first text has been attached when the element behind it is read. -/
theorem reads_primed {store : Store} {i j : Id} {cs rest : Shape} {data : Text} {t : Tag}
    (hb : s.boundText? store none i = some data) (ht : store.tag? j = some t) :
    s.Reads store (s.primed store (.leaf i (.element j cs rest)))
      [.text i data (.element j) .prev] (.element j cs rest) := by
  have htag (k : Id) := Store.tag?_setTag store j k (s.attached (.text i data (.element j) .prev) t)
  rw [primed_leaf_of_some hb ht]
  refine ⟨fun k _ => ?_, fun k => Store.leaf?_setTag _ _ _ _, fun k => ?_⟩
  · rw [htag]
    by_cases hk : j = k
    · subst hk
      rw [if_pos rfl, ht]
      exact congrArg some (if_pos rfl).symm
    · have hne : ∀ x ∈ [Attachment.text i data (.element j) .prev], x.anchor ≠ .element k := by
        intro x hx he
        rw [List.mem_singleton.1 hx] at he
        exact hk (Anchor.element.inj he)
      rw [if_neg hk, funext (tagAfter_of_ne hne), Option.map_id']
  · rw [htag]
    split
    · rename_i hk
      subst hk
      rw [ht]
      exact congrArg some (kind_attached _ t)
    · rfl

/-- A scan attaches what is bound in the tags as it reads them. -/
theorem gathered_eq_made (hd : d.Shows f) :
    s.gathered d.store [] none .nothing f = s.made d f := by
  have hnodup := hd.nodup
  have hplain (hf : s.primed d.store f = d.store)
      (ha : ∀ i rest, f = .leaf i rest → ∀ k ∈ rest.labels,
        (textAnchor none .nothing rest i).1 ≠ .element k) :
      s.gathered d.store [] none .nothing f = s.made d f := by
    rw [made, hf]
    exact (Reads.refl s d.store f).gathered_eq hnodup ha
  cases f with
  | nil => rfl
  | element i cs rest => exact hplain rfl fun j more he => absurd he (by simp)
  | leaf i rest =>
    cases rest with
    | nil =>
      refine hplain rfl fun j more he k hk => ?_
      obtain ⟨-, rfl⟩ := Forest.leaf.inj he
      exact absurd hk List.not_mem_nil
    | leaf j more =>
      refine hplain rfl fun k later he m _ => ?_
      obtain ⟨rfl, rfl⟩ := Forest.leaf.inj he
      simp [textAnchor]
    | element j cs more =>
      obtain ⟨-, hr⟩ := List.nodup_cons.1 hnodup
      cases hb : s.boundText? d.store none i with
      | none =>
        have hprimed : s.primed d.store (.leaf i (.element j cs more)) = d.store := by
          rw [primed, hb]
        rw [made, hprimed, gathered_leaf_of_none hb, attachments, hb]
        exact (Reads.refl s d.store _).gathered_eq hr fun _ _ he => absurd he (by simp)
      | some data =>
        obtain ⟨-, t, -, -, ht⟩ := Store.tag?_of_parts? hd.owns.2.1
        have hreads := @reads_primed s d.store i j cs more data t hb ht
        rw [made, gathered_leaf_of_some hb, attachments, hreads.boundText?_eq, hb]
        exact congrArg (_ :: ·) (hreads.gathered_eq hr fun _ _ he => absurd he (by simp))

end Priming

/-! ## Directives after a scan -/

/-- What has become of the directives when a scan of `d`, arranged as `f`, has come to its end. A
directive is bound like other attributes unless it is skipped. Where it is not bound, all clauses
stand in it; where it is, those that come after its placeholder do. -/
structure Settled (s : Scan) (d : Document) (f : Shape) (w : Id → Option Id) (p : Progress) :
    Prop where
  clauses : clausesIn p.events = (s.made d f).map s.clause
  shows : p.document.Shows (f.wrap w)
  anchors : ∀ x ∈ s.made d f, ∃ j ∈ (f.wrap w).labels, x.anchor.id? w = some j
  bound : ∀ i value, .attr i s.attacher.directiveName value ∈ s.made d f ↔ i ∈ f.labels ∧
    ∃ t, (s.primed d.store f).tag? i = some t ∧
      s.BindsAttribute t s.attacher.directiveName value
  kept : ∀ (a : Anchor) j, a.In f → a.id? w = some j →
    (∀ i value, .attr i s.attacher.directiveName value ∈ s.made d f → .element i ≠ a) →
      s.directive? p.document.store j = (s.firstTag? d.store a).map fun t =>
        s.attacher.directiveWith t (s.clausesAt (s.made d f) a)
  replaced : ∀ i value before after,
    s.made d f = before ++ .attr i s.attacher.directiveName value :: after →
    (∀ u, .attr i s.attacher.directiveName u ∉ after) →
      s.directive? p.document.store i = some (some (.text
        ((s.clausesAt after (.element i)).foldl Attacher.extend (s.placeholderOf value))))

variable {s : Scan} {d : Document} {f : Shape} {n : ℕ} {p : Progress}

/-- A directive that is attached is left with its placeholder and the clauses behind it. -/
theorem get?_tagAfter_replaced {before after : List Attachment} {i : Id} {value : Text} (t : Tag)
    (hafter : ∀ u, .attr i s.attacher.directiveName u ∉ after) :
    (s.tagAfter (before ++ .attr i s.attacher.directiveName value :: after) (.element i)
        t).attributes.get? s.attacher.directiveName =
      some (.text
        ((s.clausesAt after (.element i)).foldl Attacher.extend (s.placeholderOf value))) := by
  have hplaceholder (t : Tag) : (s.attached (.attr i s.attacher.directiveName value)
      t).attributes.get? s.attacher.directiveName = some (.text (s.placeholderOf value)) :=
    Attributes.get?_set_self _ _ _
  have hne : ∀ k u, .attr k s.attacher.directiveName u ∈ after → Anchor.element k ≠ .element i := by
    intro k u h he
    exact hafter u (Anchor.element.inj he ▸ h)
  have ha : (Attachment.attr i s.attacher.directiveName value).anchor = .element i := rfl
  rw [tagAfter_append, tagAfter_cons, if_pos ha, get?_tagAfter_directive hne, Attacher.directiveText,
    hplaceholder]
  cases s.clausesAt after (.element i) with
  | nil => rfl
  | cons c cs => exact if_neg (List.cons_ne_nil c cs)

theorem settled_of_run (hdialect : s.attacher.dialect = .default)
    (hm : s.attacher.marks.Unquoted) (hd : d.Shows f) (hrun : s.run d = (.ok n, p)) :
    ∃ w, s.Settled d f w p := by
  obtain ⟨-, w, hw, -⟩ := Scan.gathered_of_run hd hrun
  rw [gathered_eq_made hd] at hw
  refine ⟨w, hw.clauses, hw.shows, fun x hx => ?_, fun _ _ => attr_mem_iff (s.shows_primed hd),
    fun a j => hw.directive?_eq fun x _ => tidy_clause hdialect hm x, ?_⟩
  · obtain ⟨j, hj, hmem⟩ := hw.exists_id hx (Scan.anchor_of hx)
    exact ⟨j, hmem, hj⟩
  · intro i value before after hxs hafter
    have hmem : .attr i s.attacher.directiveName value ∈ s.made d f := by
      rw [hxs]
      simp
    have hi : i ∈ f.labels := (makes_attachments none .nothing f).node_mem hmem
    obtain ⟨t, ht⟩ := hw.exists_firstTag (a := .element i) hd (Scan.anchor_of hmem) rfl
    rw [directive?, hw.tag?_eq (a := .element i) hi rfl, ht, Option.map_some, Option.map_some, hxs,
      get?_tagAfter_replaced t hafter]

end Scan
end InlineBinding.Binding
