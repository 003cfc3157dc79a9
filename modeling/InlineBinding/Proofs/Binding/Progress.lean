import InlineBinding.Proofs.Binding.Attachments
import InlineBinding.Proofs.Linked.Wrapping
import InlineBinding.Proofs.Runs

/-! # How far a scan has come

The state of a scan is described by the attachments made so far and the wrappers put in.  Each
step of the scan adds attachments to the description, or a wrapper, and nothing else changes.
-/
namespace InlineBinding.Binding
open Linked Markup

/-- The clauses among the events. -/
def clausesIn (events : List Event) : List Text :=
  events.filterMap fun
    | .clausePushed _ _ c => some c
    | _ => none

theorem clausesIn_append (xs ys : List Event) :
    clausesIn (xs ++ ys) = clausesIn xs ++ clausesIn ys :=
  List.filterMap_append

@[simp] theorem Progress.document_record (p : Progress) (e : Event) :
    (p.record e).document = p.document := rfl

@[simp] theorem Progress.count_record (p : Progress) (e : Event) :
    (p.record e).count = p.count := rfl

/-! ## Runs without a failure -/

section Runs

variable {α : Type} {p p' : Progress}

namespace Scan

theorem document_bind (f : Document → ScanM α) : (document >>= f) p = f p.document p := rfl

theorem tagOf_ok {i : Id} {part : Text} {t : Tag} (h : tagOf i part p = .ok t p') :
    p.document.store.tag? i = some t ∧ p' = p := by
  rw [tagOf, document_bind] at h
  cases ht : p.document.store.tag? i with
  | some u =>
    simp only [ht] at h
    obtain ⟨rfl, rfl⟩ := pure_ok h
    exact ⟨rfl, rfl⟩
  | none =>
    simp only [ht] at h
    cases hl : p.document.store.leaf? i with
    | some l =>
      simp only [hl] at h
      cases h
    | none =>
      simp only [hl] at h
      cases h

theorem tagOf_of_some {i : Id} {t : Tag} (h : p.document.store.tag? i = some t) (part : Text) :
    tagOf i part p = .ok t p := by
  rw [tagOf, document_bind]
  simp only [h]
  rfl

theorem ofExcept_ok {x : Except Failure α} {a : α} (h : ofExcept x p = .ok a p') :
    x = .ok a ∧ p' = p := by
  cases x with
  | ok b =>
    obtain ⟨rfl, rfl⟩ := pure_ok h
    exact ⟨rfl, rfl⟩
  | error f => cases h

end Scan
end Runs

/-! ## The description of a state -/

/-- The label of the wrappers, when their markup is one element. -/
def Scan.wrapperTag? (s : Scan) : Option Tag :=
  match s.wrapper (.leaf ⟨.text, []⟩) with
  | .ok (t, _) => some t
  | .error _ => none

/-- After the attachments `xs`, with the wrappers `w`, a scan of the document `d`. -/
structure Reached (s : Scan) (d : Document) (f : Shape) (w : Id → Option Id)
    (xs : List Attachment) (p : Progress) : Prop where
  shows : p.document.Shows (f.wrap w)
  count : p.count = xs.length
  clauses : clausesIn p.events = xs.map s.clause
  tags : ∀ i ∈ f.labels,
    p.document.store.tag? i = (d.store.tag? i).map (s.tagAfter xs (.element i))
  leaves : ∀ i ∈ f.labels, p.document.store.leaf? i = (d.store.leaf? i).map (s.leafAfter xs i)
  fresh : ∀ i j, w i = some j → j ∉ f.labels
  injective : ∀ i k j, w i = some j → w k = some j → i = k
  wrappers : ∀ i j, w i = some j → ∃ t, s.wrapperTag? = some t ∧
    p.document.store.tag? j = some (s.tagAfter xs (.around i) t)
  resolved : ∀ x ∈ xs, x.anchor.id? w ≠ none

/-- Elements that are anchors belong to the document. -/
def Anchor.In (f : Shape) : Anchor → Prop
  | element i => i ∈ f.labels
  | around _ => True

namespace Reached

variable {s : Scan} {d : Document} {f : Shape} {w : Id → Option Id} {xs : List Attachment}
  {p p' : Progress}

theorem start (hd : d.Shows f) : Reached s d f (fun _ => none) [] (Progress.start d) where
  shows := by
    rw [Forest.wrap_none]
    exact hd
  count := rfl
  clauses := rfl
  tags i _ := by
    change d.store.tag? i = _
    cases d.store.tag? i <;> rfl
  leaves i _ := by
    change d.store.leaf? i = _
    cases d.store.leaf? i <;> rfl
  fresh _ _ h := absurd h (by simp)
  injective _ _ _ h := absurd h (by simp)
  wrappers _ _ h := absurd h (by simp)
  resolved _ h := absurd h List.not_mem_nil

/-- Different anchors are different elements. -/
theorem anchor_eq (h : Reached s d f w xs p) {a b : Anchor} {j : Id} (ha : a.In f) (hb : b.In f)
    (haj : a.id? w = some j) (hbj : b.id? w = some j) : a = b := by
  cases a with
  | element i =>
    obtain rfl := Option.some.inj haj
    cases b with
    | element k => rw [Option.some.inj hbj]
    | around k => exact absurd ha (h.fresh k i hbj)
  | around i =>
    cases b with
    | element k =>
      obtain rfl := Option.some.inj hbj
      exact absurd hb (h.fresh i k haj)
    | around k => rw [h.injective i k j haj hbj]

/-- A clause at one anchor and, for a text, its placeholder. -/
theorem attach (h : Reached s d f w xs p) {x : Attachment} {j : Id} {t : Tag}
    (ha : x.anchor.In f) (hj : x.anchor.id? w = some j) (ht : p.document.store.tag? j = some t)
    (hshows : p'.document.Shows (f.wrap w)) (hcount : p'.count = p.count + 1)
    (hclause : clausesIn p'.events = clausesIn p.events ++ [s.clause x])
    (htag : ∀ k, p'.document.store.tag? k =
      if j = k then some (s.attached x t) else p.document.store.tag? k)
    (hleaf : ∀ k, p'.document.store.leaf? k = (p.document.store.leaf? k).map (s.replaced x k)) :
    Reached s d f w (xs ++ [x]) p' where
  shows := hshows
  count := by rw [hcount, h.count, List.length_append, List.length_singleton]
  clauses := by rw [hclause, h.clauses, List.map_append, List.map_singleton]
  tags i hi := by
    rw [htag]
    by_cases hji : j = i
    · subst hji
      have he : x.anchor = .element j := h.anchor_eq ha hi hj rfl
      have ht' := h.tags j hi
      rw [ht] at ht'
      obtain ⟨t₀, ht₀, rfl⟩ := Option.map_eq_some_iff.1 ht'.symm
      rw [if_pos rfl, ht₀, Option.map_some, Scan.tagAfter_append, Scan.tagAfter_cons, if_pos he]
      rfl
    · have he : x.anchor ≠ .element i := by
        intro he
        rw [he] at hj
        exact hji (Option.some.inj hj).symm
      rw [if_neg hji, h.tags i hi]
      congr 1
      funext t₀
      rw [Scan.tagAfter_append, Scan.tagAfter_cons, if_neg he]
      rfl
  leaves i hi := by
    rw [hleaf, h.leaves i hi, Option.map_map]
    congr 1
    funext l
    exact (Scan.leafAfter_append xs [x] i l).symm
  fresh := h.fresh
  injective := h.injective
  wrappers i k hk := by
    obtain ⟨t₀, hw, ht₀⟩ := h.wrappers i k hk
    refine ⟨t₀, hw, ?_⟩
    rw [htag, Scan.tagAfter_append, Scan.tagAfter_cons]
    by_cases hjk : j = k
    · subst hjk
      have he : x.anchor = .around i := h.anchor_eq ha trivial hj hk
      rw [ht] at ht₀
      rw [if_pos rfl, if_pos he, Option.some.inj ht₀]
      rfl
    · have he : x.anchor ≠ .around i := by
        intro he
        rw [he] at hj
        exact hjk (Option.some.inj (hj.symm.trans hk))
      rw [if_neg hjk, if_neg he, ht₀]
      rfl
  resolved y hy := by
    rcases List.mem_append.1 hy with hy | hy
    · exact h.resolved y hy
    · rw [List.mem_singleton.1 hy, hj]
      exact Option.some_ne_none j

/-- A text without a wrapper is the anchor of nothing. -/
theorem ne_around (h : Reached s d f w xs p) {i : Id} (hi : w i = none) :
    ∀ x ∈ xs, x.anchor ≠ .around i := by
  intro x hx he
  have hr := h.resolved x hx
  rw [he] at hr
  exact hr hi

end Reached

/-! ## Attaching -/

namespace Attacher

variable {a : Attacher} {t t' : Tag}

theorem directive_ok {v : Text} (h : a.directive t = .ok v) : v = a.directiveText t := by
  rw [directive] at h
  rw [directiveText]
  split at h
  · rename_i hg
    rw [hg]
    exact (Except.ok.inj h).symm
  · rename_i u hg
    rw [hg]
    exact (Except.ok.inj h).symm
  · exact absurd h (by simp)

theorem pushClause_ok {c : Text} (h : a.pushClause t c = .ok t') :
    t' = { t with attributes :=
      t.attributes.set a.directiveName (.text (extend (a.directiveText t) c)) } := by
  rw [pushClause] at h
  cases hd : a.directive t with
  | error e =>
    rw [hd] at h
    exact absurd h (by simp [bind, Except.bind])
  | ok v =>
    rw [hd] at h
    rw [← directive_ok hd]
    exact (Except.ok.inj h).symm

theorem attachAttribute_ok {name : Text} {chunks : List Text} {e : Event}
    (h : a.attachAttribute t name chunks = .ok (t', e)) :
    let c := a.dialect.clause (a.dialect.attributeHandler name) (a.compile chunks).expression
    t' = { t with attributes := (t.attributes.set a.directiveName
        (.text (extend (a.directiveText t) c))).set name (.text (a.compile chunks).placeholder) } ∧
      e = a.pushed t c := by
  rw [attachAttribute] at h
  cases hp : a.pushClause t
      (a.dialect.clause (a.dialect.attributeHandler name) (a.compile chunks).expression) with
  | error f =>
    simp only [hp] at h
    exact absurd h (by simp [bind, Except.bind])
  | ok u =>
    simp only [hp] at h
    obtain ⟨rfl, rfl⟩ := Prod.mk.inj (Except.ok.inj h)
    rw [pushClause_ok hp]
    exact ⟨rfl, rfl⟩

end Attacher

namespace Reached

variable {s : Scan} {d : Document} {f : Shape} {w : Id → Option Id} {xs : List Attachment}
  {p p' : Progress} {u : Unit}

theorem attr (h : Reached s d f w xs p) {i : Id} {name value : Text} (hi : i ∈ f.labels)
    (hrun : (Scan.attachAttribute s.attacher i name (s.delimiters.split value) >>=
      fun _ => modify Progress.counted) p = .ok u p') :
    Reached s d f w (xs ++ [.attr i name value]) p' := by
  obtain ⟨_, q, hattach, hcount⟩ := bind_ok hrun
  obtain ⟨t, q₁, htag, hrest⟩ := bind_ok hattach
  obtain ⟨ht, rfl⟩ := Scan.tagOf_ok htag
  obtain ⟨⟨t', e⟩, q₂, hexcept, hstore⟩ := bind_ok hrest
  obtain ⟨hr, rfl⟩ := Scan.ofExcept_ok hexcept
  obtain ⟨rfl, rfl⟩ := Attacher.attachAttribute_ok hr
  cases hstore
  cases hcount
  apply h.attach (x := .attr i name value) (j := i) (t := t) hi rfl ht
  · refine h.shows.congr ?_ ?_ ?_
    · rfl
    · exact fun j => Store.parts?_setTag _ _ _ _
    · exact fun j => Store.links?_setTag _ _ _ _
  · rfl
  · exact clausesIn_append _ _
  · exact fun k => Store.tag?_setTag_of_some ht _ k
  · intro k
    refine (Store.leaf?_setTag _ _ _ _).trans ?_
    exact Option.map_id'.symm

theorem text (h : Reached s d f w xs p) {i j : Id} {data : Text} {a : Anchor} {node : Node}
    (ha : a.In f) (hj : a.id? w = some j)
    (hrun : (Scan.attachText s.attacher i node j (s.delimiters.split data) >>=
      fun _ => modify Progress.counted) p = .ok u p') :
    Reached s d f w (xs ++ [.text i data a (Attacher.placeOf node)]) p' := by
  obtain ⟨_, q, hattach, hcount⟩ := bind_ok hrun
  obtain ⟨t, q₁, htag, hrest⟩ := bind_ok hattach
  obtain ⟨ht, rfl⟩ := Scan.tagOf_ok htag
  obtain ⟨t', q₂, hexcept, hstore⟩ := bind_ok hrest
  obtain ⟨hr, rfl⟩ := Scan.ofExcept_ok hexcept
  obtain rfl := Attacher.pushClause_ok hr
  cases hstore
  cases hcount
  apply h.attach (x := .text i data a (Attacher.placeOf node)) (j := j) (t := t) ha hj ht
  · refine h.shows.congr ?_ ?_ ?_
    · rfl
    · exact fun k => (Store.parts?_setData _ _ _ _).trans (Store.parts?_setTag _ _ _ _)
    · exact fun k => (Store.links?_setData _ _ _ _).trans (Store.links?_setTag _ _ _ _)
  · rfl
  · exact clausesIn_append _ _
  · exact fun k => (Store.tag?_setData _ _ _ _).trans (Store.tag?_setTag_of_some ht _ k)
  · intro k
    refine (Store.leaf?_setData _ _ _ _).trans ?_
    rw [Store.leaf?_setTag]
    by_cases hk : i = k
    · subst hk
      rw [if_pos rfl]
      congr 1
      funext l
      exact (if_pos rfl).symm
    · rw [if_neg hk]
      refine Option.map_id'.symm.trans ?_
      congr 1
      funext l
      exact (if_neg hk).symm

/-- A wrapper around one more text. -/
theorem wrap (h : Reached s d f w xs p) {owner : Option Id} {done rest : Shape} {i : Id} {t : Tag}
    (content : Tree) (hl : f.Level owner (done ++ .leaf i rest)) (hi : w i = none)
    (ht : s.wrapperTag? = some t)
    (hd : p'.document = p.document.wrap t content owner (done.wrap w).tops.length i)
    (hcount : p'.count = p.count) (hclause : clausesIn p'.events = clausesIn p.events) :
    Reached s d f (Function.update w i (some p.document.store.size)) xs p' := by
  have hlevel := hl.wrap_leaf hi
  have hlt {k : Id} (hk : k ∈ f.labels) : k < p.document.store.size :=
    h.shows.owns.lt_size (Forest.mem_labels_wrap_of_mem w hk)
  have hold {k j : Id} (hk : w k = some j) : j < p.document.store.size := by
    obtain ⟨t₀, -, ht₀⟩ := h.wrappers k j hk
    exact Store.lt_size_of_tag? ht₀
  have hnew {k j : Id} (hk : Function.update w i (some p.document.store.size) k = some j) :
      k = i ∧ j = p.document.store.size ∨ k ≠ i ∧ w k = some j := by
    by_cases hki : k = i
    · subst hki
      rw [Function.update_self] at hk
      exact Or.inl ⟨rfl, (Option.some.inj hk).symm⟩
    · rw [Function.update_of_ne hki] at hk
      exact Or.inr ⟨hki, hk⟩
  have hx := h.ne_around hi
  refine ⟨?_, hcount.trans h.count, hclause.trans h.clauses, ?_, ?_, ?_, ?_, ?_, ?_⟩
  · rw [hd, ← Forest.wrap_wrap_only hi]
    exact h.shows.wrap hlevel
  · intro k hk
    rw [hd, h.shows.tag?_wrap hlevel (hlt hk)]
    exact h.tags k hk
  · intro k hk
    rw [hd, h.shows.leaf?_wrap hlevel (hlt hk)]
    exact h.leaves k hk
  · intro k j hk hj
    rcases hnew hk with ⟨-, rfl⟩ | ⟨-, hk⟩
    · exact Nat.lt_irrefl _ (hlt hj)
    · exact h.fresh k j hk hj
  · intro k m j hk hm
    rcases hnew hk with ⟨hki, hj⟩ | ⟨-, hwk⟩ <;> rcases hnew hm with ⟨hmi, hj'⟩ | ⟨-, hwm⟩
    · rw [hki, hmi]
    · exact absurd (hj ▸ hold hwm) (Nat.lt_irrefl _)
    · exact absurd (hj' ▸ hold hwk) (Nat.lt_irrefl _)
    · exact h.injective k m j hwk hwm
  · intro k j hk
    rcases hnew hk with ⟨rfl, rfl⟩ | ⟨-, hk⟩
    · refine ⟨t, ht, ?_⟩
      rw [hd, h.shows.tag?_wrapper hlevel, Scan.tagAfter_of_ne hx]
    · obtain ⟨t₀, hw, ht₀⟩ := h.wrappers k j hk
      refine ⟨t₀, hw, ?_⟩
      rw [hd, h.shows.tag?_wrap hlevel (hold hk)]
      exact ht₀
  · intro x hxs
    cases ha : x.anchor with
    | element k => exact Option.some_ne_none k
    | around k =>
      have hki : k ≠ i := by
        rintro rfl
        exact hx x hxs ha
      have hr := h.resolved x hxs
      rw [ha] at hr
      change Function.update w i _ k ≠ none
      rw [Function.update_of_ne hki]
      exact hr

end Reached
end InlineBinding.Binding
