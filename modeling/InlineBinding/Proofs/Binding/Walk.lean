import InlineBinding.Proofs.Binding.Gathered
import InlineBinding.Proofs.Binding.Progress

/-! # The walk over a document

The walk goes over snapshots of sibling lists while wrappers come into them.  What it attaches
among some siblings depends on the arrangement before the scan and on the last node before them,
so an induction over the arrangement follows the walk through all of its levels.
-/
namespace InlineBinding.Binding
open Linked Markup

variable {s : Scan} {d : Document} {f : Shape} {w : Id → Option Id} {xs : List Attachment}
  {p p' : Progress} {u : Unit}

/-! ## Attributes -/

theorem Reached.attributes (h : Reached s d f w xs p) {i : Id} (hi : i ∈ f.labels)
    {as : List (Text × Value)} (hrun : as.forM (s.scanAttribute i) p = .ok u p') :
    Reached s d f w (xs ++ (as.filterMap s.isBound).map fun a => .attr i a.1 a.2) p' := by
  induction as generalizing xs p with
  | nil =>
    obtain ⟨-, rfl⟩ := pure_ok hrun
    rw [List.filterMap_nil, List.map_nil, List.append_nil]
    exact h
  | cons a as ih =>
    obtain ⟨q, hone, hrest⟩ := forM_cons_ok hrun
    obtain ⟨name, v⟩ := a
    rw [Scan.scanAttribute] at hone
    by_cases hskip : s.skipped.contains (Text.lower name) = true
    · rw [if_pos hskip] at hone
      obtain ⟨-, rfl⟩ := pure_ok hone
      have hn : s.isBound (name, v) = none := if_pos hskip
      rw [List.filterMap_cons_none hn]
      exact ih h hrest
    · rw [if_neg hskip] at hone
      cases v with
      | text value =>
        by_cases hbound : s.delimiters.hasBindings value = true
        · have hs : s.isBound (name, .text value) = some (name, value) := by
            simp only [Scan.isBound, hskip, hbound, if_true]
            rfl
          have hone : (Scan.attachAttribute s.attacher i name (s.delimiters.split value) >>=
              fun _ => modify Progress.counted) p = .ok () q := by
            simp only [hbound, if_true] at hone
            exact hone
          have hr := ih (h.attr hi hone) hrest
          rw [List.filterMap_cons_some hs, List.map_cons]
          rwa [List.append_assoc] at hr
        · have hn : s.isBound (name, .text value) = none := by
            simp [Scan.isBound, hbound]
          simp only [hbound] at hone
          obtain ⟨-, rfl⟩ := pure_ok hone
          rw [List.filterMap_cons_none hn]
          exact ih h hrest
      | null => cases hone
      | flag b => cases hone
      | number n => cases hone

/-! ## Texts -/

/-- What stands before the next sibling, once wrappers have come in among those that are done. -/
def Before.Fits (d : Document) (f : Shape) (w : Id → Option Id) (done : Shape) : Before → Prop
  | nothing => done = .nil
  | anchor a => a.In f ∧ (∀ i, a = .element i → d.store.tag? i ≠ none) ∧
      ∃ j, a.id? w = some j ∧ (done.wrap w).tops.getLast? = some j
  | leaf => ∃ j, (done.wrap w).tops.getLast? = some j ∧ j ∈ f.labels ∧ d.store.tag? j = none

section Texts

variable {owner : Option Id} {done rest : Shape} {i : Id}

/-- A text that is reached stands behind what is done and before what is not. -/
theorem Reached.level (hl : f.Level owner (done ++ .leaf i rest)) (hi : w i = none)
    (hr : ∀ k ∈ rest.labels, w k = none) :
    (f.wrap w).Level owner (done.wrap w ++ .leaf i rest) := by
  have hl := hl.wrap_leaf hi
  rwa [Forest.wrap_eq_self hr] at hl

theorem Reached.links (h : Reached s d f w xs p)
    (hl : (f.wrap w).Level owner (done.wrap w ++ .leaf i rest)) :
    p.document.store.links? i =
      some ⟨owner, (done.wrap w).tops.getLast?.or none, rest.tops.head?⟩ :=
  (h.shows.leads_level hl).right.1

/-- The label of an anchor is there. -/
theorem Reached.tag?_anchor (h : Reached s d f w xs p) {a : Anchor} {j : Id} (ha : a.In f)
    (ht : ∀ i, a = .element i → d.store.tag? i ≠ none) (hj : a.id? w = some j) :
    (p.document.store.tag? j).isSome = true := by
  cases a with
  | element i =>
    obtain rfl := Option.some.inj hj
    rw [h.tags i ha, Option.isSome_map, Option.isSome_iff_ne_none]
    exact ht i rfl
  | around i =>
    obtain ⟨t, -, ht⟩ := h.wrappers i j hj
    rw [ht]
    rfl

/-- The element that the scan finds near a text is the one that the arrangement names. -/
theorem Reached.near (h : Reached s d f w xs p) (hd : d.Shows f)
    (hl : f.Level owner (done ++ .leaf i rest)) (hi : w i = none)
    (hr : ∀ k ∈ rest.labels, w k = none) {before : Before} (hb : before.Fits d f w done) :
    let a := (textAnchor owner before rest i).1
    (a = .around i ∧ ((p.document.store.anchor? i).bind p.document.store.tag?).isSome = false) ∨
      a.In f ∧ ∃ j, a.id? w = some j ∧ p.document.store.anchor? i = some j ∧
        ((p.document.store.anchor? i).bind p.document.store.tag?).isSome = true := by
  have hlevel := Reached.level hl hi hr
  have hlinks := h.links hlevel
  have hanchor : p.document.store.anchor? i =
      ((done.wrap w).tops.getLast?.or none).or (owner.or rest.tops.head?) := by
    rw [Store.anchor?_eq, hlinks]
    rfl
  cases before with
  | anchor a =>
    obtain ⟨ha, ht, j, hj, hlast⟩ := hb
    right
    have hn : p.document.store.anchor? i = some j := by rw [hanchor, hlast]; rfl
    exact ⟨ha, j, hj, hn, by rw [hn]; exact h.tag?_anchor ha ht hj⟩
  | leaf =>
    obtain ⟨j, hlast, hjf, hj⟩ := hb
    left
    have hn : p.document.store.anchor? i = some j := by rw [hanchor, hlast]; rfl
    refine ⟨rfl, ?_⟩
    rw [hn, Option.bind_some, h.tags j hjf, hj]
    rfl
  | nothing =>
    obtain rfl : done = .nil := hb
    have helement {q : Id} {cs : List Id} (hq : q ∈ f.labels)
        (hc : d.store.parts? q = some (some cs))
        (hn : p.document.store.anchor? i = some q) :
        (Anchor.element q).In f ∧ ∃ j, (Anchor.element q).id? w = some j ∧
          p.document.store.anchor? i = some j ∧
            ((p.document.store.anchor? i).bind p.document.store.tag?).isSome = true := by
      obtain ⟨n, t, -, -, ht⟩ := Store.tag?_of_parts? hc
      refine ⟨hq, q, rfl, hn, ?_⟩
      rw [hn]
      refine h.tag?_anchor (a := .element q) hq (fun k hk => ?_) rfl
      rw [← Anchor.element.inj hk, ht]
      simp
    cases owner with
    | some q => exact Or.inr (helement (Forest.Below.mem hl) (hd.owns.below hl).1 hanchor)
    | none =>
      have hown := hd.owns_level hl
      cases rest with
      | nil =>
        left
        refine ⟨rfl, ?_⟩
        rw [hanchor]
        rfl
      | element j cs rest =>
        have hj : j ∈ f.labels := hl.mem_labels (by simp [Forest.labels])
        exact Or.inr (helement hj hown.2.1 hanchor)
      | leaf j rest =>
        obtain ⟨n, l, -, -, -, ht⟩ := Store.leaf?_of_parts? hown.2.1
        left
        refine ⟨rfl, ?_⟩
        have hn : p.document.store.anchor? i = some j := hanchor
        have hj : j ∈ f.labels := hl.mem_labels (by simp [Forest.labels])
        rw [hn, Option.bind_some, h.tags j hj, ht]
        rfl

/-- From the links of a text one can tell where it stands. -/
theorem Reached.place (h : Reached s d f w xs p)
    (hl : (f.wrap w).Level owner (done.wrap w ++ .leaf i rest)) {before : Before}
    (hb : before.Fits d f w done) {node : Node} (hn : p.document.store.get? i = some node)
    (ha : (textAnchor owner before rest i).1 ≠ .around i) :
    Attacher.placeOf node = (textAnchor owner before rest i).2 := by
  have hlinks := h.links hl
  rw [Store.links?, hn, Option.map_some] at hlinks
  obtain ⟨hparent, hprev, hnext⟩ := Links.mk.inj (Option.some.inj hlinks)
  rw [Attacher.placeOf, hparent, hprev]
  cases before with
  | anchor a =>
    obtain ⟨-, -, j, -, hlast⟩ := hb
    rw [hlast]
    rfl
  | leaf => exact absurd rfl ha
  | nothing =>
    obtain rfl : done = .nil := hb
    cases owner with
    | some q => rfl
    | none =>
      cases rest with
      | nil => exact absurd rfl ha
      | element j cs rest => rfl
      | leaf j rest => exact absurd rfl ha

/-- The siblings of an arrangement are found. -/
theorem siblingsOf_eq {g sib : Shape} (h : p.document.Shows g) (hl : g.Level owner sib) :
    Scan.siblingsOf owner p = .ok sib.tops p := by
  cases owner with
  | none =>
    rw [← h.siblings_eq hl]
    rfl
  | some q =>
    obtain ⟨n, t, -, -, ht⟩ := Store.tag?_of_parts? (h.owns.below hl).1
    have htag : Scan.tagOf q "children".toList p = .ok t p := Scan.tagOf_of_some ht _
    rw [← h.siblings_eq hl, Scan.siblingsOf]
    simp only [bind, EStateM.bind, htag]
    rfl

theorem wrapper_ok {c : Content} {t : Tag} {content : Tree} (h : s.wrapper c = .ok (t, content)) :
    s.wrapperTag? = some t := by
  unfold Scan.wrapper at h
  dsimp only at h
  split at h
  · exact absurd h (by simp)
  · rename_i hf
    obtain ⟨rfl, rfl⟩ := Prod.mk.inj (Except.ok.inj h)
    unfold Scan.wrapperTag? Scan.wrapper
    simp only [hf]
  · exact absurd h (by simp)
  · exact absurd h (by simp)

theorem findIdx?_append {a b : List Id} (h : i ∉ a) :
    (a ++ i :: b).findIdx? (· == i) = some a.length := by
  rw [List.findIdx?_append, List.findIdx?_cons]
  have hn : a.findIdx? (· == i) = none := by
    rw [List.findIdx?_eq_none_iff]
    intro x hx
    exact beq_false_of_ne fun he => h (he ▸ hx)
  rw [hn]
  simp

/-- The only child of a wrapper is linked to the wrapper alone. -/
theorem links?_wrapped {g : Shape} (h : d.Shows g) (hl : g.Level owner (done ++ .leaf i rest))
    (t : Tag) (content : Tree) :
    (d.wrap t content owner done.tops.length i).store.links? i =
      some ⟨some d.store.size, none, none⟩ := by
  have hl' := hl.wrap (Forest.only i d.store.size)
  rw [Forest.wrap_only_append (hl.nodup h.nodup)] at hl'
  exact ((h.wrap hl).leads_level hl'.child).1

/-- A text gets a wrapper of its own. -/
theorem exists_promote {g : Shape} (h : p.document.Shows g)
    (hl : g.Level owner (done ++ .leaf i rest)) {node : Node}
    (hn : p.document.store.get? i = some node) {t : Tag} {content : Tree}
    (hw : s.wrapper node.content = .ok (t, content)) :
    ∃ q, s.promote i node p = .ok (some p.document.store.size) q ∧
      q.document = p.document.wrap t content owner done.tops.length i ∧ q.count = p.count ∧
        q.events = p.events ++ [.wrapped t.name] := by
  have hlinks := (h.leads_level hl).right.1
  rw [Store.links?, hn, Option.map_some] at hlinks
  obtain ⟨hparent, -, -⟩ := Links.mk.inj (Option.some.inj hlinks)
  have hnot : i ∉ done.tops := by
    have hnodup := hl.nodup h.nodup
    rw [Forest.labels_append, Forest.labels, List.nodup_append] at hnodup
    exact fun hm => hnodup.2.2 i (Forest.mem_labels_of_mem_tops hm) i List.mem_cons_self rfl
  have hanchor : (p.document.wrap t content owner done.tops.length i).store.anchor? i =
      some p.document.store.size := by
    rw [Store.anchor?_eq, links?_wrapped h hl]
    rfl
  have hindex : (done ++ .leaf i rest : Shape).tops.findIdx? (· == i) = some done.tops.length := by
    rw [Forest.tops_append, Forest.tops, findIdx?_append hnot]
  let d' := p.document.wrap t content owner done.tops.length i
  refine ⟨({ p with document := d' }).record (.wrapped t.name), ?_,
    by rw [Progress.document_record], by rw [Progress.count_record], by rw [Progress.record]⟩
  rw [Scan.promote, hw, hparent, Scan.ofExcept, pure_bind]
  rw [bind_of_ok (siblingsOf_eq h hl), hindex, ← hanchor]
  rfl

/-- A text without an element near it gets a wrapper of its own. -/
theorem Reached.promote (h : Reached s d f w xs p) (hl : f.Level owner (done ++ .leaf i rest))
    (hi : w i = none) (hr : ∀ k ∈ rest.labels, w k = none)
    {node : Node} (hn : p.document.store.get? i = some node) {a : Option Id}
    (hrun : s.promote i node p = .ok a p') :
    Reached s d f (Function.update w i a) xs p' ∧ a ≠ none ∧
      ∃ n, p'.document.store.get? i = some n ∧ Attacher.placeOf n = .first := by
  have hlevel := Reached.level hl hi hr
  obtain ⟨⟨t, content⟩, q, hexcept, -⟩ := bind_ok hrun
  obtain ⟨hw, -⟩ := Scan.ofExcept_ok hexcept
  obtain ⟨q, hpromote, hdocument, hcount, hevents⟩ := exists_promote h.shows hlevel hn hw
  rw [hpromote] at hrun
  obtain ⟨rfl, rfl⟩ := EStateM.Result.ok.inj hrun
  refine ⟨h.wrap content hl hi (wrapper_ok hw) hdocument hcount ?_, Option.some_ne_none _, ?_⟩
  · rw [hevents]
    exact (clausesIn_append _ _).trans (List.append_nil _)
  · have hlinks := links?_wrapped h.shows hlevel t content
    rw [← hdocument] at hlinks
    obtain ⟨n, hn, hlinks⟩ := Option.map_eq_some_iff.1 hlinks
    obtain ⟨hparent, hprev, -⟩ := Links.mk.inj hlinks
    refine ⟨n, hn, ?_⟩
    rw [Attacher.placeOf, hparent, hprev]
    rfl

theorem anchorFor_ok {node : Node} {j : Id} (h : s.anchorFor i node p = .ok j p') :
    if ((p.document.store.anchor? i).bind p.document.store.tag?).isSome = true then
      p.document.store.anchor? i = some j ∧ p' = p
    else s.promote i node p = .ok (some j) p' := by
  rw [Scan.anchorFor, Scan.document_bind] at h
  dsimp only at h
  rw [Scan.document_bind] at h
  split
  · rename_i hnear
    rw [if_pos hnear] at h
    obtain ⟨a, q, hpure, hmatch⟩ := bind_ok h
    obtain ⟨rfl, rfl⟩ := pure_ok hpure
    cases ha : p.document.store.anchor? i with
    | none =>
      rw [ha] at hmatch
      cases hmatch
    | some k =>
      rw [ha] at hmatch
      obtain ⟨rfl, rfl⟩ := pure_ok hmatch
      exact ⟨rfl, rfl⟩
  · rename_i hnear
    rw [if_neg hnear] at h
    obtain ⟨a, q, hpromote, hmatch⟩ := bind_ok h
    cases a with
    | none => cases hmatch
    | some k =>
      obtain ⟨rfl, rfl⟩ := pure_ok hmatch
      exact hpromote

theorem textAnchor_around {before : Before} (h : (textAnchor owner before rest i).1 = .around i)
    (hb : before ≠ .anchor (.around i)) : (textAnchor owner before rest i).2 = .first := by
  cases before with
  | anchor a => exact absurd (congrArg Before.anchor h) hb
  | leaf => rfl
  | nothing =>
    cases owner with
    | some q => rfl
    | none => cases rest <;> first | rfl | exact absurd h (by simp [textAnchor])

/-- A bound text. -/
theorem Reached.bindText (h : Reached s d f w xs p) (hd : d.Shows f)
    (hl : f.Level owner (done ++ .leaf i rest)) (hi : w i = none)
    (hr : ∀ k ∈ rest.labels, w k = none) {before : Before}
    (hb : before.Fits d f w done) {node : Node} (hn : p.document.store.get? i = some node)
    {data : Text} (hrun : s.bindText i node data p = .ok u p') :
    let a := (textAnchor owner before rest i).1
    ∃ w', Reached s d f w' (xs ++ [.text i data a (textAnchor owner before rest i).2]) p' ∧
      (∀ k, k ≠ i → w' k = w k) ∧ (w' i ≠ none ↔ a = .around i) := by
  intro a
  obtain ⟨j, q, hfor, hrest⟩ := bind_ok hrun
  rw [Scan.document_bind] at hrest
  have hanchor := anchorFor_ok hfor
  rcases h.near hd hl hi hr hb with ⟨ha, hnear⟩ | ⟨ha, k, hk, hn', hnear⟩
  · rw [hnear, if_neg Bool.false_ne_true] at hanchor
    obtain ⟨hq, -, n, hn', hplace⟩ := h.promote hl hi hr hn hanchor
    have hself : (Anchor.around i).id? (Function.update w i (some j)) = some j :=
      Function.update_self i _ w
    have hreached := hq.text (i := i) (a := .around i) trivial hself hrest
    rw [hn', Option.getD_some, hplace] at hreached
    have hbefore : before ≠ .anchor (.around i) := by
      rintro rfl
      obtain ⟨-, -, k, hk, -⟩ := hb
      exact absurd (hi.symm.trans hk) (by simp)
    refine ⟨Function.update w i (some j), ?_, fun k hk => Function.update_of_ne hk _ w, ?_⟩
    · rw [show a = .around i from ha, textAnchor_around ha hbefore]
      exact hreached
    · rw [Function.update_self]
      exact iff_of_true (by simp) ha
  · rw [hnear, if_pos rfl] at hanchor
    obtain ⟨hj, rfl⟩ := hanchor
    obtain rfl : k = j := Option.some.inj (hn'.symm.trans hj)
    have hne : a ≠ .around i := by
      rintro he
      rw [show (textAnchor owner before rest i).1 = .around i from he] at hk
      exact absurd (hi.symm.trans hk) (by simp)
    have hreached := h.text (i := i) (a := a) ha hk hrest
    rw [hn, Option.getD_some, h.place (Reached.level hl hi hr) hb hn hne] at hreached
    exact ⟨w, hreached, fun _ _ => rfl, iff_of_false (fun hn => hn hi) hne⟩

end Texts

/-! ## Single visits -/

section Visits

variable {n : ℕ} {i : Id} {node : Node}

theorem visit_element_ok {t : Tag} {cs : List Id} (hn : p.document.store.get? i = some node)
    (hc : node.content = .element t cs) (h : s.visit (n + 1) i p = .ok u p') :
    ∃ q, (if t.kind = .plain then t.attributes.forM (s.scanAttribute i) else pure ()) p =
        .ok () q ∧ (q.document.store.children i).forM (s.visit n) q = .ok () p' := by
  rw [Scan.visit, Scan.document_bind] at h
  simp only [hn, hc] at h
  by_cases hk : t.kind = .plain
  · rw [if_pos hk] at h ⊢
    obtain ⟨_, q, ha, hrest⟩ := bind_ok h
    exact ⟨q, ha, hrest⟩
  · rw [if_neg hk] at h ⊢
    exact ⟨p, rfl, h⟩

theorem visit_leaf_ok {l : Leaf} (hn : p.document.store.get? i = some node)
    (hc : node.content = .leaf l) (h : s.visit (n + 1) i p = .ok u p') :
    (if l.kind = .text then s.scanText i node l.data else pure ()) p = .ok () p' := by
  rw [Scan.visit, Scan.document_bind] at h
  simp only [hn, hc] at h
  exact h

theorem isRawBelow_ok {owner : Option Id} {b : Bool} (h : Scan.isRawBelow owner p = .ok b p') :
    b = Scan.isRaw p.document.store owner ∧ p' = p := by
  cases owner with
  | none =>
    obtain ⟨rfl, rfl⟩ := pure_ok h
    exact ⟨rfl, rfl⟩
  | some q =>
    obtain ⟨t, q₁, ht, hrest⟩ := bind_ok h
    obtain ⟨ht, rfl⟩ := Scan.tagOf_ok ht
    obtain ⟨rfl, rfl⟩ := pure_ok hrest
    rw [Scan.isRaw, Option.bind_some, ht]
    exact ⟨rfl, rfl⟩

theorem scanText_ok {data : Text} (h : s.scanText i node data p = .ok u p') :
    if Scan.isRaw p.document.store node.parent = false ∧ s.delimiters.hasBindings data = true then
      s.bindText i node data p = .ok () p' else p' = p := by
  obtain ⟨b, q, hb, hrest⟩ := bind_ok h
  obtain ⟨rfl, rfl⟩ := isRawBelow_ok hb
  by_cases hbound : Scan.isRaw q.document.store node.parent = false ∧
      s.delimiters.hasBindings data = true
  · rw [if_pos hbound]
    rw [hbound.1, hbound.2] at hrest
    exact hrest
  · rw [if_neg hbound]
    have hn : (!Scan.isRaw q.document.store node.parent &&
        s.delimiters.hasBindings data) ≠ true := by
      rw [ne_eq, Bool.and_eq_true, Bool.not_eq_true']
      exact hbound
    rw [if_neg hn] at hrest
    exact (pure_ok hrest).2.symm

theorem Reached.isRaw (h : Reached s d f w xs p) {owner : Option Id}
    (ho : ∀ q, owner = some q → q ∈ f.labels) :
    Scan.isRaw p.document.store owner = Scan.isRaw d.store owner := by
  cases owner with
  | none => rfl
  | some q =>
    rw [Scan.isRaw, Scan.isRaw, Option.bind_some, Option.bind_some, h.tags q (ho q rfl)]
    cases d.store.tag? q with
    | none => rfl
    | some t => rw [Option.map_some, Option.any_some, Option.any_some, Scan.kind_tagAfter]

/-- An element is done with its own attributes before its children are visited. -/
theorem Reached.visit_element (h : Reached s d f w xs p)
    {cs : Shape} (hl : f.Level (some i) cs) (hcs : ∀ k ∈ cs.labels, w k = none)
    (hrun : s.visit (n + 1) i p = .ok u p') :
    ∃ q, Reached s d f w (xs ++ s.ownAttachments d.store xs i) q ∧
      cs.tops.forM (s.visit n) q = .ok () p' := by
  have hi : i ∈ f.labels := Forest.Below.mem hl
  have hlevel : (f.wrap w).Below i cs := by
    have hl := hl.wrap w
    rwa [Forest.wrap_eq_self hcs] at hl
  obtain ⟨node, t, hn, hc, ht⟩ := Store.tag?_of_parts? (h.shows.owns.below hlevel).1
  obtain ⟨q, hattrs, hchildren⟩ := visit_element_ok hn hc hrun
  have ht' := h.tags i hi
  rw [ht] at ht'
  obtain ⟨t₀, ht₀, rfl⟩ := Option.map_eq_some_iff.1 ht'.symm
  have hkind := Scan.kind_tagAfter (s := s) xs (.element i) t₀
  have hq : Reached s d f w (xs ++ s.ownAttachments d.store xs i) q := by
    rw [Scan.ownAttachments, Scan.boundAttributesAfter, ht₀]
    dsimp only
    by_cases hk : t₀.kind = .plain
    · rw [if_pos (hkind ▸ hk)] at hattrs
      rw [if_pos hk]
      exact h.attributes hi hattrs
    · rw [if_neg (hkind ▸ hk)] at hattrs
      obtain ⟨-, rfl⟩ := pure_ok hattrs
      rwa [if_neg hk, List.map_nil, List.append_nil]
  refine ⟨q, hq, ?_⟩
  rw [Store.children_eq, (hq.shows.owns.below hlevel).1] at hchildren
  exact hchildren

theorem Reached.visit_leaf (h : Reached s d f w xs p) (hd : d.Shows f) {owner : Option Id}
    {done rest : Shape} (hl : f.Level owner (done ++ .leaf i rest)) (hi : w i = none)
    (hr : ∀ k ∈ rest.labels, w k = none) (hx : ∀ x ∈ xs, x.site.node ≠ i) {before : Before}
    (hb : before.Fits d f w done) (hrun : s.visit (n + 1) i p = .ok u p') :
    match s.boundText? d.store owner i with
    | none => p' = p
    | some data =>
      let a := (textAnchor owner before rest i).1
      ∃ w', Reached s d f w' (xs ++ [.text i data a (textAnchor owner before rest i).2]) p' ∧
        (∀ k, k ≠ i → w' k = w k) ∧ (w' i ≠ none ↔ a = .around i) := by
  have hif : i ∈ f.labels := hl.mem_labels (by simp [Forest.labels])
  have hlevel := Reached.level hl hi hr
  obtain ⟨node, l, hn, hc, hleaf, -⟩ :=
    Store.leaf?_of_parts? (Store.owns_append.1 (h.shows.owns_level hlevel)).2.1
  have hlinks := h.links hlevel
  rw [Store.links?, hn, Option.map_some] at hlinks
  obtain ⟨hparent, -, -⟩ := Links.mk.inj (Option.some.inj hlinks)
  have hl₀ := h.leaves i hif
  rw [hleaf] at hl₀
  obtain ⟨l₀, hd₀, hl₀⟩ := Option.map_eq_some_iff.1 hl₀.symm
  rw [Scan.leafAfter_of_notMem hx] at hl₀
  obtain rfl := hl₀
  have hraw : Scan.isRaw p.document.store node.parent = Scan.isRaw d.store owner := by
    rw [hparent]
    apply h.isRaw
    rintro q rfl
    exact Forest.Below.mem hl
  have hvisit := visit_leaf_ok hn hc hrun
  rw [Scan.boundText?, hd₀]
  dsimp only
  by_cases hk : l₀.kind = .text
  · rw [if_pos hk] at hvisit
    have hscan := scanText_ok hvisit
    rw [hraw] at hscan
    split at hscan
    · rename_i hbound
      rw [if_pos ⟨hk, hbound⟩]
      exact h.bindText hd hl hi hr hb hn hscan
    · rename_i hbound
      rw [if_neg fun hk => hbound hk.2]
      exact hscan
  · rw [if_neg hk] at hvisit
    rw [if_neg fun h => hk h.1]
    exact (pure_ok hvisit).2.symm

end Visits

/-! ## The walk -/

theorem Before.fits_element {owner : Option Id} {done cs rest : Shape} {i : Id} (hd : d.Shows f)
    (hl : f.Level owner (done ++ .element i cs rest)) :
    (Before.anchor (.element i)).Fits d f w (done ++ .element i cs .nil) := by
  refine ⟨hl.mem_labels (by simp [Forest.labels]), ?_, i, rfl, ?_⟩
  · intro k hk
    obtain ⟨-, t, -, -, ht⟩ := Store.tag?_of_parts? (Store.owns_append.1 (hd.owns_level hl)).2.1
    rw [← Anchor.element.inj hk, ht]
    exact Option.some_ne_none t
  · rw [Forest.wrap_append, Forest.tops_append, Forest.wrap, Forest.wrap, Forest.tops, Forest.tops,
      List.getLast?_concat]

theorem Before.fits_leaf {owner : Option Id} {done rest : Shape} {i : Id} (hd : d.Shows f)
    (hl : f.Level owner (done ++ .leaf i rest)) (hi : w i = none) :
    Before.leaf.Fits d f w (done ++ .leaf i .nil) := by
  obtain ⟨-, -, -, -, -, ht⟩ := Store.leaf?_of_parts? (Store.owns_append.1 (hd.owns_level hl)).2.1
  refine ⟨i, ?_, hl.mem_labels (by simp [Forest.labels]), ht⟩
  rw [Forest.wrap_append, Forest.tops_append, Forest.wrap_leaf_of_none hi, Forest.wrap, Forest.tops,
    Forest.tops, List.getLast?_concat]

theorem Before.fits_ofText {owner : Option Id} {done rest : Shape} {i : Id} {a : Anchor}
    (hd : d.Shows f) (hl : f.Level owner (done ++ .leaf i rest)) (hi : w i ≠ none ↔ a = .around i) :
    (Before.ofText i a).Fits d f w (done ++ .leaf i .nil) := by
  rw [Before.ofText]
  split
  · rename_i ha
    subst ha
    obtain ⟨j, hj⟩ := Option.ne_none_iff_exists'.1 (hi.2 rfl)
    refine ⟨trivial, fun k hk => absurd hk (by simp), j, hj, ?_⟩
    rw [Forest.wrap_append, Forest.tops_append, Forest.wrap_leaf_of_some hj, Forest.wrap,
      Forest.tops, Forest.tops, List.getLast?_concat]
  · rename_i ha
    exact Before.fits_leaf hd hl (not_not.1 fun hn => ha (hi.1 hn))

/-! ## Siblings -/

/-- Since the wrappers were `w` and the attachments `xs`, the siblings `todo` have been attached. -/
def Attached (s : Scan) (d : Document) (f : Shape) (w : Id → Option Id) (xs : List Attachment)
    (owner : Option Id) (before : Before) (todo : Shape) (p : Progress) : Prop :=
  ∃ w', Reached s d f w' (xs ++ s.gathered d.store xs owner before todo) p ∧
    (∀ k, k ∉ todo.labels → w' k = w k) ∧
      ∀ k ∈ todo.labels, w' k ≠ none →
        ∃ x ∈ s.gathered d.store xs owner before todo, x.anchor = .around k

namespace Attached

variable {owner : Option Id} {before : Before} {cs rest : Shape} {i : Id}

theorem nil (h : Reached s d f w xs p) : Attached s d f w xs owner before .nil p := by
  refine ⟨w, ?_, fun _ _ => rfl, fun k hk => absurd hk List.not_mem_nil⟩
  rw [Scan.gathered, List.append_nil]
  exact h

/-- First the attributes of an element, then what is below it, then what is behind it. -/
theorem element (hw : ∀ k ∈ (Forest.element i cs rest).labels, w k = none)
    (hcs : Attached s d f w (xs ++ s.ownAttachments d.store xs i) (some i) .nothing cs p)
    (hrest : ∀ w₂, (∀ k, k ∉ cs.labels → w₂ k = w k) →
      let ys := xs ++ s.ownAttachments d.store xs i ++
        s.gathered d.store (xs ++ s.ownAttachments d.store xs i) (some i) .nothing cs
      Reached s d f w₂ ys p → Attached s d f w₂ ys owner (.anchor (.element i)) rest p') :
    Attached s d f w xs owner before (.element i cs rest) p' := by
  obtain ⟨w₂, h₂, hout₂, hused₂⟩ := hcs
  obtain ⟨w₃, h₃, hout₃, hused₃⟩ := hrest w₂ hout₂ h₂
  rw [Attached, Scan.gathered]
  refine ⟨w₃, ?_, ?_, ?_⟩
  · rw [List.append_assoc, List.append_assoc] at h₃
    exact h₃
  · intro k hk
    simp only [Forest.labels, List.mem_cons, List.mem_append, not_or] at hk
    rw [hout₃ k hk.2.2, hout₂ k hk.2.1]
  · intro k hk hn
    simp only [List.mem_append]
    by_cases hkr : k ∈ rest.labels
    · obtain ⟨x, hxs, ha⟩ := hused₃ k hkr hn
      exact ⟨x, Or.inr (Or.inr hxs), ha⟩
    · rw [hout₃ k hkr] at hn
      by_cases hkc : k ∈ cs.labels
      · obtain ⟨x, hxs, ha⟩ := hused₂ k hkc hn
        exact ⟨x, Or.inr (Or.inl hxs), ha⟩
      · rw [hout₂ k hkc] at hn
        exact absurd (hw k hk) hn

theorem leaf_of_none (hb : s.boundText? d.store owner i = none) (hi : w i = none)
    (hir : i ∉ rest.labels) (hrest : Attached s d f w xs owner .leaf rest p) :
    Attached s d f w xs owner before (.leaf i rest) p := by
  obtain ⟨w₂, h₂, hout₂, hused₂⟩ := hrest
  rw [Attached, Scan.gathered_leaf_of_none hb]
  refine ⟨w₂, h₂, fun k hk => hout₂ k fun hkr => hk (List.mem_cons_of_mem i hkr), ?_⟩
  intro k hk hn
  rcases List.mem_cons.1 hk with rfl | hkr
  · rw [hout₂ k hir] at hn
    exact absurd hi hn
  · exact hused₂ k hkr hn

theorem leaf_of_some {data : Text} {w₁ : Id → Option Id}
    (hb : s.boundText? d.store owner i = some data) (hir : i ∉ rest.labels)
    (hout₁ : ∀ k, k ≠ i → w₁ k = w k)
    (haround : w₁ i ≠ none ↔ (textAnchor owner before rest i).1 = .around i)
    (hrest : Attached s d f w₁ (xs ++ [.text i data (textAnchor owner before rest i).1
      (textAnchor owner before rest i).2]) owner (.ofText i (textAnchor owner before rest i).1)
      rest p) :
    Attached s d f w xs owner before (.leaf i rest) p := by
  obtain ⟨w₂, h₂, hout₂, hused₂⟩ := hrest
  rw [Attached, Scan.gathered_leaf_of_some hb]
  refine ⟨w₂, ?_, ?_, ?_⟩
  · rw [List.append_assoc] at h₂
    exact h₂
  · intro k hk
    rw [Forest.labels, List.mem_cons, not_or] at hk
    rw [hout₂ k hk.2, hout₁ k hk.1]
  · intro k hk hn
    rcases List.mem_cons.1 hk with rfl | hkr
    · rw [hout₂ k hir] at hn
      exact ⟨_, List.mem_cons_self, haround.1 hn⟩
    · obtain ⟨x, hxs, ha⟩ := hused₂ k hkr hn
      exact ⟨x, List.mem_cons_of_mem _ hxs, ha⟩

end Attached

/-- The siblings `todo` behind those that are done. -/
theorem Reached.visit_siblings (hd : d.Shows f) {todo : Shape} {depth : ℕ} {owner : Option Id}
    {done : Shape} {before : Before} (hdepth : todo.height ≤ depth) (h : Reached s d f w xs p)
    (hl : f.Level owner (done ++ todo)) (hw : ∀ k ∈ todo.labels, w k = none)
    (hx : ∀ x ∈ xs, x.site.node ∉ todo.labels) (hb : before.Fits d f w done)
    (hrun : todo.tops.forM (s.visit depth) p = .ok u p') :
    Attached s d f w xs owner before todo p' := by
  induction todo generalizing depth owner done before w xs p p' u with
  | nil =>
    obtain ⟨-, rfl⟩ := pure_ok hrun
    exact .nil h
  | element i cs rest ihc ihr =>
    obtain ⟨hic, hir, hc, -, hcr⟩ := Forest.nodup_element (hl.nodup_todo hd.nodup)
    have hwc (k : Id) (hk : k ∈ cs.labels) : w k = none := hw k (Forest.mem_labels_of_children hk)
    have hwr (k : Id) (hk : k ∈ rest.labels) : w k = none := hw k (Forest.mem_labels_of_rest hk)
    rw [Forest.height] at hdepth
    obtain ⟨n, rfl⟩ : ∃ n, depth = n + 1 := ⟨depth - 1, by omega⟩
    obtain ⟨q, hone, hbehind⟩ := forM_cons_ok hrun
    -- the element itself
    obtain ⟨q₁, h₁, hchildren⟩ := h.visit_element hl.child hwc hone
    have hx₁ : ∀ x ∈ xs ++ s.ownAttachments d.store xs i,
        x.site.node ∉ cs.labels ∧ x.site.node ∉ rest.labels := by
      intro x hxs
      rcases List.mem_append.1 hxs with hxs | hxs
      · exact ⟨fun hk => hx x hxs (Forest.mem_labels_of_children hk),
          fun hk => hx x hxs (Forest.mem_labels_of_rest hk)⟩
      · rw [Scan.node_of_mem_ownAttachments hxs]
        exact ⟨hic, hir⟩
    -- below it
    have hdc : cs.height ≤ n := by omega
    have hlc : f.Level (some i) (.nil ++ cs) := hl.child
    have hbc : Before.nothing.Fits d f w .nil := rfl
    apply Attached.element hw (ihc hdc h₁ hlc hwc (fun x hxs => (hx₁ x hxs).1) hbc hchildren)
    -- behind it
    intro w₂ hout₂ ys h₂
    have hdr : rest.height ≤ n + 1 := by omega
    apply ihr hdr h₂ hl.past_element _ _ (Before.fits_element hd hl) hbehind
    · exact fun k hk => (hout₂ k fun hkc => hcr k hkc hk).trans (hwr k hk)
    · intro x hxs
      rcases List.mem_append.1 hxs with hxs | hxs
      · exact (hx₁ x hxs).2
      · exact hcr _ ((Scan.makes_gathered hc fun x hxs => (hx₁ x hxs).1).node_mem hxs)
  | leaf i rest ih =>
    obtain ⟨hir, -⟩ := List.nodup_cons.1 (hl.nodup_todo hd.nodup)
    have hrest {k : Id} (hk : k ∈ rest.labels) : k ∈ (Forest.leaf i rest).labels :=
      List.mem_cons_of_mem i hk
    have hi : w i = none := hw i List.mem_cons_self
    rw [Forest.height] at hdepth
    obtain ⟨n, rfl⟩ : ∃ n, depth = n + 1 := ⟨depth - 1, by omega⟩
    have hdr : rest.height ≤ n + 1 := by omega
    obtain ⟨q, hone, hbehind⟩ := forM_cons_ok hrun
    have hvisit := h.visit_leaf hd hl hi (fun k hk => hw k (hrest hk))
      (fun x hxs he => hx x hxs (he ▸ List.mem_cons_self)) hb hone
    cases hbound : s.boundText? d.store owner i with
    | none =>
      rw [hbound] at hvisit
      obtain rfl : q = p := hvisit
      exact .leaf_of_none hbound hi hir (ih hdr h hl.past_leaf (fun k hk => hw k (hrest hk))
        (fun x hxs hk => hx x hxs (hrest hk)) (Before.fits_leaf hd hl hi) hbehind)
    | some data =>
      rw [hbound] at hvisit
      obtain ⟨w₁, h₁, hout₁, haround⟩ := hvisit
      apply Attached.leaf_of_some hbound hir hout₁ haround
      apply ih hdr h₁ hl.past_leaf _ _ (Before.fits_ofText hd hl haround) hbehind
      · exact fun k hk => (hout₁ k fun he => hir (he ▸ hk)).trans (hw k (hrest hk))
      · intro x hxs hk
        rcases List.mem_append.1 hxs with hxs | hxs
        · exact hx x hxs (hrest hk)
        · rw [List.mem_singleton.1 hxs] at hk
          exact hir hk

end InlineBinding.Binding
