import InlineBinding.Proofs.Binding.Placement
import InlineBinding.Proofs.Binding.Total
import InlineBinding.Proofs.Linked.Gathering

/-!
# The tree that a scan leaves

What a scan attaches is known from the tree before it, and so is the tree after it: elements and
texts change by what is attached to them, some texts stand in wrappers, and nodes that are no texts
stay as they are.
-/
namespace InlineBinding

namespace Linked
open Markup (Tree)

theorem numbered_append (n : ℕ) (t u : Tree) :
    numbered n (t ++ u) = numbered n t ++ numbered (n + count t) u := by
  induction t generalizing n with
  | nil => rfl
  | element e cs rest _ ih =>
    have hcount : n + 1 + count cs + count rest = n + count (.element e cs rest) := by
      rw [count]
      omega
    rw [Forest.element_append, numbered, numbered, ih, Forest.element_append, hcount]
  | leaf l rest ih =>
    have hcount : n + 1 + count rest = n + count (.leaf l rest) := by
      rw [count]
      omega
    rw [Forest.leaf_append, numbered, numbered, ih, Forest.leaf_append, hcount]

namespace Store

variable {s : Store}

theorem bears_of_append {t u : Tree} {n : ℕ} {g : Shape}
    (h : s.Bears (t ++ u) (numbered n t ++ g)) : s.Bears u g := by
  induction t generalizing n with
  | nil => exact h
  | element e cs rest _ ih => exact ih h.2.2
  | leaf l rest ih => exact ih h.2

theorem textual_of_bears {t : Tree} {f : Shape} (h : s.Bears t f) (ho : s.Owns f)
    (ht : ∀ v ∈ t.elements, v.Textual) : ∀ i ∈ f.labels, ∀ v ∈ s.tag? i, v.Textual := by
  fun_induction s.Bears t f with
  | case1 => exact fun i hi => absurd hi List.not_mem_nil
  | case2 e cs rest i is more ihc ihr =>
    rw [Forest.elements, List.forall_mem_cons, List.forall_mem_append] at ht
    rw [Forest.labels, List.forall_mem_cons, List.forall_mem_append]
    refine ⟨fun v hv => ?_, ihc h.2.1 ho.2.1 ht.2.1, ihr h.2.2 ho.2.2 ht.2.2⟩
    obtain rfl := Option.some.inj (h.1.symm.trans hv)
    exact ht.1
  | case3 l rest i more ih =>
    rw [Forest.labels, List.forall_mem_cons]
    refine ⟨fun v hv => ?_, ih h.2 ho.2 ht⟩
    obtain ⟨-, -, -, -, -, hnone⟩ := leaf?_of_parts? ho.1
    rw [hnone] at hv
    exact absurd hv (by simp)
  | case4 => exact h.elim

end Store

end Linked

namespace Binding
open Linked Markup

/-! ## Places that are texts -/

section Texts

variable {s : Scan} {store : Store} {owner : Option Id} {before : Before} {f : Shape}
  {xs : List Attachment} {k : Id}

/-- A leaf that is a text. -/
def IsText (store : Store) (i : Id) : Prop := ∃ l, store.leaf? i = some l ∧ l.kind = .text

theorem Scan.isText_of_boundText? {data : Text} (h : s.boundText? store owner k = some data) :
    IsText store k := ⟨_, (boundText?_eq_some_iff.1 h).1, rfl⟩

theorem Scan.Makes.isText_of_mem (h : s.Makes store owner before f xs) {data : Text} {a : Anchor}
    {place : Place} (hx : .text k data a place ∈ xs) : IsText store k := by
  induction h with
  | nil => exact absurd hx List.not_mem_nil
  | element before as has _ _ ihc ihr =>
    rw [List.mem_append, List.mem_append, List.mem_map] at hx
    rcases hx with ⟨a, -, he⟩ | hx | hx
    · exact absurd he (by simp)
    · exact ihc hx
    · exact ihr hx
  | idle before hi _ ih => exact ih hx
  | bound hi _ ih =>
    rcases List.mem_cons.1 hx with he | hx
    · obtain ⟨rfl, -⟩ := Attachment.text.inj he
      exact isText_of_boundText? hi
    · exact ih hx

/-- A wrapper is there for the text in it. -/
theorem Scan.Makes.exists_text_of_around (h : s.Makes store owner before f xs) {x : Attachment}
    (hx : x ∈ xs) (ha : x.anchor = .around k) :
    (∃ data place, .text k data (.around k) place ∈ xs) ∨ before = .anchor (.around k) := by
  induction h with
  | nil => exact absurd hx List.not_mem_nil
  | element before as has _ _ ihc ihr =>
    rw [List.mem_append, List.mem_append, List.mem_map] at hx
    rcases hx with ⟨a, -, rfl⟩ | hx | hx
    · exact absurd ha (by simp [Attachment.anchor])
    · obtain ⟨data, place, hm⟩ := (ihc hx).resolve_right (by simp)
      exact Or.inl ⟨data, place, by simp [hm]⟩
    · obtain ⟨data, place, hm⟩ := (ihr hx).resolve_right (by simp)
      exact Or.inl ⟨data, place, by simp [hm]⟩
  | idle before hi _ ih => exact Or.inl ((ih hx).resolve_right (by simp))
  | @bound owner before i rest xs data hi _ ih =>
    have hhead (he : (textAnchor owner before rest i).1 = .around i) :
        ∃ data' place, Attachment.text i data' (.around i) place ∈
          Attachment.text i data (textAnchor owner before rest i).1
            (textAnchor owner before rest i).2 :: xs :=
      ⟨data, _, by rw [he]; exact List.mem_cons_self⟩
    rcases List.mem_cons.1 hx with rfl | hx
    · rcases eq_or_of_textAnchor ha with rfl | he
      · exact Or.inl (hhead ha)
      · exact Or.inr he
    · rcases ih hx with ⟨data', place, hm⟩ | he
      · exact Or.inl ⟨data', place, List.mem_cons_of_mem _ hm⟩
      · obtain rfl := Anchor.around.inj (Before.eq_around_of_ofText he)
        rw [Before.ofText] at he
        split at he
        · rename_i h
          exact Or.inl (hhead h)
        · exact absurd he (by simp)

/-- Only texts are wrapped. -/
theorem Scan.Makes.isText_of_around (h : s.Makes store none .nothing f xs) {x : Attachment}
    (hx : x ∈ xs) (ha : x.anchor = .around k) : IsText store k := by
  obtain ⟨data, place, hm⟩ := (h.exists_text_of_around hx ha).resolve_right (by simp)
  exact h.isText_of_mem hm

end Texts

/-! ## Trees -/

namespace Scan

variable (s : Scan)

/-- A tree after a series of attachments, when all wrappers have the tag `u`. -/
def treeAfter (xs : List Attachment) (u : Tag) : Tree → Shape → Tree
  | .element t cs rest, .element i is more =>
    .element (s.tagAfter xs (.element i) t) (treeAfter xs u cs is) (treeAfter xs u rest more)
  | .leaf l rest, .leaf i more =>
    if ∃ x ∈ xs, x.anchor = .around i then
      .element (s.tagAfter xs (.around i) u) (.leaf (s.leafAfter xs i l) .nil)
        (treeAfter xs u rest more)
    else .leaf (s.leafAfter xs i l) (treeAfter xs u rest more)
  | _, _ => .nil

variable {s} {xs : List Attachment} {u : Tag}

theorem treeAfter_append (t t' : Tree) (n : ℕ) (g : Shape) :
    s.treeAfter xs u (t ++ t') (numbered n t ++ g) =
      s.treeAfter xs u t (numbered n t) ++ s.treeAfter xs u t' g := by
  induction t generalizing n with
  | nil => rfl
  | element e cs rest _ ih =>
    rw [Forest.element_append, numbered, Forest.element_append, treeAfter, treeAfter, ih,
      Forest.element_append]
  | leaf l rest ih =>
    rw [Forest.leaf_append, numbered, Forest.leaf_append, treeAfter, treeAfter]
    split
    · rw [ih, Forest.element_append]
    · rw [ih, Forest.leaf_append]

theorem sites_append (store : Store) (owner : Option Id) (f g : Shape) :
    s.sites store owner (f ++ g) = s.sites store owner f ++ s.sites store owner g := by
  induction f with
  | nil => rfl
  | element i cs rest _ ih =>
    rw [Forest.element_append, sites, sites, ih, List.append_assoc, List.append_assoc]
  | leaf i rest ih =>
    rw [Forest.leaf_append, sites, sites, ih]
    split <;> rfl

end Scan

section Run

variable {s : Scan} {d : Document} {f : Shape} {w : Id → Option Id} {xs : List Attachment}
  {p : Progress} {u : Tag}

theorem Reached.bears (h : Reached s d f w xs p)
    (hused : ∀ k, w k ≠ none ↔ ∃ x ∈ xs, x.anchor = .around k) (hu : s.wrapperTag? = some u)
    {t : Tree} {g : Shape} (hb : d.store.Bears t g) (hg : ∀ i ∈ g.labels, i ∈ f.labels) :
    p.document.store.Bears (s.treeAfter xs u t g) (g.wrap w) := by
  fun_induction d.store.Bears t g with
  | case1 => trivial
  | case2 t cs rest i is more ihc ihr =>
    obtain ⟨ht, hbc, hbr⟩ := hb
    rw [Forest.labels, List.forall_mem_cons, List.forall_mem_append] at hg
    refine ⟨?_, ihc hbc hg.2.1, ihr hbr hg.2.2⟩
    rw [h.tags i hg.1, ht]
    rfl
  | case3 l rest i more ih =>
    obtain ⟨hl, hbr⟩ := hb
    rw [Forest.labels, List.forall_mem_cons] at hg
    have hleaf : p.document.store.leaf? i = some (s.leafAfter xs i l) := by
      rw [h.leaves i hg.1, hl]
      rfl
    rw [Scan.treeAfter]
    cases hw : w i with
    | none =>
      rw [if_neg fun hx => (hused i).2 hx hw, Forest.wrap_leaf_of_none hw]
      exact ⟨hleaf, ih hbr hg.2⟩
    | some j =>
      obtain ⟨v, hv, htag⟩ := h.wrappers i j hw
      obtain rfl := Option.some.inj (hv.symm.trans hu)
      have hx := (hused i).1 (by rw [hw]; exact Option.some_ne_none j)
      rw [if_pos hx, Forest.wrap_leaf_of_some hw]
      exact ⟨htag, ⟨hleaf, trivial⟩, ih hbr hg.2⟩
  | case4 => exact hb.elim

/-- The tree after a run. -/
theorem Scan.toTree_of_run {t : Tree} {n : ℕ}
    (hskip : s.skipped.contains (Text.lower s.attacher.directiveName) = true)
    (hu : s.wrapperTag? = some u) (hrun : s.run (.ofTree t) = (.ok n, p)) :
    p.document.toTree = s.treeAfter
      (s.attachments (Document.ofTree t).store none .nothing (numbered 0 t)) u t (numbered 0 t) := by
  have hd := Document.shows_ofTree t
  obtain ⟨-, w, hw, hused⟩ := Scan.reached_of_run hd hskip hrun
  exact Document.toTree_eq_of_bears hw.shows
    (hw.bears hused hu (Document.bears_ofTree t) fun _ hi => hi)

/-- A tree whose values are texts is scanned to its end. -/
theorem Scan.run_ofTree {t : Tree}
    (hskip : s.skipped.contains (Text.lower s.attacher.directiveName) = true)
    (hu : s.wrapperTag? = some u) (ht : ∀ v ∈ t.elements, v.Textual) :
    ∃ n p, s.run (.ofTree t) = (.ok n, p) ∧
      p.document.toTree = s.treeAfter
        (s.attachments (Document.ofTree t).store none .nothing (numbered 0 t)) u t (numbered 0 t) := by
  have hd := Document.shows_ofTree t
  have htextual := Store.textual_of_bears (Document.bears_ofTree t) hd.owns ht
  obtain ⟨n, p, -, hrun, -⟩ := Scan.run_keeps hd htextual hu
  exact ⟨n, p, hrun, Scan.toTree_of_run hskip hu hrun⟩

end Run

/-! ## Nodes that are no texts -/

section Between

variable {s : Scan} {u : Tag} {l : Leaf} (hk : l.kind ≠ .text)

include hk

theorem Scan.sites_leaf {store : Store} {owner : Option Id} {i : Id}
    (hl : store.leaf? i = some l) (rest : Shape) :
    s.sites store owner (.leaf i rest) = s.sites store owner rest := by
  have hnone : s.boundText? store owner i = none := by
    rw [boundText?, hl]
    exact if_neg fun h => hk h.1
  rw [sites, hnone]

theorem Scan.treeAfter_leaf {store : Store} {f : Shape} {xs : List Attachment} {i : Id}
    (hx : s.Makes store none .nothing f xs) (hl : store.leaf? i = some l) (rest : Tree)
    (more : Shape) : s.treeAfter xs u (.leaf l rest) (.leaf i more) =
      .leaf l (s.treeAfter xs u rest more) := by
  have hnot : ¬ IsText store i := by
    rintro ⟨m, hm, hkind⟩
    obtain rfl := Option.some.inj (hl.symm.trans hm)
    exact hk hkind
  have haround : ¬ ∃ x ∈ xs, x.anchor = .around i := by
    rintro ⟨x, hxs, ha⟩
    exact hnot (hx.isText_of_around hxs ha)
  have hsame (ys : List Attachment) (hys : ∀ y ∈ ys, y ∈ xs) : s.leafAfter ys i l = l := by
    induction ys with
    | nil => rfl
    | cons y ys ih =>
      rw [List.forall_mem_cons] at hys
      have hy : s.replaced y i l = l := by
        cases y with
        | attr j name value => rfl
        | text j data a place =>
          apply if_neg
          rintro rfl
          exact hnot (hx.isText_of_mem hys.1)
      rw [leafAfter_cons, hy, ih hys.2]
  rw [treeAfter, if_neg haround, hsame xs fun _ h => h]

/-- What stands before such a node and behind it is scanned as two parts. -/
theorem Scan.parts_of_leaf (t t' : Tree) :
    let whole := t ++ .leaf l t'
    let store := (Document.ofTree whole).store
    let xs := s.attachments store none .nothing (numbered 0 whole)
    s.treeAfter xs u whole (numbered 0 whole) =
        s.treeAfter xs u t (numbered 0 t) ++
          .leaf l (s.treeAfter xs u t' (numbered (count t + 1) t')) ∧
      s.sites store none (numbered 0 whole) =
        s.sites store none (numbered 0 t) ++ s.sites store none (numbered (count t + 1) t') := by
  intro whole store xs
  have hshape : numbered 0 whole =
      numbered 0 t ++ .leaf (count t) (numbered (count t + 1) t') := by
    rw [numbered_append, Nat.zero_add]
    rfl
  have hbears : store.Bears whole (numbered 0 whole) := Document.bears_ofTree whole
  rw [hshape] at hbears
  have hleaf : store.leaf? (count t) = some l := (Store.bears_of_append hbears).1
  constructor
  · rw [hshape, treeAfter_append, treeAfter_leaf hk (makes_attachments none .nothing _) hleaf]
  · rw [hshape, sites_append, sites_leaf hk hleaf]

end Between

end Binding
end InlineBinding
