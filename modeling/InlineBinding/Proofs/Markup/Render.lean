import InlineBinding.Markup.Printer
import InlineBinding.Proofs.Forest
import InlineBinding.Proofs.Linked.Held
import InlineBinding.Proofs.Text.Replace

/-!
# What stands in printed markup

Every element of a document is printed with its start tag, and a start tag with every attribute
between double quotes.
-/
namespace InlineBinding.Markup

/-! ## Values -/

section Values

variable (s t : Text)

theorem quoteValue_eq :
    quoteValue (.text t) = t.flatMap fun c => if c = '"' then "&quot;".toList else [c] :=
  Text.replace_singleton '"' _ t

theorem quoteValue_append :
    quoteValue (.text (s ++ t)) = quoteValue (.text s) ++ quoteValue (.text t) := by
  rw [quoteValue_eq, List.flatMap_append, ← quoteValue_eq, ← quoteValue_eq]

theorem quoteValue_cons {x : Char} (hx : x ≠ '"') :
    quoteValue (.text (x :: t)) = x :: quoteValue (.text t) := by
  rw [quoteValue_eq, List.flatMap_cons, if_neg hx, ← quoteValue_eq, List.singleton_append]

end Values

theorem quoteValue_eq_self {t : Text} (h : '"' ∉ t) : quoteValue (.text t) = t :=
  Text.replace_eq_self _ (List.cons_ne_nil _ _) fun hi => h (hi.subset List.mem_cons_self)

theorem quote_notMem_quoteValue (t : Text) : '"' ∉ quoteValue (.text t) := by
  rw [quoteValue_eq, List.mem_flatMap]
  rintro ⟨c, -, h⟩
  split at h
  · exact absurd h (by decide)
  · rename_i hc
    exact hc (List.mem_singleton.1 h).symm

/-! ## Start tags -/

theorem renderAttribute_infix_openTag {t : Tag} {name : Text} {v : Value}
    (h : t.attributes.get? name = some v) : renderAttribute (name, v) <:+: openTag t := by
  obtain ⟨as, bs, he, -⟩ := List.lookup_eq_some_iff.1 h
  refine ⟨'<' :: t.name ++ as.flatMap renderAttribute, bs.flatMap renderAttribute, ?_⟩
  rw [openTag, he, List.flatMap_append, List.flatMap_cons]
  simp only [List.append_assoc]

theorem openTag_prefix_renderElement (xhtml : Bool) (t : Tag) (hasChildren : Bool) (inner : Text) :
    openTag t <+: renderElement xhtml t hasChildren inner := by
  rw [renderElement]
  split
  · rw [List.append_assoc]
    exact List.prefix_append _ _
  · split <;> exact List.prefix_append _ _

theorem infix_renderElement (xhtml : Bool) (t : Tag) (cs : Tree) :
    render xhtml cs <:+: renderElement xhtml t (!isNil cs) (render xhtml cs) := by
  have hinner : render xhtml cs <:+:
      openTag t ++ '>' :: render xhtml cs ++ closeTag t := ⟨openTag t ++ ['>'], closeTag t, by simp⟩
  cases cs with
  | nil => exact List.nil_infix
  | element _ _ _ => exact hinner
  | leaf _ _ => exact hinner

theorem infix_render_of_any (xhtml : Bool) {w : Text} {t : Tree}
    (h : t.Any (w <:+: openTag ·) (w <:+: renderLeaf ·)) : w <:+: render xhtml t := by
  induction t with
  | nil => exact h.elim
  | element t cs rest ihc ihr =>
    rw [render]
    rcases h with h | h | h
    · have hopen := openTag_prefix_renderElement xhtml t (!isNil cs) (render xhtml cs)
      exact h.trans (hopen.trans (List.prefix_append _ _)).isInfix
    · exact ((ihc h).trans (infix_renderElement xhtml t cs)).trans (List.prefix_append _ _).isInfix
    · exact (ihr h).trans (List.suffix_append _ _).isInfix
  | leaf l rest ih =>
    rw [render]
    rcases h with h | h
    · exact h.trans (List.prefix_append _ _).isInfix
    · exact (ih h).trans (List.suffix_append _ _).isInfix

end InlineBinding.Markup

namespace InlineBinding.Linked
open Markup

/-! ## Documents -/

section Harvest

variable {s : Store} {f : Shape} {i : Id} {ids : List Id} {depth : ℕ}

theorem Store.harvest_element {n : Node} {t : Tag} {cs : List Id} (hn : s.get? i = some n)
    (hc : n.content = .element t cs) :
    s.harvest (depth + 1) (i :: ids) =
      .element t (s.harvest depth cs) (s.harvest (depth + 1) ids) := by
  simp only [harvest, List.foldr_cons, hn, hc]

theorem Store.harvest_leaf {n : Node} {l : Leaf} (hn : s.get? i = some n)
    (hc : n.content = .leaf l) :
    s.harvest (depth + 1) (i :: ids) = .leaf l (s.harvest (depth + 1) ids) := by
  simp only [harvest, List.foldr_cons, hn, hc]

/-- Every node of an arrangement is part of the tree that is read off. -/
theorem Store.any_harvest {P : Tag → Prop} {Q : Leaf → Prop} (h : s.Owns f) (hd : f.height ≤ depth)
    (hi : i ∈ f.labels)
    (hp : (∃ t, s.tag? i = some t ∧ P t) ∨ ∃ l, s.leaf? i = some l ∧ Q l) :
    (s.harvest depth f.tops).Any P Q := by
  induction f generalizing depth with
  | nil => exact absurd hi List.not_mem_nil
  | element j cs rest ihc ihr =>
    obtain ⟨hj, hcs, hrest⟩ := h
    obtain ⟨n, t, hn, hcontent, ht⟩ := tag?_of_parts? hj
    simp only [Forest.height, Nat.max_le] at hd
    obtain ⟨k, rfl⟩ : ∃ k, depth = k + 1 := ⟨depth - 1, by omega⟩
    have hk : cs.height ≤ k := by omega
    rw [Forest.tops, harvest_element hn hcontent, Forest.Any]
    rw [Forest.labels, List.mem_cons, List.mem_append] at hi
    rcases hi with rfl | hi | hi
    · rcases hp with ⟨u, hu, hp⟩ | ⟨l, hl, -⟩
      · obtain rfl := Option.some.inj (ht.symm.trans hu)
        exact Or.inl hp
      · obtain ⟨content, parent, prev, next⟩ := n
        obtain rfl : content = .element t cs.tops := hcontent
        rw [leaf?, hn] at hl
        exact absurd hl (by simp)
    · exact Or.inr (Or.inl (ihc hcs hk hi))
    · exact Or.inr (Or.inr (ihr hrest hd.2 hi))
  | leaf j rest ih =>
    obtain ⟨n, l, hn, hcontent, hl, hnone⟩ := leaf?_of_parts? h.1
    simp only [Forest.height, Nat.max_le] at hd
    obtain ⟨k, rfl⟩ : ∃ k, depth = k + 1 := ⟨depth - 1, by omega⟩
    rw [Forest.tops, harvest_leaf hn hcontent, Forest.Any]
    rcases List.mem_cons.1 hi with rfl | hi
    · rcases hp with ⟨u, hu, -⟩ | ⟨m, hm, hq⟩
      · rw [hnone] at hu
        exact absurd hu (by simp)
      · obtain rfl := Option.some.inj (hl.symm.trans hm)
        exact Or.inl hq
    · exact Or.inr (ih h.2 hd.2 hi)

theorem Store.openTag_infix_render (xhtml : Bool) (h : s.Owns f) (hd : f.height ≤ depth) {t : Tag}
    (hi : i ∈ f.labels) (ht : s.tag? i = some t) :
    openTag t <:+: render xhtml (s.harvest depth f.tops) := by
  have hany : (s.harvest depth f.tops).Any (· = t) fun _ => False :=
    any_harvest h hd hi (Or.inl ⟨t, ht, rfl⟩)
  exact infix_render_of_any xhtml
    (hany.mono (fun u hu => hu ▸ List.infix_rfl) fun _ hl => hl.elim)

end Harvest

end InlineBinding.Linked
