import InlineBinding.Proofs.Binding.Attachments

/-! # What a scan attaches, whatever it skips

A scan that does not skip its own directive reads it as the attachments before have left it.  That
matters for one element at most: only a text at the very beginning of a document gives its clause to
an element that the walk has not reached yet.
-/
namespace InlineBinding.Binding
open Linked Markup

namespace Scan

section Definitions

variable (s : Scan) (store : Store)

/-- The bound attributes of an element that is reached after the attachments `done`. -/
def boundAttributesAfter (done : List Attachment) (i : Id) : List (Text × Text) :=
  match store.tag? i with
  | none => []
  | some t =>
    if t.kind = .plain then (s.tagAfter done (.element i) t).attributes.filterMap s.isBound else []

def ownAttachments (done : List Attachment) (i : Id) : List Attachment :=
  (s.boundAttributesAfter store done i).map fun a => .attr i a.1 a.2

/-- What is attached among some siblings after the attachments `done`. -/
def gathered : (done : List Attachment) → (owner : Option Id) → (before : Before) → Shape →
    List Attachment
  | _, _, _, .nil => []
  | done, owner, _, .element i cs rest =>
    let own := s.ownAttachments store done i
    let below := gathered (done ++ own) (some i) .nothing cs
    own ++ (below ++ gathered (done ++ own ++ below) owner (.anchor (.element i)) rest)
  | done, owner, before, .leaf i rest =>
    match s.boundText? store owner i with
    | none => gathered done owner .leaf rest
    | some data =>
      let (a, place) := textAnchor owner before rest i
      .text i data a place ::
        gathered (done ++ [.text i data a place]) owner (.ofText i a) rest

end Definitions

variable {s : Scan} {store : Store} {done : List Attachment} {owner : Option Id} {before : Before}

theorem node_of_mem_ownAttachments {x : Attachment} {i : Id}
    (hx : x ∈ s.ownAttachments store done i) : x.site.node = i := by
  obtain ⟨a, -, rfl⟩ := List.mem_map.1 hx
  rfl

theorem gathered_leaf_of_none {i : Id} (h : s.boundText? store owner i = none) (rest : Shape) :
    s.gathered store done owner before (.leaf i rest) = s.gathered store done owner .leaf rest := by
  rw [gathered, h]

theorem gathered_leaf_of_some {i : Id} {data : Text} (h : s.boundText? store owner i = some data)
    (rest : Shape) :
    let x := .text i data (textAnchor owner before rest i).1 (textAnchor owner before rest i).2
    s.gathered store done owner before (.leaf i rest) =
      x :: s.gathered store (done ++ [x]) owner (.ofText i (textAnchor owner before rest i).1)
        rest := by
  intro x
  rw [gathered, h]

/-- Skipped or not, what is gathered are attachments among the siblings. -/
theorem makes_gathered {f : Shape} (hf : f.labels.Nodup)
    (hx : ∀ x ∈ done, x.site.node ∉ f.labels) :
    s.Makes store owner before f (s.gathered store done owner before f) := by
  induction f generalizing done owner before with
  | nil => exact .nil owner before
  | element i cs rest ihc ihr =>
    obtain ⟨hic, hir, hc, hr, hcr⟩ := Forest.nodup_element hf
    have hdone : ∀ x ∈ done, x.site.node ≠ i ∧ x.site.node ∉ cs.labels ∧
        x.site.node ∉ rest.labels := by
      intro x h
      simpa [Forest.labels] using hx x h
    have hbelow : s.Makes store (some i) .nothing cs
        (s.gathered store (done ++ s.ownAttachments store done i) (some i) .nothing cs) := by
      refine ihc hc fun x h => ?_
      rcases List.mem_append.1 h with h | h
      · exact (hdone x h).2.1
      · rwa [node_of_mem_ownAttachments h]
    rw [gathered]
    refine .element before _ (fun hskip => ?_) hbelow (ihr hr fun x h => ?_)
    · rw [boundAttributesAfter, boundAttributes]
      cases store.tag? i with
      | none => rfl
      | some t =>
        exact congrArg (if t.kind = .plain then · else [])
          (boundAttributes_tagAfter hskip (fun x h => (hdone x h).1) t)
    · rcases List.mem_append.1 h with h | h
      · rcases List.mem_append.1 h with h | h
        · exact (hdone x h).2.2
        · rwa [node_of_mem_ownAttachments h]
      · exact hcr _ (hbelow.node_mem h)
  | leaf i rest ih =>
    obtain ⟨hi, hr⟩ := List.nodup_cons.1 hf
    have hdone : ∀ x ∈ done, x.site.node ∉ rest.labels :=
      fun x h hm => hx x h (List.mem_cons_of_mem i hm)
    cases hb : s.boundText? store owner i with
    | none =>
      rw [gathered_leaf_of_none hb]
      exact .idle before hb (ih hr hdone)
    | some data =>
      rw [gathered_leaf_of_some hb]
      refine .bound hb (ih hr fun x h => ?_)
      rcases List.mem_append.1 h with h | h
      · exact hdone x h
      · rwa [List.mem_singleton.1 h]

end Scan
end InlineBinding.Binding
