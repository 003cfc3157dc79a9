import InlineBinding.Proofs.Linked.Wrapping
import Mathlib.Logic.Function.Basic
import Mathlib.Order.Lattice

/-!
# Sibling lists are doubly linked

Linking overwrites whatever links the members of a list had, and touches no other node. So a list
of different nodes is doubly linked once it is spliced, and stays so for as long as no other list
takes one of its members.
-/
namespace InlineBinding.Linked

/-! ## Slices -/

/-- The position that a bound names; below zero it counts from the end. It may lie outside the
list. -/
def position (length : ℕ) (bound : Int) : Int := if bound < 0 then bound + length else bound

/-- `ids` is `old` with `new` in the place of the members from `index` up to `index + count`. -/
def IsSlice {α : Type} (index count : Int) (new old ids : List α) : Prop :=
  ∃ front removed behind, old = front ++ removed ++ behind ∧ ids = front ++ new ++ behind ∧
    ∀ k < old.length,
      (k < front.length ↔ (k : Int) < position old.length index) ∧
      (front.length ≤ k ∧ k < (front ++ removed).length ↔
        position old.length index ≤ k ∧ (k : Int) < position old.length (index + count))

theorem lt_clampIndex_iff {length k : ℕ} (hk : k < length) (bound : Int) :
    k < clampIndex length bound ↔ (k : Int) < position length bound := by
  unfold clampIndex position
  split <;> omega

theorem isSlice_replaceSlice {α : Type} (index count : Int) (new old : List α) :
    IsSlice index count new old (replaceSlice index count new old) := by
  let first := clampIndex old.length index
  let last := max first (clampIndex old.length (index + count))
  have hle : first ≤ last := Nat.le_max_left _ _
  have hlast : last ≤ old.length :=
    Nat.max_le.2 ⟨clampIndex_le old.length index, clampIndex_le old.length _⟩
  have hremoved : old.take first ++ (old.take last).drop first = old.take last := by
    have hsplit := List.take_append_drop first (old.take last)
    rwa [List.take_take, Nat.min_eq_left hle] at hsplit
  refine ⟨old.take first, (old.take last).drop first, old.drop last, ?_, rfl, fun k hk => ?_⟩
  · rw [hremoved, List.take_append_drop]
  · have hi := lt_clampIndex_iff hk index
    have hj := lt_clampIndex_iff hk (index + count)
    -- with the bounds moved into the list, all of this is about numbers
    rw [hremoved, List.length_take, List.length_take, ← hj, ← Int.not_lt, ← hi]
    omega

namespace Store

variable {s s' : Store} {owner : Option Id}

/-! ## Links of members -/

/-- Every member has the parent, and its links lead to its neighbours in the list. -/
def DoublyLinked (s : Store) (parent : Option Id) (ids : List Id) : Prop :=
  ∀ before i after, ids = before ++ i :: after →
    s.links? i = some ⟨parent, before.getLast?, after.head?⟩

/-- What a member's links were does not matter. -/
theorem links?_linkFrom_mem {prev : Option Id} {before after : List Id} {i : Id}
    (hn : (before ++ i :: after).Nodup) (hp : ∀ p, prev = some p → p ∉ before ++ i :: after) :
    (linkFrom owner prev (before ++ i :: after) s).links? i =
      (s.links? i).map fun _ => ⟨owner, before.getLast?.or prev, after.head?⟩ := by
  -- the member's own step sets its links, and only the step of the next one changes them again
  induction before generalizing prev s with
  | nil =>
    have hpi : prev ≠ some i := fun he => hp i he List.mem_cons_self
    rw [List.nil_append, linkFrom_cons, links?_linkFrom_prev (List.nodup_cons.1 hn).1,
      links?_linkNext_self s hpi, Option.map_map]
    simp [Function.comp_def]
  | cons b before ih =>
    rw [List.cons_append, List.nodup_cons] at hn
    have hmem : i ∈ before ++ i :: after := by simp
    have hpi : prev ≠ some i := fun he => hp i he (List.mem_cons_of_mem b hmem)
    have hbi : b ≠ i := fun he => hn.1 (he ▸ hmem)
    rw [List.cons_append, linkFrom_cons, ih hn.2 fun p he => Option.some.inj he ▸ hn.1,
      links?_linkNext_of_ne s hbi hpi, List.getLast?_cons]
    cases before.getLast? <;> rfl

theorem doublyLinked_link {ids : List Id} (hn : ids.Nodup) (hs : ∀ i ∈ ids, i < s.size) :
    (s.link owner ids).DoublyLinked owner ids := by
  rintro before i after rfl
  rw [link, links?_linkFrom_mem hn fun p he => absurd he (by simp), Option.or_none]
  cases hl : s.links? i with
  | some l => rfl
  | none =>
    rw [links?, Option.map_eq_none_iff, get?_eq_none_iff] at hl
    exact absurd (hs i (by simp)) (Nat.not_lt.2 hl)

theorem links?_link_of_notMem {ids : List Id} {j : Id} (hj : j ∉ ids) :
    (s.link owner ids).links? j = s.links? j :=
  links?_linkFrom_of_notMem hj (by simp)

theorem DoublyLinked.congr {ids : List Id} (h : s.DoublyLinked owner ids)
    (he : ∀ i ∈ ids, s'.links? i = s.links? i) : s'.DoublyLinked owner ids := by
  rintro before i after rfl
  rw [he i (by simp)]
  exact h before i after rfl

@[simp] theorem size_link (s : Store) (ids : List Id) : (s.link owner ids).size = s.size :=
  size_linkFrom owner none ids s

theorem parts?_of_tag? {i : Id} (h : (s.tag? i).isSome = true) :
    ∃ cs, s.parts? i = some (some cs) := by
  cases hp : s.parts? i with
  | none =>
    rw [tag?_eq, Option.map_eq_none_iff.1 hp] at h
    exact absurd h (by simp)
  | some part =>
    cases part with
    | none =>
      obtain ⟨n, l, -, -, -, ht⟩ := leaf?_of_parts? hp
      rw [ht] at h
      exact absurd h (by simp)
    | some cs => exact ⟨cs, rfl⟩

/-! ### What linking depends on -/

theorem links?_update_congr (h : s.links? = s'.links?) (i : Id) {f : Node → Node}
    {g : Links → Links} (hf : ∀ n, (f n).links = g n.links) :
    (s.update i f).links? = (s'.update i f).links? := by
  funext j
  have hs : s.links? j = s'.links? j := congrFun h j
  unfold links? at hs ⊢
  rw [map_get?_update_of s i j Node.links hf, map_get?_update_of s' i j Node.links hf, hs]

/-- Contents of the nodes do not matter. -/
theorem links?_linkFrom_congr {prev : Option Id} {ids : List Id} (h : s.links? = s'.links?) :
    (linkFrom owner prev ids s).links? = (linkFrom owner prev ids s').links? := by
  induction ids generalizing prev s s' with
  | nil => exact h
  | cons i ids ih =>
    rw [linkFrom_cons, linkFrom_cons]
    apply ih
    cases prev with
    | none => exact links?_update_congr h i (g := fun _ => ⟨owner, none, none⟩) fun _ => rfl
    | some p =>
      refine links?_update_congr ?_ p (g := fun l => { l with next := some i }) fun _ => rfl
      exact links?_update_congr h i (g := fun _ => ⟨owner, some p, none⟩) fun _ => rfl

end Store

/-! ## Splices of several lists -/

/-- Sibling lists under names. A list need not be that of the parent which its members get. -/
structure Lists (ι : Type) where
  store : Store
  ids : ι → List Id

/-- `new` in the place of `count` members of a list, all of which get the parent. -/
structure Splice (ι : Type) where
  list : ι
  index : Int
  count : Int
  new : List Id
  parent : Option Id

variable {ι : Type}

/-- The list that a splice leaves; these are the nodes that it links. -/
def Splice.result (c : Splice ι) (d : Lists ι) : List Id :=
  replaceSlice c.index c.count c.new (d.ids c.list)

namespace Lists

variable [DecidableEq ι]

def splice (d : Lists ι) (c : Splice ι) : Lists ι :=
  ⟨d.store.link c.parent (c.result d), Function.update d.ids c.list (c.result d)⟩

def run (d : Lists ι) (cs : List (Splice ι)) : Lists ι := cs.foldl splice d

/-- All nodes that some splices link. -/
def linked (d : Lists ι) : List (Splice ι) → List Id
  | [] => []
  | c :: cs => c.result d ++ linked (d.splice c) cs

variable {d : Lists ι} {c : Splice ι} {cs : List (Splice ι)}

theorem run_append (d : Lists ι) (cs cs' : List (Splice ι)) :
    d.run (cs ++ cs') = (d.run cs).run cs' := List.foldl_append

theorem size_run (d : Lists ι) (cs : List (Splice ι)) : (d.run cs).store.size = d.store.size := by
  induction cs generalizing d with
  | nil => rfl
  | cons c cs ih => exact (ih (d.splice c)).trans (Store.size_link d.store _)

theorem ids_splice_self (d : Lists ι) (c : Splice ι) : (d.splice c).ids c.list = c.result d :=
  Function.update_self _ _ _

theorem ids_run_of_ne {list : ι} (h : ∀ c ∈ cs, c.list ≠ list) :
    (d.run cs).ids list = d.ids list := by
  induction cs generalizing d with
  | nil => rfl
  | cons c cs ih =>
    rw [List.forall_mem_cons] at h
    exact (ih h.2).trans (Function.update_of_ne (Ne.symm h.1) _ _)

theorem links?_run_of_notMem {i : Id} (h : i ∉ d.linked cs) :
    (d.run cs).store.links? i = d.store.links? i := by
  induction cs generalizing d with
  | nil => rfl
  | cons c cs ih =>
    rw [linked, List.mem_append, not_or] at h
    exact (ih h.2).trans (Store.links?_link_of_notMem h.1)

/-- A list of different nodes is doubly linked when it has been spliced. -/
theorem doublyLinked_splice (hn : (c.result d).Nodup) (hs : ∀ i ∈ c.result d, i < d.store.size) :
    (d.splice c).store.DoublyLinked c.parent ((d.splice c).ids c.list) := by
  rw [ids_splice_self]
  exact Store.doublyLinked_link hn hs

/-- It stays doubly linked while other lists are spliced that take none of its members. -/
theorem doublyLinked_run {parent : Option Id} {list : ι}
    (h : d.store.DoublyLinked parent (d.ids list)) (hlist : ∀ c ∈ cs, c.list ≠ list)
    (hfree : ∀ i ∈ d.ids list, i ∉ d.linked cs) :
    (d.run cs).store.DoublyLinked parent ((d.run cs).ids list) := by
  rw [ids_run_of_ne hlist]
  exact h.congr fun i hi => links?_run_of_notMem (hfree i hi)

end Lists

/-! ## Lists of a document -/

namespace Document

/-- The lists of a document by their owners. -/
def lists (d : Document) : Lists (Option Id) := ⟨d.store, d.siblings⟩

def Holds (d : Document) : (owner : Option Id) → Prop
  | none => True
  | some i => (d.store.tag? i).isSome = true

/-- Splices of lists whose owners become the parents. -/
def run (d : Document) (cs : List (Splice (Option Id))) : Document :=
  cs.foldl (fun d c => d.splice c.list c.index c.count c.new) d

variable {d : Document} {owner : Option Id}

theorem siblings_splice (h : d.Holds owner) (index count : Int) (new : List Id) :
    (d.splice owner index count new).siblings =
      Function.update d.siblings owner (replaceSlice index count new (d.siblings owner)) := by
  funext o
  by_cases ho : o = owner
  · subst ho
    rw [Function.update_self]
    cases o with
    | none => rfl
    | some p =>
      obtain ⟨cs, hcs⟩ := Store.parts?_of_tag? h
      rw [splice, siblings, Store.children_eq, Store.parts?_link, parts?_setSiblings, if_pos rfl,
        hcs]
      rfl
  · rw [Function.update_of_ne ho, splice]
    cases o with
    | none =>
      obtain ⟨p, rfl⟩ := Option.ne_none_iff_exists'.1 (Ne.symm ho)
      rfl
    | some i =>
      rw [siblings, Store.children_eq, Store.parts?_link, parts?_setSiblings,
        if_neg (Ne.symm ho), ← Store.children_eq]
      rfl

theorem links?_splice (d : Document) (owner : Option Id) (index count : Int) (new : List Id) :
    (d.splice owner index count new).store.links? =
      (d.store.link owner (replaceSlice index count new (d.siblings owner))).links? :=
  Store.links?_linkFrom_congr (funext fun j => links?_setSiblings d _ owner j)

theorem holds_splice (d : Document) (owner : Option Id) (index count : Int) (new : List Id)
    (o : Option Id) : (d.splice owner index count new).Holds o ↔ d.Holds o := by
  cases o with
  | none => exact Iff.rfl
  | some i => rw [Holds, Holds, splice, Store.tag?_link, tag?_setSiblings]

/-- A document splices its lists as they are spliced on their own. -/
theorem run_eq {cs : List (Splice (Option Id))} (h : ∀ c ∈ cs, c.parent = c.list ∧ d.Holds c.list)
    {l : Lists (Option Id)} (hids : l.ids = d.siblings) (hlinks : l.store.links? = d.store.links?) :
    (d.run cs).siblings = (l.run cs).ids ∧ (d.run cs).store.links? = (l.run cs).store.links? := by
  induction cs generalizing d l with
  | nil => exact ⟨hids.symm, hlinks.symm⟩
  | cons c cs ih =>
    rw [List.forall_mem_cons] at h
    obtain ⟨⟨hparent, hholds⟩, hlater⟩ := h
    refine ih (fun e he => ?_) ?_ ?_
    · rw [holds_splice]
      exact hlater e he
    · rw [siblings_splice hholds, Lists.splice, Splice.result, hids]
    · rw [links?_splice, Lists.splice, Splice.result, hids, hparent]
      exact Store.links?_linkFrom_congr hlinks

end Document

/-! ## The whole -/

namespace Lists

variable [DecidableEq ι]

/-- After some splices a list is the slice assignment of its last splice. It is doubly linked below
the parent given there if its members are different and no list has taken one of them since. Nodes
outside it keep their links in that splice, and nodes that no splice put into a list keep theirs in
all of them. A document splices the lists of its owners in the same way. -/
theorem doublyLinked_of_spliced (d : Lists ι) (before after : List (Splice ι)) (c : Splice ι)
    (hnodup : (c.result (d.run before)).Nodup)
    (hnodes : ∀ i ∈ c.result (d.run before), i < d.store.size)
    (hlist : ∀ e ∈ after, e.list ≠ c.list)
    (hfree : ∀ i ∈ c.result (d.run before), i ∉ ((d.run before).splice c).linked after) :
    let start := d.run before
    let last := d.run (before ++ c :: after)
    IsSlice c.index c.count c.new (start.ids c.list) (last.ids c.list) ∧
      last.store.DoublyLinked c.parent (last.ids c.list) ∧
      (∀ i ∉ last.ids c.list, (start.splice c).store.links? i = start.store.links? i) ∧
      (∀ i ∉ d.linked (before ++ c :: after), last.store.links? i = d.store.links? i) ∧
      ∀ (t : Document) (cs : List (Splice (Option Id))),
        (∀ e ∈ cs, e.parent = e.list ∧ t.Holds e.list) →
          (t.run cs).siblings = (t.lists.run cs).ids ∧
            (t.run cs).store.links? = (t.lists.run cs).store.links? := by
  intro start last
  have hlast : last = (start.splice c).run after := run_append d before (c :: after)
  have hids : last.ids c.list = c.result start := by
    rw [hlast, ids_run_of_ne hlist, ids_splice_self]
  refine ⟨?_, ?_, fun i hi => ?_, fun i hi => links?_run_of_notMem hi,
    fun t cs hcs => Document.run_eq hcs rfl rfl⟩
  · rw [hids]
    exact isSlice_replaceSlice _ _ _ _
  · rw [hlast]
    refine doublyLinked_run (doublyLinked_splice hnodup fun i hi => ?_) hlist ?_
    · rw [size_run]
      exact hnodes i hi
    · rwa [ids_splice_self]
  · rw [hids] at hi
    exact Store.links?_link_of_notMem hi

/-- An element, three texts and two lists: two of the texts are in the first one. -/
def drawers : Lists Bool where
  store := ⟨#[Node.unlinked (.element ⟨"p".toList, .plain, []⟩ []),
    Node.unlinked (.leaf ⟨.text, "a".toList⟩), Node.unlinked (.leaf ⟨.text, "b".toList⟩),
    Node.unlinked (.leaf ⟨.text, "c".toList⟩)]⟩
  ids list := if list then [] else [1, 2]

/-- A text goes from one list, which still has it, to the end of the other one, and what stood there
goes the other way. -/
theorem doublyLinked_of_spliced_drawers :
    let before : List (Splice Bool) := [⟨true, 0, 0, [3], none⟩]
    let c : Splice Bool := ⟨false, -1, 5, [3], some 0⟩
    let after : List (Splice Bool) := [⟨true, -7, 9, [2], none⟩]
    let last := drawers.run (before ++ c :: after)
    last.ids false = [1, 3] ∧ last.ids true = [2] ∧
      last.store.links? 1 = some ⟨some 0, none, some 3⟩ ∧
      last.store.links? 3 = some ⟨some 0, some 1, none⟩ := by
  intro before c after last
  have hresult : c.result (drawers.run before) = [1, 3] := by decide +kernel
  have hids : last.ids false = [1, 3] := by decide +kernel
  have hlinked : ((drawers.run before).splice c).linked after = [2] := by decide +kernel
  obtain ⟨-, hlinks, -⟩ := doublyLinked_of_spliced drawers before after c
    (hresult ▸ by decide) (hresult ▸ by decide) (by decide) (by rw [hresult, hlinked]; decide)
  exact ⟨hids, by decide +kernel, hlinks [] 1 [3] hids, hlinks [1] 3 [] hids⟩

end Lists

end InlineBinding.Linked
