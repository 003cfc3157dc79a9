import InlineBinding.Binding.Scan
import InlineBinding.Proofs.Linked.Held

/-! # What a scan is to do

The bound places of a document and the clauses for them are read off the document as it is before
the scan.  A text is anchored at the node before it, where that is an element or has been wrapped,
else at its parent or the next element; a text that finds none of these goes into a wrapper.
-/
namespace InlineBinding.Binding
open Linked Markup

/-- A value or a text with a binding. -/
inductive Site where
  | attr (element : Id) (name value : Text)
  | text (node : Id) (data : Text)

def Site.node : Site → Id
  | attr i _ _ => i
  | text i _ => i

/-- An element of the document, or the wrapper around one of its texts. -/
inductive Anchor where
  | element (i : Id)
  | around (i : Id)
  deriving DecidableEq

/-- The identity of an anchor, when `w` says which wrappers there are. -/
def Anchor.id? (w : Id → Option Id) : Anchor → Option Id
  | element i => some i
  | around i => w i

/-- A bound place together with the element that gets its clause. -/
inductive Attachment where
  | attr (element : Id) (name value : Text)
  | text (node : Id) (data : Text) (anchor : Anchor) (place : Place)
  deriving DecidableEq

namespace Attachment

def site : Attachment → Site
  | attr i name value => .attr i name value
  | text i data _ _ => .text i data

def anchor : Attachment → Anchor
  | attr i _ _ => .element i
  | text _ _ a _ => a

/-- The text that is compiled. -/
def source : Attachment → Text
  | attr _ _ value => value
  | text _ data _ _ => data

def handler (d : Dialect) : Attachment → Text
  | attr _ name _ => d.attributeHandler name
  | text _ _ _ place => d.textHandler place

end Attachment

/-- What stands before a node among its siblings. -/
inductive Before where
  | nothing
  | anchor (a : Anchor)
  | leaf

def textAnchor (owner : Option Id) (before : Before) (rest : Shape) (i : Id) : Anchor × Place :=
  match before with
  | .anchor a => (a, .next)
  | .leaf => (.around i, .first)
  | .nothing =>
    match owner, rest with
    | some p, _ => (.element p, .first)
    | none, .element j _ _ => (.element j, .prev)
    | none, _ => (.around i, .first)

/-- What a text is for the one behind it. -/
def Before.ofText (i : Id) (a : Anchor) : Before := if a = .around i then .anchor a else .leaf

namespace Scan

variable (s : Scan) (store : Store)

def isBound (a : Text × Value) : Option (Text × Text) :=
  if s.skipped.contains (Text.lower a.1) then none
  else match a.2 with
    | .text value => if s.delimiters.hasBindings value then some (a.1, value) else none
    | _ => none

/-- The names and values of the bound attributes. -/
def boundAttributes (i : Id) : List (Text × Text) :=
  match store.tag? i with
  | none => []
  | some t => if t.kind = .plain then t.attributes.filterMap s.isBound else []

def isRaw (owner : Option Id) : Bool := (owner.bind store.tag?).any fun t => isRawText t.kind

/-- A bound text outside of scripts and styles. -/
def boundText? (owner : Option Id) (i : Id) : Option Text :=
  match store.leaf? i with
  | none => none
  | some l =>
    if l.kind = .text ∧ isRaw store owner = false ∧ s.delimiters.hasBindings l.data then some l.data
    else none

/-- The bound places in document order. -/
def sites : (owner : Option Id) → Shape → List Site
  | _, .nil => []
  | owner, .element i cs rest =>
    (s.boundAttributes store i).map (fun a => .attr i a.1 a.2) ++
      (sites (some i) cs ++ sites owner rest)
  | owner, .leaf i rest =>
    match s.boundText? store owner i with
    | none => sites owner rest
    | some data => .text i data :: sites owner rest

/-- The bound places with their anchors. -/
def attachments : (owner : Option Id) → (before : Before) → Shape → List Attachment
  | _, _, .nil => []
  | owner, _, .element i cs rest =>
    (s.boundAttributes store i).map (fun a => .attr i a.1 a.2) ++
      (attachments (some i) .nothing cs ++ attachments owner (.anchor (.element i)) rest)
  | owner, before, .leaf i rest =>
    match s.boundText? store owner i with
    | none => attachments owner .leaf rest
    | some data =>
      let (a, place) := textAnchor owner before rest i
      .text i data a place :: attachments owner (.ofText i a) rest

variable {s store}

theorem map_site_attachments (owner : Option Id) (before : Before) (f : Shape) :
    (s.attachments store owner before f).map Attachment.site = s.sites store owner f := by
  induction f generalizing owner before with
  | nil => rfl
  | element i cs rest ihc ihr =>
    rw [attachments, List.map_append, List.map_append, List.map_map, ihc, ihr, sites]
    rfl
  | leaf i rest ih =>
    rw [attachments, sites]
    cases s.boundText? store owner i with
    | none => exact ih owner .leaf
    | some data => exact congrArg (Site.text i data :: ·) (ih owner _)

theorem boundText?_eq_some_iff {owner : Option Id} {i : Id} {data : Text} :
    s.boundText? store owner i = some data ↔ store.leaf? i = some ⟨.text, data⟩ ∧
      isRaw store owner = false ∧ s.delimiters.hasBindings data = true := by
  rw [boundText?]
  cases store.leaf? i with
  | none => simp
  | some l =>
    dsimp only
    constructor
    · intro h
      split at h
      · rename_i hb
        obtain rfl := Option.some.inj h
        exact ⟨congrArg (fun k => some (Leaf.mk k l.data)) hb.1, hb.2⟩
      · exact absurd h (by simp)
    · rintro ⟨hl, hb⟩
      obtain rfl := Option.some.inj hl
      exact if_pos ⟨rfl, hb⟩

/-! ## What has been attached -/

/-- The places `xs` among the siblings `f` are attached. A directive that is not skipped may have
changed an element's bound attributes before they are read. -/
inductive Makes (s : Scan) (store : Store) :
    Option Id → Before → Shape → List Attachment → Prop where
  | nil (owner : Option Id) (before : Before) : Makes s store owner before .nil []
  | element {owner : Option Id} (before : Before) {i : Id} {cs rest : Shape}
      {xs ys : List Attachment} (as : List (Text × Text))
      (has : s.skipped.contains (Text.lower s.attacher.directiveName) = true →
        as = s.boundAttributes store i)
      (hcs : Makes s store (some i) .nothing cs xs)
      (hrest : Makes s store owner (.anchor (.element i)) rest ys) :
      Makes s store owner before (.element i cs rest)
        (as.map (fun a => .attr i a.1 a.2) ++ (xs ++ ys))
  | idle {owner : Option Id} (before : Before) {i : Id} {rest : Shape} {xs : List Attachment}
      (hi : s.boundText? store owner i = none) (hrest : Makes s store owner .leaf rest xs) :
      Makes s store owner before (.leaf i rest) xs
  | bound {owner : Option Id} {before : Before} {i : Id} {rest : Shape} {xs : List Attachment}
      {data : Text} (hi : s.boundText? store owner i = some data)
      (hrest : Makes s store owner (.ofText i (textAnchor owner before rest i).1) rest xs) :
      Makes s store owner before (.leaf i rest)
        (.text i data (textAnchor owner before rest i).1 (textAnchor owner before rest i).2 :: xs)

/-- With its directive skipped, a scan attaches what is bound before it. -/
theorem Makes.eq_attachments {owner : Option Id} {before : Before} {f : Shape}
    {xs : List Attachment} (h : s.Makes store owner before f xs)
    (hskip : s.skipped.contains (Text.lower s.attacher.directiveName) = true) :
    xs = s.attachments store owner before f := by
  induction h with
  | nil owner before => rfl
  | element before as has _ _ ihc ihr => rw [attachments, has hskip, ihc, ihr]
  | idle before hi _ ih => rw [attachments, hi, ih]
  | bound hi _ ih => rw [attachments, hi, ih]

theorem makes_attachments (owner : Option Id) (before : Before) (f : Shape) :
    s.Makes store owner before f (s.attachments store owner before f) := by
  induction f generalizing owner before with
  | nil => exact .nil owner before
  | element i cs rest ihc ihr =>
    rw [attachments]
    exact .element before _ (fun _ => rfl) (ihc _ _) (ihr _ _)
  | leaf i rest ih =>
    cases hb : s.boundText? store owner i with
    | none =>
      rw [attachments, hb]
      exact .idle before hb (ih _ _)
    | some data =>
      rw [attachments, hb]
      exact .bound hb (ih _ _)

theorem Makes.node_mem {owner : Option Id} {before : Before} {f : Shape} {xs : List Attachment}
    (h : s.Makes store owner before f xs) {x : Attachment} (hx : x ∈ xs) :
    x.site.node ∈ f.labels := by
  induction h with
  | nil owner before => exact absurd hx List.not_mem_nil
  | element before as has _ _ ihc ihr =>
    rw [Forest.labels, List.mem_cons, List.mem_append]
    rw [List.mem_append, List.mem_append, List.mem_map] at hx
    rcases hx with ⟨a, -, rfl⟩ | hx | hx
    · exact Or.inl rfl
    · exact Or.inr (Or.inl (ihc hx))
    · exact Or.inr (Or.inr (ihr hx))
  | idle before hi _ ih => exact List.mem_cons_of_mem _ (ih hx)
  | bound hi _ ih =>
    rcases List.mem_cons.1 hx with rfl | hx
    · exact List.mem_cons_self
    · exact List.mem_cons_of_mem _ (ih hx)

/-! ## What a clause changes -/

def clause (s : Scan) (x : Attachment) : Text :=
  s.attacher.dialect.clause (x.handler s.attacher.dialect)
    (s.attacher.compile (s.delimiters.split x.source)).expression

def placeholder (s : Scan) (x : Attachment) : Text :=
  (s.attacher.compile (s.delimiters.split x.source)).placeholder

end Scan

/-- The directive as a text; none is an empty one. -/
def Attacher.directiveText (a : Attacher) (t : Tag) : Text :=
  match t.attributes.get? a.directiveName with
  | some (.text v) => v
  | _ => []

namespace Scan

variable (s : Scan)

/-- The tag of the anchor, when the clause has been pushed and an attribute has been replaced. -/
def attached (x : Attachment) (t : Tag) : Tag :=
  let pushed := t.attributes.set s.attacher.directiveName
    (.text (Attacher.extend (s.attacher.directiveText t) (s.clause x)))
  match x with
  | .attr _ name _ => { t with attributes := pushed.set name (.text (s.placeholder x)) }
  | .text _ _ _ _ => { t with attributes := pushed }

/-- The tag of an anchor after a series of attachments. -/
def tagAfter (xs : List Attachment) (a : Anchor) (t : Tag) : Tag :=
  xs.foldl (fun t x => if x.anchor = a then s.attached x t else t) t

/-- A text is replaced by its placeholder. -/
def replaced (x : Attachment) (i : Id) (l : Leaf) : Leaf :=
  match x with
  | .attr _ _ _ => l
  | .text j _ _ _ => if j = i then { l with data := s.placeholder x } else l

def leafAfter (xs : List Attachment) (i : Id) (l : Leaf) : Leaf :=
  xs.foldl (fun l x => s.replaced x i l) l

variable {s}

theorem kind_attached (x : Attachment) (t : Tag) : (s.attached x t).kind = t.kind := by
  cases x <;> rfl

theorem tagAfter_cons (x : Attachment) (xs : List Attachment) (a : Anchor) (t : Tag) :
    s.tagAfter (x :: xs) a t = s.tagAfter xs a (if x.anchor = a then s.attached x t else t) := rfl

theorem leafAfter_cons (x : Attachment) (xs : List Attachment) (i : Id) (l : Leaf) :
    s.leafAfter (x :: xs) i l = s.leafAfter xs i (s.replaced x i l) := rfl

theorem tagAfter_append (xs ys : List Attachment) (a : Anchor) (t : Tag) :
    s.tagAfter (xs ++ ys) a t = s.tagAfter ys a (s.tagAfter xs a t) :=
  List.foldl_append

theorem leafAfter_append (xs ys : List Attachment) (i : Id) (l : Leaf) :
    s.leafAfter (xs ++ ys) i l = s.leafAfter ys i (s.leafAfter xs i l) :=
  List.foldl_append

theorem kind_tagAfter (xs : List Attachment) (a : Anchor) (t : Tag) :
    (s.tagAfter xs a t).kind = t.kind := by
  induction xs generalizing t with
  | nil => rfl
  | cons x xs ih =>
    rw [tagAfter_cons, ih]
    split
    · exact kind_attached x t
    · rfl

/-- What holds of attributes when texts are set in them holds after attachments. -/
theorem attributes_tagAfter {P : Attributes → Prop}
    (hset : ∀ as name v, P as → P (as.set name (.text v))) (xs : List Attachment) (a : Anchor)
    {t : Tag} (ht : P t.attributes) : P (s.tagAfter xs a t).attributes := by
  induction xs generalizing t with
  | nil => exact ht
  | cons x xs ih =>
    rw [tagAfter_cons]
    split
    · refine ih ?_
      cases x with
      | attr i name value => exact hset _ _ _ (hset _ _ _ ht)
      | text i data b place => exact hset _ _ _ ht
    · exact ih ht

theorem tagAfter_of_ne {xs : List Attachment} {a : Anchor} (h : ∀ x ∈ xs, x.anchor ≠ a) (t : Tag) :
    s.tagAfter xs a t = t := by
  induction xs generalizing t with
  | nil => rfl
  | cons x xs ih =>
    rw [tagAfter_cons, if_neg (h x List.mem_cons_self),
      ih fun y hy => h y (List.mem_cons_of_mem x hy)]

theorem leafAfter_of_notMem {xs : List Attachment} {i : Id}
    (h : ∀ x ∈ xs, x.site.node ≠ i) (l : Leaf) : s.leafAfter xs i l = l := by
  induction xs generalizing l with
  | nil => rfl
  | cons x xs ih =>
    have hx : s.replaced x i l = l := by
      cases x with
      | attr j name value => rfl
      | text j data a place => exact if_neg (h _ List.mem_cons_self)
    rw [leafAfter_cons, hx, ih fun y hy => h y (List.mem_cons_of_mem x hy)]

/-- What is skipped in a list of attributes does not change their bound ones. -/
theorem filterMap_set {as : Attributes} {name : Text}
    (h : s.skipped.contains (Text.lower name) = true) (v : Value) :
    (as.set name v).filterMap s.isBound = as.filterMap s.isBound := by
  have hn (v : Value) : s.isBound (name, v) = none := if_pos h
  induction as with
  | nil => rw [Attributes.set, List.filterMap_cons_none (hn v)]
  | cons a as ih =>
    rw [Attributes.set]
    split
    · rename_i ha
      obtain ⟨k, u⟩ := a
      obtain rfl : k = name := ha
      rw [List.filterMap_cons_none (hn v), List.filterMap_cons_none (hn u)]
    · rw [List.filterMap_cons, List.filterMap_cons, ih]

/-- An anchor without attributes to attach gets clauses only. -/
theorem filterMap_tagAfter {xs : List Attachment} {a : Anchor}
    (hd : s.skipped.contains (Text.lower s.attacher.directiveName) = true)
    (h : ∀ i name value, .attr i name value ∈ xs → .element i ≠ a) (t : Tag) :
    (s.tagAfter xs a t).attributes.filterMap s.isBound = t.attributes.filterMap s.isBound := by
  induction xs generalizing t with
  | nil => rfl
  | cons x xs ih =>
    rw [tagAfter_cons, ih fun i name value hx => h i name value (List.mem_cons_of_mem x hx)]
    split
    · rename_i ha
      cases x with
      | attr j name value => exact absurd ha (h j name value List.mem_cons_self)
      | text j data b place => exact filterMap_set hd _
    · rfl

/-- Before an element is reached, only its directive has changed. -/
theorem boundAttributes_tagAfter {xs : List Attachment} {i : Id}
    (hd : s.skipped.contains (Text.lower s.attacher.directiveName) = true)
    (h : ∀ x ∈ xs, x.site.node ≠ i) (t : Tag) :
    (s.tagAfter xs (.element i) t).attributes.filterMap s.isBound =
      t.attributes.filterMap s.isBound :=
  filterMap_tagAfter hd (fun _ _ _ hx he => h _ hx (Anchor.element.inj he)) t

end Scan
end InlineBinding.Binding
