import InlineBinding.Proofs.Html.Placed
import InlineBinding.Proofs.Markup.Skeleton

/-!
# Names in the tree

A name is looked up among all that look like tags, or like attributes in them, wherever they
stand. The first one with capitals that is the same name in lower case counts, for every tag of
that name. So a tag keeps its own spelling only if it is that one, or if there is none and it has
no capitals itself.
-/
namespace InlineBinding.Markup
open Text Html

/-! ## Tables of spellings -/

/-- The first of the names that has this lower case and is not the lower case itself. -/
def recalled (names : List Text) (key : Text) : Option Text :=
  names.find? fun n => lower n == key && n != key

/-- How a written name gets into the tree, by what is recalled for the key. -/
def carried (names : List Text) (key written : Text) : Text :=
  (recalled names key).getD (asciiLower written)

/-- It is the name that is recalled, or none is, and it has no ASCII capitals. -/
def KeepsSpelling (names : List Text) (key written : Text) : Prop :=
  recalled names key = some written ∨ recalled names key = none ∧ asciiLower written = written

instance (names : List Text) (key written : Text) : Decidable (KeepsSpelling names key written) :=
  inferInstanceAs (Decidable (_ ∨ _))

theorem carried_eq_self_iff {names : List Text} {key written : Text} :
    carried names key written = written ↔ KeepsSpelling names key written := by
  rw [carried, KeepsSpelling]
  cases recalled names key <;> simp

namespace Spellings

variable (s : Spellings)

theorem lookup_record (name key : Text) : (s.record name).lookup key =
    (s.lookup key).or (if lower name == key && name != key then some name else none) := by
  rw [record]
  split
  · rename_i h
    rw [Bool.or_eq_true, decide_eq_true_eq] at h
    split
    · rename_i hkey
      rw [Bool.and_eq_true, beq_iff_eq, bne_iff_ne] at hkey
      obtain ⟨rfl, hne⟩ := hkey
      refine (Option.or_of_isSome (List.lookup_isSome_iff.2 ?_)).symm
      obtain ⟨p, hp, he⟩ := List.any_eq_true.1 (h.resolve_left hne)
      exact ⟨p, hp, (BEq.comm).trans he⟩
    · exact Option.or_none.symm
  · rename_i h
    rw [Bool.or_eq_true, decide_eq_true_eq, not_or] at h
    have hlast : List.lookup key [(lower name, name)] =
        if lower name == key && name != key then some name else none := by
      rw [List.lookup_cons, BEq.comm]
      cases hkey : lower name == key with
      | true =>
        obtain rfl := beq_iff_eq.1 hkey
        simp [h.1]
      | false => rfl
    rw [List.lookup_append, hlast]

theorem lookup_foldl_record (names : List Text) (key : Text) :
    (names.foldl record s).lookup key = (s.lookup key).or (recalled names key) := by
  induction names generalizing s with
  | nil => exact Option.or_none.symm
  | cons n names ih =>
    rw [List.foldl_cons, ih, lookup_record, Option.or_assoc, recalled, recalled, List.find?_cons]
    cases lower n == key && n != key <;> rfl

end Spellings

/-- Names of all that looks like a tag. -/
def tagNames (markup : Text) : List Text := (hits tagAt? markup).map Prod.fst

/-- Names of all that looks like an attribute of one. -/
def attributeNames (markup : Text) : List Text :=
  (hits tagAt? markup).flatMap fun t => hits attributeAt? t.2

theorem Casing.collect_eq (markup : Text) : collect markup =
    ⟨(tagNames markup).foldl Spellings.record [],
      (attributeNames markup).foldl Spellings.record []⟩ := by
  have hfold (ts : List (Text × Text)) (c : Casing) : ts.foldl recordTag c =
      ⟨(ts.map Prod.fst).foldl Spellings.record c.tags,
        (ts.flatMap fun t => hits attributeAt? t.2).foldl Spellings.record c.attributes⟩ := by
    induction ts generalizing c with
    | nil => rfl
    | cons t ts ih =>
      rw [List.foldl_cons, ih, List.map_cons, List.foldl_cons, List.flatMap_cons,
        List.foldl_append]
      rfl
  exact hfold _ empty

/-! ## Elements and their start tags -/

/-- What becomes an element of a document, or else of a fragment. -/
def keptTags (whole : Bool) (f : Html.Tree) : List Html.Tag :=
  match f.root? with
  | none => []
  | some (root, content) =>
    if whole then root :: content.elements else (Recovery.inSections content).elements

/-- The root of a document, or else the content of the sections of a fragment. -/
def keptNodes (whole : Bool) (f : Html.Tree) : Html.Tree :=
  match f.root? with
  | none => .nil
  | some (root, content) =>
    if whole then .element root content .nil else Recovery.inSections content

theorem elements_keptNodes (whole : Bool) (f : Html.Tree) :
    (keptNodes whole f).elements = keptTags whole f := by
  rw [keptNodes, keptTags]
  cases f.root? with
  | none => rfl
  | some top => cases whole <;> simp [Forest.elements]

/-- What is taken of a markup. -/
def nodesOf (markup : Text) : Html.Tree :=
  keptNodes (Recovery.startsDocument (Recovery.prepare markup)) (build (lex (source markup)))

/-- The tags from which elements are read, with their places in the source. -/
def origins (markup : Text) : List Html.Tag :=
  keptTags (Recovery.startsDocument (Recovery.prepare markup)) (build (placed (source markup)))

section Kept

variable {φ : Html.Tag → Html.Tag} (h : Relabels φ) (f : Html.Tree)

include h in
theorem inSections_relabel :
    Recovery.inSections (f.relabel φ) = (Recovery.inSections f).relabel φ := by
  induction f with
  | nil => rfl
  | element t cs rest _ ih =>
    rw [Forest.relabel, Recovery.inSections, Recovery.inSections, h.name]
    split
    · rw [ih, Forest.relabel_append]
    · exact ih
  | leaf l rest ih => exact ih

include h in
theorem keptTags_relabel (whole : Bool) : keptTags whole (f.relabel φ) = (keptTags whole f).map φ := by
  rw [keptTags, keptTags, Forest.root?_relabel]
  cases f.root? with
  | none => rfl
  | some top =>
    dsimp only [Option.map_some]
    split
    · rw [Forest.elements_relabel]
      rfl
    · rw [inSections_relabel h, Forest.elements_relabel]

theorem mem_elements_of_inSections {t : Html.Tag} (ht : t ∈ (Recovery.inSections f).elements) :
    t ∈ f.elements := by
  induction f with
  | nil => exact ht
  | element e cs rest _ ih =>
    rw [Recovery.inSections] at ht
    rw [Forest.elements, List.mem_cons, List.mem_append]
    split at ht
    · rw [Forest.elements_append, List.mem_append] at ht
      exact Or.inr (ht.imp_right ih)
    · exact Or.inr (Or.inr (ih ht))
  | leaf l rest ih => exact ih ht

theorem mem_elements_of_keptTags {whole : Bool} {t : Html.Tag} (ht : t ∈ keptTags whole f) :
    t ∈ f.elements := by
  rw [keptTags] at ht
  split at ht
  · exact absurd ht List.not_mem_nil
  · rename_i root content hroot
    rw [Forest.eq_of_root? hroot, Forest.elements_append, Forest.elements, List.mem_append,
      List.mem_cons, List.mem_append]
    split at ht
    · exact Or.inr ((List.mem_cons.1 ht).imp_right Or.inl)
    · exact Or.inr (Or.inr (Or.inl (mem_elements_of_inSections content ht)))

theorem elements_ofLeaves (ls : List Leaf) : (Forest.ofLeaves ls : Tree).elements = [] := by
  induction ls with
  | nil => rfl
  | cons l ls ih => exact ih

end Kept

section Parsed

variable {collapsing : Bool} {markup : Text} {tree : Tree}

/-- A tree is what is taken of the markup, between leaves that hold no text. -/
theorem parse_eq (h : parse collapsing markup = .ok tree) : ∃ front behind,
    tree = Forest.ofLeaves front ++
        (Recovery.of markup).nodes (!collapsing) (nodesOf markup) ++ Forest.ofLeaves behind ∧
      ∀ l ∈ front ++ behind, l.kind ≠ .text := by
  have hnodes : (Html.read (Recovery.input (Recovery.prepare markup))).nodes =
      build (lex (source markup)) := rfl
  rw [parse] at h
  rw [nodesOf, ← hnodes, Recovery.input, keptNodes]
  by_cases hdocument : Recovery.startsDocument (Recovery.prepare markup) = true
  · rw [if_pos hdocument, Recovery.document] at h
    rw [if_pos hdocument]
    cases hroot : (Html.read (Recovery.prepare markup)).nodes.root? with
    | none =>
      rw [hroot] at h
      exact absurd h (by simp)
    | some top =>
      obtain ⟨ls, hfront, hls⟩ :=
        (Recovery.of markup).exists_comments (Html.read (Recovery.prepare markup)).nodes.before
      obtain ⟨ms, hbehind, hms⟩ :=
        (Recovery.of markup).exists_comments (Html.read (Recovery.prepare markup)).nodes.after
      have hcomments : ∀ l ∈ ls ++ ms, l.kind ≠ .text := by
        intro l hl
        have hkind := (List.mem_append.1 hl).elim (hls l) (hms l)
        rcases hkind with hkind | hkind <;> simp [hkind]
      rw [hroot] at h
      dsimp only at h ⊢
      rw [if_pos hdocument]
      rw [hfront, hbehind] at h
      -- a declaration is one more leaf in front
      split at h
      · rw [← Except.ok.inj h]
        exact ⟨_ :: ls, ms, rfl, List.forall_mem_cons.2 ⟨by simp, hcomments⟩⟩
      · rw [← Except.ok.inj h]
        exact ⟨ls, ms, rfl, hcomments⟩
  · rw [if_neg hdocument, Recovery.fragment] at h
    rw [if_neg hdocument]
    cases hroot : (Html.read (Recovery.wrapFragment (Recovery.prepare markup))).nodes.root? with
    | none =>
      rw [hroot] at h
      exact absurd h (by simp)
    | some top =>
      rw [hroot] at h
      refine ⟨[], [], ?_, fun l hl => absurd hl List.not_mem_nil⟩
      rw [← Except.ok.inj h, Recovery.sectionContents_eq]
      dsimp only
      rw [if_neg hdocument]
      exact (Forest.append_nil _).symm

theorem elements_parse (h : parse collapsing markup = .ok tree) :
    tree.elements = (keptTags (Recovery.startsDocument (Recovery.prepare markup))
      (build (lex (source markup)))).map (Recovery.of markup).tag := by
  obtain ⟨front, behind, rfl, -⟩ := parse_eq h
  rw [Forest.elements_append, Forest.elements_append, elements_ofLeaves, elements_ofLeaves,
    List.nil_append, List.append_nil, Recovery.elements_nodes, nodesOf, elements_keptNodes]

theorem elements_origins (h : parse collapsing markup = .ok tree) :
    tree.elements = (origins markup).map fun o => (Recovery.of markup).tag o.read := by
  rw [elements_parse h, lex_eq_placed, build_relabel relabels_read,
    keptTags_relabel relabels_read, origins, List.map_map]
  rfl

theorem origin_cases {o : Html.Tag} (h : o ∈ origins markup) :
    o.name ∈ sectionNames ∧ o.attributes = [] ∨
      ∃ place, '<' :: place <:+ source markup ∧ StartsTag place ∧
        o = ⟨asciiLower (writtenName place), [(place, [])]⟩ := by
  refine (mem_elements_build (mem_elements_of_keptTags _ h)).imp_right ?_
  rintro ⟨selfClosing, ho⟩
  exact place_of_mem_placed ho

end Parsed

/-! ## What an element carries -/

/-- The text in which names are looked for: the markup with its ampersands masked. -/
def lookedIn (markup : Text) : Text := Recovery.maskWith (pickMask markup) markup

/-- The names of an element and its attributes, by the start tag at this place and by all that is
recalled of the markup. -/
structure NamedBy (markup place : Text) (t : Tag) : Prop where
  name : t.name = carried (tagNames (lookedIn markup)) (lower (writtenName place)) (writtenName place)
  attributes : t.attributes = Attributes.ofList ((writtenAttributes place).map fun a =>
    (carried (attributeNames (lookedIn markup)) (asciiLower a.1) a.1, .text a.2))
  keepsName : t.name = writtenName place ↔
    KeepsSpelling (tagNames (lookedIn markup)) (lower (writtenName place)) (writtenName place)
  keepsAttributes : t.attributes = (writtenAttributes place).map (fun a => (a.1, .text a.2)) ↔
    ∀ a ∈ writtenAttributes place,
      KeepsSpelling (attributeNames (lookedIn markup)) (asciiLower a.1) a.1

section Named

variable (markup place : Text)

theorem spelling_tags (key default : Text) : (Recovery.of markup).casing.tags.spelling key default =
    (recalled (tagNames (lookedIn markup)) key).getD default := by
  have hcasing : (Recovery.of markup).casing = Casing.collect (lookedIn markup) := rfl
  rw [hcasing, Casing.collect_eq, Spellings.spelling, Spellings.lookup_foldl_record]
  rfl

theorem spelling_attributes (key default : Text) :
    (Recovery.of markup).casing.attributes.spelling key default =
      (recalled (attributeNames (lookedIn markup)) key).getD default := by
  have hcasing : (Recovery.of markup).casing = Casing.collect (lookedIn markup) := rfl
  rw [hcasing, Casing.collect_eq, Spellings.spelling, Spellings.lookup_foldl_record]
  rfl

/-- Attributes are the written ones where each keeps its spelling. -/
theorem ofList_carried_iff (names : List Text) :
    Attributes.ofList ((writtenAttributes place).map fun a =>
        (carried names (asciiLower a.1) a.1, .text a.2)) =
      (writtenAttributes place).map (fun a => (a.1, .text a.2)) ↔
    ∀ a ∈ writtenAttributes place, KeepsSpelling names (asciiLower a.1) a.1 := by
  have hdistinct : (((writtenAttributes place).map fun a => (a.1, Value.text a.2)).map
      Prod.fst).Nodup := by
    have hlower : ((writtenAttributes place).map (asciiLower ·.1)).Nodup :=
      nodup_writtenFrom List.nodup_nil
    rw [List.map_map]
    refine List.Nodup.of_map asciiLower ?_
    rw [List.map_map]
    exact hlower
  constructor
  · intro h a ha
    have hlength : ((writtenAttributes place).map fun a =>
        (carried names (asciiLower a.1) a.1, Value.text a.2)).length ≤
          (Attributes.ofList ((writtenAttributes place).map fun a =>
            (carried names (asciiLower a.1) a.1, Value.text a.2))).length := by
      rw [h, List.length_map, List.length_map]
    rw [Attributes.ofList_eq_of_length hlength] at h
    exact carried_eq_self_iff.1 (congrArg Prod.fst (List.map_inj_left.1 h a ha))
  · intro h
    have hmap : (writtenAttributes place).map (fun a =>
        (carried names (asciiLower a.1) a.1, Value.text a.2)) =
          (writtenAttributes place).map (fun a => (a.1, .text a.2)) := by
      refine List.map_congr_left fun a ha => ?_
      rw [carried_eq_self_iff.2 (h a ha)]
    rw [hmap, Attributes.ofList_eq_self hdistinct]

theorem namedBy_place : NamedBy markup place
    ((Recovery.of markup).tag (Tag.read ⟨asciiLower (writtenName place), [(place, [])]⟩)) := by
  have hname : ((Recovery.of markup).tag
      (Tag.read ⟨asciiLower (writtenName place), [(place, [])]⟩)).name =
        carried (tagNames (lookedIn markup)) (lower (writtenName place)) (writtenName place) := by
    rw [Recovery.tag, spelling_tags, Tag.read, lower_asciiLower, carried]
  have hattributes : ((Recovery.of markup).tag
      (Tag.read ⟨asciiLower (writtenName place), [(place, [])]⟩)).attributes =
        Attributes.ofList ((writtenAttributes place).map fun a =>
          (carried (attributeNames (lookedIn markup)) (asciiLower a.1) a.1, .text a.2)) := by
    simp only [Recovery.tag, spelling_attributes, Tag.read, List.map_map]
    rfl
  refine ⟨hname, hattributes, ?_, ?_⟩
  · rw [hname]
    exact carried_eq_self_iff
  · rw [hattributes]
    exact ofList_carried_iff place _

end Named

/-- Each element of a tree comes from a start tag at a place of its own, or is a section without
one. Its names are those that the whole markup recalls; the spelling at its place counts only where
it is the first one with capitals, or where there is no such. -/
theorem spelling_of_parse {collapsing : Bool} {markup : Text} {tree : Tree}
    (h : parse collapsing markup = .ok tree) :
    tree.elements = (origins markup).map (fun o => (Recovery.of markup).tag o.read) ∧
    ∀ o ∈ origins markup, o.name ∈ sectionNames ∧ o.attributes = [] ∨
      ∃ place, '<' :: place <:+ source markup ∧ StartsTag place ∧
        o = ⟨asciiLower (writtenName place), [(place, [])]⟩ ∧
        NamedBy markup place ((Recovery.of markup).tag o.read) := by
  refine ⟨elements_origins h, fun o ho => (origin_cases ho).imp_right ?_⟩
  rintro ⟨place, hplace, hstarts, rfl⟩
  exact ⟨place, hplace, hstarts, rfl, namedBy_place markup place⟩

/-- Two elements of one name in different cases get the spelling of the first. -/
theorem spelling_of_parse_twoCases : ∃ tree,
    parse true "<DIV>x</DIV><div>y</div>".toList = .ok tree ∧
      tree.elements = (origins "<DIV>x</DIV><div>y</div>".toList).map (fun o =>
        (Recovery.of "<DIV>x</DIV><div>y</div>".toList).tag o.read) ∧
      (origins "<DIV>x</DIV><div>y</div>".toList).map (fun o =>
          (((Recovery.of "<DIV>x</DIV><div>y</div>".toList).tag o.read).name,
            o.attributes.map fun a => writtenName a.1)) =
        [("DIV".toList, ["DIV".toList]), ("DIV".toList, ["div".toList])] := by
  have hfragment :
      Recovery.startsDocument (Recovery.prepare "<DIV>x</DIV><div>y</div>".toList) = false := by
    decide +kernel
  obtain ⟨tree, hparse, -⟩ := parse_fragment true hfragment
  exact ⟨tree, hparse, (spelling_of_parse hparse).1, by decide +kernel⟩

end InlineBinding.Markup
