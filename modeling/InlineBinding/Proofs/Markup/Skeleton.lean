import InlineBinding.Proofs.Html.Opening
import InlineBinding.Proofs.Markup.Front
import InlineBinding.Proofs.Markup.Reread
import InlineBinding.Proofs.Markup.Words

/-!
# Pages and fragments

A page keeps its root, and its declaration in front of it; a fragment has no elements but those of
its own start tags. Only white space may stand before the word that makes a markup a page: behind
a comment or a byte-order mark the page loses its root, and a longer word gets a root that is not
there.
-/
namespace InlineBinding

namespace Forest

variable {ε μ : Type}

theorem ofLeaves_append (ls ms : List μ) :
    (ofLeaves (ls ++ ms) : Forest ε μ) = ofLeaves ls ++ ofLeaves ms := by
  induction ls with
  | nil => rfl
  | cons l ls ih => exact congrArg (leaf l) ih

end Forest

namespace Markup
open Text Html

/-! ## The first construct -/

/-- White space of markup, with line ends of any kind. -/
def isMargin (c : Char) : Bool := isBlank c || c = '\r'

def opensDoctype (s : Text) : Bool := startsWith doctypeWord s

/-- A start tag with exactly this name. -/
def opensRoot (s : Text) : Bool :=
  startsWith rootWord s && (s.drop rootWord.length).head?.any fun c => isNameEnd c || c = '\r'

def opensPage (s : Text) : Bool := opensDoctype s || opensRoot s

/-- A markup from its first construct on: white space, byte-order marks and comments are none. -/
def fromConstruct : Text → Text
  | [] => []
  | c :: s =>
    if isMargin c || c.toNat = 0xfeff then fromConstruct s
    else if "<!--".toList.isPrefixOf (c :: s) then fromConstruct (comment (s.drop 3)).2
    else c :: s
termination_by s => s.length
decreasing_by
  · simp
  · have := length_comment_le (s.drop 3)
    simp only [List.length_drop] at this
    simp only [List.length_cons]
    omega

/-- Behind white space of any kind there is a word that pages begin with. -/
def leadsPage (s : Text) : Bool := leads doctypeWord s || leads rootWord s

/-! ## What is read -/

/-- The root between leaves, declarations first. -/
def Recovery.IsPage (r : Recovery) (declared : List Leaf) (root : Html.Tag) (tree : Tree) : Prop :=
  ∃ content front behind,
    tree = Forest.ofLeaves (declared ++ front) ++
      .element (r.tag root) content (Forest.ofLeaves behind) ∧
    ∀ l ∈ front ++ behind, l.kind = .comment ∨ l.kind = .cdata

/-- The tags of a fragment, as they are read in front of the end of a document around it. -/
def ownTags (markup : Text) : List Html.Tag :=
  (lex (normalizeChars (Recovery.prepare markup ++ "</body></html>".toList))).filterMap fun
    | .startTag tag _ => some tag
    | _ => none

/-- Each element has a start tag, and none is a root. -/
def Recovery.IsFragment (r : Recovery) (tags : List Html.Tag) (tree : Tree) : Prop :=
  ∀ u ∈ tree.elements, ∃ t ∈ tags, t.name ≠ Builder.html ∧ u = r.tag t

/-- The declaration of a page, for its root. -/
def declared (markup : Text) : List Leaf :=
  match Recovery.startsDoctype (Recovery.prepare markup), doctype? (source markup) with
  | true, some t => [⟨.directive, t.render Builder.html⟩]
  | _, _ => []

namespace Recovery

variable {r : Recovery}

theorem exists_comments (r : Recovery) (f : Html.Tree) :
    ∃ ls, r.comments f = Forest.ofLeaves ls ∧ ∀ l ∈ ls, l.kind = .comment ∨ l.kind = .cdata := by
  induction f with
  | nil => exact ⟨[], rfl, fun _ hl => absurd hl List.not_mem_nil⟩
  | element t cs rest _ ih => exact ih
  | leaf l rest ih =>
    cases l with
    | text data => exact ih
    | comment data =>
      obtain ⟨ls, hls, hkinds⟩ := ih
      refine ⟨r.commentLeaf data :: ls, by rw [comments, hls]; rfl, ?_⟩
      rw [List.forall_mem_cons]
      refine ⟨?_, hkinds⟩
      rw [commentLeaf]
      split
      · exact Or.inr rfl
      · exact Or.inl rfl

theorem elements_nodes (keep : Bool) (f : Html.Tree) :
    (r.nodes keep f).elements = f.elements.map r.tag := by
  induction f generalizing keep with
  | nil => rfl
  | element t cs rest ihc ihr =>
    rw [nodes, Forest.elements, Forest.elements, ihc, ihr, List.map_cons, List.map_append]
  | leaf l rest ih => cases l <;> exact ih keep

theorem nodes_append (r : Recovery) (keep : Bool) (f g : Html.Tree) :
    r.nodes keep (f ++ g) = r.nodes keep f ++ r.nodes keep g := by
  induction f with
  | nil => rfl
  | element t cs rest _ ih =>
    rw [Forest.element_append, nodes, nodes, ih, Forest.element_append]
  | leaf l rest ih =>
    cases l <;> rw [Forest.leaf_append, nodes, nodes, ih, Forest.leaf_append]

/-- The content of the sections below a root. -/
def inSections : Html.Tree → Html.Tree
  | .nil => .nil
  | .element t cs rest =>
    if t.name = Builder.head || t.name = Builder.body then cs ++ inSections rest
    else inSections rest
  | .leaf _ rest => inSections rest

theorem sectionContents_eq (r : Recovery) (keep : Bool) (f : Html.Tree) :
    r.sectionContents keep f = r.nodes keep (inSections f) := by
  induction f with
  | nil => rfl
  | element t cs rest _ ih =>
    rw [sectionContents, inSections]
    split
    · rw [nodes_append, ih]
    · exact ih
  | leaf l rest ih => exact ih

theorem elements_sectionContents (keep : Bool) (f : Html.Tree) :
    (r.sectionContents keep f).elements = (inSections f).elements.map r.tag := by
  rw [sectionContents_eq, elements_nodes]

theorem allAt_inSections {P : ℕ → Html.Tag → Prop} {n : ℕ} {f : Html.Tree} (h : f.AllAt P n)
    {u : Html.Tag} (hu : u ∈ (inSections f).elements) : ∃ m ≥ n + 1, P m u := by
  induction f with
  | nil => exact absurd hu List.not_mem_nil
  | element t cs rest _ ih =>
    rw [inSections] at hu
    split at hu
    · rw [Forest.elements_append] at hu
      rcases List.mem_append.1 hu with hu | hu
      · exact Forest.exists_depth_of_mem_elements h.2.1 hu
      · exact ih h.2.2 hu
    · exact ih h.2.2 hu
  | leaf l rest ih => exact ih h hu

end Recovery

section Read

variable (collapsing : Bool) {markup : Text}

theorem lex_normalize_wrapFragment (s : Text) :
    lex (Html.normalize (Recovery.wrapFragment s)) =
      .startTag ⟨Builder.html, []⟩ false :: .startTag ⟨Builder.body, []⟩ false ::
        lex (normalizeChars (s ++ "</body></html>".toList)) := by
  have hplain : ∀ c ∈ "<html><body>".toList, c ≠ '\r' ∧ c.toNat ≠ 0 :=
    forall_mem_of_all (by decide)
  have hnormal : Html.normalize (Recovery.wrapFragment s) =
      normalizeChars ("<html><body>".toList ++ (s ++ "</body></html>".toList)) := by
    rw [wrapFragment_eq]
    rfl
  rw [hnormal, normalizeChars_append_of_forall hplain]
  change lex ('<' :: (Builder.html ++ '>' :: '<' :: (Builder.body ++ '>' :: _))) = _
  rw [lex_bare (by decide), lex_bare (by decide)]
  rfl

/-- A document is read from the first token that opens a root. -/
theorem parse_page (h : Recovery.startsDocument (Recovery.prepare markup) = true) :
    match (lex (source markup)).findSome? Token.root? with
    | none => parse collapsing markup = .error .emptyDocument
    | some root => root.name = Builder.html ∧ ∃ tree, parse collapsing markup = .ok tree ∧
        (Recovery.of markup).IsPage (declared markup) root tree := by
  have hparse : parse collapsing markup = (Recovery.of markup).document collapsing
      (Recovery.startsDoctype (Recovery.prepare markup)) (Recovery.prepare markup) := if_pos h
  have hsource : source markup = Html.normalize (Recovery.prepare markup) := by
    rw [source, Recovery.input, if_pos h]
  have hnodes : (Html.read (Recovery.prepare markup)).nodes = build (lex (source markup)) := by
    rw [hsource]
    rfl
  have hdoctype : (Html.read (Recovery.prepare markup)).doctype = doctype? (source markup) := by
    rw [hsource]
    rfl
  have hroot := root?_build (lex (source markup))
  rw [hparse, Recovery.document, hnodes, hdoctype]
  cases hread : (build (lex (source markup))).root? with
  | none =>
    rw [hread] at hroot
    rw [← hroot]
    rfl
  | some top =>
    obtain ⟨root, content⟩ := top
    rw [hread] at hroot
    rw [← hroot]
    dsimp only [Option.map_some]
    have hname : root.name = Builder.html := by
      obtain ⟨t, -, ht⟩ := List.exists_of_findSome?_eq_some hroot.symm
      exact Token.name_of_root? ht
    obtain ⟨front, hfront, hf⟩ :=
      (Recovery.of markup).exists_comments (build (lex (source markup))).before
    obtain ⟨behind, hbehind, hb⟩ :=
      (Recovery.of markup).exists_comments (build (lex (source markup))).after
    have hkinds : ∀ l ∈ front ++ behind, l.kind = .comment ∨ l.kind = .cdata :=
      List.forall_mem_append.2 ⟨hf, hb⟩
    refine ⟨hname, _, rfl, (Recovery.of markup).nodes
      (!collapsing || Recovery.preservingNames.contains (lower root.name)) content,
      front, behind, ?_, hkinds⟩
    rw [hfront, hbehind, Recovery.nodes, Forest.ofLeaves_append, Forest.append_assoc, declared, hname]
    cases Recovery.startsDoctype (Recovery.prepare markup) <;>
      cases doctype? (source markup) <;> rfl

/-- A fragment is always read. -/
theorem parse_fragment (h : Recovery.startsDocument (Recovery.prepare markup) = false) :
    ∃ tree, parse collapsing markup = .ok tree ∧
      (Recovery.of markup).IsFragment (ownTags markup) tree := by
  have hparse : parse collapsing markup =
      (Recovery.of markup).fragment collapsing (Recovery.prepare markup) :=
    if_neg (by rw [h]; exact Bool.false_ne_true)
  have hnodes : (Html.read (Recovery.wrapFragment (Recovery.prepare markup))).nodes =
      build (.startTag ⟨Builder.html, []⟩ false :: .startTag ⟨Builder.body, []⟩ false ::
        lex (normalizeChars (Recovery.prepare markup ++ "</body></html>".toList))) := by
    rw [← lex_normalize_wrapFragment]
    rfl
  have hall := allAt_build
    (lex (normalizeChars (Recovery.prepare markup ++ "</body></html>".toList)))
  have hroot := root?_build (.startTag ⟨Builder.html, []⟩ false ::
    .startTag ⟨Builder.body, []⟩ false ::
      lex (normalizeChars (Recovery.prepare markup ++ "</body></html>".toList)))
  rw [hparse, Recovery.fragment, hnodes]
  rw [← hnodes] at hall hroot ⊢
  cases hread : (Html.read (Recovery.wrapFragment (Recovery.prepare markup))).nodes.root? with
  | none =>
    rw [hread] at hroot
    exact absurd hroot (by simp [Token.root?])
  | some top =>
    obtain ⟨root, content⟩ := top
    refine ⟨_, rfl, fun u hu => ?_⟩
    rw [Forest.eq_of_root? hread, Forest.allAt_append] at hall
    rw [Recovery.elements_sectionContents] at hu
    obtain ⟨t, ht, rfl⟩ := List.mem_map.1 hu
    obtain ⟨m, hm, hdepth | ⟨hdepth, -⟩ | ⟨hne, selfClosing, hstart⟩⟩ :=
      Recovery.allAt_inSections hall.2.2.1 ht
    · omega
    · omega
    · exact ⟨t, List.mem_filterMap.2 ⟨_, hstart, rfl⟩, hne, rfl⟩

end Read

/-! ## Which of them is read -/

section Decide

variable {collapsing : Bool} {markup : Text}

theorem startsDocument_prepare (markup : Text) :
    Recovery.startsDocument (Recovery.prepare markup) = leadsPage markup := by
  rw [startsDocument_eq, leads_prepare (Or.inl rfl), leads_prepare (Or.inr rfl), leadsPage]

theorem isSpace_of_isMargin {c : Char} (h : isMargin c = true) : isSpace c = true := by
  rw [isMargin, Bool.or_eq_true, decide_eq_true_eq] at h
  rcases h with h | rfl
  · exact isSpace_of_isBlank h
  · decide

theorem opensPage_of_ne {c : Char} (hc : c ≠ '<') (s : Text) : opensPage (c :: s) = false := by
  have hangle : (asciiLowerChar c == '<') = false :=
    beq_eq_false_iff_ne.2 fun he => hc (eq_of_asciiLowerChar he (by decide))
  have hword (w : Text) : startsWith ('<' :: w) (c :: s) = false := by
    rw [startsWith_cons, hangle, Bool.false_and]
  have hdoctype : startsWith doctypeWord (c :: s) = false := hword _
  have hroot : startsWith rootWord (c :: s) = false := hword _
  rw [opensPage, opensDoctype, opensRoot, hdoctype, hroot]
  rfl

section Front

variable {front x w : Text} (hf : ∀ c ∈ front, isSpace c = true)
include hf

theorem flat_front : Flat (normalizeChars front) := by
  have hnone {c : Char} (hc : isSpace c = false) (hn : c ≠ '\n' ∧ c ≠ Char.ofNat 0xfffd) :
      c ∉ normalizeChars front := by
    intro hm
    rcases (mem_normalizeChars hm).2 with h | ⟨h, -⟩ | h
    · exact hn.1 h
    · exact hn.2 h
    · rw [hf c h] at hc
      exact Bool.noConfusion hc
  exact ⟨hnone (by decide) (by decide), hnone (by decide) (by decide)⟩

/-- Line ends in front of a page are made blank, other white space is not. -/
theorem all_isBlank_front :
    (normalizeChars front).all isBlank = front.all isMargin := by
  rw [Bool.eq_iff_iff, List.all_eq_true, List.all_eq_true]
  constructor
  · intro h c hc
    by_contra hm
    rw [Bool.not_eq_true, isMargin, Bool.or_eq_false_iff, decide_eq_false_iff_not] at hm
    obtain ⟨hblank, hreturn⟩ := hm
    have hfeed : c ≠ '\n' := by
      rintro rfl
      exact absurd hblank (by decide)
    have hnull : c.toNat ≠ 0 := by
      intro h0
      have hc0 : c = Char.ofNat 0 := by rw [← h0, Char.ofNat_toNat]
      exact absurd (hc0 ▸ hf c hc) (by decide)
    rw [h c (mem_normalizeChars_of_mem hreturn hfeed hnull hc)] at hblank
    exact Bool.noConfusion hblank
  · intro h c hc
    obtain ⟨hreturn, rfl | ⟨-, hnull⟩ | hin⟩ := mem_normalizeChars hc
    · decide
    · exact absurd (h _ hnull) (by decide)
    · have hmargin := h c hin
      rw [isMargin, Bool.or_eq_true, decide_eq_true_eq] at hmargin
      exact hmargin.resolve_right hreturn

/-- White space that is no margin stands between the start and the first tag. -/
theorem front_cases (t : Text) :
    front.all isMargin = true ∧ (front ++ '<' :: t).dropWhile isMargin = '<' :: t ∧
        fromConstruct (front ++ '<' :: t) = fromConstruct ('<' :: t) ∨
      front.all isMargin = false ∧ opensPage ((front ++ '<' :: t).dropWhile isMargin) = false ∧
        opensPage (fromConstruct (front ++ '<' :: t)) = false := by
  induction front with
  | nil => exact Or.inl ⟨rfl, List.dropWhile_cons_of_neg (by decide), rfl⟩
  | cons c front ih =>
    rw [List.forall_mem_cons] at hf
    cases hc : isMargin c with
    | true =>
      have hskip : fromConstruct (c :: (front ++ '<' :: t)) = fromConstruct (front ++ '<' :: t) := by
        rw [fromConstruct, if_pos (by rw [hc]; rfl)]
      rw [List.cons_append, List.all_cons, hc, Bool.true_and, List.dropWhile_cons_of_pos hc, hskip]
      exact ih hf.2
    | false =>
      have hangle : c ≠ '<' := by
        rintro rfl
        exact absurd hf.1 (by decide)
      have hmark : ¬ c.toNat = 0xfeff := by
        intro h
        have hbom : c = Char.ofNat 0xfeff := by rw [← h, Char.ofNat_toNat]
        exact absurd (hbom ▸ hf.1) (by decide)
      have hcomment : ¬ "<!--".toList.isPrefixOf (c :: (front ++ '<' :: t)) = true := by
        rw [isPrefixOf_eq_true]
        exact fun h => hangle (List.cons_prefix_cons.1 h).1.symm
      have hstop : fromConstruct (c :: (front ++ '<' :: t)) = c :: (front ++ '<' :: t) := by
        rw [fromConstruct, if_neg (by simp [hc, hmark]), if_neg hcomment]
      refine Or.inr ⟨by rw [List.all_cons, hc, Bool.false_and], ?_, ?_⟩
      · rw [List.cons_append, List.dropWhile_cons_of_neg (by simp [hc])]
        exact opensPage_of_ne hangle _
      · rw [List.cons_append, hstop]
        exact opensPage_of_ne hangle _

variable (hw : '<' :: w = doctypeWord ∨ '<' :: w = rootWord) (hx : asciiLower x = w)
include hw hx

theorem leadsPage_append (r : Text) : leadsPage (front ++ '<' :: (x ++ r)) = true := by
  have hstart : startsWith w (x ++ r) = true :=
    startsWith_iff.2 (hx ▸ (List.prefix_append x r).map asciiLowerChar)
  have hlead : leads ('<' :: w) (front ++ '<' :: (x ++ r)) = true := by
    rw [leads_append hf, hstart]
  rw [leadsPage, Bool.or_eq_true]
  rcases hw with h | h
  · exact Or.inl (h ▸ hlead)
  · exact Or.inr (h ▸ hlead)

theorem source_append (r : Text) : ∃ document masking, source (front ++ '<' :: (x ++ r)) =
    normalizeChars front ++ '<' ::
      (x ++ normalizeChars (hidden document 0 (r.map (masked (pickMask masking))))) := by
  obtain ⟨document, masking, hprepare⟩ := prepare_append hw hx hf r
  have hnormal (t : Text) :
      Html.normalize (front ++ '<' :: t) = normalizeChars (front ++ '<' :: t) := by
    have hmark {c : Char} (hc : isSpace c = true ∨ c = '<') : ¬ c.toNat = 0xfeff := by
      intro h
      have hbom : c = Char.ofNat 0xfeff := by rw [← h, Char.ofNat_toNat]
      rw [hbom] at hc
      exact absurd hc (by decide)
    cases front with
    | nil => exact congrArg normalizeChars (if_neg (hmark (Or.inr rfl)))
    | cons c front =>
      exact congrArg normalizeChars (if_neg (hmark (Or.inl (hf c List.mem_cons_self))))
  have hplain {c : Char} (hc : c ∈ x) : c ≠ '\r' ∧ c.toNat ≠ 0 := by
    have hnull : Char.ofNat 0 ∉ x := notMem_pageWord hw hx (by decide) (by decide)
    have hreturn : '\r' ∉ x := notMem_pageWord hw hx (by decide) (by decide)
    refine ⟨fun h => hreturn (h ▸ hc), fun h => hnull ?_⟩
    rwa [← h, Char.ofNat_toNat]
  refine ⟨document, masking, ?_⟩
  rw [source, Recovery.input, startsDocument_prepare, leadsPage_append hf hw hx, if_pos rfl, hprepare,
    hnormal, normalizeChars_append (by decide), normalizeChars_cons (by decide) (by decide),
    normalizeChars_append_of_forall fun c hc => hplain hc]

end Front

theorem exists_margin {w : Text} (h : startsWith ('<' :: w) (markup.dropWhile isMargin) = true) :
    ∃ front x r, markup = front ++ '<' :: (x ++ r) ∧ (∀ c ∈ front, isMargin c = true) ∧
      asciiLower x = w ∧ markup.dropWhile isMargin = '<' :: (x ++ r) := by
  obtain ⟨y, r, hy, hlow⟩ := startsWith_eq_true h
  obtain ⟨c, x, rfl, hc, hx⟩ := List.map_eq_cons_iff.1 hlow
  obtain rfl := eq_of_asciiLowerChar hc (by decide)
  refine ⟨markup.takeWhile isMargin, x, r, ?_, fun c hc => List.mem_takeWhile_imp hc, hx, hy⟩
  rw [← List.cons_append, ← hy, List.takeWhile_append_dropWhile]

section Root

variable {x : Text} (hx : asciiLower x = "html".toList)
include hx

theorem isLetter_of_root : ∀ c ∈ x, isLetter c = true := by
  intro c hc
  have hlow : asciiLowerChar c ∈ "html".toList := hx ▸ List.mem_map_of_mem hc
  have hletters : ∀ d ∈ "html".toList, isAsciiLetter d = true := forall_mem_of_all (by decide)
  by_contra hletter
  have hupper : ¬ Ranges.has [(0x41, 0x5a)] c = true := by
    intro h
    have hrange := range_of_upper h
    exact hletter (of_ascii (p := fun c => Ranges.has [(0x41, 0x5a)] c = true → isLetter c = true)
      (by decide +kernel) (by omega) h)
  rw [asciiLowerChar, if_neg hupper] at hlow
  exact hletter (hletters c hlow)

theorem isTagChar_of_root : ∀ c ∈ x, isTagChar c = true := by
  intro c hc
  have hletter := isLetter_of_root hx c hc
  have hlow : c.toNat < 0x80 := by
    simp only [isLetter, isAsciiLetter, Ranges.has, List.any_cons, List.any_nil, Bool.or_false,
      Bool.or_eq_true, Bool.and_eq_true, decide_eq_true_eq] at hletter
    omega
  exact of_ascii (p := fun c => isLetter c = true → isTagChar c = true) (by decide +kernel) hlow
    hletter

theorem head?_root (t : Text) : (x ++ t).head?.any isLetter = true := by
  cases x with
  | nil => exact absurd hx (by decide)
  | cons c x => exact isLetter_of_root hx c List.mem_cons_self

theorem startsWith_doctype_root (r : Text) : startsWith "!doctype".toList (x ++ r) = false := by
  cases x with
  | nil => exact absurd hx (by decide)
  | cons c x =>
    have hne : (asciiLowerChar c == '!') = false := by
      have hhtml : "html".toList = 'h' :: "tml".toList := by decide
      rw [asciiLower, List.map_cons, hhtml] at hx
      rw [(List.cons.inj hx).1]
      decide
    have hword : "!doctype".toList = '!' :: "doctype".toList := by decide
    rw [List.cons_append, hword, startsWith_cons, hne, Bool.false_and]

theorem opensRoot_append (r : Text) : opensRoot ('<' :: (x ++ r)) =
    r.head?.any fun c => isNameEnd c || c = '\r' := by
  have hword : rootWord = asciiLower ('<' :: x) := by
    rw [asciiLower, List.map_cons, ← asciiLower, hx]
    decide
  have hstart : startsWith rootWord ('<' :: (x ++ r)) = true :=
    startsWith_iff.2 (hword ▸ (List.prefix_append ('<' :: x) r).map asciiLowerChar)
  have hlength : x.length = 4 := by
    rw [← length_asciiLower x, hx]
    rfl
  have hbehind : ('<' :: (x ++ r)).drop rootWord.length = r := List.drop_left' hlength
  rw [opensRoot, hstart, hbehind, Bool.true_and]

end Root

theorem declared_root {front x : Text} (hf : ∀ c ∈ front, isSpace c = true)
    (hx : asciiLower x = "html".toList) (r : Text) : declared (front ++ '<' :: (x ++ r)) = [] := by
  have hword : doctypeWord = '<' :: "!doctype".toList := by decide
  have hnone : Recovery.startsDoctype (Recovery.prepare (front ++ '<' :: (x ++ r))) = false := by
    rw [startsDoctype_eq, leads_prepare (Or.inl rfl), hword, leads_append hf,
      startsWith_doctype_root hx]
  rw [declared, hnone]

/-- A page that its root opens. -/
theorem parse_root (h : opensRoot (markup.dropWhile isMargin) = true) :
    lex (skipBlank (source markup)) = [.cutTag Builder.html] ∧
        parse collapsing markup = .error .emptyDocument ∨
      ∃ as selfClosing ts tree,
        lex (skipBlank (source markup)) = .startTag ⟨Builder.html, as⟩ selfClosing :: ts ∧
        parse collapsing markup = .ok tree ∧
        (Recovery.of markup).IsPage [] ⟨Builder.html, as⟩ tree := by
  have hrootWord : rootWord = '<' :: "html".toList := by decide
  have hstart : startsWith ('<' :: "html".toList) (markup.dropWhile isMargin) = true := by
    rw [opensRoot, Bool.and_eq_true] at h
    exact hrootWord ▸ h.1
  obtain ⟨front, x, r, rfl, hmargin, hx, hdrop⟩ := exists_margin hstart
  have hf : ∀ c ∈ front, isSpace c = true := fun c hc => isSpace_of_isMargin (hmargin c hc)
  have hw : '<' :: "html".toList = doctypeWord ∨ '<' :: "html".toList = rootWord :=
    Or.inr hrootWord.symm
  have hblank : (normalizeChars front).all isBlank = true := by
    rw [all_isBlank_front hf, List.all_eq_true]
    exact hmargin
  rw [hdrop, opensRoot_append hx] at h
  obtain ⟨c, r, rfl⟩ : ∃ c s, r = c :: s := by
    cases r with
    | nil => exact absurd h (by simp)
    | cons c s => exact ⟨c, s, rfl⟩
  obtain ⟨document, masking, hsource⟩ := source_append hf hw hx (c :: r)
  obtain ⟨d, s, hnext, hd⟩ := normalizeChars_hidden_cons masking document 0 c r
  have hstop : isTagChar d = false := by
    rw [isTagChar, hd, Bool.not_eq_false']
    exact h
  have hname : asciiLower ((x ++ d :: s).takeWhile isTagChar) = Builder.html := by
    rw [(takeWhile_append_stop (isTagChar_of_root hx) hstop).1, hx]
    rfl
  have hpage := parse_page collapsing
    (show Recovery.startsDocument (Recovery.prepare (front ++ '<' :: (x ++ c :: r))) = true by
      rw [startsDocument_prepare, leadsPage_append hf hw hx])
  rw [hsource, hnext, findSome?_lex_flat (flat_front hf), if_pos hblank, declared_root hf hx] at hpage
  rw [hsource, hnext, skipBlank_append hblank]
  rcases lex_startTag_cases (head?_root hx (d :: s)) with hlex | ⟨as, selfClosing, ts, hlex⟩
  · rw [hname] at hlex
    rw [hlex] at hpage ⊢
    exact Or.inl ⟨rfl, hpage⟩
  · rw [hname] at hlex
    rw [hlex] at hpage ⊢
    obtain ⟨-, tree, hparse, htree⟩ := hpage
    exact Or.inr ⟨as, selfClosing, ts, tree, rfl, hparse, htree⟩

/-- A page that its declaration opens. -/
theorem parse_doctype (h : opensDoctype (markup.dropWhile isMargin) = true) :
    match (lex (source markup)).findSome? Token.root? with
    | none => parse collapsing markup = .error .emptyDocument
    | some root => root.name = Builder.html ∧ ∃ tree, parse collapsing markup = .ok tree ∧
        (Recovery.of markup).IsPage
          [⟨.directive, (Doctype.read ((skipBlank (source markup)).drop 9)).render Builder.html⟩]
          root tree := by
  have hdoctypeWord : doctypeWord = '<' :: "!doctype".toList := by decide
  rw [opensDoctype, hdoctypeWord] at h
  obtain ⟨front, x, r, rfl, hmargin, hx, hdrop⟩ := exists_margin h
  have hf : ∀ c ∈ front, isSpace c = true := fun c hc => isSpace_of_isMargin (hmargin c hc)
  have hw : '<' :: "!doctype".toList = doctypeWord ∨ '<' :: "!doctype".toList = rootWord :=
    Or.inl hdoctypeWord.symm
  have hblank : (normalizeChars front).all isBlank = true := by
    rw [all_isBlank_front hf, List.all_eq_true]
    exact hmargin
  obtain ⟨document, masking, hsource⟩ := source_append hf hw hx r
  have hpage := parse_page collapsing
    (show Recovery.startsDocument (Recovery.prepare (front ++ '<' :: (x ++ r))) = true by
      rw [startsDocument_prepare, leadsPage_append hf hw hx])
  have hdeclared : declared (front ++ '<' :: (x ++ r)) = [⟨.directive, (Doctype.read
      ((skipBlank (source (front ++ '<' :: (x ++ r)))).drop 9)).render Builder.html⟩] := by
    have hstart : Recovery.startsDoctype (Recovery.prepare (front ++ '<' :: (x ++ r))) = true := by
      rw [startsDoctype_eq, leads_prepare (Or.inl rfl), hdoctypeWord, leads_append hf]
      exact startsWith_iff.2 (hx ▸ (List.prefix_append x r).map asciiLowerChar)
    have hlength : x.length = 8 := by
      rw [← length_asciiLower x, hx]
      rfl
    have hbehind (t : Text) : ('<' :: (x ++ t)).drop 9 = t := List.drop_left' hlength
    rw [declared, hstart, hsource, doctype?_skipBlank, skipBlank_append hblank,
      doctype?_declaration hx, hbehind]
  rwa [hdeclared] at hpage

theorem exists_page (h : leadsPage markup = true) : ∃ w front x r,
    ('<' :: w = doctypeWord ∨ '<' :: w = rootWord) ∧ markup = front ++ '<' :: (x ++ r) ∧
      (∀ c ∈ front, isSpace c = true) ∧ asciiLower x = w := by
  have hdoctype : doctypeWord = '<' :: "!doctype".toList := by decide
  have hroot : rootWord = '<' :: "html".toList := by decide
  rw [leadsPage, Bool.or_eq_true] at h
  rcases h with h | h
  · rw [hdoctype] at h
    obtain ⟨front, x, r, hmarkup, hf, hx⟩ := exists_front h
    exact ⟨_, front, x, r, Or.inl hdoctype.symm, hmarkup, hf, hx⟩
  · rw [hroot] at h
    obtain ⟨front, x, r, hmarkup, hf, hx⟩ := exists_front h
    exact ⟨_, front, x, r, Or.inr hroot.symm, hmarkup, hf, hx⟩

theorem fromConstruct_page {w x : Text} (hw : '<' :: w = doctypeWord ∨ '<' :: w = rootWord)
    (hx : asciiLower x = w) (r : Text) : fromConstruct ('<' :: (x ++ r)) = '<' :: (x ++ r) := by
  have hcomment : ¬ "<!--".toList.isPrefixOf ('<' :: (x ++ r)) = true := by
    rw [isPrefixOf_eq_true]
    intro h
    exact not_prefix_pageWord hw hx (p := "!--".toList) (Or.inr (by decide)) r
      (List.cons_prefix_cons.1 h).2
  rw [fromConstruct, if_neg (by decide), if_neg hcomment]

/-- Behind comments and byte-order marks a page is a fragment. -/
theorem leadsPage_of_hidden (h : opensPage (fromConstruct markup) = true)
    (hd : opensPage (markup.dropWhile isMargin) = false) : leadsPage markup = false := by
  by_contra hl
  obtain ⟨w, front, x, r, hw, rfl, hf, hx⟩ := exists_page (Bool.not_eq_false _ ▸ hl)
  rcases front_cases hf (x ++ r) with ⟨-, hdrop, hfrom⟩ | ⟨-, -, hfrom⟩
  · rw [hfrom, fromConstruct_page hw hx, ← hdrop, hd] at h
    exact Bool.noConfusion h
  · rw [hfrom] at h
    exact Bool.noConfusion h

/-- A longer name is the name of another element, unless the input ends behind the word. -/
theorem findSome?_lex_root {x r : Text} (hx : asciiLower x = "html".toList)
    (h : opensRoot ('<' :: (x ++ r)) = false) (document masking : Text) :
    (lex ('<' :: (x ++ normalizeChars
      (hidden document 0 (r.map (masked (pickMask masking))))))).findSome? Token.root? =
        if r.isEmpty then none else some ⟨Builder.html, []⟩ := by
  have htags := isTagChar_of_root hx
  cases r with
  | nil =>
    have hcut : lex ('<' :: x) = [.cutTag Builder.html] := by
      have hhead := head?_root hx []
      rw [List.append_nil] at hhead
      rw [lex_startTag_cut hhead (List.dropWhile_eq_nil_iff.2 htags), hx]
      rfl
    change (lex ('<' :: (x ++ []))).findSome? Token.root? = none
    rw [List.append_nil, hcut]
    rfl
  | cons c r =>
    obtain ⟨d, s, hnext, hd⟩ := normalizeChars_hidden_cons masking document 0 c r
    have hmore : isTagChar d = true := by
      rw [opensRoot_append hx] at h
      rw [isTagChar, hd, Bool.not_eq_true']
      exact h
    have hlonger : asciiLower ((x ++ d :: s).takeWhile isTagChar) ≠ Builder.html := by
      rw [List.takeWhile_append_of_pos htags, List.takeWhile_cons_of_pos hmore]
      intro he
      have hlength := congrArg List.length he
      rw [length_asciiLower, List.length_append, ← length_asciiLower x, hx, List.length_cons] at hlength
      change 4 + _ = 4 at hlength
      omega
    rw [hnext]
    rcases lex_startTag_cases (head?_root hx (d :: s)) with hlex | ⟨as, selfClosing, ts, hlex⟩
    · rw [hlex, List.findSome?_cons, Token.root?, if_neg hlonger]
      rfl
    · rw [hlex, List.findSome?_cons, Token.root?, if_neg hlonger]
      rfl

/-- A root that is not there, for a longer name or behind other white space. -/
theorem parse_pretended (hl : leadsPage markup = true)
    (h : opensPage (fromConstruct markup) = false) :
    asciiLower (trimStart markup) = rootWord ∧ parse collapsing markup = .error .emptyDocument ∨
      ∃ tree, parse collapsing markup = .ok tree ∧
        (Recovery.of markup).IsPage [] ⟨Builder.html, []⟩ tree := by
  have hpage := parse_page collapsing
    (show Recovery.startsDocument (Recovery.prepare markup) = true by rw [startsDocument_prepare, hl])
  obtain ⟨w, front, x, r, hw, rfl, hf, hx⟩ := exists_page hl
  obtain ⟨document, masking, hsource⟩ := source_append hf hw hx r
  rw [hsource, findSome?_lex_flat (flat_front hf), all_isBlank_front hf] at hpage
  rcases front_cases hf (x ++ r) with ⟨hall, -, hfrom⟩ | ⟨hall, -, -⟩
  · rw [hfrom, fromConstruct_page hw hx, opensPage, Bool.or_eq_false_iff] at h
    obtain ⟨hdoctype, hroot⟩ := h
    have hname : w = "html".toList := by
      refine (eq_pageWord hw).resolve_left fun hdeclaration => ?_
      have hword : doctypeWord = asciiLower ('<' :: x) := by
        rw [asciiLower, List.map_cons, ← asciiLower, hx, hdeclaration]
        decide
      have hstart : opensDoctype ('<' :: (x ++ r)) = true :=
        startsWith_iff.2 (hword ▸ (List.prefix_append ('<' :: x) r).map asciiLowerChar)
      rw [hstart] at hdoctype
      exact Bool.noConfusion hdoctype
    rw [if_pos hall, findSome?_lex_root (hname ▸ hx) hroot, declared_root hf (hname ▸ hx)] at hpage
    cases r with
    | nil =>
      refine Or.inl ⟨?_, hpage⟩
      rw [List.append_nil, trimStart, List.dropWhile_append_of_pos hf, ← trimStart,
        trimStart_cons (by decide), asciiLower, List.map_cons, ← asciiLower, hx, hname]
      decide
    | cons c r =>
      obtain ⟨-, tree, hparse, htree⟩ := hpage
      exact Or.inr ⟨tree, hparse, htree⟩
  · have hdeclared : declared (front ++ '<' :: (x ++ r)) = [] := by
      have hnone : doctype? (source (front ++ '<' :: (x ++ r))) = none := by
        rw [hsource]
        exact doctype?_flat (flat_front hf) (by rw [all_isBlank_front hf, hall]) _
      rw [declared, hnone]
      cases Recovery.startsDoctype (Recovery.prepare (front ++ '<' :: (x ++ r))) <;> rfl
    rw [hall, if_neg Bool.false_ne_true, hdeclared] at hpage
    obtain ⟨-, tree, hparse, htree⟩ := hpage
    exact Or.inr ⟨tree, hparse, htree⟩

end Decide

/-- What is read of the root and the sections of a markup. Directly behind its margin a page keeps
its root and its declaration. A page that begins in another way is a fragment, like all that is no
page; but what only looks like the beginning of a page gets a root of its own. -/
theorem skeleton_of_parse (collapsing : Bool) (markup : Text) :
    let r := Recovery.of markup
    let start := markup.dropWhile isMargin
    (opensRoot start = true →
      lex (skipBlank (source markup)) = [.cutTag Builder.html] ∧
          parse collapsing markup = .error .emptyDocument ∨
        ∃ as selfClosing ts tree,
          lex (skipBlank (source markup)) = .startTag ⟨Builder.html, as⟩ selfClosing :: ts ∧
          parse collapsing markup = .ok tree ∧ r.IsPage [] ⟨Builder.html, as⟩ tree) ∧
    (opensDoctype start = true →
      match (lex (source markup)).findSome? Token.root? with
      | none => parse collapsing markup = .error .emptyDocument
      | some root => root.name = Builder.html ∧ ∃ tree, parse collapsing markup = .ok tree ∧
          r.IsPage
            [⟨.directive, (Doctype.read ((skipBlank (source markup)).drop 9)).render Builder.html⟩]
            root tree) ∧
    (opensPage start = false → opensPage (fromConstruct markup) = true ∨ leadsPage markup = false →
      ∃ tree, parse collapsing markup = .ok tree ∧ r.IsFragment (ownTags markup) tree) ∧
    (opensPage (fromConstruct markup) = false → leadsPage markup = true →
      asciiLower (trimStart markup) = rootWord ∧ parse collapsing markup = .error .emptyDocument ∨
        ∃ tree, parse collapsing markup = .ok tree ∧ r.IsPage [] ⟨Builder.html, []⟩ tree) := by
  refine ⟨parse_root, parse_doctype, fun hd h => parse_fragment collapsing ?_, fun h hl => parse_pretended hl h⟩
  rw [startsDocument_prepare]
  rcases h with h | h
  · exact leadsPage_of_hidden h hd
  · exact h

/-- An element with a longer name gets a root around it; behind a comment the root is lost. -/
theorem skeleton_of_parse_longerName :
    (∃ tree, parse true "<html-foo>x</html-foo>".toList = .ok tree ∧
      (Recovery.of "<html-foo>x</html-foo>".toList).IsPage [] ⟨Builder.html, []⟩ tree) ∧
    ∃ tree, parse true "<!--x--><html lang=en></html>".toList = .ok tree ∧
      (Recovery.of "<!--x--><html lang=en></html>".toList).IsFragment
        (ownTags "<!--x--><html lang=en></html>".toList) tree := by
  constructor
  · refine ((skeleton_of_parse true "<html-foo>x</html-foo>".toList).2.2.2 ?_ ?_).resolve_left ?_
    · decide +kernel
    · decide +kernel
    · rintro ⟨h, -⟩
      exact absurd h (by decide +kernel)
  · refine (skeleton_of_parse true "<!--x--><html lang=en></html>".toList).2.2.1 ?_ (Or.inr ?_)
    · decide +kernel
    · decide +kernel

end Markup
end InlineBinding
