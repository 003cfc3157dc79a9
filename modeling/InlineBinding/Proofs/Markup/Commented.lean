import InlineBinding.Proofs.Html.Commented
import InlineBinding.Proofs.Markup.Reread
import InlineBinding.Proofs.Markup.Skeleton

/-!
# A comment in a fragment

Markup of containers with a comment in it is read as a fragment: the comment is one leaf, with its
ampersands masked, between what is read of the markup before it and behind it.
-/
namespace InlineBinding

namespace Html
open Text

/-- Characters that are read as others: ampersands, returns and null characters. -/
def unsteadyChars : Text := ['&', '\r', Char.ofNat 0]

/-- Containers whose texts and values are read as they are written. -/
structure Canonical (t : Tree) : Prop where
  plain : Plain t
  contained : Contained t
  steady : ∀ d ∈ data t, ∀ x ∈ unsteadyChars, x ∉ d

/-- Whether a tree is canonical can be read off its characters. -/
instance (t : Tree) : Decidable (Canonical t) :=
  decidable_of_iff (Plain t ∧ Contained t ∧
      ∀ d ∈ data t, (unsteadyChars.all fun x => !d.contains x) = true) (by
    simp only [List.all_eq_true, Bool.not_eq_true', ← Bool.not_eq_true, List.contains_iff_mem]
    exact ⟨fun ⟨h, hc, hs⟩ => ⟨h, hc, hs⟩, fun h => ⟨h.plain, h.contained, h.steady⟩⟩)

theorem Enclosed.map {c : Text} {f : Char → Char} (h : Enclosed c) (hf : Steady f "->!".toList) :
    Enclosed (c.map f) := by
  have hsteady {w : Text} (hw : w ⊆ "->!".toList) : Steady f w := fun x hx => hf x (hw hx)
  constructor
  · exact ⟨fun hp => h.start.1 ((hsteady (by decide)).prefix_map_iff.1 hp),
      fun hp => h.start.2 ((hsteady (by decide)).prefix_map_iff.1 hp)⟩
  · exact ⟨fun hi => h.inside.1 ((hsteady (by decide)).infix_of_infix_map hi),
      fun hi => h.inside.2 ((hsteady (by decide)).infix_of_infix_map hi)⟩

end Html

namespace Markup
open Text Html

/-- A comment between two parts. -/
def around (t u : Html.Tree) (c : Text) : Text :=
  write false t ++ (commented c ++ write false u)

section Around

variable {t u : Html.Tree} {c : Text} (ht : Canonical t) (hu : Canonical u)

include ht in
theorem notMem_canonical {x : Char} (hx : x ∈ unsteadyChars) : x ∉ write false t := by
  have hwritten : ∀ x ∈ unsteadyChars, x ∉ writtenChars := forall_mem_of_all (by decide)
  exact notMem_write ht.plain (hwritten x hx) (fun d hd => ht.steady d hd x hx) false

include ht in
theorem map_masked_canonical (mask : Option Char) :
    (write false t).map (masked mask) = write false t :=
  map_masked_eq_self mask (notMem_canonical ht (by decide))

include ht hu in
theorem map_masked_around (markup : Text) : (around t u c).map (masked (pickMask markup)) =
    around t u (c.map (masked (pickMask markup))) := by
  have hends : Steady (masked (pickMask markup)) ("<!--".toList ++ "-->".toList) :=
    steady_masked_of markup (forall_mem_of_all (by decide))
  have hopen : "<!--".toList.map (masked (pickMask markup)) = "<!--".toList :=
    Steady.map_eq fun x hx => hends x (List.mem_append_left _ hx)
  have hclose : "-->".toList.map (masked (pickMask markup)) = "-->".toList :=
    Steady.map_eq fun x hx => hends x (List.mem_append_right _ hx)
  rw [around, around, commented, commented]
  simp only [List.map_append, map_masked_canonical ht, map_masked_canonical hu, hopen, hclose]

theorem steady_sectionDelimiters (markup : Text) : Steady (masked (pickMask markup))
    (sectionDelimiters.opening ++ sectionDelimiters.closing) :=
  steady_masked_of markup (forall_mem_of_all (by decide))

include ht hu in
theorem prepare_around (hc : Sectionless (around t u c)) : Recovery.prepare (around t u c) =
    around t u (c.map (masked (pickMask (around t u c)))) := by
  rw [Recovery.prepare, maskWith_eq_map,
    hideSections_of_sectionless (hc.map (steady_sectionDelimiters _)), map_masked_around ht hu]

theorem sections_around (hc : Sectionless (around t u c)) :
    (Recovery.of (around t u c)).sections = [] := by
  change sectionTable (Recovery.maskWith _ _) = []
  rw [maskWith_eq_map, sectionTable_of_sectionless (hc.map (steady_sectionDelimiters _))]

/-- A word at the start of a document is at the start of no container. -/
theorem leads_around {w : Text} (hw : '<' :: w = doctypeWord ∨ '<' :: w = rootWord) (hp : Plain t)
    (hc : Contained t) (s : Text) :
    leads ('<' :: w) (write false t ++ (commented c ++ s)) = false := by
  have hangle (r : Text) : leads ('<' :: w) ('<' :: r) = startsWith w r :=
    leads_append (fun _ hx => absurd hx List.not_mem_nil) r
  have hwords := eq_pageWord hw
  induction t with
  | nil =>
    rw [write, List.nil_append, commented]
    refine (hangle _).trans ?_
    rcases hwords with rfl | rfl <;> rfl
  | element v cs rest _ _ =>
    have hnames : ∀ n ∈ containerNames, n = "div".toList ∨ n = "span".toList := by decide
    have hname : v.name ∈ containerNames := hc v List.mem_cons_self
    rw [write, if_pos (List.contains_iff_mem.2 hname), writeOpening]
    refine (hangle _).trans ?_
    rcases hwords with rfl | rfl <;> rcases hnames _ hname with h | h <;> rw [h] <;> rfl
  | leaf l rest ih =>
    cases l with
    | text d =>
      obtain ⟨-, hd, -, hrest⟩ := hp
      rw [write, List.append_assoc, leads, trimStart, List.dropWhile_append]
      split
      · exact ih hrest hc
      · rename_i hne
        obtain ⟨x, r, hx⟩ := List.exists_cons_of_ne_nil
          (fun he => hne (List.isEmpty_iff.2 he) : d.dropWhile isSpace ≠ [])
        have hmem : x ∈ d := List.dropWhile_subset isSpace (hx ▸ List.mem_cons_self)
        have hfirst : (asciiLowerChar x == '<') = false :=
          beq_eq_false_iff_ne.2 fun he => (hd x hmem).1 (eq_of_asciiLowerChar he (by decide))
        rw [hx, List.cons_append, startsWith_cons, hfirst, Bool.false_and]
    | comment d => exact hp.elim

theorem startsDocument_around (ht : Canonical t) :
    Recovery.startsDocument (Recovery.prepare (around t u c)) = false := by
  rw [startsDocument_prepare, leadsPage, Bool.or_eq_false_iff]
  exact ⟨leads_around (Or.inl rfl) ht.plain ht.contained _,
    leads_around (Or.inr rfl) ht.plain ht.contained _⟩

/-! ## Reading -/

include ht hu in
/-- What is read of containers with a comment between them, in a document of its own. -/
theorem read_around (hc : Enclosed c) (hr : '\r' ∉ c ∧ Char.ofNat 0 ∉ c) :
    (Html.read (Recovery.wrapFragment (around t u c))).nodes =
      .element ⟨Builder.html, []⟩ (.element ⟨Builder.body, []⟩
        (t ++ .leaf (.comment c) u) .nil) .nil := by
  have hnest {t : Html.Tree} (ht : Canonical t) : nest false t = t :=
    (nest_false_eq_self_iff ht.plain).2 (shapesLast_of_contained ht.contained)
  have hamp {t : Html.Tree} (ht : Canonical t) : ∀ d ∈ data t, '&' ∉ d :=
    fun d hd => ht.steady d hd '&' (by decide)
  have habsent {x : Char} (hx : x ∈ unsteadyChars) (hxc : x ∉ c) :
      x ∉ Recovery.wrapFragment (around t u c) := by
    have hends : ∀ x ∈ unsteadyChars, x ∉ "<html><body>".toList ∧ x ∉ "</body></html>".toList ∧
        x ∉ "<!--".toList ∧ x ∉ "-->".toList := forall_mem_of_all (by decide)
    obtain ⟨hfront, hback, hopen, hclose⟩ := hends x hx
    have hcomment : x ∉ commented c := by
      rw [commented, List.mem_append, List.mem_append]
      rintro ((h | h) | h)
      · exact hopen h
      · exact hxc h
      · exact hclose h
    unfold Recovery.wrapFragment
    rw [around, List.mem_append, List.mem_append, List.mem_append, List.mem_append]
    rintro ((h | h | h | h) | h)
    · exact hfront h
    · exact notMem_canonical ht hx h
    · exact hcomment h
    · exact notMem_canonical hu hx h
    · exact hback h
  have hreturn := habsent (x := '\r') (by decide) hr.1
  have hnull := habsent (x := Char.ofNat 0) (by decide) hr.2
  have hnormal : Html.normalize (Recovery.wrapFragment (around t u c)) =
      Recovery.wrapFragment (around t u c) := by
    have hsame : ∀ x ∈ Recovery.wrapFragment (around t u c), readable x = id x := by
      intro x hx
      apply if_neg
      intro hz
      rw [← Char.ofNat_toNat x, hz] at hx
      exact hnull hx
    rw [normalize_wrapFragment_eq_map hreturn, List.map_congr_left hsame, List.map_id]
  have hlex : lex (Recovery.wrapFragment (around t u c)) =
      .startTag ⟨Builder.html, []⟩ false :: .startTag ⟨Builder.body, []⟩ false ::
        (tokens false t ++ .comment c :: (tokens false u ++
          [.endTag Builder.body, .endTag Builder.html])) := by
    rw [wrapFragment_eq, lex_bare (by decide), lex_bare (by decide), around, List.append_assoc,
      lex_write ht.plain (hamp ht) false (Or.inr rfl), List.append_assoc, lex_commented _ hc,
      lex_write hu.plain (hamp hu) false (Or.inr rfl), lex_fragmentEnd]
  rw [Html.read, hnormal, hlex]
  exact (Builder.build_commented ht.plain ht.contained hu.plain c).trans (by rw [hnest ht, hnest hu])

include ht hu in
/-- The comment is a leaf between what is read of the two parts. -/
theorem parse_around (hc : Enclosed c) (hr : '\r' ∉ c ∧ Char.ofNat 0 ∉ c)
    (hs : Sectionless (around t u c)) (collapsing : Bool) :
    let r := Recovery.of (around t u c)
    parse collapsing (around t u c) = .ok (r.nodes (!collapsing) t ++
      .leaf ⟨.comment, c.map (masked (pickMask (around t u c)))⟩ (r.nodes (!collapsing) u)) := by
  intro r
  have hmasked : Enclosed (c.map (masked (pickMask (around t u c)))) :=
    hc.map (steady_masked_of _ (forall_mem_of_all (by decide)))
  have hkept {x : Char} (hx : x ≠ '&' ∧ x.toNat < 0xe000) (hxc : x ∉ c) :
      x ∉ c.map (masked (pickMask (around t u c))) := by
    have hsteady := steady_masked_of (around t u c) (p := [x])
      (by simpa using hx) x (List.mem_singleton_self x)
    intro hm
    obtain ⟨y, hy, he⟩ := List.mem_map.1 hm
    exact hxc ((hsteady y).1 he ▸ hy)
  have hread := read_around ht hu hmasked ⟨hkept (by decide) hr.1, hkept (by decide) hr.2⟩
  have hleaf (data : Text) : r.commentLeaf data = ⟨.comment, data⟩ := by
    rw [Recovery.commentLeaf, sections_around hs]
    rfl
  rw [parse, if_neg (by rw [startsDocument_around ht]; exact Bool.false_ne_true),
    prepare_around ht hu hs, Recovery.fragment, hread]
  simp only [Forest.root?, Recovery.sectionContents, decide_true, Bool.or_true, if_true]
  rw [Recovery.nodes_append, Recovery.nodes, hleaf, Forest.append_nil]

end Around

end Markup
end InlineBinding
