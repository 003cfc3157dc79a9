import InlineBinding.Proofs.Binding.Kept
import InlineBinding.Proofs.Binding.Retained
import InlineBinding.Proofs.Delimiters.Grammar
import InlineBinding.Proofs.Text.Separated

/-!
# What the values of attributes are made of

A value after a scan is put together from texts that were there before: its own, and in a directive
all that is bound to the element. A word with no part in what bindings are written with comes from
one of these, and none of them loses it.
-/
namespace InlineBinding

/-- A word that begins with an angle and holds nothing that bindings and their clauses are written
with. -/
structure Text.Aside (w : Text) : Prop extends w.Solid where
  head : ∃ v, w = '<' :: v
  notMem : ∀ c ∈ "\x7b\x7d'\"\\&,:+ ().\n\r".toList, c ∉ w

namespace Text.Aside
open Accessor Literal Delimiters

variable {w : Text} (hw : w.Aside)

include hw

theorem angle_mem : '<' ∈ w := by
  obtain ⟨v, rfl⟩ := hw.head
  exact List.mem_cons_self

/-- Text of such characters shares none with the word. -/
theorem apart {s : Text} (hs : s.all (· ∈ "\x7b\x7d'\"\\&,:+ ().\n\r".toList) = true) :
    ∀ c ∈ s, c ∉ w := fun c hc =>
  hw.notMem c (forall_mem_of_all (p := (· ∈ "\x7b\x7d'\"\\&,:+ ().\n\r".toList)) hs c hc)

/-- It is not in a text without angles. -/
theorem not_infix {t : Text} (ht : '<' ∉ t) : ¬ w <:+: t := fun h => ht (h.subset hw.angle_mem)

theorem infix_quoteValue_iff {t : Text} : w <:+: Markup.quoteValue (.text t) ↔ w <:+: t := by
  constructor
  · intro h
    obtain ⟨v, rfl⟩ := hw.head
    rw [Markup.quoteValue_eq] at h
    refine infix_of_infix_flatMap (fun c => ?_) h
    split
    · refine Or.inr ⟨by decide, '&', "quot;".toList, rfl, fun hm => ?_⟩
      exact hw.notMem '&' (by decide) (List.mem_cons_of_mem _ hm)
    · exact Or.inl rfl
  · rintro ⟨a, b, rfl⟩
    rw [Markup.quoteValue_append, Markup.quoteValue_append,
      Markup.quoteValue_eq_self (hw.notMem '"' (by decide))]
    exact ⟨_, _, rfl⟩

theorem infix_escape_iff {t : Text} : w <:+: escape t ↔ w <:+: t := by
  constructor
  · intro h
    obtain ⟨v, rfl⟩ := hw.head
    refine infix_of_infix_escape (by decide) (fun hm => ?_) (fun hm => ?_) h
    · exact hw.notMem '\\' (by decide) (List.mem_cons_of_mem _ hm)
    · exact hw.notMem '&' (by decide) (List.mem_cons_of_mem _ hm)
  · rintro ⟨a, b, rfl⟩
    have hescaped : ∀ c ∈ escaped, c ∉ w := hw.apart (by decide)
    have hself : escape w = w := escape_eq_self fun c hc he => hescaped c he hc
    rw [escape_append, escape_append, hself]
    exact ⟨_, _, rfl⟩

/-- White space and paths hold no angle. -/
theorem not_infix_between {a p b : Text} (ha : ∀ c ∈ a, isSpace c = true) (hp : IsPath p)
    (hb : ∀ c ∈ b, isSpace c = true) : ¬ w <:+: a ++ p ++ b :=
  hw.not_infix (notMem_between ha hp hb (by decide) (by decide) (by decide))

theorem infix_quote_iff {t : Text} : w <:+: quote t ↔ w <:+: t := by
  have hq : ∀ c ∈ ['\''], c ∉ w := hw.apart (by decide)
  have hquote : quote t = ['\''] ++ escape t ++ ['\''] := by rw [quote, List.singleton_append]
  rw [hquote, ← hw.infix_escape_iff (t := t)]
  generalize escape t = u
  exact ⟨infix_of_disjoint hw.ne_nil hq hq, fun h => h.trans ⟨['\''], ['\''], rfl⟩⟩

/-! ## Bindings in braces -/

/-- Where it is not between the braces, it stands before them or behind them. -/
theorem infix_braced_iff {l m r : Text} (hm : ¬ w <:+: m) :
    w <:+: l ++ ['\x7b'] ++ (m ++ ['\x7d'] ++ r) ↔ w <:+: l ∨ w <:+: r := by
  have hopen : ∀ c ∈ ['\x7b'], c ∉ w := hw.apart (by decide)
  have hclose : ∀ c ∈ ['\x7d'], c ∉ w := hw.apart (by decide)
  rw [infix_separated_iff hw.ne_nil (List.cons_ne_nil _ _) hopen,
    infix_separated_iff hw.ne_nil (List.cons_ne_nil _ _) hclose, or_iff_right hm]

section Braces

variable {t : Text} {cs : List Text}

/-- It stands in a literal, and no binding cuts it. -/
theorem infix_splits_iff (h : braces.Splits t cs) :
    w <:+: t ↔ ∃ c, .literal c ∈ Chunk.alternate false cs ∧ w <:+: c := by
  induction h with
  | literal _ => simp [Chunk.alternate]
  | @binding literal s a p b r cs _ takes _ ih =>
    have htext : literal ++ s = literal ++ ['\x7b'] ++ (a ++ p ++ b ++ ['\x7d'] ++ r) := by
      rw [takes.text]
      simp [braces]
    simp only [Chunk.alternate, List.mem_cons, Chunk.literal.injEq, reduceCtorEq, false_or,
      or_and_right, exists_or, exists_eq_left, ← ih]
    rw [htext, hw.infix_braced_iff]
    exact hw.not_infix_between takes.spaceBefore takes.isPath takes.spaceBehind

theorem infix_placeholder_iff (marks : LiteralMarks) :
    w <:+: (Expression.compile doubleBraces marks (braces.split t)).placeholder ↔ w <:+: t := by
  have hsplits := splits_split braces t
  rw [hw.infix_splits_iff hsplits]
  change w <:+: (Chunk.alternate false (braces.split t)).flatMap (Expression.place doubleBraces) ↔ _
  generalize braces.split t = cs at hsplits ⊢
  induction hsplits with
  | literal _ => simp [Chunk.alternate, Expression.place]
  | @binding literal s a p b r cs _ takes _ ih =>
    have hplace : (Chunk.alternate false (literal :: p :: cs)).flatMap
        (Expression.place doubleBraces) = literal ++ ['\x7b'] ++
          ('\x7b' :: (p ++ "()\x7d".toList) ++ ['\x7d'] ++
            (Chunk.alternate false cs).flatMap (Expression.place doubleBraces)) := by
      simp [Chunk.alternate, Expression.place, doubleBraces, wrap]
    have hpath : '<' ∉ p := takes.isPath.notMem (by decide) (by decide)
    rw [hplace, hw.infix_braced_iff (hw.not_infix (by simp [hpath]))]
    simp only [Chunk.alternate, List.mem_cons, Chunk.literal.injEq, reduceCtorEq,
      false_or, or_and_right, exists_or, exists_eq_left, ← ih]

theorem infix_expression_iff (output : Delimiters) :
    w <:+: (Expression.compile output [] (braces.split t)).expression ↔ w <:+: t := by
  have hplus : ∀ c ∈ " + ".toList, c ∉ w := hw.apart (by decide)
  rw [hw.infix_splits_iff (splits_split braces t), Expression.compile,
    infix_intercalate_iff hw.ne_nil (by decide) hplus]
  constructor
  · rintro ⟨s, hs, h⟩
    rcases Expression.cases_of_mem_terms hs with rfl | ⟨c, hc, rfl⟩ | ⟨p, hp, rfl⟩
    · exact absurd (hw.infix_quote_iff.1 h) (hw.not_infix List.not_mem_nil)
    · exact ⟨c, hc, hw.infix_quote_iff.1 h⟩
    · have hcall := notMem_call (isPath_of_path_mem hp) (x := '<') (by decide) (by decide)
      exact absurd h (hw.not_infix hcall)
  · rintro ⟨c, hc, h⟩
    have hterm : Expression.term? [] (.literal c) = some (quote c) := by
      obtain ⟨a, c, rfl⟩ := List.exists_cons_of_ne_nil
        (fun he => hw.not_infix List.not_mem_nil (he ▸ h) : c ≠ [])
      rfl
    refine ⟨quote c, List.mem_append_right _ ?_, hw.infix_quote_iff.2 h⟩
    exact List.mem_filterMap.2 ⟨_, hc, hterm⟩

end Braces

/-! ## Directives -/

theorem infix_opened_iff {v : Text} : w <:+: Binding.Attacher.opened v ↔ w <:+: v := by
  refine ⟨fun h => ?_, Binding.Attacher.infix_opened hw.toSolid⟩
  have htrim : trim v <:+: v := by
    rw [trim_eq]
    exact (List.rdropWhile_prefix _ _).isInfix.trans (List.dropWhile_suffix _).isInfix
  have hcomma : ∀ c ∈ [','], c ∉ w := hw.apart (by decide)
  refine List.IsInfix.trans ?_ htrim
  rw [Binding.Attacher.opened] at h
  split at h
  · exact h
  · exact infix_of_disjoint (a := []) hw.ne_nil (by simp) hcomma h

theorem infix_directive_iff {v : Text} {cs : List Text} :
    w <:+: Binding.Attacher.opened v ++ List.intercalate [','] cs ↔
      w <:+: v ∨ ∃ c ∈ cs, w <:+: c := by
  have hcomma : ∀ c ∈ [','], c ∉ w := hw.apart (by decide)
  rw [← infix_intercalate_iff hw.ne_nil (List.cons_ne_nil _ _) hcomma,
    ← hw.infix_opened_iff (v := v)]
  rcases Binding.Attacher.opened_cases v with he | ⟨x, he⟩
  · rw [he, List.nil_append, or_iff_right (hw.not_infix List.not_mem_nil)]
  · have hx : w <:+: x ++ [','] ↔ w <:+: x := by
      rw [← List.append_nil (x ++ [',']),
        infix_separated_iff hw.ne_nil (List.cons_ne_nil _ _) hcomma,
        or_iff_left (hw.not_infix List.not_mem_nil)]
    rw [he, infix_separated_iff hw.ne_nil (List.cons_ne_nil _ _) hcomma, hx]

end Text.Aside

theorem Markup.Tag.Textual.exists_text {t : Markup.Tag} (h : t.Textual) {name : Text}
    {v : Markup.Value} (hv : t.attributes.get? name = some v) : ∃ y, v = .text y := by
  obtain ⟨as, bs, he, -⟩ := List.lookup_eq_some_iff.1 hv
  have htext := h (name, v) (he ▸ List.mem_append_right _ List.mem_cons_self)
  cases v with
  | text y => exact ⟨y, rfl⟩
  | null => exact absurd htext (by simp [Markup.Value.isText])
  | flag b => exact absurd htext (by simp [Markup.Value.isText])
  | number n => exact absurd htext (by simp [Markup.Value.isText])

namespace Binding
open Linked Markup

/-- The scan with nothing set, of markup with the given recovery. -/
def standardScan (r : Recovery) : Scan := Scan.of .default r (Attacher.ofOptions .default)

/-- What the value of an attribute is made of: its value before, and in a directive the handlers and
the sources of all that is attached to the element. -/
def Scan.sources (s : Scan) (xs : List Attachment) (a : Anchor) (t : Tag) (name : Text) :
    List Text :=
  ((t.attributes.get? name).map Value.render).toList ++
    if name = s.attacher.directiveName then
      (xs.filter fun x => x.anchor = a).flatMap fun x => [x.handler s.attacher.dialect, x.source]
    else []

namespace Scan

section Standard

variable {r : Recovery} {w : Text} (hw : w.Aside)

theorem skips_standardScan (r : Recovery) : (standardScan r).skipped.contains
    (Text.lower (standardScan r).attacher.directiveName) = true := by
  have h : Options.default.bindingAttribute ∈ Options.default.skipAttributes := by decide
  exact Options.skips_bindingAttribute h

theorem tidy_standardScan (r : Recovery) (x : Attachment) :
    Attacher.Tidy ((standardScan r).clause x) :=
  tidy_clause rfl (fun _ h => absurd h List.not_mem_nil) x

include hw

theorem infix_clause_iff {x : Attachment} : w <:+: (standardScan r).clause x ↔
    w <:+: x.handler .default ∨ w <:+: x.source := by
  have hcolon : ∀ c ∈ [':'], c ∉ w := hw.apart (by decide)
  have hclause : (standardScan r).clause x = x.handler .default ++ [':'] ++
      (Expression.compile .doubleBraces [] (Delimiters.braces.split x.source)).expression := by
    rw [List.append_assoc, List.singleton_append]
    rfl
  rw [hclause, ← hw.infix_expression_iff .doubleBraces (t := x.source),
    Text.infix_separated_iff hw.ne_nil (List.cons_ne_nil _ _) hcolon]

theorem infix_clausesAt_iff {xs : List Attachment} {a : Anchor} :
    (∃ c ∈ (standardScan r).clausesAt xs a, w <:+: c) ↔
      ∃ z ∈ (xs.filter fun x => x.anchor = a).flatMap fun x =>
        [x.handler (standardScan r).attacher.dialect, x.source], w <:+: z := by
  constructor
  · rintro ⟨c, hc, h⟩
    obtain ⟨x, hx, rfl⟩ := List.mem_map.1 hc
    rcases (infix_clause_iff hw).1 h with h | h
    · exact ⟨_, List.mem_flatMap.2 ⟨x, hx, List.mem_cons_self⟩, h⟩
    · exact ⟨_, List.mem_flatMap.2 ⟨x, hx, by simp⟩, h⟩
  · rintro ⟨z, hz, h⟩
    obtain ⟨x, hx, hz⟩ := List.mem_flatMap.1 hz
    refine ⟨(standardScan r).clause x, List.mem_map_of_mem hx, (infix_clause_iff hw).2 ?_⟩
    simp only [List.mem_cons, List.not_mem_nil, or_false] at hz
    rcases hz with rfl | rfl
    · exact Or.inl h
    · exact Or.inr h

variable {store : Store} {f : Shape} {a : Anchor} {t : Tag}

theorem infix_directiveWith_iff (htextual : t.Textual) {xs : List Attachment} {v : Value}
    (hv : (standardScan r).attacher.directiveWith t ((standardScan r).clausesAt xs a) = some v) :
    w <:+: quoteValue v ↔
      ∃ z ∈ (standardScan r).sources xs a t (standardScan r).attacher.directiveName, w <:+: z := by
  set s := standardScan r
  have hbefore : w <:+: s.attacher.directiveText t ↔
      ∃ z ∈ ((t.attributes.get? s.attacher.directiveName).map Value.render).toList, w <:+: z := by
    rw [Attacher.directiveText]
    cases hg : t.attributes.get? s.attacher.directiveName with
    | none => simp [hw.not_infix]
    | some u =>
      obtain ⟨y, rfl⟩ := htextual.exists_text hg
      simp [Value.render]
  simp only [sources, if_pos, List.mem_append, or_and_right, exists_or]
  rw [← hbefore, ← infix_clausesAt_iff hw]
  cases hcs : s.clausesAt xs a with
  | nil =>
    rw [hcs, Attacher.directiveWith] at hv
    obtain ⟨y, rfl⟩ := htextual.exists_text hv
    rw [hw.infix_quoteValue_iff, Attacher.directiveText, hv]
    simp
  | cons c cs =>
    rw [hcs, Attacher.directiveWith] at hv
    obtain rfl := Option.some.inj hv
    rw [hw.infix_quoteValue_iff, hw.infix_directive_iff]

/-- A value holds a word of this kind if and only if one of its sources does. -/
theorem infix_value_iff (ht : (standardScan r).firstTag? store a = some t)
    (htextual : t.Textual) (hnodup : t.attributes.names.Nodup) {q : Text × Value}
    (hq : q ∈ ((standardScan r).tagAfter
      ((standardScan r).attachments store none .nothing f) a t).attributes) :
    w <:+: quoteValue q.2 ↔ ∃ z ∈ (standardScan r).sources
      ((standardScan r).attachments store none .nothing f) a t q.1, w <:+: z := by
  set s := standardScan r with hs
  set xs := s.attachments store none .nothing f with hxs
  have hdirected : s.Directed xs a t (s.tagAfter xs a t) :=
    directed_tagAfter (skips_standardScan r) (tidy_standardScan r) ht
  have hget := Attributes.get?_of_mem (nodup_names_tagAfter xs a hnodup) hq
  by_cases hn : q.1 = s.attacher.directiveName
  · rw [hn, hdirected.merged] at hget
    rw [hn]
    exact infix_directiveWith_iff hw htextual hget
  · have hsources : s.sources xs a t q.1 =
        ((t.attributes.get? q.1).map Value.render).toList := by
      rw [sources, if_neg hn, List.append_nil]
    rw [hsources]
    by_cases hx : ∃ i value, .attr i q.1 value ∈ xs ∧ .element i = a
    · obtain ⟨i, value, hx, rfl⟩ := hx
      rw [get?_tagAfter_attachments ht hnodup hn hx] at hget
      rw [← Option.some.inj hget, get?_of_attr_mem ht hnodup hx, hw.infix_quoteValue_iff]
      have hplace : w <:+: s.placeholder (.attr i q.1 value) ↔ w <:+: value :=
        hw.infix_placeholder_iff []
      simp [hplace, Value.render]
    · rw [get?_tagAfter_of_ne hn fun i value hv he => hx ⟨i, value, hv, he⟩] at hget
      obtain ⟨y, hy⟩ := htextual.exists_text hget
      rw [hget, hy, hw.infix_quoteValue_iff]
      simp [Value.render]

end Standard

end Scan
end Binding
end InlineBinding
