import InlineBinding.Proofs.Binding.Attachments
import InlineBinding.Proofs.Delimiters.Split
import InlineBinding.Proofs.Expression.Meaning
import Mathlib.Data.List.DropRight

/-!
# What clauses make of a directive

A directive is trimmed before each clause. Clauses without white space or a comma at their ends
are not touched by that, so a series of them stands in the directive one after the other.
-/
namespace InlineBinding

/-! ## Trimming -/

namespace Text

/-- There is no white space at the ends. -/
structure Tight (s : Text) : Prop where
  head : ∀ c ∈ s.head?, isSpace c = false
  last : ∀ c ∈ s.getLast?, isSpace c = false

theorem trim_eq (s : Text) : trim s = (s.dropWhile isSpace).rdropWhile isSpace := rfl

theorem Tight.trim_eq {s : Text} (h : s.Tight) : trim s = s := by
  have hs : s.dropWhile isSpace = s := by
    cases s with
    | nil => rfl
    | cons c s => simp [h.head c rfl]
  rw [Text.trim_eq, hs, List.rdropWhile_eq_self_iff]
  intro hn
  simpa using h.last _ (List.getLast?_eq_some_getLast hn)

theorem tight_trim (s : Text) : (trim s).Tight := by
  constructor
  · intro c hc
    obtain ⟨t, ht⟩ := List.rdropWhile_prefix isSpace (s.dropWhile isSpace)
    have hd : (s.dropWhile isSpace).head? = some c := by
      rw [← ht, List.head?_append, ← Text.trim_eq, Option.mem_def.1 hc]
      rfl
    simpa [hd] using List.head?_dropWhile_not isSpace s
  · intro c hc
    have hn : trim s ≠ [] := by
      rintro h
      simp [h] at hc
    have hl := List.rdropWhile_last_not isSpace (s.dropWhile isSpace) hn
    rw [Option.mem_def, List.getLast?_eq_some_getLast hn, Option.some.injEq] at hc
    rw [← hc]
    exact eq_false_of_ne_true hl

theorem Tight.append {s t : Text} (hs : s.Tight) (ht : t.Tight) : (s ++ t).Tight := by
  constructor
  · intro c hc
    cases s with
    | nil => exact ht.head c hc
    | cons a s => exact hs.head c hc
  · intro c hc
    rw [List.getLast?_append] at hc
    cases hl : t.getLast? with
    | none => exact hs.last c (by simpa [hl] using hc)
    | some d => exact ht.last c (by simpa [hl] using hc)

end Text

theorem Markup.Attributes.get?_set_of_ne {as : Attributes} {name other : Text} {v : Value}
    (h : name ≠ other) : (as.set name v).get? other = as.get? other := by
  induction as with
  | nil => simp [Attributes.set, get?, List.lookup_cons, beq_false_of_ne h.symm]
  | cons a as ih =>
    obtain ⟨k, u⟩ := a
    rw [Attributes.set]
    split
    · rename_i hk
      obtain rfl : k = name := hk
      simp [get?, List.lookup_cons, beq_false_of_ne h.symm]
    · simp only [get?, List.lookup_cons] at ih ⊢
      rw [ih]

namespace Binding
open Linked Markup

/-! ## One clause after the other -/

namespace Attacher

/-- A directive with all that stands before the next clause. -/
def opened (v : Text) : Text :=
  let v := Text.trim v
  if v = [] ∨ v.getLast? = some ',' then v else v ++ [',']

/-- Clauses that do not run into each other. -/
structure Tidy (c : Text) : Prop where
  ne_nil : c ≠ []
  tight : c.Tight
  comma : c.getLast? ≠ some ','

theorem opened_cases (v : Text) : opened v = [] ∨ ∃ x, opened v = x ++ [','] := by
  rw [opened]
  split
  · rename_i h
    rcases h with h | h
    · exact Or.inl h
    · obtain ⟨x, hx⟩ := List.getLast?_eq_some_iff.1 h
      exact Or.inr ⟨x, hx⟩
  · exact Or.inr ⟨_, rfl⟩

theorem extend_eq (v c : Text) : extend v c = opened v ++ c := by
  simp only [extend, opened, List.isEmpty_iff, Bool.or_eq_true, decide_eq_true_eq]
  split <;> simp

theorem tight_opened (v : Text) : (opened v).Tight := by
  have ht := Text.tight_trim v
  rw [opened]
  split
  · exact ht
  · exact ht.append ⟨by simp; decide, by simp; decide⟩

theorem opened_append {v c : Text} (hv : v.Tight) (hc : Tidy c) :
    opened (v ++ c) = v ++ c ++ [','] := by
  have hn : v ++ c ≠ [] := by simp [hc.ne_nil]
  have hl : (v ++ c).getLast? = c.getLast? := by
    rw [List.getLast?_append, List.getLast?_eq_some_getLast hc.ne_nil]
    rfl
  rw [opened, (hv.append hc.tight).trim_eq]
  exact if_neg (by simp [hc.ne_nil, hl, hc.comma])

/-- A series of clauses. -/
theorem foldl_extend (v : Text) {c : Text} {cs : List Text} (h : ∀ x ∈ c :: cs, Tidy x) :
    (c :: cs).foldl extend v = opened v ++ List.intercalate [','] (c :: cs) := by
  induction cs generalizing v c with
  | nil => rw [List.foldl_cons, extend_eq, List.intercalate_singleton, List.foldl_nil]
  | cons c' cs ih =>
    rw [List.foldl_cons, ih _ fun x hx => h x (List.mem_cons_of_mem c hx), extend_eq,
      opened_append (tight_opened v) (h c List.mem_cons_self), List.intercalate_cons_cons]
    simp

/-- The directive of an element that gets the given clauses. -/
def directiveWith (a : Attacher) (t : Tag) : List Text → Option Value
  | [] => t.attributes.get? a.directiveName
  | c :: cs => some (.text (opened (a.directiveText t) ++ List.intercalate [','] (c :: cs)))

end Attacher

/-! ## The ends of a clause -/

theorem Dialect.attributeHandler_cases (name : Text) :
    name = "value".toList ∧ Dialect.default.attributeHandler name = "value".toList ∨
      name = "style".toList ∧ Dialect.default.attributeHandler name = "css".toList ∨
      name ≠ "value".toList ∧ name ≠ "style".toList ∧
        Dialect.default.attributeHandler name = "attr(".toList ++ name ++ [')'] := by
  by_cases hv : name = "value".toList
  · exact Or.inl ⟨hv, by subst hv; rfl⟩
  · by_cases hs : name = "style".toList
    · exact Or.inr (Or.inl ⟨hs, by subst hs; rfl⟩)
    · have hl : attributeHandlers.lookup name = none := by
        rw [attributeHandlers, List.lookup_cons, beq_false_of_ne hv, List.lookup_cons,
          beq_false_of_ne hs]
        rfl
      exact Or.inr (Or.inr ⟨hv, hs, by simp [Dialect.default, hl]⟩)

theorem Dialect.head?_attributeHandler (name : Text) :
    ∃ c, (Dialect.default.attributeHandler name).head? = some c ∧ Text.isSpace c = false := by
  rcases attributeHandler_cases name with ⟨-, he⟩ | ⟨-, he⟩ | ⟨-, -, he⟩
  · exact ⟨'v', by rw [he]; rfl, by decide⟩
  · exact ⟨'c', by rw [he]; rfl, by decide⟩
  · exact ⟨'a', by rw [he]; rfl, by decide⟩

theorem Dialect.head?_textHandler (place : Place) :
    ∃ c, (Dialect.default.textHandler place).head? = some c ∧ Text.isSpace c = false :=
  ⟨'t', rfl, by decide⟩

end Binding

/-- Marks without the quotes that enclose literals. -/
def LiteralMarks.Unquoted (ms : LiteralMarks) : Prop := ∀ m ∈ ms, m.1 ≠ [] ∧ '\'' ∉ m.1

namespace Expression

variable {ms : LiteralMarks}

theorem literal_eq (h : ms.Unquoted) (t : Text) :
    literal ms t =
      '\'' :: ms.foldl (fun s m => Text.replace m.1 m.2 s) (Literal.escape t) ++ ['\''] := by
  rw [literal, Literal.quote]
  generalize Literal.escape t = s
  induction ms generalizing s with
  | nil => rfl
  | cons m ms ih =>
    obtain ⟨hn, hq⟩ := h m List.mem_cons_self
    have hs : Text.replace m.1 m.2 ('\'' :: s ++ ['\'']) =
        '\'' :: Text.replace m.1 m.2 s ++ ['\''] := by
      rw [Text.replace_append_cons _ hn hq, Text.replace_cons_of_notMem _ hn hq,
        Text.replace_nil_of_ne hn]
    rw [List.foldl_cons, hs, ih fun m hm => h m (List.mem_cons_of_mem _ hm), List.foldl_cons]

/-- A term ends with a quote or a bracket. -/
theorem getLast?_of_mem_terms (h : ms.Unquoted) {chunks : List Text} {s : Text}
    (hs : s ∈ terms ms chunks) : ∃ c ∈ ['\'', ')'], s.getLast? = some c := by
  rcases cases_of_mem_terms hs with rfl | ⟨t, -, rfl⟩ | ⟨p, -, rfl⟩
  · exact ⟨'\'', by simp, rfl⟩
  · exact ⟨'\'', by simp, by rw [literal_eq h, List.getLast?_concat]⟩
  · refine ⟨')', by simp, ?_⟩
    rw [Accessor.call]
    split <;> rw [List.getLast?_append] <;> rfl

theorem getLast?_intercalate {sep : Text} {E : List Char} {ss : List Text} (hne : ss ≠ [])
    (h : ∀ s ∈ ss, ∃ c ∈ E, s.getLast? = some c) :
    ∃ c ∈ E, (List.intercalate sep ss).getLast? = some c := by
  induction ss with
  | nil => exact absurd rfl hne
  | cons s ss ih =>
    cases ss with
    | nil =>
      rw [List.intercalate_singleton]
      exact h s List.mem_cons_self
    | cons s' ss =>
      obtain ⟨c, hc, hl⟩ := ih (List.cons_ne_nil s' ss) fun x hx => h x (List.mem_cons_of_mem s hx)
      refine ⟨c, hc, ?_⟩
      rw [List.intercalate_cons_cons, List.getLast?_append, hl]
      rfl

end Expression

namespace Binding
open Linked Markup

namespace Scan

variable {s : Scan} {store : Store}

/-- A clause of the default dialect starts with its handler and ends with its expression. -/
theorem tidy_clause (hd : s.attacher.dialect = Dialect.default) (hm : s.attacher.marks.Unquoted)
    (x : Attachment) : Attacher.Tidy (s.clause x) := by
  have hterms : Expression.terms s.attacher.marks (s.delimiters.split x.source) ≠ [] :=
    Expression.terms_ne_nil (Delimiters.chunks_ne_nil _)
  obtain ⟨c, hc, hl⟩ :
      ∃ c ∈ ['\'', ')'],
        (s.attacher.compile (s.delimiters.split x.source)).expression.getLast? = some c :=
    Expression.getLast?_intercalate hterms fun t ht => Expression.getLast?_of_mem_terms hm ht
  obtain ⟨a, ha, hspace⟩ : ∃ c, (x.handler s.attacher.dialect).head? = some c ∧
      Text.isSpace c = false := by
    rw [hd]
    cases x with
    | attr i name value => exact Dialect.head?_attributeHandler name
    | text i data b place => exact Dialect.head?_textHandler place
  have hclause : s.clause x = x.handler s.attacher.dialect ++
      ':' :: (s.attacher.compile (s.delimiters.split x.source)).expression := by
    rw [clause, hd]
    rfl
  have hlast : (s.clause x).getLast? = some c := by
    rw [hclause, List.getLast?_append, List.getLast?_cons, hl]
    rfl
  have hend : Text.isSpace c = false ∧ c ≠ ',' := by
    simp only [List.mem_cons, List.not_mem_nil, or_false] at hc
    rcases hc with rfl | rfl <;> decide
  refine ⟨?_, ⟨?_, ?_⟩, ?_⟩
  · simp [hclause]
  · intro b hb
    rw [hclause, List.head?_append, ha] at hb
    rwa [← Option.some.inj hb]
  · intro b hb
    rw [hlast] at hb
    rw [← Option.some.inj hb]
    exact hend.1
  · rw [hlast]
    simpa using hend.2

/-! ## The directive of an anchor -/

/-- The clauses for what is attached to an anchor. -/
def clausesAt (s : Scan) (xs : List Attachment) (a : Anchor) : List Text :=
  (xs.filter fun x => x.anchor = a).map s.clause

theorem clausesAt_cons (x : Attachment) (xs : List Attachment) (a : Anchor) :
    s.clausesAt (x :: xs) a =
      if x.anchor = a then s.clause x :: s.clausesAt xs a else s.clausesAt xs a := by
  rw [clausesAt, List.filter_cons]
  split <;> simp_all [clausesAt]

theorem clausesAt_eq_nil_iff {xs : List Attachment} {a : Anchor} :
    s.clausesAt xs a = [] ↔ ∀ x ∈ xs, x.anchor ≠ a := by
  rw [clausesAt, List.map_eq_nil_iff, List.filter_eq_nil_iff]
  simp

theorem mem_boundAttributes_of_mem {owner : Option Id} {before : Before} {f : Shape} {i : Id}
    {name value : Text} (h : .attr i name value ∈ s.attachments store owner before f) :
    (name, value) ∈ s.boundAttributes store i := by
  induction f generalizing owner before with
  | nil => exact absurd h List.not_mem_nil
  | element j cs rest ihc ihr =>
    rw [attachments, List.mem_append, List.mem_append, List.mem_map] at h
    rcases h with ⟨a, ha, he⟩ | h | h
    · obtain ⟨rfl, rfl, rfl⟩ := Attachment.attr.inj he
      exact ha
    · exact ihc h
    · exact ihr h
  | leaf j rest ih =>
    rw [attachments] at h
    split at h
    · exact ih h
    · exact ih (List.mem_of_ne_of_mem (by simp) h)

theorem isBound_eq_some_iff {a : Text × Value} {name value : Text} :
    s.isBound a = some (name, value) ↔ a = (name, .text value) ∧
      s.skipped.contains (Text.lower name) = false ∧ s.delimiters.hasBindings value = true := by
  obtain ⟨other, v⟩ := a
  rw [isBound]
  constructor
  · intro h
    split at h
    · exact absurd h (by simp)
    · rename_i hskip
      split at h
      · rename_i u hu
        split at h
        · rename_i hb
          obtain ⟨rfl, rfl⟩ := Prod.mk.inj (Option.some.inj h)
          exact ⟨Prod.ext rfl hu, eq_false_of_ne_true hskip, hb⟩
        · exact absurd h (by simp)
      · exact absurd h (by simp)
  · rintro ⟨he, hskip, hb⟩
    obtain ⟨rfl, rfl⟩ := Prod.mk.inj he
    rw [if_neg (Bool.eq_false_iff.1 hskip)]
    exact if_pos hb

/-- An attribute of the tag that is searched for bindings and has some. -/
structure BindsAttribute (s : Scan) (t : Tag) (name value : Text) : Prop where
  plain : t.kind = .plain
  mem : (name, .text value) ∈ t.attributes
  unskipped : s.skipped.contains (Text.lower name) = false
  bound : s.delimiters.hasBindings value = true

theorem mem_boundAttributes_iff {i : Id} {name value : Text} :
    (name, value) ∈ s.boundAttributes store i ↔
      ∃ t, store.tag? i = some t ∧ s.BindsAttribute t name value := by
  rw [boundAttributes]
  cases store.tag? i with
  | none => simp
  | some t =>
    dsimp only
    constructor
    · intro h
      split at h
      · rename_i hk
        obtain ⟨a, ha, hb⟩ := List.mem_filterMap.1 h
        obtain ⟨rfl, hskip, hbound⟩ := isBound_eq_some_iff.1 hb
        exact ⟨t, rfl, hk, ha, hskip, hbound⟩
      · exact absurd h List.not_mem_nil
    · rintro ⟨u, hu, h⟩
      obtain rfl := Option.some.inj hu
      rw [if_pos h.plain, List.mem_filterMap]
      exact ⟨_, h.mem, isBound_eq_some_iff.2 ⟨rfl, h.unskipped, h.bound⟩⟩

/-- A bound attribute is one of the element's, and is not skipped. -/
theorem exists_tag_of_mem {i : Id} {name value : Text}
    (h : (name, value) ∈ s.boundAttributes store i) :
    ∃ t, store.tag? i = some t ∧ (name, .text value) ∈ t.attributes ∧
      s.skipped.contains (Text.lower name) = false := by
  obtain ⟨t, ht, hbinds⟩ := mem_boundAttributes_iff.1 h
  exact ⟨t, ht, hbinds.mem, hbinds.unskipped⟩

/-- The directive is no bound attribute, in whatever letters. -/
theorem lower_ne_of_mem (hskip : s.skipped.contains (Text.lower s.attacher.directiveName) = true)
    {i : Id} {name value : Text} (h : (name, value) ∈ s.boundAttributes store i) :
    Text.lower name ≠ Text.lower s.attacher.directiveName := by
  obtain ⟨t, -, -, hn⟩ := exists_tag_of_mem h
  intro he
  rw [he, hskip] at hn
  exact absurd hn (by simp)

theorem name_ne_of_mem (hskip : s.skipped.contains (Text.lower s.attacher.directiveName) = true)
    {i : Id} {name value : Text} (h : (name, value) ∈ s.boundAttributes store i) :
    name ≠ s.attacher.directiveName :=
  fun he => lower_ne_of_mem hskip h (congrArg Text.lower he)

theorem get?_attached {x : Attachment}
    (hx : ∀ i value, x ≠ .attr i s.attacher.directiveName value) (t : Tag) :
    (s.attached x t).attributes.get? s.attacher.directiveName =
      some (.text (Attacher.extend (s.attacher.directiveText t) (s.clause x))) := by
  cases x with
  | attr i name value =>
    have hn : name ≠ s.attacher.directiveName := by
      rintro rfl
      exact hx i value rfl
    rw [attached, Attributes.get?_set_of_ne hn]
    exact Attributes.get?_set_self _ _ _
  | text i data a place => exact Attributes.get?_set_self _ _ _

/-- The clauses of an anchor go into its directive, unless that is attached as an attribute. -/
theorem get?_tagAfter_directive {xs : List Attachment} {a : Anchor} {t : Tag}
    (hx : ∀ i value, .attr i s.attacher.directiveName value ∈ xs → .element i ≠ a) :
    (s.tagAfter xs a t).attributes.get? s.attacher.directiveName =
      if s.clausesAt xs a = [] then t.attributes.get? s.attacher.directiveName
      else some (.text ((s.clausesAt xs a).foldl Attacher.extend (s.attacher.directiveText t))) := by
  induction xs generalizing t with
  | nil => rfl
  | cons x xs ih =>
    rw [tagAfter_cons, ih fun i value h => hx i value (List.mem_cons_of_mem x h), clausesAt_cons]
    by_cases ha : x.anchor = a
    · have hg := get?_attached
        (fun i value he => hx i value (he ▸ List.mem_cons_self) (by rw [← ha, he]; rfl)) t
      rw [if_pos ha, if_pos ha, if_neg (List.cons_ne_nil _ _), Attacher.directiveText, hg,
        List.foldl_cons]
      cases s.clausesAt xs a with
      | nil => rfl
      | cons c cs => exact if_neg (List.cons_ne_nil c cs)
    · rw [if_neg ha, if_neg ha]

/-- Tidy clauses stand in the directive of their anchor, without any it is as it was. -/
theorem get?_tagAfter {xs : List Attachment} (hc : ∀ x ∈ xs, Attacher.Tidy (s.clause x))
    {a : Anchor} (hx : ∀ i value, .attr i s.attacher.directiveName value ∈ xs → .element i ≠ a)
    (t : Tag) : (s.tagAfter xs a t).attributes.get? s.attacher.directiveName =
      s.attacher.directiveWith t (s.clausesAt xs a) := by
  have htidy : ∀ c ∈ s.clausesAt xs a, Attacher.Tidy c := by
    intro c h
    obtain ⟨x, hx, rfl⟩ := List.mem_map.1 h
    exact hc x (List.mem_filter.1 hx).1
  rw [get?_tagAfter_directive hx]
  cases hcs : s.clausesAt xs a with
  | nil => rfl
  | cons c cs =>
    rw [hcs] at htidy
    rw [if_neg (List.cons_ne_nil c cs), Attacher.foldl_extend _ htidy, Attacher.directiveWith]

end Scan
end Binding
end InlineBinding
