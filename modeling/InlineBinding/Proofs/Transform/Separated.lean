import InlineBinding.Proofs.Text.Separated
import InlineBinding.Proofs.Transform.Output

/-!
# Directives read back as clauses

Clauses are separated by commas.  Expressions hold none, literals have them escaped, but a handler
spells the name of an attribute as the document has it.  So a directive that was not there before
splits into its clauses if and only if no attribute among them has a comma in its name.
-/
namespace InlineBinding

namespace Binding
open Linked Markup

/-! ## Handlers -/

/-- What handles an attachment. -/
inductive Handles : Attachment → Text → Prop where
  | value (i : Id) (v : Text) : Handles (.attr i "value".toList v) "value".toList
  | style (i : Id) (v : Text) : Handles (.attr i "style".toList v) "css".toList
  | named (i : Id) {name : Text} (v : Text) (hvalue : name ≠ "value".toList)
      (hstyle : name ≠ "style".toList) :
      Handles (.attr i name v) ("attr(".toList ++ name ++ [')'])
  | text (i : Id) (data : Text) (a : Anchor) (place : Place) :
      Handles (.text i data a place) ("text(".toList ++ place.name ++ [')'])

theorem handles (x : Attachment) : Handles x (x.handler .default) := by
  cases x with
  | attr i name v =>
    rw [Attachment.handler]
    rcases Dialect.attributeHandler_cases name with ⟨rfl, he⟩ | ⟨rfl, he⟩ | ⟨hv, hs, he⟩ <;> rw [he]
    · exact .value i v
    · exact .style i v
    · exact .named i v hv hs
  | text i data a place => exact .text i data a place

/-- A handler has its commas from the name of an attribute. -/
theorem Handles.comma_mem_iff {x : Attachment} {handler : Text} (h : Handles x handler) :
    ',' ∈ handler ↔ ∃ i name v, x = .attr i name v ∧ ',' ∈ name := by
  have hplain {name : Text} (hn : ',' ∉ name) (i : Id) (v : Text) :
      ¬ ∃ j m u, Attachment.attr i name v = .attr j m u ∧ ',' ∈ m := by
    rintro ⟨j, m, u, he, hm⟩
    obtain ⟨-, rfl, -⟩ := Attachment.attr.inj he
    exact hn hm
  cases h with
  | value i v => exact iff_of_false (by decide) (hplain (by decide) i v)
  | style i v => exact iff_of_false (by decide) (hplain (by decide) i v)
  | @named i name v hvalue hstyle =>
    have hmem : ',' ∈ "attr(".toList ++ name ++ [')'] ↔ ',' ∈ name := by simp
    rw [hmem]
    constructor
    · exact fun hn => ⟨i, name, v, rfl, hn⟩
    · rintro ⟨j, m, u, he, hm⟩
      obtain ⟨-, rfl, -⟩ := Attachment.attr.inj he
      exact hm
  | text i data a place =>
    refine iff_of_false ?_ (by simp)
    cases place <;> decide

/-- What the clauses at an anchor make of a directive that was not there before. -/
def Scan.ReadsBack (s : Scan) (xs : List Attachment) (a : Anchor) : Option Value → Prop
  | none => s.clausesAt xs a = []
  | some v => s.clausesAt xs a ≠ [] ∧ ∃ u : Text, v = .text u ∧
    (u.splitOn ',' = s.clausesAt xs a ↔
      ∀ i name value, .attr i name value ∈ xs → .element i = a → ',' ∉ name)

/-- A directive that was not there before consists of its clauses. -/
theorem Attacher.directiveWith_of_none {a : Attacher} {t : Tag}
    (h : t.attributes.get? a.directiveName = none) {cs : List Text} (hcs : cs ≠ []) :
    a.directiveWith t cs = some (.text (List.intercalate [','] cs)) := by
  obtain ⟨c, cs, rfl⟩ := List.exists_cons_of_ne_nil hcs
  have hempty : opened [] = [] := rfl
  rw [directiveWith, directiveText, h, hempty, List.nil_append]

end Binding

namespace Transform
open Binding Linked Markup Shield

variable {o : Options} {document : Text}

theorem clause_eq (x : Attachment) :
    ∃ expression, (scan o document).clause x = x.handler .default ++ ':' :: expression ∧
      ',' ∉ expression := by
  have hterms := separator_notMem_terms (labelled_blocks o document) (isPath_of_mem_chunks o x)
    (x := ',') (by decide)
  exact ⟨_, rfl, Expression.notMem_intercalate (by decide) hterms⟩

theorem comma_mem_clause_iff (x : Attachment) : ',' ∈ (scan o document).clause x ↔
    ∃ i name v, x = .attr i name v ∧ ',' ∈ name := by
  obtain ⟨expression, he, hcomma⟩ := @clause_eq o document x
  rw [he, ← (handles x).comma_mem_iff]
  simp [hcomma]

theorem readsBack_directiveWith {a : Anchor} {t : Tag}
    (ht : t.attributes.get? o.bindingAttribute = none) (xs : List Attachment) :
    (scan o document).ReadsBack xs a
      ((scan o document).attacher.directiveWith t ((scan o document).clausesAt xs a)) := by
  by_cases hcs : (scan o document).clausesAt xs a = []
  · have hnone : (scan o document).attacher.directiveWith t [] = none := ht
    rw [hcs, hnone]
    exact hcs
  · rw [Attacher.directiveWith_of_none ht hcs]
    refine ⟨hcs, _, rfl, ?_⟩
    rw [Text.splitOn_intercalate_iff hcs]
    constructor
    · rintro h i name v hx rfl hcomma
      refine h _ (List.mem_map_of_mem (List.mem_filter.2 ⟨hx, decide_eq_true rfl⟩)) ?_
      exact (comma_mem_clause_iff _).2 ⟨i, name, v, rfl, hcomma⟩
    · intro h c hc
      obtain ⟨x, hx, rfl⟩ := List.mem_map.1 hc
      obtain ⟨hx, ha⟩ := List.mem_filter.1 hx
      rw [comma_mem_clause_iff]
      rintro ⟨i, name, v, rfl, hcomma⟩
      exact h i name v hx (of_decide_eq_true ha) hcomma

/-- Clauses are handlers and expressions.  They can be read back from a directive that was not there
before if and only if no attribute among them has a comma in its name. -/
theorem clauses_read_back (ho : o.bindingAttribute ∈ o.skipAttributes) {output : Text}
    (h : (transformDefault o document).result = .ok output) :
    ∃ tree n p w, parse o.normalizeWhitespace (shielded o document) = .ok tree ∧
      (scan o document).run (Document.ofTree tree) = (.ok n, p) ∧
      p.document.Shows ((numbered 0 tree).wrap w) ∧
      clausesIn (transformDefault o document).events =
        (attachments o document tree).map (scan o document).clause ∧
      (∀ x ∈ attachments o document tree, ∃ handler expression, Handles x handler ∧
        (scan o document).clause x = handler ++ ':' :: expression ∧ ',' ∉ expression) ∧
      (∀ j ∈ ((numbered 0 tree).wrap w).labels,
        ∃! a : Anchor, a.In (numbered 0 tree) ∧ a.id? w = some j) ∧
      ∀ (a : Anchor) j, a.In (numbered 0 tree) → a.id? w = some j →
        ∀ t', p.document.store.tag? j = some t' →
          ∃ t, (scan o document).firstTag? (Document.ofTree tree).store a = some t ∧
            (t.attributes.get? o.bindingAttribute = none →
              (scan o document).ReadsBack (attachments o document tree) a
                (t'.attributes.get? o.bindingAttribute)) := by
  obtain ⟨tree, n, p, hparse, hrun, -, hevents⟩ := transformDefault_ok h
  have hd := Document.shows_ofTree tree
  obtain ⟨-, w, hw, -⟩ := Scan.reached_of_run hd (skips_directive ho) hrun
  refine ⟨tree, n, p, w, hparse, hrun, hw.shows, hevents.trans hw.clauses, fun x _ => ?_,
    fun j => hw.anchors, ?_⟩
  · obtain ⟨expression, he, hcomma⟩ := @clause_eq o document x
    exact ⟨_, expression, handles x, he, hcomma⟩
  · intro a j ha haj t' ht'
    rw [hw.tag?_eq ha haj, Option.map_eq_some_iff] at ht'
    obtain ⟨t, ht, rfl⟩ := ht'
    have hget := @directive_tagAfter o document ho tree a t
    refine ⟨t, ht, fun hnone => ?_⟩
    rw [attachments] at hget
    rw [attachments, hget]
    exact readsBack_directiveWith hnone _

/-- An attribute with a comma in its name. -/
def commaParagraph : Text := "<p a,b=\"\x7bx\x7d\">t</p>".toList

def commaTree : Tree :=
  .element ⟨"p".toList, .plain, [("a,b".toList, .text "\x7bx\x7d".toList)]⟩
    (.leaf ⟨.text, "t".toList⟩ .nil) .nil

/-- The only clause is read as two. -/
theorem clauses_read_back_comma :
    (transformDefault .default commaParagraph).result =
        .ok "<p a,b=\"\x7b\x7bx()\x7d\x7d\" data-bind=\"attr(a,b):this.x()\">t</p>".toList ∧
      clausesIn (transformDefault .default commaParagraph).events =
        ["attr(a,b):this.x()".toList] ∧
      "attr(a,b):this.x()".toList.splitOn ',' ≠ ["attr(a,b):this.x()".toList] := by
  have ho : Options.default.bindingAttribute ∈ Options.default.skipAttributes := by decide
  have hresult : (transformDefault .default commaParagraph).result =
      .ok "<p a,b=\"\x7b\x7bx()\x7d\x7d\" data-bind=\"attr(a,b):this.x()\">t</p>".toList := by
    decide +kernel
  have hp : parse true (shielded .default commaParagraph) = .ok commaTree := by decide +kernel
  obtain ⟨tree, n, p, w, hparse, hrun, -, hevents, -, -, hread⟩ := clauses_read_back ho hresult
  obtain rfl := Except.ok.inj (hparse.symm.trans hp)
  have hxs : attachments .default commaParagraph commaTree =
      [.attr 0 "a,b".toList "\x7bx\x7d".toList] := by decide +kernel
  have hclauses : (scan .default commaParagraph).clausesAt
      [.attr 0 "a,b".toList "\x7bx\x7d".toList] (.element 0) = ["attr(a,b):this.x()".toList] := by
    decide +kernel
  have htag : ((scan .default commaParagraph).run (.ofTree commaTree)).2.document.store.tag? 0 =
      some ⟨"p".toList, .plain, [("a,b".toList, .text "\x7b\x7bx()\x7d\x7d".toList),
        ("data-bind".toList, .text "attr(a,b):this.x()".toList)]⟩ := by decide +kernel
  rw [hrun] at htag
  have hin : (Anchor.element 0).In (numbered 0 commaTree) := List.mem_cons_self
  obtain ⟨t, ht, hback⟩ := hread (.element 0) 0 hin rfl _ htag
  have ht' : (scan .default commaParagraph).firstTag? (Document.ofTree commaTree).store
      (.element 0) = some ⟨"p".toList, .plain, [("a,b".toList, .text "\x7bx\x7d".toList)]⟩ := by
    decide +kernel
  obtain rfl := Option.some.inj (ht.symm.trans ht')
  obtain ⟨-, u, hu, hsplit⟩ := hback (by decide)
  obtain rfl := Value.text.inj hu
  rw [hxs, hclauses] at hsplit
  refine ⟨hresult, ?_, fun he => ?_⟩
  · rw [hevents, hxs]
    decide +kernel
  · exact hsplit.1 he 0 "a,b".toList _ List.mem_cons_self rfl (by decide)

end Transform
end InlineBinding
