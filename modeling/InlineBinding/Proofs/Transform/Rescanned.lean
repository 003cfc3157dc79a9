import InlineBinding.Proofs.Binding.Rescanned
import InlineBinding.Proofs.Transform.Output

/-!
# Transforms with an attacher of one's own

An attacher that comes with a directive of its own does not have it skipped.  From the document that
has been read one can tell which directives are going to be bound, and so which clauses the output
has lost.
-/
namespace InlineBinding.Transform
open Markup Binding Linked Shield

variable {o : Options} {document : Text}

/-- What a transform has made of the directives. -/
theorem directives_of_transform {a : Attacher} (ha : a.dialect = .default) {output : Text}
    (h : (transform o a document).result = .ok output) :
    ∃ tree n p w, parse o.normalizeWhitespace (shielded o document) = .ok tree ∧
      (scanWith o document a).run (Document.ofTree tree) = (.ok n, p) ∧
      output = reveal (recovery o document) (blocks o document)
        (render o.xhtmlMode p.document.toTree) ∧
      (scanWith o document a).Settled (Document.ofTree tree) (numbered 0 tree) w p := by
  obtain ⟨tree, n, p, hparse, hrun, houtput, -⟩ := transform_ok h
  obtain ⟨w, hw⟩ := Scan.settled_of_run (s := scanWith o document a) ha
    (unquoted (labelled_blocks o document)) (Document.shows_ofTree tree) hrun
  exact ⟨tree, n, p, w, hparse, hrun, houtput, hw⟩

/-- A directive that the options do not know. -/
def stranger : Attacher := { Attacher.default with directiveName := "x-bind".toList }

def strangeParagraph : Text := "<p title=\"\x7bb\x7d\" x-bind=\"\x7ba\x7d\">t</p>".toList

def strangeTree : Tree :=
  .element ⟨"p".toList, .plain,
      [("title".toList, .text "\x7bb\x7d".toList), ("x-bind".toList, .text "\x7ba\x7d".toList)]⟩
    (.leaf ⟨.text, "t".toList⟩ .nil) .nil

/-- The clause of the title is pushed, and lost. -/
theorem directives_of_transform_stranger :
    (transform .default stranger strangeParagraph).result =
        .ok "<p title=\"\x7b\x7bb()\x7d\x7d\" x-bind=\"\x7b\x7ba()\x7d\x7d\">t</p>".toList ∧
      ∃ p : Progress, clausesIn p.events =
          ["attr(title):this.b()".toList, "attr(x-bind):this.a()".toList] ∧
        (scanWith .default strangeParagraph stranger).directive? p.document.store 0 =
          some (some (.text "\x7b\x7ba()\x7d\x7d".toList)) := by
  have hresult : (transform .default stranger strangeParagraph).result =
      .ok "<p title=\"\x7b\x7bb()\x7d\x7d\" x-bind=\"\x7b\x7ba()\x7d\x7d\">t</p>".toList := by
    decide +kernel
  have hp : parse true (shielded .default strangeParagraph) = .ok strangeTree := by decide +kernel
  obtain ⟨tree, n, p, w, hparse, -, -, hw⟩ := directives_of_transform rfl hresult
  obtain rfl := Except.ok.inj (hparse.symm.trans hp)
  have hxs : (scanWith .default strangeParagraph stranger).made (.ofTree strangeTree)
      (numbered 0 strangeTree) =
      [.attr 0 "title".toList "\x7bb\x7d".toList, .attr 0 "x-bind".toList "\x7ba\x7d".toList] := by
    decide +kernel
  refine ⟨hresult, p, ?_, ?_⟩
  · rw [hw.clauses, hxs]
    decide +kernel
  · rw [hw.replaced 0 "\x7ba\x7d".toList [.attr 0 "title".toList "\x7bb\x7d".toList] [] hxs (by simp)]
    decide +kernel

end InlineBinding.Transform
