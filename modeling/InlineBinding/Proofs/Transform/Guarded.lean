import InlineBinding.Proofs.Text.Separated
import InlineBinding.Proofs.Transform.Clauses
import InlineBinding.Transform

/-!
# Blocks that are not code

A clause keeps its blocks in literals when no mark can be read in its handler or in one of its
paths. Where blocks begin and end with foreign characters, no other clause does.
-/
namespace InlineBinding

namespace Transform
open Text Literal Accessor Shield Markup

/-- No mark can be read in the handler, and none in a path. -/
structure Guarded (cs : List Clipping) (handler : Text) (chunks : List Text) : Prop where
  handler : ∀ c ∈ cs, ¬ c.mark <:+: handler
  paths : ∀ p, .path p ∈ Chunk.alternate false chunks → ∀ c ∈ cs, ¬ c.mark <:+: p

section Paths

variable {cs : List Clipping} {chunks : List Text} {f : Char → Char}

theorem infix_call_iff (hl : bindify.Labelled cs) {c : Clipping} (hc : c ∈ cs) {p : Text} :
    c.mark <:+: call p ↔ c.mark <:+: p := by
  have hn {x : Char} (hx : x ∉ "bindifyjs".toList) (hd : x.isDigit = false) : x ∉ c.mark :=
    fun h => notMem_literalMark hl hx hd c hc (List.mem_append_left _ h)
  obtain ⟨k, hk⟩ := hl.exists_label c hc
  obtain ⟨m, hm, -⟩ := legible_bindify.label_eq_cons k
  have hb : 'b' ∈ c.mark := by
    rw [hk]
    exact hm ▸ List.mem_cons_self
  exact infix_call hb (by decide) (hn (by decide) (by decide)) (hn (by decide) (by decide))

theorem withBlocks_unshield (hl : bindify.Labelled cs)
    (hp : ∀ p, .path p ∈ Chunk.alternate false chunks → ∀ c ∈ cs, ¬ c.mark <:+: p) :
    Expression.withBlocks cs f (unshield · cs) chunks = Expression.withBlocks cs f id chunks := by
  rw [Expression.withBlocks, Expression.withBlocks]
  congr 2
  apply List.filterMap_congr
  intro c hc
  rcases c with (_ | ⟨a, t⟩) | p
  · rfl
  · rfl
  · apply congrArg some
    apply unshield_eq_self hl.mark_ne_nil
    intro c hcs h
    exact hp p hc c hcs ((infix_call_iff hl hcs).1 h)

theorem call_infix_withBlocks {p : Text} (h : .path p ∈ Chunk.alternate false chunks) :
    call p <:+: Expression.withBlocks cs f id chunks := by
  have hm : call p ∈ Expression.seed chunks ++ (Chunk.alternate false chunks).filterMap
      (Expression.blockTerm? cs f id) :=
    List.mem_append_right _ (List.mem_filterMap.2 ⟨.path p, h, rfl⟩)
  obtain ⟨a, b, he, -⟩ := exists_intercalate_eq " + ".toList hm
  exact ⟨a, b, he.symm⟩

/-- Whatever the blocks are, literals and calls hold no double quote. -/
theorem quote_notMem_withBlocks
    (hp : ∀ p, .path p ∈ Chunk.alternate false chunks → IsPath p) :
    '"' ∉ Expression.withBlocks cs f id chunks := by
  have hquote : '"' ∈ separators := by decide
  apply Expression.notMem_intercalate (by decide)
  intro t ht
  rcases List.mem_append.1 ht with ht | ht
  · rw [Expression.eq_of_mem_seed ht]
    exact notMem_quote hquote []
  · obtain ⟨c, hc, ht⟩ := List.mem_filterMap.1 ht
    rcases c with (_ | ⟨a, u⟩) | p
    · exact absurd ht (by simp [Expression.blockTerm?])
    · obtain rfl := Option.some.inj ht
      exact notMem_quote hquote _
    · obtain rfl := Option.some.inj ht
      exact separators_notMem_call (hp p hc) hquote

end Paths

/-! ## Clauses of a transform -/

/-- A clause with all its blocks in literals. -/
def kept (r : Recovery) (cs : List Clipping) (handler : Text) (chunks : List Text) : Text :=
  r.restore (quoteValue (.text handler)) ++ ':' :: Expression.withBlocks cs r.unmask id chunks

theorem call_infix_kept {r : Recovery} {cs : List Clipping} (handler : Text) {chunks : List Text}
    {p : Text} (h : .path p ∈ Chunk.alternate false chunks) :
    call p <:+: kept r cs handler chunks := by
  have hw : call p <:+: Expression.withBlocks cs r.unmask id chunks := call_infix_withBlocks h
  exact hw.trans ⟨r.restore (quoteValue (.text handler)) ++ [':'], [], by simp [kept]⟩

/-- Where no literal holds a hidden section, marks in handlers and paths are all that is in the
way of a clause with its blocks in literals. -/
theorem Guarded.reveal_eq {cs : List Clipping} {markup handler : Text} {chunks : List Text}
    (hl : bindify.Labelled cs) (hp : ∀ p, .path p ∈ Chunk.alternate false chunks → IsPath p)
    (hb : ∀ t ∈ Expression.terms (standIns cs) chunks, (Recovery.of markup).Bare t)
    (hq : Quiet cs (Recovery.of markup).unmask chunks)
    (hg : Guarded cs ((Recovery.of markup).restore (quoteValue (.text handler))) chunks) :
    reveal (Recovery.of markup) cs (quoteValue (.text (handler ++
        ':' :: List.intercalate " + ".toList (Expression.terms (standIns cs) chunks)))) =
      kept (Recovery.of markup) cs handler chunks := by
  rw [reveal_clause hl handler hp hb hq, reveal, unshield_eq_self hl.mark_ne_nil hg.handler,
    withBlocks_unshield hl hg.paths, kept]

section Bordered

variable {o : Options} {document : Text}

theorem quiet_of_bordered (hd : (shieldOf o).Bordered) (f : Char → Char) (chunks : List Text) :
    Quiet (clippings ((shieldOf o).marked document)) f chunks :=
  fun t _ => hd.not_infix_withBlocks legible_bindify (t.map f)

/-- No mark is left between blocks that are bordered, so each one is in a literal. -/
theorem guarded_of_reveal_eq (hd : (shieldOf o).Bordered) {r : Recovery} {t handler : Text}
    {chunks : List Text} (h : reveal r (clippings ((shieldOf o).marked document)) t =
      kept r (clippings ((shieldOf o).marked document)) handler chunks) :
    Guarded (clippings ((shieldOf o).marked document))
      (r.restore (quoteValue (.text handler))) chunks := by
  have hnone : ∀ c ∈ clippings ((shieldOf o).marked document),
      ¬ c.mark <:+: kept r (clippings ((shieldOf o).marked document)) handler chunks := by
    rw [← h]
    exact hd.not_infix_unshield legible_bindify _
  constructor
  · intro c hc hi
    exact hnone c hc (hi.trans (List.prefix_append _ _).isInfix)
  · intro p hp c hc hi
    have hcall := (infix_call_iff (labelled_clippings (shieldOf o) document) hc).2 hi
    exact hnone c hc (hcall.trans (call_infix_kept handler hp))

end Bordered

end Transform
end InlineBinding
