import InlineBinding.Proofs.Binding.Directive
import InlineBinding.Proofs.Markup.Render
import InlineBinding.Proofs.Markup.Restore
import InlineBinding.Proofs.Shield.Marks

/-!
# Clauses with blocks in them

Of a clause that is printed and restored, the handler and the calls are restored as they stand,
and literals with their blocks escaped. So blocks end up in literals only when no mark can be read
in the handler or in a path.
-/
namespace InlineBinding.Shield
open Text Literal Accessor

/-! ## Restoring part by part -/

section Parts

variable {cs : List Clipping} (hn : ∀ c ∈ cs, c.mark ≠ [])

include hn

theorem unshield_empty : unshield [] cs = [] :=
  unshield_eq_self hn fun c hc h => hn c hc (List.infix_nil.1 h)

theorem unshield_cons {x : Char} (hx : ∀ c ∈ cs, x ∉ c.literalMark) (t : Text) :
    unshield (x :: t) cs = x :: unshield t cs := by
  have h := unshield_append_cons hn hx [] t
  rwa [unshield_empty hn] at h

end Parts

/-! ## Terms -/

/-- What stands for the marks in literals. -/
abbrev standIns (cs : List Clipping) : LiteralMarks := LiteralMarks.ofList (literalMarks cs)

theorem standIns_eq {n : Numbered} {cs : List Clipping} (hl : n.Labelled cs) :
    standIns cs = literalMarks cs := by
  have hset (ms : LiteralMarks) (m : Text × Text) (h : ∀ p ∈ ms, p.1 ≠ m.1) :
      ms.set m.1 m.2 = ms ++ [m] := by
    induction ms with
    | nil => rfl
    | cons p ms ih =>
      rw [LiteralMarks.set, if_neg (h p List.mem_cons_self),
        ih fun q hq => h q (List.mem_cons_of_mem p hq), List.cons_append]
  have hall (todo done : List Clipping) (h : done ++ todo = cs) :
      (literalMarks todo).foldl (fun ms p => LiteralMarks.set ms p.1 p.2) (literalMarks done) =
        literalMarks cs := by
    induction todo generalizing done with
    | nil => rw [← h, List.append_nil]; rfl
    | cons c todo ih =>
      have hd : ∀ p ∈ literalMarks done, p.1 ≠ c.mark := by
        intro p hp
        obtain ⟨d, hd, rfl⟩ := List.mem_map.1 hp
        have hp := hl.distinct
        rw [← h, List.pairwise_append] at hp
        exact hp.2.2 d hd c List.mem_cons_self
      have hcons : literalMarks (c :: todo) = (c.mark, c.literalMark) :: literalMarks todo := rfl
      rw [hcons, List.foldl_cons, hset _ (c.mark, c.literalMark) hd]
      have hdone : literalMarks done ++ [(c.mark, c.literalMark)] = literalMarks (done ++ [c]) := by
        simp [literalMarks]
      rw [hdone]
      exact ih (done ++ [c]) (by simp [← h])
  exact hall cs [] rfl

/-- A literal in the output. -/
theorem unshield_literal {n : Numbered} {b : Char} {cs : List Clipping} (hb : Legible n b)
    (hl : n.Labelled cs) (he : Unescaped cs) {t : Text}
    (hq : ∀ c ∈ cs, ¬ c.mark <:+: withBlocks cs t) :
    unshield (Expression.literal (standIns cs) t) cs = quote (withBlocks cs t) := by
  have hn := hl.mark_ne_nil
  have hm : ∀ c ∈ cs, '\'' ∉ c.mark := fun c hc h => he c hc '\'' h (by decide)
  have hlm : ∀ c ∈ cs, '\'' ∉ c.literalMark := by
    intro c hc h
    rcases List.mem_append.1 h with h | h
    · exact hm c hc h
    · exact absurd h (by decide)
  have hu : LiteralMarks.Unquoted (literalMarks cs) := by
    intro m h
    obtain ⟨c, hc, rfl⟩ := List.mem_map.1 h
    exact ⟨hn c hc, hm c hc⟩
  have hfold (s : Text) : (literalMarks cs).foldl (fun s m => replace m.1 m.2 s) s =
      cs.foldl (fun s c => replace c.mark c.literalMark s) s := List.foldl_map
  rw [standIns_eq hl, Expression.literal_eq hu, hfold, unshield_append_cons hn hlm,
    unshield_cons hn hlm, unshield_escape hb hl he hq, unshield_empty hn, quote]

/-- Marks hold no character of a call but those of its path. -/
theorem infix_call {b : Char} {m p : Text} (hm : b ∈ m) (hb : b ∉ viewModel ∧ b ≠ ')')
    (hd : '.' ∉ m) (ho : '(' ∉ m) : m <:+: call p ↔ m <:+: p := by
  have hclose (q : Text) : m <:+: q ++ "()".toList ↔ m <:+: q := by
    refine ⟨fun h => ?_, fun h => h.trans (List.prefix_append q _).isInfix⟩
    rcases infix_append_cons (t := [')']) ho h with h | h
    · exact h
    · exact absurd (List.mem_singleton.1 (h.subset hm)) hb.2
  rw [call]
  split
  · exact hclose p
  · rw [hclose]
    refine ⟨fun h => ?_, fun h => h.trans ⟨viewModel ++ ['.'], [], by simp⟩⟩
    rcases infix_append_cons hd h with h | h
    · exact absurd (h.subset hm) hb.1
    · exact h

end InlineBinding.Shield

namespace InlineBinding.Expression
open Text Literal Accessor Shield

/-! ## Whole expressions -/

theorem literal_map {ms : LiteralMarks} {f : Char → Char} (hu : ms.Unquoted)
    (hs : ∀ m ∈ ms, Steady f m.1 ∧ m.2.map f = m.2) (hq : f '\'' = '\'')
    (he : ∀ t, escape (t.map f) = (escape t).map f) (t : Text) :
    literal ms (t.map f) = (literal ms t).map f := by
  have hfold (s : Text) : ms.foldl (fun s m => replace m.1 m.2 s) (s.map f) =
      (ms.foldl (fun s m => replace m.1 m.2 s) s).map f := by
    clear he
    induction ms generalizing s with
    | nil => rfl
    | cons m ms ih =>
      obtain ⟨hm, hn⟩ := hs m List.mem_cons_self
      rw [List.foldl_cons, hm.replace_map (hu m List.mem_cons_self).1 hn,
        ih (fun k hk => hu k (List.mem_cons_of_mem m hk))
          (fun k hk => hs k (List.mem_cons_of_mem m hk)), List.foldl_cons]
  rw [literal_eq hu, literal_eq hu, he, hfold]
  simp [hq]

/-- A term with blocks in its literal; `code` is what becomes of a call. -/
def blockTerm? (cs : List Clipping) (f : Char → Char) (code : Text → Text) : Chunk → Option Text
  | .literal [] => none
  | .literal t => some (quote (withBlocks cs (t.map f)))
  | .path p => some (code (call p))

def withBlocks (cs : List Clipping) (f : Char → Char) (code : Text → Text) (chunks : List Text) :
    Text :=
  List.intercalate " + ".toList
    (seed chunks ++ (Chunk.alternate false chunks).filterMap (blockTerm? cs f code))

end InlineBinding.Expression

namespace InlineBinding.Transform
open Text Literal Accessor Shield Markup

/-- The marks of all transforms. -/
def bindify : Numbered := ⟨"bind".toList, "ify".toList⟩

section Clauses

variable {cs : List Clipping} (hl : bindify.Labelled cs)

include hl

theorem mem_literalMark {c : Clipping} (hc : c ∈ cs) {x : Char} (hx : x ∈ c.literalMark) :
    x ∈ "bindifyjs".toList ∨ x.isDigit = true := by
  obtain ⟨k, hk⟩ := hl.exists_label c hc
  rw [Clipping.literalMark, hk, Numbered.label] at hx
  simp only [List.mem_append] at hx
  have hmem {s : Text} (hs : (s.all fun x => decide (x ∈ "bindifyjs".toList)) = true) (hx : x ∈ s) :
      x ∈ "bindifyjs".toList := forall_mem_of_all hs x hx
  rcases hx with ((hx | hx) | hx) | hx
  · exact Or.inl (hmem (by decide) hx)
  · exact Or.inr (isDigit_of_mem_digits hx)
  · exact Or.inl (hmem (by decide) hx)
  · exact Or.inl (hmem (by decide) hx)

theorem notMem_literalMark {x : Char} (hx : x ∉ "bindifyjs".toList) (hd : x.isDigit = false) :
    ∀ c ∈ cs, x ∉ c.literalMark := by
  intro c hc h
  rcases mem_literalMark hl hc h with h | h
  · exact hx h
  · rw [hd] at h
    exact Bool.noConfusion h

theorem unescaped : Unescaped cs := by
  intro c hc x hx he
  have hd : ∀ x ∈ escaped, x ∉ "bindifyjs".toList ∧ x.isDigit = false :=
    forall_mem_of_all (by decide)
  exact notMem_literalMark hl (hd x he).1 (hd x he).2 c hc (List.mem_append_left _ hx)

theorem unquoted : LiteralMarks.Unquoted (standIns cs) := by
  rw [standIns_eq hl]
  intro m h
  obtain ⟨c, hc, rfl⟩ := List.mem_map.1 h
  exact ⟨hl.mark_ne_nil c hc, fun h => unescaped hl c hc '\'' h (by decide)⟩

variable {markup : Text}

theorem steady_literalMark {c : Clipping} (hc : c ∈ cs) :
    Steady (Recovery.of markup).unmask c.literalMark := by
  have hb : ∀ x ∈ "bindifyjs".toList, x ≠ '&' ∧ x.toNat < 0xe000 :=
    forall_mem_of_all (by decide)
  apply Recovery.steady_unmask
  intro x hx
  rcases mem_literalMark hl hc hx with h | h
  · exact hb x h
  · have hd := Char.isDigit_iff_toNat.1 h
    have h9 : '9'.toNat = 57 := rfl
    refine ⟨?_, by omega⟩
    rintro rfl
    exact absurd h (by decide)

/-- Behind the first four letters a mark has a number and a key has none. -/
theorem not_mark_infix_keyComment {c : Clipping} (hc : c ∈ cs) {q : Text × Text}
    (hq : q ∈ (Recovery.of markup).sections) : ¬ c.mark <:+: keyComment q.1 := by
  obtain ⟨k, hk⟩ := hl.exists_label c hc
  obtain ⟨j, hj⟩ := Recovery.exists_key hq
  obtain ⟨d, ds, hd⟩ : ∃ d ds, digits k = d :: ds := List.exists_cons_of_length_pos
    Nat.length_toDigits_pos
  have hdigit : d.isDigit = true := isDigit_of_mem_digits (hd ▸ List.mem_cons_self)
  have hmark : c.mark = 'b' :: ("ind".toList ++ (d :: ds ++ "ify".toList)) := by
    rw [hk, ← hd, Numbered.label, List.append_assoc]
    rfl
  have hkey : keyComment q.1 = "<!--".toList ++
      'b' :: ("ind".toList ++ 'i' :: ("fy-cdata-".toList ++ digits j ++ "-->".toList)) := by
    rw [keyComment, hj, List.append_assoc]
    rfl
  rw [hmark, hkey]
  intro h
  rcases List.infix_cons_iff.1 (infix_of_notMem_head (by decide) h) with h | h
  · have hi := (List.prefix_append_right_inj _).1 (List.cons_prefix_cons.1 h).2
    obtain rfl := (List.cons_prefix_cons.1 hi).1
    exact absurd hdigit (by decide)
  · have hb : 'b' ∉ digits j := fun hb => absurd (isDigit_of_mem_digits hb) (by decide)
    have hmem := h.subset List.mem_cons_self
    simp [hb] at hmem

/-- What becomes of a printed text. -/
def reveal (r : Recovery) (cs : List Clipping) (t : Text) : Text := unshield (r.restore t) cs

/-- Characters that stand in no mark and are not restored. -/
def Still (x : Char) : Prop := Recovery.Idle x ∧ x ∉ "bindifyjs".toList

theorem reveal_append_cons {x : Char} (hx : Still x) (s t : Text) :
    reveal (Recovery.of markup) cs (s ++ x :: t) =
      reveal (Recovery.of markup) cs s ++ x :: reveal (Recovery.of markup) cs t := by
  rw [reveal, Recovery.restore_append_cons hx.1]
  exact unshield_append_cons hl.mark_ne_nil (notMem_literalMark hl hx.2 hx.1.2.1) _ _

theorem reveal_nil : reveal (Recovery.of markup) cs [] = [] := by
  have hr : (Recovery.of markup).restore [] = [] :=
    Recovery.restore_eq_map fun p _ h => Recovery.keyComment_ne_nil p.1 (List.infix_nil.1 h)
  rw [reveal, hr, unshield_empty hl.mark_ne_nil]

theorem reveal_cons {x : Char} (hx : Still x) (t : Text) :
    reveal (Recovery.of markup) cs (x :: t) = x :: reveal (Recovery.of markup) cs t := by
  rw [← List.nil_append (x :: t), reveal_append_cons hl hx, reveal_nil hl, List.nil_append]

theorem reveal_intercalate (ts : List Text) :
    reveal (Recovery.of markup) cs (List.intercalate " + ".toList ts) =
      List.intercalate " + ".toList (ts.map (reveal (Recovery.of markup) cs)) := by
  induction ts with
  | nil => exact reveal_nil hl
  | cons t ts ih =>
    cases ts with
    | nil => rw [List.map_singleton, List.intercalate_singleton, List.intercalate_singleton]
    | cons t' ts =>
      have hb : Still ' ' := by unfold Still Recovery.Idle; decide
      have hp : Still '+' := by unfold Still Recovery.Idle; decide
      have hsep (a r : Text) : a ++ " + ".toList ++ r = a ++ ' ' :: '+' :: ' ' :: r := by simp
      rw [List.map_cons, List.map_cons, List.intercalate_cons_cons, List.intercalate_cons_cons,
        hsep, hsep, reveal_append_cons hl hb, reveal_cons hl hp, reveal_cons hl hb, ih,
        List.map_cons]

/-! ## Terms and clauses -/

/-- Marks that can be read in a literal once its blocks are in it would be taken for blocks. -/
def Quiet (cs : List Clipping) (f : Char → Char) (chunks : List Text) : Prop :=
  ∀ t, .literal t ∈ Chunk.alternate false chunks →
    ∀ c ∈ cs, ¬ c.mark <:+: Shield.withBlocks cs (t.map f)

omit hl in
theorem reveal_of_bare {r : Recovery} {t : Text} (h : r.Bare t) :
    reveal r cs t = unshield (t.map r.unmask) cs := by
  rw [reveal, Recovery.restore_eq_map h]

theorem reveal_literal {t : Text}
    (hb : (Recovery.of markup).Bare (Expression.literal (standIns cs) t))
    (hq : ∀ c ∈ cs, ¬ c.mark <:+: Shield.withBlocks cs (t.map (Recovery.of markup).unmask)) :
    reveal (Recovery.of markup) cs (Expression.literal (standIns cs) t) =
      quote (Shield.withBlocks cs (t.map (Recovery.of markup).unmask)) := by
  have hs : ∀ m ∈ standIns cs,
      Steady (Recovery.of markup).unmask m.1 ∧ m.2.map (Recovery.of markup).unmask = m.2 := by
    rw [standIns_eq hl]
    intro m hm
    obtain ⟨c, hc, rfl⟩ := List.mem_map.1 hm
    have hlm : Steady (Recovery.of markup).unmask c.literalMark := steady_literalMark hl hc
    exact ⟨fun x hx => hlm x (List.mem_append_left _ hx), hlm.map_eq⟩
  have hquote : (Recovery.of markup).unmask '\'' = '\'' :=
    Recovery.unmask_eq_self (Or.inl (by decide))
  rw [reveal_of_bare hb,
    ← Expression.literal_map (unquoted hl) hs hquote Recovery.escape_map_unmask]
  exact unshield_literal legible_bindify hl (unescaped hl) hq

omit hl in
theorem map_unmask_call {p : Text} (hp : IsPath p) :
    (call p).map (Recovery.of markup).unmask = call p := by
  obtain ⟨q, hq, -, he⟩ := call_eq_append hp
  rw [he, List.map_append, Recovery.map_unmask_path hq]
  congr 1
  have hk : Steady (Recovery.of markup).unmask ['(', ')'] :=
    Recovery.steady_unmask (forall_mem_of_all (by decide))
  exact hk.map_eq

omit hl in
theorem reveal_call {p : Text} (hb : (Recovery.of markup).Bare (call p)) (hp : IsPath p) :
    reveal (Recovery.of markup) cs (call p) = unshield (call p) cs := by
  rw [reveal_of_bare hb, map_unmask_call hp]

theorem reveal_terms {chunks : List Text}
    (hp : ∀ p, .path p ∈ Chunk.alternate false chunks → IsPath p)
    (hb : ∀ t ∈ Expression.terms (standIns cs) chunks, (Recovery.of markup).Bare t)
    (hq : Quiet cs (Recovery.of markup).unmask chunks) :
    (Expression.terms (standIns cs) chunks).map (reveal (Recovery.of markup) cs) =
      Expression.seed chunks ++ (Chunk.alternate false chunks).filterMap
        (Expression.blockTerm? cs (Recovery.of markup).unmask (unshield · cs)) := by
  have hquote : Still '\'' := by unfold Still Recovery.Idle; decide
  rw [Expression.terms, List.map_append, List.map_filterMap]
  congr 1
  · rw [List.map_congr_left (g := id), List.map_id]
    intro t ht
    have he : quote [] = ['\'', '\''] := rfl
    rw [Expression.eq_of_mem_seed ht, he, reveal_cons hl hquote, reveal_cons hl hquote,
      reveal_nil hl]
    rfl
  · apply List.filterMap_congr
    intro c hc
    have hbare {t : Text} (h : Expression.term? (standIns cs) c = some t) :
        (Recovery.of markup).Bare t :=
      hb t (List.mem_append_right _ (List.mem_filterMap.2 ⟨c, hc, h⟩))
    rcases c with (_ | ⟨a, t⟩) | p
    · rfl
    · exact congrArg some (reveal_literal hl (hbare rfl) (hq (a :: t) hc))
    · exact congrArg some (reveal_call (hbare rfl) (hp p hc))

theorem separator_notMem_terms {chunks : List Text}
    (hp : ∀ p, .path p ∈ Chunk.alternate false chunks → IsPath p) {x : Char}
    (hx : x ∈ separators) : ∀ t ∈ Expression.terms (standIns cs) chunks, x ∉ t := by
  have hseparators : ∀ x ∈ separators,
      x ∉ "bindifyjs".toList ∧ x.isDigit = false ∧ x ≠ '\'' := forall_mem_of_all (by decide)
  obtain ⟨hletter, hdigit, hquote⟩ := hseparators x hx
  have hfold (ms : LiteralMarks) (hm : ∀ m ∈ ms, m.1 ≠ [] ∧ x ∉ m.2) {t : Text} (ht : x ∉ t) :
      x ∉ ms.foldl (fun s m => replace m.1 m.2 s) t := by
    induction ms generalizing t with
    | nil => exact ht
    | cons m ms ih =>
      obtain ⟨hne, hq⟩ := hm m List.mem_cons_self
      exact ih (fun k hk => hm k (List.mem_cons_of_mem m hk)) (notMem_replace hne hq ht)
  have hmarks : ∀ m ∈ standIns cs, m.1 ≠ [] ∧ x ∉ m.2 := by
    rw [standIns_eq hl]
    intro m hm
    obtain ⟨c, hc, rfl⟩ := List.mem_map.1 hm
    exact ⟨hl.mark_ne_nil c hc, notMem_literalMark hl hletter hdigit c hc⟩
  intro t ht
  rcases Expression.cases_of_mem_terms ht with rfl | ⟨u, -, rfl⟩ | ⟨p, hc, rfl⟩
  · exact notMem_quote hx []
  · rw [Expression.literal_eq (unquoted hl)]
    simp [hquote, hfold _ hmarks (notMem_escape hx u)]
  · exact separators_notMem_call (hp p hc) hx

/-! ## Clauses -/

/-- A clause in the output. -/
theorem reveal_clause {chunks : List Text} (handler : Text)
    (hp : ∀ p, .path p ∈ Chunk.alternate false chunks → IsPath p)
    (hb : ∀ t ∈ Expression.terms (standIns cs) chunks, (Recovery.of markup).Bare t)
    (hq : Quiet cs (Recovery.of markup).unmask chunks) :
    reveal (Recovery.of markup) cs (quoteValue (.text (handler ++
        ':' :: List.intercalate " + ".toList (Expression.terms (standIns cs) chunks)))) =
      reveal (Recovery.of markup) cs (quoteValue (.text handler)) ++
        ':' :: Expression.withBlocks cs (Recovery.of markup).unmask (unshield · cs) chunks := by
  have hcolon : Still ':' := by unfold Still Recovery.Idle; decide
  have hplus : '"' ∉ " + ".toList := by decide
  have hexpr := Expression.notMem_intercalate hplus (separator_notMem_terms hl hp (by decide))
  rw [quoteValue_append, quoteValue_cons _ (by decide), quoteValue_eq_self hexpr,
    reveal_append_cons hl hcolon, reveal_intercalate hl, reveal_terms hl hp hb hq,
    Expression.withBlocks]

end Clauses
end InlineBinding.Transform
