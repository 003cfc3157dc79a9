import InlineBinding.Markup.Recovery
import InlineBinding.Proofs.Shield.RoundTrip
import Mathlib.Algebra.Order.Interval.Finset.SuccPred
import Mathlib.Data.Finset.Card
import Mathlib.Data.Nat.SuccPred
import Mathlib.Order.Interval.Finset.Nat

/-!
# Searches for free labels

A search looks at one label after the other until it meets one that the document does not hold.
It ends whatever the labels look like, and its number counts the searches so far and the labels
that were passed over. Where no label begins another one, each place of the document holds at most
one of those.
-/
namespace InlineBinding.Text

namespace Numbered

variable {n : Numbered} {document : Text} {last k : ℕ}

/-- A search that has come to `last` goes on to the next number until the label of one is new to the
document. -/
inductive Search (n : Numbered) (document : Text) : (last found : ℕ) → Prop where
  | free {last : ℕ} (h : ¬ n.label (last + 1) <:+: document) : Search n document last (last + 1)
  | taken {last found : ℕ} (h : n.label (last + 1) <:+: document)
      (later : Search n document (last + 1) found) : Search n document last found

theorem search_free (n : Numbered) (document : Text) (last : ℕ) :
    n.Search document last (n.free document (last + 1)) := by
  induction hk : last + 1 using free.induct n document generalizing last with
  | case1 k h ih =>
    subst hk
    rw [free, dif_pos h]
    exact .taken (occurs_iff.1 h) (ih (last + 1) rfl)
  | case2 k h =>
    subst hk
    rw [free, dif_neg h]
    exact .free fun hi => h (occurs_iff.2 hi)

theorem Search.unique {k' : ℕ} (h : n.Search document last k) (h' : n.Search document last k') :
    k = k' := by
  induction h with
  | free hf =>
    cases h' with
    | free _ => rfl
    | taken ht _ => exact absurd ht hf
  | taken ht _ ih =>
    cases h' with
    | free hf => exact absurd ht hf
    | taken _ later => exact ih later

theorem existsUnique_search (n : Numbered) (document : Text) (last : ℕ) :
    ∃! k, n.Search document last k :=
  ⟨_, search_free n document last, fun _ h => h.unique (search_free n document last)⟩

/-! ## What a search passes over -/

/-- The numbers up to `k` whose labels the document holds. -/
def taken (n : Numbered) (document : Text) (k : ℕ) : Finset ℕ :=
  (Finset.Icc 1 k).filter fun j => n.label j <:+: document

theorem card_taken_succ (n : Numbered) (document : Text) (k : ℕ) :
    (n.taken document (k + 1)).card =
      (n.taken document k).card + if n.label (k + 1) <:+: document then 1 else 0 := by
  have hk : k + 1 ∉ n.taken document k := by simp [taken]
  rw [taken, ← Finset.insert_Icc_right_eq_Icc_add_one (by omega), Finset.filter_insert]
  split
  · exact Finset.card_insert_of_notMem hk
  · rfl

/-- A search takes as many steps as there are labels on its way that the document holds, and one. -/
theorem Search.add_card_taken (h : n.Search document last k) :
    k + (n.taken document last).card = last + 1 + (n.taken document k).card := by
  induction h with
  | free hf => rw [card_taken_succ, if_neg hf]; rfl
  | taken ht _ ih =>
    rw [card_taken_succ, if_pos ht] at ih
    omega

/-- The same for searches that go on from each other. -/
theorem add_card_taken_of_chain {numbers : List ℕ}
    (h : (last :: numbers).IsChain (n.Search document)) (i : ℕ) (hi : i < numbers.length) :
    numbers[i] + (n.taken document last).card =
      last + (i + 1) + (n.taken document numbers[i]).card := by
  induction numbers generalizing last i with
  | nil => exact absurd hi (Nat.not_lt_zero i)
  | cons k numbers ih =>
    obtain ⟨hk, hnumbers⟩ := List.isChain_cons_cons.1 h
    have hstep := hk.add_card_taken
    cases i with
    | zero => exact hstep
    | succ i =>
      have := ih hnumbers i (Nat.lt_of_succ_lt_succ hi)
      rw [List.getElem_cons_succ]
      omega

/-! ## Places where a label can be read -/

/-- A label of the kind stands at the front, with any digits for its number. -/
def Reads (n : Numbered) (s : Text) : Prop :=
  ∃ ds : Text, ds ≠ [] ∧ (∀ c ∈ ds, c.isDigit = true) ∧ n.before ++ ds ++ n.after <+: s

instance (n : Numbered) : DecidablePred n.Reads := fun s =>
  decidable_of_iff ((s.drop n.before.length).inits.any fun ds =>
    !ds.isEmpty && ds.all Char.isDigit && (n.before ++ ds ++ n.after).isPrefixOf s) <| by
    simp only [List.any_eq_true, Bool.and_eq_true, Bool.not_eq_true', List.isEmpty_eq_false_iff,
      List.all_eq_true, isPrefixOf_eq_true, List.mem_inits]
    constructor
    · rintro ⟨ds, -, ⟨hne, hd⟩, hp⟩
      exact ⟨ds, hne, hd, hp⟩
    · rintro ⟨ds, hne, hd, hp⟩
      refine ⟨ds, ?_, ⟨hne, hd⟩, hp⟩
      obtain ⟨r, rfl⟩ := hp
      rw [List.append_assoc, List.append_assoc, List.drop_left]
      exact List.prefix_append _ _

/-- At how many places of a text a label can be read. -/
def places (n : Numbered) (s : Text) : ℕ := s.tails.countP fun t => n.Reads t

theorem reads_of_label {s : Text} (h : n.label k <+: s) : n.Reads s :=
  ⟨digits k, List.length_pos_iff.1 Nat.length_toDigits_pos, fun _ => isDigit_of_mem_digits, h⟩

theorem places_cons (n : Numbered) (c : Char) (s : Text) :
    n.places (c :: s) = n.places s + if n.Reads (c :: s) then 1 else 0 := by
  simp only [places, List.tails_cons, List.countP_cons, decide_eq_true_eq]

/-- No place holds two labels. -/
theorem Separate.card_front_le {b : Char} (hb : n.Separate b) (s : Text) (ks : Finset ℕ) :
    (ks.filter fun j => n.label j <+: s).card ≤ if n.Reads s then 1 else 0 := by
  split
  · refine Finset.card_le_one.2 fun i hi j hj => ?_
    obtain ⟨x, hx⟩ := (Finset.mem_filter.1 hi).2
    obtain ⟨y, hy⟩ := (Finset.mem_filter.1 hj).2
    exact (hb.eq_of_append_eq (hx.trans hy.symm)).1
  · rename_i hn
    have hnone : (ks.filter fun j => n.label j <+: s) = ∅ :=
      Finset.filter_eq_empty_iff.2 fun j _ h => hn (reads_of_label h)
    rw [hnone, Finset.card_empty]

/-- Every label that the document holds stands at a place of its own. -/
theorem Separate.card_taken_le_places {b : Char} (hb : n.Separate b) (document : Text) (k : ℕ) :
    (n.taken document k).card ≤ n.places document := by
  induction document with
  | nil =>
    have hnone : n.taken [] k = ∅ :=
      Finset.filter_eq_empty_iff.2 fun j _ h => label_ne_nil n j (List.infix_nil.1 h)
    rw [hnone]
    exact Nat.zero_le _
  | cons c s ih =>
    let front := (Finset.Icc 1 k).filter fun j => n.label j <+: c :: s
    have hsplit : n.taken (c :: s) k = front ∪ n.taken s k := by
      simp only [taken, front, ← Finset.filter_or, List.infix_cons_iff]
    have hfront : front.card ≤ if n.Reads (c :: s) then 1 else 0 := hb.card_front_le _ _
    calc (n.taken (c :: s) k).card
        ≤ front.card + (n.taken s k).card := hsplit ▸ Finset.card_union_le _ _
      _ ≤ (if n.Reads (c :: s) then 1 else 0) + n.places s := Nat.add_le_add hfront ih
      _ = n.places (c :: s) := by rw [places_cons, Nat.add_comm]

-- leading zeros can be read as well, though no search meets them
example : places ⟨"bind".toList, "ify".toList⟩ "bindify bind2ify bind007ify".toList = 2 := by
  decide

/-! ## Labels for matches -/

/-- Labels that searches found, each of which went on from the number of the one before. -/
structure Searched (n : Numbered) (document : Text) (numbers : List ℕ) (labels : List Text) :
    Prop where
  labels_eq : labels = numbers.map n.label
  chain : (0 :: numbers).IsChain (n.Search document)

theorem exists_chain_assign (n : Numbered) (document : Text) (last : ℕ) (ps : List (Piece Text)) :
    ∃ numbers : List ℕ,
      (clippings (n.assign document last ps)).map Clipping.mark = numbers.map n.label ∧
        (last :: numbers).IsChain (n.Search document) := by
  induction ps generalizing last with
  | nil => exact ⟨[], rfl, .singleton last⟩
  | cons p ps ih =>
    cases p with
    | char c => exact ih last
    | hit t =>
      obtain ⟨numbers, hmarks, hchain⟩ := ih (n.free document (last + 1))
      refine ⟨n.free document (last + 1) :: numbers, ?_, ?_⟩
      · exact congrArg (n.label (n.free document (last + 1)) :: ·) hmarks
      · exact .cons_cons (search_free n document last) hchain

theorem exists_searched (n : Numbered) (document : Text) (ps : List (Piece Text)) :
    ∃ numbers, n.Searched document numbers
      ((clippings (n.assign document 0 ps)).map Clipping.mark) := by
  obtain ⟨numbers, hmarks, hchain⟩ := exists_chain_assign n document 0 ps
  exact ⟨numbers, hmarks, hchain⟩

theorem Searched.le {b : Char} {numbers : List ℕ} {labels : List Text}
    (h : n.Searched document numbers labels) (hb : n.Separate b) (i : ℕ)
    (hi : i < numbers.length) : numbers[i] ≤ i + 1 + n.places document := by
  have hcount := add_card_taken_of_chain h.chain i hi
  have hplaces := hb.card_taken_le_places document numbers[i]
  omega

end Numbered
end InlineBinding.Text

namespace InlineBinding.Markup
open Text

/-- Searches end whatever the labels are. The marks of the blocks of a document and the keys of its
sections are found by searches that go on from each other, and a mark of the usual kind has at most
the number of its block and of the places where such a mark can be read in the document. -/
theorem searches_end (document : Text) :
    (∀ (n : Numbered) (last : ℕ), ∃! k, n.Search document last k) ∧
      (∃ numbers, sectionKeys.Searched document numbers
        ((sectionTable document).map Prod.fst)) ∧
      ∀ s : Shield, ∃ numbers,
        s.marks.Searched document numbers ((s.shield document).2.map Clipping.mark) ∧
          (s.marks = ⟨"bind".toList, "ify".toList⟩ →
            ∀ (i : ℕ) (hi : i < numbers.length),
              numbers[i] ≤ i + 1 + s.marks.places document) := by
  refine ⟨fun n last => n.existsUnique_search document last, ?_, fun s => ?_⟩
  · obtain ⟨numbers, h⟩ := sectionKeys.exists_searched document (cut sectionAt? document)
    refine ⟨numbers, ?_⟩
    rwa [sectionTable, List.map_map]
  · obtain ⟨numbers, h⟩ := s.marks.exists_searched document (Shield.pieces s.delimiters document)
    refine ⟨numbers, h, fun hmarks => h.le (b := 'b') ?_⟩
    rw [hmarks]
    exact Shield.legible_bindify.toSeparate

end InlineBinding.Markup
