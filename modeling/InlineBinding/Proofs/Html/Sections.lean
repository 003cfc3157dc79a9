import InlineBinding.Proofs.Html.Growth
import InlineBinding.Proofs.Html.Nesting

/-!
# Roots and sections

The first token that needs an element decides which root a document gets. Once a body has been
opened, sections are not opened by themselves any more, and all that stands below the root comes
from a start tag.
-/
namespace InlineBinding.Html

/-- The root that a token opens when nothing has been opened yet. -/
def Token.root? : Token → Option Tag
  | .text data => if (skipBlank data).isEmpty then none else some ⟨Builder.html, []⟩
  | .startTag tag _ => some (if tag.name = Builder.html then tag else ⟨Builder.html, []⟩)
  | .cutTag name => if name = Builder.html then none else some ⟨Builder.html, []⟩
  | .raw _ | .comment _ | .endTag _ => none

theorem Token.name_of_root? {t : Token} {tag : Tag} (h : t.root? = some tag) :
    tag.name = Builder.html := by
  unfold root? at h
  split at h
  · split at h
    · exact absurd h (by simp)
    · rw [← Option.some.inj h]
  · rw [← Option.some.inj h]
    split
    · assumption
    · rfl
  · split at h
    · exact absurd h (by simp)
    · rw [← Option.some.inj h]
  all_goals exact absurd h (by simp)

namespace Builder

variable {b : Builder}

/-! ## The root -/

/-- The first element of all, closed or still open. -/
def root? (b : Builder) : Option Tag :=
  (b.finished.reverse.root?.map Prod.fst).or (b.stack.getLast?.map Frame.tag)

theorem or_root? (h : b.stack ≠ []) (t : Option Tag) : b.root?.or t = b.root? := by
  have hroot : b.root?.isSome = true := by
    rw [root?, Option.isSome_or, Option.isSome_map, List.getLast?_eq_some_getLast h]
    exact Bool.or_true _
  exact Option.or_of_isSome hroot

theorem root?_addWith {add : Tree → Tree}
    (ha : ∀ t : Tree, (add t).reverse.root? = t.reverse.root?) : (b.addWith add).root? = b.root? := by
  obtain ⟨stack, finished, headSeen, bodySeen, ignored⟩ := b
  cases stack with
  | nil => rw [addWith, root?, root?, ha]
  | cons f fs => cases fs <;> rfl

theorem root?_leaf (l : Leaf) (t : Tree) : (Forest.leaf l t).reverse.root? = t.reverse.root? := by
  rw [Forest.reverse, Forest.reverseOnto, Forest.reverseOnto_eq, Forest.root?_append]
  exact Option.or_none

theorem root?_mergeText (data : Text) (t : Tree) :
    (mergeText data t).reverse.root? = t.reverse.root? := by
  unfold mergeText
  split
  · rw [root?_leaf, root?_leaf]
  · exact root?_leaf _ t

theorem root?_addText (data : Text) : (b.addText data).root? = b.root? := by
  rw [addText]
  split
  · rfl
  · exact root?_addWith (root?_mergeText data)

theorem root?_addComment (data : Text) : (b.addComment data).root? = b.root? :=
  root?_addWith (root?_leaf _)

theorem root?_push (tag : Tag) : (b.push tag).root? = b.root?.or (some tag) := by
  obtain ⟨stack, finished, headSeen, bodySeen, ignored⟩ := b
  cases stack with
  | nil => simp [push, root?]
  | cons f fs =>
    rw [or_root? (List.cons_ne_nil f fs)]
    rfl

theorem root?_pop : b.pop.root? = b.root? := by
  obtain ⟨stack, finished, headSeen, bodySeen, ignored⟩ := b
  match stack with
  | [] => rfl
  | [f] =>
    simp only [pop, addWith, root?, Forest.reverse, Forest.reverseOnto]
    rw [Forest.reverseOnto_eq, Forest.root?_append, Option.map_or]
    simp [Forest.reverse, Forest.root?]
  | f :: g :: [] => rfl
  | f :: g :: h :: hs => rfl

theorem root?_popMany (n : ℕ) : (popMany n b).root? = b.root? := by
  induction n generalizing b with
  | zero => rfl
  | succ n ih => exact ih.trans root?_pop

theorem root?_autoClose (name : Text) : (b.autoClose name).root? = b.root? :=
  root?_popMany _

theorem root?_rooted : b.rooted.root? = b.root?.or (some ⟨html, []⟩) := by
  rw [rooted]
  split
  · exact root?_push _
  · rename_i hs
    exact (or_root? (fun he => hs (List.isEmpty_iff.2 he)) _).symm

theorem root?_imply (name : Text) : (b.imply name).root? =
    b.root?.or (if name = html then none else some ⟨html, []⟩) := by
  by_cases hn : name = html
  · rw [imply, if_pos hn, if_pos hn, Option.or_none]
  · rw [if_neg hn, ← root?_rooted]
    rcases imply_cases (b := b) hn with h | ⟨-, n, -, h⟩
    · rw [h]
    · rw [h, root?_push, or_root? stack_rooted]

theorem root?_startTag (tag : Tag) (selfClosing : Bool) :
    (b.startTag tag selfClosing).root? =
      b.root?.or (some (if tag.name = html then tag else ⟨html, []⟩)) := by
  have hplace : ((b.autoClose tag.name).imply tag.name).root?.or (some tag) =
      b.root?.or (some (if tag.name = html then tag else ⟨html, []⟩)) := by
    rw [root?_imply, root?_autoClose, Option.or_assoc]
    split <;> rfl
  obtain ⟨n, ⟨hm, he⟩ | ⟨-, he⟩⟩ := b.startTag_cases tag selfClosing
  · have hopen : ((b.autoClose tag.name).imply tag.name).stack ≠ [] := by
      by_cases hn : tag.name = html
      · intro hs
        rw [isMisplaced, if_pos hn, hs] at hm
        exact Bool.noConfusion hm
      · exact stack_imply_ne_nil hn
    rw [he, root?_popMany, ← hplace, or_root? hopen]
    rfl
  · rw [he, root?_popMany, root?_push, hplace]

theorem root?_endTag (name : Text) : (b.endTag name).root? = b.root? := by
  rcases b.endTag_cases name with ⟨k, he⟩ | ⟨n, he⟩ <;> rw [he]
  · rfl
  · exact root?_popMany n

theorem all_isBlank_skipBlank {data : Text} (h : (skipBlank data).all isBlank = true) :
    skipBlank data = [] := by
  cases hs : skipBlank data with
  | nil => rfl
  | cons c s =>
    have hc := List.head?_dropWhile_not isBlank data
    rw [skipBlank] at hs h
    rw [hs] at hc h
    exact absurd (List.all_eq_true.1 h c List.mem_cons_self) (by simpa using hc)

theorem root?_text (data : Text) : (b.text data).root? =
    b.root?.or (if (skipBlank data).isEmpty then none else some ⟨html, []⟩) := by
  have hp : paragraph ≠ html := by decide
  obtain ⟨blanks, rest, hrest, hcases⟩ := b.text_cases data
  rcases hrest with rfl | ⟨hs, -⟩
  · rcases hcases with ⟨hnil, he⟩ | ⟨hall, he⟩ | ⟨hall, n, he⟩ <;> rw [he]
    · rw [root?_addText, if_pos (List.isEmpty_iff.2 hnil), Option.or_none]
    · rw [root?_addText, root?_addText, all_isBlank_skipBlank hall]
      exact Option.or_none.symm
    · have hne : ¬ (skipBlank data).isEmpty = true := by
        intro hnil
        rw [List.isEmpty_iff.1 hnil] at hall
        exact Bool.noConfusion hall
      rw [root?_addText, root?_imply, if_neg hp, root?_popMany, root?_addText, if_neg hne]
  · -- inside of an element a text opens no root
    rw [or_root? hs]
    rcases hcases with ⟨-, he⟩ | ⟨-, he⟩ | ⟨-, n, he⟩ <;> rw [he]
    · exact root?_addText _
    · rw [root?_addText, root?_addText]
    · rw [root?_addText, root?_imply, root?_popMany, root?_addText, or_root? hs]

theorem root?_token (t : Token) : (b.token t).root? = b.root?.or t.root? := by
  cases t with
  | text data => exact root?_text data
  | raw data => rw [token, root?_addText, Token.root?, Option.or_none]
  | comment data => rw [token, root?_addComment, Token.root?, Option.or_none]
  | startTag tag selfClosing => exact root?_startTag tag selfClosing
  | endTag name => rw [token, root?_endTag, Token.root?, Option.or_none]
  | cutTag name => rw [token, root?_imply, root?_autoClose, Token.root?]

theorem root?_foldl (ts : List Token) :
    (ts.foldl token b).root? = b.root?.or (ts.findSome? Token.root?) := by
  induction ts generalizing b with
  | nil => exact Option.or_none.symm
  | cons t ts ih =>
    rw [List.foldl_cons, ih, root?_token, Option.or_assoc, List.findSome?_cons]
    cases t.root? <;> rfl

end Builder

/-- The root of a document is the one that the first token with a root opens. -/
theorem root?_build (ts : List Token) :
    (build ts).root?.map Prod.fst = ts.findSome? Token.root? := by
  have hfinish (b : Builder) : b.finish.root?.map Prod.fst = b.root? := by
    have hclosed := Builder.root?_popMany (b := b) b.stack.length
    rw [Builder.root?, Builder.stack_popMany _ rfl] at hclosed
    rw [Builder.finish, ← hclosed]
    exact Option.or_none.symm
  rw [build, hfinish, Builder.root?_foldl]
  rfl

/-! ## Below the root -/

namespace Builder

/-- Open elements, innermost first, and their content have the properties for their depths. -/
def Nested (P : ℕ → Tag → Prop) : List Frame → Prop
  | [] => True
  | f :: fs => P fs.length f.tag ∧ f.content.AllAt P (fs.length + 1) ∧ Nested P fs

/-- All elements have the properties for their depths. So have the sections that may still open by
themselves, unless a body has been opened. -/
structure Inside (P : ℕ → Tag → Prop) (b : Builder) : Prop where
  seen : b.bodySeen = true ∨ ∀ n name, name = head ∨ name = body → P n ⟨name, []⟩
  closed : b.finished.AllAt P 0
  nested : Nested P b.stack

namespace Inside

variable {P : ℕ → Tag → Prop} {b : Builder}

theorem addWith {add : Tree → Tree} (ha : ∀ n (t : Tree), t.AllAt P n → (add t).AllAt P n)
    (h : b.Inside P) : (b.addWith add).Inside P := by
  obtain ⟨stack, finished, headSeen, bodySeen, ignored⟩ := b
  obtain ⟨hseen, hclosed, hnested⟩ := h
  cases stack with
  | nil => exact ⟨hseen, ha 0 _ hclosed, hnested⟩
  | cons f fs => exact ⟨hseen, hclosed, hnested.1, ha _ _ hnested.2.1, hnested.2.2⟩

theorem addText (data : Text) (h : b.Inside P) : (b.addText data).Inside P := by
  rw [Builder.addText]
  split
  · exact h
  · refine addWith (fun n t ht => ?_) h
    unfold mergeText
    split
    · exact ht
    · exact ht

theorem addComment (data : Text) (h : b.Inside P) : (b.addComment data).Inside P :=
  addWith (fun _ _ ht => ht) h

theorem push {tag : Tag} (ht : P b.stack.length tag) (h : b.Inside P) : (b.push tag).Inside P :=
  ⟨h.seen.imp_left fun hs => by simp [Builder.push, hs], h.closed, ht, trivial, h.nested⟩

theorem pop (h : b.Inside P) : b.pop.Inside P := by
  obtain ⟨stack, finished, headSeen, bodySeen, ignored⟩ := b
  obtain ⟨hseen, hclosed, hnested⟩ := h
  match stack with
  | [] => exact ⟨hseen, hclosed, hnested⟩
  | [f] => exact ⟨hseen, ⟨hnested.1, Forest.allAt_reverse.2 hnested.2.1, hclosed⟩, trivial⟩
  | f :: g :: gs =>
    obtain ⟨hf, hcontent, hg, hrest⟩ := hnested
    exact ⟨hseen, hclosed, hg, ⟨hf, Forest.allAt_reverse.2 hcontent, hrest.1⟩, hrest.2⟩

theorem popMany (n : ℕ) (h : b.Inside P) : (popMany n b).Inside P := by
  induction n generalizing b with
  | zero => exact h
  | succ n ih => exact ih h.pop

theorem autoClose (name : Text) (h : b.Inside P) : (b.autoClose name).Inside P :=
  h.popMany _

theorem imply (hroot : P 0 ⟨html, []⟩) (name : Text) (h : b.Inside P) :
    (b.imply name).Inside P := by
  by_cases hn : name = html
  · rwa [Builder.imply, if_pos hn]
  · have hrooted : b.rooted.Inside P := by
      rw [rooted]
      split
      · rename_i hs
        refine h.push ?_
        rwa [List.isEmpty_iff.1 hs]
      · exact h
    rcases imply_cases (b := b) hn with he | ⟨hseen, n, hsection, he⟩
    · rwa [he]
    · rcases h.seen with hs | hs
      · rw [hseen] at hs
        exact Bool.noConfusion hs
      · rw [he]
        exact hrooted.push (hs _ n hsection)

theorem startTag (hroot : P 0 ⟨html, []⟩) {tag : Tag}
    (ht : ∀ n, (tag.name = html → n = 0) → P n tag) (selfClosing : Bool) (h : b.Inside P) :
    (b.startTag tag selfClosing).Inside P := by
  have hplace := (h.autoClose tag.name).imply hroot tag.name
  obtain ⟨n, ⟨-, he⟩ | ⟨hm, he⟩⟩ := b.startTag_cases tag selfClosing <;> rw [he]
  · exact popMany n ⟨hplace.seen, hplace.closed, hplace.nested⟩
  · refine (hplace.push (ht _ fun hn => ?_)).popMany n
    rw [isMisplaced, if_pos hn] at hm
    simpa using hm

theorem endTag (name : Text) (h : b.Inside P) : (b.endTag name).Inside P := by
  rcases b.endTag_cases name with ⟨k, he⟩ | ⟨n, he⟩ <;> rw [he]
  · exact ⟨h.seen, h.closed, h.nested⟩
  · exact h.popMany n

theorem text (hroot : P 0 ⟨html, []⟩) (data : Text) (h : b.Inside P) : (b.text data).Inside P := by
  obtain ⟨blanks, rest, -, ⟨-, he⟩ | ⟨-, he⟩ | ⟨-, n, he⟩⟩ := b.text_cases data <;> rw [he]
  · exact h.addText _
  · exact (h.addText _).addText _
  · exact (((h.addText _).popMany n).imply hroot _).addText _

theorem token (hroot : P 0 ⟨html, []⟩) {t : Token}
    (ht : ∀ tag selfClosing, t = .startTag tag selfClosing →
      ∀ n, (tag.name = html → n = 0) → P n tag) (h : b.Inside P) : (b.token t).Inside P := by
  cases t with
  | text data => exact h.text hroot data
  | raw data => exact h.addText data
  | comment data => exact h.addComment data
  | startTag tag selfClosing => exact h.startTag hroot (ht tag selfClosing rfl) selfClosing
  | endTag name => exact h.endTag name
  | cutTag name => exact (h.autoClose name).imply hroot name

theorem foldl (hroot : P 0 ⟨html, []⟩) {ts : List Token}
    (ht : ∀ tag selfClosing, .startTag tag selfClosing ∈ ts →
      ∀ n, (tag.name = html → n = 0) → P n tag) (h : b.Inside P) :
    (ts.foldl Builder.token b).Inside P := by
  induction ts generalizing b with
  | nil => exact h
  | cons t ts ih =>
    refine ih (fun tag close hm => ht tag close (List.mem_cons_of_mem t hm)) (h.token hroot ?_)
    rintro tag close rfl
    exact ht tag close List.mem_cons_self

theorem finish (h : b.Inside P) : b.finish.AllAt P 0 :=
  Forest.allAt_reverse.2 (h.popMany _).closed

end Inside

end Builder

/-- Below the root of a document whose body is opened at once there are start tags only, and none
of another root. -/
theorem allAt_build (ts : List Token) :
    (build (.startTag ⟨Builder.html, []⟩ false :: .startTag ⟨Builder.body, []⟩ false :: ts)).AllAt
      (fun n tag => n = 0 ∨ n = 1 ∧ tag = ⟨Builder.body, []⟩ ∨
        tag.name ≠ Builder.html ∧ ∃ selfClosing, .startTag tag selfClosing ∈ ts) 0 := by
  have hopened : ((Builder.start.token (.startTag ⟨Builder.html, []⟩ false)).token
      (.startTag ⟨Builder.body, []⟩ false)) =
        Builder.within [⟨⟨Builder.body, []⟩, .nil⟩, ⟨⟨Builder.html, []⟩, .nil⟩] := rfl
  rw [build, List.foldl_cons, List.foldl_cons, hopened]
  refine Builder.Inside.finish (Builder.Inside.foldl (Or.inl rfl) ?_ ?_)
  · intro tag close hm n hn
    by_cases h : tag.name = Builder.html
    · exact Or.inl (hn h)
    · exact Or.inr (Or.inr ⟨h, close, hm⟩)
  · exact ⟨Or.inl rfl, trivial, Or.inr (Or.inl ⟨rfl, rfl⟩), trivial, Or.inl rfl, trivial, trivial⟩

/-- Elements without a start tag are sections, and these have no attributes. -/
theorem mem_elements_build {ts : List Token} {t : Tag} (h : t ∈ (build ts).elements) :
    t.name ∈ sectionNames ∧ t.attributes = [] ∨ ∃ selfClosing, .startTag t selfClosing ∈ ts := by
  have hinside : (ts.foldl Builder.token Builder.start).Inside fun _ t =>
      t.name ∈ sectionNames ∧ t.attributes = [] ∨ ∃ selfClosing, .startTag t selfClosing ∈ ts := by
    refine Builder.Inside.foldl (Or.inl ⟨by decide, rfl⟩) (fun tag close hm _ _ => Or.inr ⟨close, hm⟩)
      ⟨Or.inr ?_, trivial, trivial⟩
    rintro _ _ (rfl | rfl)
    · exact Or.inl ⟨by decide, rfl⟩
    · exact Or.inl ⟨by decide, rfl⟩
  obtain ⟨-, -, ht⟩ := Forest.exists_depth_of_mem_elements hinside.finish h
  exact ht

end InlineBinding.Html
