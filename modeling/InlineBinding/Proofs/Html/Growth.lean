import InlineBinding.Proofs.Forest
import InlineBinding.Proofs.Html.Steps

/-!
# What the builder keeps

Every token goes into the tree, and nothing in the tree goes away again. Only start tags of sections
that are open already leave nothing behind, not even their attributes.
-/
namespace InlineBinding.Html

/-- A token that gives an element with the property `P` or a leaf with `Q`. -/
def Token.Gives (P : Tag → Prop) (Q : Leaf → Prop) : Token → Prop
  | .text data | .raw data => Q (.text data)
  | .comment data => Q (.comment data)
  | .startTag tag _ => P tag
  | .endTag _ | .cutTag _ => False

/-- A property that a text has from its parts, and not from the blanks before it. -/
structure Leaf.Partial (Q : Leaf → Prop) : Prop where
  ne_nil : ∀ data, Q (.text data) → data ≠ []
  append : ∀ a b, Q (.text a) ∨ Q (.text b) → Q (.text (a ++ b))
  skipBlank : ∀ data, Q (.text data) → Q (.text (skipBlank data))

namespace Builder

/-- Some element, open or closed, has the property `P`, or some leaf has `Q`. -/
def Any (P : Tag → Prop) (Q : Leaf → Prop) (b : Builder) : Prop :=
  b.finished.Any P Q ∨ ∃ f ∈ b.stack, P f.tag ∨ f.content.Any P Q

/-- The tag of a token, when its section is open already. -/
def misplacedBy (b : Builder) : Token → List Tag
  | .startTag tag _ =>
    if ((b.autoClose tag.name).imply tag.name).isMisplaced tag.name then [tag] else []
  | _ => []

def misplaced (b : Builder) : List Token → List Tag
  | [] => []
  | t :: ts => b.misplacedBy t ++ misplaced (b.token t) ts

variable {P : Tag → Prop} {Q : Leaf → Prop} {b : Builder}

/-! ## Places -/

theorem any_addWith {add : Tree → Tree} (ha : ∀ t : Tree, t.Any P Q → (add t).Any P Q)
    (h : b.Any P Q) : (b.addWith add).Any P Q := by
  obtain ⟨stack, finished, headSeen, bodySeen, ignored⟩ := b
  cases stack with
  | nil =>
    obtain h | ⟨f, hf, -⟩ := h
    · exact Or.inl (ha _ h)
    · exact absurd hf List.not_mem_nil
  | cons g gs =>
    obtain h | ⟨f, hf, h⟩ := h
    · exact Or.inl h
    · rcases List.mem_cons.1 hf with rfl | hf
      · exact Or.inr ⟨_, List.mem_cons_self, h.imp id (ha _)⟩
      · exact Or.inr ⟨f, List.mem_cons_of_mem _ hf, h⟩

theorem any_addWith_of_forall {add : Tree → Tree} (ha : ∀ t : Tree, (add t).Any P Q) :
    (b.addWith add).Any P Q := by
  obtain ⟨stack, finished, headSeen, bodySeen, ignored⟩ := b
  cases stack with
  | nil => exact Or.inl (ha _)
  | cons g gs => exact Or.inr ⟨_, List.mem_cons_self, Or.inr (ha _)⟩

theorem any_push {tag : Tag} (h : P tag ∨ b.Any P Q) : (b.push tag).Any P Q := by
  rcases h with h | h | ⟨f, hf, h⟩
  · exact Or.inr ⟨⟨tag, .nil⟩, List.mem_cons_self, Or.inl h⟩
  · exact Or.inl h
  · exact Or.inr ⟨f, List.mem_cons_of_mem _ hf, h⟩

theorem any_pop (h : b.Any P Q) : b.pop.Any P Q := by
  obtain ⟨stack, finished, headSeen, bodySeen, ignored⟩ := b
  cases stack with
  | nil => exact h
  | cons g gs =>
    obtain h | ⟨f, hf, h⟩ := h
    · exact any_addWith (fun t ht => Or.inr (Or.inr ht)) (Or.inl h)
    · rcases List.mem_cons.1 hf with rfl | hf
      · exact any_addWith_of_forall fun t => h.imp id fun h => Or.inl (Forest.any_reverse.2 h)
      · exact any_addWith (fun t ht => Or.inr (Or.inr ht)) (Or.inr ⟨f, hf, h⟩)

theorem any_popMany (n : ℕ) (h : b.Any P Q) : (popMany n b).Any P Q := by
  induction n generalizing b with
  | zero => exact h
  | succ n ih => exact ih (any_pop h)

theorem any_autoClose (name : Text) (h : b.Any P Q) : (b.autoClose name).Any P Q :=
  any_popMany _ h

theorem any_imply (name : Text) (h : b.Any P Q) : (b.imply name).Any P Q := by
  by_cases hn : name = html
  · rwa [imply, if_pos hn]
  · have hrooted : b.rooted.Any P Q := by
      rw [rooted]
      split
      · exact any_push (Or.inr h)
      · exact h
    rcases imply_cases (b := b) hn with he | ⟨-, n, -, he⟩
    · rwa [he]
    · rw [he]
      exact any_push (Or.inr hrooted)

/-! ## Tokens -/

section Tokens

variable (hq : Leaf.Partial Q)

include hq

theorem any_mergeText {data : Text} {t : Tree} (h : Q (.text data) ∨ t.Any P Q) :
    (mergeText data t).Any P Q := by
  unfold mergeText
  split
  · rename_i before rest
    rcases h with h | h | h
    · exact Or.inl (hq.append before data (Or.inr h))
    · exact Or.inl (hq.append before data (Or.inl h))
    · exact Or.inr h
  · exact h

theorem any_addText {data : Text} (h : Q (.text data) ∨ b.Any P Q) : (b.addText data).Any P Q := by
  rw [addText]
  split
  · rename_i he
    exact h.resolve_left fun h => hq.ne_nil data h (List.isEmpty_iff.1 he)
  · rcases h with h | h
    · exact any_addWith_of_forall fun t => any_mergeText hq (Or.inl h)
    · exact any_addWith (fun t ht => any_mergeText hq (Or.inr ht)) h

theorem any_text {data : Text} (h : Q (.text data) ∨ b.Any P Q) : (b.text data).Any P Q := by
  obtain ⟨blanks, rest, hrest, hcases⟩ := b.text_cases data
  have h : Q (.text rest) ∨ (b.addText blanks).Any P Q := by
    refine h.imp (fun h => ?_) fun h => any_addText hq (Or.inr h)
    rcases hrest with rfl | ⟨-, rfl⟩
    · exact hq.skipBlank data h
    · exact h
  rcases hcases with ⟨hnil, he⟩ | ⟨-, he⟩ | ⟨-, n, he⟩ <;> rw [he]
  · exact h.resolve_left fun h => hq.ne_nil rest h hnil
  · exact any_addText hq h
  · exact any_addText hq (h.imp id fun h => any_imply paragraph (any_popMany n h))

end Tokens

theorem any_addComment {data : Text} (h : Q (.comment data) ∨ b.Any P Q) :
    (b.addComment data).Any P Q := by
  rcases h with h | h
  · exact any_addWith_of_forall fun t => Or.inl h
  · exact any_addWith (fun t ht => Or.inr ht) h

theorem any_startTag {tag : Tag} (selfClosing : Bool) (h : P tag ∨ b.Any P Q) :
    (b.startTag tag selfClosing).Any P Q ∨
      ∃ u ∈ b.misplacedBy (.startTag tag selfClosing), P u := by
  have hplace (h : b.Any P Q) : ((b.autoClose tag.name).imply tag.name).Any P Q :=
    any_imply tag.name (any_autoClose tag.name h)
  obtain ⟨n, ⟨hm, he⟩ | ⟨-, he⟩⟩ := b.startTag_cases tag selfClosing
  · rcases h with h | h
    · refine Or.inr ⟨tag, ?_, h⟩
      rw [misplacedBy, if_pos hm]
      exact List.mem_singleton_self tag
    · rw [he]
      exact Or.inl (any_popMany n (hplace h))
  · rw [he]
    exact Or.inl (any_popMany n (any_push (h.imp id hplace)))

theorem any_endTag (name : Text) (h : b.Any P Q) : (b.endTag name).Any P Q := by
  rcases b.endTag_cases name with ⟨k, he⟩ | ⟨n, he⟩ <;> rw [he]
  · exact h
  · exact any_popMany n h

/-- What a token gives is there after it, like all that was there before. -/
theorem any_token (hq : Leaf.Partial Q) {t : Token} (h : t.Gives P Q ∨ b.Any P Q) :
    (b.token t).Any P Q ∨ ∃ u ∈ b.misplacedBy t, P u := by
  cases t with
  | text data => exact Or.inl (any_text hq h)
  | raw data => exact Or.inl (any_addText hq h)
  | comment data => exact Or.inl (any_addComment h)
  | startTag tag selfClosing => exact any_startTag selfClosing h
  | endTag name => exact Or.inl (any_endTag name (h.resolve_left id))
  | cutTag name => exact Or.inl (any_imply name (any_autoClose name (h.resolve_left id)))

/-! ## Whole inputs -/

theorem any_foldl (hq : Leaf.Partial Q) {ts : List Token}
    (h : (∃ t ∈ ts, t.Gives P Q) ∨ b.Any P Q) :
    (ts.foldl token b).Any P Q ∨ ∃ u ∈ b.misplaced ts, P u := by
  induction ts generalizing b with
  | nil => exact Or.inl (h.resolve_left fun ⟨_, ht, _⟩ => absurd ht List.not_mem_nil)
  | cons t ts ih =>
    have hstep : (∃ t ∈ ts, t.Gives P Q) ∨ t.Gives P Q ∨ b.Any P Q := by
      rcases h with ⟨u, hu, h⟩ | h
      · rcases List.mem_cons.1 hu with rfl | hu
        · exact Or.inr (Or.inl h)
        · exact Or.inl ⟨u, hu, h⟩
      · exact Or.inr (Or.inr h)
    have hlater (h : (∃ t ∈ ts, t.Gives P Q) ∨ (b.token t).Any P Q) :
        ((t :: ts).foldl token b).Any P Q ∨ ∃ u ∈ b.misplaced (t :: ts), P u :=
      (ih h).imp id fun ⟨u, hu, hp⟩ => ⟨u, List.mem_append_right _ hu, hp⟩
    rcases hstep with h | h
    · exact hlater (Or.inl h)
    · rcases any_token hq h with h | ⟨u, hu, hp⟩
      · exact hlater (Or.inr h)
      · exact Or.inr ⟨u, List.mem_append_left _ hu, hp⟩

theorem length_stack_pop : b.pop.stack.length = b.stack.length - 1 := by
  obtain ⟨stack, finished, headSeen, bodySeen, ignored⟩ := b
  cases stack with
  | nil => rfl
  | cons f fs => cases fs <;> rfl

theorem stack_popMany (n : ℕ) (h : b.stack.length = n) : (popMany n b).stack = [] := by
  induction n generalizing b with
  | zero => exact List.length_eq_zero_iff.1 h
  | succ n ih => exact ih (by rw [length_stack_pop, h, Nat.add_sub_cancel])

theorem any_finish (h : b.Any P Q) : b.finish.Any P Q := by
  have hall := any_popMany b.stack.length h
  rw [Any, stack_popMany _ rfl] at hall
  rw [finish, Forest.any_reverse]
  exact hall.resolve_right fun ⟨_, hf, _⟩ => absurd hf List.not_mem_nil

end Builder

theorem any_build {P : Tag → Prop} {Q : Leaf → Prop} (hq : Leaf.Partial Q) {ts : List Token}
    {t : Token} (ht : t ∈ ts) (h : t.Gives P Q) :
    (build ts).Any P Q ∨ ∃ u ∈ Builder.start.misplaced ts, P u :=
  (Builder.any_foldl hq (Or.inl ⟨t, ht, h⟩)).imp Builder.any_finish id

end InlineBinding.Html
