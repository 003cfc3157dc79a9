import InlineBinding.Html.Builder
import InlineBinding.Proofs.Forest

/-!
# Relabelled tokens

A tree is built by the names of its tags. Tags with other attributes make the same tree, and stand
in it with these attributes.
-/
namespace InlineBinding

namespace Forest

variable {ε ε' μ : Type} (φ : ε → ε')

/-- Other labels on the inner nodes. -/
def relabel : Forest ε μ → Forest ε' μ
  | nil => nil
  | element e cs rest => element (φ e) (relabel cs) (relabel rest)
  | leaf l rest => leaf l (relabel rest)

theorem relabel_reverseOnto (f g : Forest ε μ) :
    (f.reverseOnto g).relabel φ = (f.relabel φ).reverseOnto (g.relabel φ) := by
  induction f generalizing g with
  | nil => rfl
  | element e cs rest _ ih => exact ih _
  | leaf l rest ih => exact ih _

theorem relabel_reverse (f : Forest ε μ) : f.reverse.relabel φ = (f.relabel φ).reverse :=
  relabel_reverseOnto φ f nil

theorem relabel_append (f g : Forest ε μ) :
    (f ++ g).relabel φ = f.relabel φ ++ g.relabel φ := by
  induction f with
  | nil => rfl
  | element e cs rest _ ih => rw [element_append, relabel, relabel, ih, element_append]
  | leaf l rest ih => rw [leaf_append, relabel, relabel, ih, leaf_append]

theorem root?_relabel (f : Forest ε μ) :
    (f.relabel φ).root? = f.root?.map fun r => (φ r.1, r.2.relabel φ) := by
  induction f with
  | nil => rfl
  | element e cs rest => rfl
  | leaf l rest ih => exact ih

theorem elements_relabel (f : Forest ε μ) : (f.relabel φ).elements = f.elements.map φ := by
  induction f with
  | nil => rfl
  | element e cs rest ihc ihr =>
    rw [relabel, elements, elements, ihc, ihr, List.map_cons, List.map_append]
  | leaf l rest ih => exact ih

end Forest

namespace Html

/-- Tags keep their names, and those that no markup stands for keep having no attributes. -/
structure Relabels (φ : Tag → Tag) : Prop where
  name : ∀ t, (φ t).name = t.name
  implied : ∀ n, φ ⟨n, []⟩ = ⟨n, []⟩

def Token.relabel (φ : Tag → Tag) : Token → Token
  | .startTag tag selfClosing => .startTag (φ tag) selfClosing
  | t => t

def Frame.relabel (φ : Tag → Tag) (f : Frame) : Frame := ⟨φ f.tag, f.content.relabel φ⟩

namespace Builder

/-- The same elements are open, with other attributes. -/
def relabel (φ : Tag → Tag) (b : Builder) : Builder :=
  { b with stack := b.stack.map (Frame.relabel φ), finished := b.finished.relabel φ }

section Operations

variable {φ : Tag → Tag} (b : Builder)

theorem addWith_relabel {add : Tree → Tree} (h : ∀ t : Tree, (add t).relabel φ = add (t.relabel φ)) :
    (b.addWith add).relabel φ = (b.relabel φ).addWith add := by
  obtain ⟨stack, finished, headSeen, bodySeen, ignored⟩ := b
  cases stack with
  | nil => simp [addWith, relabel, h]
  | cons f fs => simp [addWith, relabel, Frame.relabel, h]

theorem mergeText_relabel (data : Text) (t : Tree) :
    (mergeText data t).relabel φ = mergeText data (t.relabel φ) := by
  cases t with
  | nil => rfl
  | element e cs rest => rfl
  | leaf l rest => cases l <;> rfl

theorem addText_relabel (data : Text) : (b.addText data).relabel φ = (b.relabel φ).addText data := by
  rw [addText, addText]
  split
  · rfl
  · exact addWith_relabel b (mergeText_relabel data)

theorem addComment_relabel (data : Text) :
    (b.addComment data).relabel φ = (b.relabel φ).addComment data :=
  addWith_relabel b fun _ => rfl

theorem pop_relabel : b.pop.relabel φ = (b.relabel φ).pop := by
  obtain ⟨stack, finished, headSeen, bodySeen, ignored⟩ := b
  match stack with
  | [] => rfl
  | [f] => simp [pop, addWith, relabel, Frame.relabel, Forest.relabel, Forest.relabel_reverse]
  | f :: g :: gs =>
    simp [pop, addWith, relabel, Frame.relabel, Forest.relabel, Forest.relabel_reverse]

theorem popMany_relabel (n : ℕ) : (popMany n b).relabel φ = popMany n (b.relabel φ) := by
  induction n generalizing b with
  | zero => rfl
  | succ n ih => rw [popMany, popMany, ih, pop_relabel]

end Operations

section Names

variable {φ : Tag → Tag} (h : Relabels φ) (b : Builder)

include h

theorem takeWhile_relabel (p : Text → Bool) (fs : List Frame) :
    (fs.map (Frame.relabel φ)).takeWhile (fun f => p f.tag.name) =
      (fs.takeWhile fun f => p f.tag.name).map (Frame.relabel φ) := by
  have hp : (fun f : Frame => p f.tag.name) ∘ Frame.relabel φ = fun f => p f.tag.name :=
    funext fun f => congrArg p (h.name f.tag)
  rw [List.takeWhile_map, hp]

theorem any_relabel (p : Text → Bool) (fs : List Frame) :
    (fs.map (Frame.relabel φ)).any (fun f => p f.tag.name) = fs.any fun f => p f.tag.name := by
  have hp : (fun f : Frame => p f.tag.name) ∘ Frame.relabel φ = fun f => p f.tag.name :=
    funext fun f => congrArg p (h.name f.tag)
  rw [List.any_map, hp]

theorem isOpen_relabel (name : Text) : (b.relabel φ).isOpen name = b.isOpen name :=
  any_relabel h (· == name) b.stack

theorem current?_relabel : (b.relabel φ).current? = b.current? := by
  obtain ⟨stack, finished, headSeen, bodySeen, ignored⟩ := b
  cases stack with
  | nil => rfl
  | cons f fs => exact congrArg some (h.name f.tag)

theorem push_relabel (tag : Tag) : (b.push tag).relabel φ = (b.relabel φ).push (φ tag) := by
  simp [push, relabel, Frame.relabel, Forest.relabel, h.name]

theorem autoClose_relabel (name : Text) :
    (b.autoClose name).relabel φ = (b.relabel φ).autoClose name := by
  have hclosed : (b.relabel φ).stack.takeWhile (fun f => closes f.tag.name name) =
      (b.stack.takeWhile fun f => closes f.tag.name name).map (Frame.relabel φ) :=
    takeWhile_relabel h (closes · name) b.stack
  rw [autoClose, autoClose, popMany_relabel, hclosed, List.length_map]

theorem push_implied (name : Text) : (b.push ⟨name, []⟩).relabel φ = (b.relabel φ).push ⟨name, []⟩ := by
  rw [push_relabel h, h.implied]

theorem imply_relabel (name : Text) : (b.imply name).relabel φ = (b.relabel φ).imply name := by
  have hroot : (if b.stack.isEmpty then b.push ⟨html, []⟩ else b).relabel φ =
      if (b.relabel φ).stack.isEmpty then (b.relabel φ).push ⟨html, []⟩ else b.relabel φ := by
    have hempty : (b.relabel φ).stack.isEmpty = b.stack.isEmpty := List.isEmpty_map
    rw [hempty]
    split
    · exact push_implied h b html
    · rfl
  rw [imply, imply]
  split
  · rfl
  rw [← hroot]
  generalize (if b.stack.isEmpty then b.push ⟨html, []⟩ else b) = root
  have hlength : (root.relabel φ).stack.length = root.stack.length := List.length_map _
  have hhead : (root.relabel φ).headSeen = root.headSeen := rfl
  have hbody : (root.relabel φ).bodySeen = root.bodySeen := rfl
  dsimp only
  rw [hlength, hhead, hbody, isOpen_relabel h, isOpen_relabel h]
  split
  · rfl
  split
  · split
    · rfl
    · exact push_implied h root head
  split
  · rfl
  split
  · rfl
  · exact push_implied h root body

theorem isMisplaced_relabel (name : Text) : (b.relabel φ).isMisplaced name = b.isMisplaced name := by
  have hempty : (b.relabel φ).stack.isEmpty = b.stack.isEmpty := List.isEmpty_map
  have hlength : (b.relabel φ).stack.length = b.stack.length := List.length_map _
  rw [isMisplaced, isMisplaced, hempty, hlength, isOpen_relabel h]

theorem startTag_relabel (tag : Tag) (selfClosing : Bool) :
    (b.startTag tag selfClosing).relabel φ = (b.relabel φ).startTag (φ tag) selfClosing := by
  have hclose (c : Builder) (close : Bool) :
      (if close then c.pop else c).relabel φ = if close then (c.relabel φ).pop else c.relabel φ := by
    cases close
    · rfl
    · exact pop_relabel c
  rw [startTag, startTag, h.name, ← autoClose_relabel h, ← imply_relabel h, isMisplaced_relabel h]
  dsimp only
  split
  · exact hclose _ _
  · rw [hclose, push_relabel h]

theorem endTag_relabel (name : Text) : (b.endTag name).relabel φ = (b.relabel φ).endTag name := by
  have hinner : (b.relabel φ).stack.takeWhile (fun f => f.tag.name != name) =
      (b.stack.takeWhile fun f => f.tag.name != name).map (Frame.relabel φ) :=
    takeWhile_relabel h (· != name) b.stack
  have hignored : (b.relabel φ).ignored = b.ignored := rfl
  rw [endTag, endTag, hignored, isOpen_relabel h, hinner]
  split
  · rfl
  split
  · rfl
  dsimp only
  rw [any_relabel h (fun n => decide (priority n > priority name)), List.length_map]
  split
  · rfl
  · exact popMany_relabel b _

theorem text_relabel (data : Text) : (b.text data).relabel φ = (b.relabel φ).text data := by
  have hempty : (b.relabel φ).stack.isEmpty = b.stack.isEmpty := List.isEmpty_map
  rw [text, text, current?_relabel h, hempty]
  generalize (decide (b.current? = some html) || decide (b.current? = some head)) = inSection
  generalize (if b.stack.isEmpty || inSection then skipBlank data else data) = rest
  have hshown : (if inSection then b.addText (data.takeWhile isBlank) else b).relabel φ =
      if inSection then (b.relabel φ).addText (data.takeWhile isBlank) else b.relabel φ := by
    split
    · exact addText_relabel b _
    · rfl
  rw [← hshown]
  generalize (if inSection then b.addText (data.takeWhile isBlank) else b) = shown
  dsimp only
  split
  · rfl
  split
  · exact addText_relabel shown rest
  · rw [addText_relabel, imply_relabel h, current?_relabel h]
    split
    · rw [autoClose_relabel h]
    · rfl

theorem token_relabel (t : Token) : (b.token t).relabel φ = (b.relabel φ).token (t.relabel φ) := by
  cases t with
  | text data => exact text_relabel h b data
  | raw data => exact addText_relabel b data
  | comment data => exact addComment_relabel b data
  | startTag tag selfClosing => exact startTag_relabel h b tag selfClosing
  | endTag name => exact endTag_relabel h b name
  | cutTag name => exact (imply_relabel h _ name).trans (by rw [autoClose_relabel h]; rfl)

theorem foldl_relabel (ts : List Token) : (ts.foldl token b).relabel φ =
    (ts.map (Token.relabel φ)).foldl token (b.relabel φ) := by
  induction ts generalizing b with
  | nil => rfl
  | cons t ts ih => rw [List.foldl_cons, ih, token_relabel h, List.map_cons, List.foldl_cons]

end Names
end Builder

theorem build_relabel {φ : Tag → Tag} (h : Relabels φ) (ts : List Token) :
    build (ts.map (Token.relabel φ)) = (build ts).relabel φ := by
  have hfinish (b : Builder) : b.finish.relabel φ = (b.relabel φ).finish := by
    have hlength : (b.relabel φ).stack.length = b.stack.length := List.length_map _
    rw [Builder.finish, Builder.finish, Forest.relabel_reverse, hlength, ← Builder.popMany_relabel]
    rfl
  rw [build, build, hfinish, Builder.foldl_relabel h]
  rfl

end Html
end InlineBinding
