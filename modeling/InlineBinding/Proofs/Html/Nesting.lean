import InlineBinding.Proofs.Forest
import InlineBinding.Proofs.Html.Written

/-! # How written elements nest

Containers are closed by their end tags and empty elements at once.  A shape that is not written as
closed stays open until the element around it ends, so everything behind it goes into it.
-/
namespace InlineBinding

namespace Html

def staysOpen (slash : Bool) (name : Text) : Bool := !slash && shapeNames.contains name

/-- The tree that is read: what stands behind an open shape is in it. -/
def nest (slash : Bool) : Tree → Tree
  | .nil => .nil
  | .element t cs rest =>
    if staysOpen slash t.name then .element t (nest slash rest) .nil
    else .element t (nest slash cs) (nest slash rest)
  | .leaf l rest => .leaf l (nest slash rest)

/-- The open elements when the tree has been read inside the element `f`, innermost first. -/
def frames (slash : Bool) : Tree → Frame → List Frame
  | .nil, f => [f]
  | .element t cs rest, f =>
    if staysOpen slash t.name then frames slash rest ⟨t, .nil⟩ ++ [f]
    else frames slash rest ⟨f.tag, .element t (nest slash cs) f.content⟩
  | .leaf l rest, f => frames slash rest ⟨f.tag, .leaf l f.content⟩

namespace Builder

/-- Inside the body. -/
def within (stack : List Frame) : Builder := ⟨stack, .nil, false, true, 0⟩

/-! ## Single steps -/

theorem popMany_add (m n : ℕ) (b : Builder) : popMany (m + n) b = popMany n (popMany m b) := by
  induction m generalizing b with
  | zero => rw [Nat.zero_add, popMany]
  | succ m ih => rw [Nat.succ_add, popMany, ih, popMany]

theorem pop_within (f g : Frame) (fs : List Frame) :
    pop (within (f :: g :: fs)) =
      within (⟨g.tag, .element f.tag f.content.reverse g.content⟩ :: fs) := rfl

/-- Elements in which plain elements can stand. -/
def holderNames : List Text := body :: plainNames

section Steps

variable {f : Frame} {fs : List Frame}

/-- An element that closes nothing is put where it stands. -/
theorem startTag_inside {t : Tag} (hcloses : closes f.tag.name t.name = false)
    (hname : t.name ≠ html ∧ t.name ≠ head ∧ t.name ≠ body) (selfClosing : Bool) :
    (within (f :: fs)).startTag t selfClosing =
      if selfClosing || voidNames.contains t.name then
        within (⟨f.tag, .element t .nil f.content⟩ :: fs)
      else within (⟨t, .nil⟩ :: f :: fs) := by
  obtain ⟨hhtml, hhead, hbody⟩ := hname
  have hauto : (within (f :: fs)).autoClose t.name = within (f :: fs) := by
    rw [autoClose, within, List.takeWhile_cons_of_neg (by simp [hcloses])]
    rfl
  have himply : (within (f :: fs)).imply t.name = within (f :: fs) := by
    rw [imply, if_neg hhtml]
    simp [within, hhead, hbody]
  have hplaced : (within (f :: fs)).isMisplaced t.name = false := by
    simp [isMisplaced, hhtml, hhead, hbody]
  have hpush : (within (f :: fs)).push t = within (⟨t, .nil⟩ :: f :: fs) := by
    simp [push, within, hhead]
  rw [startTag, hauto, himply, hplaced]
  simp only [Bool.false_eq_true, if_false, hpush]
  rfl

theorem startTag_within {t : Tag} (hf : f.tag.name ∈ holderNames) (ht : t.name ∈ plainNames)
    (selfClosing : Bool) : (within (f :: fs)).startTag t selfClosing =
      if selfClosing || voidNames.contains t.name then
        within (⟨f.tag, .element t .nil f.content⟩ :: fs)
      else within (⟨t, .nil⟩ :: f :: fs) := by
  have hcloses : ∀ x ∈ holderNames, ∀ y ∈ plainNames, closes x y = false := by decide
  have hnames : ∀ y ∈ plainNames, y ≠ html ∧ y ≠ head ∧ y ≠ body := by decide
  exact startTag_inside (hcloses _ hf _ ht) (hnames _ ht) selfClosing

theorem text_within {d : Text} (hf : f.tag.name ≠ html ∧ f.tag.name ≠ head) (hd : d ≠ [])
    (hc : startsText f.content = false) :
    (within (f :: fs)).text d = within (⟨f.tag, .leaf (.text d) f.content⟩ :: fs) := by
  obtain ⟨hhtml, hhead⟩ := hf
  have hmerge : mergeText d f.content = .leaf (.text d) f.content := by
    cases hcontent : f.content with
    | nil => rfl
    | element t cs rest => rfl
    | leaf l rest =>
      cases l with
      | text e => rw [hcontent] at hc; exact absurd hc (by simp [startsText])
      | comment e => rfl
  have hadd : (within (f :: fs)).addText d = within (⟨f.tag, .leaf (.text d) f.content⟩ :: fs) := by
    rw [addText, if_neg (by simpa using hd), addWith, within]
    simp only [hmerge]
    rfl
  have hcurrent : (within (f :: fs)).current? = some f.tag.name := rfl
  have himply : (within (f :: fs)).imply paragraph = within (f :: fs) := by
    have hp : paragraph ≠ html ∧ paragraph ≠ head ∧ paragraph ≠ body := by decide
    rw [imply, if_neg hp.1]
    simp [within, hp.2.1, hp.2.2]
  have hsection : (decide ((within (f :: fs)).current? = some html) ||
      decide ((within (f :: fs)).current? = some head)) = false := by
    simp [hcurrent, hhtml, hhead]
  have hopen : ((within (f :: fs)).stack.isEmpty || false) = false := rfl
  have hempty : ¬ d.isEmpty = true := by simpa using hd
  have hhead : ¬ (within (f :: fs)).current? = some head := by simpa [hcurrent] using hhead
  simp only [text, hsection, hopen, Bool.false_eq_true, if_false, if_neg hempty, if_neg hhead,
    himply, hadd, ite_self]

/-- An end tag closes its element and what is open in it, unless that is of higher priority. -/
theorem endTag_within {os : List Frame} {n : Text}
    (hos : ∀ o ∈ os, o.tag.name ≠ n ∧ ¬ priority o.tag.name > priority n) (hf : f.tag.name = n) :
    (within (os ++ f :: fs)).endTag n = popMany (os.length + 1) (within (os ++ f :: fs)) := by
  have hopen : (within (os ++ f :: fs)).isOpen n = true := by
    simp [isOpen, within, hf]
  have hinner : (within (os ++ f :: fs)).stack.takeWhile (·.tag.name != n) = os := by
    have hos : ∀ o ∈ os, (o.tag.name != n) = true :=
      fun o ho => bne_iff_ne.2 (hos o ho).1
    rw [within, List.takeWhile_append_of_pos hos, List.takeWhile_cons_of_neg (by simp [hf]),
      List.append_nil]
  have hreach : os.any (fun o => priority o.tag.name > priority n) = false := by
    rw [List.any_eq_false]
    exact fun o ho => by simpa using (hos o ho).2
  rw [endTag, hopen]
  simp only [hinner, hreach]
  rfl

end Steps

/-! ## Runs -/

section Runs

variable {slash : Bool} {t : Tree} {f : Frame}

/-- Above the element that was open before there are only shapes. -/
theorem frames_eq (h : Plain t) : ∃ os g, frames slash t f = os ++ [g] ∧ g.tag = f.tag ∧
    ∀ o ∈ os, o.tag.name ∈ shapeNames := by
  induction t generalizing f with
  | nil => exact ⟨[], f, rfl, rfl, fun _ ho => absurd ho List.not_mem_nil⟩
  | element t cs rest _ ih =>
    obtain ⟨-, -, -, -, hr⟩ := h
    rw [frames]
    split
    · rename_i hs
      obtain ⟨os, g, hos, hg, hshapes⟩ := ih (f := ⟨t, .nil⟩) hr
      have ht : t.name ∈ shapeNames := by
        rw [staysOpen, Bool.and_eq_true] at hs
        exact List.contains_iff_mem.1 hs.2
      refine ⟨os ++ [g], f, by rw [hos], rfl, fun o ho => ?_⟩
      rcases List.mem_append.1 ho with ho | ho
      · exact hshapes o ho
      · rw [List.mem_singleton.1 ho, hg]
        exact ht
    · exact ih hr
  | leaf l rest ih =>
    cases l with
    | text d => exact ih h.2.2.2
    | comment d => exact h.elim

/-- When the element around a tree is closed, it holds what is read of the tree. -/
theorem popMany_frames (f g : Frame) (gs : List Frame) :
    popMany (frames slash t f).length (within (frames slash t f ++ g :: gs)) =
      within (⟨g.tag, .element f.tag ((nest slash t).reverseOnto f.content).reverse g.content⟩
        :: gs) := by
  induction t generalizing f g gs with
  | nil => exact pop_within f g gs
  | element t cs rest _ ih =>
    rw [frames, nest]
    split
    · rw [List.length_append, List.length_singleton, popMany_add, List.append_assoc,
        List.singleton_append, ih, Forest.reverse_reverseOnto]
      exact pop_within _ g gs
    · exact ih _ g gs
  | leaf l rest ih => exact ih _ g gs

/-- An element's end tag closes it together with the shapes that are open in it. -/
theorem endTag_frames (h : Plain t) (hf : f.tag.name ∈ html :: body :: containerNames)
    (g : Frame) (gs : List Frame) :
    (within (frames slash t f ++ g :: gs)).endTag f.tag.name =
      within (⟨g.tag, .element f.tag (f.content.reverse ++ nest slash t) g.content⟩ :: gs) := by
  obtain ⟨os, f', hos, hf', hshapes⟩ : ∃ os f', frames slash t f = os ++ [f'] ∧ f'.tag = f.tag ∧
      ∀ o ∈ os, o.tag.name ∈ shapeNames := frames_eq h
  have hlength : (frames slash t f).length = os.length + 1 := by
    rw [hos, List.length_append, List.length_singleton]
  rw [← Forest.reverse_reverseOnto, ← popMany_frames, hlength, hos, List.append_assoc,
    List.singleton_append]
  have hnames : ∀ x ∈ shapeNames, ∀ n ∈ html :: body :: containerNames,
      x ≠ n ∧ ¬ priority x > priority n := by decide
  exact endTag_within (fun o ho => hnames _ (hshapes o ho) _ hf) (by rw [hf'])

/-- Plain elements that are no containers are empty or stay open. -/
theorem staysOpen_of_single {n : Text} (hn : n ∈ plainNames) (hc : n ∉ containerNames)
    (slash : Bool) : staysOpen slash n = !(slash || voidNames.contains n) := by
  have hkinds : ∀ n ∈ plainNames, n ∉ containerNames →
      shapeNames.contains n = !voidNames.contains n := by decide
  rw [staysOpen, hkinds n hn hc, Bool.not_or]

theorem token_single {t : Tag} (hf : f.tag.name ∈ holderNames) (ht : t.name ∈ plainNames)
    (hc : t.name ∉ containerNames) (fs : List Frame) :
    (within (f :: fs)).token (.startTag t slash) =
      if staysOpen slash t.name then within (⟨t, .nil⟩ :: f :: fs)
      else within (⟨f.tag, .element t .nil f.content⟩ :: fs) := by
  rw [token, startTag_within hf ht, staysOpen_of_single ht hc]
  cases slash || voidNames.contains t.name <;> rfl

/-- A container stays open up to its end tag. -/
theorem token_container {t : Tag} (hf : f.tag.name ∈ holderNames) (ht : t.name ∈ plainNames)
    (hc : t.name ∈ containerNames) (fs : List Frame) :
    (within (f :: fs)).token (.startTag t false) = within (⟨t, .nil⟩ :: f :: fs) := by
  have hvoid : ∀ n ∈ containerNames, n ∉ voidNames := by decide
  rw [token, startTag_within hf ht, if_neg (by simpa using hvoid _ hc)]

/-- Reading a plain tree inside the body. -/
theorem foldl_tokens (h : Plain t) (hf : f.tag.name ∈ holderNames)
    (hc : startsText f.content = true → startsText t = false) (fs : List Frame) :
    (tokens slash t).foldl token (within (f :: fs)) = within (frames slash t f ++ fs) := by
  induction t generalizing f fs with
  | nil => rfl
  | element t cs rest ihc ihr =>
    obtain ⟨-, hname, hcs, hplain, hr⟩ := h
    have hholder : t.name ∈ holderNames := List.mem_cons_of_mem _ hname
    rw [tokens, frames]
    by_cases hcontainer : t.name ∈ containerNames
    · have hshape : ∀ n ∈ containerNames, n ∉ shapeNames := by decide
      have hcontent : startsText (⟨t, .nil⟩ : Frame).content = true → startsText cs = false :=
        fun he => absurd he (by simp [startsText])
      have hend : (within (frames slash cs ⟨t, .nil⟩ ++ f :: fs)).token (.endTag t.name) =
          within (⟨f.tag, .element t (nest slash cs) f.content⟩ :: fs) := by
        exact endTag_frames (f := ⟨t, .nil⟩) hplain
          (List.mem_cons_of_mem _ (List.mem_cons_of_mem _ hcontainer)) f fs
      rw [if_pos (List.contains_iff_mem.2 hcontainer), List.foldl_cons,
        token_container hf hname hcontainer, List.foldl_append, ihc hplain hholder hcontent,
        List.foldl_cons, hend, if_neg (by simp [staysOpen, hshape _ hcontainer])]
      exact ihr (f := ⟨f.tag, .element t (nest slash cs) f.content⟩) hr hf
        (fun he => absurd he (by simp [startsText])) fs
    · obtain rfl := hcs hcontainer
      rw [if_neg (by simpa using hcontainer), List.foldl_cons, token_single hf hname hcontainer]
      split
      · rw [List.append_assoc]
        exact ihr (f := ⟨t, .nil⟩) hr hholder (fun he => absurd he (by simp [startsText])) (f :: fs)
      · exact ihr (f := ⟨f.tag, .element t .nil f.content⟩) hr hf
          (fun he => absurd he (by simp [startsText])) fs
  | leaf l rest ih =>
    cases l with
    | text d =>
      obtain ⟨hne, -, hstart, hr⟩ := h
      have hnot : startsText f.content = false := by
        by_contra hn
        exact absurd (hc (by simpa using hn)) (by simp [startsText])
      have hholders : ∀ x ∈ holderNames, x ≠ html ∧ x ≠ head := by decide
      rw [tokens, List.foldl_cons, token, text_within (hholders _ hf) hne hnot, frames]
      exact ih (f := ⟨f.tag, .leaf (.text d) f.content⟩) hr hf (fun _ => hstart) fs
    | comment d => exact h.elim

end Runs

/-! ## A document around the tree -/

theorem build_tokens {slash : Bool} {t : Tree} (h : Plain t) :
    build (.startTag ⟨html, []⟩ false :: .startTag ⟨body, []⟩ false ::
      (tokens slash t ++ [.endTag body, .endTag html])) =
        .element ⟨html, []⟩ (.element ⟨body, []⟩ (nest slash t) .nil) .nil := by
  have hopened : (start.token (.startTag ⟨html, []⟩ false)).token (.startTag ⟨body, []⟩ false) =
      within [⟨⟨body, []⟩, .nil⟩, ⟨⟨html, []⟩, .nil⟩] := by
    rfl
  have hbody : (within (frames slash t ⟨⟨body, []⟩, .nil⟩ ++ [⟨⟨html, []⟩, .nil⟩])).token
      (.endTag body) = within [⟨⟨html, []⟩, .element ⟨body, []⟩ (nest slash t) .nil⟩] :=
    endTag_frames (f := ⟨⟨body, []⟩, .nil⟩) h (by decide) ⟨⟨html, []⟩, .nil⟩ []
  have hread : (tokens slash t).foldl token (within [⟨⟨body, []⟩, .nil⟩, ⟨⟨html, []⟩, .nil⟩]) =
      within (frames slash t ⟨⟨body, []⟩, .nil⟩ ++ [⟨⟨html, []⟩, .nil⟩]) :=
    foldl_tokens (f := ⟨⟨body, []⟩, .nil⟩) h (by decide) (fun he => absurd he (by decide)) _
  rw [build, List.foldl_cons, List.foldl_cons, hopened, List.foldl_append, hread, List.foldl_cons,
    hbody]
  rfl

end Builder

/-! ## Trees that are read as they are -/

/-- Every shape is the last among its siblings. -/
def ShapesLast : Tree → Prop
  | .nil => True
  | .element t cs rest => (t.name ∈ shapeNames → rest = .nil) ∧ ShapesLast cs ∧ ShapesLast rest
  | .leaf _ rest => ShapesLast rest

instance decidableShapesLast : (t : Tree) → Decidable (ShapesLast t)
  | .nil => isTrue trivial
  | .element t cs rest =>
    have := decidableShapesLast cs
    have := decidableShapesLast rest
    inferInstanceAs (Decidable
      ((t.name ∈ shapeNames → rest = .nil) ∧ ShapesLast cs ∧ ShapesLast rest))
  | .leaf _ rest => decidableShapesLast rest

theorem nest_true (t : Tree) : nest true t = t := by
  induction t with
  | nil => rfl
  | element t cs rest ihc ihr => rw [nest, if_neg (by simp [staysOpen]), ihc, ihr]
  | leaf l rest ih => rw [nest, ih]

theorem nest_false_eq_self_iff {t : Tree} (h : Plain t) : nest false t = t ↔ ShapesLast t := by
  induction t with
  | nil => exact iff_of_true rfl trivial
  | element t cs rest ihc ihr =>
    obtain ⟨-, -, hcs, hc, hr⟩ := h
    have hkinds : ∀ n ∈ shapeNames, n ∉ containerNames := by decide
    have hopen : staysOpen false t.name = true ↔ t.name ∈ shapeNames := by simp [staysOpen]
    rw [nest, ShapesLast, ← ihc hc, ← ihr hr]
    by_cases hs : t.name ∈ shapeNames
    · obtain rfl := hcs (hkinds _ hs)
      rw [if_pos (hopen.2 hs)]
      constructor
      · intro he
        injection he with _ hin hrest
        obtain rfl := hrest
        exact ⟨fun _ => rfl, rfl, rfl⟩
      · rintro ⟨hlast, -⟩
        rw [hlast hs]
        rfl
    · rw [if_neg (hopen.not.2 hs), Forest.element.injEq]
      simp [hs]
  | leaf l rest ih =>
    cases l with
    | text d => rw [nest, ShapesLast, ← ih h.2.2.2, Forest.leaf.injEq, and_iff_right rfl]
    | comment d => exact h.elim

end Html
end InlineBinding
