import InlineBinding.Proofs.Html.Relabelled
import InlineBinding.Proofs.Html.Skipped
import Mathlib.Data.List.Nodup

/-!
# Start tags and their places

A start tag is told from others that read the same by its place, the input from its name on. From
there the name and the attributes can be read again, in lower case or as they are written.
-/
namespace InlineBinding.Html
open Text

/-! ## Tags as they are written -/

def writtenName (place : Text) : Text := place.takeWhile isTagChar

/-- The attributes of a tag with their names as they are written; of those that are one name in
lower case, only the first counts. -/
def addWritten (found : List (Text × Text)) (name : Text) (value : Option Text) :
    List (Text × Text) :=
  if found.any (asciiLower ·.1 == asciiLower name) then found
  else found ++
    [(name, value.getD (if flagNames.contains (asciiLower name) then asciiLower name else []))]

def writtenFrom (found : List (Text × Text)) : Text → List (Text × Text)
  | [] => found
  | c :: s =>
    if isBlank c then writtenFrom found s
    else if c = '>' then found
    else if c = '/' then if s.head? = some '>' then found else writtenFrom found s
    else
      let value := attributeValue (s.dropWhile isAttributeChar)
      writtenFrom (addWritten found (c :: s.takeWhile isAttributeChar) value.1) value.2
termination_by s => s.length
decreasing_by
  · simp
  · simp
  · have := length_attributeValue_le (s.dropWhile isAttributeChar)
    have := length_dropWhile_le isAttributeChar s
    simp only [List.length_cons]
    omega

def writtenAttributes (place : Text) : List (Text × Text) :=
  writtenFrom [] (place.dropWhile isTagChar)

/-- The name of an attribute as the tree gets it. -/
def lowerName (a : Text × Text) : Text × Text := (asciiLower a.1, a.2)

section Written

variable {found as : List (Text × Text)} {s rest : Text} {slash : Bool}

theorem any_lowerName (name : Text) :
    (found.map lowerName).any (·.1 == name) = found.any (asciiLower ·.1 == name) :=
  List.any_map

theorem addAttribute_lowerName (name : Text) (value : Option Text) :
    addAttribute (found.map lowerName) (asciiLower name) value =
      (addWritten found name value).map lowerName := by
  rw [addAttribute, any_lowerName, addWritten]
  split
  · rfl
  · rw [List.map_append]
    rfl

theorem readAttributes_lowerName
    (h : readAttributes (found.map lowerName) s = some (as, slash, rest)) :
    as = (writtenFrom found s).map lowerName := by
  induction found, s using writtenFrom.induct with
  | case1 => exact absurd h (by simp [readAttributes])
  | case2 found c s hc ih =>
    rw [readAttributes, if_pos hc] at h
    rw [writtenFrom, if_pos hc]
    exact ih h
  | case3 found s hb =>
    rw [readAttributes, if_neg hb, if_pos rfl] at h
    rw [writtenFrom, if_neg hb, if_pos rfl]
    exact (Prod.mk.inj (Option.some.inj h)).1.symm
  | case4 found s hs hb hgt =>
    rw [readAttributes, if_neg hb, if_neg hgt, if_pos rfl, if_pos hs] at h
    rw [writtenFrom, if_neg hb, if_neg hgt, if_pos rfl, if_pos hs]
    exact (Prod.mk.inj (Option.some.inj h)).1.symm
  | case5 found s hs hb hgt ih =>
    rw [readAttributes, if_neg hb, if_neg hgt, if_pos rfl, if_neg hs] at h
    rw [writtenFrom, if_neg hb, if_neg hgt, if_pos rfl, if_neg hs]
    exact ih h
  | case6 found c s hb hgt hslash value ih =>
    rw [readAttributes, if_neg hb, if_neg hgt, if_neg hslash] at h
    rw [writtenFrom, if_neg hb, if_neg hgt, if_neg hslash]
    refine ih ?_
    rw [← addAttribute_lowerName]
    exact h

/-- Written names differ in lower case. -/
theorem nodup_writtenFrom (h : (found.map (asciiLower ·.1)).Nodup) :
    ((writtenFrom found s).map (asciiLower ·.1)).Nodup := by
  induction found, s using writtenFrom.induct with
  | case1 => rwa [writtenFrom]
  | case2 found c s hc ih =>
    rw [writtenFrom, if_pos hc]
    exact ih h
  | case3 found s hb => rwa [writtenFrom, if_neg hb, if_pos rfl]
  | case4 found s hs hb hgt => rwa [writtenFrom, if_neg hb, if_neg hgt, if_pos rfl, if_pos hs]
  | case5 found s hs hb hgt ih =>
    rw [writtenFrom, if_neg hb, if_neg hgt, if_pos rfl, if_neg hs]
    exact ih h
  | case6 found c s hb hgt hslash value ih =>
    rw [writtenFrom, if_neg hb, if_neg hgt, if_neg hslash]
    refine ih ?_
    rw [addWritten]
    split
    · exact h
    · rename_i hnew
      rw [List.map_append, List.nodup_append]
      refine ⟨h, List.nodup_singleton _, ?_⟩
      intro a ha b hb he
      obtain ⟨p, hp, rfl⟩ := List.mem_map.1 ha
      obtain rfl := List.mem_singleton.1 hb
      exact hnew (List.any_eq_true.2 ⟨p, hp, beq_iff_eq.2 he⟩)

end Written

/-! ## Places -/

/-- Start tags hold their place instead of their attributes. -/
def Token.setPlace (place : Text) : Token → Token
  | .startTag tag selfClosing => .startTag ⟨tag.name, [(place, [])]⟩ selfClosing
  | t => t

/-- The tokens of an input, with the places of its start tags. -/
def placed : Text → List Token
  | [] => []
  | c :: s => (step c s).1.map (Token.setPlace s) ++ placed (step c s).2
termination_by s => s.length
decreasing_by
  have := length_step_le c s
  simp only [List.length_cons]
  omega

/-- The tag at the place that it holds, if there is any. -/
def Tag.read (t : Tag) : Tag :=
  match t.attributes with
  | [] => t
  | (place, _) :: _ => ⟨t.name, (writtenAttributes place).map lowerName⟩

theorem relabels_read : Relabels Tag.read where
  name t := by
    rw [Tag.read]
    split <;> rfl
  implied _ := rfl

/-- A start tag begins here, behind its angle, and ends somewhere. -/
def StartsTag (place : Text) : Prop :=
  place.head?.any isLetter = true ∧ (readAttributes [] (place.dropWhile isTagChar)).isSome = true

/-- Start tags are read at their places only. -/
theorem startTag_mem_step {c : Char} {s : Text} {tag : Tag} {slash : Bool}
    (h : .startTag tag slash ∈ (step c s).1) : c = '<' ∧ StartsTag s ∧
      tag = ⟨asciiLower (writtenName s), (writtenAttributes s).map lowerName⟩ := by
  have hcharacters (d : Char) (r : Text) : .startTag tag slash ∉ (characters d r).1 := by
    simp [characters]
  have hbogus (r : Text) : .startTag tag slash ∉ (bogusComment r).1 := by simp [bogusComment]
  have hend (r : Text) : .startTag tag slash ∉ (endTag r).1 := by
    unfold endTag
    split
    · simp
    · simp
    · split
      · split <;> simp
      · exact hbogus _
  have hdeclaration (r : Text) : .startTag tag slash ∉ (declaration r).1 := by
    rw [declaration]
    split
    · simp
    · split
      · simp
      · exact hbogus r
  rw [step] at h
  split at h
  · rename_i hc
    refine ⟨hc, ?_⟩
    unfold markup at h
    split at h
    · exact absurd h (hend _)
    · exact absurd h (hdeclaration _)
    · exact absurd h (hbogus _)
    · rename_i d r _ _ _
      split at h
      · rename_i hletter
        cases hread : readAttributes [] ((d :: r).dropWhile isTagChar) with
        | none =>
          rw [startTag, hread] at h
          simp at h
        | some found =>
          obtain ⟨as, selfClosing, rest⟩ := found
          have htag : tag = ⟨asciiLower (writtenName (d :: r)), as⟩ := by
            rw [startTag, hread] at h
            dsimp only at h
            split at h <;> simp at h <;> exact h.1
          have hattributes : as = (writtenAttributes (d :: r)).map lowerName :=
            readAttributes_lowerName hread
          exact ⟨⟨hletter, by rw [hread]; rfl⟩, htag.trans (congrArg _ hattributes)⟩
      · exact absurd h (hcharacters _ _)
    · exact absurd h (hcharacters _ _)
  · exact absurd h (hcharacters _ _)

theorem lex_eq_placed (s : Text) : lex s = (placed s).map (Token.relabel Tag.read) := by
  induction s using lex.induct with
  | case1 => simp [placed]
  | case2 c s ih =>
    have hstep : (step c s).1.map (Token.relabel Tag.read ∘ Token.setPlace s) = (step c s).1 := by
      refine (List.map_congr_left fun t ht => ?_).trans (List.map_id _)
      cases t with
      | startTag tag slash =>
        obtain ⟨-, -, rfl⟩ := startTag_mem_step ht
        rfl
      | _ => rfl
    rw [lex_cons, placed, List.map_append, List.map_map, hstep, ← ih]

theorem place_of_mem_placed {s : Text} {tag : Tag} {slash : Bool}
    (h : .startTag tag slash ∈ placed s) : ∃ place, '<' :: place <:+ s ∧ StartsTag place ∧
      tag = ⟨asciiLower (writtenName place), [(place, [])]⟩ := by
  induction s using lex.induct with
  | case1 => exact absurd h (by simp [placed])
  | case2 c s ih =>
    rw [placed, List.mem_append, List.mem_map] at h
    rcases h with ⟨t, ht, hplace⟩ | h
    · cases t with
      | startTag read slash' =>
        obtain ⟨rfl, hstarts, rfl⟩ := startTag_mem_step ht
        exact ⟨s, List.suffix_refl _, hstarts, (Token.startTag.inj hplace).1.symm⟩
      | _ => exact absurd hplace (by simp [Token.setPlace])
    · obtain ⟨place, hs, hplace⟩ := ih h
      exact ⟨place, hs.trans ((suffix_step c s).trans (List.suffix_cons c s)), hplace⟩

end InlineBinding.Html
