import InlineBinding.Html.Document
import InlineBinding.Proofs.Text.Settled
import Mathlib.Data.List.TakeWhile

/-! # Plain markup

A tree of containers and childless elements is written with one start tag an element, quoted
values, and end tags for the containers only.  Read from left to right, the written tree gives its
own tokens, whatever stands behind it.
-/
namespace InlineBinding.Html

def containerNames : List Text := words "div span"

/-- Elements that are closed when they are opened. -/
def emptyNames : List Text := words "br img input"

/-- Shapes of vector graphics. -/
def shapeNames : List Text := words "path circle ellipse line rect polyline polygon"

def plainNames : List Text := containerNames ++ emptyNames ++ shapeNames

/-- Together with the sections around a fragment. -/
def knownNames : List Text := Builder.html :: Builder.body :: plainNames

def writeAttribute (a : Text × Text) : Text := ' ' :: a.1 ++ "=\"".toList ++ a.2 ++ ['"']

/-- A start tag up to its end. -/
def writeOpening (t : Tag) : Text := '<' :: t.name ++ t.attributes.flatMap writeAttribute

def ending (slash : Bool) : Text := if slash then " />".toList else ['>']

/-- With `slash`, elements without an end tag are written as closed. -/
def write (slash : Bool) : Tree → Text
  | .nil => []
  | .element t cs rest =>
    if containerNames.contains t.name then
      writeOpening t ++ ending false ++ write slash cs ++ "</".toList ++ t.name ++
        '>' :: write slash rest
    else writeOpening t ++ ending slash ++ write slash rest
  | .leaf (.text data) rest => data ++ write slash rest
  | .leaf (.comment data) rest => "<!--".toList ++ data ++ "-->".toList ++ write slash rest

def tokens (slash : Bool) : Tree → List Token
  | .nil => []
  | .element t cs rest =>
    if containerNames.contains t.name then
      .startTag t false :: (tokens slash cs ++ .endTag t.name :: tokens slash rest)
    else .startTag t slash :: tokens slash rest
  | .leaf (.text data) rest => .text data :: tokens slash rest
  | .leaf (.comment data) rest => .comment data :: tokens slash rest

/-! ## Plain trees -/

/-- Lower-case letters, digits and hyphens. -/
def isNameChar (c : Char) : Bool := Text.Ranges.has [(0x2d, 0x2d), (0x30, 0x39), (0x61, 0x7a)] c

structure Tag.Plain (t : Tag) : Prop where
  named : ∀ a ∈ t.attributes, a.1 ≠ [] ∧ ∀ c ∈ a.1, isNameChar c = true
  valued : ∀ a ∈ t.attributes, ∀ c ∈ a.2, c ≠ '"' ∧ c ≠ '<' ∧ c ≠ '>'
  distinct : (t.attributes.map Prod.fst).Nodup

def startsText : Tree → Bool
  | .leaf (.text _) _ => true
  | _ => false

/-- Elements without an end tag have no children.  Texts are not empty and do not stand side by
side. -/
def Plain : Tree → Prop
  | .nil => True
  | .element t cs rest =>
    t.Plain ∧ t.name ∈ plainNames ∧ (t.name ∉ containerNames → cs = .nil) ∧ Plain cs ∧ Plain rest
  | .leaf (.text data) rest =>
    data ≠ [] ∧ (∀ c ∈ data, c ≠ '<' ∧ c ≠ '>') ∧ startsText rest = false ∧ Plain rest
  | .leaf (.comment _) _ => False

/-- Whether a tag is plain can be read off its characters. -/
instance (t : Tag) : Decidable t.Plain :=
  decidable_of_iff
    ((∀ a ∈ t.attributes, a.1 ≠ [] ∧ a.1.all isNameChar = true) ∧
      (∀ a ∈ t.attributes, (a.2.all fun c => c != '"' && c != '<' && c != '>') = true) ∧
      (t.attributes.map Prod.fst).Nodup) (by
    simp only [List.all_eq_true, Bool.and_eq_true, bne_iff_ne, and_assoc]
    exact ⟨fun ⟨h, hv, hd⟩ => ⟨h, hv, hd⟩, fun h => ⟨h.named, h.valued, h.distinct⟩⟩)

instance decidablePlain : (t : Tree) → Decidable (Plain t)
  | .nil => isTrue trivial
  | .element t cs rest =>
    have := decidablePlain cs
    have := decidablePlain rest
    inferInstanceAs (Decidable (t.Plain ∧ t.name ∈ plainNames ∧
      (t.name ∉ containerNames → cs = .nil) ∧ Plain cs ∧ Plain rest))
  | .leaf (.text data) rest =>
    have := decidablePlain rest
    decidable_of_iff (data ≠ [] ∧ (data.all fun c => c != '<' && c != '>') = true ∧
      startsText rest = false ∧ Plain rest) (by
        simp only [Plain, List.all_eq_true, Bool.and_eq_true, bne_iff_ne])
  | .leaf (.comment _) _ => isFalse id

/-- All texts and values. -/
def data : Tree → List Text
  | .nil => []
  | .element t cs rest => t.attributes.map Prod.snd ++ (data cs ++ data rest)
  | .leaf (.text d) rest => d :: data rest
  | .leaf (.comment d) rest => d :: data rest

/-- What every opening, every closing and every text keeps in front of a text, a plain tree does. -/
theorem write_induction {C : Text → Prop}
    (opening : ∀ t : Tag, t.Plain → t.name ∈ plainNames →
      ∀ slash s, C s → C (writeOpening t ++ (ending slash ++ s)))
    (closing : ∀ n ∈ plainNames, ∀ s, C s → C ("</".toList ++ (n ++ '>' :: s)))
    (text : ∀ d : Text, (∀ c ∈ d, c ≠ '<' ∧ c ≠ '>') → ∀ s, C s → C (d ++ s))
    {t : Tree} (h : Plain t) (slash : Bool) {rest : Text} (hrest : C rest) :
    C (write slash t ++ rest) := by
  induction t generalizing rest with
  | nil => exact hrest
  | element t cs more ihc ihr =>
    obtain ⟨ht, hname, -, hc, hm⟩ := h
    rw [write]
    split
    · simp only [List.append_assoc, List.cons_append]
      exact opening t ht hname false _ (ihc hc (closing t.name hname _ (ihr hm hrest)))
    · simp only [List.append_assoc]
      exact opening t ht hname slash _ (ihr hm hrest)
  | leaf l more ih =>
    cases l with
    | text d =>
      rw [write, List.append_assoc]
      exact text d h.2.1 _ (ih h.2.2.2 hrest)
    | comment d => exact h.elim

/-! ## Names -/

/-- Names that end where the name of a tag ends, and behind which no raw text stands. -/
structure TagName (n : Text) : Prop where
  first : n.head?.any isLetter = true
  chars : ∀ c ∈ n, isTagChar c = true
  lower : Text.asciiLower n = n
  plain : (rawNames.contains n || n = "plaintext".toList) = false

theorem TagName.exists_cons {n : Text} (h : TagName n) : ∃ c s, n = c :: s ∧ isLetter c = true := by
  obtain ⟨c, hc, hletter⟩ := (Option.any_eq_true _ _).1 h.first
  obtain ⟨s, rfl⟩ := List.head?_eq_some_iff.1 hc
  exact ⟨c, s, rfl, hletter⟩

theorem tagName_of_known {n : Text} (h : n ∈ knownNames) : TagName n := by
  have hall : ∀ n ∈ knownNames, n.head?.any isLetter = true ∧ n.all isTagChar = true ∧
      Text.asciiLower n = n ∧ (rawNames.contains n || n = "plaintext".toList) = false := by decide
  obtain ⟨hfirst, hchars, hlower, hplain⟩ := hall n h
  exact ⟨hfirst, List.all_eq_true.1 hchars, hlower, hplain⟩

theorem isLow_of_isNameChar {c : Char} (h : isNameChar c = true) : Text.IsLow c := by
  have hc : c.toNat < 0x80 := by
    simp only [isNameChar, Text.Ranges.has, List.any_cons, List.any_nil, Bool.or_eq_true,
      Bool.and_eq_true, decide_eq_true_eq, Bool.false_eq_true, or_false] at h
    omega
  exact Text.of_ascii (p := fun c => isNameChar c = true → Text.IsLow c) (by decide +kernel) hc h

theorem isNameChar_cases {c : Char} (h : isNameChar c = true) :
    isAttributeChar c = true ∧ isBlank c = false ∧ c ≠ '>' ∧ c ≠ '/' ∧ c ≠ '=' :=
  Text.of_ascii (p := fun c => isNameChar c = true → isAttributeChar c = true ∧
    isBlank c = false ∧ c ≠ '>' ∧ c ≠ '/' ∧ c ≠ '=') (by decide +kernel) (isLow_of_isNameChar h).1 h

theorem asciiLower_name {n : Text} (h : ∀ c ∈ n, isNameChar c = true) : Text.asciiLower n = n := by
  rw [Text.asciiLower, List.map_congr_left (g := id) fun c hc => (isLow_of_isNameChar (h c hc)).2,
    List.map_id]

/-! ## Reading -/

theorem decodeReferences_eq_self {d : Text} (h : '&' ∉ d) : decodeReferences d = d := by
  have hnone (x : Text) (hx : x ≠ []) (hs : x <:+ d) : referenceAt? x = none := by
    obtain ⟨c, r, rfl⟩ := List.exists_cons_of_ne_nil hx
    have hc : c ≠ '&' := fun he => h (he ▸ hs.subset List.mem_cons_self)
    unfold referenceAt?
    split <;> first | rfl | exact absurd (List.cons.inj ‹_›).1 hc
  rw [decodeReferences, Text.cut_eq_map hnone, Text.join_map_char]

theorem takeWhile_append_stop {p : Char → Bool} {s : Text} {c : Char} {r : Text}
    (hs : ∀ d ∈ s, p d = true) (hc : p c = false) :
    (s ++ c :: r).takeWhile p = s ∧ (s ++ c :: r).dropWhile p = c :: r := by
  constructor
  · rw [List.takeWhile_append_of_pos hs, List.takeWhile_cons_of_neg (by simp [hc]), List.append_nil]
  · rw [List.dropWhile_append_of_pos hs, List.dropWhile_cons_of_neg (by simp [hc])]

/-- A quoted value, from the sign before it on. -/
theorem attributeValue_write {v : Text} (hq : '"' ∉ v) (ha : '&' ∉ v) (s : Text) :
    attributeValue ('=' :: '"' :: (v ++ '"' :: s)) = (some v, s) := by
  have hv : ∀ d ∈ v, (d != '"') = true := fun d hd => bne_iff_ne.2 fun he => hq (he ▸ hd)
  obtain ⟨htake, hdrop⟩ := takeWhile_append_stop (c := '"') (r := s) hv (by decide)
  have hequals : skipBlank ('=' :: '"' :: (v ++ '"' :: s)) = '=' :: '"' :: (v ++ '"' :: s) :=
    List.dropWhile_cons_of_neg (by decide)
  have hquote : skipBlank ('"' :: (v ++ '"' :: s)) = '"' :: (v ++ '"' :: s) :=
    List.dropWhile_cons_of_neg (by decide)
  simp only [attributeValue, hequals, hquote]
  rw [if_pos (by decide), htake, hdrop, decodeReferences_eq_self ha]
  rfl

theorem addAttribute_of_notMem {found : List (Text × Text)} {a : Text × Text}
    (h : a.1 ∉ found.map Prod.fst) : addAttribute found a.1 (some a.2) = found ++ [a] := by
  have hn : found.any (·.1 == a.1) = false := by
    rw [List.any_eq_false]
    intro b hb he
    exact h (List.mem_map.2 ⟨b, hb, eq_of_beq he⟩)
  rw [addAttribute, hn]
  rfl

theorem readAttributes_write {a : Text × Text} {found : List (Text × Text)}
    (hn : a.1 ≠ [] ∧ ∀ c ∈ a.1, isNameChar c = true) (hq : '"' ∉ a.2) (ha : '&' ∉ a.2)
    (hf : a.1 ∉ found.map Prod.fst) (s : Text) :
    readAttributes found (writeAttribute a ++ s) = readAttributes (found ++ [a]) s := by
  obtain ⟨hne, hname⟩ := hn
  obtain ⟨c, r, hcr⟩ := List.exists_cons_of_ne_nil hne
  obtain ⟨-, hblank, hangle, hslash, -⟩ := isNameChar_cases (hname c (by simp [hcr]))
  have hr : ∀ d ∈ r, isAttributeChar d = true :=
    fun d hd => (isNameChar_cases (hname d (by simp [hcr, hd]))).1
  have hwrite : writeAttribute a ++ s = ' ' :: c :: (r ++ '=' :: '"' :: (a.2 ++ '"' :: s)) := by
    simp [writeAttribute, hcr]
  obtain ⟨htake, hdrop⟩ :=
    takeWhile_append_stop (c := '=') (r := '"' :: (a.2 ++ '"' :: s)) hr (by decide)
  rw [hwrite, readAttributes, if_pos (by decide), readAttributes, hblank, if_neg (by simp),
    if_neg hangle, if_neg hslash, htake, hdrop, attributeValue_write hq ha, ← hcr,
    asciiLower_name hname]
  dsimp only
  rw [addAttribute_of_notMem hf]

theorem readAttributes_flatMap {as found : List (Text × Text)}
    (hn : ∀ a ∈ as, a.1 ≠ [] ∧ ∀ c ∈ a.1, isNameChar c = true) (hq : ∀ a ∈ as, '"' ∉ a.2)
    (ha : ∀ a ∈ as, '&' ∉ a.2) (hd : ((found ++ as).map Prod.fst).Nodup) (s : Text) :
    readAttributes found (as.flatMap writeAttribute ++ s) = readAttributes (found ++ as) s := by
  induction as generalizing found with
  | nil => simp
  | cons a as ih =>
    have hf : a.1 ∉ found.map Prod.fst := by
      rw [List.map_append, List.map_cons, List.nodup_append] at hd
      exact fun hm => hd.2.2 a.1 hm a.1 List.mem_cons_self rfl
    rw [List.flatMap_cons, List.append_assoc,
      readAttributes_write (hn a List.mem_cons_self) (hq a List.mem_cons_self)
        (ha a List.mem_cons_self) hf,
      ih (fun b hb => hn b (List.mem_cons_of_mem a hb))
        (fun b hb => hq b (List.mem_cons_of_mem a hb))
        (fun b hb => ha b (List.mem_cons_of_mem a hb)) (by simpa using hd)]
    simp

/-- A letter behind an angle begins a start tag. -/
theorem markup_letter {c : Char} (h : isLetter c = true) (s : Text) :
    markup (c :: s) = startTag (c :: s) := by
  unfold markup
  split
  · rename_i he
    obtain ⟨rfl, -⟩ := List.cons.inj he
    exact absurd h (by decide)
  · rename_i he
    obtain ⟨rfl, -⟩ := List.cons.inj he
    exact absurd h (by decide)
  · rename_i he
    obtain ⟨rfl, -⟩ := List.cons.inj he
    exact absurd h (by decide)
  · rename_i he
    obtain ⟨rfl, -⟩ := List.cons.inj he
    exact if_pos h
  · rename_i he
    exact absurd he (List.cons_ne_nil c s)

section Tags

variable {t : Tag}

theorem readAttributes_ending (found : List (Text × Text)) (slash : Bool) (s : Text) :
    readAttributes found (ending slash ++ s) = some (found, slash, s) := by
  cases slash with
  | false =>
    have he : ending false ++ s = '>' :: s := rfl
    rw [he, readAttributes, if_neg (by decide), if_pos rfl]
  | true =>
    have he : ending true ++ s = ' ' :: '/' :: '>' :: s := rfl
    rw [he, readAttributes, if_pos (by decide), readAttributes, if_neg (by decide),
      if_neg (by decide), if_pos rfl, List.head?_cons, if_pos rfl]
    rfl

theorem lex_writeOpening (hname : TagName t.name) (h : t.Plain)
    (ha : ∀ d ∈ t.attributes.map Prod.snd, '&' ∉ d) (slash : Bool) (rest : Text) :
    lex (writeOpening t ++ (ending slash ++ rest)) = .startTag t slash :: lex rest := by
  obtain ⟨c, r, hcr, hletter⟩ := hname.exists_cons
  have hstop : ∃ x y, t.attributes.flatMap writeAttribute ++ (ending slash ++ rest) = x :: y ∧
      isTagChar x = false := by
    cases t.attributes with
    | nil => cases slash <;> exact ⟨_, _, rfl, by decide⟩
    | cons a as => exact ⟨' ', _, rfl, by decide⟩
  obtain ⟨x, y, hxy, hx⟩ := hstop
  obtain ⟨htake, hdrop⟩ := takeWhile_append_stop (r := y) hname.chars hx
  have hstart : startTag (t.name ++ x :: y) = ([.startTag t slash], rest) := by
    have hfound : readAttributes [] (x :: y) = some (t.attributes, slash, rest) := by
      have hq : ∀ a ∈ t.attributes, '"' ∉ a.2 := fun a hm hq => (h.valued a hm _ hq).1 rfl
      have ha : ∀ a ∈ t.attributes, '&' ∉ a.2 := fun a hm => ha a.2 (List.mem_map_of_mem hm)
      have hd : (([] ++ t.attributes).map Prod.fst).Nodup := h.distinct
      rw [← hxy, readAttributes_flatMap h.named hq ha hd, readAttributes_ending, List.nil_append]
    simp only [startTag, htake, hdrop, hfound, hname.lower, hname.plain, Bool.and_false]
    rfl
  have hmarkup : markup (t.name ++ x :: y) = ([.startTag t slash], rest) := by
    rw [← hstart, hcr, List.cons_append, markup_letter hletter]
  have hwrite : writeOpening t ++ (ending slash ++ rest) = '<' :: (t.name ++ x :: y) := by
    rw [← hxy]
    simp [writeOpening]
  rw [hwrite, lex_cons, step, if_pos rfl, hmarkup]
  rfl

theorem lex_closing {n : Text} (h : TagName n) (rest : Text) :
    lex ("</".toList ++ n ++ '>' :: rest) = .endTag n :: lex rest := by
  obtain ⟨c, r, hcr, hletter⟩ := h.exists_cons
  obtain ⟨htake, hdrop⟩ := takeWhile_append_stop (c := '>') (r := rest) h.chars (by decide)
  have hend : endTag (n ++ '>' :: rest) = ([.endTag n], rest) := by
    have hread : readAttributes [] ('>' :: rest) = some ([], false, rest) := by
      rw [readAttributes, if_neg (by decide), if_pos rfl]
    have hc : c ≠ '>' := by
      rintro rfl
      exact absurd hletter (by decide)
    unfold endTag
    split
    · rename_i he
      simp [hcr] at he
    · rename_i he
      rw [hcr] at he
      exact absurd (List.cons.inj he).1 hc
    · rename_i d s he
      rw [hcr] at he
      obtain ⟨rfl, -⟩ := List.cons.inj he
      rw [if_pos hletter, htake, hdrop, hread, h.lower]
  have hwrite : "</".toList ++ n ++ '>' :: rest = '<' :: '/' :: (n ++ '>' :: rest) := rfl
  rw [hwrite, lex_cons, step, if_pos rfl, markup, hend]
  rfl

end Tags

/-- Character data up to the next angle. -/
theorem lex_characters {d rest : Text} (hne : d ≠ []) (hd : '<' ∉ d)
    (hrest : rest = [] ∨ rest.head? = some '<') :
    lex (d ++ rest) = .text (decodeReferences d) :: lex rest := by
  obtain ⟨c, s, rfl⟩ := List.exists_cons_of_ne_nil hne
  have hc : c ≠ '<' := fun he => hd (he ▸ List.mem_cons_self)
  have hs : ∀ x ∈ s, (x != '<') = true :=
    fun x hx => bne_iff_ne.2 fun he => hd (he ▸ List.mem_cons_of_mem c hx)
  have hsplit : (s ++ rest).takeWhile (· != '<') = s ∧ (s ++ rest).dropWhile (· != '<') = rest := by
    cases rest with
    | nil =>
      rw [List.append_nil, List.takeWhile_eq_self_iff.2 hs, List.dropWhile_eq_nil_iff.2 hs]
      exact ⟨rfl, rfl⟩
    | cons x y =>
      obtain rfl : x = '<' := Option.some.inj (hrest.resolve_left (List.cons_ne_nil x y))
      exact takeWhile_append_stop hs (by decide)
  rw [List.cons_append, lex_cons, step, if_neg hc, characters, hsplit.1, hsplit.2]
  rfl

theorem lex_text {d rest : Text} (hne : d ≠ []) (hd : '<' ∉ d) (ha : '&' ∉ d)
    (hrest : rest = [] ∨ rest.head? = some '<') : lex (d ++ rest) = .text d :: lex rest := by
  rw [lex_characters hne hd hrest, decodeReferences_eq_self ha]

/-! ## Angles -/

/-- Element names begin with one of these letters, and names in end tags stand behind a slash. -/
def openers : Text := "/dsbipcelr".toList

def Angled (s : Text) : Prop := ∀ r, '<' :: r <:+ s → ∃ c ∈ openers, r.head? = some c

theorem angled_append {s t : Text} (hs : '<' ∉ s) (h : Angled t) : Angled (s ++ t) := by
  induction s with
  | nil => exact h
  | cons c s ih =>
    intro r hr
    rw [List.mem_cons, not_or] at hs
    rw [List.cons_append, List.suffix_cons_iff] at hr
    rcases hr with hr | hr
    · exact absurd (List.cons.inj hr).1 hs.1
    · exact ih hs.2 r hr

theorem angled_cons {c : Char} {s : Text} (hc : c ∈ openers) (h : Angled (c :: s)) :
    Angled ('<' :: c :: s) := by
  intro r hr
  rw [List.suffix_cons_iff] at hr
  rcases hr with hr | hr
  · exact ⟨c, hc, by rw [(List.cons.inj hr).2, List.head?_cons]⟩
  · exact h r hr

theorem Tag.Plain.angle_notMem_attributes {t : Tag} (h : t.Plain) :
    '<' ∉ t.attributes.flatMap writeAttribute := by
  rw [List.mem_flatMap]
  rintro ⟨a, ha, hin⟩
  have hnamed : '<' ∉ a.1 := fun hin => absurd ((h.named a ha).2 _ hin) (by decide)
  have hvalued : '<' ∉ a.2 := fun hin => (h.valued a ha _ hin).2.1 rfl
  simp [writeAttribute, hnamed, hvalued] at hin

theorem plainName_opens {n : Text} (h : n ∈ plainNames) :
    '<' ∉ n ∧ ∃ c ∈ openers, ∃ m, n = c :: m := by
  have hnames : ∀ n ∈ plainNames, '<' ∉ n ∧ n.head?.any openers.contains = true := by decide
  obtain ⟨hangle, hfirst⟩ := hnames n h
  obtain ⟨c, hhead, hc⟩ := (Option.any_eq_true _ _).1 hfirst
  exact ⟨hangle, c, List.contains_iff_mem.1 hc, List.head?_eq_some_iff.1 hhead⟩

theorem angled_writeOpening {t : Tag} (h : t.Plain) (hn : t.name ∈ plainNames) (slash : Bool)
    {s : Text} (hs : Angled s) : Angled (writeOpening t ++ (ending slash ++ s)) := by
  obtain ⟨hangle, c, hc, n, hname⟩ := plainName_opens hn
  have hending : '<' ∉ ending slash := by cases slash <;> decide
  have hall : '<' ∉ t.name ++ t.attributes.flatMap writeAttribute ++ ending slash := by
    simp only [List.mem_append, not_or]
    exact ⟨⟨hangle, h.angle_notMem_attributes⟩, hending⟩
  have hs := angled_append hall hs
  rw [hname] at hs
  rw [writeOpening, hname]
  simp only [List.append_assoc, List.cons_append] at hs ⊢
  exact angled_cons hc hs

theorem angled_closing {n : Text} (h : n ∈ plainNames) {s : Text} (hs : Angled s) :
    Angled ("</".toList ++ (n ++ '>' :: s)) := by
  have hs := angled_append (s := '/' :: n ++ ['>']) (by simp [(plainName_opens h).1]) hs
  rw [List.append_assoc] at hs
  exact angled_cons (c := '/') (by decide) hs

theorem angled_write {t : Tree} (h : Plain t) (slash : Bool) {rest : Text} (hrest : Angled rest) :
    Angled (write slash t ++ rest) :=
  write_induction (fun _ ht hn slash _ => angled_writeOpening ht hn slash)
    (fun _ hn _ => angled_closing hn)
    (fun _ hd _ => angled_append fun hin => (hd _ hin).1 rfl) h slash hrest

/-! ## The whole tree -/

theorem head?_write {t : Tree} (h : Plain t) (ht : startsText t = false) {slash : Bool}
    {rest : Text} (hrest : rest = [] ∨ rest.head? = some '<') :
    write slash t ++ rest = [] ∨ (write slash t ++ rest).head? = some '<' := by
  cases t with
  | nil => exact hrest
  | element t cs more =>
    right
    rw [write]
    split <;> rfl
  | leaf l more =>
    cases l with
    | text d => exact absurd ht (by simp [startsText])
    | comment d => exact h.elim

/-- A plain tree is read as it was written. -/
theorem lex_write {t : Tree} (h : Plain t) (ha : ∀ d ∈ data t, '&' ∉ d) (slash : Bool)
    {rest : Text} (hrest : rest = [] ∨ rest.head? = some '<') :
    lex (write slash t ++ rest) = tokens slash t ++ lex rest := by
  induction t generalizing rest with
  | nil => rfl
  | element t cs more ihc ihr =>
    obtain ⟨ht, hname, -, hc, hm⟩ := h
    have hname : TagName t.name :=
      tagName_of_known (List.mem_cons_of_mem _ (List.mem_cons_of_mem _ hname))
    rw [data, List.forall_mem_append, List.forall_mem_append] at ha
    obtain ⟨hat, hac, ham⟩ := ha
    rw [write, tokens]
    split
    · simp only [List.append_assoc, List.cons_append]
      have hclose := lex_closing hname (write slash more ++ rest)
      rw [List.append_assoc] at hclose
      rw [lex_writeOpening hname ht hat, ihc hc hac (Or.inr rfl), hclose, ihr hm ham hrest]
    · rw [List.append_assoc, List.append_assoc, lex_writeOpening hname ht hat, ihr hm ham hrest,
        List.cons_append]
  | leaf l more ih =>
    cases l with
    | text d =>
      obtain ⟨hne, hd, hstart, hm⟩ := h
      rw [data, List.forall_mem_cons] at ha
      rw [write, tokens, List.append_assoc,
        lex_text hne (fun hm => (hd _ hm).1 rfl) ha.1 (head?_write hm hstart hrest),
        ih hm ha.2 hrest, List.cons_append]
    | comment d => exact h.elim

end InlineBinding.Html
