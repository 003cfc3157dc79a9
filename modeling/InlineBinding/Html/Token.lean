import InlineBinding.Html.Content

/-!
# Tokens of markup

Markup is read into tokens from left to right; every step leaves a shorter rest. Tag and attribute
names get ASCII letters in lower case. The text of raw text elements is taken up to the end tag
that matches, so no step depends on the elements that are open.
-/
namespace InlineBinding.Html

structure Tag where
  name : Text
  attributes : List (Text × Text)
  deriving DecidableEq

inductive Token where
  | text (data : Text)
  | raw (data : Text)
  | comment (data : Text)
  | startTag (tag : Tag) (selfClosing : Bool)
  | endTag (name : Text)
  /-- A start tag that the end of the input cuts off. -/
  | cutTag (name : Text)
  deriving DecidableEq

theorem length_dropWhile_le {α : Type} (p : α → Bool) (s : List α) :
    (s.dropWhile p).length ≤ s.length :=
  (List.dropWhile_suffix p).length_le

def skipBlank (s : Text) : Text := s.dropWhile isBlank

/-- The next characters, in either case, are those of a word in lower case. -/
def startsWith (word s : Text) : Bool :=
  Text.asciiLower (s.take word.length) == word

/-! ## Character references -/

/-- The named references that are read. Any other one stays as it is written. -/
def namedReferences : List (Text × Char) :=
  [ ("amp;".toList, '&'), ("lt;".toList, '<'), ("gt;".toList, '>'), ("quot;".toList, '"'),
    ("copy;".toList, Char.ofNat 0xa9) ]

def hexValue (c : Char) : Nat :=
  if c.isDigit then c.toNat - 0x30 else (Text.asciiLowerChar c).toNat - 0x57

def isHexDigit (c : Char) : Bool :=
  Text.Ranges.has [(0x30, 0x39), (0x41, 0x46), (0x61, 0x66)] c

/-- A character by number: the digits, in the given base, and the semicolon behind them. A number of
no character gives the null character, and control characters are taken as they are. -/
def numberAt? (isDigit : Char → Bool) (base : Nat) (before : Nat) (s : Text) : Option (Char × Nat) :=
  let ds := s.takeWhile isDigit
  if ds.isEmpty then none else
    let code := ds.foldl (fun n d => n * base + hexValue d) 0
    let width := before + ds.length
    some (Char.ofNat code, if s.drop ds.length |>.head? |>.any (· = ';') then width + 1 else width)

def referenceAt? (s : Text) : Option (Char × Nat) :=
  match s with
  | '&' :: '#' :: 'x' :: r => numberAt? isHexDigit 16 3 r
  | '&' :: '#' :: 'X' :: r => numberAt? isHexDigit 16 3 r
  | '&' :: '#' :: r => numberAt? Char.isDigit 10 2 r
  | '&' :: r => namedReferences.findSome? fun n =>
      if n.1.isPrefixOf r then some (n.2, n.1.length + 1) else none
  | _ => none

def decodeReferences (s : Text) : Text :=
  Text.join (fun c => [c]) (Text.cut referenceAt? s)

/-! ## Attributes -/

def isNameEnd (c : Char) : Bool := isBlank c || c = '/' || c = '>'

def isTagChar (c : Char) : Bool := !isNameEnd c

def isAttributeChar (c : Char) : Bool := !(isNameEnd c || c = '=')

def isUnquotedChar (c : Char) : Bool := !(isBlank c || c = '>')

/-- What follows an attribute's name: its value, if one is given, and the rest. -/
def attributeValue (s : Text) : Option Text × Text :=
  match skipBlank s with
  | '=' :: r =>
    match skipBlank r with
    | [] => (some [], [])
    | c :: t =>
      if c = '"' || c = '\'' then
        (some (decodeReferences (t.takeWhile (· != c))), (t.dropWhile (· != c)).drop 1)
      else
        (some (decodeReferences ((c :: t).takeWhile isUnquotedChar)), (c :: t).dropWhile isUnquotedChar)
  | r => (none, r)

theorem suffix_attributeValue (s : Text) : (attributeValue s).2 <:+ s := by
  have hs : skipBlank s <:+ s := List.dropWhile_suffix _
  rw [attributeValue]
  split
  · rename_i r hr
    rw [hr] at hs
    have hr : skipBlank r <:+ s :=
      (List.dropWhile_suffix _).trans ((List.suffix_cons '=' r).trans hs)
    split
    · exact List.nil_suffix
    · rename_i c t ht
      rw [ht] at hr
      split
      · exact (List.drop_suffix 1 _).trans
          ((List.dropWhile_suffix _).trans ((List.suffix_cons c t).trans hr))
      · exact (List.dropWhile_suffix _).trans hr
  · exact hs

theorem length_attributeValue_le (s : Text) : (attributeValue s).2.length ≤ s.length :=
  (suffix_attributeValue s).length_le

/-- The first of several attributes with one name wins. -/
def addAttribute (attributes : List (Text × Text)) (name : Text) (value : Option Text) :
    List (Text × Text) :=
  if attributes.any (·.1 == name) then attributes
  else attributes ++ [(name, value.getD (if flagNames.contains name then name else []))]

/-- The inside of a tag: its attributes, whether it ends in a slash, and the rest behind it;
nothing when the input ends first. -/
def readAttributes (found : List (Text × Text)) : Text → Option (List (Text × Text) × Bool × Text)
  | [] => none
  | c :: s =>
    if isBlank c then readAttributes found s
    else if c = '>' then some (found, false, s)
    else if c = '/' then
      if s.head? = some '>' then some (found, true, s.drop 1) else readAttributes found s
    else
      let value := attributeValue (s.dropWhile isAttributeChar)
      readAttributes
        (addAttribute found (Text.asciiLower (c :: s.takeWhile isAttributeChar)) value.1) value.2
termination_by s => s.length
decreasing_by
  · simp
  · simp
  · have := length_attributeValue_le (s.dropWhile isAttributeChar)
    have := length_dropWhile_le isAttributeChar s
    simp only [List.length_cons]
    omega

/-- The inside of a tag goes up to a closing angle. -/
theorem suffix_readAttributes {found as : List (Text × Text)} {s rest : Text} {slash : Bool}
    (h : readAttributes found s = some (as, slash, rest)) : '>' :: rest <:+ s := by
  fun_induction readAttributes found s with
  | case1 => exact absurd h (by simp)
  | case2 _ c s _ ih => exact (ih h).trans (List.suffix_cons c s)
  | case3 =>
    obtain ⟨-, he⟩ := Prod.mk.inj (Option.some.inj h)
    obtain rfl := (Prod.mk.inj he).2
    exact List.suffix_rfl
  | case4 _ s hs =>
    obtain ⟨-, he⟩ := Prod.mk.inj (Option.some.inj h)
    obtain ⟨r, rfl⟩ := List.head?_eq_some_iff.1 hs
    rw [← (Prod.mk.inj he).2]
    exact List.suffix_cons '/' _
  | case5 _ s _ _ _ ih => exact (ih h).trans (List.suffix_cons '/' s)
  | case6 _ c s _ _ _ _ ih =>
    exact (ih h).trans ((suffix_attributeValue _).trans
      ((List.dropWhile_suffix _).trans (List.suffix_cons c s)))

/-! ## Raw text -/

/-- The end tag of a raw text element, which has to be followed by a blank, a slash or an angle. -/
def endsAt (name s : Text) : Bool :=
  "</".toList.isPrefixOf s && startsWith name (s.drop 2) &&
    (s.drop (2 + name.length)).head?.any isNameEnd

def rawUntil (name : Text) : Text → Text × Text
  | [] => ([], [])
  | c :: s =>
    if endsAt name (c :: s) then ([], c :: s)
    else
      let r := rawUntil name s
      (c :: r.1, r.2)

/-- A script is plain, or inside a comment, or inside a script element inside a comment; only in
the last state its end tag does not count. -/
inductive ScriptState where
  | plain
  | escaped
  | nested
  deriving DecidableEq

def scriptName : Text := "script".toList

def opensScript (s : Text) : Bool :=
  "<".toList.isPrefixOf s && startsWith scriptName (s.drop 1) &&
    (s.drop (1 + scriptName.length)).head?.any isNameEnd

/-- The state behind the first character of `s`. -/
def ScriptState.next (q : ScriptState) (s : Text) : ScriptState :=
  match q with
  | .plain => if "<!--".toList.isPrefixOf s then .escaped else .plain
  | .escaped =>
    if "-->".toList.isPrefixOf s then .plain else if opensScript s then .nested else .escaped
  | .nested =>
    if "-->".toList.isPrefixOf s then .plain else if endsAt scriptName s then .escaped else .nested

def rawScript (q : ScriptState) : Text → Text × Text
  | [] => ([], [])
  | c :: s =>
    if q ≠ .nested && endsAt scriptName (c :: s) then ([], c :: s)
    else
      let r := rawScript (q.next (c :: s)) s
      (c :: r.1, r.2)

/-- The text of a raw text element and the rest from its end tag on. -/
def rawText (name s : Text) : Text × Text :=
  if name = "plaintext".toList then (s, [])
  else if name = scriptName then rawScript .plain s
  else rawUntil name s

theorem rawUntil_append (name s : Text) : (rawUntil name s).1 ++ (rawUntil name s).2 = s := by
  induction s with
  | nil => rfl
  | cons c s ih =>
    rw [rawUntil]
    split
    · rfl
    · rw [List.cons_append, ih]

theorem rawScript_append (q : ScriptState) (s : Text) :
    (rawScript q s).1 ++ (rawScript q s).2 = s := by
  induction s generalizing q with
  | nil => rfl
  | cons c s ih =>
    rw [rawScript]
    split
    · rfl
    · rw [List.cons_append, ih]

theorem rawText_append (name s : Text) : (rawText name s).1 ++ (rawText name s).2 = s := by
  rw [rawText]
  split
  · exact List.append_nil s
  · split
    · exact rawScript_append .plain s
    · exact rawUntil_append name s

theorem suffix_rawText (name s : Text) : (rawText name s).2 <:+ s := ⟨_, rawText_append name s⟩

/-! ## Comments and declarations -/

/-- The data of a comment and the rest behind it. Dashes at the end of the input do not count. -/
def commentBody : Text → Text × Text
  | [] => ([], [])
  | c :: s =>
    if "-->".toList.isPrefixOf (c :: s) then ([], s.drop 2)
    else if "--!>".toList.isPrefixOf (c :: s) then ([], s.drop 3)
    else if [['-'], "--".toList, "--!".toList].contains (c :: s) then ([], [])
    else
      let r := commentBody s
      (c :: r.1, r.2)

/-- A comment, from behind its opening. -/
def comment (s : Text) : Text × Text :=
  match s with
  | '>' :: r => ([], r)
  | '-' :: '>' :: r => ([], r)
  | _ => commentBody s

/-- Up to the next closing angle. -/
def untilAngle (s : Text) : Text × Text :=
  (s.takeWhile (· != '>'), (s.dropWhile (· != '>')).drop 1)

theorem suffix_commentBody (s : Text) : (commentBody s).2 <:+ s := by
  induction s with
  | nil => exact List.nil_suffix
  | cons c s ih =>
    rw [commentBody]
    split
    · exact (List.drop_suffix 2 s).trans (List.suffix_cons c s)
    · split
      · exact (List.drop_suffix 3 s).trans (List.suffix_cons c s)
      · split
        · exact List.nil_suffix
        · exact ih.trans (List.suffix_cons c s)

theorem suffix_comment (s : Text) : (comment s).2 <:+ s := by
  unfold comment
  split
  · exact List.suffix_cons '>' _
  · exact (List.suffix_cons '>' _).trans (List.suffix_cons '-' _)
  · exact suffix_commentBody s

theorem length_comment_le (s : Text) : (comment s).2.length ≤ s.length :=
  (suffix_comment s).length_le

theorem suffix_untilAngle (s : Text) : (untilAngle s).2 <:+ s :=
  (List.drop_suffix 1 _).trans (List.dropWhile_suffix _)

theorem length_untilAngle_le (s : Text) : (untilAngle s).2.length ≤ s.length :=
  (suffix_untilAngle s).length_le

/-! ## Tokens -/

def isLetter (c : Char) : Bool := Text.isAsciiLetter c

/-- Character data goes on to the next opening angle. -/
def characters (c : Char) (s : Text) : List Token × Text :=
  ([.text (decodeReferences (c :: s.takeWhile (· != '<')))], s.dropWhile (· != '<'))

/-- A start tag, from its name on, with the text of a raw text element. -/
def startTag (s : Text) : List Token × Text :=
  let name := Text.asciiLower (s.takeWhile isTagChar)
  match readAttributes [] (s.dropWhile isTagChar) with
  | none => ([.cutTag name], [])
  | some (attributes, selfClosing, rest) =>
    let token := Token.startTag ⟨name, attributes⟩ selfClosing
    if !selfClosing && (rawNames.contains name || name = "plaintext".toList) then
      let r := rawText name rest
      let data := if referenceNames.contains name then decodeReferences r.1 else r.1
      ([token, .raw data], r.2)
    else ([token], rest)

/-- Markup that is no tag and no comment counts as a comment up to the next angle. -/
def bogusComment (s : Text) : List Token × Text :=
  ([.comment (untilAngle s).1], (untilAngle s).2)

/-- An end tag, from behind its slash. -/
def endTag (s : Text) : List Token × Text :=
  match s with
  | [] => ([.text "</".toList], [])
  | '>' :: r => ([], r)
  | c :: r =>
    if isLetter c then
      match readAttributes [] (s.dropWhile isTagChar) with
      | none => ([], [])
      | some (_, _, rest) => ([.endTag (Text.asciiLower (s.takeWhile isTagChar))], rest)
    else bogusComment (c :: r)

/-- From behind an opening angle and an exclamation mark. -/
def declaration (s : Text) : List Token × Text :=
  if "--".toList.isPrefixOf s then ([.comment (comment (s.drop 2)).1], (comment (s.drop 2)).2)
  else if startsWith "doctype".toList s then ([], (untilAngle s).2)
  else bogusComment s

/-- What an opening angle begins. -/
def markup (s : Text) : List Token × Text :=
  match s with
  | '/' :: r => endTag r
  | '!' :: r => declaration r
  | '?' :: _ => bogusComment s
  | c :: _ => if isLetter c then startTag s else characters '<' s
  | [] => characters '<' s

def step (c : Char) (s : Text) : List Token × Text :=
  if c = '<' then markup s else characters c s

theorem suffix_characters (c : Char) (s : Text) : (characters c s).2 <:+ s :=
  List.dropWhile_suffix _

theorem suffix_startTag (s : Text) : (startTag s).2 <:+ s := by
  have hinside : s.dropWhile isTagChar <:+ s := List.dropWhile_suffix _
  rw [startTag]
  split
  · exact List.nil_suffix
  · next rest hr =>
    have hrest : rest <:+ s :=
      (List.suffix_cons '>' rest).trans ((suffix_readAttributes hr).trans hinside)
    dsimp only
    split
    · exact (suffix_rawText _ rest).trans hrest
    · exact hrest

theorem suffix_endTag (s : Text) : (endTag s).2 <:+ s := by
  unfold endTag
  split
  · exact List.nil_suffix
  · exact List.suffix_cons '>' _
  · next c r _ =>
    split
    · split
      · exact List.nil_suffix
      · next rest hr =>
        exact (List.suffix_cons '>' rest).trans
          ((suffix_readAttributes hr).trans (List.dropWhile_suffix _))
    · exact suffix_untilAngle (c :: r)

theorem suffix_declaration (s : Text) : (declaration s).2 <:+ s := by
  rw [declaration]
  split
  · exact (suffix_comment _).trans (List.drop_suffix 2 s)
  · split <;> exact suffix_untilAngle s

theorem suffix_markup (s : Text) : (markup s).2 <:+ s := by
  unfold markup
  split
  · exact (suffix_endTag _).trans (List.suffix_cons '/' _)
  · exact (suffix_declaration _).trans (List.suffix_cons '!' _)
  · exact suffix_untilAngle _
  · split
    · exact suffix_startTag _
    · exact suffix_characters _ _
  · exact suffix_characters _ _

/-- What a step leaves to be read is an end of the input. -/
theorem suffix_step (c : Char) (s : Text) : (step c s).2 <:+ s := by
  rw [step]
  split
  · exact suffix_markup s
  · exact suffix_characters c s

theorem length_step_le (c : Char) (s : Text) : (step c s).2.length ≤ s.length :=
  (suffix_step c s).length_le

def lex : Text → List Token
  | [] => []
  | c :: s => (step c s).1 ++ lex (step c s).2
termination_by s => s.length
decreasing_by
  have := length_step_le c s
  simp only [List.length_cons]
  omega

@[simp] theorem lex_nil : lex [] = [] := by simp [lex]

theorem lex_cons (c : Char) (s : Text) : lex (c :: s) = (step c s).1 ++ lex (step c s).2 := by
  rw [lex]

end InlineBinding.Html
