import InlineBinding.Proofs.Html.Recoded
import InlineBinding.Proofs.Markup.Restore

/-!
# What is found in plain markup

Before plain markup is read, its ampersands are masked, and that is all: names are in lower case,
there is nothing to hide, and it is a fragment.
-/
namespace InlineBinding.Markup
open Text Html

/-! ## Spellings -/

theorem Spellings.record_eq_self (s : Spellings) {name : Text} (h : lower name = name) :
    s.record name = s := by
  simp [record, h]

/-- All names in what looks like a tag are in lower case. -/
def Quiet (tag : Text × Text) : Prop :=
  lower tag.1 = tag.1 ∧ ∀ n ∈ hits attributeAt? tag.2, lower n = n

theorem Quiet.recordTag_eq {tag : Text × Text} (h : Quiet tag) (c : Casing) :
    c.recordTag tag = c := by
  have hnames : (hits attributeAt? tag.2).foldl Spellings.record c.attributes = c.attributes :=
    List.foldlRecOn _ _ (motive := (· = c.attributes)) rfl fun as has n hn => by
      rw [Spellings.record_eq_self as (h.2 n hn), has]
  rw [Casing.recordTag, Spellings.record_eq_self _ h.1, hnames]

theorem Casing.collect_eq_empty {markup : Text} (h : ∀ tag ∈ hits tagAt? markup, Quiet tag) :
    collect markup = empty :=
  List.foldlRecOn _ _ (motive := (· = empty)) rfl fun c hc tag htag => by
    rw [(h tag htag).recordTag_eq, hc]

theorem tagAt?_of_ne {c : Char} (h : c ≠ '<') (s : Text) : tagAt? (c :: s) = none := by
  unfold tagAt?
  split
  · rename_i he
    exact absurd (List.cons.inj he).1 h
  · rfl

/-- A start tag, or an end tag with its slash. -/
theorem tagAt?_tag {slash n inside : Text} (hs : slash = [] ∨ slash = ['/']) (hn : n ∈ knownNames)
    (hstop : ∀ c ∈ inside.head?, isTagNameChar c = false) (hi : '>' ∉ inside) (rest : Text) :
    tagAt? ('<' :: (slash ++ (n ++ (inside ++ '>' :: rest)))) =
      some ((n, inside), slash.length + n.length + inside.length + 2) := by
  have hnames : ∀ n ∈ knownNames, n.head? ≠ some '/' ∧ n.head?.any isAsciiLetter = true ∧
      n.all isTagNameChar = true := by decide
  obtain ⟨hslash, hletter, hall⟩ := hnames n hn
  have hchars := List.all_eq_true.1 hall
  have hhead (s : Text) : (n ++ s).head? = n.head? := by
    rw [List.head?_append_of_ne_nil]
    rintro rfl
    exact absurd hletter (by decide)
  have hstop : ∃ x y, inside ++ '>' :: rest = x :: y ∧ isTagNameChar x = false := by
    cases inside with
    | nil => exact ⟨'>', rest, rfl, by decide⟩
    | cons x y => exact ⟨x, _, rfl, hstop x rfl⟩
  obtain ⟨x, y, hxy, hx⟩ := hstop
  obtain ⟨htake, hdrop⟩ := takeWhile_append_stop (r := y) hchars hx
  obtain ⟨hinside, -⟩ :=
    takeWhile_append_stop (p := (· != '>')) (s := inside) (c := '>') (r := rest)
    (fun d hd => bne_iff_ne.2 fun he => hi (he ▸ hd)) (by decide)
  have hnamed : (if (slash ++ (n ++ (inside ++ '>' :: rest))).head? = some '/'
      then (slash ++ (n ++ (inside ++ '>' :: rest))).drop 1
      else slash ++ (n ++ (inside ++ '>' :: rest))) = n ++ (inside ++ '>' :: rest) := by
    rcases hs with rfl | rfl
    · rw [List.nil_append, hhead, if_neg hslash]
    · rfl
  have hlength : (slash ++ (n ++ (inside ++ '>' :: rest))).length -
      (n ++ (inside ++ '>' :: rest)).length = slash.length := by
    rw [List.length_append, Nat.add_sub_cancel]
  have hend : ((n ++ (inside ++ '>' :: rest)).drop (n.length + inside.length)).isEmpty = false := by
    rw [List.drop_append, List.drop_append]
    simp
  simp only [tagAt?, hnamed, hhead, hletter, if_true, hlength]
  rw [hxy, htake, hdrop, ← hxy, hinside, hend]
  simp only [Bool.false_eq_true, if_false, Option.some.injEq, Prod.mk.injEq, true_and]
  omega

theorem hits_tag {slash n inside : Text} (hs : slash = [] ∨ slash = ['/']) (hn : n ∈ knownNames)
    (hstop : ∀ c ∈ inside.head?, isTagNameChar c = false) (hi : '>' ∉ inside) (rest : Text) :
    hits tagAt? ('<' :: (slash ++ (n ++ (inside ++ '>' :: rest)))) =
      (n, inside) :: hits tagAt? rest := by
  have hwrite : '<' :: (slash ++ (n ++ (inside ++ '>' :: rest))) =
      '<' :: (slash ++ (n ++ (inside ++ ['>']))) ++ rest := by simp
  have hfound := tagAt?_tag hs hn hstop hi rest
  rw [hwrite] at hfound ⊢
  refine hits_match_append (List.cons_ne_nil _ _) (hfound.trans ?_)
  simp
  omega

theorem attributeAt?_of_stop {c : Char} (h : isAttributeNameChar c = false) (s : Text) :
    attributeAt? (c :: s) = none := by
  rw [attributeAt?, List.takeWhile_cons_of_neg (by simp [h])]

theorem assignmentLength_quoted {v : Text} (h : '"' ∉ v) (s : Text) :
    assignmentLength ('=' :: '"' :: (v ++ '"' :: s)) = v.length + 3 := by
  have hequals : trimStart ('=' :: '"' :: (v ++ '"' :: s)) = '=' :: '"' :: (v ++ '"' :: s) :=
    List.dropWhile_cons_of_neg (by decide)
  have hquote : trimStart ('"' :: (v ++ '"' :: s)) = '"' :: (v ++ '"' :: s) :=
    List.dropWhile_cons_of_neg (by decide)
  have hvalue : valueLength ('"' :: (v ++ '"' :: s)) = v.length + 2 := by
    obtain ⟨htake, -⟩ := takeWhile_append_stop (p := (· != '"')) (s := v) (c := '"') (r := s)
      (fun d hd => bne_iff_ne.2 fun he => h (he ▸ hd)) (by decide)
    simp only [valueLength, htake]
    simp
  rw [assignmentLength, hequals]
  simp only [hquote, hvalue]
  simp
  omega

theorem hits_writeAttribute {a : Text × Text} (hn : a.1 ≠ [] ∧ ∀ c ∈ a.1, isNameChar c = true)
    (hq : '"' ∉ a.2) (s : Text) :
    hits attributeAt? (writeAttribute a ++ s) = a.1 :: hits attributeAt? s := by
  obtain ⟨hne, hname⟩ := hn
  obtain ⟨c, r, hcr⟩ := List.exists_cons_of_ne_nil hne
  have hchars : ∀ d ∈ a.1, isAttributeNameChar d = true := fun d hd =>
    of_ascii (p := fun c => isNameChar c = true → isAttributeNameChar c = true) (by decide +kernel)
      (isLow_of_isNameChar (hname d hd)).1 (hname d hd)
  obtain ⟨htake, -⟩ := takeWhile_append_stop (c := '=') (r := '"' :: (a.2 ++ '"' :: s)) hchars
    (by decide)
  have hdrop : (a.1 ++ '=' :: '"' :: (a.2 ++ '"' :: s)).drop a.1.length =
      '=' :: '"' :: (a.2 ++ '"' :: s) := List.drop_left
  have hfound : attributeAt? (a.1 ++ '=' :: '"' :: (a.2 ++ '"' :: s)) =
      some (a.1, a.1.length + (a.2.length + 3)) := by
    rw [attributeAt?, htake]
    split
    · rename_i he
      exact absurd he hne
    · rw [hdrop, assignmentLength_quoted hq]
  have hwrite : writeAttribute a ++ s = ' ' :: (a.1 ++ '=' :: '"' :: (a.2 ++ ['"']) ++ s) := by
    simp [writeAttribute]
  rw [hwrite, hits_cons_of_none (attributeAt?_of_stop (by decide) _),
    hits_match_append (a := a.1) (by simp) (by simpa using hfound)]

/-- What stands between the name and the end of a start tag. -/
def inner (slash : Bool) (t : Html.Tag) : Text :=
  t.attributes.flatMap writeAttribute ++ if slash then " /".toList else []

theorem hits_inner {t : Html.Tag} (h : t.Plain) (slash : Bool) :
    hits attributeAt? (inner slash t) = t.attributes.map Prod.fst := by
  have hend : hits attributeAt? (if slash then " /".toList else []) = [] := by
    cases slash
    · rfl
    · have hstop : ∀ c ∈ " /".toList, isAttributeNameChar c = false :=
        forall_mem_of_all (by decide)
      have hpass := hits_append (t := []) fun c hc r => attributeAt?_of_stop (hstop c hc) r
      exact hpass
  have hall (as : List (Text × Text))
      (hn : ∀ a ∈ as, a.1 ≠ [] ∧ ∀ c ∈ a.1, isNameChar c = true) (hq : ∀ a ∈ as, '"' ∉ a.2)
      (s : Text) : hits attributeAt? (as.flatMap writeAttribute ++ s) =
        as.map Prod.fst ++ hits attributeAt? s := by
    induction as with
    | nil => rfl
    | cons a as ih =>
      rw [List.forall_mem_cons] at hn hq
      rw [List.flatMap_cons, List.append_assoc, hits_writeAttribute hn.1 hq.1, ih hn.2 hq.2,
        List.map_cons, List.cons_append]
  rw [inner, hall _ h.named fun a ha hq => (h.valued a ha _ hq).1 rfl, hend, List.append_nil]

theorem lower_plainName {n : Text} (h : n ∈ plainNames) : lower n = n := by
  have hnames : ∀ n ∈ plainNames, (n.all fun c => decide (IsLow c)) = true := by decide
  exact lower_eq_self (forall_mem_of_all (hnames n h))

theorem quiet_inner {t : Html.Tag} (h : t.Plain) (hn : t.name ∈ plainNames) (slash : Bool) :
    Quiet (t.name, inner slash t) := by
  refine ⟨lower_plainName hn, ?_⟩
  rw [hits_inner h, List.forall_mem_map]
  exact fun a ha => lower_eq_self fun c hc => isLow_of_isNameChar ((h.named a ha).2 c hc)

theorem hits_writeOpening {t : Html.Tag} (h : t.Plain) (hn : t.name ∈ knownNames) (slash : Bool)
    (s : Text) : hits tagAt? (writeOpening t ++ (ending slash ++ s)) =
      (t.name, inner slash t) :: hits tagAt? s := by
  have hstop : ∀ c ∈ (inner slash t).head?, isTagNameChar c = false := by
    have hblank : isTagNameChar ' ' = false := by decide
    rw [inner]
    intro c hc
    cases has : t.attributes with
    | nil =>
      rw [has] at hc
      cases slash with
      | false => exact absurd hc (by simp)
      | true => exact Option.some.inj hc ▸ hblank
    | cons a as =>
      rw [has] at hc
      exact Option.some.inj hc ▸ hblank
  have hclose : '>' ∉ inner slash t := by
    have hend : '>' ∉ if slash then " /".toList else [] := by cases slash <;> decide
    rw [inner, List.mem_append, List.mem_flatMap]
    rintro (⟨a, ha, hin⟩ | hin)
    · have hnamed : '>' ∉ a.1 := fun hin => absurd ((h.named a ha).2 _ hin) (by decide)
      have hvalued : '>' ∉ a.2 := fun hin => (h.valued a ha _ hin).2.2 rfl
      simp [writeAttribute, hnamed, hvalued] at hin
    · exact hend hin
  have hwrite : writeOpening t ++ (ending slash ++ s) =
      '<' :: ([] ++ (t.name ++ (inner slash t ++ '>' :: s))) := by
    cases slash <;> simp [writeOpening, inner, ending]
  rw [hwrite, hits_tag (Or.inl rfl) hn hstop hclose]

theorem hits_closing {n : Text} (h : n ∈ knownNames) (s : Text) :
    hits tagAt? ("</".toList ++ (n ++ '>' :: s)) = (n, []) :: hits tagAt? s :=
  hits_tag (Or.inr rfl) h (by simp) List.not_mem_nil s

theorem quiet_write {t : Html.Tree} (h : Plain t) (slash : Bool) {rest : Text}
    (hrest : ∀ tag ∈ hits tagAt? rest, Quiet tag) :
    ∀ tag ∈ hits tagAt? (write slash t ++ rest), Quiet tag := by
  have hknown {n : Text} (hn : n ∈ plainNames) : n ∈ knownNames :=
    List.mem_cons_of_mem _ (List.mem_cons_of_mem _ hn)
  refine write_induction (C := fun s => ∀ tag ∈ hits tagAt? s, Quiet tag) ?_ ?_ ?_ h slash hrest
  · intro t ht hn slash s hs
    rw [hits_writeOpening ht (hknown hn), List.forall_mem_cons]
    exact ⟨quiet_inner ht hn slash, hs⟩
  · intro n hn s hs
    rw [hits_closing (hknown hn), List.forall_mem_cons]
    exact ⟨⟨lower_plainName hn, by simp [hits]⟩, hs⟩
  · intro d hd s hs
    rwa [hits_append fun c hc => tagAt?_of_ne (hd c hc).1]

/-! ## Sections -/

/-- No section stands in the markup. -/
def Sectionless (s : Text) : Prop := ∀ x, ¬ sectionDelimiters.wrap x <:+: s

section Sectionless

variable {s : Text} (h : Sectionless s)
include h

theorem keyedSections_of_sectionless : keyedSections s = s.map .char := by
  have hnone (x : Text) (_ : x ≠ []) (hx : x <:+ s) : sectionAt? x = none := by
    rw [Recovery.sectionAt?_eq_none_iff]
    rintro ⟨y, r, rfl⟩
    exact h y ((List.prefix_append _ r).isInfix.trans hx.isInfix)
  rw [keyedSections, cut_eq_map hnone, Numbered.assign_map_char]

theorem hideSections_of_sectionless : hideSections s = s := by
  rw [hideSections, keyedSections_of_sectionless h, join_map_char]

theorem sectionTable_of_sectionless : sectionTable s = [] := by
  rw [sectionTable, keyedSections_of_sectionless h]
  have hnone (s : Text) : clippings (s.map .char) = [] := by
    induction s with
    | nil => rfl
    | cons c s ih => exact ih
  rw [hnone, List.map_nil]

/-- An exchange of characters that leaves the delimiters alone makes no section. -/
theorem Sectionless.map {f : Char → Char}
    (hf : Steady f (sectionDelimiters.opening ++ sectionDelimiters.closing)) :
    Sectionless (s.map f) := by
  have hopening : Steady f sectionDelimiters.opening :=
    fun c hc => hf c (List.mem_append_left _ hc)
  have hclosing : Steady f sectionDelimiters.closing :=
    fun c hc => hf c (List.mem_append_right _ hc)
  intro x hx
  obtain ⟨w, hw, he⟩ := exists_infix_of_map hx
  obtain ⟨front, c, rfl, hfront, hc⟩ := List.map_eq_append_iff.1 he
  obtain ⟨o, y, rfl, ho, -⟩ := List.map_eq_append_iff.1 hfront
  rw [hopening.eq_of_map_eq ho, hclosing.eq_of_map_eq hc] at hw
  exact h y hw

end Sectionless

section Angled

variable {s : Text} (h : Angled s)
include h

theorem sectionless_of_angled : Sectionless s := by
  rintro x ⟨p, q, hs⟩
  have hsplit : p ++ '<' :: ('!' :: ("[CDATA[".toList ++ x ++ "]]>".toList) ++ q) = s := by
    rw [← hs, Recovery.wrap_sectionDelimiters]
    simp
  obtain ⟨c, hc, hhead⟩ := h _ ⟨p, hsplit⟩
  obtain rfl : '!' = c := Option.some.inj hhead
  exact absurd hc (by decide)

/-- Behind the first angle of a document there is a letter or a sign that opens no plain element. -/
theorem startsDocument_of_angled : Recovery.startsDocument s = false := by
  have htrim : trim s <:+: s := by
    have hend := List.reverse_prefix.2 (List.dropWhile_suffix isSpace (l := (trimStart s).reverse))
    rw [List.reverse_reverse] at hend
    exact hend.isInfix.trans (List.dropWhile_suffix isSpace).isInfix
  have hfirst (c : Char) (r : Text) (hc : c ∉ openers) :
      ('<' :: c :: r).isPrefixOf (lower (trim s)) = false := by
    rw [← Bool.not_eq_true, isPrefixOf_eq_true]
    rintro ⟨z, hz⟩
    obtain ⟨x, hx⟩ := eq_cons_of_angle_lower hz.symm
    have hrest : c :: (r ++ z) = lowerFrom ['<'] x := by
      rw [hx, lower, lowerFrom, lowerAt_of_isLow (by decide)] at hz
      exact (List.cons.inj hz).2
    cases x with
    | nil => exact absurd hrest (List.cons_ne_nil _ _)
    | cons d x =>
      rw [hx] at htrim
      obtain ⟨a, b, hs⟩ := htrim
      obtain ⟨e, he, hhead⟩ := h (d :: x ++ b) ⟨a, by rw [← hs, List.append_assoc]; rfl⟩
      obtain rfl : d = e := Option.some.inj hhead
      have hlow : ∀ d ∈ openers, IsLow d := forall_mem_of_all (by decide)
      rw [lowerFrom, lowerAt_of_isLow (hlow d he)] at hrest
      obtain rfl : c = d := (List.cons.inj hrest).1
      exact hc he
  rw [Recovery.startsDocument, Recovery.startsDoctype, Bool.or_eq_false_iff]
  exact ⟨hfirst '!' _ (by decide), hfirst 'h' _ (by decide)⟩

end Angled

/-! ## Ampersands -/

/-- Ampersands become the mask if there is one. -/
def masked (mask : Option Char) (c : Char) : Char := if c = '&' then mask.getD c else c

theorem map_masked_eq_self (mask : Option Char) {s : Text} (h : '&' ∉ s) :
    s.map (masked mask) = s := by
  rw [List.map_congr_left (g := id), List.map_id]
  intro c hc
  apply if_neg
  rintro rfl
  exact h hc

theorem maskWith_eq_map (mask : Option Char) (s : Text) :
    Recovery.maskWith mask s = s.map (masked mask) := by
  cases mask with
  | none =>
    have hid : masked none = id := funext fun c => ite_self c
    rw [hid, List.map_id]
    rfl
  | some m =>
    change replace ['&'] [m] s = _
    rw [replace_singleton, ← List.flatMap_singleton' (s.map _), List.flatMap_map]
    congr 1
    funext c
    by_cases hc : c = '&' <;> simp [masked, hc]

/-- Masking leaves alone what holds neither ampersands nor private characters. -/
theorem steady_masked_of (markup : Text) {p : Text} (h : ∀ c ∈ p, c ≠ '&' ∧ c.toNat < 0xe000) :
    Steady (masked (pickMask markup)) p := by
  intro c hc d
  obtain ⟨hamp, hlt⟩ := h c hc
  rw [masked]
  split
  · rename_i hd
    subst hd
    refine iff_of_false ?_ hamp.symm
    cases hm : pickMask markup with
    | none => exact hamp.symm
    | some m =>
      rintro rfl
      have hrange : 0xe000 ≤ m.toNat ∧ m.toNat < 0xf900 := Recovery.mask_range hm
      exact absurd hlt (Nat.not_lt.2 hrange.1)
  · rfl

theorem steady_masked (markup : Text) : Steady (masked (pickMask markup)) writtenChars :=
  steady_masked_of markup (forall_mem_of_all (by decide))

theorem isSpace_masked (markup : Text) (c : Char) :
    isSpace (masked (pickMask markup) c) = isSpace c := by
  rw [masked]
  split
  · rename_i hc
    subst hc
    cases hm : pickMask markup with
    | none => rfl
    | some m => exact Recovery.isSpace_of_private (Recovery.mask_range hm)
  · rfl

/-- Where there is a mask, no ampersand is left. -/
theorem masked_ne {markup : Text} (h : lacksMask markup = false) {c : Char} (hc : c ∈ markup) :
    masked (pickMask markup) c ≠ '&' := by
  rw [masked]
  split
  · rename_i he
    subst he
    rw [lacksMask, List.contains_iff_mem.2 hc, Bool.true_and] at h
    cases hm : pickMask markup with
    | none => rw [hm] at h; exact absurd h (by simp)
    | some m =>
      have hrange : 0xe000 ≤ m.toNat ∧ m.toNat < 0xf900 := Recovery.mask_range hm
      rintro rfl
      exact absurd hrange.1 (by decide)
  · assumption

section Write

variable {t : Html.Tree} (h : Plain t) (slash : Bool)
include h

theorem maskWith_write : Recovery.maskWith (pickMask (write slash t)) (write slash t) =
    write slash (mapData (masked (pickMask (write slash t))) t) := by
  rw [maskWith_eq_map, write_mapData (steady_masked _) h]

theorem angled_masked :
    Angled (write slash (mapData (masked (pickMask (write slash t))) t)) := by
  have hplain := h.mapData (steady_masked (write slash t))
  have hnil : Angled [] := fun r hr => absurd (List.suffix_nil.1 hr) (List.cons_ne_nil _ _)
  have hangled := angled_write hplain slash hnil
  rwa [List.append_nil] at hangled

theorem Recovery.of_write :
    Recovery.of (write slash t) = ⟨pickMask (write slash t), Casing.empty, []⟩ := by
  have hplain := h.mapData (steady_masked (write slash t))
  have hnil : ∀ tag ∈ hits tagAt? [], Quiet tag := fun _ htag => absurd htag List.not_mem_nil
  have hquiet := quiet_write hplain slash hnil
  rw [List.append_nil] at hquiet
  simp only [Recovery.of, maskWith_write h, Casing.collect_eq_empty hquiet,
    sectionTable_of_sectionless (sectionless_of_angled (angled_masked h slash))]

theorem Recovery.prepare_write : Recovery.prepare (write slash t) =
    write slash (mapData (masked (pickMask (write slash t))) t) := by
  rw [Recovery.prepare, maskWith_write h, hideSections_of_sectionless (sectionless_of_angled (angled_masked h slash))]

theorem parse_write_eq (collapsing : Bool) : parse collapsing (write slash t) =
    (Recovery.of (write slash t)).fragment collapsing
      (write slash (mapData (masked (pickMask (write slash t))) t)) := by
  rw [parse, Recovery.prepare_write h]
  exact if_neg (by rw [startsDocument_of_angled (angled_masked h slash)]; simp)

end Write

end InlineBinding.Markup
