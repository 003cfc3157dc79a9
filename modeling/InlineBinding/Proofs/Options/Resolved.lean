import InlineBinding.Proofs.Options.Layers
import Mathlib.Data.List.TakeWhile

/-!
# Resolved options

Apart from truth values, what a check accepts is the value as it is printed, so that options that
satisfy the constraints are accepted again as they are. What is not accepted comes with details.
-/
namespace InlineBinding
open Settings

theorem Text.trim_eq_nil_iff {t : Text} : trim t = [] ↔ ∀ c ∈ t, isSpace c = true := by
  rw [trim, List.reverse_eq_nil_iff, trimStart, List.dropWhile_eq_nil_iff]
  simp only [List.mem_reverse]
  refine ⟨fun h => ?_, fun h c hc => h c ((List.dropWhile_sublist isSpace).subset hc)⟩
  have hnil : trimStart t = [] := by
    by_contra hne
    have hspace := h _ (List.head_mem hne)
    have hhead : isSpace ((trimStart t).head hne) = false := List.head_dropWhile_not isSpace hne
    rw [hhead] at hspace
    exact Bool.noConfusion hspace
  exact List.dropWhile_eq_nil_iff.1 hnil

/-! ## Problems -/

namespace Settings.Checked

variable {α β γ : Type}

/-- What is not accepted comes with details. -/
def Explained (a : Checked α) : Prop := ∀ details, a = .error details → details ≠ []

theorem explained_ok (a : α) : Explained (.ok a) := fun _ h => absurd h (by simp)

theorem explained_error {details : List Detail} (h : details ≠ []) :
    Explained (.error details : Checked α) :=
  fun _ he => Except.error.inj he ▸ h

theorem explained_reject (place : List Step) (problem : Problem) :
    Explained (reject place problem : Checked α) :=
  explained_error (List.cons_ne_nil _ _)

theorem Explained.both {f : α → β → γ} {a : Checked α} {b : Checked β} (ha : Explained a)
    (hb : Explained b) : Explained (Checked.both f a b) := by
  cases a with
  | ok a =>
    cases b with
    | ok b => exact explained_ok (f a b)
    | error e => exact explained_error (hb e rfl)
  | error e =>
    cases b with
    | ok b => exact explained_error (ha e rfl)
    | error e' => exact explained_error (List.append_ne_nil_of_left_ne_nil (ha e rfl) e')

/-- Problems on the right are kept. -/
theorem exists_both_error {f : α → β → γ} (a : Checked α) (details : List Detail) :
    ∃ all, Checked.both f a (.error details) = .error all ∧ details ⊆ all := by
  cases a with
  | ok a => exact ⟨details, rfl, List.Subset.refl _⟩
  | error e => exact ⟨e ++ details, rfl, List.subset_append_right e details⟩

theorem explained_each {check : ℕ → Setting → Checked α} (h : ∀ i s, Explained (check i s)) (i : ℕ)
    (items : List Setting) : Explained (each check i items) := by
  induction items generalizing i with
  | nil => exact explained_ok _
  | cons s items ih => exact (h i s).both (ih (i + 1))

/-- Members of a list are accepted one by one. -/
theorem each_eq_ok_iff {check : ℕ → Setting → Checked α} {print : α → Setting}
    (h : ∀ i s a, check i s = .ok a ↔ s = print a) {i : ℕ} {items : List Setting} {as : List α} :
    each check i items = .ok as ↔ items = as.map print := by
  induction items generalizing i as with
  | nil => simp [each, eq_comm]
  | cons s items ih =>
    rw [each, both_eq_ok]
    simp only [h, ih]
    cases as <;> simp

/-- A second check accepts those of the values accepted by the first one that are valid. -/
structure Narrows (a b : Checked α) (valid : α → Prop) : Prop where
  kept : ∀ x, a = .ok x → valid x → b = .ok x
  refused : ∀ x, a = .ok x → ¬ valid x → ∃ place problem, b = reject place problem
  failed : ∀ e, a = .error e → b = .error e

namespace Narrows

variable {a b : Checked α} {valid : α → Prop}

theorem eq_ok_iff (h : Narrows a b valid) {x : α} : b = .ok x ↔ a = .ok x ∧ valid x := by
  refine ⟨fun hb => ?_, fun hx => h.kept x hx.1 hx.2⟩
  cases ha : a with
  | error e => exact absurd (hb.symm.trans (h.failed e ha)) (by simp)
  | ok y =>
    by_cases hy : valid y
    · obtain rfl := Except.ok.inj (hb.symm.trans (h.kept y ha hy))
      exact ⟨rfl, hy⟩
    · obtain ⟨place, problem, hreject⟩ := h.refused y ha hy
      exact absurd (hb.symm.trans hreject) (by simp [reject])

theorem explained (h : Narrows a b valid) (ha : Explained a) : Explained b := by
  cases he : a with
  | error e => exact h.failed e he ▸ explained_error (ha e he)
  | ok x =>
    by_cases hx : valid x
    · exact h.kept x he hx ▸ explained_ok x
    · obtain ⟨place, problem, hreject⟩ := h.refused x he hx
      exact hreject ▸ explained_reject place problem

end Narrows
end Settings.Checked

namespace Options

/-! ## Single values -/

section Values

variable (place : List Step) (s : Setting)

theorem explained_checkWhole (readable : Bool) (i : Int) :
    (checkWhole place readable i).Explained := by
  unfold checkWhole
  split
  · exact Checked.explained_ok _
  · split
    · exact Checked.explained_ok _
    · exact Checked.explained_reject _ _

theorem explained_checkBool : (checkBool place s).Explained := by
  cases s with
  | bool b => exact Checked.explained_ok b
  | int i => exact explained_checkWhole place _ i
  | decimal d places =>
    rw [checkBool]
    split
    · exact explained_checkWhole place _ _
    · exact Checked.explained_reject _ _
  | text t =>
    rw [checkBool]
    split
    · exact Checked.explained_ok _
    · split
      · exact Checked.explained_ok _
      · exact Checked.explained_reject _ _
  | null => exact Checked.explained_reject _ _
  | list items => exact Checked.explained_reject _ _
  | object entries => exact Checked.explained_reject _ _

theorem explained_checkText : (checkText place s).Explained := by
  unfold checkText
  split
  · exact Checked.explained_ok _
  · exact Checked.explained_reject _ _

theorem narrows_checkNotBlank : Checked.Narrows (checkText place s) (checkNotBlank place s)
    fun t => ∃ c ∈ t, Text.isSpace c = false := by
  have hblank (t : Text) : (∃ c ∈ t, Text.isSpace c = false) ↔ ¬ (Text.trim t).isEmpty = true := by
    rw [List.isEmpty_iff, Text.trim_eq_nil_iff]
    simp
  refine ⟨fun t h ht => ?_, fun t h ht => ⟨place, .blank, ?_⟩, fun e h => ?_⟩
  · simp only [checkNotBlank, h, if_neg ((hblank t).1 ht)]
  · rw [hblank, not_not] at ht
    simp only [checkNotBlank, h, if_pos ht]
  · simp only [checkNotBlank, h]

theorem explained_checkTexts : (checkTexts place s).Explained := by
  unfold checkTexts
  split
  · exact Checked.explained_each (fun i s => explained_checkText _ s) 0 _
  · exact Checked.explained_reject _ _

theorem explained_checkPair : (checkPair place s).Explained := by
  unfold checkPair
  split
  · dsimp only
    split
    · exact Checked.explained_reject _ _
    · refine .both ?_ ?_
      all_goals
        split
        · exact explained_checkText _ _
        · exact Checked.explained_reject _ _
  · exact Checked.explained_reject _ _

theorem narrows_checkDelimiters :
    Checked.Narrows (checkPair place s) (checkDelimiters place s) fun d => isFull d = true := by
  refine ⟨fun d h hd => ?_, fun d h hd => ⟨place, .emptyDelimiter, ?_⟩, fun e h => ?_⟩
  · simp only [checkDelimiters, h, if_pos hd]
  · simp only [checkDelimiters, h, if_neg hd]
  · simp only [checkDelimiters, h]

/-- The types of all pairs in a list. -/
def checkPairs (place : List Step) (items : List Setting) : Checked (List Delimiters) :=
  .each (fun i s => checkPair (place ++ [.index i]) s) 0 items

theorem narrows_checkDelimiterList (items : List Setting) :
    Checked.Narrows (checkPairs place items) (checkDelimiterList place (.list items))
      fun ds => ds.all isFull = true := by
  refine ⟨fun d h hd => ?_, fun d h hd => ⟨place, .emptyDelimiter, ?_⟩, fun e h => ?_⟩
  all_goals rw [checkPairs] at h
  · simp only [checkDelimiterList, h, if_pos hd]
  · simp only [checkDelimiterList, h, if_neg hd]
  · simp only [checkDelimiterList, h]

theorem explained_checkDelimiterList : (checkDelimiterList place s).Explained := by
  cases s with
  | list items =>
    refine (narrows_checkDelimiterList place items).explained ?_
    exact Checked.explained_each (fun i s => explained_checkPair _ s) 0 items
  | _ => exact Checked.explained_reject _ _

end Values

/-! ## Accepted values -/

section Accepted

variable {place : List Step} {s : Setting} {t : Text} {d : Delimiters}

/-- A pair as it is printed. -/
def pairSetting (d : Delimiters) : Setting := .list [.text d.opening, .text d.closing]

theorem whole?_eq_some_iff {digits i : ℤ} {places : ℕ} :
    whole? digits places = some i ↔ digits = i * powerOfTen places := by
  have hpos : 0 < powerOfTen places := by
    rw [powerOfTen]
    exact Int.natCast_pos.2 (Nat.pow_pos (by decide))
  rw [whole?]
  constructor
  · intro h
    split at h
    · rename_i hd
      rw [← Option.some.inj h, Int.ediv_mul_cancel (Int.dvd_of_emod_eq_zero hd)]
    · exact absurd h (by simp)
  · rintro rfl
    rw [if_pos (Int.mul_emod_left i _), Int.mul_ediv_cancel i (Int.ne_of_gt hpos)]

theorem checkWhole_eq_ok_iff {readable b : Bool} {i : ℤ} :
    checkWhole place readable i = .ok b ↔ i = if b then 1 else 0 := by
  rw [checkWhole]
  by_cases h₀ : i = 0
  · cases b <;> simp [h₀]
  · by_cases h₁ : i = 1
    · cases b <;> simp [h₁]
    · cases b <;> simp [h₀, h₁, Checked.reject]

/-- A number is accepted when it is equal to one that stands for a truth value. -/
theorem checkBool_eq_ok_iff_of_number {digits : ℤ} {places : ℕ} {b : Bool}
    (h : number? s = some (digits, places)) :
    checkBool place s = .ok b ↔ digits = (if b then 1 else 0) * powerOfTen places := by
  have hone : powerOfTen 0 = 1 := rfl
  cases s with
  | bool c =>
    obtain ⟨rfl, rfl⟩ := Prod.mk.inj (Option.some.inj h)
    rw [hone]
    cases b <;> cases c <;> simp [checkBool]
  | int i =>
    obtain ⟨rfl, rfl⟩ := Prod.mk.inj (Option.some.inj h)
    rw [checkBool, checkWhole_eq_ok_iff, hone, Int.mul_one]
  | decimal d p =>
    obtain ⟨rfl, rfl⟩ := Prod.mk.inj (Option.some.inj h)
    rw [checkBool, ← whole?_eq_some_iff]
    cases hw : whole? d p with
    | none => simp [Checked.reject]
    | some i => simp only [checkWhole_eq_ok_iff, Option.some.injEq]
  | _ => exact absurd h (by simp [number?])

/-- Other numbers are told apart: only a whole one of 64 bits could have been a truth value. -/
example : checkBool place (.decimal 20 1) = .reject place .boolParsing ∧
    checkBool place (.decimal 25 1) = .reject place .boolType := ⟨rfl, rfl⟩

theorem checkText_eq_ok_iff : checkText place s = .ok t ↔ s = .text t := by
  cases s <;> simp [checkText, Checked.reject]

theorem checkNotBlank_eq_ok_iff : checkNotBlank place s = .ok t ↔
    s = .text t ∧ ∃ c ∈ t, Text.isSpace c = false := by
  rw [(narrows_checkNotBlank place s).eq_ok_iff, checkText_eq_ok_iff]

theorem checkTexts_eq_ok_iff {ts : List Text} :
    checkTexts place s = .ok ts ↔ s = .list (ts.map .text) := by
  cases s with
  | list items =>
    rw [checkTexts, Checked.each_eq_ok_iff fun i s t => checkText_eq_ok_iff, Setting.list.injEq]
  | _ => simp [checkTexts, Checked.reject]

/-- A pair has exactly two members. -/
theorem checkPair_eq_ok_iff : checkPair place s = .ok d ↔ s = pairSetting d := by
  obtain ⟨opening, closing⟩ := d
  cases s with
  | list items =>
    rcases items with _ | ⟨a, _ | ⟨b, _ | ⟨c, items⟩⟩⟩
    · simp [checkPair, Checked.both, Checked.reject, pairSetting]
    · simp [checkPair, Checked.both_eq_ok, Checked.reject, pairSetting]
    · simp [checkPair, Checked.both_eq_ok, checkText_eq_ok_iff, pairSetting]
    · simp [checkPair, Checked.reject, pairSetting]
  | _ => simp [checkPair, Checked.reject, pairSetting]

theorem isFull_iff : isFull d = true ↔ d.opening ≠ [] ∧ d.closing ≠ [] := by
  simp [isFull]

theorem checkDelimiters_eq_ok_iff : checkDelimiters place s = .ok d ↔
    s = pairSetting d ∧ d.opening ≠ [] ∧ d.closing ≠ [] := by
  rw [(narrows_checkDelimiters place s).eq_ok_iff, checkPair_eq_ok_iff, isFull_iff]

theorem checkDelimiterList_eq_ok_iff {ds : List Delimiters} :
    checkDelimiterList place s = .ok ds ↔
      s = .list (ds.map pairSetting) ∧ ∀ d ∈ ds, d.opening ≠ [] ∧ d.closing ≠ [] := by
  cases s with
  | list items =>
    rw [(narrows_checkDelimiterList place items).eq_ok_iff, checkPairs,
      Checked.each_eq_ok_iff fun i s d => checkPair_eq_ok_iff, Setting.list.injEq]
    simp only [List.all_eq_true, isFull_iff]
  | _ => simp [checkDelimiterList, Checked.reject]

end Accepted

/-! ## All fields -/

section Fields

variable {es : Entries} {o : Options}

theorem explained_field {α : Type} (es : Entries) (name : String)
    {check : List Step → Setting → Checked α} (h : ∀ place s, (check place s).Explained) (d : α) :
    (field es name check d).Explained := by
  unfold field
  split
  · exact h _ _
  · exact Checked.explained_ok d

theorem explained_checkKeys (es : Entries) : (checkKeys es).Explained := by
  unfold checkKeys
  split
  · exact Checked.explained_ok ()
  · next h => exact Checked.explained_error fun he => h he

theorem explained_check (es : Entries) : (check es).Explained := by
  have hnotBlank (place : List Step) (s : Setting) : (checkNotBlank place s).Explained :=
    (narrows_checkNotBlank place s).explained (explained_checkText place s)
  have hdelimiters (place : List Step) (s : Setting) : (checkDelimiters place s).Explained :=
    (narrows_checkDelimiters place s).explained (explained_checkPair place s)
  refine .both (.both (.both (.both (.both (.both (.both (.both (.both (Checked.explained_ok _)
    ?_) ?_) ?_) ?_) ?_) ?_) ?_) ?_) (explained_checkKeys es)
  · exact explained_field es _ explained_checkBool _
  · exact explained_field es _ hnotBlank _
  · exact explained_field es _ explained_checkTexts _
  · exact explained_field es _ explained_checkDelimiterList _
  · exact explained_field es _ hdelimiters _
  · exact explained_field es _ hdelimiters _
  · exact explained_field es _ explained_checkBool _
  · exact explained_field es _ hnotBlank _

/-- Options are accepted field by field. -/
theorem check_eq_ok_iff : check es = .ok o ↔
    field es "xhtml_mode" checkBool default.xhtmlMode = .ok o.xhtmlMode ∧
    field es "binding_attribute" checkNotBlank default.bindingAttribute = .ok o.bindingAttribute ∧
    field es "skip_attributes" checkTexts default.skipAttributes = .ok o.skipAttributes ∧
    field es "template_delimiters" checkDelimiterList default.templateDelimiters =
      .ok o.templateDelimiters ∧
    field es "binding_delimiters" checkDelimiters default.bindingDelimiters =
      .ok o.bindingDelimiters ∧
    field es "output_delimiters" checkDelimiters default.outputDelimiters =
      .ok o.outputDelimiters ∧
    field es "normalize_whitespace" checkBool default.normalizeWhitespace =
      .ok o.normalizeWhitespace ∧
    field es "synthetic_tag" checkNotBlank default.syntheticTag = .ok o.syntheticTag ∧
    checkKeys es = .ok () := by
  constructor
  · intro h
    obtain ⟨_, _, h1, hkeys, rfl⟩ := Checked.both_eq_ok.1 h
    obtain ⟨_, _, h2, htag, rfl⟩ := Checked.both_eq_ok.1 h1
    obtain ⟨_, _, h3, hspace, rfl⟩ := Checked.both_eq_ok.1 h2
    obtain ⟨_, _, h4, houtputs, rfl⟩ := Checked.both_eq_ok.1 h3
    obtain ⟨_, _, h5, hbindings, rfl⟩ := Checked.both_eq_ok.1 h4
    obtain ⟨_, _, h6, htemplates, rfl⟩ := Checked.both_eq_ok.1 h5
    obtain ⟨_, _, h7, hskips, rfl⟩ := Checked.both_eq_ok.1 h6
    obtain ⟨_, _, h8, hattribute, rfl⟩ := Checked.both_eq_ok.1 h7
    obtain ⟨_, _, h9, hmode, rfl⟩ := Checked.both_eq_ok.1 h8
    obtain rfl := Except.ok.inj h9
    exact ⟨hmode, hattribute, hskips, htemplates, hbindings, houtputs, hspace, htag, hkeys⟩
  · rintro ⟨hmode, hattribute, hskips, htemplates, hbindings, houtputs, hspace, htag, hkeys⟩
    rw [check, hmode, hattribute, hskips, htemplates, hbindings, houtputs, hspace, htag, hkeys]
    rfl

end Fields

/-! ## Constraints -/

/-- What holds of all options. -/
structure Sound (o : Options) : Prop where
  templateDelimiters : ∀ d ∈ o.templateDelimiters, d.opening ≠ [] ∧ d.closing ≠ []
  bindingDelimiters : o.bindingDelimiters.opening ≠ [] ∧ o.bindingDelimiters.closing ≠ []
  outputDelimiters : o.outputDelimiters.opening ≠ [] ∧ o.outputDelimiters.closing ≠ []
  bindingAttribute : ∃ c ∈ o.bindingAttribute, Text.isSpace c = false
  syntheticTag : ∃ c ∈ o.syntheticTag, Text.isSpace c = false
  skipped : o.bindingAttribute ∈ o.skipAttributes

theorem skipBindingAttribute_eq (o : Options) : o.skipBindingAttribute =
    { o with skipAttributes :=
        if o.bindingAttribute ∈ o.skipAttributes then o.skipAttributes
        else o.skipAttributes ++ [o.bindingAttribute] } := by
  unfold skipBindingAttribute
  by_cases h : o.bindingAttribute ∈ o.skipAttributes <;> simp [h]

theorem Sound.skipBindingAttribute_eq_self {o : Options} (h : Sound o) :
    o.skipBindingAttribute = o := by
  rw [skipBindingAttribute_eq, if_pos h.skipped]

/-- The constraint on one option holds of its default and of what its check accepts. -/
theorem valid_of_field {α : Type} {es : Entries} {name : String}
    {check : List Step → Setting → Checked α} {d a : α} (valid : α → Prop)
    (h : field es name check d = .ok a) (hd : valid d)
    (hcheck : ∀ place s, check place s = .ok a → valid a) : valid a := by
  rw [field] at h
  split at h
  · exact hcheck _ _ h
  · exact Except.ok.inj h ▸ hd

theorem sound_of_check {es : Entries} {o : Options} (h : check es = .ok o) :
    Sound o.skipBindingAttribute := by
  obtain ⟨-, hattribute, -, htemplates, hbindings, houtputs, -, htag, -⟩ := check_eq_ok_iff.1 h
  have hskipped := bindingAttribute_mem_skipAttributes o
  rw [skipBindingAttribute_eq] at hskipped ⊢
  constructor
  case templateDelimiters =>
    exact valid_of_field (fun ds => ∀ d ∈ ds, d.opening ≠ [] ∧ d.closing ≠ []) htemplates
      (by decide) fun _ _ h => (checkDelimiterList_eq_ok_iff.1 h).2
  case bindingDelimiters =>
    exact valid_of_field (fun d => d.opening ≠ [] ∧ d.closing ≠ []) hbindings (by decide)
      fun _ _ h => (checkDelimiters_eq_ok_iff.1 h).2
  case outputDelimiters =>
    exact valid_of_field (fun d => d.opening ≠ [] ∧ d.closing ≠ []) houtputs (by decide)
      fun _ _ h => (checkDelimiters_eq_ok_iff.1 h).2
  case bindingAttribute =>
    exact valid_of_field (fun t => ∃ c ∈ t, Text.isSpace c = false) hattribute
      ⟨'d', by decide, by decide⟩ fun _ _ h => (checkNotBlank_eq_ok_iff.1 h).2
  case syntheticTag =>
    exact valid_of_field (fun t => ∃ c ∈ t, Text.isSpace c = false) htag
      ⟨'s', by decide, by decide⟩ fun _ _ h => (checkNotBlank_eq_ok_iff.1 h).2
  case skipped => exact hskipped

/-! ## Mappings -/

/-- The entries of a mapping. -/
def mapped (c : Config) : Entries := c.map fun e => (.text e.1, e.2)

theorem field_of_lookup {α : Type} {c : Config} {name : String} {s : Setting}
    (h : c.lookup name.toList = some s) (check : List Step → Setting → Checked α) (d : α) :
    field (mapped c) name check d = check [.key name.toList] s := by
  rw [field, mapped, get?_entries, h]

theorem resolve_mapped (c : Config) : resolve (.object c) =
    match check (mapped c) with
    | .error details => .error (.invalid details)
    | .ok o => .ok o.skipBindingAttribute := by
  rw [resolve, entries_object]
  rfl

/-- Sound options are resolved to themselves. -/
theorem resolve_toSetting {o : Options} (h : Sound o) : resolve o.toSetting = .ok o := by
  obtain ⟨c, hc, hlookups, hnames⟩ : ∃ c : Config, o.toSetting = .object c ∧
      (c.lookup "xhtml_mode".toList = some (.bool o.xhtmlMode) ∧
        c.lookup "binding_attribute".toList = some (.text o.bindingAttribute) ∧
        c.lookup "skip_attributes".toList = some (.list (o.skipAttributes.map .text)) ∧
        c.lookup "template_delimiters".toList = some (.list (o.templateDelimiters.map pairSetting)) ∧
        c.lookup "binding_delimiters".toList = some (pairSetting o.bindingDelimiters) ∧
        c.lookup "output_delimiters".toList = some (pairSetting o.outputDelimiters) ∧
        c.lookup "normalize_whitespace".toList = some (.bool o.normalizeWhitespace) ∧
        c.lookup "synthetic_tag".toList = some (.text o.syntheticTag)) ∧
      c.map Prod.fst = names :=
    ⟨_, rfl, ⟨rfl, rfl, rfl, rfl, rfl, rfl, rfl, rfl⟩, rfl⟩
  obtain ⟨hmode, hattribute, hskips, htemplates, hbindings, houtputs, hspace, htag⟩ := hlookups
  have hcheck : check (mapped c) = .ok o := by
    refine check_eq_ok_iff.2 ⟨?_, ?_, ?_, ?_, ?_, ?_, ?_, ?_, ?_⟩
    · exact field_of_lookup hmode _ _
    · rw [field_of_lookup hattribute]
      exact checkNotBlank_eq_ok_iff.2 ⟨rfl, h.bindingAttribute⟩
    · rw [field_of_lookup hskips]
      exact checkTexts_eq_ok_iff.2 rfl
    · rw [field_of_lookup htemplates]
      exact checkDelimiterList_eq_ok_iff.2 ⟨rfl, h.templateDelimiters⟩
    · rw [field_of_lookup hbindings]
      exact checkDelimiters_eq_ok_iff.2 ⟨rfl, h.bindingDelimiters⟩
    · rw [field_of_lookup houtputs]
      exact checkDelimiters_eq_ok_iff.2 ⟨rfl, h.outputDelimiters⟩
    · exact field_of_lookup hspace _ _
    · rw [field_of_lookup htag]
      exact checkNotBlank_eq_ok_iff.2 ⟨rfl, h.syntheticTag⟩
    · exact checkKeys_of_names fun n hn => hnames ▸ hn
  rw [hc, resolve_mapped, hcheck]
  exact congrArg Except.ok h.skipBindingAttribute_eq_self

/-- The value of an option that is set, or else the one given for it. -/
def valueOr (c : Config) (name : String) (d : Setting) : Setting := (c.lookup name.toList).getD d

theorem valueOr_of_field {α : Type} {c : Config} {name : String}
    {check : List Step → Setting → Checked α} (print : α → Setting) {d a : α}
    (h : field (mapped c) name check d = .ok a)
    (hcheck : ∀ place s, check place s = .ok a → s = print a) :
    valueOr c name (print d) = print a := by
  rw [field, mapped, get?_entries] at h
  rw [valueOr]
  split at h
  · next hs =>
    rw [hs]
    exact hcheck _ _ h
  · next hs =>
    rw [hs, ← Except.ok.inj h]
    rfl

/-- A key that names no option is among the problems. -/
theorem unknown_mem_details {c : Config} {name : Text} (hc : name ∈ c.map Prod.fst)
    (hn : name ∉ names) : ∃ details, check (mapped c) = .error details ∧
      ⟨[.key name], .extra⟩ ∈ details := by
  obtain ⟨e, he, rfl⟩ := List.mem_map.1 hc
  have hmem : ⟨[.key e.1], .extra⟩ ∈ (mapped c).filterMap fun e => keyProblem? e.1 := by
    refine List.mem_filterMap.2 ⟨(.text e.1, e.2), List.mem_map_of_mem he, ?_⟩
    simp [keyProblem?, hn]
  have hkeys : checkKeys (mapped c) = .error ((mapped c).filterMap fun e => keyProblem? e.1) := by
    rw [checkKeys]
    split
    · next hnil => exact absurd hmem (hnil ▸ List.not_mem_nil)
    · rfl
  rw [check, hkeys]
  obtain ⟨all, hall, hsubset⟩ := Checked.exists_both_error _ _
  exact ⟨all, hall, hsubset hmem⟩

/-- A mapping is rejected with details, and it is if one of its keys names no option. Otherwise the
options satisfy the constraints, pairs are as they were set, the attribute for bindings is appended
to the skipped ones where it is missing, and the options are resolved to themselves. -/
theorem resolve_object (c : Config) :
    ((∃ details, resolve (.object c) = .error (.invalid details) ∧ details ≠ []) ∨
      ∃ o, resolve (.object c) = .ok o ∧ Sound o ∧
        valueOr c "template_delimiters" (.list (default.templateDelimiters.map pairSetting)) =
          .list (o.templateDelimiters.map pairSetting) ∧
        (∃ skips, valueOr c "skip_attributes" (.list (default.skipAttributes.map .text)) =
            .list (skips.map .text) ∧
          o.skipAttributes =
            if o.bindingAttribute ∈ skips then skips else skips ++ [o.bindingAttribute]) ∧
        resolve o.toSetting = .ok o) ∧
      ∀ name ∈ c.map Prod.fst, name ∉ names → ∃ details,
        resolve (.object c) = .error (.invalid details) ∧ ⟨[.key name], .extra⟩ ∈ details := by
  refine ⟨?_, fun name hc hn => ?_⟩
  · rw [resolve_mapped]
    cases hcheck : check (mapped c) with
    | error details => exact Or.inl ⟨details, rfl, explained_check _ details hcheck⟩
    | ok o =>
      have hsound := sound_of_check hcheck
      obtain ⟨-, -, hskips, htemplates, -⟩ := check_eq_ok_iff.1 hcheck
      refine Or.inr ⟨_, rfl, hsound, ?_, ⟨o.skipAttributes, ?_, ?_⟩, resolve_toSetting hsound⟩
      · rw [skipBindingAttribute_eq]
        exact valueOr_of_field (fun ds => .list (ds.map pairSetting)) htemplates
          fun _ _ h => (checkDelimiterList_eq_ok_iff.1 h).1
      · exact valueOr_of_field (fun ts => .list (ts.map .text)) hskips
          fun _ _ h => checkTexts_eq_ok_iff.1 h
      · rw [skipBindingAttribute_eq]
  · obtain ⟨details, hcheck, hmem⟩ := unknown_mem_details hc hn
    exact ⟨details, by rw [resolve_mapped, hcheck], hmem⟩

/-- Words for truth values, and a list without the attribute for bindings; then a key that names no
option beside them. -/
theorem resolve_object_extra :
    let c : Config := [("xhtml_mode".toList, .text "Yes".toList),
      ("binding_attribute".toList, .text "data-x".toList),
      ("skip_attributes".toList, .list [.text "data-y".toList])]
    (∃ o, resolve (.object c) = .ok o ∧ o.xhtmlMode = true ∧
      o.skipAttributes = ["data-y".toList, "data-x".toList] ∧ resolve o.toSetting = .ok o) ∧
    "extra".toList ∉ names ∧
    ∃ details, resolve (.object (("extra".toList, .null) :: c)) = .error (.invalid details) ∧
      ⟨[.key "extra".toList], .extra⟩ ∈ details := by
  intro c
  have hn : "extra".toList ∉ names := by decide
  refine ⟨?_, hn, (resolve_object (("extra".toList, .null) :: c)).2 _ List.mem_cons_self hn⟩
  rcases (resolve_object c).1 with ⟨details, h, -⟩ | ⟨o, ho, -, -, -, hagain⟩
  · exact absurd (show resolve (.object c) = .ok _ from rfl) (by rw [h]; simp)
  · obtain rfl := Except.ok.inj (ho.symm.trans (show resolve (.object c) = .ok _ from rfl))
    exact ⟨_, ho, rfl, rfl, hagain⟩

end Options
end InlineBinding
