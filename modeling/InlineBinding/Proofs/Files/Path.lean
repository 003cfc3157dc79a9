import InlineBinding.Files.Path
import InlineBinding.Proofs.Text.Separated

/-!
# Paths and the texts they are written as

The names in a path that was read from a text are neither empty nor single points and hold no
slash.  Such a path is read back from its own text.  Sorted paths stand in the order of their
names.
-/
namespace InlineBinding.Path

/-- A name as it stands in a path; two points are one. -/
def IsPart (name : Text) : Prop := isName name = true ∧ '/' ∉ name

theorem IsPart.ne_nil {name : Text} (h : IsPart name) : name ≠ [] := by
  rintro rfl
  exact absurd h.1 (by decide)

/-- A name that leads from a directory to something in it. -/
def IsPlain (name : Text) : Prop := IsPart name ∧ name ≠ "..".toList

instance : DecidablePred IsPlain := fun _ => inferInstanceAs (Decidable ((_ ∧ _) ∧ _))

def Proper (p : Path) : Prop := ∀ name ∈ p.parts, IsPart name

theorem proper_ofText (t : Text) : (ofText t).Proper := by
  intro name hname
  obtain ⟨hsplit, hisName⟩ := List.mem_filter.1 hname
  exact ⟨hisName, Text.notMem_of_mem_splitOn hsplit⟩

theorem Proper.parent {p : Path} (h : p.Proper) : p.parent.Proper :=
  fun name hname => h name (List.dropLast_subset _ hname)

theorem Proper.join {p : Path} (h : p.Proper) {names : List Text} (hnames : ∀ n ∈ names, IsPart n) :
    (p.join names).Proper := by
  intro name hname
  exact (List.mem_append.1 hname).elim (h name) (hnames name)

theorem parts_join (p : Path) (names : List Text) : (p.join names).parts = p.parts ++ names := rfl

/-! ## Reading a written path -/

theorem filter_isName {parts : List Text} (h : ∀ name ∈ parts, IsPart name) :
    parts.filter isName = parts :=
  List.filter_eq_self.2 fun name hname => (h name hname).1

theorem splitOn_parts {parts : List Text} (h : ∀ name ∈ parts, IsPart name) (hne : parts ≠ []) :
    (List.intercalate ['/'] parts).splitOn '/' = parts :=
  (Text.splitOn_intercalate_iff hne).2 fun name hname => (h name hname).2

theorem intercalate_cons_head? {name : Text} (h : IsPart name) (names : List Text) :
    ∃ c, c ≠ '/' ∧ (List.intercalate ['/'] (name :: names)).head? = some c := by
  obtain ⟨c, s, rfl⟩ := List.exists_cons_of_ne_nil h.ne_nil
  refine ⟨c, fun hc => h.2 (hc ▸ List.mem_cons_self), ?_⟩
  cases names with
  | nil => rfl
  | cons n ns => rfl

/-- A path is read back from its text. -/
theorem ofText_render {p : Path} (h : p.Proper) : ofText p.render = p := by
  obtain ⟨absolute, parts⟩ := p
  cases parts with
  | nil => cases absolute <;> rfl
  | cons name names =>
    have hsplit := splitOn_parts h (List.cons_ne_nil name names)
    obtain ⟨c, hc, hhead⟩ := intercalate_cons_head? (h name List.mem_cons_self) names
    cases absolute with
    | false =>
      have hrender : render ⟨false, name :: names⟩ = List.intercalate ['/'] (name :: names) := rfl
      rw [hrender, ofText, hsplit, hhead, filter_isName h]
      simp [hc]
    | true =>
      have hrender : render ⟨true, name :: names⟩ =
          '/' :: List.intercalate ['/'] (name :: names) := rfl
      have hslash : ('/' :: List.intercalate ['/'] (name :: names)).splitOn '/' =
          [] :: (name :: names) := by
        rw [List.splitOn_cons_eq_if_modifyHead, if_pos (by simp), hsplit]
      rw [hrender, ofText, hslash, List.filter_cons_of_neg (by decide), filter_isName h]
      rfl

theorem intercalate_getLast? {parts : List Text} (h : ∀ name ∈ parts, IsPart name)
    (hne : parts ≠ []) : ∃ c, c ≠ '/' ∧ (List.intercalate ['/'] parts).getLast? = some c := by
  induction parts with
  | nil => exact absurd rfl hne
  | cons name names ih =>
    cases names with
    | nil =>
      have hname := h name List.mem_cons_self
      refine ⟨name.getLast hname.ne_nil, fun hc => hname.2 (hc ▸ List.getLast_mem _), ?_⟩
      rw [List.intercalate_singleton, List.getLast?_eq_some_getLast hname.ne_nil]
    | cons next names =>
      obtain ⟨c, hc, hlast⟩ :=
        ih (fun n hn => h n (List.mem_cons_of_mem name hn)) (List.cons_ne_nil next names)
      refine ⟨c, hc, ?_⟩
      rw [List.intercalate_cons_cons, List.getLast?_append, hlast]
      rfl

/-- The text of a path that has names ends with one of them. -/
theorem render_getLast? {p : Path} (h : p.Proper) (hne : p.parts ≠ []) :
    ∃ c, c ≠ '/' ∧ p.render.getLast? = some c := by
  obtain ⟨c, hc, hlast⟩ := intercalate_getLast? h hne
  refine ⟨c, hc, ?_⟩
  have hcons : List.intercalate ['/'] p.parts ≠ [] := by
    intro hnil
    rw [hnil] at hlast
    exact absurd hlast (by simp)
  rw [render]
  split
  · rw [List.getLast?_cons, hlast]
    rfl
  · rw [if_neg (by simpa using hne), hlast]

/-! ## The order of paths -/

theorem before_iff {p q : Path} : p.before q = true ↔ p.parts < q.parts := decide_eq_true_iff

/-- Sorting keeps the paths and puts them in order. -/
theorem sort_perm (ps : List Path) : (sort ps).Perm ps := List.mergeSort_perm ps _

theorem sort_pairwise (ps : List Path) : (sort ps).Pairwise fun p q => ¬ q.parts < p.parts := by
  have htrans (p q r : Path) (hpq : (!q.before p) = true) (hqr : (!r.before q) = true) :
      (!r.before p) = true := by
    simp only [Bool.not_eq_true', ← Bool.not_eq_true, before_iff, List.not_lt] at hpq hqr ⊢
    exact List.le_trans hpq hqr
  have htotal (p q : Path) : (!q.before p || !p.before q) = true := by
    simp only [Bool.or_eq_true, Bool.not_eq_true', ← Bool.not_eq_true, before_iff, List.not_lt]
    exact List.le_total p.parts q.parts
  refine (List.pairwise_mergeSort htrans htotal ps).imp fun {p q} h => ?_
  simpa only [Bool.not_eq_true', ← Bool.not_eq_true, before_iff] using h

/-- Paths with different names come in strict order. -/
theorem sort_strictly {ps : List Path} (h : (ps.map parts).Nodup) :
    ((sort ps).map parts).Pairwise (· < ·) := by
  have hnodup : ((sort ps).map parts).Nodup := ((sort_perm ps).map parts).nodup_iff.2 h
  have hsorted : ((sort ps).map parts).Pairwise fun m n => ¬ n < m :=
    List.pairwise_map.2 (sort_pairwise ps)
  refine (hsorted.and hnodup).imp fun {m n} hmn => ?_
  exact (List.le_iff_lt_or_eq.1 (List.not_lt.1 hmn.1)).resolve_right hmn.2

end InlineBinding.Path
