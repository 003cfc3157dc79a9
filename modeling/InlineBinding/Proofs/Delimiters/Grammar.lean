import InlineBinding.Proofs.Delimiters.Split

/-!
# The grammar of bindings

A text is split at the first place where a binding can be read, and so on behind it. Between braces
no binding is passed over.
-/
namespace InlineBinding.Delimiters
open Text Accessor

variable {d : Delimiters} {s : Text}

/-- A text cut at its bindings: the first one begins at the first place where one can be read. -/
inductive Splits (d : Delimiters) : Text → List Text → Prop where
  | literal {s : Text} (h : ∀ x y, s = x ++ y → ¬ d.Begins y) : Splits d s [s]
  | binding {literal s before path behind rest : Text} {chunks : List Text}
      (first : ∀ x y, literal ++ s = x ++ y → x.length < literal.length → ¬ d.Begins y)
      (takes : d.Takes s before path behind rest) (hr : Splits d rest chunks) :
      Splits d (literal ++ s) (literal :: path :: chunks)

theorem Splits.cons {c : Char} {cs : List Text} (hc : ¬ d.Begins (c :: s)) (h : d.Splits s cs) :
    d.Splits (c :: s) (prepend [c] cs) := by
  cases h with
  | literal h =>
    refine .literal fun x y he => ?_
    rcases List.cons_eq_append_iff.1 he with ⟨rfl, rfl⟩ | ⟨z, rfl, hz⟩
    · exact hc
    · exact h z y hz
  | @binding literal s w p v r cs first takes hr =>
    change d.Splits (c :: literal ++ s) ((c :: literal) :: p :: cs)
    refine .binding (fun x y he hlt => ?_) takes hr
    rcases List.cons_eq_append_iff.1 he with ⟨rfl, rfl⟩ | ⟨z, rfl, hz⟩
    · exact hc
    · exact first z y hz (Nat.lt_of_succ_lt_succ hlt)

theorem split_of_takes {w p v r : Text} (h : d.Takes s w p v r) :
    d.split s = [] :: p :: d.split r := by
  rw [split, h.cut_eq, chunks, split]

theorem splits_split (d : Delimiters) (s : Text) : d.Splits s (d.split s) := by
  induction hn : s.length using Nat.strong_induction_on generalizing s with
  | _ n ih =>
    subst hn
    cases hb : d.bindingAt? s with
    | some hit =>
      obtain ⟨p, n⟩ := hit
      obtain ⟨w, v, r, h, -⟩ := bindingAt?_eq_some_iff.1 hb
      rw [split_of_takes h]
      change d.Splits ([] ++ s) ([] :: p :: d.split r)
      refine .binding (fun x y _ hlt => absurd hlt (Nat.not_lt_zero _)) h ?_
      exact ih r.length h.length_lt r rfl
    | none =>
      cases s with
      | nil =>
        refine .literal fun x y he => ?_
        obtain ⟨rfl, rfl⟩ := List.append_eq_nil_iff.1 he.symm
        exact not_begins_nil
      | cons c s =>
        rw [split_cons_of_none hb]
        exact (ih s.length (by simp) s rfl).cons (bindingAt?_eq_none_iff.1 hb)

/-- Where no binding begins, all characters belong to the first literal. -/
theorem split_append {u : Text} (h : ∀ x y, u ++ s = x ++ y → x.length < u.length → ¬ d.Begins y) :
    d.split (u ++ s) = prepend u (d.split s) := by
  obtain ⟨literal, rest, hs⟩ := List.exists_cons_of_ne_nil (chunks_ne_nil (cut d.bindingAt? s))
  have hs : d.split s = literal :: rest := hs
  induction u with
  | nil => rw [List.nil_append, hs]; rfl
  | cons c u ih =>
    have hc : d.bindingAt? (c :: (u ++ s)) = none :=
      bindingAt?_eq_none_iff.2 (h [] _ rfl (by simp))
    have ih := ih fun x y he hlt => h (c :: x) y (by rw [List.cons_append, he]; rfl) (by simpa)
    rw [List.cons_append, split_cons_of_none hc, ih, hs]
    rfl

theorem Splits.eq_split {cs : List Text} (h : d.Splits s cs) : cs = d.split s := by
  induction h with
  | @literal s h =>
    have hs := split_append (d := d) (s := []) (u := s)
      fun x y he _ => h x y ((List.append_nil s).symm.trans he)
    rw [List.append_nil, split_nil] at hs
    rw [hs, prepend, List.append_nil]
  | binding first takes _ ih =>
    rw [split_append first, split_of_takes takes, ← ih, prepend, List.append_nil]

theorem splits_iff {cs : List Text} : d.Splits s cs ↔ cs = d.split s :=
  ⟨Splits.eq_split, fun h => h ▸ splits_split d s⟩

theorem Splits.odd_length {cs : List Text} (h : d.Splits s cs) : cs.length % 2 = 1 := by
  induction h with
  | literal _ => rfl
  | binding _ _ _ ih =>
    simp only [List.length_cons]
    omega

/-- Nothing is left to be split in a literal. -/
theorem Splits.split_literal {cs : List Text} (h : d.Splits s cs) {c : Text}
    (hc : .literal c ∈ Chunk.alternate false cs) : d.split c = [c] := by
  induction h with
  | literal h =>
    obtain rfl : c = _ := by simpa [Chunk.alternate] using hc
    exact (Splits.literal h).eq_split.symm
  | @binding literal s w p v r cs first _ _ ih =>
    simp only [Chunk.alternate, List.mem_cons, Chunk.literal.injEq, reduceCtorEq, false_or] at hc
    rcases hc with rfl | hc
    · refine (Splits.literal fun x y he hy => ?_).eq_split.symm
      subst he
      cases y with
      | nil => exact not_begins_nil hy
      | cons e y => exact first x (e :: y ++ s) (List.append_assoc _ _ _) (by simp) (hy.append s)
    · exact ih hc

/-! ## Braces -/

section Braces

variable {w p v r : Text}

/-- What stands between delimiters holds white space, parts of identifiers and dots only. -/
theorem notMem_between (hw : ∀ c ∈ w, isSpace c = true) (hp : IsPath p)
    (hv : ∀ c ∈ v, isSpace c = true) {b : Char} (hspace : isSpace b = false)
    (hpart : isPart b = false) (hdot : b ≠ '.') : b ∉ w ++ p ++ v := by
  rw [List.mem_append, List.mem_append]
  rintro ((h | h) | h)
  · simp [hw b h] at hspace
  · exact hp.notMem hpart hdot h
  · simp [hv b h] at hspace

theorem brace_notMem (hw : ∀ c ∈ w, isSpace c = true) (hp : IsPath p)
    (hv : ∀ c ∈ v, isSpace c = true) {b : Char} (hb : b ∈ ['\x7b', '\x7d']) :
    b ∉ w ++ p ++ v := by
  have hall : ∀ b ∈ ['\x7b', '\x7d'], isSpace b = false ∧ isPart b = false ∧ b ≠ '.' :=
    forall_mem_of_all (by decide)
  obtain ⟨hspace, hpart, hdot⟩ := hall b hb
  exact notMem_between hw hp hv hspace hpart hdot

/-- Between braces there is one reading. -/
theorem Reads.takes (h : braces.Reads s w p v r) : braces.Takes s w p v r := by
  have hfilter {q u : Text} (hq : IsPath q) (hu : ∀ c ∈ u, isSpace c = true) :
      (q ++ u).filter (!isSpace ·) = q := by
    rw [List.filter_append, List.filter_eq_self.2 (by simpa using hq.isSpace_eq),
      List.filter_eq_nil_iff.2 (by simpa using hu), List.append_nil]
  have hunique {w' p' v' r' : Text} (h' : braces.Reads s w' p' v' r') : p' = p ∧ v' = v := by
    obtain ⟨inner, rfl⟩ := Begins.opening_prefix ⟨w, p, v, r, h⟩
    obtain ⟨-, hbody, hp, hv⟩ := reads_iff.1 h
    obtain ⟨-, hbody', hp', hv'⟩ := reads_iff.1 h'
    have hnone {q u : Text} (hq : IsPath q) (hu : ∀ c ∈ u, isSpace c = true) :
        '\x7d' ∉ q ++ u := by
      have := brace_notMem (w := []) (by simp) hq hu (b := '\x7d') (by simp)
      simpa using this
    have he : p' ++ v' ++ '\x7d' :: r' = p ++ v ++ '\x7d' :: r := by
      have := hbody'.symm.trans hbody
      simpa [braces] using this
    have hpv := (append_cons_unique (hnone hp' hv') (hnone hp hv) he).1
    have hpath : p' = p := by rw [← hfilter hp' hv', hpv, hfilter hp hv]
    subst hpath
    exact ⟨rfl, List.append_cancel_left hpv⟩
  refine ⟨h, fun w' p' v' r' h' => ?_, fun w' v' r' h' => ?_⟩
  · rw [(hunique h').1]
  · rw [(hunique h').2]

/-- A reading ends before the next opening brace. -/
theorem Begins.of_append {u t : Text} (hu : u ≠ []) (h : braces.Begins (u ++ '\x7b' :: t)) :
    braces.Begins u := by
  obtain ⟨w, p, v, r, h⟩ := h
  have hopen := brace_notMem h.spaceBefore h.isPath h.spaceBehind (b := '\x7b') (by simp)
  obtain ⟨c, u, rfl⟩ := List.exists_cons_of_ne_nil hu
  have htext : c :: (u ++ '\x7b' :: t) = '\x7b' :: (w ++ p ++ v ++ '\x7d' :: r) := by
    simpa [braces] using h.text
  obtain ⟨rfl, hinner⟩ := List.cons.inj htext
  rcases List.append_eq_append_iff.1 hinner with ⟨a, ha, hr⟩ | ⟨a, ha, hr⟩
  · cases a with
    | nil => simp at hr
    | cons b a =>
      obtain ⟨rfl, -⟩ := List.cons.inj hr
      simp [ha] at hopen
  · cases a with
    | nil => simp at hr
    | cons b a =>
      obtain ⟨rfl, -⟩ := List.cons.inj hr
      exact ⟨w, p, v, a, by simp [ha, braces], h.spaceBefore, h.isPath, h.spaceBehind⟩

/-- Every binding between braces is found, whatever stands around it. -/
theorem Splits.append_wrap {x : Text} {cs : List Text} (h : braces.Splits x cs)
    (hw : ∀ c ∈ w, isSpace c = true) (hp : IsPath p) (hv : ∀ c ∈ v, isSpace c = true) (y : Text) :
    braces.Splits (x ++ (braces.wrap (w ++ p ++ v) ++ y)) (cs ++ p :: braces.split y) := by
  have hwrap : braces.Reads (braces.wrap (w ++ p ++ v) ++ y) w p v y :=
    ⟨by simp [wrap], hw, hp, hv⟩
  have hfront {a b x z : Text} (he : a ++ b = x ++ z) (hlt : x.length < a.length) :
      ∃ u, u ≠ [] ∧ a = x ++ u ∧ z = u ++ b := by
    rcases List.append_eq_append_iff.1 he with ⟨u, rfl, -⟩ | ⟨u, rfl, rfl⟩
    · rw [List.length_append] at hlt
      omega
    · refine ⟨u, ?_, rfl, rfl⟩
      rintro rfl
      simp at hlt
  induction h with
  | @literal x hx =>
    refine .binding (fun a z he hlt hz => ?_) hwrap.takes (splits_split braces y)
    obtain ⟨u, hu, rfl, rfl⟩ := hfront he hlt
    exact hx a u rfl (Begins.of_append hu hz)
  | @binding literal s w' p' v' r' cs first takes _ ih =>
    have hreads : braces.Reads (s ++ (braces.wrap (w ++ p ++ v) ++ y)) w' p' v'
        (r' ++ (braces.wrap (w ++ p ++ v) ++ y)) :=
      ⟨by rw [takes.text]; simp only [List.append_assoc], takes.spaceBefore, takes.isPath,
        takes.spaceBehind⟩
    rw [List.append_assoc]
    refine .binding (fun a z he hlt hz => ?_) hreads.takes ih
    obtain ⟨u, hu, rfl, rfl⟩ := hfront he hlt
    obtain ⟨t, rfl⟩ := Begins.opening_prefix ⟨w', p', v', r', takes.toReads⟩
    exact first a (u ++ (braces.opening ++ t)) (List.append_assoc _ _ _)
      (by simpa using List.length_pos_iff.2 hu) ((Begins.of_append hu (by simpa [braces] using hz)).append _)

end Braces

/-- The chunks of a text are those of its bindings, each with the longest path at the first place;
no binding is left in a literal, and between braces none is passed over. -/
theorem split_by_grammar (d : Delimiters) (s : Text) :
    (∀ cs, d.Splits s cs ↔ cs = d.split s) ∧ (d.split s).length % 2 = 1 ∧
      (∀ c, .literal c ∈ Chunk.alternate false (d.split s) → d.split c = [c]) ∧
      ∀ x w p v y, (∀ c ∈ w ++ v, isSpace c = true) → IsPath p →
        s = x ++ (braces.wrap (w ++ p ++ v) ++ y) →
          braces.split s = braces.split x ++ p :: braces.split y := by
  have hs := splits_split d s
  refine ⟨fun cs => splits_iff, hs.odd_length, fun c => hs.split_literal, ?_⟩
  rintro x w p v y hspace hp rfl
  rw [List.forall_mem_append] at hspace
  exact ((splits_split braces x).append_wrap hspace.1 hp hspace.2 y).eq_split.symm

/-- A path gives characters back to the closing delimiter. -/
example : (Delimiters.mk ['a'] ['a']).split "abcaa".toList = [[], "bca".toList, []] := by decide

end InlineBinding.Delimiters
