import InlineBinding.Files.Tree
import InlineBinding.Proofs.Files.Path

/-!
# Walks through the files and what they change

A path leads to a place past directories only.  Writing changes one place, and making directories
changes no file, so a walk that led somewhere before leads there afterwards.  In a tree everything
hangs from a directory: what is below a place makes that place a directory.
-/
namespace InlineBinding.Files
open InlineBinding.Path

variable {fs gs hs : Files} {p : Path} {q : Place} {content : Content}

/-! ## Walks -/

theorem asDirectory_eq_ok_iff {r : Place} :
    fs.asDirectory q = .ok r ↔ fs.find? q = some .directory ∧ q = r := by
  rw [asDirectory]
  cases fs.find? q with
  | none => simp
  | some e => cases e <;> simp

theorem follow_nil (fs : Files) (q : Place) : fs.follow q [] = .ok q := rfl

theorem follow_cons (fs : Files) (q : Place) (name : Text) (names : List Text) :
    fs.follow q (name :: names) =
      fs.asDirectory q >>= fun r => fs.follow (step r name) names := rfl

theorem follow_cons_eq_ok_iff {r : Place} {name : Text} {names : List Text} :
    fs.follow q (name :: names) = .ok r ↔
      fs.find? q = some .directory ∧ fs.follow (step q name) names = .ok r := by
  rw [follow_cons]
  cases hd : fs.asDirectory q with
  | ok d =>
    obtain ⟨hq, rfl⟩ := asDirectory_eq_ok_iff.1 hd
    exact ⟨fun h => ⟨hq, h⟩, And.right⟩
  | error f =>
    refine ⟨fun h => absurd h (by simp [bind, Except.bind]), fun h => ?_⟩
    rw [asDirectory_eq_ok_iff.2 ⟨h.1, rfl⟩] at hd
    cases hd

theorem follow_append_eq_ok_iff {r : Place} {names more : List Text} :
    fs.follow q (names ++ more) = .ok r ↔
      ∃ s, fs.follow q names = .ok s ∧ fs.follow s more = .ok r := by
  induction names generalizing q with
  | nil => simp [follow_nil]
  | cons name names ih =>
    simp only [List.cons_append, follow_cons_eq_ok_iff, ih]
    grind

/-- A walk that succeeds leads where its names lead. -/
theorem eq_of_follow {r : Place} {names : List Text} (h : fs.follow q names = .ok r) :
    r = names.foldl step q := by
  induction names generalizing q with
  | nil =>
    cases h
    rfl
  | cons name names ih => exact ih (follow_cons_eq_ok_iff.1 h).2

theorem eq_of_locate (h : fs.locate p = .ok q) : q = fs.resolve p := eq_of_follow h

theorem locate_join_eq_ok_iff {names : List Text} :
    fs.locate (p.join names) = .ok q ↔ ∃ s, fs.locate p = .ok s ∧ fs.follow s names = .ok q :=
  follow_append_eq_ok_iff

theorem stat_eq_ok_iff {e : Entry} :
    fs.stat p = .ok e ↔ fs.locate p = .ok (fs.resolve p) ∧ fs.find? (fs.resolve p) = some e := by
  rw [stat]
  cases hl : fs.locate p with
  | error f => simp [bind, Except.bind]
  | ok q =>
    obtain rfl := eq_of_locate hl
    cases hf : fs.find? (fs.resolve p) <;> simp [bind, Except.bind, hf]

theorem read_eq_ok_iff :
    fs.read p = .ok content ↔
      fs.locate p = .ok (fs.resolve p) ∧ fs.find? (fs.resolve p) = some (.file content) := by
  rw [← stat_eq_ok_iff, read]
  cases fs.stat p with
  | error f => simp [bind, Except.bind]
  | ok e => cases e <;> simp [bind, Except.bind]

theorem isFile_iff : fs.isFile p = true ↔ ∃ content, fs.read p = .ok content := by
  rw [isFile, read]
  cases fs.stat p with
  | error f => simp [bind, Except.bind]
  | ok e => cases e <;> simp [bind, Except.bind]

theorem isDirectory_iff : fs.isDirectory p = true ↔
    fs.locate p = .ok (fs.resolve p) ∧ fs.find? (fs.resolve p) = some .directory := by
  rw [← stat_eq_ok_iff, isDirectory]
  cases fs.stat p with
  | error f => simp
  | ok e => cases e <;> simp

/-- A written path without a slash at its end is read like the path. -/
theorem readAt_eq_read (fs : Files) {t : Text} (hne : t ≠ []) (hslash : endsWithSlash t = false) :
    fs.readAt t = fs.read (ofText t) := by
  rw [readAt, statAt, if_neg (by simpa using hne), hslash, read]
  cases fs.stat (ofText t) with
  | error f => rfl
  | ok e => cases e <;> rfl

theorem readAt_render (fs : Files) (h : p.Proper) (hne : p.parts ≠ []) :
    fs.readAt p.render = fs.read p := by
  obtain ⟨c, hc, hlast⟩ := render_getLast? h hne
  have hnil : p.render ≠ [] := by
    intro hnil
    rw [hnil] at hlast
    exact absurd hlast (by simp)
  rw [readAt_eq_read fs hnil (by simpa [endsWithSlash, hlast] using hc), ofText_render h]

/-! ## What is kept -/

/-- Every directory is still a directory and every file a file. -/
structure Kept (fs gs : Files) : Prop where
  directory : gs.directory = fs.directory
  directories : ∀ q, fs.find? q = some .directory → gs.find? q = some .directory
  files : ∀ q content, fs.find? q = some (.file content) →
    ∃ content, gs.find? q = some (.file content)

theorem Kept.refl (fs : Files) : Kept fs fs := ⟨rfl, fun _ h => h, fun _ c h => ⟨c, h⟩⟩

theorem Kept.trans (h : Kept fs gs) (h' : Kept gs hs) : Kept fs hs := by
  refine ⟨h'.directory.trans h.directory, fun q hq => h'.directories q (h.directories q hq),
    fun q c hq => ?_⟩
  obtain ⟨c, hq⟩ := h.files q c hq
  exact h'.files q c hq

theorem Kept.home (h : Kept fs gs) : gs.home = fs.home := by rw [Files.home, h.directory, Files.home]

theorem Kept.start (h : Kept fs gs) (p : Path) : gs.start p = fs.start p := by
  rw [Files.start, h.home, Files.start]

theorem Kept.resolve (h : Kept fs gs) (p : Path) : gs.resolve p = fs.resolve p := by
  rw [Files.resolve, h.start, Files.resolve]

theorem Kept.follow (h : Kept fs gs) {r : Place} {names : List Text}
    (hf : fs.follow q names = .ok r) : gs.follow q names = .ok r := by
  induction names generalizing q with
  | nil => exact hf
  | cons name names ih =>
    obtain ⟨hq, hf⟩ := follow_cons_eq_ok_iff.1 hf
    exact follow_cons_eq_ok_iff.2 ⟨h.directories q hq, ih hf⟩

theorem Kept.locate (h : Kept fs gs) (hp : fs.locate p = .ok q) : gs.locate p = .ok q := by
  rw [Files.locate, h.start]
  exact h.follow hp

/-- What is there does not become a file or cease to be one. -/
theorem Kept.file_iff (h : Kept fs gs) (hq : fs.find? q ≠ none) :
    (∃ content, gs.find? q = some (.file content)) ↔
      ∃ content, fs.find? q = some (.file content) := by
  refine ⟨fun ⟨c, hc⟩ => ?_, fun ⟨c, hc⟩ => h.files q c hc⟩
  cases hf : fs.find? q with
  | none => exact absurd hf hq
  | some e =>
    cases e with
    | file c => exact ⟨c, rfl⟩
    | directory =>
      rw [h.directories q hf] at hc
      cases hc

theorem Kept.find?_ne_none (h : Kept fs gs) (hq : fs.find? q ≠ none) : gs.find? q ≠ none := by
  cases hf : fs.find? q with
  | none => exact absurd hf hq
  | some e =>
    cases e with
    | file c =>
      obtain ⟨c, hc⟩ := h.files q c hf
      simp [hc]
    | directory => simp [h.directories q hf]

theorem Kept.read (h : Kept fs gs) (hp : fs.read p = .ok content)
    (hfile : gs.find? (fs.resolve p) = some (.file content) ↔
      fs.find? (fs.resolve p) = some (.file content)) : gs.read p = .ok content := by
  obtain ⟨hlocate, hfind⟩ := read_eq_ok_iff.1 hp
  rw [read_eq_ok_iff, h.resolve]
  exact ⟨h.locate hlocate, hfile.2 hfind⟩

/-- More directories, and every file as it was. -/
structure Grown (fs gs : Files) : Prop where
  directory : gs.directory = fs.directory
  directories : ∀ q, fs.find? q = some .directory → gs.find? q = some .directory
  files : ∀ q content, gs.find? q = some (.file content) ↔ fs.find? q = some (.file content)

theorem Grown.refl (fs : Files) : Grown fs fs := ⟨rfl, fun _ h => h, fun _ _ => Iff.rfl⟩

theorem Grown.trans (h : Grown fs gs) (h' : Grown gs hs) : Grown fs hs :=
  ⟨h'.directory.trans h.directory, fun q hq => h'.directories q (h.directories q hq),
    fun q c => (h'.files q c).trans (h.files q c)⟩

theorem Grown.kept (h : Grown fs gs) : Kept fs gs :=
  ⟨h.directory, h.directories, fun q c hq => ⟨c, (h.files q c).2 hq⟩⟩

/-- One place has a new content, and all others are as they were. -/
structure Wrote (fs gs : Files) (place : Place) (content : Content) : Prop where
  directory : gs.directory = fs.directory
  opened : fs.find? place ≠ some .directory
  here : gs.find? place = some (.file content)
  elsewhere : ∀ q, q ≠ place → gs.find? q = fs.find? q

theorem Wrote.kept {place : Place} (h : Wrote fs gs place content) : Kept fs gs := by
  refine ⟨h.directory, fun q hq => ?_, fun q c hq => ?_⟩
  · have hne : q ≠ place := by
      rintro rfl
      exact h.opened hq
    rw [h.elsewhere q hne, hq]
  · by_cases hne : q = place
    · exact ⟨content, hne ▸ h.here⟩
    · exact ⟨c, (h.elsewhere q hne).trans hq⟩

theorem isPrefixOf_home_eq_false (h : fs.find? q ≠ some .directory) :
    q.isPrefixOf fs.home = false := by
  rw [← Bool.not_eq_true]
  intro hhome
  exact h (by rw [find?, if_pos hhome])

theorem find?_put (fs : Files) (e : Entry) (h : fs.find? q ≠ some .directory) (r : Place) :
    (fs.put q e).find? r = if r = q then some e else fs.find? r := by
  split
  · next hr =>
    rw [hr]
    exact find?_put_self fs e (isPrefixOf_home_eq_false h)
  · next hr => exact find?_put_of_ne fs e hr

theorem find?_put_directory (fs : Files) (e : Entry) (h : fs.find? q ≠ some .directory) {r : Place}
    (hr : fs.find? r = some .directory) : (fs.put q e).find? r = some .directory := by
  have hne : r ≠ q := by
    rintro rfl
    exact h hr
  rw [find?_put fs e h, if_neg hne, hr]

/-! ## Writing -/

theorem write_eq_ok_iff : fs.write p content = .ok gs ↔
    fs.locate p = .ok (fs.resolve p) ∧ fs.find? (fs.resolve p).dropLast = some .directory ∧
      fs.find? (fs.resolve p) ≠ some .directory ∧ gs = fs.put (fs.resolve p) (.file content) := by
  rw [write]
  cases hl : fs.locate p with
  | error f => simp [bind, Except.bind]
  | ok q =>
    obtain rfl := eq_of_locate hl
    cases hd : fs.asDirectory (fs.resolve p).dropLast with
    | error f =>
      have : fs.find? (fs.resolve p).dropLast ≠ some .directory := fun h => by
        rw [asDirectory_eq_ok_iff.2 ⟨h, rfl⟩] at hd
        cases hd
      simp [bind, Except.bind, this, hd]
    | ok r =>
      obtain ⟨hr, -⟩ := asDirectory_eq_ok_iff.1 hd
      cases hf : fs.find? (fs.resolve p) with
      | none => simp [bind, Except.bind, hf, hd, hr, eq_comm]
      | some e => cases e <;> simp [bind, Except.bind, hf, hd, hr, eq_comm]

theorem wrote_of_write (h : fs.write p content = .ok gs) :
    Wrote fs gs (fs.resolve p) content := by
  obtain ⟨-, -, hopened, rfl⟩ := write_eq_ok_iff.1 h
  refine ⟨rfl, hopened, ?_, fun q hq => ?_⟩
  · rw [find?_put fs _ hopened, if_pos rfl]
  · rw [find?_put fs _ hopened, if_neg hq]

/-- What was written is what is read. -/
theorem read_of_write (h : fs.write p content = .ok gs) : gs.read p = .ok content := by
  have hwrote := wrote_of_write h
  rw [read_eq_ok_iff, hwrote.kept.resolve]
  exact ⟨hwrote.kept.locate (write_eq_ok_iff.1 h).1, hwrote.here⟩

/-- A written path that can be opened for writing. -/
structure Opens (fs : Files) (t : Text) : Prop where
  ne_nil : t ≠ []
  noSlash : endsWithSlash t = false
  located : fs.locate (ofText t) = .ok (fs.resolve (ofText t))
  above : fs.find? (fs.resolve (ofText t)).dropLast = some .directory
  notDirectory : fs.find? (fs.resolve (ofText t)) ≠ some .directory

/-- Every place has one entry, and a directory above it. -/
structure IsTree (fs : Files) : Prop where
  nodup : (fs.entries.map Prod.fst).Nodup
  plain : ∀ e ∈ fs.entries, ∀ name ∈ e.1, IsPlain name
  rooted : ∀ e ∈ fs.entries, fs.find? e.1.dropLast = some .directory

/-- Something is at a place if it is the working directory, is above it, or has an entry. -/
theorem mem_of_find? {e : Entry} (h : fs.find? q = some e) : q <+: fs.home ∨ (q, e) ∈ fs.entries := by
  rw [find?] at h
  split at h
  · next hhome => exact .inl (List.isPrefixOf_iff_prefix.1 hhome)
  · obtain ⟨before, after, heq, -⟩ := List.lookup_eq_some_iff.1 h
    exact .inr (heq ▸ List.mem_append_right before List.mem_cons_self)

theorem find?_ne_none_of_mem {e : Entry} (h : (q, e) ∈ fs.entries) : fs.find? q ≠ none := by
  rw [find?]
  split
  · simp
  · rw [Ne, List.lookup_eq_none_iff]
    exact fun hne => absurd (hne _ h) (by simp)

theorem find?_of_prefix_home (h : q <+: fs.home) : fs.find? q = some .directory := by
  rw [find?, if_pos (List.isPrefixOf_iff_prefix.2 h)]

theorem IsTree.above (ht : fs.IsTree) {e : Entry} (h : fs.find? q = some e) :
    fs.find? q.dropLast = some .directory := by
  rcases mem_of_find? h with hhome | hmem
  · exact find?_of_prefix_home ((List.dropLast_prefix q).trans hhome)
  · exact ht.rooted _ hmem

/-- Everything above something is a directory. -/
theorem IsTree.directory_of_append (ht : fs.IsTree) {names : List Text} (hne : names ≠ [])
    {e : Entry} (h : fs.find? (q ++ names) = some e) : fs.find? q = some .directory := by
  induction names generalizing q with
  | nil => exact absurd rfl hne
  | cons name names ih =>
    rw [List.append_cons] at h
    cases names with
    | nil =>
      rw [List.append_nil] at h
      simpa using ht.above h
    | cons n ns => simpa using ht.above (ih (List.cons_ne_nil n ns) h)

theorem step_plain {name : Text} (h : IsPlain name) (q : Place) : step q name = q ++ [name] := by
  rw [step, if_neg h.2]

theorem foldl_step_plain {names : List Text} (h : ∀ name ∈ names, IsPlain name) (q : Place) :
    names.foldl step q = q ++ names := by
  induction names generalizing q with
  | nil => rw [List.foldl_nil, List.append_nil]
  | cons name names ih =>
    rw [List.foldl_cons, step_plain (h name List.mem_cons_self),
      ih (fun n hn => h n (List.mem_cons_of_mem name hn)), List.append_assoc, List.singleton_append]

theorem resolve_join {names : List Text} (h : ∀ name ∈ names, IsPlain name) :
    fs.resolve (p.join names) = fs.resolve p ++ names := by
  rw [resolve, parts_join, List.foldl_append, foldl_step_plain h]
  rfl

/-- In a tree, plain names lead to what is there. -/
theorem IsTree.follow_plain (ht : fs.IsTree) {names : List Text}
    (hnames : ∀ name ∈ names, IsPlain name) {e : Entry} (h : fs.find? (q ++ names) = some e) :
    fs.follow q names = .ok (q ++ names) := by
  induction names generalizing q with
  | nil => rw [follow_nil, List.append_nil]
  | cons name names ih =>
    refine follow_cons_eq_ok_iff.2 ⟨ht.directory_of_append (List.cons_ne_nil name names) h, ?_⟩
    rw [List.append_cons] at h ⊢
    rw [step_plain (hnames name List.mem_cons_self)]
    exact ih (fun n hn => hnames n (List.mem_cons_of_mem name hn)) h

/-- What is read below a directory is what is at its place. -/
theorem IsTree.read_join_iff (ht : fs.IsTree) (hp : fs.locate p = .ok (fs.resolve p))
    {names : List Text} (hnames : ∀ name ∈ names, IsPlain name) :
    fs.read (p.join names) = .ok content ↔
      fs.find? (fs.resolve p ++ names) = some (.file content) := by
  rw [read_eq_ok_iff, resolve_join hnames, and_iff_right_iff_imp]
  exact fun h => locate_join_eq_ok_iff.2 ⟨_, hp, ht.follow_plain hnames h⟩

/-! ## What stays a tree -/

theorem mem_setEntry {entries : List (Place × Entry)} {e : Entry} {x : Place × Entry}
    (h : x ∈ setEntry entries q e) : x = (q, e) ∨ x ∈ entries := by
  induction entries with
  | nil => exact .inl (by simpa [setEntry] using h)
  | cons y ys ih =>
    rw [setEntry] at h
    split at h
    · exact (List.mem_cons.1 h).imp_right (List.mem_cons_of_mem y)
    · rcases List.mem_cons.1 h with rfl | h
      · exact .inr List.mem_cons_self
      · exact (ih h).imp_right (List.mem_cons_of_mem y)

theorem keys_setEntry (entries : List (Place × Entry)) (q : Place) (e : Entry) :
    (setEntry entries q e).map Prod.fst =
      if q ∈ entries.map Prod.fst then entries.map Prod.fst else entries.map Prod.fst ++ [q] := by
  induction entries with
  | nil => simp [setEntry]
  | cons y ys ih =>
    by_cases hy : y.1 = q
    · simp [setEntry, hy]
    · rw [setEntry, if_neg hy, List.map_cons, ih]
      simp only [List.map_cons, List.mem_cons, Ne.symm hy, false_or]
      split <;> simp

theorem IsTree.put (ht : fs.IsTree) {e : Entry} (hq : ∀ name ∈ q, IsPlain name)
    (habove : fs.find? q.dropLast = some .directory) (h : fs.find? q ≠ some .directory) :
    (fs.put q e).IsTree where
  nodup := by
    change ((setEntry fs.entries q e).map Prod.fst).Nodup
    rw [keys_setEntry]
    split
    · exact ht.nodup
    · next hmem => simpa [List.nodup_append] using ⟨ht.nodup, fun a b hab => by
        rintro rfl
        exact hmem (List.mem_map_of_mem hab)⟩
  plain x hx := by
    rcases mem_setEntry hx with rfl | hx
    · exact hq
    · exact ht.plain x hx
  rooted x hx := by
    refine find?_put_directory fs e h ?_
    rcases mem_setEntry hx with rfl | hx
    · exact habove
    · exact ht.rooted x hx

/-! ## Places of paths -/

theorem plain_step (hq : ∀ name ∈ q, IsPlain name) {name : Text} (h : IsPart name) :
    ∀ n ∈ step q name, IsPlain n := by
  intro n hn
  rw [step] at hn
  split at hn
  · exact hq n (List.dropLast_subset q hn)
  · next hup =>
    rcases List.mem_append.1 hn with hn | hn
    · exact hq n hn
    · rw [List.mem_singleton.1 hn]
      exact ⟨h, hup⟩

theorem plain_foldl_step {names : List Text} (hq : ∀ name ∈ q, IsPlain name)
    (h : ∀ name ∈ names, IsPart name) : ∀ n ∈ names.foldl step q, IsPlain n := by
  induction names generalizing q with
  | nil => exact hq
  | cons name names ih =>
    exact ih (plain_step hq (h name List.mem_cons_self)) fun n hn =>
      h n (List.mem_cons_of_mem name hn)

theorem plain_home (fs : Files) : ∀ name ∈ fs.home, IsPlain name :=
  plain_foldl_step (by simp) (proper_ofText fs.directory)

theorem plain_resolve (fs : Files) (h : p.Proper) : ∀ name ∈ fs.resolve p, IsPlain name := by
  refine plain_foldl_step ?_ h
  rw [start]
  split
  · simp
  · exact plain_home fs

theorem find?_start (fs : Files) (p : Path) : fs.find? (fs.start p) = some .directory := by
  refine find?_of_prefix_home ?_
  rw [start]
  split
  · exact List.nil_prefix
  · exact List.prefix_rfl

/-- In a tree, a walk ends in a directory. -/
theorem IsTree.above_of_follow (ht : fs.IsTree) {names : List Text} {r : Place}
    (hq : fs.find? q.dropLast = some .directory) (h : fs.follow q names = .ok r) :
    fs.find? r.dropLast = some .directory := by
  induction names generalizing q with
  | nil =>
    cases h
    exact hq
  | cons name names ih =>
    obtain ⟨hdir, h⟩ := follow_cons_eq_ok_iff.1 h
    refine ih ?_ h
    rw [step]
    split
    · exact ht.above hq
    · rwa [List.dropLast_concat]

theorem IsTree.above_of_locate (ht : fs.IsTree) (h : fs.locate p = .ok q) :
    fs.find? q.dropLast = some .directory :=
  ht.above_of_follow (ht.above (find?_start fs p)) h

theorem IsTree.write (ht : fs.IsTree) (hp : p.Proper) (h : fs.write p content = .ok gs) :
    gs.IsTree := by
  obtain ⟨-, habove, hopened, rfl⟩ := write_eq_ok_iff.1 h
  exact ht.put (plain_resolve fs hp) habove hopened

/-! ## Making directories -/

theorem makeDirectory_ok (ht : fs.IsTree) (hp : p.Proper) (h : fs.makeDirectory p = .ok gs) :
    gs.IsTree ∧ Grown fs gs := by
  rw [makeDirectory] at h
  cases hl : fs.locate p with
  | error f => simp [hl] at h
  | ok q =>
    have habove := ht.above_of_locate hl
    obtain rfl := eq_of_locate hl
    cases hf : fs.find? (fs.resolve p) with
    | some e =>
      cases e with
      | file c => simp [hl, hf] at h
      | directory =>
        obtain rfl : fs = gs := by simpa [hl, hf] using h
        exact ⟨ht, .refl fs⟩
    | none =>
      obtain rfl : fs.put (fs.resolve p) .directory = gs := by simpa [hl, hf] using h
      have hopened : fs.find? (fs.resolve p) ≠ some .directory := by simp [hf]
      refine ⟨ht.put (plain_resolve fs hp) habove hopened, rfl,
        fun q => find?_put_directory fs _ hopened, fun q c => ?_⟩
      rw [find?_put fs _ hopened]
      split
      · next hq => simp [hq, hf]
      · rfl

theorem makeUpTo_ok (height : Nat) (ht : fs.IsTree) (hp : p.Proper)
    (h : fs.makeUpTo height p = .ok gs) : gs.IsTree ∧ Grown fs gs := by
  induction height generalizing p gs with
  | zero => exact makeDirectory_ok ht hp h
  | succ height ih =>
    rw [makeUpTo] at h
    split at h
    · cases hup : fs.makeUpTo height p.parent with
      | error f => simp [hup, bind, Except.bind] at h
      | ok hs =>
        obtain ⟨hths, hgrown⟩ := ih hp.parent hup
        obtain ⟨htgs, hgrown'⟩ :=
          makeDirectory_ok hths hp (by simpa [hup, bind, Except.bind] using h)
        exact ⟨htgs, hgrown.trans hgrown'⟩
    · exact makeDirectory_ok ht hp h

theorem makeDirectories_ok (ht : fs.IsTree) (hp : p.Proper) (h : fs.makeDirectories p = .ok gs) :
    gs.IsTree ∧ Grown fs gs :=
  makeUpTo_ok p.parts.length ht hp h

/-! ## What is below a directory -/

theorem mem_below {names : List Text} :
    names ∈ fs.below q ↔ names ≠ [] ∧ ∃ e, (q ++ names, e) ∈ fs.entries := by
  simp only [below, List.mem_filterMap, Option.ite_none_right_eq_some, Bool.and_eq_true,
    Bool.not_eq_true', List.isEmpty_eq_false_iff, List.isPrefixOf_iff_prefix, Option.some.injEq]
  constructor
  · rintro ⟨⟨r, e⟩, hmem, ⟨⟨more, rfl⟩, hne⟩, rfl⟩
    rw [List.drop_left] at hne ⊢
    exact ⟨hne, e, hmem⟩
  · rintro ⟨hne, e, hmem⟩
    refine ⟨(q ++ names, e), hmem, ⟨List.prefix_append q names, ?_⟩, List.drop_left⟩
    rwa [List.drop_left]

theorem IsTree.nodup_below (ht : fs.IsTree) (q : Place) : (fs.below q).Nodup := by
  have hkeys : fs.entries.Pairwise fun a b => a.1 ≠ b.1 := List.pairwise_map.1 ht.nodup
  refine List.pairwise_filterMap.2 (hkeys.imp fun {a b} hab names ha more hb hnames => hab ?_)
  simp only [Option.ite_none_right_eq_some, Bool.and_eq_true, Option.some.injEq,
    List.isPrefixOf_iff_prefix] at ha hb
  obtain ⟨⟨⟨r, hr⟩, -⟩, rfl⟩ := ha
  obtain ⟨⟨⟨s, hs⟩, -⟩, rfl⟩ := hb
  rw [← hr, ← hs, List.drop_left, List.drop_left] at hnames
  rw [← hr, ← hs, hnames]

end InlineBinding.Files
