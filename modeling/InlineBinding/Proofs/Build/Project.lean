import InlineBinding.Build
import InlineBinding.Proofs.Files.Tree
import InlineBinding.Proofs.Runs
import InlineBinding.Proofs.Text.Utf8
import Mathlib.Data.List.Basic

/-!
# What a build leaves behind

A build reads a file when its turn comes, so it finds there what earlier files have left.  One step
reads and writes one file and leaves the others as they are; a run is described by the files it
built, each with the text it was built from.  That text is the initial one unless an earlier file
has its target there, which happens only when one of the two directories lies inside the other.
-/
namespace InlineBinding.Build
open Files InlineBinding.Path

variable {b : Build} {source output : Path} {fs : Files} {p p' : Progress}

/-! ## One file -/

theorem ofExcept_ok {α : Type} {x : Except Failure α} {a : α} (h : ofExcept x p = .ok a p') :
    x = .ok a ∧ p' = p := by
  cases x with
  | ok b =>
    obtain ⟨rfl, rfl⟩ := pure_ok h
    exact ⟨rfl, rfl⟩
  | error f => cases h

theorem finish_ok {outcome : Transform.Outcome} {text : Text}
    (h : finish outcome p = .ok text p') :
    outcome.result = .ok text ∧ p'.files = p.files ∧ p'.written = p.written := by
  obtain ⟨_, q, hrecord, h⟩ := bind_ok h
  cases hrecord
  cases hresult : outcome.result with
  | ok t =>
    rw [hresult] at h
    obtain ⟨rfl, rfl⟩ := pure_ok h
    exact ⟨rfl, rfl, rfl⟩
  | error f =>
    rw [hresult] at h
    cases h

/-- The file at a path is read and transformed if its extension is accepted. -/
theorem file_ok {path : Text} {result : Option Text} (h : b.file path p = .ok result p') :
    p'.files = p.files ∧ p'.written = p.written ∧
      match result with
      | none => b.accepts (ofText path) = false
      | some text => b.accepts (ofText path) = true ∧ ∃ document,
          readText p.files path = .ok document ∧ (b.transform document).result = .ok text := by
  rw [file] at h
  split at h
  · next haccepts =>
    rw [get_bind] at h
    obtain ⟨document, q, hread, hfinish⟩ := bind_ok h
    obtain ⟨hread, rfl⟩ := ofExcept_ok hread
    obtain ⟨text, r, hfinish, hpure⟩ := bind_ok hfinish
    obtain ⟨hresult, hfiles, hwritten⟩ := finish_ok hfinish
    obtain ⟨rfl, rfl⟩ := pure_ok hpure
    exact ⟨hfiles, hwritten, haccepts, document, hread, hresult⟩
  · next haccepts =>
    obtain ⟨rfl, rfl⟩ := pure_ok h
    exact ⟨rfl, rfl, by simpa using haccepts⟩

theorem writeText_ok {target : Path} {text : Text} (h : writeText target text p = .ok () p') :
    p'.written = p.written ∧ ∃ made, p.files.makeDirectories target.parent = .ok made ∧
      made.write target (.bytes (Text.Utf8.encode text)) = .ok p'.files := by
  rw [writeText, get_bind] at h
  obtain ⟨made, q, hmade, hwrites⟩ := bind_ok h
  obtain ⟨hmade, rfl⟩ := ofExcept_ok hmade
  rw [modify_bind] at hwrites
  have hdirs : q.files.makeDirectories target.parent = .ok made := by
    cases hd : q.files.makeDirectories target.parent with
    | error f =>
      rw [hd] at hmade
      cases hmade
    | ok gs =>
      rw [hd] at hmade
      cases hmade
      rfl
  cases hwrite : made.write target (.bytes (Text.Utf8.encode text)) with
  | error f =>
    rw [hwrite] at hwrites
    cases hwrites
  | ok files =>
    rw [hwrite] at hwrites
    cases hwrites
    exact ⟨rfl, made, hdirs, hwrite⟩

/-- What became of one file. -/
structure Built where
  names : List Text
  document : Text
  text : Text

/-- A file was read, transformed and written, and nothing else happened. -/
structure Makes (b : Build) (source output : Path) (x : Built) (p p' : Progress) : Prop where
  isFile : p.files.isFile (source.join x.names) = true
  accepted : b.accepts (ofText (source.join x.names).render) = true
  read : readText p.files (source.join x.names).render = .ok x.document
  transformed : (b.transform x.document).result = .ok x.text
  files : ∃ made, p.files.makeDirectories (output.join x.names).parent = .ok made ∧
    made.write (output.join x.names) (.bytes (Text.Utf8.encode x.text)) = .ok p'.files
  written : p'.written = p.written ++ [output.join x.names]

theorem one_ok {names : List Text} (h : b.one source output names p = .ok () p') :
    (p'.files = p.files ∧ p'.written = p.written ∧
      ¬ (p.files.isFile (source.join names) = true ∧
        b.accepts (ofText (source.join names).render) = true)) ∨
      ∃ x : Built, x.names = names ∧ Makes b source output x p p' := by
  rw [one, get_bind] at h
  by_cases hfile : p.files.isFile (source.join names) = true
  · rw [if_pos hfile] at h
    obtain ⟨result, q, hresult, h⟩ := bind_ok h
    obtain ⟨hfiles, hwritten, hresult⟩ := file_ok hresult
    cases result with
    | none =>
      obtain ⟨-, rfl⟩ := pure_ok h
      exact .inl ⟨hfiles, hwritten, fun h => by simp [hresult] at h⟩
    | some text =>
      obtain ⟨haccepts, document, hread, htransformed⟩ := hresult
      obtain ⟨_, r, hwrite, h⟩ := bind_ok h
      obtain ⟨hr, made, hmade, hwrite⟩ := writeText_ok hwrite
      obtain ⟨_, s, hrecord, h⟩ := bind_ok h
      cases hrecord
      cases h
      refine .inr ⟨⟨names, document, text⟩, rfl, hfile, haccepts, hread, htransformed,
        ⟨made, hfiles ▸ hmade, hwrite⟩, ?_⟩
      simp [hr, hwritten]
  · rw [if_neg hfile] at h
    obtain ⟨-, rfl⟩ := pure_ok h
    exact .inl ⟨rfl, rfl, fun h => hfile h.1⟩

/-! ## Reading below a source -/

theorem readText_eq_ok_iff {path document : Text} : readText fs path = .ok document ↔
    ∃ content, fs.readAt path = .ok content ∧ textOf content = .ok document := by
  rw [readText]
  cases fs.readAt path <;> simp

theorem textOf_encode (t : Text) : textOf (.bytes (Text.Utf8.encode t)) = .ok (Text.unifyLines t) := by
  rw [textOf, Text.Utf8.decode_encode]

/-- Names below a directory. -/
structure Below (names : List Text) : Prop where
  plain : ∀ name ∈ names, IsPlain name
  ne_nil : names ≠ []

theorem Below.proper {names : List Text} (h : Below names) {path : Path} (hp : path.Proper) :
    (path.join names).Proper :=
  hp.join fun name hname => (h.plain name hname).1

theorem Below.parts_ne_nil {names : List Text} (h : Below names) (path : Path) :
    (path.join names).parts ≠ [] := by
  rw [parts_join]
  exact fun he => h.ne_nil (List.append_eq_nil_iff.1 he).2

/-- A source that is there, in a tree. -/
structure Sourced (fs : Files) (source : Path) : Prop where
  tree : fs.IsTree
  proper : source.Proper
  located : fs.locate source = .ok (fs.resolve source)

theorem Sourced.read_iff (h : Sourced fs source) {names : List Text} (hn : Below names)
    {content : Content} : fs.read (source.join names) = .ok content ↔
      fs.find? (fs.resolve source ++ names) = some (.file content) :=
  h.tree.read_join_iff h.located hn.plain

theorem Sourced.isFile_iff (h : Sourced fs source) {names : List Text} (hn : Below names) :
    fs.isFile (source.join names) = true ↔
      ∃ content, fs.find? (fs.resolve source ++ names) = some (.file content) := by
  simp only [Files.isFile_iff, h.read_iff hn]

theorem Sourced.readText_iff (h : Sourced fs source) {names : List Text} (hn : Below names)
    {document : Text} : readText fs (source.join names).render = .ok document ↔
      ∃ content, fs.find? (fs.resolve source ++ names) = some (.file content) ∧
        textOf content = .ok document := by
  simp only [readText_eq_ok_iff, readAt_render fs (hn.proper h.proper) (hn.parts_ne_nil source),
    h.read_iff hn]

/-! ## One file after the other -/

/-- What is built from a source: files whose extension is accepted. -/
def selects (b : Build) (fs : Files) (source : Path) (names : List Text) : Bool :=
  fs.isFile (source.join names) && b.accepts (source.join names)

/-- A file is written where a later one has its source. -/
def Overtakes (fs : Files) (source output : Path) (earlier later : List Text) : Prop :=
  earlier < later ∧ fs.resolve (output.join earlier) = fs.resolve (source.join later)

/-- A target has its new content, and every other file is as it was. -/
structure Placed (source output : Path) (x : Built) (p p' : Progress) : Prop where
  sourced : Sourced p'.files source
  kept : Kept p.files p'.files
  here : p'.files.read (output.join x.names) = .ok (.bytes (Text.Utf8.encode x.text))
  elsewhere : ∀ q, q ≠ p.files.resolve (output.join x.names) → ∀ content,
    p'.files.find? q = some (.file content) ↔ p.files.find? q = some (.file content)

theorem Sourced.of_kept {gs : Files} (h : Sourced fs source) (ht : gs.IsTree) (hk : Kept fs gs) :
    Sourced gs source :=
  ⟨ht, h.proper, by rw [hk.resolve]; exact hk.locate h.located⟩

theorem Makes.placed {x : Built} (h : Makes b source output x p p') (hs : Sourced p.files source)
    (ho : output.Proper) (hx : Below x.names) : Placed source output x p p' := by
  obtain ⟨made, hmade, hwrite⟩ := h.files
  have htarget := hx.proper ho
  obtain ⟨htree, hgrown⟩ := makeDirectories_ok hs.tree htarget.parent hmade
  have hwrote := wrote_of_write hwrite
  have hkept := hgrown.kept.trans hwrote.kept
  refine ⟨hs.of_kept (htree.write htarget hwrite) hkept, hkept, read_of_write hwrite, fun q hq c => ?_⟩
  rw [← hgrown.kept.resolve] at hq
  rw [hwrote.elsewhere q hq, hgrown.files]

/-- What a build has done: the files it built, in their order, and what each was built from. -/
structure Ran (b : Build) (source output : Path) (p p' : Progress) (done : List Built) : Prop where
  sourced : Sourced p'.files source
  kept : Kept p.files p'.files
  written : p'.written = p.written ++ done.map fun x => output.join x.names
  transformed : ∀ x ∈ done, (b.transform x.document).result = .ok x.text
  targets : ∀ x ∈ done,
    p'.files.read (output.join x.names) = .ok (.bytes (Text.Utf8.encode x.text))
  others : ∀ q, (∀ x ∈ done, q ≠ p.files.resolve (output.join x.names)) → ∀ content,
    p'.files.find? q = some (.file content) ↔ p.files.find? q = some (.file content)
  initial : ∀ x ∈ done,
    (∀ y ∈ done, ¬ Overtakes p.files source output y.names x.names) →
      readText p.files (source.join x.names).render = .ok x.document
  overtaken : ∀ x ∈ done, ∀ y ∈ done, Overtakes p.files source output y.names x.names →
    x.document = Text.unifyLines y.text

theorem overtakes_iff_of_kept {fs gs : Files} (h : Kept fs gs) {m n : List Text} :
    Overtakes gs source output m n ↔ Overtakes fs source output m n := by
  simp only [Overtakes, h.resolve]

theorem resolve_join_inj {names more : List Text} (hn : Below names) (hm : Below more)
    (h : fs.resolve (output.join names) = fs.resolve (output.join more)) : names = more := by
  rw [resolve_join hn.plain, resolve_join hm.plain] at h
  exact List.append_cancel_left h

section Cons

variable {q : Progress} {x : Built} {done : List Built}

/-- The text that a later file finds, if its source is not the target just written. -/
theorem Placed.readText_iff (h : Placed source output x p q) (hs : Sourced p.files source)
    {names : List Text} (hn : Below names)
    (hne : p.files.resolve (source.join names) ≠ p.files.resolve (output.join x.names))
    {document : Text} : readText q.files (source.join names).render = .ok document ↔
      readText p.files (source.join names).render = .ok document := by
  rw [resolve_join hn.plain] at hne
  simp only [h.sourced.readText_iff hn, hs.readText_iff hn, h.kept.resolve, h.elsewhere _ hne]

/-- The text that a later file finds, if its source is the target just written. -/
theorem Placed.readText_overtaken (h : Placed source output x p q) {names : List Text}
    (hn : Below names)
    (heq : p.files.resolve (output.join x.names) = p.files.resolve (source.join names))
    {document : Text} (hread : readText q.files (source.join names).render = .ok document) :
    document = Text.unifyLines x.text := by
  obtain ⟨content, hcontent, htext⟩ := (h.sourced.readText_iff hn).1 hread
  have hhere := (read_eq_ok_iff.1 h.here).2
  rw [h.kept.resolve, heq, resolve_join hn.plain, ← h.kept.resolve, hcontent] at hhere
  obtain rfl : content = _ := by simpa using hhere
  rw [textOf_encode] at htext
  exact (Except.ok.inj htext).symm

/-- A file that is built before all others. -/
theorem Makes.ran_cons (hm : Makes b source output x p q) (hs : Sourced p.files source)
    (ho : output.Proper) (hx : Below x.names) (h : Ran b source output q p' done)
    (hdone : ∀ y ∈ done, Below y.names ∧ x.names < y.names) :
    Ran b source output p p' (x :: done) := by
  have hp := hm.placed hs ho hx
  have hapart (y : Built) (hy : y ∈ done) : p.files.resolve (output.join y.names) ≠
      p.files.resolve (output.join x.names) := by
    intro heq
    have hlt := (hdone y hy).2
    rw [resolve_join_inj (hdone y hy).1 hx heq] at hlt
    exact List.lt_irrefl _ hlt
  have hothers (r : Place) (hr : ∀ y ∈ done, r ≠ p.files.resolve (output.join y.names))
      (c : Content) : p'.files.find? r = some (.file c) ↔ q.files.find? r = some (.file c) :=
    h.others r (fun y hy => by rw [hp.kept.resolve]; exact hr y hy) c
  refine ⟨h.sourced, hp.kept.trans h.kept, ?written, ?transformed, ?targets, ?others, ?initial,
    ?overtaken⟩
  case written => rw [h.written, hm.written, List.append_assoc, List.map_cons, List.singleton_append]
  case transformed =>
    intro y hy
    rcases List.mem_cons.1 hy with rfl | hy
    · exact hm.transformed
    · exact h.transformed y hy
  case targets =>
    intro y hy
    rcases List.mem_cons.1 hy with rfl | hy
    · refine h.kept.read hp.here (hothers _ (fun z hz => ?_) _)
      rw [hp.kept.resolve]
      exact (hapart z hz).symm
    · exact h.targets y hy
  case others =>
    intro r hr c
    rw [hothers r fun y hy => hr y (List.mem_cons_of_mem x hy)]
    exact hp.elsewhere r (hr x List.mem_cons_self) c
  case initial =>
    intro y hy hfirst
    rcases List.mem_cons.1 hy with rfl | hy
    · exact hm.read
    · have hne : p.files.resolve (source.join y.names) ≠ p.files.resolve (output.join x.names) :=
        fun heq => hfirst x List.mem_cons_self ⟨(hdone y hy).2, heq.symm⟩
      refine (hp.readText_iff hs (hdone y hy).1 hne).1 (h.initial y hy fun z hz => ?_)
      rw [overtakes_iff_of_kept hp.kept]
      exact hfirst z (List.mem_cons_of_mem x hz)
  case overtaken =>
    intro y hy z hz hover
    rcases List.mem_cons.1 hy with rfl | hyd
    · rcases List.mem_cons.1 hz with rfl | hzd
      · exact absurd hover.1 (List.lt_irrefl _)
      · exact absurd hover.1 (List.lt_asymm (hdone z hzd).2)
    · rcases List.mem_cons.1 hz with rfl | hzd
      · refine hp.readText_overtaken (hdone y hyd).1 hover.2 (h.initial y hyd fun w hw => ?_)
        rw [overtakes_iff_of_kept hp.kept]
        exact fun hw' => hapart w hw (hw'.2.trans hover.2.symm)
      · exact h.overtaken y hyd z hzd ((overtakes_iff_of_kept hp.kept).2 hover)

end Cons

theorem Ran.nil (hs : Sourced p.files source) : Ran b source output p p [] where
  sourced := hs
  kept := .refl p.files
  written := by simp
  transformed := by simp
  targets := by simp
  others := fun _ _ _ => Iff.rfl
  initial := by simp
  overtaken := by simp

theorem Ran.of_idle {q : Progress} {done : List Built} (hfiles : q.files = p.files)
    (hwritten : q.written = p.written) (h : Ran b source output q p' done) :
    Ran b source output p p' done := by
  obtain ⟨files, written, events⟩ := p
  obtain rfl : q.files = files := hfiles
  obtain rfl : q.written = written := hwritten
  exact ⟨h.sourced, h.kept, h.written, h.transformed, h.targets, h.others, h.initial, h.overtaken⟩

/-- The files of a list are built in its order. -/
theorem ran_of_forM {names : List (List Text)} (hs : Sourced p.files source) (ho : output.Proper)
    (hbelow : ∀ n ∈ names, Below n)
    (hthere : ∀ n ∈ names, p.files.find? (p.files.resolve source ++ n) ≠ none)
    (hsorted : names.Pairwise (· < ·)) (h : names.forM (b.one source output) p = .ok () p') :
    ∃ done, done.map Built.names = names.filter (b.selects p.files source) ∧
      Ran b source output p p' done := by
  induction names generalizing p with
  | nil =>
    obtain ⟨-, rfl⟩ := pure_ok h
    exact ⟨[], rfl, .nil hs⟩
  | cons n names ih =>
    obtain ⟨q, hone, hrest⟩ := forM_cons_ok h
    obtain ⟨hlt, hsorted⟩ := List.pairwise_cons.1 hsorted
    obtain ⟨hn, hmore⟩ := List.forall_mem_cons.1 hbelow
    obtain ⟨-, hthere⟩ := List.forall_mem_cons.1 hthere
    have hselects : b.selects p.files source n = true ↔
        p.files.isFile (source.join n) = true ∧
          b.accepts (ofText (source.join n).render) = true := by
      rw [ofText_render (hn.proper hs.proper), selects, Bool.and_eq_true]
    rcases one_ok hone with ⟨hfiles, hwritten, hidle⟩ | ⟨x, hx, hmakes⟩
    · rw [← hfiles] at hs hthere
      obtain ⟨done, hnames, hran⟩ := ih hs hmore hthere hsorted hrest
      refine ⟨done, ?_, hran.of_idle hfiles hwritten⟩
      rw [List.filter_cons_of_neg (by rwa [hselects]), hnames, hfiles]
    · rw [← hx] at hn hlt hselects
      have hp := hmakes.placed hs ho hn
      have hthere' (m : List Text) (hm : m ∈ names) :
          q.files.find? (q.files.resolve source ++ m) ≠ none := by
        rw [hp.kept.resolve]
        exact hp.kept.find?_ne_none (hthere m hm)
      obtain ⟨done, hnames, hran⟩ := ih hp.sourced hmore hthere' hsorted hrest
      have hdone (y : Built) (hy : y ∈ done) : y.names ∈ names := by
        have hmem : y.names ∈ done.map Built.names := List.mem_map_of_mem hy
        rw [hnames] at hmem
        exact (List.mem_filter.1 hmem).1
      refine ⟨x :: done, ?_, hmakes.ran_cons hs ho hn hran fun y hy =>
        ⟨hmore _ (hdone y hy), hlt _ (hdone y hy)⟩⟩
      rw [← hx, List.filter_cons_of_pos (hselects.2 ⟨hmakes.isFile, hmakes.accepted⟩),
        List.map_cons, hnames]
      refine congrArg _ (List.filter_congr fun m hm => ?_)
      have hisFile : q.files.isFile (source.join m) = p.files.isFile (source.join m) := by
        rw [Bool.eq_iff_iff, hp.sourced.isFile_iff (hmore m hm), hs.isFile_iff (hmore m hm),
          hp.kept.resolve]
        exact hp.kept.file_iff (hthere m hm)
      rw [selects, selects, hisFile]

/-! ## The whole build -/

theorem mem_namesBelow (h : fs.locate source = .ok (fs.resolve source)) {names : List Text} :
    names ∈ namesBelow fs source ↔
      names ≠ [] ∧ ∃ e, (fs.resolve source ++ names, e) ∈ fs.entries := by
  simp only [namesBelow, h, List.mem_map, (sort_perm _).mem_iff]
  rw [← mem_below]
  constructor
  · rintro ⟨_, ⟨m, hm, rfl⟩, rfl⟩
    exact hm
  · exact fun hm => ⟨_, ⟨names, hm, rfl⟩, rfl⟩

theorem namesBelow_pairwise (h : Sourced fs source) :
    (namesBelow fs source).Pairwise (· < ·) := by
  simp only [namesBelow, h.located]
  refine sort_strictly ?_
  rw [List.map_map]
  exact (List.map_id _).symm ▸ h.tree.nodup_below (fs.resolve source)

/-- What is selected are the files below the source with an accepted extension. -/
theorem mem_filter_namesBelow (h : Sourced fs source) {names : List Text} :
    names ∈ (namesBelow fs source).filter (b.selects fs source) ↔
      Below names ∧ b.selects fs source names = true := by
  rw [List.mem_filter, mem_namesBelow h.located, and_congr_left_iff]
  intro hselects
  constructor
  · rintro ⟨hne, e, he⟩
    exact ⟨fun n hn => h.tree.plain _ he n (List.mem_append_right _ hn), hne⟩
  · intro hn
    rw [selects, Bool.and_eq_true, h.isFile_iff hn] at hselects
    obtain ⟨⟨c, hc⟩, -⟩ := hselects
    refine ⟨hn.ne_nil, .file c, (mem_of_find? hc).resolve_left fun hhome => ?_⟩
    rw [find?_of_prefix_home hhome] at hc
    cases hc

theorem run_eq_none {build : BuildM Unit} (h : run fs build = (none, p)) :
    build ⟨fs, [], []⟩ = .ok () p := by
  rw [run] at h
  cases hbuild : build.run ⟨fs, [], []⟩ with
  | ok u q =>
    rw [hbuild] at h
    cases h
    exact hbuild
  | error f q =>
    rw [hbuild] at h
    cases h

theorem project_ok {extensions options : Setting} (h : project extensions options source output p =
    .ok () p') : p.files.isDirectory source = true ∧ ∃ b, of extensions options = .ok b ∧
      (namesBelow p.files source).forM (b.one source output) p = .ok () p' := by
  rw [project, get_bind] at h
  by_cases hdir : p.files.isDirectory source = true
  · rw [if_pos hdir] at h
    obtain ⟨b, q, hof, hforM⟩ := bind_ok h
    obtain ⟨hb, rfl⟩ := ofExcept_ok hof
    exact ⟨hdir, b, hb, hforM⟩
  · rw [if_neg hdir] at h
    cases h

/-- Directories that are the same, or none of which is inside the other. -/
def Apart (fs : Files) (source output : Path) : Prop :=
  fs.resolve source = fs.resolve output ∨
    ¬ fs.resolve source <+: fs.resolve output ∧ ¬ fs.resolve output <+: fs.resolve source

theorem not_overtakes_of_apart (h : Apart fs source output) {m n : List Text} (hm : Below m)
    (hn : Below n) : ¬ Overtakes fs source output m n := by
  rintro ⟨hlt, heq⟩
  rw [resolve_join hm.plain, resolve_join hn.plain] at heq
  rcases h with hsame | ⟨hsource, houtput⟩
  · rw [hsame] at heq
    rw [List.append_cancel_left heq] at hlt
    exact List.lt_irrefl _ hlt
  · have hprefix : fs.resolve source <+: fs.resolve output ++ m := heq ▸ List.prefix_append _ n
    exact (List.prefix_or_prefix_of_prefix hprefix (List.prefix_append _ m)).elim hsource houtput

/-- A build writes each accepted file below the source, in order, to its place below the output,
and changes no other file.  A target holds the transformed text that its source had when its turn
came: the initial one, or the one that was written there for an earlier file. -/
theorem run_mirrors {extensions options : Setting} {source output : Text} (hfs : fs.IsTree)
    (h : run fs (project extensions options (ofText source) (ofText output)) = (none, p)) :
    ∃ (b : Build) (done : List Built), of extensions options = .ok b ∧
      (done.map Built.names).Pairwise (· < ·) ∧
      (∀ names, names ∈ done.map Built.names ↔
        Below names ∧ b.selects fs (ofText source) names = true) ∧
      p.written = (done.map fun x => (ofText output).join x.names) ∧
      (∀ x ∈ done, (b.transform x.document).result = .ok x.text ∧
        p.files.read ((ofText output).join x.names) = .ok (.bytes (Text.Utf8.encode x.text)) ∧
        ((∀ y ∈ done, ¬ Overtakes fs (ofText source) (ofText output) y.names x.names) →
          readText fs ((ofText source).join x.names).render = .ok x.document) ∧
        ∀ y ∈ done, Overtakes fs (ofText source) (ofText output) y.names x.names →
          x.document = Text.unifyLines y.text) ∧
      (∀ q, (∀ x ∈ done, q ≠ fs.resolve ((ofText output).join x.names)) → ∀ content,
        p.files.find? q = some (.file content) ↔ fs.find? q = some (.file content)) ∧
      (Apart fs (ofText source) (ofText output) → ∀ x ∈ done,
        readText fs ((ofText source).join x.names).render = .ok x.document) := by
  obtain ⟨hdir, b, hb, hforM⟩ := project_ok (run_eq_none h)
  have hs : Sourced fs (ofText source) :=
    ⟨hfs, proper_ofText source, (isDirectory_iff.1 hdir).1⟩
  have hbelow (n : List Text) (hn : n ∈ namesBelow fs (ofText source)) : Below n ∧
      fs.find? (fs.resolve (ofText source) ++ n) ≠ none := by
    obtain ⟨hne, e, he⟩ := (mem_namesBelow hs.located).1 hn
    exact ⟨⟨fun m hm => hfs.plain _ he m (List.mem_append_right _ hm), hne⟩,
      find?_ne_none_of_mem he⟩
  obtain ⟨done, hnames, hran⟩ := ran_of_forM hs (proper_ofText output)
    (fun n hn => (hbelow n hn).1) (fun n hn => (hbelow n hn).2) (namesBelow_pairwise hs) hforM
  have hmem (n : List Text) : n ∈ done.map Built.names ↔
      Below n ∧ b.selects fs (ofText source) n = true := by
    rw [hnames]
    exact mem_filter_namesBelow hs
  have hdone (x : Built) (hx : x ∈ done) : Below x.names :=
    ((hmem x.names).1 (List.mem_map_of_mem hx)).1
  refine ⟨b, done, hb, ?_, hmem, by simpa using hran.written, fun x hx => ⟨hran.transformed x hx,
    hran.targets x hx, hran.initial x hx, hran.overtaken x hx⟩, hran.others, fun hapart x hx =>
      hran.initial x hx fun y hy => not_overtakes_of_apart hapart (hdone y hy) (hdone x hx)⟩
  rw [hnames]
  exact (namesBelow_pairwise hs).sublist List.filter_sublist

/-- The target of one file is the source of another: the output is a directory of the source. -/
def overlapping : Files where
  directory := ['/']
  entries := [
    (["src".toList], .directory),
    (["src".toList, "a.html".toList], .file (.bytes (Text.Utf8.encode "\x7bx\x7d".toList))),
    (["src".toList, "n".toList], .directory),
    (["src".toList, "n".toList, "a.html".toList],
      .file (.bytes (Text.Utf8.encode "\x7by\x7d".toList)))]

theorem isTree_overlapping : overlapping.IsTree where
  nodup := by decide
  plain e he := by
    have hplain : ∀ q ∈ overlapping.entries.map Prod.fst, ∀ name ∈ q, IsPlain name := by decide
    exact hplain e.1 (List.mem_map_of_mem he)
  rooted e he := by
    simp only [overlapping, List.mem_cons, List.not_mem_nil, or_false] at he
    rcases he with rfl | rfl | rfl | rfl <;> rfl

theorem namesBelow_overlapping : namesBelow overlapping (ofText "src".toList) =
    [["a.html".toList], ["n".toList], ["n".toList, "a.html".toList]] := by
  have hlocate : overlapping.locate (ofText "src".toList) = .ok ["src".toList] := rfl
  simp only [namesBelow, hlocate]
  rw [sort, List.mergeSort_of_pairwise (by decide)]
  rfl

theorem run_overlapping : ∃ p,
    run overlapping (project (.list [.text ".html".toList]) .null (ofText "src".toList)
      (ofText "src/n".toList)) = (none, p) ∧
    p.written = [ofText "src/n/a.html".toList, ofText "src/n/n/a.html".toList] := by
  have hproject : project (.list [.text ".html".toList]) .null (ofText "src".toList)
      (ofText "src/n".toList) ⟨overlapping, [], []⟩ =
        [["a.html".toList], ["n".toList], ["n".toList, "a.html".toList]].forM
          (one ⟨[".html".toList], .default⟩ (ofText "src".toList) (ofText "src/n".toList))
          ⟨overlapping, [], []⟩ := by
    rw [project, get_bind, if_pos (by decide), ← namesBelow_overlapping]
    rfl
  have hwritten : (match [["a.html".toList], ["n".toList], ["n".toList, "a.html".toList]].forM
      (one ⟨[".html".toList], .default⟩ (ofText "src".toList) (ofText "src/n".toList))
      ⟨overlapping, [], []⟩ with
    | .ok _ p => some p.written
    | .error _ _ => none) =
      some [ofText "src/n/a.html".toList, ofText "src/n/n/a.html".toList] := by decide +kernel
  rw [← hproject] at hwritten
  split at hwritten
  · next p hp => exact ⟨p, by rw [run, EStateM.run, hp], Option.some.inj hwritten⟩
  · cases hwritten

/-- The source `src/n/a.html` is lost: what it becomes is made from `src/a.html`. -/
theorem run_mirrors_overlapping : ∃ p, overlapping.IsTree ∧
    run overlapping (project (.list [.text ".html".toList]) .null (ofText "src".toList)
      (ofText "src/n".toList)) = (none, p) ∧
    p.written = [ofText "src/n/a.html".toList, ofText "src/n/n/a.html".toList] ∧
    (Transform.transformDefault .default "\x7bx\x7d".toList).result =
      .ok "<span data-bind=\"text(first):this.x()\">\x7b\x7bx()\x7d\x7d</span>".toList ∧
    (Transform.transformDefault .default "\x7by\x7d".toList).result =
      .ok "<span data-bind=\"text(first):this.y()\">\x7b\x7by()\x7d\x7d</span>".toList ∧
    p.files.read (ofText "src/n/n/a.html".toList) = .ok (.bytes (Text.Utf8.encode
      "<span data-bind=\"text(first):this.x()\">\x7b\x7bx()\x7d\x7d</span>".toList)) := by
  obtain ⟨p, hrun, hwritten⟩ := run_overlapping
  have hx : (Transform.transformDefault .default "\x7bx\x7d".toList).result =
    .ok "<span data-bind=\"text(first):this.x()\">\x7b\x7bx()\x7d\x7d</span>".toList := by
    decide +kernel
  have hagain : (Transform.transformDefault .default
      "<span data-bind=\"text(first):this.x()\">\x7b\x7bx()\x7d\x7d</span>".toList).result =
    .ok "<span data-bind=\"text(first):this.x()\">\x7b\x7bx()\x7d\x7d</span>".toList := by
    decide +kernel
  refine ⟨p, isTree_overlapping, hrun, hwritten, hx, by decide +kernel, ?_⟩
  obtain ⟨b, done, hof, -, -, hdone, hbuilt, -, -⟩ := run_mirrors isTree_overlapping hrun
  obtain rfl : b = ⟨[".html".toList], .default⟩ := (Except.ok.inj hof).symm
  rw [hwritten] at hdone
  obtain ⟨first, rest, rfl, hfirst, hdone⟩ := List.map_eq_cons_iff.1 hdone.symm
  obtain ⟨second, rest, rfl, hsecond, hdone⟩ := List.map_eq_cons_iff.1 hdone
  obtain rfl := List.map_eq_nil_iff.1 hdone
  obtain ⟨names, document, text⟩ := first
  obtain ⟨names', document', text'⟩ := second
  have hbelow (n : List Text) : (ofText "src/n".toList).parts ++ n =
      ["src".toList, "n".toList] ++ n := rfl
  obtain rfl : names = ["a.html".toList] :=
    List.append_cancel_left ((hbelow names).symm.trans (congrArg parts hfirst))
  obtain rfl : names' = ["n".toList, "a.html".toList] :=
    List.append_cancel_left ((hbelow names').symm.trans (congrArg parts hsecond))
  obtain ⟨hfirst, -, hinitial, -⟩ := hbuilt _ List.mem_cons_self
  obtain ⟨hsecond, hread, -, hovertaken⟩ := hbuilt _ (List.mem_cons_of_mem _ List.mem_cons_self)
  obtain rfl : document = "\x7bx\x7d".toList := by
    refine (Except.ok.inj (hinitial fun y hy => ?_)).symm
    have hnames : y.names ∈ [["a.html".toList], ["n".toList, "a.html".toList]] :=
      List.mem_map_of_mem (f := Built.names) hy
    have hne : ∀ n ∈ [["a.html".toList], ["n".toList, "a.html".toList]],
        ¬ n < ["a.html".toList] := by decide
    exact fun h => hne _ hnames h.1
  obtain rfl := Except.ok.inj (hfirst.symm.trans hx)
  have hover : Overtakes overlapping (ofText "src".toList) (ofText "src/n".toList)
      ["a.html".toList] ["n".toList, "a.html".toList] := ⟨by decide, by decide⟩
  obtain rfl := hovertaken _ List.mem_cons_self hover
  obtain rfl := Except.ok.inj (hsecond.symm.trans hagain)
  exact hread

end InlineBinding.Build
