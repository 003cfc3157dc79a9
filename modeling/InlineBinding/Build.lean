import InlineBinding.Files.Tree
import InlineBinding.Options.Resolve
import InlineBinding.Transform

/-!
# Building a directory

A build transforms the files with accepted extensions below a source directory and writes each at
the same place below an output directory. The list of files is made once, before anything is
written; a file is read when its turn comes. What was written before a failure stays.
-/
namespace InlineBinding

structure Build where
  extensions : List Text
  options : Options

namespace Build

inductive Failure where
  /-- Extensions that do not consist of anything. -/
  | notIterable (extensions : Setting)
  /-- An extension that is no text. -/
  | notText (extension : Setting)
  | options (failure : Options.Failure)
  | noSource (path : Path)
  | file (failure : Files.Failure)
  | undecodable (malformed : Text.Utf8.Malformed)
  | binding (failure : Binding.Failure)

def Failure.message : Failure → Text
  | notIterable s => s.notIterable
  | notText s => '\'' :: s.typeName ++ "' object has no attribute 'startswith'".toList
  | options f => f.message
  | noSource p => "Source directory not found: ".toList ++ p.render
  | file f => f.message
  | undecodable m => m.message
  | binding f => f.message

def defaultExtensions : List Setting := [.text ".html".toList]

/-- An extension starts with a point, written or not. -/
def extension : Setting → Except Failure Text
  | .text t => .ok (if t.head? = some '.' then t else '.' :: t)
  | s => .error (.notText s)

/-- The extensions are looked at before the options. -/
def of (extensions options : Setting) : Except Failure Build := do
  match extensions.items? with
  | none => .error (.notIterable extensions)
  | some items =>
    let extensions ← items.mapM extension
    match Options.resolve options with
    | .error f => .error (.options f)
    | .ok o => .ok ⟨extensions, o⟩

def accepts (b : Build) (p : Path) : Bool := b.extensions.contains p.suffix

def transform (b : Build) (document : Text) : Transform.Outcome :=
  Transform.transformDefault b.options document

/-- The text of a file, with line ends of one kind. How a file of settings is written down is not
known here, so it is read as an empty text. -/
def textOf : Files.Content → Except Failure Text
  | .bytes b =>
    match Text.Utf8.decode b with
    | .ok t => .ok (Text.unifyLines t)
    | .error m => .error (.undecodable m)
  | .settings _ => .ok []

def readText (fs : Files) (path : Text) : Except Failure Text :=
  match fs.readAt path with
  | .error fault => .error (.file ⟨fault, path⟩)
  | .ok c => textOf c

/-- How far a build has come. -/
structure Progress where
  files : Files
  written : List Path
  events : List Event

abbrev BuildM := EStateM Failure Progress

def ofExcept {α : Type} : Except Failure α → BuildM α
  | .ok a => pure a
  | .error f => throw f

def record (events : List Event) : BuildM Unit :=
  modify fun p => { p with events := p.events ++ events }

def finish (outcome : Transform.Outcome) : BuildM Text := do
  record outcome.events
  match outcome.result with
  | .ok t => pure t
  | .error f => throw (.binding f)

/-- The transformed text of a file, if its extension is accepted. -/
def file (b : Build) (path : Text) : BuildM (Option Text) := do
  if b.accepts (Path.ofText path) then
    let text ← ofExcept (readText (← get).files path)
    return some (← finish (b.transform text))
  else return none

def writeText (target : Path) (text : Text) : BuildM Unit := do
  let files ← ofExcept (((← get).files.makeDirectories target.parent).mapError .file)
  modify fun p => { p with files := files }
  match files.write target (.bytes (Text.Utf8.encode text)) with
  | .error fault => throw (.file ⟨fault, target.render⟩)
  | .ok files => modify fun p => { p with files := files }

/-- Builds the file with these names below the source. -/
def one (b : Build) (source output : Path) (names : List Text) : BuildM Unit := do
  let path := source.join names
  if (← get).files.isFile path then
    match ← b.file path.render with
    | none => pure ()
    | some text =>
      let target := output.join names
      writeText target text
      record [.built path.render target.render]
      modify fun p => { p with written := p.written ++ [target] }
  else pure ()

/-- The names of everything below a directory, in order. -/
def namesBelow (fs : Files) (source : Path) : List (List Text) :=
  match fs.locate source with
  | .ok place => (Path.sort ((fs.below place).map (⟨false, ·⟩))).map Path.parts
  | .error _ => []

def project (extensions options : Setting) (source output : Path) : BuildM Unit := do
  let fs := (← get).files
  if fs.isDirectory source then
    let b ← ofExcept (of extensions options)
    (namesBelow fs source).forM (b.one source output)
  else throw (.noSource source)

/-- Runs a build on some files: what it did, and the failure that ended it. -/
def run (fs : Files) (build : BuildM Unit) : Option Failure × Progress :=
  match build.run ⟨fs, [], []⟩ with
  | .ok _ p => (none, p)
  | .error f p => (some f, p)

end Build
end InlineBinding
