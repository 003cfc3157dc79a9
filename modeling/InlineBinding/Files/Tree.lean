import InlineBinding.Files.Path
import InlineBinding.Settings.Source
import InlineBinding.Text.Quoted
import InlineBinding.Text.Utf8

/-!
# Files

Files and directories by place. A path leads to a place name by name, from the root or from the
working directory: everything before its last name has to be a directory. What cannot be done is
told apart by its cause.

There are files and directories, and nothing else: no links, no permissions, no limits to names or
sizes, and nobody else who changes anything.
-/
namespace InlineBinding
open Text (Bytes)

namespace Files

/-- A file of settings is known by what it assigns. -/
inductive Content where
  | bytes (b : Bytes)
  | settings (s : Settings.Source)

inductive Entry where
  | file (content : Content)
  | directory

inductive Fault where
  | missing
  | present
  | notDirectory
  | isDirectory
  deriving DecidableEq

def Fault.number : Fault → Nat
  | missing => 2
  | present => 17
  | notDirectory => 20
  | isDirectory => 21

def Fault.reason : Fault → Text
  | missing => "No such file or directory".toList
  | present => "File exists".toList
  | notDirectory => "Not a directory".toList
  | isDirectory => "Is a directory".toList

/-- A fault and the path where it is, as it was written. -/
structure Failure where
  fault : Fault
  path : Text
  deriving DecidableEq

def Failure.message (f : Failure) : Text :=
  "[Errno ".toList ++ Text.digits f.fault.number ++ "] ".toList ++ f.fault.reason ++ ": ".toList ++
    Text.quoted f.path

end Files

/-- The names that lead from the root to a file or a directory, without detours. -/
abbrev Files.Place := List Text

/-- `directory` is the absolute path of the working directory. -/
structure Files where
  directory : Text
  entries : List (Files.Place × Files.Entry)

namespace Files

def empty (directory : Text) : Files := ⟨directory, []⟩

/-- One name further from a directory; two points go back, and the root lies above itself. -/
def step (p : Place) (name : Text) : Place :=
  if name = "..".toList then p.dropLast else p ++ [name]

/-- The place of the working directory. -/
def home (fs : Files) : Place := (Path.ofText fs.directory).parts.foldl step []

/-- What is at a place. The working directory and those above it are there. -/
def find? (fs : Files) (p : Place) : Option Entry :=
  if p.isPrefixOf fs.home then some .directory else fs.entries.lookup p

/-- Where a path begins. -/
def start (fs : Files) (p : Path) : Place := if p.absolute then [] else fs.home

/-- Where a path leads when everything on the way is a directory. -/
def resolve (fs : Files) (p : Path) : Place := p.parts.foldl step (fs.start p)

/-- How a place is called: from the working directory when it lies there. -/
def pathTo (fs : Files) (p : Place) : Path :=
  if fs.home.isPrefixOf p then ⟨false, p.drop fs.home.length⟩ else ⟨true, p⟩

def asDirectory (fs : Files) (p : Place) : Except Fault Place :=
  match fs.find? p with
  | some .directory => .ok p
  | some (.file _) => .error .notDirectory
  | none => .error .missing

/-- Follows names from a place that need not be a directory when no name is left. -/
def follow (fs : Files) : Place → List Text → Except Fault Place
  | p, [] => .ok p
  | p, name :: names => do
    let p ← fs.asDirectory p
    follow fs (step p name) names

def locate (fs : Files) (p : Path) : Except Fault Place := fs.follow (fs.start p) p.parts

def stat (fs : Files) (p : Path) : Except Fault Entry := do
  match fs.find? (← fs.locate p) with
  | some e => .ok e
  | none => .error .missing

def isDirectory (fs : Files) (p : Path) : Bool := fs.stat p matches .ok .directory

def isFile (fs : Files) (p : Path) : Bool := fs.stat p matches .ok (.file _)

def exists? (fs : Files) (p : Path) : Bool := fs.stat p matches .ok _

def read (fs : Files) (p : Path) : Except Fault Content := do
  match ← fs.stat p with
  | .file c => .ok c
  | .directory => .error .isDirectory

/-- A new entry goes last, a known one keeps its place. -/
def setEntry (entries : List (Place × Entry)) (p : Place) (e : Entry) : List (Place × Entry) :=
  match entries with
  | [] => [(p, e)]
  | x :: xs => if x.1 = p then (p, e) :: xs else x :: setEntry xs p e

@[simp] theorem lookup_setEntry_self (entries : List (Place × Entry)) (p : Place) (e : Entry) :
    (setEntry entries p e).lookup p = some e := by
  induction entries with
  | nil => simp [setEntry]
  | cons x xs ih =>
    obtain ⟨q, d⟩ := x
    by_cases h : q = p
    · simp [setEntry, h]
    · have : (p == q) = false := by simpa using fun h' : p = q => h h'.symm
      simpa [setEntry, h, List.lookup_cons, this] using ih

theorem lookup_setEntry_of_ne (entries : List (Place × Entry)) {p q : Place} (e : Entry)
    (h : q ≠ p) : (setEntry entries p e).lookup q = entries.lookup q := by
  induction entries with
  | nil =>
    have : (q == p) = false := by simpa using h
    simp [setEntry, List.lookup_cons, this]
  | cons x xs ih =>
    obtain ⟨r, d⟩ := x
    by_cases hr : r = p
    · have : (q == p) = false := by simpa using h
      simp [setEntry, hr, List.lookup_cons, this]
    · by_cases hq : q = r
      · simp [setEntry, hr, hq]
      · have : (q == r) = false := by simpa using hq
        simpa [setEntry, hr, List.lookup_cons, this] using ih

def put (fs : Files) (p : Place) (e : Entry) : Files :=
  { fs with entries := setEntry fs.entries p e }

@[simp] theorem directory_put (fs : Files) (p : Place) (e : Entry) :
    (fs.put p e).directory = fs.directory := rfl

@[simp] theorem home_put (fs : Files) (p : Place) (e : Entry) : (fs.put p e).home = fs.home := rfl

/-- Setting one place leaves all others as they are. -/
theorem find?_put_of_ne (fs : Files) {p q : Place} (e : Entry) (h : q ≠ p) :
    (fs.put p e).find? q = fs.find? q := by
  have hlookup : (fs.put p e).entries.lookup q = fs.entries.lookup q :=
    lookup_setEntry_of_ne fs.entries e h
  simp only [find?, home_put, hlookup]

theorem find?_put_self (fs : Files) {p : Place} (e : Entry) (h : p.isPrefixOf fs.home = false) :
    (fs.put p e).find? p = some e := by
  have hlookup : (fs.put p e).entries.lookup p = some e := lookup_setEntry_self fs.entries p e
  simp [find?, h, hlookup]

/-- What is at a path, whatever is on the way. -/
def set (fs : Files) (p : Path) (e : Entry) : Files := fs.put (fs.resolve p) e

/-- Writes a file in a directory that is there. -/
def write (fs : Files) (p : Path) (content : Content) : Except Fault Files := do
  let place ← fs.locate p
  let _ ← fs.asDirectory place.dropLast
  match fs.find? place with
  | some .directory => .error .isDirectory
  | _ => .ok (fs.put place (.file content))

/-! ## Paths as they are written

No path is empty, and one that ends with a slash names a directory. -/

def endsWithSlash (t : Text) : Bool := t.getLast? = some '/'

def statAt (fs : Files) (t : Text) : Except Fault Entry := do
  if t.isEmpty then .error .missing
  else
    match ← fs.stat (Path.ofText t) with
    | .file c => if endsWithSlash t then .error .notDirectory else .ok (.file c)
    | .directory => .ok .directory

def readAt (fs : Files) (t : Text) : Except Fault Content := do
  match ← fs.statAt t with
  | .file c => .ok c
  | .directory => .error .isDirectory

def writeAt (fs : Files) (t : Text) (content : Content) : Except Fault Files := do
  if t.isEmpty then .error .missing
  else
    let written ← fs.write (Path.ofText t) content
    if endsWithSlash t then .error .isDirectory else .ok written

/-! ## Directories -/

/-- A directory that is there already is no fault. -/
def makeDirectory (fs : Files) (p : Path) : Except Failure Files :=
  match fs.locate p with
  | .error f => .error ⟨f, p.render⟩
  | .ok place =>
    match fs.find? place with
    | some .directory => .ok fs
    | some (.file _) => .error ⟨.present, p.render⟩
    | none => .ok (fs.put place .directory)

/-- Makes a directory, and first those above it when they are missing. -/
def makeUpTo (fs : Files) : (height : Nat) → Path → Except Failure Files
  | 0, p => fs.makeDirectory p
  | height + 1, p =>
    match fs.makeDirectory p with
    | .error ⟨.missing, _⟩ => do (← makeUpTo fs height p.parent).makeDirectory p
    | r => r

def makeDirectories (fs : Files) (p : Path) : Except Failure Files := fs.makeUpTo p.parts.length p

/-- The names of everything below a directory. -/
def below (fs : Files) (p : Place) : List (List Text) :=
  fs.entries.filterMap fun e =>
    let names := e.1.drop p.length
    if p.isPrefixOf e.1 && !names.isEmpty then some names else none

/-- Files of bytes that are new or different, by path. -/
def changes (before after : Files) : List (Path × Bytes) :=
  after.entries.filterMap fun e =>
    match e.2, before.find? e.1 with
    | .file (.bytes b), some (.file (.bytes b')) =>
      if b = b' then none else some (after.pathTo e.1, b)
    | .file (.bytes b), _ => some (after.pathTo e.1, b)
    | _, _ => none

end Files
end InlineBinding
