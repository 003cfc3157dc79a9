import InlineBinding.Event
import InlineBinding.Files.Tree
import InlineBinding.Options.Resolve

/-!
# Configuration

A configuration is read from a file of settings: every option, and the extensions of a build, has
a variable there that is named like it in capitals. A file that is missing or of another kind
counts as empty; so does one that fails, and then a warning tells why.

Settings are data here, and to load them is not to run a program: nothing is assigned that is not
written down, nothing else happens, and no compiled copy is left beside the file.
-/
namespace InlineBinding

abbrev Config := List (Text × Setting)

namespace Config

def extensionsName : Text := "extensions".toList

def names : List Text := Options.names ++ [extensionsName]

def variableName (name : Text) : Text := name.map Char.toUpper

def ofSource (s : Settings.Source) : Config :=
  names.filterMap fun n => (s.get? (variableName n)).map (n, ·)

def defaultName : Text := "bindify.config.py".toList

def suffix : Text := ".py".toList

/-- Where a file of settings is looked for, and how its place is reported. -/
structure Place where
  path : Path
  shown : Text

def place (fs : Files) : Option Text → Place
  | some t => ⟨Path.ofText t, (Path.ofText t).render⟩
  | none => ⟨Path.ofText defaultName, fs.directory ++ '/' :: defaultName⟩

def absolute (fs : Files) (p : Path) : Text :=
  if p.absolute then p.render else fs.directory ++ '/' :: p.render

/-- The settings at a path, or why there are none. What bytes would assign is not known here, so
they count as a file that assigns nothing. -/
def source (fs : Files) (p : Path) : Except Text Settings.Source :=
  match fs.read p with
  | .error fault => .error (Files.Failure.message ⟨fault, absolute fs p⟩)
  | .ok (.bytes _) => .ok .empty
  | .ok (.settings s) =>
    match s.failure with
    | some reason => .error reason
    | none => .ok s

/-- Only files with the suffix are looked into; a compiled copy that is named itself counts as empty
as well. -/
def load (fs : Files) (path : Option Text) : Config × List Event :=
  let place := place fs path
  if fs.exists? place.path && suffix.isSuffixOf place.path.render then
    match source fs place.path with
    | .ok s => (ofSource s, [])
    | .error reason => ([], [.configFailed place.shown reason])
  else ([], [])

/-- The options, and the extensions unless they are null. It fails with extensions that do not
consist of anything. -/
def split (c : Config) : Except Setting (Config × Option (List Setting)) :=
  let options := c.filter fun e => e.1 ≠ extensionsName
  match c.lookup extensionsName with
  | none | some .null => .ok (options, none)
  | some s =>
    match s.items? with
    | some items => .ok (options, some items)
    | none => .error s

/-- What is set takes the place of what was there. -/
def set (c : Config) (name : Text) (value : Setting) : Config :=
  match c with
  | [] => [(name, value)]
  | e :: es => if e.1 = name then (name, value) :: es else e :: set es name value

end Config
end InlineBinding
