import InlineBinding.Command.Arguments

/-!
# Help texts

A command describes itself: how it is used, what it does, and its switches.
-/
namespace InlineBinding.Command

structure Description where
  name : Text
  synopsis : Text
  about : List Text
  switches : List Switch
  commands : List (Text × Text)

def lines (ls : List Text) : Text := ls.flatMap fun l => l ++ ['\n']

def indent (l : Text) : Text := if l.isEmpty then [] else ' ' :: ' ' :: l

/-- Two columns, the second one aligned. -/
def columns (rows : List (Text × Text)) : List Text :=
  let width := (rows.map (·.1.length)).foldl max 0
  rows.map fun r => indent (r.1.rightpad width ' ' ++ ' ' :: ' ' :: r.2)

def Switch.label (s : Switch) : Text :=
  let short := match s.short with
    | some c => ['-', c, ',', ' ']
    | none => []
  let value := match s.value with
    | some v => ' ' :: v
    | none => []
  short ++ s.longName ++ value

namespace Description

def usage (d : Description) : Text := "Usage: ".toList ++ d.name ++ ' ' :: d.synopsis

def titled (title : String) (rows : List (Text × Text)) : List Text :=
  if rows.isEmpty then [] else [] :: title.toList :: columns rows

def help (d : Description) : Text :=
  lines (d.usage :: [] :: d.about.map indent ++
    titled "Options:" (d.switches.map fun s => (s.label, s.help)) ++ titled "Commands:" d.commands)

def hint (d : Description) : Text :=
  "Try '".toList ++ d.name ++ " --help' for help.".toList

def failing (message : Text) : Text := "Error: ".toList ++ message

def misused (d : Description) (message : Text) : Text :=
  lines [d.usage, d.hint, [], failing message]

/-- Only an unknown option is followed by the usage of the command. -/
def mistaken (d : Description) (m : Mistake) : Text :=
  match m with
  | .unknown _ => d.misused m.message
  | _ => lines [failing m.message]

end Description

/-! ## The commands -/

def helpSwitch : Switch := ⟨"help".toList, none, none, "Show this message and exit.".toList⟩

def xhtmlSwitch : Switch :=
  ⟨"xhtml".toList, none, none, "Self-close void elements with ' />'".toList⟩

def configSwitch : Switch :=
  ⟨"config".toList, none, some "TEXT".toList, "Path to a bindify.config.py file".toList⟩

def transformAbout : Text := "Compile a single document (use '-' for stdin).".toList

def buildAbout : Text := "Compile every matching file under SOURCE_DIR into OUTPUT_DIR.".toList

def group : Description where
  name := "cli".toList
  synopsis := "[OPTIONS] COMMAND [ARGS]...".toList
  about := [
    "bindify CLI.",
    "",
    "Run 'bindify transform FILE' to compile one document to stdout. Run 'bindify",
    "build SRC OUT' to compile every .html file in a directory tree.",
    "",
    "Options are read from bindify.config.py in the current directory when present."].map (·.toList)
  switches := [
    ⟨"version".toList, none, none, "Show the version and exit.".toList⟩,
    ⟨"verbose".toList, some 'v', none, "Enable debug logging".toList⟩,
    helpSwitch]
  commands := [("build".toList, buildAbout), ("transform".toList, transformAbout)]

def transformCommand : Description where
  name := "cli transform".toList
  synopsis := "[OPTIONS] [FILE]".toList
  about := [transformAbout]
  switches := [
    ⟨"output".toList, some 'o', some "FILENAME".toList, "Output file".toList⟩,
    xhtmlSwitch,
    ⟨"binding-attribute".toList, none, some "TEXT".toList,
      "Attribute that receives binding directives".toList⟩,
    configSwitch,
    helpSwitch]
  commands := []

def buildCommand : Description where
  name := "cli build".toList
  synopsis := "[OPTIONS] SOURCE_DIR OUTPUT_DIR".toList
  about := [buildAbout]
  switches := [
    ⟨"ext".toList, none, some "TEXT".toList, "File extension to transform (repeatable)".toList⟩,
    xhtmlSwitch,
    configSwitch,
    helpSwitch]
  commands := []

def version : Text := "cli, version 0.1.0".toList

end InlineBinding.Command
