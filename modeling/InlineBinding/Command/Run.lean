import InlineBinding.Build
import InlineBinding.Command.Help
import InlineBinding.Config

/-!
# The command line

A command line is a function from arguments, standard input and files to what is printed, the exit
code, and the files afterwards. Problems with the options or the structure of a document are
reported in a line of their own; other failures end the command and are handed on.
-/
namespace InlineBinding.Command

structure Invocation where
  args : List Text
  input : Text.Bytes
  files : Files

structure Outcome where
  exitCode : Nat
  output : Text
  errors : Text
  files : Files
  failure : Option Build.Failure

namespace Invocation

def done (i : Invocation) (output : Text) : Outcome := ⟨0, output, [], i.files, none⟩

def misused (i : Invocation) (errors : Text) : Outcome := ⟨2, [], errors, i.files, none⟩

end Invocation

/-- What a command has done so far. -/
structure Log where
  verbose : Bool
  events : List Event
  output : Text
  files : Files

namespace Log

def start (verbose : Bool) (fs : Files) : Log := ⟨verbose, [], [], fs⟩

def record (l : Log) (events : List Event) : Log := { l with events := l.events ++ events }

def print (l : Log) (t : Text) : Log := { l with output := l.output ++ t }

def written (l : Log) : Text :=
  lines ((l.events.filter (Event.isLogged l.verbose)).map Event.render)

def success (l : Log) : Outcome := ⟨0, l.output, l.written, l.files, none⟩

def report (l : Log) (message : Text) : Outcome :=
  ⟨1, l.output, l.written ++ lines [Description.failing message], l.files, none⟩

def isReported : Build.Failure → Bool
  | .options (.invalid _) => true
  | .binding (.noWrapper _ _) => true
  | _ => false

def fail (l : Log) (f : Build.Failure) : Outcome :=
  if isReported f then l.report f.message else ⟨1, l.output, l.written, l.files, some f⟩

end Log

/-! ## Settings of a command -/

/-- The configuration with the switches on top of it. -/
def settings (a : Arguments) (c : Config) : Config :=
  let c := if a.has "xhtml" then c.set "xhtml_mode".toList (.bool true) else c
  match a.value? "binding-attribute" with
  | some t => c.set "binding_attribute".toList (.text t)
  | none => c

/-- Loads the configuration that the switches name and goes on with its options and extensions. -/
def configured (a : Arguments) (l : Log)
    (go : Log → Setting → Option (List Setting) → Outcome) : Outcome :=
  let (config, events) := Config.load l.files (a.value? "config")
  let l := l.record events
  match config.split with
  | .error s => l.fail (.notIterable s)
  | .ok (options, extensions) => go l (.object (settings a options)) extensions

/-! ## Arguments -/

/-- What is wrong with a value, after the name of its argument. -/
def invalid (argument : String) (problem : Text) : Text :=
  "Invalid value for '".toList ++ argument.toList ++ "': ".toList ++ problem

def missing (argument : String) : Text := "Missing argument '".toList ++ argument.toList ++ "'.".toList

def extra? : List Text → Option Text
  | [] => none
  | [arg] => some ("Got unexpected extra argument (".toList ++ arg ++ [')'])
  | args => some ("Got unexpected extra arguments (".toList ++ List.intercalate [' '] args ++ [')'])

def dash : Text := ['-']

/-- The input that an argument names. -/
def inputOf (i : Invocation) (arg : Text) : Except Text Files.Content :=
  if arg = dash then .ok (.bytes i.input)
  else match i.files.readAt arg with
    | .ok c => .ok c
    | .error fault => .error (invalid "[FILE]" ('\'' :: arg ++ "': ".toList ++ fault.reason))

def directoryProblem (arg : Text) (problem : String) : Text :=
  "Directory ".toList ++ Text.quoted arg ++ problem.toList

/-- A directory that is read has to be there; one that is written must not be a file. -/
def directoryOf (fs : Files) (argument : String) (required : Bool) :
    Option Text → Except Text Path
  | none => .error (missing argument)
  | some arg =>
    match fs.statAt arg with
    | .ok (.file _) => .error (invalid argument (directoryProblem arg " is a file."))
    | .ok .directory => .ok (Path.ofText arg)
    | .error _ =>
      if required then .error (invalid argument (directoryProblem arg " does not exist."))
      else .ok (Path.ofText arg)

/-! ## The commands -/

/-- Delivers a text; a file is opened only now. -/
def deliver (l : Log) (target text : Text) : Outcome :=
  if target = dash then (l.print text).success
  else match l.files.writeAt target (.bytes (Text.Utf8.encode text)) with
    | .ok fs => { l with files := fs }.success
    | .error fault =>
      l.report ("Could not open file ".toList ++ Text.quoted target ++ ": ".toList ++ fault.reason)

/-- Transforms an input that was opened. -/
def transformInput (a : Arguments) (l : Log) (input : Files.Content) : Outcome :=
  configured a l fun l options _ =>
    match Build.textOf input with
    | .error f => l.fail f
    | .ok document =>
      match Options.resolve options with
      | .error f => l.fail (.options f)
      | .ok o =>
        let outcome := Transform.transformDefault o document
        let l := l.record outcome.events
        match outcome.result with
        | .error f => l.fail (.binding f)
        | .ok text => deliver l ((a.value? "output").getD dash) text

def runTransform (i : Invocation) (verbose : Bool) (a : Arguments) : Outcome :=
  match inputOf i (a.rest.head?.getD dash), extra? (a.rest.drop 1) with
  | .error problem, _ | .ok _, some problem => i.misused (transformCommand.misused problem)
  | .ok input, none => transformInput a (.start verbose i.files) input

/-- Extensions from the switches come before those of the configuration. -/
def extensionsOf (a : Arguments) (configured : Option (List Setting)) : List Setting :=
  match a.values "ext", configured with
  | [], none | [], some [] => Build.defaultExtensions
  | [], some items => items
  | given, _ => given.map .text

def buildDirectory (a : Arguments) (l : Log) (source output : Path) : Outcome :=
  configured a l fun l options extensions =>
    let l := l.print
      (lines ["🔨 Building ".toList ++ source.render ++ " -> ".toList ++ output.render])
    let (failure, progress) :=
      Build.run l.files (Build.project (.list (extensionsOf a extensions)) options source output)
    let l := { l.record progress.events with files := progress.files }
    match failure with
    | some f => l.fail f
    | none =>
      (l.print (lines ["✅ Build complete (".toList ++ Text.digits progress.written.length ++
        " file(s))".toList])).success

def runBuild (i : Invocation) (verbose : Bool) (a : Arguments) : Outcome :=
  let source := directoryOf i.files "SOURCE_DIR" true a.rest[0]?
  let output := directoryOf i.files "OUTPUT_DIR" false a.rest[1]?
  match source, output, extra? (a.rest.drop 2) with
  | .error problem, _, _ | .ok _, .error problem, _ | .ok _, .ok _, some problem =>
    i.misused (buildCommand.misused problem)
  | .ok source, .ok output, none => buildDirectory a (.start verbose i.files) source output

/-- Reads the arguments of a command; asking for help comes before everything else. -/
def withArguments (i : Invocation) (d : Description) (mixed : Bool) (args : List Text)
    (go : Arguments → Outcome) : Outcome :=
  match Arguments.read d.switches mixed args with
  | .error m => i.misused (d.mistaken m)
  | .ok a =>
    match a.given.find? fun g => ["help".toList, "version".toList].contains g.switch.long with
    | some g => i.done (if g.switch.long = "help".toList then d.help else lines [version])
    | none => go a

/-- Commands whose names are close to the unknown one are not suggested; nor are switches. -/
def unknownCommand (name : Text) : Text := "No such command ".toList ++ Text.quoted name ++ ['.']

/-- A name that is no command may be a switch that the group understands. -/
def runCommand (i : Invocation) (verbose : Bool) : List Text → Outcome
  | [] => i.misused (group.misused "Missing command.".toList)
  | name :: args =>
    if name = "transform".toList then
      withArguments i transformCommand true args (runTransform i verbose)
    else if name = "build".toList then
      withArguments i buildCommand true args (runBuild i verbose)
    else
      withArguments i group false (name :: args) fun _ =>
        i.misused (group.misused (unknownCommand name))

/-- Whether a command line goes on to read standard input. -/
def readsInput (args : List Text) : Bool :=
  match Arguments.read group.switches false args with
  | .ok ⟨_, name :: rest⟩ =>
    name = "transform".toList &&
      match Arguments.read transformCommand.switches true rest with
      | .ok a => a.rest.head?.getD dash = dash
      | .error _ => false
  | _ => false

/-- Without any argument the help text is an error message. -/
def run (i : Invocation) : Outcome :=
  if i.args.isEmpty then i.misused group.help
  else withArguments i group false i.args fun a => runCommand i (a.has "verbose") a.rest

end InlineBinding.Command
