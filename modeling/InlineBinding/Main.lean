import InlineBinding.Command.Run

/-!
# The program

Looks up the files that the arguments may name, runs the command line on them, and writes what
has changed. All files are looked up as bytes, so a configuration counts as empty here.
-/
namespace InlineBinding.Command

/-- Texts in the arguments that may be paths: whole, behind an equals sign, or behind a letter. -/
def mentioned (args : List Text) : List Text :=
  args.flatMap fun a => [a, (a.dropWhile (· != '=')).drop 1, a.drop 2].filter (!·.isEmpty)

def toText (s : String) : Text := s.toList

def bytesOf (b : ByteArray) : Text.Bytes := b.toList

/-- Adds the entries of a directory and all that is below them. -/
partial def addBelow (place : Files.Place) (entries : Array IO.FS.DirEntry) (fs : Files) : IO Files :=
  entries.foldlM (fun fs e => do
    let p := place ++ [toText e.fileName]
    match ← e.path.readDir.toBaseIO with
    | .ok inner => addBelow p inner (fs.put p .directory)
    | .error _ =>
      match ← (IO.FS.readBinFile e.path).toBaseIO with
      | .ok b => return fs.put p (.file (.bytes (bytesOf b)))
      | .error _ => return fs) fs

/-- Follows a path as far as it is there; what is below its end is added too. -/
def addPath (fs : Files) (t : Text) : IO Files := do
  let p := Path.ofText t
  let mut fs := fs
  let mut written : Path := { p with parts := [] }
  let mut place := fs.start p
  for name in p.parts do
    written := written.join [name]
    place := Files.step place name
    let file := String.ofList written.render
    match ← (do (← IO.FS.realPath file).readDir : IO _).toBaseIO with
    | .ok entries =>
      fs := fs.put place .directory
      if written = p then fs ← addBelow place entries fs
    | .error _ =>
      match ← (IO.FS.readBinFile file).toBaseIO with
      | .ok b => return fs.put place (.file (.bytes (bytesOf b)))
      | .error _ => return fs
  return fs

def load (args : List Text) : IO Files := do
  let here ← IO.currentDir
  (Config.defaultName :: mentioned args).foldlM addPath (Files.empty (toText here.toString))

def save (before after : Files) : IO Unit :=
  (Files.changes before after).forM fun c => do
    IO.FS.createDirAll (String.ofList c.1.parent.render)
    IO.FS.writeBinFile (String.ofList c.1.render) ⟨c.2.toArray⟩

partial def readAll (input : IO.FS.Stream) (found : ByteArray) : IO ByteArray := do
  let more ← input.read 65536
  if more.isEmpty then return found else readAll input (found ++ more)

def standardInput (args : List Text) : IO Text.Bytes := do
  if readsInput args then return bytesOf (← readAll (← IO.getStdin) .empty) else return []

end InlineBinding.Command

open InlineBinding Command in
def main (args : List String) : IO UInt32 := do
  let args := args.map toText
  let files ← load args
  let outcome := run ⟨args, ← standardInput args, files⟩
  save files outcome.files
  IO.print (String.ofList outcome.output)
  IO.eprint (String.ofList outcome.errors)
  match outcome.failure with
  | some f => IO.eprintln (String.ofList f.message)
  | none => pure ()
  return outcome.exitCode.toUInt32
