import ShaderSyntax.Command
import ShaderSyntax.FileSystem.Snapshot

/-!
# The program

Looks up the files that the run can ask for, runs the command on them, and writes what it gives.
-/
namespace ShaderSyntax

/-- The text of an error that the library puts into its own words. -/
def detailsOf (error : IO.Error) : String :=
  match error with
  | .alreadyExists _ _ text | .otherError _ text | .resourceBusy _ text
  | .resourceVanished _ text | .unsupportedOperation _ text | .hardwareFault _ text
  | .unsatisfiedConstraints _ text | .illegalOperation _ text | .protocolError _ text
  | .timeExpired _ text | .interrupted _ _ text | .noFileOrDirectory _ _ text
  | .invalidArgument _ _ text | .permissionDenied _ _ text | .resourceExhausted _ _ text
  | .inappropriateType _ _ text | .noSuchThing _ _ text | .userError text => text
  | .unexpectedEof => "unexpected EOF"

/-- What the system says, where the library says it otherwise too. -/
def reasonOf (error : IO.Error) : Reason :=
  match detailsOf error with
  | "name too long" => .nameTooLong
  | "too many symbolic links encountered" =>
    ⟨Text.ofString "too many levels of symbolic links"⟩
  | "i/o error" => ⟨Text.ofString "input/output error"⟩
  | text => ⟨Text.ofString text.decapitalize⟩

/-- What a path leads to. -/
def lookupPath (path : Text) : IO Entry := do
  match path.toString? with
  | none => return .absent .noSuchFile
  | some name =>
    if name.isEmpty then return .absent .noSuchFile
    let place := (← IO.currentDir) / name
    try
      if ← place.isDir then return .directory
      let content ← IO.FS.readBinFile place
      return .file content.data.toList
    catch error =>
      let reason := reasonOf error
      return if ← place.pathExists then .unreadable reason else .absent reason

/-- Looks up paths until the run lacks none. -/
partial def gather (r? : Option Resolver) (files : List Text) (s : Snapshot) : IO Snapshot := do
  let paths := s.lacking r? files
  if paths.isEmpty then return s
  let found ← paths.mapM fun path => return (path, ← lookupPath path)
  gather r? files (found.foldl (fun s (path, entry) => s.insert path entry) s)

/-- Whether the terminal shows colours. -/
def terminalHasColor : IO Bool := do
  let plain := (← IO.getEnv "NO_COLOR").any (!·.isEmpty) || (← IO.getEnv "TERM") == some "dumb"
  return !plain && (← (← IO.getStdout).isTty)

/-- The files of a command line, and how their includes are followed if they are. -/
def demand (arguments : List Text) : Option Resolver × List Text :=
  match Options.parse arguments with
  | .error _ => (none, [])
  | .ok o =>
    let r := Resolver.start o.projectRoot o.includePaths (levelsFor o.maxDepth)
    (if o.deps then some r else none, o.files)

/-- The bytes of a stream up to its end. -/
partial def readAll (stream : IO.FS.Stream) (before : ByteArray) : IO ByteArray := do
  let chunk ← stream.read 65536
  if chunk.isEmpty then return before
  readAll stream (before ++ chunk)

end ShaderSyntax

open ShaderSyntax in
def main (args : List String) : IO UInt32 := do
  let arguments := args.map Text.ofString
  let (r?, files) := demand arguments
  let working := Text.ofString (← IO.currentDir).toString
  let snapshot ← gather r? (files.filter (· != Command.stdinName || r?.isSome)) ⟨working, []⟩
  let stdin ←
    if files.contains Command.stdinName then readAll (← IO.getStdin) .empty else pure .empty
  let world : World := ⟨snapshot.fileSystem, stdin.data.toList, ← terminalHasColor⟩
  let output := Command.run world arguments
  (← IO.getStdout).write ⟨output.stdout.toArray⟩
  (← IO.getStderr).write ⟨output.stderr.toArray⟩
  return UInt32.ofNat output.status
