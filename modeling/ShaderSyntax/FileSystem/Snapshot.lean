import ShaderSyntax.Include.Walk

/-!
# Snapshots

What has been looked up of a file system so far, and what a run could still look up. A run on a
snapshot that lacks nothing is the run on the file system itself.
-/
namespace ShaderSyntax

structure Snapshot where
  workingDirectory : Text
  entries : List (Text × Entry)

namespace Snapshot

/-- The snapshot as a file system, where nothing else exists. -/
def fileSystem (s : Snapshot) : FileSystem :=
  ⟨s.workingDirectory, fun path => (s.entries.lookup path).getD (.absent .noSuchFile)⟩

def insert (s : Snapshot) (path : Text) (entry : Entry) : Snapshot :=
  { s with entries := (path, entry) :: s.entries }

/-- The paths that the includes of a text may mean, as they are tried and as they are read. -/
def includePaths (s : Snapshot) (r : Resolver) (file text : Text) : List Text :=
  match Document.parse r.levels text with
  | .error _ => []
  | .ok d =>
    d.includes.flatMap fun (path, _) =>
      match r.candidates path file with
      | .error _ => []
      | .ok found => found ++ found.map (Path.absolute s.workingDirectory)

/-- The paths that a run on the given files may look up and the snapshot lacks. Without a resolver
no include is followed. -/
def lacking (s : Snapshot) (r? : Option Resolver) (files : List Text) : List Text :=
  let operands := files ++ files.map (Path.absolute s.workingDirectory)
  let included := match r? with
    | none => []
    | some r =>
      s.entries.flatMap fun (path, entry) =>
        match entry with
        | .file text => s.includePaths r path text
        | _ => []
  (operands ++ included).eraseDups.filter fun path => (s.entries.lookup path).isNone

end Snapshot

end ShaderSyntax
