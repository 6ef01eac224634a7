import ShaderSyntax.FileSystem

/-!
# File systems in memory

Files and directories listed by the components of their absolute paths, without links. Every file can
be read. A path is followed component by component, so every component before the last has to be a
directory, and so has one with a slash after it.
-/
namespace ShaderSyntax

/-- Files, empty directories, and the working directory. All directories above them exist. -/
structure Disk where
  working : List Text
  files : List (List Text × Text)
  directories : List (List Text)

namespace Disk

/-- The longest name of a file in bytes. -/
def maxName : Nat := 255

/-- The longest path in bytes. -/
def maxPath : Nat := 4095

def workingPath (d : Disk) : Text :=
  Path.root ++ Path.joined d.working

/-- A disk with the given files and directories, named from the working directory. -/
def ofEntries (working : Text) (files : List (Text × Text)) (directories : List Text) : Disk :=
  let parts (p : Text) : List Text := Path.cleanComponents (Path.absolute working p)
  ⟨Path.cleanComponents working, files.map fun f => (parts f.1, f.2), directories.map parts⟩

/-- Whether a directory stands at the given components. -/
def isDirectory (d : Disk) (parts : List Text) : Bool :=
  parts.isPrefixOf d.working || d.directories.any (parts.isPrefixOf ·) ||
    d.files.any fun f => parts.isPrefixOf f.1

/-- The entry at the given components. -/
def entryAt (d : Disk) (parts : List Text) : Entry :=
  match d.files.find? fun f => f.1 == parts with
  | some f => .file f.2
  | none => if d.isDirectory parts then .directory else .absent .noSuchFile

/-- Follows components from a directory. -/
def follow (d : Disk) : List Text → List Text → Entry
  | _, [] => .directory
  | directory, c :: rest =>
    if c = [] ∨ c = Path.here then follow d directory rest
    else if c = Path.parent then follow d directory.dropLast rest
    else if maxName < c.length then .absent .nameTooLong
    else
      match d.entryAt (directory ++ [c]) with
      | .directory => follow d (directory ++ [c]) rest
      | .file content => if rest = [] then .file content else .absent .notADirectory
      | .unreadable reason => if rest = [] then .unreadable reason else .absent .notADirectory
      | .absent reason => .absent reason

def lookup (d : Disk) (path : Text) : Entry :=
  if (0 : UInt8) ∈ path then .absent .invalidArgument
  else if path = [] then .absent .noSuchFile
  else if maxPath < path.length then .absent .nameTooLong
  else d.follow (if Path.isAbsolute path then [] else d.working) (Path.components path)

def fileSystem (d : Disk) : FileSystem :=
  ⟨d.workingPath, d.lookup⟩

end Disk

end ShaderSyntax
