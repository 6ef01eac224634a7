import ShaderSyntax.Path

/-!
# File systems

What a program can ask of the files around it: the working directory, and what a path leads to.
-/
namespace ShaderSyntax

/-- What the system says when it does not open a path, in its own words. -/
structure Reason where
  message : Text
  deriving DecidableEq, Repr

namespace Reason

def noSuchFile : Reason :=
  ⟨Text.ofString "no such file or directory"⟩

def notADirectory : Reason :=
  ⟨Text.ofString "not a directory"⟩

def nameTooLong : Reason :=
  ⟨Text.ofString "file name too long"⟩

def invalidArgument : Reason :=
  ⟨Text.ofString "invalid argument"⟩

end Reason

/-- What a path leads to. -/
inductive Entry where
  | file (content : Text)
  | directory
  /-- Something other than a directory that cannot be opened, for want of permission for example. -/
  | unreadable (reason : Reason)
  | absent (reason : Reason)
  deriving DecidableEq, Repr

structure FileSystem where
  workingDirectory : Text
  lookup : Text → Entry

/-- A file that cannot be read. -/
inductive ReadError where
  | notOpened (path : Text) (reason : Reason)
  | isDirectory (path : Text)
  deriving DecidableEq, Repr

def ReadError.message : ReadError → Text
  | .notOpened path reason => Text.ofString "open " ++ path ++ Text.ofString ": " ++ reason.message
  | .isDirectory path => Text.ofString "read " ++ path ++ Text.ofString ": is a directory"

namespace FileSystem

def read (fs : FileSystem) (path : Text) : Except ReadError Text :=
  match fs.lookup path with
  | .file content => .ok content
  | .directory => .error (.isDirectory path)
  | .unreadable reason => .error (.notOpened path reason)
  | .absent reason => .error (.notOpened path reason)

/-- Whether the path leads to something other than a directory, readable or not. -/
def isFile (fs : FileSystem) (path : Text) : Bool :=
  match fs.lookup path with
  | .file _ => true
  | .unreadable _ => true
  | _ => false

def absolute (fs : FileSystem) (path : Text) : Text :=
  Path.absolute fs.workingDirectory path

end FileSystem

end ShaderSyntax
