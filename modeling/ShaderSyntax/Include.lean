import ShaderSyntax.Diagnostic
import ShaderSyntax.FileSystem

/-!
# Include paths

A path that starts with `res://` is taken from the project root, an absolute path as it is, and any
other from the directory of the including file and then from each search directory in order. The
first that leads to a file is the answer, in its absolute form.
-/
namespace ShaderSyntax

/-- Why an include cannot be followed. -/
inductive IncludeError where
  | noProjectRoot (path : Text)
  | notFound (path : Text) (searched : List Text)
  | cycle (path : Text) (stack : List Text)
  | tooNested (path : Text)
  | unreadable (error : ReadError)
  | tooDeep (file : Text) (limit : TooDeep)

/-- The greatest number of files that may be open within each other. -/
def maxIncludeDepth : Nat := 64

namespace IncludeError

/-- The open files, outermost first, each two spaces deeper than the last. -/
def stackLines : Nat → List Text → Text
  | _, [] => []
  | depth, f :: rest =>
    Text.spaces (2 * depth) ++ Path.base f ++ [Byte.lineFeed] ++ stackLines (depth + 1) rest

def message : IncludeError → Text
  | noProjectRoot path =>
    path ++ Text.ofString ": res:// path used but no project root is set"
  | notFound path _ => Text.ofString "include file not found: " ++ path
  | cycle path stack =>
    Text.ofString "circular include detected: " ++ path ++ Text.ofString "\ninclude stack:\n" ++
      stackLines 1 stack
  | tooNested path =>
    path ++ Text.ofString ": include nesting deeper than " ++ Text.ofNat maxIncludeDepth
  | unreadable e => e.message
  | tooDeep file e => file ++ Text.ofString ": " ++ e.report

end IncludeError

/-- Where include paths are looked up, and the files open at the moment, outermost first. -/
structure Resolver where
  projectRoot : Text
  searchPaths : List Text
  levels : Nat
  stack : List Text

/-- What marks a path as relative to the project root. -/
def resourceMark : Text :=
  Text.ofString "res://"

namespace Resolver

def start (projectRoot : Text) (searchPaths : List Text) (levels : Nat) : Resolver :=
  ⟨projectRoot, searchPaths, levels, []⟩

def addSearchPath (r : Resolver) (directory : Text) : Resolver :=
  { r with searchPaths := r.searchPaths ++ [directory] }

/-- The paths that an include of `path` in the file `includer` may mean, in order. No includer is the
empty path. -/
def candidates (r : Resolver) (path includer : Text) : Except IncludeError (List Text) :=
  if path.startsWith resourceMark then
    if r.projectRoot = [] then .error (.noProjectRoot path)
    else .ok [Path.join r.projectRoot (path.drop resourceMark.length)]
  else if Path.isAbsolute path then .ok [path]
  else
    let beside := if includer = [] then [] else [Path.join (Path.directory includer) path]
    .ok (beside ++ r.searchPaths.map fun directory => Path.join directory path)

/-- The absolute path of the file that an include means. -/
def resolve (r : Resolver) (fs : FileSystem) (path includer : Text) : Except IncludeError Text :=
  match r.candidates path includer with
  | .error e => .error e
  | .ok found =>
    match found.find? fs.isFile with
    | some c => .ok (fs.absolute c)
    | none => .error (.notFound path found)

/-- Opens a file inside the files that are open. -/
def open? (fs : FileSystem) (stack : List Text) (path : Text) : Except IncludeError (List Text) :=
  let file := fs.absolute path
  if file ∈ stack then .error (.cycle file stack)
  else if maxIncludeDepth ≤ stack.length then .error (.tooNested file)
  else .ok (stack ++ [file])

/-- Opens a file. If that fails nothing changes. -/
def push (r : Resolver) (fs : FileSystem) (path : Text) : Except IncludeError Resolver :=
  (open? fs r.stack path).map fun stack => { r with stack }

/-- Closes the innermost file, if one is open. -/
def pop (r : Resolver) : Resolver :=
  { r with stack := r.stack.dropLast }

end Resolver

end ShaderSyntax
