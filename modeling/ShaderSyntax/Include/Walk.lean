import ShaderSyntax.Document
import ShaderSyntax.Include

/-!
# Walking includes

The includes of a file and of the files it includes, depth first. A file that is reached again is
listed again but walked only once. A file that cannot be read or parsed is an error of the include
that leads to it, and of the walk itself only when the walk starts there.
-/
namespace ShaderSyntax

/-- One include: where it stands, what it says, what it means, and what went wrong. The meaning is
empty when there is none. -/
structure Dependency where
  includer : Text
  line : Nat
  path : Text
  resolved : Text
  error? : Option IncludeError

/-- An include in a document: its path without quotes, and its line. -/
def Document.includes (d : Document) : List (Text × Nat) :=
  (d.decls.zip d.trees).filterMap fun (decl, tree) =>
    match decl with
    | .includes raw => some (unquote raw, d.source.text.lineNumberAt tree.span.start)
    | _ => none

namespace Resolver

/-- What a walk has found: the includes in order, and the files it has gone into. -/
structure Walked where
  dependencies : List Dependency
  visited : List Text

/-- Goes into a file, with the files that are open and those visited. -/
abbrev Visitor :=
  List Text → Text → List Text → Except IncludeError (List Dependency) × List Text

/-- Follows one include of a file. -/
def followInclude (r : Resolver) (fs : FileSystem) (visit : Visitor) (stack : List Text)
    (file : Text) (visited : List Text) (path : Text) (line : Nat) : Walked :=
  match r.resolve fs path file with
  | .error e => ⟨[⟨file, line, path, [], some e⟩], visited⟩
  | .ok target =>
    match open? fs stack target with
    | .error e => ⟨[⟨file, line, path, target, some e⟩], visited⟩
    | .ok inner =>
      if visited.contains target then ⟨[⟨file, line, path, target, none⟩], visited⟩
      else
        match visit inner target (target :: visited) with
        | (.error e, after) => ⟨[⟨file, line, path, target, some e⟩], after⟩
        | (.ok below, after) => ⟨⟨file, line, path, target, none⟩ :: below, after⟩

/-- Follows the includes of a file in order. -/
def followIncludes (r : Resolver) (fs : FileSystem) (visit : Visitor) (stack : List Text)
    (file : Text) : List Text → List (Text × Nat) → Walked
  | visited, [] => ⟨[], visited⟩
  | visited, (path, line) :: rest =>
    let first := r.followInclude fs visit stack file visited path line
    let others := r.followIncludes fs visit stack file first.visited rest
    ⟨first.dependencies ++ others.dependencies, others.visited⟩

/-- Walks a file that is open, where `room` more files may be opened within each other. -/
def walkWithin (r : Resolver) (fs : FileSystem) : Nat → Visitor
  | 0, _, _, visited => (.ok [], visited)
  | room + 1, stack, file, visited =>
    match fs.read file with
    | .error e => (.error (.unreadable e), visited)
    | .ok text =>
      match Document.parse r.levels text with
      | .error e => (.error (.tooDeep file e), visited)
      | .ok document =>
        let walked := r.followIncludes fs (r.walkWithin fs room) stack file visited document.includes
        (.ok walked.dependencies, walked.visited)

/-- All includes reached from a file. -/
def walk (r : Resolver) (fs : FileSystem) (path : Text) : Except IncludeError (List Dependency) :=
  let file := fs.absolute path
  match open? fs r.stack file with
  | .error e => .error e
  | .ok stack => (r.walkWithin fs maxIncludeDepth stack file [file]).1

end Resolver

end ShaderSyntax
