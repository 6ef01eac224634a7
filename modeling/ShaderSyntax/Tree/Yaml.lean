import ShaderSyntax.Tree.SExpr
import ShaderSyntax.Yaml

/-!
# Trees as document values

A tree is a mapping of its kind, its span, the text of a leaf or the message of an error, and its
fields by label. An attribute stands for itself. Trees that share their label with another field are
one list, at the place of the first of them.
-/
namespace ShaderSyntax

/-- A field whose tree is a document value already. -/
inductive Yaml.Part where
  | attribute (label : Label) (text : Text)
  | child (label : Label) (value : Yaml)

namespace Yaml.Part

def label : Part → Label
  | .attribute l _ => l
  | .child l _ => l

/-- The value of a child with the given label. -/
def value? (wanted : Label) : Part → Option Yaml
  | .attribute _ _ => none
  | .child l v => if l = wanted then some v else none

/-- The entries of the rest of some parts, of which the children with the given labels are listed. -/
def entriesOf (all : List Part) : List Label → List Part → List (Text × Yaml)
  | _, [] => []
  | listed, .attribute l t :: rest => (l.name, .text t) :: entriesOf all listed rest
  | listed, .child l v :: rest =>
    if all.countP (fun p => p.label = l) = 1 then (l.name, v) :: entriesOf all listed rest
    else if l ∈ listed then entriesOf all listed rest
    else (l.name, .list (all.filterMap (value? l))) :: entriesOf all (l :: listed) rest

/-- The entries of all parts of a tree. -/
def entries (parts : List Part) : List (Text × Yaml) :=
  entriesOf parts [] parts

end Yaml.Part

/-- What every tree says of itself. -/
def Yaml.head (kind : Kind) (span : Span Nat) : List (Text × Yaml) :=
  [(Text.ofString "kind", .text kind.name), (Text.ofString "span", .span span)]

/-- The message of an error. An empty one is left out. -/
def Yaml.messageEntries (message : Text) : List (Text × Yaml) :=
  if message.isEmpty then [] else [(Text.ofString "message", .text message)]

mutual

def Tree.toYaml : Tree → Yaml
  | .leaf k s t => .map (Yaml.head k s ++ [(Text.ofString "text", .text t)])
  | .error s m => .map (Yaml.head .error s ++ Yaml.messageEntries m)
  | .branch k s fields => .map (Yaml.head k s ++ Yaml.Part.entries (Field.toParts fields))

def Field.toParts : List Field → List Yaml.Part
  | [] => []
  | .attribute label t :: rest => .attribute label t :: Field.toParts rest
  | .child label t :: rest => .child label t.toYaml :: Field.toParts rest

end

/-- The declarations of a file, always as a list. -/
def Tree.fileToYaml (decls : List Tree) : Yaml :=
  .map [(Text.ofString "kind", .text fileKind),
    (Text.ofString "declarations", .list (decls.map Tree.toYaml))]

end ShaderSyntax
