import ShaderSyntax.Command.Options
import ShaderSyntax.Command.Report
import ShaderSyntax.Include.Walk
import ShaderSyntax.Tree.Outline
import ShaderSyntax.Tree.Yaml
import ShaderSyntax.Yaml.Render

/-!
# The command

Checks files, dumps their trees, or lists their includes. Files are worked on in order and each by
itself, but for the standard input, which can be read once.

The library that takes the command line apart has commands of its own for the completions of a shell:
where the first operand is `completion`, `__complete` or `__completeNoDesc`, it writes these and the
program never runs. A run here takes such an operand as the name of a file, like any other.
-/
namespace ShaderSyntax

/-- What a run writes, and whether all went well. -/
structure Output where
  stdout : Text
  stderr : Text
  succeeded : Bool
  deriving DecidableEq, Repr

namespace Output

def silent : Output :=
  ⟨[], [], true⟩

/-- One output after another. -/
def andThen (a b : Output) : Output :=
  ⟨a.stdout ++ b.stdout, a.stderr ++ b.stderr, a.succeeded && b.succeeded⟩

/-- A failure with its message. -/
def failed (message : Text) : Output :=
  ⟨[], Report.failure message, false⟩

/-- The exit status. -/
def status (o : Output) : Nat :=
  if o.succeeded then 0 else 1

end Output

/-- The surroundings of a run. -/
structure World where
  files : FileSystem
  stdin : Text
  hasColor : Bool

/-- What is done with each file. -/
inductive Mode where
  | check
  | dump (format : Format)
  | deps
  deriving DecidableEq, Repr

/-- The settings that hold for all files of a run. -/
structure Settings where
  mode : Mode
  colored : Bool
  levels : Nat
  projectRoot : Text
  includePaths : List Text

namespace Command

/-- The file name that means the standard input. -/
def stdinName : Text :=
  [Byte.minus]

/-- The contents of a file, and what is left of the standard input. -/
def readSource (w : World) (file : Text) : Except ReadError Text × Text :=
  if file = stdinName then (.ok w.stdin, []) else (w.files.read file, w.stdin)

/-- Parses a file and reports its diagnostics. -/
def load (s : Settings) (file : Text) (content : Except ReadError Text) :
    Except Output (Document × Text) :=
  match content with
  | .error e =>
    .error (.failed (Text.ofString "error reading " ++ file ++ Text.ofString ": " ++ e.message))
  | .ok text =>
    match Document.parse s.levels text with
    | .error e => .error (.failed (file ++ Text.ofString ": " ++ e.report))
    | .ok d => .ok (d, d.diagnostics.flatMap (Report.diagnostic s.colored file text))

/-- Reports the diagnostics of a file. Any of them is a failure. -/
def check (s : Settings) (file : Text) (content : Except ReadError Text) : Output :=
  match load s file content with
  | .error failure => failure
  | .ok (d, report) => ⟨[], report, d.diagnostics.isEmpty⟩

/-- The tree of a document in a format. -/
def dumped (format : Format) (d : Document) : Text :=
  match format with
  | .sexp => Tree.printFile d.trees
  | .yaml => Yaml.render (Tree.fileToYaml d.trees)

/-- Dumps the tree of a file. Its diagnostics are reported, but are no failure. -/
def dump (s : Settings) (format : Format) (file : Text) (content : Except ReadError Text) : Output :=
  match load s file content with
  | .error failure => failure
  | .ok (d, report) => ⟨dumped format d, report, true⟩

/-- The place of an include. -/
def place (d : Dependency) : Text :=
  d.includer ++ Text.ofString ":" ++ Text.ofNat d.line ++ Text.ofString ": "

/-- An include and what it leads to, or why it leads nowhere. -/
def dependencyLine (d : Dependency) : Text :=
  match d.error? with
  | some e => place d ++ d.path ++ Text.ofString ": " ++ e.message.firstLine ++ [Byte.lineFeed]
  | none => place d ++ d.path ++ Text.ofString " -> " ++ d.resolved ++ [Byte.lineFeed]

/-- The message of the first include that leads nowhere. -/
def firstBroken? (ds : List Dependency) : Option Text :=
  ds.findSome? fun d => d.error?.map fun e => place d ++ e.message.firstLine

/-- Lists the includes reached from a file. One that leads nowhere is a failure. -/
def deps (s : Settings) (files : FileSystem) (file : Text) : Output :=
  match (Resolver.start s.projectRoot s.includePaths s.levels).walk files file with
  | .error e => .failed e.message
  | .ok ds =>
    let lines := ds.flatMap dependencyLine
    match firstBroken? ds with
    | none => ⟨lines, [], true⟩
    | some message => ⟨lines, Report.failure message, false⟩

/-- Works on one file, and gives the world with what is left of the standard input. -/
def process (s : Settings) (w : World) (file : Text) : Output × World :=
  match s.mode with
  | .deps => (deps s w.files file, w)
  | .check =>
    let (content, left) := readSource w file
    (check s file content, { w with stdin := left })
  | .dump format =>
    let (content, left) := readSource w file
    (dump s format file content, { w with stdin := left })

/-- Works on files in order. -/
def processAll (s : Settings) : World → List Text → Output
  | _, [] => .silent
  | w, file :: rest =>
    let (output, after) := process s w file
    output.andThen (processAll s after rest)

def formatOf? (name : Text) : Option Format :=
  if name = Text.ofString "sexp" then some .sexp
  else if name = Text.ofString "yaml" then some .yaml
  else none

/-- The settings that options ask for. Of the modes, listing includes comes first and dumping
second. -/
def settings (o : Options) (hasColor : Bool) (format : Format) : Settings :=
  { mode := if o.deps then .deps else if o.dparse then .dump format else .check
    colored := hasColor && !o.noColor
    levels := levelsFor o.maxDepth
    projectRoot := o.projectRoot
    includePaths := o.includePaths }

def versionText : Text :=
  Text.ofString "gdshader version 0.1.0\n"

def helpText : Text :=
  Text.ofString <|
    "gdshader parses Godot .gdshader and .gdshaderinc files into a\n" ++
    "syntax tree. Without a mode flag it checks each file and reports\n" ++
    "diagnostics. A file named \"-\" is read from standard input.\n" ++
    "\n" ++
    "Usage:\n" ++
    "  gdshader [files...] [flags]\n" ++
    "\n" ++
    "Flags:\n" ++
    "      --deps                  List the include dependencies of each file\n" ++
    "      --dparse                Dump the syntax tree after parsing\n" ++
    "      --format string         Tree dump format: sexp or yaml (default \"sexp\")\n" ++
    "  -h, --help                  help for gdshader\n" ++
    "  -I, --include stringArray   Add directory to include search path\n" ++
    "      --max-depth int         Maximum statement and expression nesting (default 512)\n" ++
    "      --no-color              Disable colored diagnostics\n" ++
    "      --project-root string   Directory that res:// paths resolve against\n" ++
    "  -v, --version               version for gdshader\n"

/-- Does what the options ask for. -/
def execute (w : World) (o : Options) : Output :=
  if o.help then ⟨helpText, [], true⟩
  else if o.version then ⟨versionText, [], true⟩
  else if o.files.isEmpty then ⟨helpText, [], true⟩
  else
    match formatOf? o.format with
    | none =>
      .failed (Text.ofString "unknown format " ++ o.format.quoted ++
        Text.ofString " (want sexp or yaml)")
    | some format =>
      if o.maxDepth < 0 then .failed (Text.ofString "--max-depth must not be negative")
      else processAll (settings o w.hasColor format) w o.files

/-- Runs the program. A command line that cannot be read fails without a word. -/
def run (w : World) (arguments : List Text) : Output :=
  match Options.parse arguments with
  | .error _ => ⟨[], [], false⟩
  | .ok o => execute w o

end Command

end ShaderSyntax
