import ShaderSyntax.Command.Integer

/-!
# Command line options

Flags and files may be mixed. A flag has a long name, and some have a letter; a switch stands alone
or takes its value after `=`, any other flag takes its value after `=` or from the next argument.
After `--` everything is a file, and so is a single dash.
-/
namespace ShaderSyntax

/-- How the tree of a file is dumped. -/
inductive Format where
  | sexp | yaml
  deriving DecidableEq, Repr

inductive Flag where
  | deps | dparse | format | help | includePath | maxDepth | noColor | projectRoot | version
  deriving DecidableEq, Repr

/-- What the command line asks for. -/
structure Options where
  deps : Bool
  dparse : Bool
  help : Bool
  version : Bool
  noColor : Bool
  format : Text
  includePaths : List Text
  projectRoot : Text
  maxDepth : Int
  files : List Text
  deriving DecidableEq, Repr

/-- What is wrong with a command line. -/
inductive UsageError where
  | badFlag (argument : Text)
  | unknownFlag (name : Text)
  | missingValue (flag : Flag)
  | badValue (flag : Flag) (value : Text)
  deriving DecidableEq, Repr

namespace Flag

def all : List Flag :=
  [.deps, .dparse, .format, .help, .includePath, .maxDepth, .noColor, .projectRoot, .version]

def longName : Flag → Text
  | deps => Text.ofString "deps"
  | dparse => Text.ofString "dparse"
  | format => Text.ofString "format"
  | help => Text.ofString "help"
  | includePath => Text.ofString "include"
  | maxDepth => Text.ofString "max-depth"
  | noColor => Text.ofString "no-color"
  | projectRoot => Text.ofString "project-root"
  | version => Text.ofString "version"

/-- The flags that are on or off. -/
def isSwitch : Flag → Bool
  | deps | dparse | help | noColor | version => true
  | _ => false

/-- The spelling under which a long name is looked up: underscores are dashes, and two older names
still work. -/
def canonicalName (name : Text) : Text :=
  let dashed := name.map fun b => if b = Byte.underscore then Byte.minus else b
  if dashed = Text.ofString "include-path" then includePath.longName
  else if dashed = Text.ofString "root" then projectRoot.longName
  else dashed

def ofLongName? (name : Text) : Option Flag :=
  all.find? fun f => f.longName == canonicalName name

/-- The flag of a letter: `I`, `h` or `v`. -/
def ofLetter? (b : UInt8) : Option Flag :=
  if b = 73 then some .includePath
  else if b = 104 then some .help
  else if b = 118 then some .version
  else none

end Flag

/-- Two long flags may be written with one dash. -/
def normalizeFlag (argument : Text) : Text :=
  let single := [Flag.dparse, Flag.deps].any fun f => argument = Byte.minus :: f.longName
  if single then Byte.minus :: argument else argument

namespace Options

def initial : Options :=
  { deps := false
    dparse := false
    help := false
    version := false
    noColor := false
    format := Text.ofString "sexp"
    includePaths := []
    projectRoot := []
    maxDepth := 512
    files := [] }

/-- The spellings of on and off. -/
def switchValue? (t : Text) : Option Bool :=
  if ["1", "t", "T", "TRUE", "true", "True"].any fun s => Text.ofString s = t then some true
  else if ["0", "f", "F", "FALSE", "false", "False"].any fun s => Text.ofString s = t then
    some false
  else none

/-- Sets a switch. -/
def turn (o : Options) : Flag → Bool → Options
  | .deps, on => { o with deps := on }
  | .dparse, on => { o with dparse := on }
  | .help, on => { o with help := on }
  | .version, on => { o with version := on }
  | .noColor, on => { o with noColor := on }
  | _, _ => o

/-- Sets a flag to the value given for it. Include paths add up; of other flags the last counts. -/
def set (o : Options) (flag : Flag) (value : Text) : Except UsageError Options :=
  match flag with
  | .format => .ok { o with format := value }
  | .projectRoot => .ok { o with projectRoot := value }
  | .includePath => .ok { o with includePaths := o.includePaths ++ [value] }
  | .maxDepth =>
    match Integer.parse? value with
    | some n => .ok { o with maxDepth := n }
    | none => .error (.badValue flag value)
  | _ =>
    match switchValue? value with
    | some on => .ok (o.turn flag on)
    | none => .error (.badValue flag value)

/-- Whether the next argument was taken as a value. -/
abbrev TookNext := Bool

/-- Sets a flag from the argument that names it, or from the next one. -/
def setFrom (o : Options) (flag : Flag) (value? : Option Text) (next? : Option Text) :
    Except UsageError (Options × TookNext) :=
  match value? with
  | some v => (o.set flag v).map (·, false)
  | none =>
    if flag.isSwitch then .ok (o.turn flag true, false)
    else
      match next? with
      | some v => (o.set flag v).map (·, true)
      | none => .error (.missingValue flag)

/-- The value after the first `=`. -/
def valueAfterEquals? (t : Text) : Option Text :=
  match t.dropWhile (· != Byte.equals) with
  | [] => none
  | _ :: value => some value

/-- A flag by its long name, without the two dashes. -/
def long (o : Options) (t : Text) (next? : Option Text) :
    Except UsageError (Options × TookNext) :=
  if t.head? = some Byte.minus ∨ t.head? = some Byte.equals then .error (.badFlag t)
  else
    let name := t.takeWhile (· != Byte.equals)
    match Flag.ofLongName? name with
    | none => .error (.unknownFlag name)
    | some flag => o.setFrom flag (valueAfterEquals? t) next?

/-- What marks flags that are meant for a test runner. -/
def testRunnerMark : Text :=
  Text.ofString "test."

/-- Flags by their letters, without the dash. Switches may be written together; any other flag takes
what follows it as its value. Letters from the mark of a test runner on are passed over. -/
def short (o : Options) (next? : Option Text) : Text → Except UsageError (Options × TookNext)
  | [] => .ok (o, false)
  | b :: rest =>
    if Text.startsWith (b :: rest) testRunnerMark then .ok (o, false)
    else
      match Flag.ofLetter? b with
      | none => .error (.unknownFlag [b])
      | some flag =>
        match rest with
        | e :: c :: more =>
          if e = Byte.equals then o.setFrom flag (some (c :: more)) next?
          else if flag.isSwitch then short (o.turn flag true) next? (e :: c :: more)
          else o.setFrom flag (some rest) next?
        | [e] =>
          if flag.isSwitch then short (o.turn flag true) next? [e]
          else o.setFrom flag (some rest) next?
        | [] => o.setFrom flag none next?

/-- One argument, where the next may be its value. -/
def argument (o : Options) (a : Text) (next? : Option Text) :
    Except UsageError (Options × TookNext) :=
  match a with
  | first :: second :: rest =>
    if first ≠ Byte.minus then .ok ({ o with files := o.files ++ [a] }, false)
    else if second = Byte.minus then o.long rest next?
    else o.short next? (second :: rest)
  | _ => .ok ({ o with files := o.files ++ [a] }, false)

/-- The mark after which every argument is a file. -/
def endOfFlags : Text :=
  [Byte.minus, Byte.minus]

/-- Reads arguments; the first is left out when it was the value of the one before. -/
def read (o : Options) : TookNext → List Text → Except UsageError Options
  | _, [] => .ok o
  | true, _ :: rest => read o false rest
  | false, a :: rest =>
    if a = endOfFlags then .ok { o with files := o.files ++ rest }
    else
      match o.argument a rest.head? with
      | .error e => .error e
      | .ok (o', took) => read o' took rest

/-- The options that a command line gives. -/
def parse (arguments : List Text) : Except UsageError Options :=
  initial.read false (arguments.map normalizeFlag)

end Options

end ShaderSyntax
