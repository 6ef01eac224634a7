import ShaderSyntax.Text

/-!
# Paths

Paths as texts with slashes between their components, and the lexical operations on them: nothing
here looks at a file. A clean path has no empty and no `.` component, and `..` only at the head of a
relative one.
-/
namespace ShaderSyntax.Path

/-- The current directory. -/
def here : Text :=
  [Byte.dot]

/-- The parent directory. -/
def parent : Text :=
  [Byte.dot, Byte.dot]

/-- The root directory. -/
def root : Text :=
  [Byte.slash]

def isAbsolute (p : Text) : Bool :=
  p.head? = some Byte.slash

def components (p : Text) : List Text :=
  p.split Byte.slash

/-- Adds a component to a stack of clean components, the last on top. -/
def push (rooted : Bool) (stack : List Text) (component : Text) : List Text :=
  if component = [] ∨ component = here then stack
  else if component = parent then
    match stack with
    | [] => if rooted then [] else [parent]
    | top :: below => if top = parent then parent :: stack else below
  else component :: stack

/-- The clean components of a path, in order. -/
def cleanComponents (p : Text) : List Text :=
  ((components p).foldl (push (isAbsolute p)) []).reverse

/-- Components with slashes between them. -/
def joined (parts : List Text) : Text :=
  List.intercalate root parts

/-- The shortest path with the same lexical meaning. -/
def clean (p : Text) : Text :=
  let body := joined (cleanComponents p)
  if isAbsolute p then root ++ body
  else if body = [] then here
  else body

/-- The clean path of the second path taken from the first; an empty path adds nothing. -/
def join (p q : Text) : Text :=
  if p = [] then if q = [] then [] else clean q
  else if q = [] then clean p
  else clean (p ++ root ++ q)

/-- Everything before the last slash, cleaned. -/
def directory (p : Text) : Text :=
  clean (p.reverse.dropWhile (· != Byte.slash)).reverse

/-- The last component. -/
def base (p : Text) : Text :=
  if p = [] then here
  else
    let trimmed := p.reverse.dropWhile (· == Byte.slash)
    if trimmed = [] then root else (trimmed.takeWhile (· != Byte.slash)).reverse

/-- The clean absolute form of a path, seen from a working directory. -/
def absolute (working : Text) (p : Text) : Text :=
  if isAbsolute p then clean p else join working p

end ShaderSyntax.Path
