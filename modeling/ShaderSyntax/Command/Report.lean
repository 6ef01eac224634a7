import ShaderSyntax.Diagnostic
import ShaderSyntax.Text.Blank

/-!
# Reports

How a diagnostic is shown: the file and the place, what is wrong, and below that the line of the
source with a mark under the token.
-/
namespace ShaderSyntax.Report

/-- The colours of a terminal that the reports use. -/
inductive Paint where
  | error | invalid | caret
  deriving DecidableEq, Repr

/-- What switches a colour on. -/
def Paint.on : Paint → Text
  | .error => Text.ofString "\x1b[31;1m"
  | .invalid => Text.ofString "\x1b[33;1m"
  | .caret => Text.ofString "\x1b[32m"

/-- What switches a colour off. -/
def Paint.off : Paint → Text
  | .error | .invalid => Text.ofString "\x1b[0;22m"
  | .caret => Text.ofString "\x1b[0m"

/-- A text in a colour, if colours are wanted. -/
def painted (colored : Bool) (paint : Paint) (t : Text) : Text :=
  if colored then paint.on ++ t ++ paint.off else t

/-- The grade of a problem in a word. -/
def label (colored : Bool) : ProblemKind → Text
  | .structural => painted colored .error (Text.ofString "error")
  | .invalidVocabulary => painted colored .invalid (Text.ofString "invalid")

/-- A tab under a tab, and a space under any other character. -/
def padPiece (p : Utf8.Piece) : UInt8 :=
  if p = .char '\t' then Byte.tab else Byte.space

/-- What brings a mark under the given column of a line, counted from zero. -/
def padding (line : Text) (column : Nat) : Text :=
  (Utf8.pieces (line.take column)).map padPiece

/-- The number of marks: the length of the span within its line, and at least one. -/
def caretCount (line : Text) (column width : Nat) : Nat :=
  max (min (max width 1) (line.length - column)) 1

/-- The line of a diagnostic and the marks under it. A blank line is not shown. -/
def excerpt (colored : Bool) (source : Text) (d : Diagnostic) : Text :=
  let line := source.lineAt d.span.start
  if Text.isBlank line then []
  else
    let column := min (d.position.column - 1) line.length
    let carets := List.replicate (caretCount line column d.span.length) (94 : UInt8)
    Text.ofString "  " ++ line ++ Text.ofString "\n  " ++ padding line column ++
      painted colored .caret carets ++ [Byte.lineFeed]

/-- A diagnostic of a file. -/
def diagnostic (colored : Bool) (file source : Text) (d : Diagnostic) : Text :=
  file ++ Text.ofString ":" ++ Text.ofNat d.position.line ++ Text.ofString ":" ++
    Text.ofNat d.position.column ++ Text.ofString ": " ++ label colored d.kind ++
    Text.ofString ": " ++ d.message ++ [Byte.lineFeed] ++ excerpt colored source d

/-- A failure of the program itself. -/
def failure (message : Text) : Text :=
  Text.ofString "gdshader: " ++ message ++ [Byte.lineFeed]

end ShaderSyntax.Report
