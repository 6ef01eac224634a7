import ShaderSyntax.FileSystem.Disk
import ShaderSyntax.Main
import ShaderSyntax.Proofs.RoundTrip
import ShaderSyntax.Session
import ShaderSyntax.Tree.Walk
import ShaderSyntax.Tree.Parent
import ShaderSyntax.Proofs.Deepening
import ShaderSyntax.Proofs.Limit
import ShaderSyntax.Proofs.Nesting
import ShaderSyntax.Proofs.Shape
import ShaderSyntax.Proofs.Shape.Expression
import ShaderSyntax.Proofs.Shape.Statement
import ShaderSyntax.Proofs.Shape.Declaration
import ShaderSyntax.Proofs.Shape.Tree
import ShaderSyntax.Proofs.Confinement
import ShaderSyntax.Proofs.Heading
import ShaderSyntax.Proofs.Shifting
import ShaderSyntax.Proofs.Containment
import ShaderSyntax.Proofs.Positions
import ShaderSyntax.Proofs.Layout
import ShaderSyntax.Proofs.Parallel
import ShaderSyntax.Proofs.Requests
import ShaderSyntax.Proofs.Restarting
import ShaderSyntax.Proofs.Judging
import ShaderSyntax.Proofs.Judging.Expression
import ShaderSyntax.Proofs.Judging.Statement
import ShaderSyntax.Proofs.Judging.Declaration
import ShaderSyntax.Proofs.Soundness
import ShaderSyntax.Proofs.Appending
import ShaderSyntax.Proofs.Legality
import ShaderSyntax.Proofs.Concatenation
import ShaderSyntax.Proofs.Roles
import ShaderSyntax.Proofs.Roles.Declaration
import ShaderSyntax.Proofs.Leaves
import ShaderSyntax.Proofs.Cleaning
import ShaderSyntax.Proofs.Following
import ShaderSyntax.Proofs.Touring
import ShaderSyntax.Proofs.Reaching
import ShaderSyntax.Proofs.Cycles
import ShaderSyntax.Proofs.Calls
import ShaderSyntax.Proofs.Resolving
import ShaderSyntax.Proofs.Spelling
import ShaderSyntax.Proofs.Naming
import ShaderSyntax.Proofs.Locating
import ShaderSyntax.Proofs.Runes
import ShaderSyntax.Proofs.Pointing
import ShaderSyntax.Proofs.Delimiters
import ShaderSyntax.Proofs.Legible
import ShaderSyntax.Proofs.Tidy
import ShaderSyntax.Proofs.Bare
import ShaderSyntax.Proofs.Decoding
import ShaderSyntax.Proofs.Dumps
import ShaderSyntax.Proofs.Answering
import ShaderSyntax.Proofs.Repeating
import ShaderSyntax.Proofs.Measuring
import ShaderSyntax.Proofs.Rows
import ShaderSyntax.Proofs.Lossless
import ShaderSyntax.Proofs.Bracing
import ShaderSyntax.Proofs.Sealing
import ShaderSyntax.Proofs.Enclosure
import ShaderSyntax.Proofs.Encoding
import ShaderSyntax.Proofs.Munching
import ShaderSyntax.Proofs.Respacing
import ShaderSyntax.Proofs.Outlines
import ShaderSyntax.Proofs.Boundaries
import ShaderSyntax.Proofs.Boundaries.Expression
import ShaderSyntax.Proofs.Boundaries.Statement
import ShaderSyntax.Proofs.Boundaries.Declaration
import ShaderSyntax.Proofs.Boundaries.Tree
import ShaderSyntax.Proofs.Widths
import ShaderSyntax.Proofs.Owners
import ShaderSyntax.Proofs.Failures
import ShaderSyntax.Proofs.Operands
import ShaderSyntax.Proofs.Reordering
import ShaderSyntax.Proofs.Innermost
import ShaderSyntax.Vocabulary.Index
import ShaderSyntax.Proofs.Underlining
import ShaderSyntax.Proofs.Piping
import ShaderSyntax.Proofs.Arguments
import ShaderSyntax.Proofs.Indexing
