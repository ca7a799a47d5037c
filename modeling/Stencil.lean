import Stencil.Template
import Stencil.Proofs.Except
import Stencil.Proofs.Expr.Productions
import Stencil.Proofs.Expr.Grammar
import Stencil.Proofs.Expr.Limits
import Stencil.Proofs.Expr.Soundness
import Stencil.Proofs.Token.Spelling
import Stencil.Proofs.Token.Lexeme
import Stencil.Proofs.Token.Stream
import Stencil.Proofs.Expr.Reading
import Stencil.Proofs.Expr.Offsets
import Stencil.Proofs.Clause.Productions
import Stencil.Proofs.Clause.Grammar
import Stencil.Proofs.Clause.Soundness
import Stencil.Proofs.Clause.Offsets
import Stencil.Proofs.Expr.Completeness
import Stencil.Proofs.Expr.Room
import Stencil.Proofs.Token.Layout
import Stencil.Proofs.Clause.Completeness
import Stencil.Proofs.Clause.Printing
import Stencil.Proofs.Expr.Environment
import Stencil.Proofs.Host.Display
import Stencil.Proofs.Expr.Spine
import Stencil.Proofs.Expr.Depth
import Stencil.Proofs.Expr.Recursion
import Stencil.Proofs.Render.Lexical
import Stencil.Proofs.Render.Scoping
import Stencil.Proofs.Block.Grammar
import Stencil.Proofs.Block.Nesting
import Stencil.Proofs.Expr.Relocation
import Stencil.Proofs.Token.Locality
import Stencil.Proofs.Clause.Relocation
import Stencil.Proofs.Clause.Tiling
import Stencil.Proofs.Block.Tiling
import Stencil.Proofs.Clause.Concatenation
import Stencil.Proofs.Expr.Nodes
import Stencil.Proofs.Clause.Wording
import Stencil.Proofs.Expr.Faults
import Stencil.Proofs.Render.Faults
import Stencil.Proofs.Block.Reading
import Stencil.Proofs.Expr.Results
import Stencil.Proofs.Decimal.Integer
import Stencil.Proofs.Expr.Coherence
import Stencil.Proofs.Expr.Simulation
import Stencil.Proofs.Render.Simulation
import Stencil.Proofs.Render.FreeNames
import Stencil.Proofs.Host.Twin
import Stencil.Proofs.Render.Privacy
import Stencil.Proofs.Token.Cut
import Stencil.Proofs.Expr.Spans
import Stencil.Proofs.Block.Spans
import Stencil.Proofs.Block.Machine
import Stencil.Proofs.Block.Refinement
import Stencil.Proofs.Token.Truncation
import Stencil.Proofs.Clause.Failure
import Stencil.Proofs.Block.Faults
import Stencil.Proofs.Clause.Written
import Stencil.Proofs.Render.Depth
import Stencil.Proofs.Host.Entries
import Stencil.Proofs.Render.Keywords
import Stencil.Proofs.Expr.Wrapping
import Stencil.Proofs.Expr.Division
import Stencil.Proofs.Host.Supply
import Stencil.Proofs.Expr.Data
import Stencil.Proofs.Render.Trace
import Stencil.Proofs.Render.Iterators
import Stencil.Proofs.Expr.Renaming
import Stencil.Proofs.Render.Renaming
import Stencil.Proofs.Ansi.Strip
import Stencil.Proofs.Diagnostic.Colors
import Stencil.Proofs.Text.Positions
import Stencil.Proofs.Token.LongestMatch
import Stencil.Proofs.Text.Lines
import Stencil.Proofs.Diagnostic.Caret
import Stencil.Proofs.Ansi.Residue
import Stencil.Proofs.Render.Access
import Stencil.Proofs.Scope.Shadows
import Stencil.Proofs.Render.Constants
import Stencil.Proofs.Render.Verbatim
import Stencil.Proofs.Expr.Prediction
import Stencil.Proofs.Expr.Refusals
import Stencil.Proofs.Clause.Prediction
import Stencil.Proofs.Clause.Missing
import Stencil.Proofs.Block.Reports
