import LusoPascal.Main
import LusoPascal.Text.Line
import LusoPascal.Token.Cursor
import LusoPascal.Proofs.Token.Delivery
import LusoPascal.Proofs.Grammar.Derivation
import LusoPascal.Proofs.Grammar.Reading
import LusoPascal.Proofs.Grammar.Expression
import LusoPascal.Proofs.Grammar.NearestElse
import LusoPascal.Proofs.Grammar.Statement
import LusoPascal.Proofs.Grammar.Program
import LusoPascal.Proofs.Grammar.Acceptance
import LusoPascal.Proofs.Analysis.Reference
import LusoPascal.Proofs.Analysis.Simulation
import LusoPascal.Proofs.Analysis.CallSite
import LusoPascal.Proofs.Token.Written
import LusoPascal.Proofs.Text.Class
import LusoPascal.Proofs.Tree.WellFormed
import LusoPascal.Proofs.Grammar.WellFormed
import LusoPascal.Proofs.Tree.Rendering
import LusoPascal.Proofs.Grammar.Rendered
import LusoPascal.Proofs.Grammar.Image
import LusoPascal.Proofs.Token.Pattern
import LusoPascal.Proofs.Token.Segmentation
import LusoPascal.Proofs.Analysis.Strictness
import LusoPascal.Proofs.Analysis.Signature
import LusoPascal.Proofs.Grammar.Failing
import LusoPascal.Proofs.Grammar.Mending
import LusoPascal.Proofs.Grammar.Stream
import LusoPascal.Proofs.Grammar.Lockstep
import LusoPascal.Proofs.Grammar.Mirroring
import LusoPascal.Proofs.Grammar.Kinds
import LusoPascal.Proofs.Grammar.Viability
import LusoPascal.Proofs.Run.Parallel
import LusoPascal.Proofs.Tree.Reline
import LusoPascal.Proofs.Token.Shift
import LusoPascal.Proofs.Grammar.Calls
import LusoPascal.Proofs.Grammar.Shifting
import LusoPascal.Proofs.Grammar.Resumption
import LusoPascal.Proofs.Analysis.Relabelling
import LusoPascal.Proofs.Grammar.Layout
import LusoPascal.Proofs.Analysis.BuiltinTypes
import LusoPascal.Proofs.Scope.Stack
import LusoPascal.Proofs.Grammar.Printed
import LusoPascal.Proofs.Token.Extension
import LusoPascal.Proofs.Grammar.Transfer
import LusoPascal.Proofs.Grammar.FullStop
import LusoPascal.Proofs.Analysis.Blame
import LusoPascal.Proofs.Analysis.Frame
import LusoPascal.Proofs.Analysis.EventLog
import LusoPascal.Proofs.Token.Course
import LusoPascal.Proofs.Token.Insertion
import LusoPascal.Proofs.Analysis.TextOrder
import LusoPascal.Proofs.Scope.Restoration
import LusoPascal.Proofs.Tree.Relabel
import LusoPascal.Proofs.Scope.Relabel
import LusoPascal.Proofs.Text.Line
import LusoPascal.Proofs.Compilation.Diagnostic
import LusoPascal.Proofs.Grammar.Number
import LusoPascal.Proofs.Grammar.Entering
import LusoPascal.Proofs.Grammar.Lookahead
import LusoPascal.Proofs.Grammar.Progress
