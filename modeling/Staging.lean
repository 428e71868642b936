import Staging.Attempt
import Staging.Attr
import Staging.Block
import Staging.Bypass
import Staging.Certificate
import Staging.Command
import Staging.Dependence
import Staging.Diagnostic
import Staging.Digest
import Staging.Double
import Staging.Forward
import Staging.Grammar
import Staging.Graphviz
import Staging.Invisible
import Staging.Invocation
import Staging.Legalize
import Staging.Levels
import Staging.Lex
import Staging.Load
import Staging.Lowering
import Staging.Main
import Staging.Memory
import Staging.Obstacle
import Staging.Options
import Staging.OptionsText
import Staging.Parse
import Staging.Pass
import Staging.Proofs.Accepting
import Staging.Proofs.Bare
import Staging.Proofs.Boundary
import Staging.Proofs.Bounded
import Staging.Proofs.Building
import Staging.Proofs.Conflicting
import Staging.Proofs.Counting
import Staging.Proofs.Creating
import Staging.Proofs.Deferring
import Staging.Proofs.Derivable
import Staging.Proofs.Diverting
import Staging.Proofs.Escaping
import Staging.Proofs.Faithful
import Staging.Proofs.Finest
import Staging.Proofs.Grouping
import Staging.Proofs.Layout
import Staging.Proofs.Materializing
import Staging.Proofs.Mirroring
import Staging.Proofs.Outliving
import Staging.Proofs.Placed
import Staging.Proofs.Quoting
import Staging.Proofs.Redefining
import Staging.Proofs.Repeating
import Staging.Proofs.Rereading
import Staging.Proofs.Rerunning
import Staging.Proofs.Resolved
import Staging.Proofs.Respacing
import Staging.Proofs.Restoring
import Staging.Proofs.RoundTrip
import Staging.Proofs.Running
import Staging.Proofs.Searching
import Staging.Proofs.Shaping
import Staging.Proofs.Successors
import Staging.Proofs.Tiling
import Staging.Proofs.Unfailing
import Staging.Proofs.Unscheduled
import Staging.Proofs.Walking
import Staging.Quoted
import Staging.Region
import Staging.RegionText
import Staging.ReportText
import Staging.Run
import Staging.Scan
import Staging.Span
import Staging.Stages
import Staging.Table
import Staging.Token
import Staging.Tree
import Staging.Uses
import Staging.ValueType
