import CubeSchema.Deferral.Identifiers
import CubeSchema.Main
import CubeSchema.Proofs.Deferral.Erasure
import CubeSchema.Proofs.Deferral.Parameters
import CubeSchema.Proofs.Tree.Reading
import CubeSchema.Tree.Traverse
import CubeSchema.Proofs.Compilation.Reparsing
import CubeSchema.Proofs.Compilation.Resolution
import CubeSchema.Proofs.Graph.Edges
import CubeSchema.Proofs.Compilation.FileOrder
import CubeSchema.Proofs.Compilation.References
import CubeSchema.Proofs.Compilation.Scheduling
import CubeSchema.Proofs.FileTree.Sparing
import CubeSchema.Proofs.Output.Actions
import CubeSchema.Proofs.Output.Targets
import CubeSchema.Proofs.Output.Cache
import CubeSchema.Proofs.Output.Transparency
import CubeSchema.Proofs.Compilation.Parentheses
import CubeSchema.Proofs.Tree.Yield
import CubeSchema.Proofs.Deferral.WellFormed
import CubeSchema.Proofs.Tree.Places
import CubeSchema.Proofs.Token.Joining
import CubeSchema.Proofs.Tree.Unplacing
import CubeSchema.Proofs.Tree.Sequence
import CubeSchema.Proofs.Graph.Bookkeeping
import CubeSchema.Proofs.Graph.Parts
import CubeSchema.Proofs.Tree.Folding
import CubeSchema.Proofs.Tree.Quotation
import CubeSchema.Proofs.Symbols.Entries
import CubeSchema.Proofs.Compilation.Braces
import CubeSchema.Proofs.Symbols.Shadowing
import CubeSchema.Proofs.Symbols.Collecting
import CubeSchema.Proofs.Output.Containment
import CubeSchema.Proofs.Output.Collisions
import CubeSchema.Proofs.Tree.Visits
import CubeSchema.Proofs.Tree.Replacement
import CubeSchema.Proofs.History.Reaching
import CubeSchema.Proofs.History.Sequences
import CubeSchema.Proofs.History.Accounting
import CubeSchema.Proofs.FileTree.Selection
import CubeSchema.Proofs.Config.Sources
import CubeSchema.Proofs.Tree.BareArrow
import CubeSchema.Proofs.Tree.Enclosure
