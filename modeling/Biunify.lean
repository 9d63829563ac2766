import Biunify.Display
import Biunify.Typing
import Biunify.Proofs.Ty.Key
import Biunify.Proofs.Copy.StandIns
import Biunify.Proofs.Expansion
import Biunify.Proofs.Reading.Basic
import Biunify.Proofs.Relate.Steps
import Biunify.Proofs.Relate.Derivation
import Biunify.Proofs.Reading.Free
import Biunify.Proofs.Relate.Soundness
import Biunify.Proofs.Relate.Completeness
import Biunify.Proofs.BoundTable.Parts
import Biunify.Proofs.Relate.Termination
import Biunify.Proofs.Copy.Instances
import Biunify.Proofs.Copy.Exact
import Biunify.Proofs.Flow.Joined
import Biunify.Proofs.Flow.Closure
import Biunify.Proofs.Flow.Paths
import Biunify.Proofs.Typing.Discipline
import Biunify.Proofs.Typing.Safe
import Biunify.Proofs.Typing.Levels
import Biunify.Proofs.Typing.Frozen
import Biunify.Proofs.Typing.HasType
import Biunify.Proofs.Typing.Principal
import Biunify.Proofs.Bundle.Material
import Biunify.Proofs.Bundle.Places
import Biunify.Proofs.BundleGraph.Growth
import Biunify.Proofs.BundleGraph.Runs
import Biunify.Proofs.Bundle.Key
import Biunify.Proofs.BundleGraph.Unfolding
import Biunify.Proofs.Bundle.Structure
import Biunify.Proofs.Bundle.Fields
import Biunify.Proofs.Bundle.Laws
import Biunify.Proofs.BundleGraph.Occurs
import Biunify.Proofs.BundleGraph.Census
import Biunify.Proofs.Reading.Lattice
import Biunify.Proofs.BundleGraph.Merging
import Biunify.Proofs.BundleGraph.Reduction
import Biunify.Proofs.BundleGraph.Visits
import Biunify.Proofs.TypeExpr.Unfolding
import Biunify.Proofs.BundleGraph.ReadBack
import Biunify.Proofs.BundleGraph.Orderly
import Biunify.Proofs.BundleGraph.Turns
import Biunify.Proofs.BundleGraph.Residue
import Biunify.Proofs.TypeExpr.WellFormed
import Biunify.Proofs.BundleGraph.ReadShape
import Biunify.Proofs.Display.WellFormed
import Biunify.Proofs.Renumbering.Basic
import Biunify.Proofs.Renumbering.Reduction
import Biunify.Proofs.Renumbering.Growth
import Biunify.Proofs.Renumbering.Reading
import Biunify.Proofs.Display.Stability
import Biunify.Proofs.Reach.Termination
import Biunify.Proofs.BundleGraph.Canonical
import Biunify.Proofs.Operations
import Biunify.Proofs.Acceptance.Entailment
import Biunify.Proofs.Acceptance.OneLevel
import Biunify.Proofs.Acceptance.Order
import Biunify.Proofs.Relate.Structural
import Biunify.Proofs.Expansion.Exact
import Biunify.Proofs.TypeExpr.Structure
import Biunify.Proofs.TypeExpr.Renaming
import Biunify.Proofs.TypeExpr.Grouping
import Biunify.Proofs.TypeExpr.Levels
import Biunify.Proofs.TypeExpr.Legibility
import Biunify.Proofs.Bundle.Selection
import Biunify.Proofs.Term.Words
import Biunify.Proofs.Term.Legibility
import Biunify.Proofs.Reach.Exact
import Biunify.Text.Printable
