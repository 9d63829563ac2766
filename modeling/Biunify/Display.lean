import Biunify.BundleGraph.OfTy
import Biunify.BundleGraph.Reduce
import Biunify.BundleGraph.ToTypeExpr

/-! The type expression that a user is shown for an inferred type. -/

namespace Biunify

def BundleGraph.reduceLogged (g : BundleGraph) : SessionM BundleGraph := do
  let r := Reduction.ofGraph g
  SessionM.emitAll r.events.reverse
  return r.onGraph g

def display (fuel : Nat) (ty : Ty) : CheckM TypeExpr := do
  SessionM.emit (.inferred ty)
  let graph ← BundleGraph.ofTy fuel ty
  SessionM.emit (.expanded graph.root)
  let graph ← graph.reduceLogged
  SessionM.emit (.reduced graph.root)
  let result ← graph.toTypeExpr
  SessionM.emit (.displayed result)
  return result

end Biunify
