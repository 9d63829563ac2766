import Biunify.Bundle.Combine
import Biunify.Reach

/-! Bundles of types. A variable is bundled with all the variables its bounds lead to;
its other bounds are left for later. -/

namespace Biunify
namespace Bundle

mutual

def ofTy (t : BoundTable) (p : Polarity) : Ty → Bundle
  | .base b => ofBase b
  | .var v => node { vars := t.linkedVars p v }
  | .arrow _ param result => node { func := some (ofTy t p.flip param, ofTy t p result) }
  | .tuple _ elems => node { tuple := some (ofElems t p elems) }
  | .record _ fields => node { record := some (Fields.ofList (ofFields t p fields)) }

def ofElems (t : BoundTable) (p : Polarity) : List Ty → List Bundle
  | [] => []
  | ty :: rest => ofTy t p ty :: ofElems t p rest

def ofFields (t : BoundTable) (p : Polarity) : List (String × Ty) → List (String × Bundle)
  | [] => []
  | (name, ty) :: rest => (name, ofTy t p ty) :: ofFields t p rest

end

/-- The bundle combined with the bounds of its variables that are not variables. -/
def absorb (t : BoundTable) (p : Polarity) (b : Bundle) : Bundle :=
  let bounds := b.layer.vars.items.flatMap fun v => (t.bounds p v).filter fun ty => !ty.isVar
  bounds.foldl (fun acc ty => combine p acc (ofTy t p ty)) b

end Bundle
end Biunify
