import Biunify.Copy.Basic
import Biunify.Scheme

/-! Instances of a scheme. The quantified variables are copied once each, with both
sides of their bounds; everything else is shared. -/

namespace Biunify
namespace Copy

/-- The copy of a quantified variable. Bounds are copied from the oldest to the
newest and keep their places. -/
def instanceVar (limit level : Nat) : Nat → Polarity → Var → CopyM (VarMap Var) Ty
  | 0, _, _ => throw .outOfFuel
  | fuel + 1, p, v => do
    match (← get).find? v with
    | some copy => return .var copy
    | none =>
      let copy ← SessionM.newVar level
      modify (·.insert v copy)
      let lower := (← SessionM.table).lower v
      let lower ← aboveElems limit (instanceVar limit level fuel) p lower.reverse
      SessionM.modifyTable (·.setBounds .positive copy lower.reverse)
      let upper := (← SessionM.table).upper v
      let upper ← aboveElems limit (instanceVar limit level fuel) p upper.reverse
      SessionM.modifyTable (·.setBounds .negative copy upper.reverse)
      return .var copy

end Copy

def Polytype.specialize (scheme : Polytype) (level : Nat) : CheckM Ty := do
  let fuel := (← SessionM.varCount) + 1
  let (copy, _) ← (Copy.above scheme.level (Copy.instanceVar scheme.level level fuel)
    .positive scheme.body).run .empty
  return copy

def Scheme.specialize (level : Nat) : Scheme → CheckM Ty
  | mono ty => return ty
  | poly p => p.specialize level

end Biunify
