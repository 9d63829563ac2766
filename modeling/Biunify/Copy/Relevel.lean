import Biunify.Copy.Basic

/-! Bringing a type down to a level. Each deeper variable is replaced by a fresh one
that lies above it where it is read positively and below it where it is read
negatively, so the copy can stand in for the type. -/

namespace Biunify
namespace Copy

/-- The stand-in of a variable at `level`. It becomes a bound of the variable, and
takes over the variable's bounds on the side it is read. -/
def standIn (level : Nat) : Nat → Polarity → Var → CopyM (PolarMap Var) Ty
  | 0, _, _ => throw .outOfFuel
  | fuel + 1, p, v => do
    match (← get).find? p v with
    | some copy => return .var copy
    | none =>
      let copy ← SessionM.newVar level
      modify (·.insert p v copy)
      SessionM.emit (.lifted v copy p)
      SessionM.modifyTable (·.addBound p.flip v (.var copy))
      let bounds := (← SessionM.table).bounds p v
      let bounds ← aboveElems level (standIn level fuel) p bounds
      SessionM.modifyTable (·.setBounds p copy bounds)
      return .var copy

end Copy

def Ty.relevel (ty : Ty) (p : Polarity) (level : Nat) : CheckM Ty := do
  let fuel := 2 * (← SessionM.varCount) + 1
  let (copy, _) ← (Copy.above level (Copy.standIn level fuel) p ty).run .empty
  return copy

end Biunify
