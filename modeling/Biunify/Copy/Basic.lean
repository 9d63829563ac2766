import Biunify.Session

/-! Copying the part of a type that lies above a level. What lies at or below the
level is shared with the copy, down to the node; above it, structure is built anew
and every variable is left to `visit`. -/

namespace Biunify

abbrev CopyM (κ : Type) := StateT κ CheckM

namespace Copy

variable {κ : Type} (limit : Nat) (visit : Polarity → Var → CopyM κ Ty)

mutual

def above (p : Polarity) : Ty → CopyM κ Ty
  | .base b => return .base b
  | .var v => if v.level ≤ limit then return .var v else visit p v
  | .arrow node param result => do
    if (Ty.arrow node param result).level ≤ limit then return .arrow node param result
    SessionM.newArrow (← above p.flip param) (← above p result)
  | .tuple node elems => do
    if (Ty.tuple node elems).level ≤ limit then return .tuple node elems
    SessionM.newTuple (← aboveElems p elems)
  | .record node fields => do
    if (Ty.record node fields).level ≤ limit then return .record node fields
    SessionM.newRecord (← aboveFields p fields)

def aboveElems (p : Polarity) : List Ty → CopyM κ (List Ty)
  | [] => return []
  | t :: rest => return (← above p t) :: (← aboveElems p rest)

def aboveFields (p : Polarity) : List (String × Ty) → CopyM κ (List (String × Ty))
  | [] => return []
  | (name, t) :: rest => return (name, ← above p t) :: (← aboveFields p rest)

end

end Copy
end Biunify
