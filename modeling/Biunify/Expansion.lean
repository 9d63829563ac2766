import Biunify.Session

/-! A type as its bounds make it, with nothing left out: a variable read
positively is joined with its lower bounds, one read negatively meets its upper
bounds. Coming back to a variable that is being expanded gives a reference to a fresh
binder. Failed constraints are reported in this form. -/

namespace Biunify
namespace Expansion

abbrev ExpandM := StateT (PolarMap Var) CheckM

section Structure

variable (visit : Polarity → Var → ExpandM TypeExpr)

mutual

def ofTy (p : Polarity) : Ty → ExpandM TypeExpr
  | .base b => return .base b
  | .var v => visit p v
  | .arrow _ param result => return .arrow (← ofTy p.flip param) (← ofTy p result)
  | .tuple _ elems => return .tuple (← ofElems p elems)
  | .record _ fields => return .record (← ofFields p fields)

def ofElems (p : Polarity) : List Ty → ExpandM (List TypeExpr)
  | [] => return []
  | t :: rest => return (← ofTy p t) :: (← ofElems p rest)

def ofFields (p : Polarity) : List (String × Ty) → ExpandM (List (String × TypeExpr))
  | [] => return []
  | (name, t) :: rest => return (name, ← ofTy p t) :: (← ofFields p rest)

end

end Structure

def binderFor (p : Polarity) (v : Var) : ExpandM Var := do
  match (← get).find? p v with
  | some binder => return binder
  | none =>
    let binder ← SessionM.newVar 0
    modify (·.insert p v binder)
    return binder

def joined (p : Polarity) (v : Var) : List TypeExpr → TypeExpr
  | [] => .var v.id
  | bounds =>
    match p with
    | .positive => .union (.var v.id :: bounds)
    | .negative => .inter (.var v.id :: bounds)

/-- Expands a variable below the variables of `path`, which are still being expanded. -/
def ofVar : Nat → List (Polarity × Nat) → Polarity → Var → ExpandM TypeExpr
  | 0, _, _, _ => throw .outOfFuel
  | fuel + 1, path, p, v => do
    if path.contains (p, v.id) then return .var (← binderFor p v).id
    let bounds := (← SessionM.table).bounds p v
    let members ← ofElems (ofVar fuel ((p, v.id) :: path)) p bounds
    match (← get).find? p v with
    | some binder => return .recursive binder.id (joined p v members)
    | none => return joined p v members

end Expansion

/-- A type with the bounds of its variables written out, read at one polarity. No path
is longer than the number of variables read both ways. -/
def expandBounds (p : Polarity) (ty : Ty) : CheckM TypeExpr := do
  let fuel := 2 * (← SessionM.varCount) + 1
  let (result, _) ← (Expansion.ofTy (Expansion.ofVar fuel []) p ty).run .empty
  return result

end Biunify
