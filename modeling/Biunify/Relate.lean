import Biunify.Copy.Relevel
import Biunify.Expansion

/-! Making one type a subtype of another. A constraint on structure is taken apart; a
constraint on a variable is recorded as a bound and then holds between that bound and
every bound on the other side. A bound deeper than its variable is first brought down
to the variable's level. Only constraints with a variable on a side can come back, so
only those are remembered. -/

namespace Biunify

/-- What is left to do: relate two types, or report a field that a record lacks. -/
inductive Goal where
  | relate (lhs rhs : Ty)
  | lacking (field : String) (record : Ty)

abbrev Memo := List (String × String)

namespace Goal

def field (record : Ty) (lhs : List (String × Ty)) (rhs : String × Ty) : Goal :=
  match Ty.fieldNamed? rhs.1 lhs with
  | some ty => .relate ty rhs.2
  | none => .lacking rhs.1 record

def reject (lhs rhs : Ty) : CheckM (List Goal) := do
  let lhs ← expandBounds .positive lhs
  let rhs ← expandBounds .positive rhs
  throw (.failed (.cannotConstrain lhs rhs))

def boundAbove (v : Var) (rhs : Ty) : CheckM (List Goal) := do
  SessionM.modifyTable (·.addBound .negative v rhs)
  return ((← SessionM.table).lower v).map fun lb => .relate lb rhs

def boundBelow (lhs : Ty) (v : Var) : CheckM (List Goal) := do
  SessionM.modifyTable (·.addBound .positive v lhs)
  return ((← SessionM.table).upper v).map fun ub => .relate lhs ub

/-- One constraint, and the constraints that remain for it to hold. -/
def split : Ty → Ty → CheckM (List Goal)
  | .base a, .base b => if a.below b then return [] else reject (.base a) (.base b)
  | .arrow _ p r, .arrow _ q s => return [.relate q p, .relate r s]
  | .record n fs, .record _ gs => return gs.map (field (.record n fs) fs)
  | .tuple m ts, .tuple n us =>
    if ts.length = us.length then return List.zipWith .relate ts us
    else reject (.tuple m ts) (.tuple n us)
  | .var v, .var w =>
    if w.level ≤ v.level then boundAbove v (.var w) else boundBelow (.var v) w
  | .var v, rhs => do
    if rhs.level ≤ v.level then boundAbove v rhs
    else return [.relate (.var v) (← rhs.relevel .negative v.level)]
  | lhs, .var w => do
    if lhs.level ≤ w.level then boundBelow lhs w
    else return [.relate (← lhs.relevel .positive w.level) (.var w)]
  | lhs, rhs => reject lhs rhs

def remembered (lhs rhs : Ty) (memo : Memo) : Bool :=
  (lhs.isVar || rhs.isVar) && memo.contains (lhs.key, rhs.key)

def remember (lhs rhs : Ty) (memo : Memo) : Memo :=
  if lhs.isVar || rhs.isVar then (lhs.key, rhs.key) :: memo else memo

def step (memo : Memo) : Goal → CheckM (List Goal × Memo)
  | .lacking field record => do
    let record ← expandBounds .positive record
    throw (.failed (.missingField field record))
  | .relate lhs rhs => do
    if lhs.same rhs || remembered lhs rhs memo then return ([], memo)
    SessionM.emit (.constrained lhs rhs)
    return (← split lhs rhs, remember lhs rhs memo)

def solve : Nat → Memo → List Goal → CheckM Unit
  | _, _, [] => return
  | 0, _, _ :: _ => throw .outOfFuel
  | fuel + 1, memo, goal :: rest => do
    let (goals, memo) ← goal.step memo
    solve fuel memo (goals ++ rest)

end Goal

/-- Makes `lhs` a subtype of `rhs`, or says why it cannot be. -/
def relate (fuel : Nat) (lhs rhs : Ty) : CheckM Unit := Goal.solve fuel [] [.relate lhs rhs]

end Biunify
