import Biunify.BoundTable
import Biunify.Ty.Printer

/-! Which variables can be reached from a variable or a type through the bounds of a
table. Each search repeats one turn as often as the table itself gives a bound for. -/

namespace Biunify
namespace BoundTable

def links (t : BoundTable) (p : Polarity) (v : Var) : List Var := (t.bounds p v).filterMap Ty.asVar?

theorem mem_links {t : BoundTable} {p : Polarity} {v w : Var} :
    w ∈ t.links p v ↔ .var w ∈ t.bounds p v := by
  simp only [links, List.mem_filterMap, Ty.asVar?_eq_some, exists_eq_right]

def followTurn (t : BoundTable) (p : Polarity) : List Var × VarSet → List Var × VarSet
  | ([], seen) => ([], seen)
  | (v :: todo, seen) =>
    if seen.contains v then (todo, seen)
    else
      (((t.links p v).filter fun w => !(seen.insert v).contains w).reverse ++ todo, seen.insert v)

/-- The variable itself and those that its bounds lead to, read at one polarity and
going through variables only. -/
def linkedVars (t : BoundTable) (p : Polarity) (v : Var) : VarSet :=
  (Nat.repeat (t.followTurn p) (t.weight + 1) ([v], .empty)).2

def exploreTurn (t : BoundTable) : List Ty × List Ty × VarSet → List Ty × List Ty × VarSet
  | ([], back, seen) => (back.reverse, [], seen)
  | (.var v :: front, back, seen) =>
    if seen.contains v then (front, back, seen)
    else (front, (t.upper v).reverse ++ (t.lower v).reverse ++ back, seen.insert v)
  | (ty :: front, back, seen) => (front, ty.children.reverse ++ back, seen)

/-- The variables that a type leads to, through its structure and through bounds of
either side. -/
def reachable (t : BoundTable) (ty : Ty) : VarSet :=
  (Nat.repeat t.exploreTurn (2 * (ty.size + t.weight) + 1) ([ty], [], .empty)).2.2

def describeSide (sign sep : String) (tys : List Ty) : String :=
  if tys.isEmpty then "" else sign ++ sepBy sep (tys.map Ty.render)

def describeVar? (t : BoundTable) (v : Var) : Option String :=
  if (t.lower v).isEmpty && (t.upper v).isEmpty then none
  else
    some (v.render ++ describeSide " :> " " | " (t.lower v)
      ++ describeSide " <: " " & " (t.upper v))

def describe (t : BoundTable) (ty : Ty) : String :=
  commaSep ((t.reachable ty).items.filterMap t.describeVar?)

end BoundTable
end Biunify
