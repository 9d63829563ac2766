import Biunify.BoundTable
import Biunify.Event

/-! The state that inference works on, the ways in which inference fails, and computations that
may stop early. What was recorded before a stop stays recorded. -/

namespace Biunify

structure Session where
  table : BoundTable
  /-- The stamp of the next arrow, tuple or record. -/
  nextNode : Nat
  /-- Newest first. -/
  log : List Event

namespace Session

def empty : Session := ⟨.empty, 0, []⟩

end Session

inductive TypeError where
  | cannotConstrain (lhs rhs : TypeExpr)
  | missingField (field : String) (record : TypeExpr)
  | unbound (name : String)

namespace TypeError

def message : TypeError → String
  | cannotConstrain lhs rhs => "cannot constrain " ++ lhs.render ++ " <: " ++ rhs.render
  | missingField field record => "missing field: " ++ field ++ " in " ++ record.render
  | unbound name => "identifier not found: " ++ name

end TypeError

inductive Stop where
  | outOfFuel
  | failed (error : TypeError)

abbrev SessionM := StateM Session

abbrev CheckM := ExceptT Stop SessionM

namespace SessionM

def table : SessionM BoundTable := return (← get).table

def varCount : SessionM Nat := return (← table).size

def modifyTable (f : BoundTable → BoundTable) : SessionM Unit :=
  modify fun s => { s with table := f s.table }

def newVar (level : Nat) : SessionM Var :=
  modifyGet fun s => (s.table.nextVar level, { s with table := s.table.addVar level })

def emit (e : Event) : SessionM Unit := modify fun s => { s with log := e :: s.log }

def emitAll (es : List Event) : SessionM Unit :=
  modify fun s => { s with log := es.reverse ++ s.log }

def newNode : SessionM Nat :=
  modifyGet fun s => (s.nextNode, { s with nextNode := s.nextNode + 1 })

def newArrow (param result : Ty) : SessionM Ty := return .arrow (← newNode) param result

def newTuple (elems : List Ty) : SessionM Ty := return .tuple (← newNode) elems

def newRecord (fields : List (String × Ty)) : SessionM Ty := return .record (← newNode) fields

def newArrows : List Ty → Ty → SessionM Ty
  | [], result => return result
  | t :: rest, result => do newArrow t (← newArrows rest result)

end SessionM
end Biunify
