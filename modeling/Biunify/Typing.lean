import Biunify.Copy.Specialize
import Biunify.Relate

/-! Types of terms. The right-hand side of a `let` is typed one level deeper than the
`let` itself; the variables of that level are the ones its scheme quantifies over. -/

namespace Biunify

/-- The scheme of a binding, given how to type its right-hand side in a context. A
recursive one sees itself monomorphically. -/
def bindingScheme (fuel : Nat) (ctx : Context) (level : Nat) (name : String) (recursive : Bool)
    (typeRhs : Context → CheckM Ty) : CheckM Polytype := do
  if recursive then
    let self := Ty.var (← SessionM.newVar (level + 1))
    let ty ← typeRhs (ctx.insert name (.mono self))
    relate fuel ty self
    return ⟨level, self⟩
  else
    return ⟨level, ← typeRhs ctx⟩

mutual

def typeOf (fuel : Nat) (ctx : Context) (level : Nat) : Term → CheckM Ty
  | .literal value => return .base value.baseTy
  | .var name =>
    match ctx.find? name with
    | some scheme => scheme.specialize level
    | none => throw (.failed (.unbound name))
  | .lambda param body => do
    let paramTy := Ty.var (← SessionM.newVar level)
    let bodyTy ← typeOf fuel (ctx.insert param (.mono paramTy)) level body
    SessionM.newArrow paramTy bodyTy
  | .apply fn arg => do
    let fnTy ← typeOf fuel ctx level fn
    let argTy ← typeOf fuel ctx level arg
    let result := Ty.var (← SessionM.newVar level)
    relate fuel fnTy (← SessionM.newArrow argTy result)
    return result
  | .select receiver field => do
    let receiverTy ← typeOf fuel ctx level receiver
    let result := Ty.var (← SessionM.newVar level)
    relate fuel receiverTy (← SessionM.newRecord [(field, result)])
    return result
  | .tuple elems => do SessionM.newTuple (← typeElems fuel ctx level elems)
  | .record fields => do SessionM.newRecord (← typeFields fuel ctx level fields)
  | .letIn name recursive rhs body => do
    let scheme ← bindingScheme fuel ctx level name recursive fun ctx =>
      typeOf fuel ctx (level + 1) rhs
    typeOf fuel (ctx.insert name (.poly scheme)) level body

def typeElems (fuel : Nat) (ctx : Context) (level : Nat) : List Term → CheckM (List Ty)
  | [] => return []
  | t :: rest => return (← typeOf fuel ctx level t) :: (← typeElems fuel ctx level rest)

def typeFields (fuel : Nat) (ctx : Context) (level : Nat) :
    List (String × Term) → CheckM (List (String × Ty))
  | [] => return []
  | (name, t) :: rest =>
    return (name, ← typeOf fuel ctx level t) :: (← typeFields fuel ctx level rest)

end

def infer (fuel : Nat) (ctx : Context) (term : Term) : CheckM Ty := do
  let ty ← typeOf fuel ctx 0 term
  SessionM.emit (.typed term ty)
  return ty

def inferDefinitions (fuel : Nat) (ctx : Context) : List Definition → CheckM (List Polytype)
  | [] => return []
  | d :: rest => do
    let scheme ← bindingScheme fuel ctx 0 d.name d.recursive fun ctx => typeOf fuel ctx 1 d.rhs
    SessionM.emit (.defined d.name scheme.body)
    return scheme :: (← inferDefinitions fuel (ctx.insert d.name (.poly scheme)) rest)

def inferProgram (fuel : Nat) (ctx : Context) (program : Program) : CheckM (List Polytype) :=
  inferDefinitions fuel ctx program.definitions

def standardContext : SessionM Context := do
  let branch := Ty.var (← SessionM.newVar 1)
  let bool := Ty.base .bool
  let int := Ty.base .int
  let not ← SessionM.newArrow bool bool
  let succ ← SessionM.newArrow int int
  let add ← SessionM.newArrows [int, int] int
  let cond ← SessionM.newArrows [bool, branch, branch] branch
  return .ofList
    [("true", .mono bool), ("false", .mono bool), ("not", .mono not), ("succ", .mono succ),
      ("add", .mono add), ("if", .poly ⟨0, cond⟩)]

end Biunify
