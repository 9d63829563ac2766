import Biunify.Session

/-! Reading a bundle graph as a type expression. A bundle becomes the union or the
intersection of its parts. Coming back to a place that is still being read gives a
reference to a binder, and the reading of that place becomes a recursive type. -/

namespace Biunify
namespace BundleGraph

/-- A place being read, with its binder once it was met again. -/
structure Pending where
  place : Place
  binder : Option Nat

abbrev ReadM := StateT (List Pending) CheckM

def setBinder (place : Place) (binder : Nat) : List Pending → List Pending
  | [] => []
  | f :: rest =>
    if f.place = place then ⟨place, some binder⟩ :: rest else f :: setBinder place binder rest

def newBinder : Place → SessionM Nat
  | .var id _ => return id
  | .bundle _ _ => return (← SessionM.newVar 0).id

def leave : List Pending → Option Nat × List Pending
  | [] => (none, [])
  | f :: rest => (f.binder, rest)

def readAt (place : Place) (read : ReadM TypeExpr) : ReadM TypeExpr := do
  match (← get).find? fun f => f.place == place with
  | some ⟨_, some binder⟩ => return .var binder
  | some ⟨_, none⟩ =>
    let binder ← newBinder place
    modify (setBinder place binder)
    return .var binder
  | none =>
    modify (⟨place, none⟩ :: ·)
    let result ← read
    match ← modifyGet leave with
    | some binder =>
      SessionM.emit (.bound place binder)
      return .recursive binder result
    | none => return result

def ofParts : Polarity → List TypeExpr → TypeExpr
  | .positive, [] => .bottom
  | .negative, [] => .top
  | _, [part] => part
  | .positive, parts => .union parts
  | .negative, parts => .inter parts

abbrev Reader := Polarity → ReadM TypeExpr

def readLayer (visit : Var → Reader) (l : Layer Reader) : Reader := fun p => do
  if l.top then return .top
  let vars ← l.vars.items.mapM fun v => visit v p
  let bases := l.bases.toList.map TypeExpr.base
  let record ← l.record.mapM fun fields => fields.mapM fun f => return (f.1, ← f.2 p)
  let tuple ← l.tuple.mapM fun elems => elems.mapM fun read => read p
  let func ← l.func.mapM fun f => return TypeExpr.arrow (← f.1 p.flip) (← f.2 p)
  return ofParts p (vars ++ bases ++ (record.map .record).toList ++ (tuple.map .tuple).toList
    ++ func.toList)

def readBundle (visit : Var → Reader) : Bundle → Reader :=
  Bundle.fold fun l p =>
    readAt (.bundle (Bundle.node (l.map Prod.fst)).key p) (readLayer visit (l.map Prod.snd) p)

def readVar (cycles : VarMap Bundle) : Nat → Var → Reader
  | 0, _, _ => throw .outOfFuel
  | fuel + 1, v, p =>
    readAt (.var v.id p) (match cycles.find? v with
      | some body => readBundle (readVar cycles fuel) body p
      | none => return .var v.id)

/-- A path enters each cycle at most once for each polarity. -/
def toTypeExpr (g : BundleGraph) : CheckM TypeExpr := do
  let (result, _) ←
    (readBundle (readVar g.cycles (2 * g.cycles.size + 1)) g.root .positive).run []
  return result

end BundleGraph
end Biunify
