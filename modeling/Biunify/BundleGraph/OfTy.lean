import Biunify.Bundle.OfTy
import Biunify.Session

/-! The bundle graph of a type. Every bundle absorbs the bounds of its variables, and
so does every bundle below it. Coming back to a bundle that has not been finished
gives a variable, whose body the bundle then becomes. -/

namespace Biunify
namespace BundleGraph

abbrev Mark := String × Polarity

structure Growth where
  /-- The variables of the bundles that were met again. -/
  named : List (Mark × Var)
  cycles : VarMap Bundle

abbrev GrowM := StateT Growth CheckM

def Growth.nameOf? (g : Growth) (mark : Mark) : Option Var :=
  (g.named.find? fun entry => entry.1 == mark).map Prod.snd

def cycleVar (mark : Mark) : GrowM Var := do
  match (← get).nameOf? mark with
  | some v => return v
  | none =>
    let v ← SessionM.newVar 0
    SessionM.emit (.cycleFound mark.1 v)
    modify fun g => { g with named := (mark, v) :: g.named }
    return v

/-- Grows a bundle below the bundles of `path`, which are not finished. -/
def grow : Nat → List Mark → Polarity → Bundle → GrowM Bundle
  | 0, _, _, _ => throw .outOfFuel
  | fuel + 1, path, p, b => do
    if b.isEmpty then return b
    let mark := (b.key, p)
    if path.contains mark then return .ofVar (← cycleVar mark)
    let l := (b.absorb (← SessionM.table) p).layer
    let below := grow fuel (mark :: path)
    let tuple ← l.tuple.mapM fun elems => elems.mapM (below p)
    let record ← l.record.mapM fun fields => fields.mapM fun f => return (f.1, ← below p f.2)
    let func ← l.func.mapM fun f => return (← below p.flip f.1, ← below p f.2)
    let grown := Bundle.node { l with tuple, record, func }
    match (← get).nameOf? mark with
    | some v =>
      modify fun g => { g with cycles := g.cycles.insert v grown }
      return .ofVar v
    | none => return grown

def ofTy (fuel : Nat) (ty : Ty) : CheckM BundleGraph := do
  let b := Bundle.ofTy (← SessionM.table) .positive ty
  let (root, growth) ← (grow fuel [] .positive b).run ⟨[], .empty⟩
  return ⟨root, growth.cycles⟩

end BundleGraph
end Biunify
