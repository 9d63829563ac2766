import Biunify.Bundle.Combine
import Biunify.BundleGraph.Census

/-! A graph with fewer variables. A variable that is read at one polarity only says
nothing and goes; a variable that always stands beside another becomes that
other one; a variable that stands beside one base type at both polarities is that base
type. A cycle only ever becomes another cycle. -/

namespace Biunify

structure Reduction where
  bodies : VarMap Body
  beside : PolarMap (List Occurrence)
  /-- `none` removes a variable, `some w` puts `w` in its place. -/
  subst : VarMap (Option Var)
  /-- Newest first. -/
  events : List Event

namespace Reduction

def ofCensus (c : Census) : Reduction := ⟨c.bodies, c.beside, .empty, c.events⟩

def remove (v : Var) (e : Event) (r : Reduction) : Reduction :=
  { r with subst := r.subst.insert v none, events := e :: r.events }

def dropPolar (r : Reduction) (v : Var) : Reduction :=
  if r.bodies.contains v then r
  else
    match r.beside.contains .positive v, r.beside.contains .negative v with
    | true, false => r.remove v (.onePolarity v .positive)
    | false, true => r.remove v (.onePolarity v .negative)
    | _, _ => r

/-- Whether `w`, which stands beside `v`, never occurs without it. -/
def mergeable (v w : Var) (p : Polarity) (r : Reduction) : Bool :=
  w.id != v.id && !r.subst.contains w && r.bodies.contains v == r.bodies.contains w
    && match r.beside.find? p w with
      | some occs => occs.contains (.var v)
      | none => true

def shareBeside (v w : Var) (p : Polarity) (beside : PolarMap (List Occurrence)) :
    PolarMap (List Occurrence) :=
  match beside.find? p w, beside.find? p v with
  | some ws, some vs => beside.insert p v (vs.filter fun occ => occ == .var v || ws.contains occ)
  | _, _ => beside

def joinBodies (v w : Var) (p : Polarity) (bodies : VarMap Body) : VarMap Body :=
  match bodies.find? w, bodies.find? v with
  | some wBody, some vBody => (bodies.erase w).insert v (.joined vBody wBody p)
  | _, _ => bodies.erase w

def mergeInto (v w : Var) (p : Polarity) (r : Reduction) : Reduction :=
  if r.mergeable v w p then
    { bodies := joinBodies v w p r.bodies
      beside := if r.bodies.contains w then r.beside else shareBeside v w p.flip r.beside
      subst := r.subst.insert w (some v)
      events := .unified w v :: r.events }
  else r

def weigh (v : Var) (p : Polarity) (r : Reduction) : Occurrence → Reduction
  | .var w => r.mergeInto v w p
  | .base b =>
    match r.beside.find? p.flip v with
    | some occs => if occs.contains (.base b) then r.remove v (.equivalent v b) else r
    | none => r

def weighSide (v : Var) (r : Reduction) (p : Polarity) : Reduction :=
  ((r.beside.find? p v).getD []).foldl (weigh v p) r

def unify (r : Reduction) (v : Var) : Reduction :=
  if r.subst.contains v then r else [.positive, .negative].foldl (weighSide v) r

def ofGraph (g : BundleGraph) : Reduction :=
  let census := Census.take g
  let order := census.vars.items.reverse
  order.foldl unify (order.foldl dropPolar (ofCensus census))

def onVar (r : Reduction) (v : Var) : Option Var := (r.subst.find? v).getD (some v)

def onBundle (r : Reduction) : Bundle → Bundle :=
  Bundle.fold fun l =>
    .node { l.map Prod.snd with vars := .ofList (l.vars.items.filterMap r.onVar) }

def onBody (r : Reduction) : Body → Bundle
  | .plain b => r.onBundle b
  | .joined lhs rhs p => .combine p (r.onBody lhs) (r.onBody rhs)

/-- Cycles that were not met are left out. -/
def onGraph (r : Reduction) (g : BundleGraph) : BundleGraph :=
  ⟨r.onBundle g.root, r.bodies.map r.onBody⟩

end Reduction

def BundleGraph.reduce (g : BundleGraph) : BundleGraph := (Reduction.ofGraph g).onGraph g

end Biunify
