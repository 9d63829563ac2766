import Biunify.Event

/-! What stands beside each variable of a bundle graph, at every place where the
variable is read at one polarity. -/

namespace Biunify

/-- The body of a cycle: one of the graph, or several that became one. -/
inductive Body where
  | plain (b : Bundle)
  | joined (lhs rhs : Body) (p : Polarity)

structure Census where
  vars : VarSet
  /-- The cycles met so far. -/
  bodies : VarMap Body
  /-- What stands beside a variable wherever it occurs. -/
  beside : PolarMap (List Occurrence)
  /-- Newest first. -/
  events : List Event

namespace Census

def ofLayer {α : Type} (l : Layer α) : List Occurrence :=
  l.vars.items.map .var ++ l.bases.toList.map .base

def count (p : Polarity) (occs : List Occurrence) (v : Var) (c : Census) : Census :=
  let c := { c with vars := c.vars.insert v }
  match c.beside.find? p v with
  | some old => { c with beside := c.beside.insert p v (old.filter occs.contains) }
  | none =>
    { c with beside := c.beside.insert p v occs, events := .occursWith v p occs :: c.events }

abbrev Pass := Polarity → Census → Census

def takeLayer (enter : Var → Pass) (l : Layer Pass) : Pass := fun p c =>
  let occs := ofLayer l
  let c := l.vars.items.foldl (fun c v => enter v p (count p occs v c)) c
  let c := (l.record.getD []).foldl (fun c f => f.2 p c) c
  let c := (l.tuple.getD []).foldl (fun c pass => pass p c) c
  match l.func with
  | some f => f.2 p (f.1 p.flip c)
  | none => c

def takeBundle (enter : Var → Pass) : Bundle → Pass :=
  Bundle.fold fun l => takeLayer enter (l.map Prod.snd)

def takeBody (cycles : VarMap Bundle) : Nat → Var → Pass
  | 0, _, _, c => c
  | fuel + 1, v, p, c =>
    match cycles.find? v with
    | none => c
    | some body =>
      if c.bodies.contains v then c
      else
        let c := { c with bodies := c.bodies.insert v (.plain body) }
        takeBundle (takeBody cycles fuel) body p c

/-- The census of a graph read positively. Each cycle is entered once, which bounds
the depth. -/
def take (g : BundleGraph) : Census :=
  takeBundle (takeBody g.cycles g.cycles.size) g.root .positive
    ⟨.ofList g.cycles.keys, .empty, .empty, []⟩

end Census
end Biunify
