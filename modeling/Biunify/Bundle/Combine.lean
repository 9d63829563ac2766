import Biunify.Bundle.Basic

/-! The union or intersection of two bundles. Variables and base types always join.
A union of records has the fields common to both, an intersection has the fields of
either. Tuples of different lengths have no common supertype; their intersection is
left to the first one. -/

namespace Biunify
namespace Bundle

abbrev Operand := Bundle × (Polarity → Bundle → Bundle)

def clash : Option (List Operand) → Option (List Bundle) → Bool
  | some ls, some rs => ls.length != rs.length
  | _, _ => false

def combineTuple (p : Polarity) :
    Option (List Operand) → Option (List Bundle) → Option (List Bundle)
  | some ls, some rs =>
    if ls.length = rs.length then some (List.zipWith (fun l r => l.2 p r) ls rs)
    else some (ls.map Prod.fst)
  | some ls, none => some (ls.map Prod.fst)
  | none, rs => rs

def commonFields (p : Polarity) (ls : List (String × Operand)) (rs : List (String × Bundle)) :
    List (String × Bundle) :=
  ls.filterMap fun l => (Fields.find? rs l.1).map fun r => (l.1, l.2.2 p r)

def allFields (p : Polarity) (ls : List (String × Operand)) (rs : List (String × Bundle)) :
    List (String × Bundle) :=
  let kept := ls.map fun l =>
    (l.1, match Fields.find? rs l.1 with
      | some r => l.2.2 p r
      | none => l.2.1)
  rs.foldl (fun fields r => Ordered.insert Prod.fst r fields) kept

def combineRecord (p : Polarity) : Option (List (String × Operand)) →
    Option (List (String × Bundle)) → Option (List (String × Bundle))
  | some ls, some rs =>
    match p with
    | .positive => some (commonFields p ls rs)
    | .negative => some (allFields p ls rs)
  | some ls, none => some (ls.map fun l => (l.1, l.2.1))
  | none, rs => rs

def combineFunc (p : Polarity) :
    Option (Operand × Operand) → Option (Bundle × Bundle) → Option (Bundle × Bundle)
  | some l, some r => some (l.1.2 p.flip r.1, l.2.2 p r.2)
  | some l, none => some (l.1.1, l.2.1)
  | none, r => r

def combineLayer (l : Layer Operand) (p : Polarity) (r : Layer Bundle) : Layer Bundle :=
  let top := p.isPositive && (l.top || r.top || clash l.tuple r.tuple)
  { vars := l.vars.union r.vars
    bases := l.bases.union r.bases
    tuple := if top then none else combineTuple p l.tuple r.tuple
    record := combineRecord p l.record r.record
    func := combineFunc p l.func r.func
    top := top }

/-- The union of two bundles read positively, or the intersection of two read negatively. -/
def combine (p : Polarity) (l r : Bundle) : Bundle :=
  fold (fun (l : Layer Operand) p r => node (combineLayer l p r.layer)) l p r

theorem combine_node (p : Polarity) (l r : Layer Bundle) :
    combine p (node l) (node r) =
      node (combineLayer (l.map fun b => (b, fun p r => combine p b r)) p r) := by
  rw [combine, fold_node]
  rfl

end Bundle
end Biunify
