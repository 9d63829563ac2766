import Biunify.BaseTy

/-! Types as a reader sees them. Bounds on variables have become unions and
intersections, and cycles through bounds have become recursive types. -/

namespace Biunify

inductive TypeExpr where
  | top
  | bottom
  | base (b : BaseTy)
  | var (id : Nat)
  | arrow (param result : TypeExpr)
  | tuple (elems : List TypeExpr)
  | record (fields : List (String × TypeExpr))
  | union (members : List TypeExpr)
  | inter (members : List TypeExpr)
  | recursive (binder : Nat) (body : TypeExpr)

namespace TypeExpr

def children : TypeExpr → List TypeExpr
  | top | bottom | base _ | var _ => []
  | arrow param result => [param, result]
  | tuple ts | union ts | inter ts => ts
  | record fields => fields.map Prod.snd
  | recursive _ body => [body]

mutual

def same : TypeExpr → TypeExpr → Bool
  | top, top => true
  | bottom, bottom => true
  | base a, base b => a == b
  | var x, var y => x == y
  | arrow p r, arrow q s => same p q && same r s
  | tuple ts, tuple us => sameList ts us
  | record fs, record gs => sameFields fs gs
  | union ts, union us => sameList ts us
  | inter ts, inter us => sameList ts us
  | recursive x t, recursive y u => x == y && same t u
  | _, _ => false

def sameList : List TypeExpr → List TypeExpr → Bool
  | [], [] => true
  | t :: ts, u :: us => same t u && sameList ts us
  | _, _ => false

def sameFields : List (String × TypeExpr) → List (String × TypeExpr) → Bool
  | [], [] => true
  | (x, t) :: fs, (y, u) :: gs => x == y && same t u && sameFields fs gs
  | _, _ => false

end

instance : BEq TypeExpr := ⟨same⟩

mutual

def occurrences : TypeExpr → List Nat
  | top | bottom | base _ => []
  | var x => [x]
  | arrow param result => occurrences param ++ occurrences result
  | tuple ts | union ts | inter ts => occurrencesList ts
  | record fields => occurrencesFields fields
  | recursive binder body => binder :: occurrences body

def occurrencesList : List TypeExpr → List Nat
  | [] => []
  | t :: rest => occurrences t ++ occurrencesList rest

def occurrencesFields : List (String × TypeExpr) → List Nat
  | [] => []
  | (_, t) :: rest => occurrences t ++ occurrencesFields rest

end

def vars (t : TypeExpr) : List Nat := t.occurrences.eraseDups

mutual

def rename (f : Nat → Nat) : TypeExpr → TypeExpr
  | top => top
  | bottom => bottom
  | base b => base b
  | var x => var (f x)
  | arrow param result => arrow (rename f param) (rename f result)
  | tuple ts => tuple (renameList f ts)
  | record fields => record (renameFields f fields)
  | union ts => union (renameList f ts)
  | inter ts => inter (renameList f ts)
  | recursive binder body => recursive (f binder) (rename f body)

def renameList (f : Nat → Nat) : List TypeExpr → List TypeExpr
  | [] => []
  | t :: rest => rename f t :: renameList f rest

def renameFields (f : Nat → Nat) : List (String × TypeExpr) → List (String × TypeExpr)
  | [] => []
  | (name, t) :: rest => (name, rename f t) :: renameFields f rest

end

/-- Reads a list of pairs as a renaming: the last pair for a variable counts, and a
variable without a pair stays as it is. -/
def relabel (pairs : List (Nat × Nat)) (x : Nat) : Nat :=
  ((pairs.reverse.find? fun p => p.1 == x).map Prod.snd).getD x

def renumber (t : TypeExpr) : TypeExpr := t.rename fun x => t.vars.idxOf x

end TypeExpr
end Biunify
