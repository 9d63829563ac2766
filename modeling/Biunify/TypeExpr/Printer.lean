import Biunify.Text
import Biunify.TypeExpr.Basic

/-! Text of type expressions. Variables are named in order of first occurrence, so
two expressions that differ only in their variables print alike. An arrow binds
weakest and associates to the right, then unions, then intersections; the body of a
recursive type is printed tightest of all. -/

namespace Biunify
namespace TypeExpr

def varName (i : Nat) : String :=
  let letter := (Char.ofNat ('a'.toNat + i % 26)).toString
  if i < 26 then "'" ++ letter else "'" ++ letter ++ (i / 26).repr

def nameAmong (vars : List Nat) (x : Nat) : String :=
  match vars.idxOf? x with
  | some i => varName i
  | none => "'?"

def arrowPrec : Nat := 10

def unionPrec : Nat := 20

def interPrec : Nat := 25

def recursivePrec : Nat := 31

mutual

def renderAt (name : Nat → String) (outer : Nat) : TypeExpr → String
  | top => "⊤"
  | bottom => "⊥"
  | base b => b.name
  | var x => name x
  | arrow param result =>
    parensIf (arrowPrec < outer)
      (renderAt name (arrowPrec + 1) param ++ " -> " ++ renderAt name arrowPrec result)
  | tuple ts => parens (commaSep (renderList name 0 ts))
  | record fields => braces (commaSep (renderFields name fields))
  | union ts => parensIf (unionPrec < outer) (sepBy " ∨ " (renderList name unionPrec ts))
  | inter ts => parensIf (interPrec < outer) (sepBy " ∧ " (renderList name interPrec ts))
  | recursive binder body => renderAt name recursivePrec body ++ " as " ++ name binder

def renderList (name : Nat → String) (outer : Nat) : List TypeExpr → List String
  | [] => []
  | t :: rest => renderAt name outer t :: renderList name outer rest

def renderFields (name : Nat → String) : List (String × TypeExpr) → List String
  | [] => []
  | (field, t) :: rest => labelled field (renderAt name 0 t) :: renderFields name rest

end

def render (t : TypeExpr) : String :=
  let vars := t.vars
  t.renderAt (nameAmong vars) 0

mutual

def dump (quote : String → String) : TypeExpr → String
  | top => "⊤"
  | bottom => "⊥"
  | base b => b.dump
  | var x => "TyVar" ++ parens x.repr
  | arrow param result => "Function" ++ parens (dump quote param ++ " -> " ++ dump quote result)
  | tuple ts => "Tuple" ++ parens (brackets (commaSep (dumpList quote ts)))
  | record fields => "Record" ++ parens (brackets (commaSep (dumpFields quote fields)))
  | union ts => "Union" ++ parens (brackets (commaSep (dumpList quote ts)))
  | inter ts => "Intersection" ++ parens (brackets (commaSep (dumpList quote ts)))
  | recursive binder body => "Recursive" ++ parens (binder.repr ++ ", " ++ dump quote body)

def dumpList (quote : String → String) : List TypeExpr → List String
  | [] => []
  | t :: rest => dump quote t :: dumpList quote rest

def dumpFields (quote : String → String) : List (String × TypeExpr) → List String
  | [] => []
  | (field, t) :: rest => parens (quote field ++ ", " ++ dump quote t) :: dumpFields quote rest

end

end TypeExpr
end Biunify
