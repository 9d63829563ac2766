import Biunify.Term.Basic

/-! Two texts for a term: source form with no more parentheses than needed, and a
dump that names every constructor. The body of a lambda or a `let` extends as far
to the right as it can, application associates to the left, and selection binds
tightest. -/

namespace Biunify
namespace Term

def lambdaPrec : Nat := 10

def applyPrec : Nat := 20

def selectPrec : Nat := 30

def bindingHead (name : String) (recursive : Bool) : String :=
  (if recursive then "let rec " else "let ") ++ name ++ " = "

mutual

/-- Source form inside a context that binds with strength `outer`. -/
def renderAt (quote : String → String) (outer : Nat) : Term → String
  | literal value => value.render quote
  | var name => name
  | lambda param body =>
    parensIf (lambdaPrec < outer) ("fun " ++ param ++ " -> " ++ renderAt quote lambdaPrec body)
  | apply fn arg =>
    parensIf (applyPrec < outer)
      (renderAt quote applyPrec fn ++ " " ++ renderAt quote (applyPrec + 1) arg)
  | record fields => braces (commaSep (renderFields quote fields))
  | select receiver field => renderAt quote selectPrec receiver ++ "." ++ field
  | tuple elems => parens (commaSep (renderElems quote elems))
  | letIn name recursive rhs body =>
    parensIf (lambdaPrec < outer)
      (bindingHead name recursive ++ renderAt quote 0 rhs ++ " in " ++ renderAt quote 0 body)

def renderElems (quote : String → String) : List Term → List String
  | [] => []
  | t :: rest => renderAt quote 0 t :: renderElems quote rest

def renderFields (quote : String → String) : List (String × Term) → List String
  | [] => []
  | (name, t) :: rest => labelled name (renderAt quote 0 t) :: renderFields quote rest

end

def render (quote : String → String) (t : Term) : String := t.renderAt quote 0

def dumpBinding (name : String) (recursive : Bool) (rhs : String) : String :=
  "Let" ++ parens (name ++ ", rec: " ++ renderBool recursive ++ ", " ++ rhs)

mutual

def dump (quote : String → String) : Term → String
  | literal value => value.dump quote
  | var name => "Var" ++ parens name
  | lambda param body => "Fun" ++ parens (param ++ ", " ++ dump quote body)
  | apply fn arg => "App" ++ parens (dump quote fn ++ " " ++ dump quote arg)
  | record fields => "Rcd" ++ parens (brackets (commaSep (dumpFields quote fields)))
  | select receiver field => "Sel" ++ parens (dump quote receiver ++ ", " ++ field)
  | tuple elems => "Tuple" ++ parens (brackets (commaSep (dumpElems quote elems)))
  | letIn name recursive rhs body =>
    "Let" ++ parens (dumpBinding name recursive (dump quote rhs) ++ ", " ++ dump quote body)

def dumpElems (quote : String → String) : List Term → List String
  | [] => []
  | t :: rest => dump quote t :: dumpElems quote rest

def dumpFields (quote : String → String) : List (String × Term) → List String
  | [] => []
  | (name, t) :: rest => parens (quote name ++ ", " ++ dump quote t) :: dumpFields quote rest

end

end Term

namespace Definition

def render (quote : String → String) (d : Definition) : String :=
  Term.bindingHead d.name d.recursive ++ d.rhs.render quote

def dump (quote : String → String) (d : Definition) : String :=
  Term.dumpBinding d.name d.recursive (d.rhs.dump quote)

end Definition

namespace Program

def render (quote : String → String) (p : Program) : String :=
  String.join (p.definitions.map fun d => d.render quote ++ "\n")

def dump (quote : String → String) (p : Program) : String :=
  "Program" ++ parens (brackets (commaSep (p.definitions.map (Definition.dump quote))))

end Program
end Biunify
