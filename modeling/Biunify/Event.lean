import Biunify.Bundle.Printer
import Biunify.Term.Printer
import Biunify.Ty.Printer
import Biunify.TypeExpr.Printer

/-! What the passes report while they work. -/

namespace Biunify

inductive Occurrence where
  | var (v : Var)
  | base (b : BaseTy)

namespace Occurrence

def same : Occurrence → Occurrence → Bool
  | var v, var w => v.id == w.id
  | base a, base b => a == b
  | _, _ => false

instance : BEq Occurrence := ⟨same⟩

def dump : Occurrence → String
  | var v => "Var" ++ parens v.dump
  | base b => "Prim" ++ parens b.dump

end Occurrence

inductive Place where
  | var (id : Nat) (p : Polarity)
  | bundle (key : String) (p : Polarity)
deriving DecidableEq

namespace Place

def render : Place → String
  | var id p => id.repr ++ "_" ++ p.render
  | bundle key p => key ++ "_" ++ p.render

end Place

inductive Event where
  | typed (term : Term) (ty : Ty)
  | defined (name : String) (ty : Ty)
  | constrained (lhs rhs : Ty)
  | lifted (v copy : Var) (p : Polarity)
  | cycleFound (key : String) (v : Var)
  | occursWith (v : Var) (p : Polarity) (beside : List Occurrence)
  | onePolarity (v : Var) (p : Polarity)
  | equivalent (v : Var) (b : BaseTy)
  | unified (merged kept : Var)
  | bound (place : Place) (binder : Nat)
  | inferred (ty : Ty)
  | expanded (root : Bundle)
  | reduced (root : Bundle)
  | displayed (ty : TypeExpr)

namespace Event

inductive Level where
  | debug
  | trace

def level : Event → Level
  | typed .. | defined .. | inferred .. | expanded .. | reduced .. | displayed .. => .debug
  | _ => .trace

def message (quote : String → String) : Event → String
  | typed term ty => labelled (term.render quote) ty.render
  | defined name ty => labelled name ty.render
  | constrained lhs rhs => "constrain " ++ lhs.render ++ " <: " ++ rhs.render
  | lifted v copy p =>
    "extrude " ++ v.render ++ " to " ++ copy.render ++ " " ++ parens ("positive: " ++ p.render)
  | cycleFound key v => key ++ " is recursive, bound to " ++ v.render
  | occursWith v p beside =>
    labelled ("co-occurrence " ++ v.render ++ " " ++ parens p.render)
      (brackets (commaSep (beside.map Occurrence.dump)))
  | onePolarity v .positive => v.render ++ " only occurs positively"
  | onePolarity v .negative => v.render ++ " only occurs negatively"
  | equivalent v b => v.render ++ " is equivalent to " ++ b.name
  | unified merged kept => "unify " ++ merged.render ++ " into " ++ kept.render
  | bound place binder => "recursive " ++ place.render ++ " as " ++ binder.repr
  | inferred ty => labelled "inferred" ty.render
  | expanded root => labelled "canonicalized" root.render
  | reduced root => labelled "simplified" root.render
  | displayed ty => labelled "coalesced" ty.render

def Level.name : Level → String
  | debug => "DEBUG"
  | trace => "TRACE"

def render (quote : String → String) (e : Event) : String :=
  e.level.name ++ " " ++ e.message quote

end Event
end Biunify
