import Biunify.Literal

/-! Terms of the source language and programs, which are lists of definitions. -/

namespace Biunify

inductive Term where
  | literal (value : Literal)
  | var (name : String)
  | lambda (param : String) (body : Term)
  | apply (fn arg : Term)
  | record (fields : List (String × Term))
  | select (receiver : Term) (field : String)
  | tuple (elems : List Term)
  | letIn (name : String) (recursive : Bool) (rhs body : Term)

structure Definition where
  name : String
  recursive : Bool
  rhs : Term

structure Program where
  definitions : List Definition

namespace Term

def lambdas (params : List String) (body : Term) : Term := params.foldr lambda body

def applyTo (fn : Term) (args : List Term) : Term := args.foldl apply fn

/-- A conditional is a call of the three-argument function `if`. -/
def ifThenElse (cond thenBranch elseBranch : Term) : Term :=
  (var "if").applyTo [cond, thenBranch, elseBranch]

mutual

/-- Equality of terms, where float literals are compared by `Binary64.same`. -/
def same : Term → Term → Bool
  | literal a, literal b => a.same b
  | var x, var y => x == y
  | lambda x t, lambda y u => x == y && same t u
  | apply f a, apply g b => same f g && same a b
  | record fs, record gs => sameFields fs gs
  | select t x, select u y => same t u && x == y
  | tuple ts, tuple us => sameElems ts us
  | letIn x r a t, letIn y s b u => x == y && r == s && same a b && same t u
  | _, _ => false

def sameElems : List Term → List Term → Bool
  | [], [] => true
  | t :: ts, u :: us => same t u && sameElems ts us
  | _, _ => false

def sameFields : List (String × Term) → List (String × Term) → Bool
  | [], [] => true
  | (x, t) :: fs, (y, u) :: gs => x == y && same t u && sameFields fs gs
  | _, _ => false

end

instance : BEq Term := ⟨same⟩

end Term
end Biunify
