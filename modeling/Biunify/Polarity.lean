/-! The two ways a type can be read: as what flows out of a place (positive) or as
what a place accepts (negative). A function parameter is read the other way round. -/

namespace Biunify

inductive Polarity where
  | positive
  | negative
deriving DecidableEq

namespace Polarity

def flip : Polarity → Polarity
  | positive => negative
  | negative => positive

def isPositive : Polarity → Bool
  | positive => true
  | negative => false

def ofBool : Bool → Polarity
  | true => positive
  | false => negative

def render : Polarity → String
  | positive => "true"
  | negative => "false"

@[simp] theorem flip_flip (p : Polarity) : p.flip.flip = p := by cases p <;> rfl

theorem flip_ne (p : Polarity) : p.flip ≠ p := by cases p <;> decide

@[simp] theorem ofBool_isPositive (p : Polarity) : ofBool p.isPositive = p := by cases p <;> rfl

end Polarity
end Biunify
