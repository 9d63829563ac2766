import Biunify.Decimal

/-! Floating-point literals, kept as the 64 bits of their binary interchange format. -/

namespace Biunify

structure Binary64 where
  bits : UInt64
deriving DecidableEq

namespace Binary64

def isNegative (x : Binary64) : Bool := x.bits.toNat >>> 63 == 1

def exponentField (x : Binary64) : Nat := (x.bits.toNat >>> 52) % 2048

def fraction (x : Binary64) : Nat := x.bits.toNat % (1 <<< 52)

def isNaN (x : Binary64) : Bool := x.exponentField == 2047 && x.fraction != 0

def isInfinite (x : Binary64) : Bool := x.exponentField == 2047 && x.fraction == 0

def isZero (x : Binary64) : Bool := x.exponentField == 0 && x.fraction == 0

def significand (x : Binary64) : Nat :=
  if x.exponentField = 0 then x.fraction else (1 <<< 52) + x.fraction

def exponent (x : Binary64) : Int := (max x.exponentField 1 : Nat) - 1075

/-- At a power of two the number below lies in the next finer binade. -/
def window (x : Binary64) : Decimal.Window :=
  .ofBinary x.significand x.exponent (x.fraction == 0 && 1 < x.exponentField)

def magnitude (x : Binary64) : String :=
  if x.isInfinite then "inf"
  else if x.isZero then "0"
  else x.window.shortest.positional

def render (x : Binary64) : String :=
  if x.isNaN then "NaN"
  else if x.isNegative then "-" ++ x.magnitude
  else x.magnitude

def canonical (x : Binary64) : Binary64 :=
  if x.isNaN then ⟨0x7ff8000000000000⟩
  else if x.isZero then ⟨0⟩
  else x

/-- Equality as a total relation: every not-a-number equals every other, and the
sign of zero does not count. -/
def same (x y : Binary64) : Bool := x.canonical == y.canonical

end Binary64
end Biunify
