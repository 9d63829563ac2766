/-! Decimal text of binary numbers: the fewest digits that read back to the same
number, written positionally. Among decimals of that length the nearest is taken,
and of two equally near ones the larger. -/

namespace Biunify

structure Decimal where
  digits : Nat
  exponent : Int
deriving DecidableEq

namespace Decimal

def digitText (n : Nat) : List Char := Nat.toDigits 10 n

def positional (d : Decimal) : String :=
  let text := digitText d.digits
  if 0 ≤ d.exponent then String.ofList (text ++ List.replicate d.exponent.toNat '0')
  else
    let places := (-d.exponent).toNat
    let padded := List.replicate (places + 1 - text.length) '0' ++ text
    let whole := padded.length - places
    String.ofList (padded.take whole ++ '.' :: padded.drop whole)

/-- The numbers that round to `value / scale`: those strictly between `low / scale`
and `high / scale`, and the two ends as well when `closed`. -/
structure Window where
  low : Nat
  value : Nat
  high : Nat
  scale : Nat
  closed : Bool

namespace Window

def ofBinary (m : Nat) (q : Int) (narrow : Bool) : Window :=
  let unit := 1 <<< (q - 2).toNat
  { low := (4 * m - if narrow then 1 else 2) * unit
    value := 4 * m * unit
    high := (4 * m + 2) * unit
    scale := 1 <<< (2 - q).toNat
    closed := m % 2 == 0 }

def step (w : Window) (k : Int) : Nat := Nat.pow 10 k.toNat * w.scale

def onGrid (x : Nat) (k : Int) : Nat := x * Nat.pow 10 (-k).toNat

def admits (w : Window) (k : Int) (d : Nat) : Bool :=
  let x := d * w.step k
  let low := onGrid w.low k
  let high := onGrid w.high k
  if w.closed then low ≤ x && x ≤ high else low < x && x < high

def floorAt (w : Window) (k : Int) : Nat := onGrid w.value k / w.step k

def nearerAbove (w : Window) (k : Int) (d : Nat) : Bool :=
  (2 * d + 1) * w.step k ≤ 2 * onGrid w.value k

def search (w : Window) : Nat → Int → Decimal
  | 0, k => ⟨w.floorAt k, k⟩
  | fuel + 1, k =>
    let d := w.floorAt k
    match w.admits k d, w.admits k (d + 1) with
    | true, true => if w.nearerAbove k d then ⟨d + 1, k⟩ else ⟨d, k⟩
    | true, false => ⟨d, k⟩
    | false, true => ⟨d + 1, k⟩
    | false, false => w.search fuel (k - 1)

def topExponent (w : Window) : Int :=
  (digitText w.value).length - (digitText w.scale).length + 1

/-- Seventeen significant digits always tell two binary64 numbers apart, and the
starting grid lies at most two places above the leading digit. -/
def shortest (w : Window) : Decimal := w.search 20 w.topExponent

end Window
end Decimal
end Biunify
