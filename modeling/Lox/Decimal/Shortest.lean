/-!
Shortest decimals: the fewest digits that single out one binary floating-point value.

A finite double is a multiple `m * 2 ^ q`. The reals that round to it form an interval around it,
and `shortest m q` is the decimal inside this interval on the coarsest grid `10 ^ e` that has one,
the nearer of two.
-/

namespace Lox

structure Decimal where
  significand : Nat
  exponent : Int
  deriving Repr, DecidableEq, Inhabited

namespace Decimal

inductive Magnitude where
  | finite (mantissa : Nat) (exponent : Int)
  | infinite
  | nan
  deriving Repr, DecidableEq

def scale (base : Nat) (exponent : Int) : Nat := base.pow exponent.toNat

def hiddenBit : Nat := scale 2 52

def negative (x : Float) : Bool :=
  x.toBits.toNat / scale 2 63 == 1

def magnitude (x : Float) : Magnitude :=
  let fraction := x.toBits.toNat % hiddenBit
  match x.toBits.toNat / hiddenBit % 2048 with
  | 0 => .finite fraction (-1074)
  | 2047 => if fraction = 0 then .infinite else .nan
  | field => .finite (hiddenBit + fraction) ((field : Int) - 1075)

/-- The positive reals that round to one double, with that double inside: `low`, `value` and
`high` are numerators over `unit`. The ends belong to the interval when `closed` holds. -/
structure Interval where
  low : Nat
  value : Nat
  high : Nat
  unit : Nat
  closed : Bool

def Interval.around (m : Nat) (q : Int) : Interval :=
  let step := scale 2 (q - 2)
  let below := if m = hiddenBit ∧ q ≠ -1074 then 1 else 2
  { low := (4 * m - below) * step
    value := 4 * m * step
    high := (4 * m + 2) * step
    unit := scale 2 (2 - q)
    closed := m % 2 == 0 }

def Interval.holds (i : Interval) (d : Nat) (e : Int) : Bool :=
  let point := d * scale 10 e * i.unit
  let grid := scale 10 (-e)
  if i.closed then i.low * grid ≤ point && point ≤ i.high * grid
  else i.low * grid < point && point < i.high * grid

/-- The neighbours of the interval's value on the grid `10 ^ e`, from below and from above: the
one that the interval holds, the nearer if it holds both, the even one at equal distance. -/
def Interval.onGrid (i : Interval) (e : Int) : Option Nat :=
  let grid := i.value * scale 10 (-e)
  let spacing := scale 10 e * i.unit
  let floor := grid / spacing
  match i.holds floor e, i.holds (floor + 1) e with
  | false, false => none
  | true, false => some floor
  | false, true => some (floor + 1)
  | true, true =>
      let twice := 2 * (grid % spacing)
      if twice < spacing ∨ (twice = spacing ∧ floor % 2 = 0) then some floor
      else some (floor + 1)

def digitCount (n : Nat) : Nat := (Nat.toDigits 10 n).length

def Interval.leading (i : Interval) : Int :=
  let guess : Int := digitCount i.value - digitCount i.unit
  if i.unit * scale 10 guess ≤ i.value * scale 10 (-guess) then guess else guess - 1

/-- The shortest decimal that rounds to `m * 2 ^ q`; seventeen digits are always enough. -/
def shortest (m : Nat) (q : Int) : Decimal :=
  let i := Interval.around m q
  let leading := i.leading
  let found := (List.range 17).findSome? fun (n : Nat) =>
    let e := leading - n
    (i.onGrid e).map fun d => ⟨d, e⟩
  found.getD ⟨0, 0⟩

end Decimal

end Lox
