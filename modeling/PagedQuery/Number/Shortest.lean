import PagedQuery.Number.Binary64
import PagedQuery.Number.Numeral

/-!
# Shortest decimal digits of a double

`shortest` finds the fewest digits that read back as a given finite double, and among those the
nearest to its value. It tries grids of one, two, … significant digits in exact integer arithmetic
and takes the first grid with a point in the interval of numbers that round to the double. A
`Layout` then says how the digits are laid out: which way an exact tie goes, when a power of ten is
written, and whether a whole number keeps its point.
-/

namespace PagedQuery

/-- Where a value exactly halfway between two candidates goes. -/
inductive Ties where
  | up
  | even
  deriving DecidableEq, Repr

/-- The positive number `0.d₁d₂… * 10 ^ point`. -/
structure Decimal where
  digits : List Char
  point : Int
  deriving DecidableEq, Repr

namespace Decimal

/-- The numbers that round to a double, as multiples of a quarter of a unit. -/
structure Interval where
  low : Nat
  center : Nat
  high : Nat
  closed : Bool
  deriving DecidableEq, Repr

/-- The interval around a finite number: half the distance to each neighbour. Below a power of two
the lower neighbour is twice as near. Ends belong to the interval iff the significand is even. -/
def Interval.around (x : Binary64) : Interval :=
  let center := 4 * x.units
  let below := if x.fraction = 0 ∧ 1 < x.exponentField then x.spacing else 2 * x.spacing
  ⟨center - below, center, center + 2 * x.spacing, x.fraction % 2 == 0⟩

/-- A grid of decimal points that are `step` apart, to be compared with multiples of a quarter of a
unit after these are multiplied by `scale`. -/
structure Grid where
  scale : Nat
  step : Nat
  deriving DecidableEq, Repr

def Grid.ofExponent (j : Int) : Grid :=
  ⟨tenTo (-j).toNat, 4 * twoTo Binary64.unitBits * tenTo j.toNat⟩

/-- Whether the grid's point number `s` lies in the interval. -/
def Grid.hits (g : Grid) (i : Interval) (s : Nat) : Bool :=
  let place := s * g.step
  let low := i.low * g.scale
  let high := i.high * g.scale
  (decide (low < place) && decide (place < high))
    || (i.closed && (place == low || place == high))

/-- The grid point of the interval nearest to its centre, if there is one. Only the centre's two
neighbours on the grid need a look. -/
def Grid.nearest? (g : Grid) (ties : Ties) (i : Interval) : Option Nat :=
  let center := i.center * g.scale
  let s := center / g.step
  match g.hits i s, g.hits i (s + 1) with
  | false, false => none
  | true, false => some s
  | false, true => some (s + 1)
  | true, true =>
    match Ord.compare (2 * center) ((2 * s + 1) * g.step) with
    | .lt => some s
    | .gt => some (s + 1)
    | .eq => if ties = .even ∧ s % 2 = 0 then some s else some (s + 1)

/-- The position of the decimal point of `n > 0` units: the least `k` with a value below
`10 ^ k`. A factor `10 ^ 400` makes every double a number with digits before the point. -/
def pointOfUnits (n : Nat) : Int :=
  (Numeral.digits (n * tenTo 400 / twoTo Binary64.unitBits)).length - 400

def trim (digits : List Char) : List Char := (digits.reverse.dropWhile (· == '0')).reverse

def ofScaled (s : Nat) (j : Int) : Decimal :=
  let digits := Numeral.digits s
  ⟨trim digits, digits.length + j⟩

/-- The fewest digits that read back as the magnitude of `x`, a finite number other than zero.
Seventeen digits always suffice. -/
def shortest (ties : Ties) (x : Binary64) : Decimal :=
  let interval := Interval.around x
  let point := pointOfUnits x.units
  let attempt (n : Nat) : Option Decimal :=
    ((Grid.ofExponent (point - n)).nearest? ties interval).map (ofScaled · (point - n))
  ((List.range' 1 17).findSome? attempt).getD ⟨['0'], 1⟩

end Decimal

/-- How the digits of a number are laid out. -/
structure Layout where
  ties : Ties
  /-- The positions of the decimal point at which a power of ten is written. -/
  scientific : Int → Bool
  /-- Whether a whole number is written with `.0`. -/
  keepsPoint : Bool

namespace Layout

/-- Digits with the point put among them, before them or behind them. -/
def positional (layout : Layout) (negative : Bool) (d : Decimal) : Numeral :=
  let length : Int := d.digits.length
  if d.point ≤ 0 then
    ⟨negative, ['0'], List.replicate (-d.point).toNat '0' ++ d.digits, none⟩
  else if d.point < length then
    ⟨negative, d.digits.take d.point.toNat, d.digits.drop d.point.toNat, none⟩
  else
    ⟨negative, d.digits ++ List.replicate (d.point - length).toNat '0',
      if layout.keepsPoint then ['0'] else [], none⟩

/-- The numeral of a finite number. -/
def numeral (layout : Layout) (x : Binary64) : Numeral :=
  let d := if x.units = 0 then ⟨['0'], 1⟩ else Decimal.shortest layout.ties x
  if layout.scientific d.point then
    ⟨x.isNegative, d.digits.take 1, d.digits.drop 1, some (d.point - 1)⟩
  else
    layout.positional x.isNegative d

/-- Plain text: never a power of ten, no point in a whole number, ties up. -/
def plain : Layout := ⟨.up, fun _ => false, false⟩

/-- Data interchange: positional from `1e-5` up to below `1e16`, a whole number keeps `.0`, ties
to even. -/
def interchange : Layout := ⟨.even, fun point => decide (point < -4 ∨ 16 < point), true⟩

end Layout

end PagedQuery
