/-!
# Floating-point numbers of 64 bits

`Binary64` is one IEEE 754 double, kept as its bits, so that the sign and the payload of a NaN
survive storage and take part in the order. A finite magnitude is a whole number of *units*, where
a unit is the smallest subnormal `2 ^ (-1074)`. Conversions and comparisons are therefore exact
integer arithmetic: `ofUnits` rounds to nearest with ties to even, and `orderKey` lists all bit
patterns in the IEEE total order.
-/

namespace PagedQuery

def twoTo (n : Nat) : Nat := Nat.pow 2 n

def tenTo (n : Nat) : Nat := Nat.pow 10 n

/-- The whole number nearest to `n / d`; a quotient halfway between two of them goes to the
even one. -/
def divNearest (n d : Nat) : Nat :=
  let q := n / d
  let r := n % d
  if 2 * r < d then q else if d < 2 * r then q + 1 else q + q % 2

structure Binary64 where
  bits : UInt64
  deriving DecidableEq, Repr, Inhabited

namespace Binary64

/-- The place value of the sign bit, the highest of the word. -/
def signBit : Nat := 0x8000000000000000

/-- The place value of the exponent field's lowest bit, and of the leading bit of a significand,
which is not stored. -/
def leadingBit : Nat := 0x10000000000000

/-- One is two to this number of units. -/
def unitBits : Nat := 1074

def word (x : Binary64) : Nat := x.bits.toNat

def isNegative (x : Binary64) : Bool := decide (signBit ≤ x.word)

def magnitude (x : Binary64) : Nat := x.word % signBit

def exponentField (x : Binary64) : Nat := x.magnitude / leadingBit

/-- The bits behind the leading bit of the significand. -/
def fraction (x : Binary64) : Nat := x.magnitude % leadingBit

def isNaN (x : Binary64) : Bool := x.exponentField == 2047 && x.fraction != 0

def isInfinite (x : Binary64) : Bool := x.exponentField == 2047 && x.fraction == 0

def isFinite (x : Binary64) : Bool := x.exponentField != 2047

/-- The distance, in units, from a finite magnitude to the next larger one. -/
def spacing (x : Binary64) : Nat := twoTo (x.exponentField - 1)

/-- The magnitude of a finite number in units of `2 ^ (-1074)`. Below exponent field 1 the leading
bit is absent. -/
def units (x : Binary64) : Nat :=
  (if x.exponentField = 0 then x.fraction else leadingBit + x.fraction) * x.spacing

/-- The value of a finite number, sign included, in units of `2 ^ (-1074)`. -/
def signedUnits (x : Binary64) : Int := if x.isNegative then -x.units else x.units

/-- The bits of positive infinity. -/
def infinityWord : Nat := 2047 * leadingBit

/-- The number with the given sign and the given bits below it. -/
def ofMagnitude (negative : Bool) (magnitude : Nat) : Binary64 :=
  ⟨UInt64.ofNat (magnitude + if negative then signBit else 0)⟩

/-- The bits of the magnitude nearest to `n` units, ties to even, with everything too large going
to infinity. With `e` bits to drop, the rounded significand counts its leading bit into the
exponent field, which also absorbs a carry. -/
def roundUnits (n : Nat) : Nat :=
  let e := n.log2 - 52
  min infinityWord (e * leadingBit + divNearest n (twoTo e))

def ofUnits (negative : Bool) (n : Nat) : Binary64 := ofMagnitude negative (roundUnits n)

def ofNat (n : Nat) : Binary64 := ofUnits false (n * twoTo unitBits)

/-- The number nearest to an integer. Zero becomes positive zero. -/
def ofInt (n : Int) : Binary64 := ofUnits (decide (n < 0)) (n.natAbs * twoTo unitBits)

/-- The position of a bit pattern in the IEEE total order: negative NaNs, negative infinity, the
negative numbers, `-0.0`, `0.0`, the positive numbers, infinity, positive NaNs. -/
def orderKey (x : Binary64) : Int :=
  if x.isNegative then -(x.magnitude : Int) - 1 else x.magnitude

/-- The IEEE total order. It tells apart any two bit patterns. -/
def compare (x y : Binary64) : Ordering := Ord.compare x.orderKey y.orderKey

def neg (x : Binary64) : Binary64 := ofMagnitude (!x.isNegative) x.magnitude

/-- A NaN with its quiet bit set. -/
def quieted (x : Binary64) : Binary64 := ⟨x.bits ||| 0x0008000000000000⟩

/-- The NaN that an operation without a defined result gives. -/
def undefinedResult : Binary64 := ⟨0xfff8000000000000⟩

def toFloat (x : Binary64) : Float := Float.ofBits x.bits

/-- Applies a correctly rounded operation. The first NaN among the operands is passed on quieted;
an operation on other numbers that has no result gives `undefinedResult`. -/
def lift (op : Float → Float → Float) (x y : Binary64) : Binary64 :=
  if x.isNaN then x.quieted
  else if y.isNaN then y.quieted
  else
    let z := op x.toFloat y.toFloat
    if z.isNaN then undefinedResult else ⟨z.toBits⟩

def add (x y : Binary64) : Binary64 := lift (· + ·) x y

def mul (x y : Binary64) : Binary64 := lift (· * ·) x y

def div (x y : Binary64) : Binary64 := lift (· / ·) x y

end Binary64

end PagedQuery
