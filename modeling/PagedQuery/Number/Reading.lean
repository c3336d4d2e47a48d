import PagedQuery.Number.Binary64
import PagedQuery.Number.Numeral

/-!
# Reading a numeral as a double

The digits of a numeral are gathered into a significand of at most 64 bits. Digits that no longer
fit count as zeros before the point and are dropped behind it. The significand is rounded to a
double, and one multiplication or division by a power of ten, rounded again, gives the result. This
is exact for short numerals and may be off by a unit in the last place for long ones.
-/

namespace PagedQuery
namespace Numeral

/-- Appends digits to a number as long as it stays below `2 ^ 64`, and returns the digits left. -/
def appendDigits (n : Nat) : List Char → Nat × List Char
  | [] => (n, [])
  | c :: cs =>
    let m := 10 * n + digitValue c
    if m < 0x10000000000000000 then appendDigits m cs else (n, c :: cs)

/-- The significand of a numeral and the power of ten that its written digits give it. -/
def significand (n : Numeral) : Nat × Int :=
  let (s, wholeLeft) := appendDigits 0 n.whole
  let (s, fractionLeft) := appendDigits s n.fraction
  (s, (wholeLeft.length : Int) - (n.fraction.length - fractionLeft.length : Nat))

/-- The largest power of ten that is a finite double. -/
def maxPower : Nat := 308

/-- The product `x * 10 ^ e` for a number `x` that is not negative; `none` if it overflows. Powers
below the range are divided out in steps, and `steps` bounds their number: a number of 64 bits is
zero after the second. -/
def scale? : Nat → Binary64 → Int → Option Binary64
  | 0, x, _ => some x
  | steps + 1, x, e =>
    if e.natAbs ≤ maxPower then
      let power := Binary64.ofNat (tenTo e.natAbs)
      if 0 ≤ e then
        let y := x.mul power
        if y.isInfinite then none else some y
      else
        some (x.div power)
    else if x.units = 0 then some x
    else if 0 ≤ e then none
    else scale? steps (x.div (.ofNat (tenTo maxPower))) (e + maxPower)

/-- The double that a numeral is read as; `none` if it is too large. A written power of ten beyond
31 bits is not looked at further: it makes zero, or is too large. -/
def toBinary64? (n : Numeral) : Option Binary64 := do
  let (s, shift) := n.significand
  let e := n.exponent.getD 0
  let x ←
    if e.natAbs < 0x80000000 then scale? 4 (.ofNat s) (shift + e)
    else if s ≠ 0 ∧ 0 < e then none
    else some (.ofNat 0)
  pure (if n.negative then x.neg else x)

end Numeral
end PagedQuery
