/-!
# Written decimal numbers

A `Numeral` is a number as it is written: a sign, the digits before the point, the digits behind
it, and a power of ten. Reading and writing share it, so that a text and its value meet in one type.
-/

namespace PagedQuery

/-- A decimal number by its written parts. An empty `fraction` means that no point is written. -/
structure Numeral where
  negative : Bool
  whole : List Char
  fraction : List Char
  exponent : Option Int
  deriving DecidableEq, Repr

namespace Numeral

def digits (n : Nat) : List Char := Nat.toDigits 10 n

def ofInt (n : Int) : Numeral := ⟨decide (n < 0), digits n.natAbs, [], none⟩

def digitValue (c : Char) : Nat := c.toNat - '0'.toNat

def value (digits : List Char) : Nat := digits.foldl (fun n c => 10 * n + digitValue c) 0

/-- The written power of ten, always with its sign. -/
def exponentText (e : Int) : List Char :=
  'e' :: (if e < 0 then '-' else '+') :: digits e.natAbs

def chars (n : Numeral) : List Char :=
  (if n.negative then ['-'] else []) ++ n.whole
    ++ (if n.fraction.isEmpty then [] else '.' :: n.fraction)
    ++ n.exponent.elim [] exponentText

def text (n : Numeral) : String := String.ofList n.chars

/-- The integer that a numeral without point and power of ten denotes. A minus sign before zero
asks for a floating-point zero, so `-0` is no integer. -/
def toInt? (n : Numeral) : Option Int :=
  let magnitude := value n.whole
  if !n.fraction.isEmpty || n.exponent.isSome || (n.negative && magnitude == 0) then none
  else some (if n.negative then -magnitude else magnitude)

end Numeral

end PagedQuery
