import PagedQuery.Bytes
import PagedQuery.Number.Shortest

/-!
# Fields

A `Field` is one value of a row: an integer of 64 bits, a double, a string or null. `Field.compare`
orders all of them: null comes first, numbers are compared with each other, strings come last.
`Field.equals` is equality in that order, so the integer 1 and the double 1.0 are equal fields, and
`Field.hashInput` is what a hash is fed.

A hash is fed item by item, and it reads the bytes of all items in a row. Nothing marks where an item
ends, so different items can give the same bytes: a mark before a word of zeros reads like a mark
behind it.
-/

namespace PagedQuery

/-- One item fed to a hash function. -/
inductive HashItem where
  | word (bits : UInt64)
  | text (s : String)
  | mark
  | length (n : Nat)
  deriving DecidableEq, Repr

namespace HashItem

/-- The bytes of an item. A text is closed by a byte that no text contains. -/
def bytes : HashItem → Bytes
  | .word bits => littleEndian 8 bits.toNat
  | .text s => utf8Bytes s ++ [0xff]
  | .mark => [0]
  | .length n => littleEndian 8 n

/-- Whether a hash cannot tell two sequences of items apart, because it reads the same bytes. -/
def alike (as bs : List HashItem) : Bool := as.flatMap bytes == bs.flatMap bytes

end HashItem

/-- The integer as a 64-bit word, if it fits. -/
def int64? (n : Int) : Option Int64 :=
  if -0x8000000000000000 ≤ n ∧ n < 0x8000000000000000 then some (Int64.ofInt n) else none

/-- One value of a row. -/
inductive Field where
  | int (n : Int64)
  | float (x : Binary64)
  | string (s : String)
  | null
  deriving DecidableEq, Repr, Inhabited

namespace Field

def isNull : Field → Bool
  | .null => true
  | _ => false

/-- The place of a field's kind in the order: null, numbers, strings. -/
def rank : Field → Nat
  | .null => 0
  | .int _ | .float _ => 1
  | .string _ => 2

/-- The field as a double, if it is a number. An integer is rounded to the nearest double. -/
def toBinary64? : Field → Option Binary64
  | .int n => some (.ofInt n.toInt)
  | .float x => some x
  | .string _ | .null => none

/-- The order of fields. Two integers are compared exactly, two strings by code points; as soon as
a double takes part, numbers are compared as doubles in the IEEE total order. -/
def compare : Field → Field → Ordering
  | .int a, .int b => Ord.compare a.toInt b.toInt
  | .float x, .float y => x.compare y
  | .int a, .float y => (Binary64.ofInt a.toInt).compare y
  | .float x, .int b => x.compare (.ofInt b.toInt)
  | .string s, .string t => Ord.compare s t
  | .null, .null => .eq
  | a, b => Ord.compare a.rank b.rank

def equals (a b : Field) : Bool := a.compare b == .eq

/-- What a hash is fed. Numbers that are equal as doubles are fed alike. -/
def hashInput : Field → List HashItem
  | .int n => [.word (Binary64.ofInt n.toInt).bits]
  | .float x => [.word x.bits]
  | .string s => [.text s]
  | .null => [.mark]

/-- Whether a hash cannot tell two fields apart. -/
def hashesLike (a b : Field) : Bool := HashItem.alike a.hashInput b.hashInput

def floatText (x : Binary64) : String :=
  if x.isNaN then "NaN"
  else if x.isInfinite then (if x.isNegative then "-inf" else "inf")
  else (Layout.plain.numeral x).text

/-- The text of a field, as messages show it. -/
def text : Field → String
  | .int n => (Numeral.ofInt n.toInt).text
  | .float x => floatText x
  | .string s => s
  | .null => "NULL"

end Field

end PagedQuery
