import PagedQuery.Error
import PagedQuery.Row

/-!
# Aggregates over a column

A `Tally` is the running value of one aggregate. Nulls are not counted. Minimum and maximum keep the
first of equal values, a sum is exact over integers and stops at an overflow, and an average divides
a sum of doubles by the number of values.
-/

namespace PagedQuery

/-- The sum of two numbers. It is a double as soon as one of them is. -/
def Field.add : Field → Field → Except Error Field
  | .int a, .int b =>
    match int64? (a.toInt + b.toInt) with
    | some n => .ok (.int n)
    | none => .error (.integerOverflow a b)
  | .float x, .float y => .ok (.float (x.add y))
  | .int a, .float y => .ok (.float ((Binary64.ofInt a.toInt).add y))
  | .float x, .int b => .ok (.float (x.add (.ofInt b.toInt)))
  | a, b => .error (.cannotAdd a b)

/-- A column of an aggregate query. -/
inductive AggregateColumn where
  /-- A column of the child as it is. -/
  | plain (position : Nat)
  | aggregate (op : AggregateOp) (position : Nat)
  deriving DecidableEq, Repr

namespace AggregateColumn

def position : AggregateColumn → Nat
  | .plain i | .aggregate _ i => i

def isAggregate : AggregateColumn → Bool
  | .plain _ => false
  | .aggregate _ _ => true

/-- The output column made of a column of the child. -/
def attributeOf (column : AggregateColumn) (source : Attribute) : Attribute :=
  match column with
  | .plain _ => source
  | .aggregate .count _ => { source with type := .int, aggregate := some .count }
  | .aggregate .avg _ => { source with type := .float, aggregate := some .avg }
  | .aggregate op _ => { source with aggregate := some op }

end AggregateColumn

/-- The running value of an aggregate. -/
structure Tally where
  op : AggregateOp
  position : Nat
  count : Nat
  value : Option Field
  /-- The sum of doubles behind an average. -/
  total : Binary64
  deriving DecidableEq, Repr

namespace Tally

def start (op : AggregateOp) (position : Nat) : Tally := ⟨op, position, 0, none, .ofNat 0⟩

/-- The new value if there is none yet or if it stands in the given order to the old one. -/
def better (wanted : Ordering) (old : Option Field) (new : Field) : Option Field :=
  match old with
  | none => some new
  | some value => if new.compare value = wanted then some new else some value

/-- Takes one more value in. -/
def take (t : Tally) (field : Field) : Except Error Tally :=
  if field.isNull then .ok t
  else
    let t := { t with count := t.count + 1 }
    match t.op with
    | .count => .ok t
    | .min => .ok { t with value := better .lt t.value field }
    | .max => .ok { t with value := better .gt t.value field }
    | .sum =>
      match t.value with
      | none => .ok { t with value := some field }
      | some value => (value.add field).map fun sum => { t with value := some sum }
    | .avg =>
      match field.toBinary64? with
      | some x => .ok { t with total := t.total.add x }
      | none => .error (.cannotAverage field)

def takeRow (row : Row) (t : Tally) : Except Error Tally :=
  match row[t.position]? with
  | some field => t.take field
  | none => .error .rowTooShort

/-- The value of the aggregate. Without values only a count is not null. -/
def result (t : Tally) : Field :=
  match t.op with
  | .count => .int (Int64.ofNat t.count)
  | .avg => if t.count = 0 then .null else .float (t.total.div (.ofNat t.count))
  | .min | .max | .sum => t.value.getD .null

end Tally

end PagedQuery
