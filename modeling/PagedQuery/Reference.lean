import PagedQuery.Row
import PagedQuery.StableSort

/-!
# Sorting and joining in memory

`Row.sortOn?` is the stable sort of rows by a key in a direction. Rows too short for the key can be
sorted as long as no two of them have to be compared at a missing position; rows that end up next to
each other have to be compared, so looking at neighbours suffices. `Row.sort` sorts by all fields.
`nestedLoopJoin?` is the plain definition of an equality join, to hold the paged operator against.
-/

namespace PagedQuery

namespace Row

/-- Whether the first row may stand before the second. Positions that a row lacks decide nothing. -/
def precedesOn (key : List Nat) (descending : Bool) (a b : Row) : Bool :=
  (compareDirected? a b key key descending).getD .eq != .gt

def neighboursComparable (key : List Nat) : List Row → Bool
  | a :: b :: rows => (compareOn? a b key key).isSome && neighboursComparable key (b :: rows)
  | _ => true

/-- The rows in the order of the key, rows with equal keys in their given order. -/
def sortOn? (key : List Nat) (descending : Bool) (rows : List Row) : Option (List Row) :=
  let sorted := stableSort (precedesOn key descending) rows
  if neighboursComparable key sorted then some sorted else none

def sort (rows : List Row) : List Row := stableSort (fun a b => Row.compare a b != .gt) rows

end Row

def Field.sort (fields : List Field) : List Field :=
  stableSort (fun a b => a.compare b != .gt) fields

/-- A left row paired with those of the right rows that have an equal key, in their order. -/
def Row.matches? (leftKey rightKey : List Nat) (left : Row) : List Row → Option (List Row)
  | [] => some []
  | right :: rows => do
    let order ← Row.compareOn? left right leftKey rightKey
    let pairs ← Row.matches? leftKey rightKey left rows
    pure (if order = .eq then (left ++ right) :: pairs else pairs)

/-- All pairs with equal keys: the left rows in their order, and for each the right rows in theirs.
There is no answer if a row is too short for its key. -/
def nestedLoopJoin? (leftKey rightKey : List Nat) (left right : List Row) : Option (List Row) :=
  (left.mapM fun row => Row.matches? leftKey rightKey row right).map List.flatten

end PagedQuery
