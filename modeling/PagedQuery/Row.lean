import PagedQuery.Field

/-!
# Rows

A `Row` is a list of fields. Positions are counted from zero. The operations that read given
positions answer `none` when a position they need lies beyond the end of a row; a comparison reads
no further than the first difference.
-/

namespace PagedQuery

/-- The fields of one record, in the order of the columns. -/
abbrev Row := List Field

namespace Row

def text (row : Row) : String := String.join (row.map fun field => field.text ++ "\t")

/-- The fields at the given positions, in that order. -/
def project? (row : Row) (positions : List Nat) : Option Row := positions.mapM (row[·]?)

/-- Compares `left` with `right` over pairs of positions; the first pair that differs decides. -/
def compareOn? (left right : Row) : List Nat → List Nat → Option Ordering
  | i :: is, j :: js => do
    let a ← left[i]?
    let b ← right[j]?
    match a.compare b with
    | .eq => compareOn? left right is js
    | order => some order
  | _, _ => some .eq

def directed (descending : Bool) (order : Ordering) : Ordering :=
  if descending then order.swap else order

/-- Compares over pairs of positions in the given direction. -/
def compareDirected? (left right : Row) (leftKey rightKey : List Nat) (descending : Bool) :
    Option Ordering :=
  (compareOn? left right leftKey rightKey).map (directed descending)

/-- The lexicographic order of whole rows; a row comes before its extensions. -/
def compare : Row → Row → Ordering
  | [], [] => .eq
  | [], _ :: _ => .lt
  | _ :: _, [] => .gt
  | a :: as, b :: bs => (a.compare b).then (Row.compare as bs)

def equals : Row → Row → Bool
  | [], [] => true
  | a :: as, b :: bs => a.equals b && Row.equals as bs
  | _, _ => false

/-- What a hash is fed: the number of fields, then each field. -/
def hashInput (row : Row) : List HashItem := .length row.length :: row.flatMap Field.hashInput

def hashesLike (a b : Row) : Bool := HashItem.alike (hashInput a) (hashInput b)

end Row

end PagedQuery
