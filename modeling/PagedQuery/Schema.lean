/-!
# Schemas

A schema describes the columns of a stream of rows: the table and the name of each, its data type,
and the aggregate applied to it, if any. It owns no data. The width of its rows in bytes decides how
many of them a page holds.
-/

namespace PagedQuery

/-- The sum of a weight over a list. -/
def total {α : Type} (weight : α → Nat) : List α → Nat
  | [] => 0
  | a :: as => weight a + total weight as

@[simp]
theorem total_nil {α : Type} (weight : α → Nat) : total weight [] = 0 := rfl

@[simp]
theorem total_cons {α : Type} (weight : α → Nat) (a : α) (as : List α) :
    total weight (a :: as) = weight a + total weight as := rfl

@[simp]
theorem total_append {α : Type} (weight : α → Nat) (as bs : List α) :
    total weight (as ++ bs) = total weight as + total weight bs := by
  induction as with
  | nil => simp
  | cons a as ih => simp [ih, Nat.add_assoc]

/-- A list is no longer than the total of weights that are not zero. -/
theorem length_le_total {α : Type} {weight : α → Nat} (h : ∀ a, 1 ≤ weight a) (as : List α) :
    as.length ≤ total weight as := by
  induction as with
  | nil => exact Nat.zero_le _
  | cons a as ih =>
    have hweight := h a
    rw [List.length_cons, total_cons]
    omega

/-- The type of a column. A string column reserves a number of bytes. -/
inductive DataType where
  | int
  | float
  | string (width : Nat)
  | null
  deriving DecidableEq, Repr, Inhabited

namespace DataType

def text : DataType → String
  | .int => "int"
  | .float => "float"
  | .string width => "string(" ++ toString width ++ ")"
  | .null => "null"

/-- The bytes that a value takes in a record of fixed width. -/
def size : DataType → Nat
  | .int | .float => 4
  | .string width => width
  | .null => 1

def isNumeric : DataType → Bool
  | .int | .float => true
  | .string _ | .null => false

end DataType

/-- An aggregate over a column. -/
inductive AggregateOp where
  | avg
  | count
  | max
  | min
  | sum
  deriving DecidableEq, Repr, Inhabited

def AggregateOp.text : AggregateOp → String
  | .avg => "AVG"
  | .count => "COUNT"
  | .max => "MAX"
  | .min => "MIN"
  | .sum => "SUM"

/-- A column: its table, its name, its type, and the aggregate that produced it. -/
structure Attribute where
  table : String
  column : String
  type : DataType
  aggregate : Option AggregateOp
  deriving DecidableEq, Repr, Inhabited

namespace Attribute

def plain (table column : String) (type : DataType) : Attribute := ⟨table, column, type, none⟩

def name (a : Attribute) : String := a.table ++ "." ++ a.column

def text (a : Attribute) : String :=
  match a.aggregate with
  | some op => op.text ++ "(" ++ a.name ++ ")"
  | none => a.name

end Attribute

/-- The columns of a stream of rows, in order. -/
abbrev Schema := List Attribute

namespace Schema

def text (schema : Schema) : String := String.join (schema.map fun a => a.text ++ "\t")

/-- The width in bytes of one record. -/
def rowSize (schema : Schema) : Nat := total (fun a : Attribute => a.type.size) schema

/-- The attributes at the given positions, in that order; `none` if one lies beyond the end. -/
def select? (schema : Schema) (positions : List Nat) : Option Schema :=
  positions.mapM (schema[·]?)

/-- The columns of one table. Names and types are paired up as far as both go. -/
def ofColumns (table : String) (names : List String) (types : List DataType) : Schema :=
  names.zipWith (Attribute.plain table) types

/-- The part of a name before its first point and the part behind it. -/
def splitName? (name : String) : Option (String × String) :=
  let chars := name.toList
  match chars.dropWhile (· != '.') with
  | [] => none
  | _ :: column => some (String.ofList (chars.takeWhile (· != '.')), String.ofList column)

/-- The position of the first attribute with the given name. A name with a point is qualified, and
its first point ends the table; a name without one is a column of any table. -/
def position? (schema : Schema) (name : String) : Option Nat :=
  match splitName? name with
  | some (table, column) => schema.findIdx? fun a => a.table == table && a.column == column
  | none => schema.findIdx? (·.column == name)

end Schema

end PagedQuery
