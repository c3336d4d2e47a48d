import PagedQuery.Json.Parse
import PagedQuery.Number.Reading
import PagedQuery.Number.Shortest
import PagedQuery.Error

/-!
# JSON forms

A `Form` says how a type is written as JSON and what is accepted when it is read. The forms here are
the building blocks: integers, doubles, strings, lists, optional values, records and variants.
Reading a record accepts its fields in any order, skips unknown keys and refuses doubled ones; a
list of exactly the fields, in order, does as well.
-/

namespace PagedQuery

/-- How a type is written and read. -/
structure Form (α : Type) where
  write : α → Json
  read? : Json → Option α

namespace Form

def encode {α : Type} (form : Form α) (a : α) : String := (form.write a).text

def decode {α : Type} (form : Form α) (text : String) : Except Error α :=
  match (Json.parse? text).bind form.read? with
  | some a => .ok a
  | none => .error .json

def integer? : Json → Option Int
  | .number n => n.toInt?
  | _ => none

def int64 : Form Int64 where
  write n := .number (.ofInt n.toInt)
  read? j := (integer? j).bind int64?

/-- A count: an integer from zero to `2 ^ 64 - 1`. -/
def count : Form Nat where
  write n := .number (.ofInt n)
  read? j := do
    let n ← integer? j
    if 0 ≤ n ∧ n < 0x10000000000000000 then some n.toNat else none

/-- A double. NaN and the infinities have no numeral and are written as null; an integer is read as
a double. -/
def float : Form Binary64 where
  write x := if x.isFinite then .number (Layout.interchange.numeral x) else .null
  read?
    | .number n => n.toBinary64?
    | _ => none

def string : Form String where
  write s := .string (some s)
  read?
    | .string s => s
    | _ => none

def list {α : Type} (form : Form α) : Form (List α) where
  write items := .array (items.map form.write)
  read?
    | .array items => items.mapM form.read?
    | _ => none

def option {α : Type} (form : Form α) : Form (Option α) where
  write a := a.elim .null form.write
  read?
    | .null => some none
    | j => (form.read? j).map some

def record (members : List (String × Json)) : Json :=
  .object (members.map fun (key, value) => (some key, value))

/-- The values of the given keys in an object, each at most once; `none` for a missing one. Every
key of the object has to be a text. -/
def members? (keys : List String) (members : List (Option String × Json)) :
    Option (List (Option Json)) :=
  if members.all (·.1.isSome) then
    keys.mapM fun key =>
      match members.filter (·.1 == some key) with
      | [] => some none
      | [(_, value)] => some (some value)
      | _ => none
  else none

/-- The fields of a record, from an object or from the list of all of them. -/
def fields? (keys : List String) : Json → Option (List (Option Json))
  | .object members => members? keys members
  | .array items => if items.length = keys.length then some (items.map some) else none
  | _ => none

/-- The fields of a record that has defaults: a list may stop early. -/
def defaultedFields? (keys : List String) : Json → Option (List (Option Json))
  | .object members => members? keys members
  | .array items =>
    if items.length ≤ keys.length then
      some (items.map some ++ List.replicate (keys.length - items.length) none)
    else none
  | _ => none

/-- The value of a field, or its default if the field is missing. -/
def orDefault? {α : Type} (form : Form α) (default : α) : Option Json → Option α
  | none => some default
  | some j => form.read? j

def bare (name : String) : Json := .string (some name)

def tagged (name : String) (payload : Json) : Json := record [(name, payload)]

/-- The name of a variant and its payload, if it has one. -/
def variant? : Json → Option (String × Option Json)
  | .string (some name) => some (name, none)
  | .object [(some name, payload)] => some (name, some payload)
  | _ => none

/-- Whether a payload is that of a variant without one. -/
def isBare : Option Json → Bool
  | none | some .null => true
  | _ => false

end Form

end PagedQuery
