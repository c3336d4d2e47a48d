import PagedQuery.Json.Form
import PagedQuery.Batch

/-!
# JSON forms of data

How fields, rows, schemas, batches and settings are written and read.
-/

namespace PagedQuery

/-- A field is a variant named for its kind. -/
def Field.form : Form Field where
  write
    | .int n => Form.tagged "Int" (Form.int64.write n)
    | .float x => Form.tagged "Float" (Form.float.write x)
    | .string s => Form.tagged "String" (Form.string.write s)
    | .null => Form.bare "Null"
  read? j :=
    match Form.variant? j with
    | some ("Int", some p) => (Form.int64.read? p).map .int
    | some ("Float", some p) => (Form.float.read? p).map .float
    | some ("String", some p) => (Form.string.read? p).map .string
    | some ("Null", p) => if Form.isBare p then some .null else none
    | _ => none

def Row.form : Form Row where
  write row := Form.record [("field_vals", (Form.list Field.form).write row)]
  read? j :=
    match Form.fields? ["field_vals"] j with
    | some [some fields] => (Form.list Field.form).read? fields
    | _ => none

/-- A data type is a variant; that of strings carries its width. -/
def DataType.form : Form DataType where
  write
    | .int => Form.bare "Int"
    | .float => Form.bare "Float"
    | .string width => Form.tagged "String" (Form.count.write width)
    | .null => Form.bare "Null"
  read? j :=
    match Form.variant? j with
    | some ("Int", p) => if Form.isBare p then some .int else none
    | some ("Float", p) => if Form.isBare p then some .float else none
    | some ("String", some p) => (Form.count.read? p).map .string
    | some ("Null", p) => if Form.isBare p then some .null else none
    | _ => none

def AggregateOp.form : Form AggregateOp where
  write
    | .avg => Form.bare "Avg"
    | .count => Form.bare "Count"
    | .max => Form.bare "Max"
    | .min => Form.bare "Min"
    | .sum => Form.bare "Sum"
  read? j := do
    let (name, payload) ← Form.variant? j
    if Form.isBare payload then
      match name with
      | "Avg" => some .avg
      | "Count" => some .count
      | "Max" => some .max
      | "Min" => some .min
      | "Sum" => some .sum
      | _ => none
    else none

/-- An attribute is a record; its aggregate may be missing when it is read. -/
def Attribute.form : Form Attribute where
  write a := Form.record [("table", Form.string.write a.table),
    ("column", Form.string.write a.column), ("dtype", DataType.form.write a.type),
    ("agg", (Form.option AggregateOp.form).write a.aggregate)]
  read? j :=
    match Form.fields? ["table", "column", "dtype", "agg"] j with
    | some [some table, some column, some type, aggregate] => do
      pure ⟨← Form.string.read? table, ← Form.string.read? column, ← DataType.form.read? type,
        ← Form.orDefault? (Form.option AggregateOp.form) none aggregate⟩
    | _ => none

def Schema.form : Form Schema where
  write schema := Form.record [("attributes", (Form.list Attribute.form).write schema)]
  read? j :=
    match Form.fields? ["attributes"] j with
    | some [some attributes] => (Form.list Attribute.form).read? attributes
    | _ => none

/-- A page as it is written. Reading does not compare the number of rows with the capacity. -/
def Batch.form : Form Batch where
  write b := Form.record [("capacity", Form.count.write b.capacity),
    ("tuples", (Form.list Row.form).write b.rows)]
  read? j :=
    match Form.fields? ["capacity", "tuples"] j with
    | some [some capacity, some rows] => do
      pure ⟨← Form.count.read? capacity, ← (Form.list Row.form).read? rows⟩
    | _ => none

/-- Settings are only read. What is missing takes its default. -/
def Settings.read? (j : Json) : Option Settings :=
  match Form.defaultedFields? ["page_size", "num_buffers", "temp_dir"] j with
  | some [pageSize, numBuffers, tempDir] => do
    let config : Settings := {}
    pure ⟨← Form.orDefault? Form.count config.pageSize pageSize,
      ← Form.orDefault? Form.count config.numBuffers numBuffers,
      ← tempDir.elim (some config.tempDir) fun dir => (Form.string.read? dir).map some⟩
  | _ => none

/-- Reads settings and checks them. -/
def Settings.ofJson (text : String) : Except Error Settings :=
  match (Json.parse? text).bind Settings.read? with
  | none => .error .json
  | some config => do
    config.validate
    pure config

end PagedQuery
