import PagedQuery.Batch
import PagedQuery.Bytes

/-!
# The bytes of a run

A run file holds batches of rows and says where they end:

```text
file   = "RUNF" version batch* end
batch  = count row*          count: 4 bytes, not zero
row    = count field*        count: 2 bytes
field  = tag payload         tag 0 null, 1 integer, 2 double, 3 string with a length of 4 bytes
end    = a count of zero
```

All numbers are written with their least significant byte first. A row has at most 65535 fields.
-/

namespace PagedQuery

namespace RunFile

def magic : Bytes := [0x52, 0x55, 0x4e, 0x46]

def version : Nat := 1

/-- What stands before the batches. -/
def header : Bytes := magic ++ littleEndian 2 version

/-- What stands behind the batches. -/
def terminator : Bytes := littleEndian 4 0

/-- The bytes of a field: its tag and its payload. -/
def encodeField : Field → Except Error Bytes
  | .null => .ok [0]
  | .int n => .ok (1 :: littleEndian 8 n.toUInt64.toNat)
  | .float x => .ok (2 :: littleEndian 8 x.bits.toNat)
  | .string s =>
    let bytes := utf8Bytes s
    if bytes.length < 0x100000000 then .ok (3 :: littleEndian 4 bytes.length ++ bytes)
    else .error .stringTooLong

/-- The number of fields, then the fields one after the other. -/
def encodeRow (row : Row) : Except Error Bytes := do
  if row.length < 0x10000 then
    let fields ← row.mapM encodeField
    pure (littleEndian 2 row.length ++ fields.flatten)
  else
    .error (.rowTooWide row.length)

/-- The bytes of a batch for the file at `path`. A batch without rows has none, since a count of
zero ends the run. -/
def encodeBatch (path : String) (batch : Batch) : Except Error Bytes := do
  if batch.isEmpty then pure []
  else if batch.length < 0x100000000 then
    let rows ← batch.rows.mapM encodeRow
    pure (littleEndian 4 batch.length ++ rows.flatten)
  else
    .error (.runFile path .batchTooLarge)

/-- The bytes of a complete run for the file at `path`. -/
def encode (path : String) (batches : List Batch) : Except Error Bytes := do
  let bodies ← batches.mapM (encodeBatch path)
  pure (header ++ bodies.flatten ++ terminator)

end RunFile
end PagedQuery
