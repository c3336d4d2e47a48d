import PagedQuery.RunFile.Codec
import PagedQuery.Storage.Folder

/-!
# Writing run files

A `RunFile.Writer` encodes a batch in a scratch buffer, which it keeps from one batch to the next,
and hands the bytes of a whole batch on. They are gathered and go to the file when they no longer
fit in its output buffer. The run is complete once its terminator was put and that buffer handed over.
-/

namespace PagedQuery
namespace RunFile

/-- Bytes behind those of a buffer that has the latest first. -/
def append (bytes scratch : Bytes) : Bytes := bytes.reverseAux scratch

/-- Encodes fields one after the other, up to the first that has no bytes. -/
def appendFields : List Field → Bytes → Except Error Unit × Bytes
  | [], scratch => (.ok (), scratch)
  | field :: fields, scratch =>
    match encodeField field with
    | .ok bytes => appendFields fields (append bytes scratch)
    | .error e => (.error e, scratch)

/-- Encodes a row. If that fails, what was encoded of it is still there. -/
def appendRow (row : Row) (scratch : Bytes) : Except Error Unit × Bytes :=
  if row.length < 0x10000 then appendFields row (append (littleEndian 2 row.length) scratch)
  else (.error (.rowTooWide row.length), scratch)

/-- Encodes rows, up to the first that fails. -/
def appendRows : List Row → Bytes → Except Error Unit × Bytes
  | [], scratch => (.ok (), scratch)
  | row :: rows, scratch =>
    match appendRow row scratch with
    | (.ok (), scratch) => appendRows rows scratch
    | (.error e, scratch) => (.error e, scratch)

/-- A run being written. -/
structure Writer where
  path : String
  /-- What was encoded last, the latest byte first: a batch, or what came of one that failed. -/
  scratch : Bytes
  buffered : Bytes
  position : Nat
  deriving DecidableEq, Repr

namespace Writer

/-- How many bytes the output buffer holds. -/
def bufferSize : Nat := 8192

def start (path : String) : Writer := ⟨path, [], header, 0⟩

def flush (w : Writer) : Writer × Chunk :=
  ({ w with buffered := [], position := w.position + w.buffered.length }, ⟨w.position, w.buffered⟩)

/-- Writes bytes. What the buffer has no room for empties it first; what would fill it alone goes
straight to the file. -/
def put (w : Writer) (bytes : Bytes) : Writer × Chunk :=
  let all := { w with buffered := w.buffered ++ bytes }
  if bufferSize ≤ bytes.length then all.flush
  else if bufferSize < all.buffered.length then
    let (emptied, chunk) := w.flush
    ({ emptied with buffered := bytes }, chunk)
  else
    (all, ⟨w.position, []⟩)

def clear (w : Writer) : Writer := { w with scratch := [] }

/-- Encodes the number of rows of a batch and the rows behind what is in the scratch buffer. -/
def encode (w : Writer) (batch : Batch) : Except Error Unit × Writer :=
  let (answer, scratch) := appendRows batch.rows (append (littleEndian 4 batch.length) w.scratch)
  (answer, { w with scratch })

/-- Appends a batch. One without rows has no bytes, since a count of zero ends the run. The scratch
buffer is emptied first, whatever is left in it. -/
def writeBatch (w : Writer) (batch : Batch) : Except Error Chunk × Writer :=
  if batch.isEmpty then (.ok ⟨w.position, []⟩, w)
  else if batch.length < 0x100000000 then
    match w.clear.encode batch with
    | (.ok (), w) =>
      let (w, chunk) := w.put w.scratch.reverse
      (.ok chunk, w)
    | (.error e, w) => (.error e, w)
  else
    (.error (.runFile w.path .batchTooLarge), w)

end Writer

end RunFile
end PagedQuery
