import PagedQuery.RunFile.Reader
import PagedQuery.RunFile.Writer
import PagedQuery.Storage.Disk

/-!
# A writer and a reader on one disk

A `Session` has at most one writer and one reader at work. Both keep the file that they opened, and
the position reached in it, whatever becomes of its name or content: bytes that a writer puts behind
what the reader has fetched are there when the reader comes to them.
-/

namespace PagedQuery
namespace RunFile

/-- A writer at work on the file with a number. -/
structure WriteHandle where
  file : Nat
  writer : Writer
  deriving DecidableEq, Repr

namespace WriteHandle

/-- Begins a run in a new or emptied file. -/
def create? (disk : Disk) (file path : String) : Option (Disk × WriteHandle) :=
  (disk.create? file).map fun (number, disk) => (disk, ⟨number, .start path⟩)

/-- Brings what a writer hands out to its file. -/
def deliver (disk : Disk) (h : WriteHandle) (out : Writer × Chunk) : Disk × WriteHandle :=
  (disk.write h.file out.2, { h with writer := out.1 })

/-- Appends a batch. If it cannot be encoded, nothing goes to the file, and the writer can go on. -/
def writeBatch (disk : Disk) (h : WriteHandle) (batch : Batch) :
    Except Error Unit × Disk × WriteHandle :=
  match h.writer.writeBatch batch with
  | (.ok chunk, writer) => (.ok (), h.deliver disk (writer, chunk))
  | (.error e, writer) => (.error e, disk, { h with writer })

/-- Appends batches up to the first that cannot be encoded, whose error is the answer. -/
def writeBatches (disk : Disk) (h : WriteHandle) : List Batch → Except Error Unit × Disk × WriteHandle
  | [] => (.ok (), disk, h)
  | batch :: batches =>
    match h.writeBatch disk batch with
    | (.ok (), disk, h) => writeBatches disk h batches
    | (.error e, disk, h) => (.error e, disk, h)

/-- Lets the writer go. What it has buffered still reaches the file. -/
def release (disk : Disk) (h : WriteHandle) : Disk := (h.deliver disk h.writer.flush).1

def finish (disk : Disk) (h : WriteHandle) : Disk :=
  let (disk, h) := h.deliver disk (h.writer.put terminator)
  h.release disk

end WriteHandle

/-- A reader at work on the file with a number. Between calls it has at hand what it has fetched. -/
structure ReadHandle where
  file : Nat
  reader : Reader
  /-- How far the file has been fetched. -/
  offset : Nat
  deriving DecidableEq, Repr

namespace ReadHandle

/-- Puts a reader aside that was given the bytes of a file from `offset` on, `available` in all. -/
def pause (file : Nat) (reader : Reader) (offset available : Nat) : ReadHandle :=
  ⟨file, { reader with input := ⟨reader.input.fetched, []⟩ },
    offset + (available - reader.input.rest.length)⟩

/-- Opens a run and checks its header. -/
def ofFile (disk : Disk) (file path : String) (capacity : Nat) : Except Error ReadHandle :=
  match disk.fileAt? file with
  | none => .error .io
  | some number => do
    let content := disk.content number
    let reader ← Reader.ofContent path content capacity
    pure (pause number reader 0 content.length)

/-- The next batch, from what was fetched and what the file holds behind it by now. -/
def next (disk : Disk) (h : ReadHandle) : Except Error (Option Batch) × ReadHandle :=
  let behind := (disk.content h.file).drop h.offset
  let (answer, reader) := { h.reader with input := ⟨h.reader.input.fetched, behind⟩ }.next
  (answer, pause h.file reader h.offset behind.length)

end ReadHandle

/-- A disk with a writer and a reader at work on it. -/
structure Session where
  /-- The path of the disk, as messages show it. -/
  root : String
  disk : Disk
  writer : Option WriteHandle
  reader : Option ReadHandle
  deriving DecidableEq, Repr

namespace Session

def start (root : String) : Session := ⟨root, .empty, none, none⟩

def path (s : Session) (file : String) : String := s.root ++ "/" ++ file

def dropWriter (s : Session) : Session :=
  match s.writer with
  | some h => { s with disk := h.release s.disk, writer := none }
  | none => s

def create (s : Session) (file : String) : Except Error Unit × Session :=
  let s := s.dropWriter
  match WriteHandle.create? s.disk file (s.path file) with
  | some (disk, h) => (.ok (), { s with disk, writer := some h })
  | none => (.error .io, s)

def writeBatch (s : Session) (h : WriteHandle) (batch : Batch) : Except Error Unit × Session :=
  let (answer, disk, h) := h.writeBatch s.disk batch
  (answer, { s with disk, writer := some h })

def finish (s : Session) (h : WriteHandle) : String × Session :=
  (h.writer.path, { s with disk := h.finish s.disk, writer := none })

/-- Writes a complete run with a writer of its own. If that fails, the file loses its name. -/
def writeRun (s : Session) (file : String) (batches : List Batch) : Except Error Unit × Session :=
  match WriteHandle.create? s.disk file (s.path file) with
  | none => (.error .io, s)
  | some (disk, h) =>
    match h.writeBatches disk batches with
    | (.ok (), disk, h) => (.ok (), { s with disk := h.finish disk })
    | (.error e, disk, h) => (.error e, { s with disk := (h.release disk).remove file })

/-- Opens a run in place of the one being read. -/
def openRun (s : Session) (file : String) (capacity : Nat) : Except Error Unit × Session :=
  match ReadHandle.ofFile s.disk file (s.path file) capacity with
  | .ok h => (.ok (), { s with reader := some h })
  | .error e => (.error e, { s with reader := none })

def next (s : Session) (h : ReadHandle) : Except Error (Option Batch) × Session :=
  let (answer, h) := h.next s.disk
  (answer, { s with reader := some h })

end Session
end RunFile
end PagedQuery
