import PagedQuery.Act
import PagedQuery.Draft
import PagedQuery.RunFile.Writer

/-!
# Runs in a working folder

A run is written to a file of a working folder while its rows come in: the file is made first, and
what the writer hands over goes to it. `RunFile.orRemove` takes the file away again when something
fails on the way, so that no part of a run is left behind.
-/

namespace PagedQuery
namespace RunFile

/-- Begins a run in a new or emptied file of a folder. -/
def create? (folder : Folder) (file : String) : Option (Writer × Folder) :=
  (folder.create? file).map fun made => (.start (folder.path file), made)

def create (file : String) : Act Folder Writer := do
  match create? (← get) file with
  | some (writer, folder) =>
    set folder
    pure writer
  | none => Act.fail .io

/-- Brings what a writer hands out to its file. -/
def deliver (file : String) (out : Writer × Chunk) : Act Folder Writer := do
  modify (·.write file out.2)
  pure out.1

def writeBatch (file : String) (w : Writer) (batch : Batch) : Act Folder Writer :=
  match w.writeBatch batch with
  | (.ok chunk, w) => deliver file (w, chunk)
  | (.error e, _) => Act.fail e

/-- Puts the terminator behind the batches. All bytes of the run are then in the file. -/
def finish (file : String) (w : Writer) : Act Folder Unit := do
  let w ← deliver file (w.put terminator)
  let _ ← deliver file w.flush

/-- Performs an action that makes a file. If it fails, the file is removed. -/
def orRemove {α : Type} (file : String) (x : Act Folder α) : Act Folder α := do
  match ← Act.attempt x with
  | .ok a => pure a
  | .error f =>
    modify (·.remove file)
    Act.abandon f

/-- Puts a complete run into a folder, or removes what is left of it. -/
def write (file : String) (batches : List Batch) : Act Folder Unit :=
  orRemove file do
    let w ← create file
    let w ← batches.foldlM (writeBatch file) w
    finish file w

/-- A run that is written row by row. -/
structure RowWriter where
  /-- The rows for the next batch. -/
  page : Draft
  writer : Writer

namespace RowWriter

/-- Takes a row. A page that gets full is written. -/
def take (role : PageRole) (file : String) (w : RowWriter) (row : Row) : Act Folder RowWriter := do
  let (full, page) ← Act.ofExcept (w.page.fill role row)
  match full with
  | none => pure { w with page }
  | some full =>
    let writer ← writeBatch file w.writer full
    pure ⟨page, writer⟩

/-- Writes the rows that are left and ends the run. -/
def finish (file : String) (w : RowWriter) : Act Folder Unit := do
  let writer ← writeBatch file w.writer w.page.batch
  RunFile.finish file writer

end RowWriter

/-- Performs an action on a working folder, if there is one. -/
def inFolder {α : Type} (x : Act Folder α) : Act (Option Folder) α := do
  match ← get with
  | some folder => Act.within (fun _ => folder) (fun _ folder => some folder) x
  | none => Act.fail .noWorkingDirectory

end RunFile
end PagedQuery
