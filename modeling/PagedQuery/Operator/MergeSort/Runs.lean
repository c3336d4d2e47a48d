import PagedQuery.Cursor
import PagedQuery.Block
import PagedQuery.Reference
import PagedQuery.RunFile.Reader
import PagedQuery.RunFile.Save

/-!
# Sorted runs

The runs of an external sort lie in a working folder. Run generation collects rows in a block of
pages and writes each full block as a sorted run; counters record how the buffers were used.
-/

namespace PagedQuery

/-- How a sort used its buffers. -/
structure SortStats where
  initialRuns : Nat := 0
  mergePasses : Nat := 0
  maxFanIn : Nat := 0
  /-- Pages of the largest block held during run generation. -/
  maxBlockPages : Nat := 0
  mergedRuns : Nat := 0
  deriving DecidableEq, Repr

/-- How to sort. -/
structure SortSpec where
  pageSize : Nat
  /-- Buffer pages for blocks and merges. -/
  numBuffers : Nat
  label : String
  /-- The positions of the key, outermost first. -/
  key : List Nat
  descending : Bool
  deriving DecidableEq, Repr

/-- How many runs are merged at a time: one page is for the output. -/
def SortSpec.fanIn? (spec : SortSpec) : Option Nat :=
  if spec.numBuffers = 0 then none else some (spec.numBuffers - 1)

/-- What the names of files begin with: of a label that is a path, the last part. The parts before it
are the way to the folder and from there to the files. -/
def SortSpec.stem (spec : SortSpec) : String := Path.last spec.label

/-- The name of a run that run generation writes. -/
def SortSpec.runName (spec : SortSpec) (number : Nat) : String :=
  spec.stem ++ "-run-" ++ toString number

/-- The name of a run that a merge pass writes. -/
def SortSpec.mergeName (spec : SortSpec) (pass number : Nat) : String :=
  spec.stem ++ "-merge-" ++ toString pass ++ "-" ++ toString number

/-- The runs of a sort: the folder they lie in, those that are still needed, and the counters. -/
structure RunSet where
  folder : Option Folder
  runs : List String
  stats : SortStats
  deriving DecidableEq, Repr

namespace RunSet

def empty : RunSet := ⟨none, [], {}⟩

def modifyStats (f : SortStats → SortStats) : Act RunSet Unit :=
  modify fun s => { s with stats := f s.stats }

def workingFolder : Act RunSet Folder := do
  match (← get).folder with
  | some folder => pure folder
  | none => Act.fail .noWorkingDirectory

def track (file : String) : Act RunSet Unit :=
  modify fun s => { s with runs := s.runs ++ [file] }

def onFolder {α : Type} (x : Act Folder α) : Act RunSet α :=
  Act.within (·.folder) (fun s folder => { s with folder }) (RunFile.inFolder x)

/-- Writes a run. A run that fails leaves no file. -/
def write (file : String) (batches : List Batch) : Act RunSet Unit :=
  onFolder (RunFile.write file batches)

/-- Deletes runs that are no longer needed. -/
def discard (files : List String) : Act RunSet Unit :=
  modify fun s => { s with folder := s.folder.map fun folder => files.foldl Folder.remove folder }

/-- Sorts the rows of a block and writes them as the next run, on full pages. -/
def writeSorted (spec : SortSpec) (capacity : Nat) (block : Block) : Act RunSet Unit := do
  modifyStats fun t => { t with maxBlockPages := max t.maxBlockPages block.batches.length }
  let rows ← Act.require (Row.sortOn? spec.key spec.descending block.rows)
  let sorted ← Act.ofAnswer (Block.ofSorted spec.numBuffers capacity rows)
  let file := spec.runName ((← get).runs.length + 1)
  write file sorted.batches
  track file
  modifyStats fun t => { t with initialRuns := t.initialRuns + 1 }

/-- Adds a row to the open page of a block. A full page goes into the block, a full block becomes a
run. -/
def takeRow (spec : SortSpec) (capacity : Nat) (blockAndPage : Block × Draft) (row : Row) :
    Act RunSet (Block × Draft) := do
  let (block, page) := blockAndPage
  let (closed, page) ← Act.ofExcept (page.fill .sortInput row)
  match closed with
  | none => pure (block, page)
  | some closed =>
    match block.add? closed with
    | none => Act.fail .sortBlockOverflow
    | some block =>
      if block.isFull then
        writeSorted spec capacity block
        pure (.empty spec.numBuffers capacity, page)
      else
        pure (block, page)

/-- Adds the open page to its block, unless it is empty. -/
def closePage (block : Block) (page : Draft) : Act RunSet Block :=
  if page.isEmpty then pure block
  else
    match block.add? page.batch with
    | some block => pure block
    | none => Act.fail .sortBlockOverflow

/-- Makes a run of the rows that are left in a block. -/
def writeLeft (spec : SortSpec) (capacity : Nat) (block : Block) : Act RunSet Unit :=
  if block.isEmpty then pure () else writeSorted spec capacity block

/-- Makes the last run of what is left in the open page and its block. Without any rows there is one
empty run. -/
def takeEnd (spec : SortSpec) (capacity : Nat) (blockAndPage : Block × Draft) :
    Act RunSet Unit := do
  let block ← closePage blockAndPage.1 blockAndPage.2
  writeLeft spec capacity block
  if (← get).runs.isEmpty then
    let file := spec.runName 0
    write file []
    track file

/-- Deletes the runs and their folder. The counters stay. -/
def release : Act RunSet Unit := do
  discard (← get).runs
  modify fun s => { s with folder := none, runs := [] }

end RunSet

end PagedQuery
