import PagedQuery.Operator.MergeSort.Runs

/-!
# Merging runs

Runs are merged in groups of one less than the number of buffers, pass after pass, until one is
left. A merge takes the least of the rows at the heads of its runs; of rows with equal keys, the
one of the earlier run comes first. A lone run moves to the next pass as it is. When a merge
fails, every run that still exists stays listed.
-/

namespace PagedQuery

/-- A run in a merge: its next row with the key of that row, and what it is read on from. -/
structure Lane (ρ : Type) where
  key : Row
  row : Row
  /-- The position of the run in its group. -/
  run : Nat
  rest : ρ
  deriving DecidableEq, Repr

namespace Lane

variable {ρ : Type}

/-- Which of two lanes goes first: by key in the direction of the sort, then by run. -/
def order (descending : Bool) (a b : Lane ρ) : Ordering :=
  (Row.directed descending (Row.compare a.key b.key)).then (Ord.compare a.run b.run)

/-- The lane that goes first, and the others. -/
def popFirst (descending : Bool) : List (Lane ρ) → Option (Lane ρ × List (Lane ρ))
  | [] => none
  | a :: lanes =>
    match popFirst descending lanes with
    | none => some (a, [])
    | some (b, others) =>
      if order descending a b == .gt then some (b, a :: others) else some (a, b :: others)

/-- Reads the next row of a run and makes a lane of it, unless the run is at its end. -/
def advance? (key : List Nat) (run : Nat) (rest : RunFile.RowReader) :
    Except Failure (Option (Lane RunFile.RowReader)) :=
  match rest.next with
  | (.ok (some row), rest) =>
    match Row.project? row key with
    | some values => .ok (some ⟨values, row, run, rest⟩)
    | none => .error .outOfRange
  | (.ok none, _) => .ok none
  | (.error e, _) => .error (.error e)

/-- Reads the first row of every run. -/
def ofReaders (key : List Nat) (readers : List RunFile.Reader) :
    Except Failure (List (Lane RunFile.RowReader)) := do
  let lanes ← readers.zipIdx.mapM fun (reader, run) => advance? key run (.ofReader reader)
  pure lanes.reduceOption

end Lane

namespace RunSet

/-- Writes the rows of all lanes in order. The next row of a run is read when the one before it was
written. The number bounds the rows. -/
def writeLanes (spec : SortSpec) (file : String) :
    Nat → List (Lane RunFile.RowReader) → RunFile.RowWriter → Act Folder RunFile.RowWriter
  | 0, _, w => pure w
  | rows + 1, lanes, w =>
    match Lane.popFirst spec.descending lanes with
    | none => pure w
    | some (lane, others) => do
      let w ← w.take .mergeOutput file lane.row
      let next ← Act.ofAnswer (Lane.advance? spec.key lane.run lane.rest)
      writeLanes spec file rows (next.toList ++ others) w

/-- Makes a run of the rows of all lanes. If that fails, no part of it is left behind. -/
def writeMerged (spec : SortSpec) (capacity : Nat) (file : String) (rows : Nat)
    (lanes : List (Lane RunFile.RowReader)) : Act Folder Unit :=
  RunFile.orRemove file do
    let writer ← RunFile.create file
    let page ← Act.ofAnswer (Draft.reserve capacity)
    let w ← writeLanes spec file rows lanes ⟨page, writer⟩
    w.finish file

/-- Merges a group of runs into a new one. There are no more rows in a run than bytes. -/
def mergeGroup (spec : SortSpec) (capacity : Nat) (group : List String) (file : String) :
    Act RunSet Unit := do
  if group.isEmpty then
    Act.fail .nothingToMerge
  let fanIn ← Act.require spec.fanIn?
  if fanIn < group.length then
    Act.fail (.fanInExceeded group.length fanIn)
  modifyStats fun t => { t with maxFanIn := max t.maxFanIn group.length }
  let folder ← workingFolder
  let readers ← Act.ofExcept (group.mapM (RunFile.Reader.ofFile folder · capacity))
  let lanes ← Act.ofAnswer (Lane.ofReaders spec.key readers)
  onFolder (writeMerged spec capacity file (total (·.input.length) readers) lanes)

/-- Takes a group of runs to the next pass: a lone run as it is, others merged into one of this name.
If that fails, the runs of the group and those behind it stay listed. -/
def passGroup (spec : SortSpec) (capacity : Nat) (file : String) (later : List String) :
    List String → Act RunSet Unit
  | [run] => track run
  | group => do
    match ← Act.attempt (mergeGroup spec capacity group file) with
    | .ok () =>
      track file
      modifyStats fun t => { t with mergedRuns := t.mergedRuns + 1 }
      discard group
    | .error f =>
      modify fun s => { s with runs := s.runs ++ (group ++ later) }
      Act.abandon f

/-- One pass over groups of runs, the first of which has the given number. -/
def mergeGroups (spec : SortSpec) (capacity pass : Nat) : Nat → List (List String) → Act RunSet Unit
  | _, [] => pure ()
  | number, group :: groups => do
    passGroup spec capacity (spec.mergeName pass number) groups.flatten group
    mergeGroups spec capacity pass (number + 1) groups

/-- Merge passes over groups of so many runs, the next pass of which has the given number, until a
single run is left. Each pass leaves fewer runs, which bounds the passes. -/
def mergePasses (spec : SortSpec) (capacity fanIn : Nat) : Nat → Nat → Act RunSet Unit
  | 0, _ => pure ()
  | passes + 1, pass => do
    let s ← get
    if 1 < s.runs.length then
      set { s with runs := [] }
      let groups ← Act.require (chunks? fanIn s.runs)
      mergeGroups spec capacity pass 0 groups
      modifyStats fun t => { t with mergePasses := pass }
      mergePasses spec capacity fanIn passes (pass + 1)

/-- Merges the runs until a single one is left. -/
def mergeAll (spec : SortSpec) (capacity : Nat) : Act RunSet Unit := do
  let fanIn ← Act.require spec.fanIn?
  mergePasses spec capacity fanIn (← get).runs.length 1

def openSingle (capacity : Nat) : Act RunSet RunFile.Reader := do
  match (← get).runs with
  | [run] =>
    let folder ← workingFolder
    Act.ofExcept (RunFile.Reader.ofFile folder run capacity)
  | runs => Act.fail (.notSingleRun runs.length)

end RunSet

end PagedQuery
