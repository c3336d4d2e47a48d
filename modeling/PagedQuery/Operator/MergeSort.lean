import PagedQuery.Operator.MergeSort.Merge

/-!
# External merge sort

Opening the sort reads the whole child, writes sorted runs and merges them into one; that run is
then streamed back a page at a time. The child's rows are taken up to the first empty page.
-/

namespace PagedQuery
namespace MergeSort

structure State (σ : Type) where
  child : σ
  isOpen : Bool
  capacity : Nat
  work : RunSet
  reader : Option RunFile.Reader

variable {σ : Type}

def onChild {α : Type} (x : Act σ α) : Act (State σ) α :=
  Act.within (·.child) (fun s child => { s with child }) x

def onRuns {α : Type} (x : Act RunSet α) : Act (State σ) α :=
  Act.within (·.work) (fun s work => { s with work }) x

/-- Takes all rows of the child. The number bounds its pages. -/
def takePages (spec : SortSpec) (child : Cursor σ) (capacity : Nat) :
    Nat → Block × Draft → Act (State σ) (Block × Draft)
  | 0, blockAndPage => pure blockAndPage
  | steps + 1, blockAndPage => do
    match ← onChild child.next with
    | none => pure blockAndPage
    | some batch =>
      if batch.isEmpty then pure blockAndPage
      else
        let blockAndPage ←
          onRuns (batch.rows.foldlM (RunSet.takeRow spec capacity) blockAndPage)
        takePages spec child capacity steps blockAndPage

/-- Writes the child's rows as sorted runs. -/
def generateRuns (spec : SortSpec) (child : Cursor σ) (capacity : Nat) : Act (State σ) Unit := do
  let steps := child.volume (← get).child + 1
  let block ← Act.ofAnswer (Block.reserve spec.numBuffers capacity)
  let page ← Act.ofAnswer (Draft.reserve capacity)
  let blockAndPage ← takePages spec child capacity steps (block, page)
  onRuns (RunSet.takeEnd spec capacity blockAndPage)

/-- Makes the working folder and brings the child's rows into a single run. -/
def sortInput (spec : SortSpec) (child : Cursor σ) (capacity : Nat) : Act (State σ) Unit := do
  match (← Act.tempRoot).makeFolder? (spec.label ++ "-sort-") with
  | none => Act.fail .io
  | some folder =>
    onRuns (modify fun s => { s with folder := some folder, stats := {} })
    generateRuns spec child capacity
    onRuns (RunSet.mergeAll spec capacity)
    let reader ← onRuns (RunSet.openSingle capacity)
    modify fun s => { s with reader := some reader }

/-- Drops the final run and deletes all runs. -/
def release : Act (State σ) Unit := do
  modify fun s => { s with reader := none }
  onRuns RunSet.release

/-- Refuses a key that reaches beyond the columns. -/
def validateKey (key : List Nat) (schema : Schema) : Except Error Unit :=
  match key.find? (schema.length ≤ ·) with
  | some position => .error (.sortKeyOutOfRange position schema.length)
  | none => .ok ()

/-- Brings the child's rows into a single run. If that fails, no run is left behind. -/
def sortOrRelease (spec : SortSpec) (child : Cursor σ) (capacity : Nat) : Act (State σ) Unit := do
  match ← Act.attempt (sortInput spec child capacity) with
  | .ok () => modify fun s => { s with isOpen := true }
  | .error f =>
    release
    Act.abandon f

/-- Opens the child and sorts its rows. -/
def openUp (spec : SortSpec) (child : Cursor σ) : Act (State σ) Unit := do
  unless (← get).isOpen do
    Act.ofExcept (validateBuffers spec.numBuffers)
    let capacity ← Act.ofAnswer (child.schema.pageCapacity spec.pageSize)
    modify fun s => { s with capacity }
    Act.ofExcept (validateKey spec.key child.schema)
    onChild child.openUp
    sortOrRelease spec child capacity

def next : Act (State σ) (Option Batch) := do
  let s ← get
  if s.isOpen then
    match s.reader with
    | none => pure none
    | some reader =>
      let (answer, reader) := reader.next
      set { s with reader := some reader }
      Act.ofExcept answer
  else
    Act.fail .notOpen

/-- Deletes the runs and closes the child. A child that fails to close leaves the sort open. -/
def close (child : Cursor σ) : Act (State σ) Unit := do
  release
  onChild child.close
  modify fun s => { s with isOpen := false }

def volume (s : State σ) : Nat := s.reader.elim 0 (·.input.length)

theorem volume_next (root : TempRoot) (s : State σ) :
    next.Ensures root s fun answer t => pageCost answer + volume t ≤ volume s := by
  rw [next, Act.ensures_get_bind]
  rcases s with ⟨child, _ | _, capacity, work, _ | reader⟩
  · simp [Act.ensures_fail, pageCost]
  · simp [Act.ensures_fail, pageCost]
  · simp [Act.ensures_pure, pageCost]
  · have hcost := reader.pageCost_next
    simp only [if_true, Act.ensures_set_bind, Act.ensures_ofExcept, volume, Option.elim]
    rcases hanswer : reader.next.1 with e | _ | batch <;> rw [hanswer] at hcost <;> exact hcost

def cursor (spec : SortSpec) (child : Cursor σ) : Cursor (State σ) where
  schema := child.schema
  start := ⟨child.start, false, 0, .empty, none⟩
  openUp := openUp spec child
  next := next
  close := close child
  volume := volume
  folders s := s.work.folder.toList ++ child.folders s.child
  volume_next := volume_next

/-- The columns that the output is ordered by, outermost first. -/
def orderBy (key : List Nat) (schema : Schema) : List Attribute := key.filterMap (schema[·]?)

end MergeSort
end PagedQuery
