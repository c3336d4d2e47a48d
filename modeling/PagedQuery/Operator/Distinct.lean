import PagedQuery.Operator.MergeSort
import PagedQuery.Cursor.Gather

/-!
# Duplicate elimination

The child is sorted on all columns, which brings equal rows together; a row equal to the one kept
before it is dropped. The output ascends on all columns.
-/

namespace PagedQuery
namespace Distinct

structure State (σ : Type) where
  sort : σ
  isOpen : Bool
  capacity : Nat
  last : Option Row
  /-- Sorted rows not yet looked at. -/
  pending : List Row

variable {σ : Type}

def onSort {α : Type} (x : Act σ α) : Act (State σ) α :=
  Act.within (·.sort) (fun s sort => { s with sort }) x

/-- Whether a row is equal to the last one kept. -/
def repeats (last : Option Row) (row : Row) : Bool :=
  match last with
  | some kept => Row.equals kept row
  | none => false

/-- Yields a pending row unless it repeats the last one, or fetches a page. -/
def step (sort : Cursor σ) : Act (State σ) Step := do
  let s ← get
  match s.pending with
  | row :: pending =>
    if repeats s.last row then
      set { s with pending }
      pure .skip
    else
      set { s with pending, last := some row }
      pure (.row row)
  | [] =>
    match ← onSort sort.next with
    | none => pure .done
    | some batch =>
      modify fun s => { s with pending := batch.rows }
      pure .skip

/-- Opens the sort, once a page is known to hold a row. -/
def openUp (pageSize : Nat) (sort : Cursor σ) : Act (State σ) Unit := do
  unless (← get).isOpen do
    let capacity ← Act.ofAnswer (sort.schema.pageCapacity pageSize)
    modify fun s => { s with capacity }
    onSort sort.openUp
    modify fun s => { s with last := none, pending := [], isOpen := true }

/-- A bound on the steps still to come: each takes a pending row or a page of the sort. -/
def steps (sort : Cursor σ) (s : State σ) : Nat := s.pending.length + sort.volume s.sort + 1

def next (sort : Cursor σ) : Act (State σ) (Option Batch) := do
  let s ← get
  if s.isOpen then
    let empty ← Act.ofAnswer (Draft.reserve s.capacity)
    let page ← gather .distinctOutput (step sort) (steps sort s) empty
    pure page.nonempty?
  else
    Act.fail .notOpen

def close (sort : Cursor σ) : Act (State σ) Unit := do
  modify fun s => { s with last := none, pending := [], isOpen := false }
  onSort sort.close

/-- The rows still to be looked at. -/
def volume (sort : Cursor σ) (s : State σ) : Nat := s.pending.length + sort.volume s.sort

theorem volume_step (sort : Cursor σ) (root : TempRoot) (s : State σ) :
    (step sort).Ensures root s fun answer t => Step.cost answer + volume sort t ≤ volume sort s := by
  rcases s with ⟨source, isOpen, capacity, last, _ | ⟨row, pending⟩⟩
  · rw [step, Act.ensures_get_bind]
    refine Act.Ensures.within_bind (sort.volume_next root source) ?_ ?_
    · intro e t hcost
      simpa [Step.cost, pageCost, volume] using hcost
    · rintro (_ | batch) t hcost
      · simpa [Act.ensures_pure, Step.cost, pageCost, volume] using hcost
      · simp only [Act.ensures_modify_bind, Act.ensures_pure, Step.cost, pageCost, volume,
          Batch.length] at hcost ⊢
        omega
  · rw [step, Act.ensures_get_bind]
    dsimp only
    split
    · simp only [Act.ensures_set_bind, Act.ensures_pure, Step.cost, volume, List.length_cons]
      omega
    · simp only [Act.ensures_set_bind, Act.ensures_pure, Step.cost, volume, List.length_cons]
      omega

theorem volume_next (sort : Cursor σ) (root : TempRoot) (s : State σ) :
    (next sort).Ensures root s fun answer t =>
      pageCost answer + 2 * volume sort t ≤ 2 * volume sort s := by
  rw [next, Act.ensures_get_bind]
  split
  · exact ensures_fill (volume_step sort) _ _ _ root s
  · simp [Act.ensures_fail, pageCost]

/-- Keeps one of equal rows that a sort on all columns brings together. -/
def overSorted (pageSize : Nat) (sort : Cursor σ) : Cursor (State σ) where
  schema := sort.schema
  start := ⟨sort.start, false, 0, none, []⟩
  openUp := openUp pageSize sort
  next := next sort
  close := close sort
  volume s := 2 * volume sort s
  folders s := sort.folders s.sort
  volume_next := volume_next sort

/-- How the child is sorted: ascending on all columns. -/
def sortSpec (pageSize numBuffers : Nat) (schema : Schema) : SortSpec :=
  ⟨pageSize, numBuffers, "distinct", List.range schema.length, false⟩

def cursor (pageSize numBuffers : Nat) (child : Cursor σ) : Cursor (State (MergeSort.State σ)) :=
  overSorted pageSize (MergeSort.cursor (sortSpec pageSize numBuffers child.schema) child)

end Distinct
end PagedQuery
