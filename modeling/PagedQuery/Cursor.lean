import PagedQuery.Act
import PagedQuery.Batch

/-!
# Cursors

An operator is pulled through a `Cursor`: it is opened, asked for one page after the other, and
closed. Folders belong to the state of the operator that made them, so what lies in the directory
for working folders at any time is what `Cursor.folders` lists. Every operator knows a bound on the
pages and rows that it still has to give, which is what makes reading it to its end terminate.
-/

namespace PagedQuery

/-- An operator with states `σ`. -/
structure Cursor (σ : Type) where
  schema : Schema
  start : σ
  /-- Acquires what is needed, here and in the children. Does nothing if the operator is open. -/
  openUp : Act σ Unit
  next : Act σ (Option Batch)
  close : Act σ Unit
  /-- A bound on what is still to come, counting one for each row and one for each page. -/
  volume : σ → Nat
  /-- The working folders that exist. -/
  folders : σ → List Folder
  /-- No call gives more than was still to come. -/
  volume_next : ∀ root s, next.Ensures root s fun answer t => pageCost answer + volume t ≤ volume s

namespace Cursor

variable {σ : Type}

/-- Pulls pages until there are no more or a call fails. -/
def pull (c : Cursor σ) : Nat → Act σ (List Batch × Option Failure)
  | 0 => pure ([], none)
  | steps + 1 => do
    match ← Act.attempt c.next with
    | .error f => pure ([], some f)
    | .ok none => pure ([], none)
    | .ok (some batch) =>
      let (batches, ending) ← pull c steps
      pure (batch :: batches, ending)

def drain (c : Cursor σ) : Act σ (List Batch × Option Failure) := do
  let s ← get
  c.pull (c.volume s + 1)

def execute (c : Cursor σ) : Act σ (List Row) := do
  c.openUp
  let (batches, ending) ← c.drain
  match ending with
  | some f => Act.abandon f
  | none => pure (batches.flatMap (·.rows))

end Cursor

end PagedQuery
