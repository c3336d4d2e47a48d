import PagedQuery.Draft

/-!
# Blocks

A block is the bounded group of pages that a sort holds while it makes one run. Every row lies in
exactly one page, and the flattened view lists the rows page by page.
-/

namespace PagedQuery

/-- Up to `maxPages` pages. -/
structure Block where
  maxPages : Nat
  pageCapacity : Nat
  batches : List Batch
  deriving DecidableEq, Repr

namespace Block

def empty (maxPages pageCapacity : Nat) : Block := ⟨maxPages, pageCapacity, []⟩

/-- The bytes set aside for a page: its capacity and the three words of its list of rows. -/
def pageRoom : Nat := 32

/-- A block without pages, with room set aside for all it may hold. -/
def reserve (maxPages pageCapacity : Nat) : Except Failure Block :=
  if fitsMemory maxPages pageRoom then .ok (empty maxPages pageCapacity) else .error .outOfMemory

def isEmpty (b : Block) : Bool := b.batches.isEmpty

def isFull (b : Block) : Bool := decide (b.maxPages ≤ b.batches.length)

def add? (b : Block) (batch : Batch) : Option Block :=
  if b.isFull then none else some { b with batches := b.batches ++ [batch] }

def rows (b : Block) : List Row := b.batches.flatMap (·.rows)

def rowCount (b : Block) : Nat := total Batch.length b.batches

/-- The block with a page behind the others, or an overflow. -/
def add (b : Block) (batch : Batch) : Except Error Block :=
  match b.add? batch with
  | some b => .ok b
  | none => .error (.blockOverflow b.maxPages)

/-- Adds a row behind the pages closed so far and the open one. A full open page is closed first. A
page that cannot hold a single row stays as it is. -/
def pack (blockAndPage : Block × Draft) (row : Row) : Except Error (Block × Draft) := do
  let (block, page) := blockAndPage
  if page.isFull then
    let block ← block.add page.batch
    let fresh := Draft.empty block.pageCapacity
    pure (block, (fresh.push? row).getD fresh)
  else
    pure (block, (page.push? row).getD page)

/-- Repacks rows into full pages; only the last page may have room left. -/
def ofSorted (maxPages pageCapacity : Nat) (rows : List Row) : Except Failure Block := do
  let block ← reserve maxPages pageCapacity
  let page ← Draft.reserve pageCapacity
  let (block, page) ← Failure.ofExcept (rows.foldlM pack (block, page))
  if page.isEmpty then pure block else Failure.ofExcept (block.add page.batch)

end Block

end PagedQuery
