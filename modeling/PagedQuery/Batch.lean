import PagedQuery.Row
import PagedQuery.Error

/-!
# Batches

A batch is one page of rows, the unit in which operators hand rows on. Its capacity is fixed when it
is made, and `push?` refuses a row once the page is full. A page that is to be filled row by row is
made by `reserve`, which fails if its capacity asks for more room than memory can have.
-/

namespace PagedQuery

/-- The least number of buffer pages for a sort or a join: one page for each side, or for each
merged run, and one for the output. -/
def minBuffers : Nat := 3

def validateBuffers (numBuffers : Nat) : Except Error Unit :=
  if numBuffers < minBuffers then .error (.tooFewBuffers numBuffers) else .ok ()

/-- The settings that the surrounding system hands down. -/
structure Settings where
  pageSize : Nat := 4096
  numBuffers : Nat := 50
  /-- Where working directories are made; `none` is the system's own place. -/
  tempDir : Option String := none
  deriving DecidableEq, Repr

def Settings.validate (config : Settings) : Except Error Unit :=
  if config.pageSize = 0 then .error .zeroPageSize else validateBuffers config.numBuffers

/-- The largest word of 64 bits. Sizes and counts are such words. -/
def maxWord : Nat := 0xffffffffffffffff

/-- The most bytes in one piece of memory: positions in it are signed words of 64 bits. -/
def maxSpan : Nat := 0x7fffffffffffffff

/-- Whether `count` items of `size` bytes each fit in one piece of memory. -/
def fitsMemory (count size : Nat) : Bool := decide (count * size ≤ maxSpan)

/-- At most `count` pieces of `n` items from the front of a list. -/
def takeChunks {α : Type} (n : Nat) : Nat → List α → List (List α)
  | 0, _ => []
  | _ + 1, [] => []
  | count + 1, x :: xs => (x :: xs).take n :: takeChunks n count ((x :: xs).drop n)

/-- A list in pieces of `n` items, the last of which may be shorter. There are no more pieces than
items. -/
def chunks {α : Type} (n : Nat) (xs : List α) : List (List α) := takeChunks n xs.length xs

/-- A list in pieces of `n` items. There are no pieces of no items. -/
def chunks? {α : Type} (n : Nat) (xs : List α) : Option (List (List α)) :=
  if n = 0 then none else some (chunks n xs)

structure Batch where
  capacity : Nat
  rows : List Row
  deriving DecidableEq, Repr

namespace Batch

def empty (capacity : Nat) : Batch := ⟨capacity, []⟩

/-- The bytes set aside for a row: where its fields lie, how many there are, and how many could be,
a word each. -/
def rowRoom : Nat := 24

/-- A page without rows, with room set aside for all it may hold. -/
def reserve (capacity : Nat) : Except Failure Batch :=
  if fitsMemory capacity rowRoom then .ok (empty capacity) else .error .outOfMemory

/-- How many rows lie next to each other on a page. -/
def perPage (pageSize rowSize : Nat) (_ : rowSize ≠ 0) : Nat := pageSize / rowSize

/-- How many rows of `rowSize` bytes fit in a page of `pageSize` bytes. There is an answer only if
it is at least one. -/
def capacityFor (pageSize rowSize : Nat) : Except Error Nat :=
  if h : rowSize = 0 then .error .zeroRowSize
  else if perPage pageSize rowSize h = 0 then .error (.rowExceedsPage rowSize pageSize)
  else .ok (perPage pageSize rowSize h)

def length (b : Batch) : Nat := b.rows.length

def isEmpty (b : Batch) : Bool := b.rows.isEmpty

def isFull (b : Batch) : Bool := decide (b.capacity ≤ b.length)

/-- The page with a row behind the others, unless it is full. -/
def push? (b : Batch) (row : Row) : Option Batch :=
  if b.isFull then none else some { b with rows := b.rows ++ [row] }

def clear (b : Batch) : Batch := { b with rows := [] }

def ofRows (capacity : Nat) (rows : List Row) : Except Error Batch :=
  if capacity < rows.length then .error (.rowsExceedPage rows.length capacity)
  else .ok ⟨capacity, rows⟩

def equals (a b : Batch) : Bool :=
  a.capacity == b.capacity && a.length == b.length
    && (a.rows.zip b.rows).all fun (r, s) => Row.equals r s

/-- Rows on pages that are full, but for the last. -/
def pages (capacity : Nat) (rows : List Row) : List Batch :=
  (chunks capacity rows).map (⟨capacity, ·⟩)

/-- The page, or nothing if it has no rows. -/
def nonempty? (b : Batch) : Option Batch := if b.isEmpty then none else some b

end Batch

/-- How many rows of these columns fit in a page. Their widths are added up to a word. Page sizes are
words too, so the sum of widths of a row that fits is one in any case. -/
def Schema.pageCapacity (schema : Schema) (pageSize : Nat) : Except Failure Nat :=
  match Batch.capacityFor pageSize schema.rowSize with
  | .ok capacity => .ok capacity
  | .error e => if schema.rowSize ≤ maxWord then .error (.error e) else .error .outOfRange

/-- What an answer takes off a volume of pages: one for each row of a page and one for the page. -/
def pageCost {ε : Type} : Except ε (Option Batch) → Nat
  | .ok (some batch) => batch.length + 1
  | _ => 0

end PagedQuery
