import PagedQuery.Batch

/-!
# Pages being filled

A `Draft` is a page that rows are still being added to. It keeps them latest first and counts the
room that is left, so adding a row costs the same however long the page is. `Draft.batch` is the
page so far.
-/

namespace PagedQuery

/-- A page being filled. -/
structure Draft where
  capacity : Nat
  /-- How many more rows it takes. -/
  room : Nat
  /-- Its rows, the latest first. -/
  latest : List Row
  /-- The rows and the room make up the capacity. -/
  fits : latest.length + room = capacity
  deriving DecidableEq, Repr

namespace Draft

def empty (capacity : Nat) : Draft := ⟨capacity, capacity, [], Nat.zero_add capacity⟩

def reserve (capacity : Nat) : Except Failure Draft :=
  (Batch.reserve capacity).map fun page => empty page.capacity

def batch (d : Draft) : Batch := ⟨d.capacity, d.latest.reverse⟩

def isEmpty (d : Draft) : Bool := d.latest.isEmpty

def isFull (d : Draft) : Bool := d.room == 0

def push? (d : Draft) (row : Row) : Option Draft :=
  match h : d.room with
  | 0 => none
  | room + 1 =>
    some ⟨d.capacity, room, row :: d.latest, by
      have hfits := d.fits
      rw [List.length_cons]
      omega⟩

/-- Adds a row. A page that gets full is handed on and an empty one begun. -/
def fill (role : PageRole) (d : Draft) (row : Row) : Except Error (Option Batch × Draft) :=
  match d.push? row with
  | none => .error (.pageOverflow role)
  | some d => .ok (if d.isFull then (some d.batch, empty d.capacity) else (none, d))

theorem reserve_of_fitsMemory {capacity : Nat} (h : fitsMemory capacity Batch.rowRoom = true) :
    reserve capacity = .ok (empty capacity) := by
  rw [reserve, Batch.reserve, if_pos h]
  rfl

theorem eq_empty_of_reserve {capacity : Nat} {page : Draft} (h : reserve capacity = .ok page) :
    page = empty capacity := by
  rw [reserve, Batch.reserve] at h
  split at h
  · exact (Except.ok.inj h).symm
  · cases h

@[simp]
theorem batch_empty (capacity : Nat) : (empty capacity).batch = .empty capacity := rfl

@[simp]
theorem isEmpty_batch (d : Draft) : d.batch.isEmpty = d.isEmpty := by
  simp [batch, Batch.isEmpty, isEmpty]

@[simp]
theorem isFull_batch (d : Draft) : d.batch.isFull = d.isFull := by
  have hfits := d.fits
  rw [Bool.eq_iff_iff]
  simp only [batch, Batch.isFull, Batch.length, isFull, List.length_reverse, decide_eq_true_eq,
    beq_iff_eq]
  omega

theorem map_batch_push? (d : Draft) (row : Row) :
    (d.push? row).map batch = d.batch.push? row := by
  rcases d with ⟨capacity, room, latest, hfits⟩
  cases room with
  | zero =>
    have hfull : capacity ≤ latest.length := by omega
    simp [push?, Batch.push?, Batch.isFull, Batch.length, batch, hfull]
  | succ room =>
    have hroom : ¬capacity ≤ latest.length := by omega
    simp [push?, Batch.push?, Batch.isFull, Batch.length, batch, hroom]

end Draft

end PagedQuery
