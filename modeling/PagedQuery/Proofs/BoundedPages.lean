import PagedQuery.Json.DataForm
import PagedQuery.Proofs.RunReading

/-!
# Pages and their capacity

A page that is made empty, made of rows or read from a run has no more rows than its capacity, and
adding rows and clearing it keep that. Decoding compares the rows with nothing, so a page can come out
with more. It then takes no row, and has too many of them until it is cleared.
-/

namespace PagedQuery
namespace Batch

variable {page : Batch}

def push (b : Batch) (row : Row) : Except Row Unit × Batch :=
  match b.push? row with
  | some b => (.ok (), b)
  | none => (.error row, b)

inductive Edit where
  | push (row : Row)
  | clear
  deriving DecidableEq, Repr

def edit (b : Batch) : Edit → Batch
  | .push row => (b.push row).2
  | .clear => b.clear

def edited (b : Batch) (edits : List Edit) : Batch := edits.foldl edit b

/-- Whether a page comes from where its rows are counted: it is made empty or of rows, or read. -/
inductive IsCounted : Batch → Prop
  | reserve {capacity : Nat} {page : Batch} (h : Batch.reserve capacity = .ok page) : IsCounted page
  | ofRows {capacity : Nat} {rows : List Row} {page : Batch}
      (h : Batch.ofRows capacity rows = .ok page) : IsCounted page
  | read {reader : RunFile.Reader} {page : Batch} (h : reader.next.1 = .ok (some page)) :
      IsCounted page

theorem length_le_of_next {reader : RunFile.Reader} (h : reader.next.1 = .ok (some page)) :
    page.length ≤ page.capacity := by
  cases hdone : reader.isDone with
  | true =>
    rw [RunFile.Reader.next_of_isDone hdone] at h
    cases h
  | false =>
    have hat : reader.IsAt reader.path reader.capacity reader.input.unread := ⟨rfl, rfl, hdone, rfl⟩
    obtain ⟨bytes, rest, ⟨hcapacity, -, hlength, -⟩, -⟩ := hat.of_next_batch (Prod.ext h rfl)
    rwa [hcapacity]

theorem IsCounted.length_le (h : IsCounted page) : page.length ≤ page.capacity := by
  cases h with
  | reserve h =>
    unfold Batch.reserve at h
    split at h
    · obtain rfl := Except.ok.inj h
      exact Nat.zero_le _
    · cases h
  | ofRows h =>
    unfold Batch.ofRows at h
    split at h
    · cases h
    · next hroom =>
      obtain rfl := Except.ok.inj h
      exact Nat.le_of_not_lt hroom
  | read h => exact length_le_of_next h

/-- A page takes a row behind the others exactly if it has fewer than its capacity. Else it stays as
it is and the row comes back. -/
theorem push_eq (b : Batch) (row : Row) :
    b.push row = if b.length < b.capacity then (.ok (), { b with rows := b.rows ++ [row] })
      else (.error row, b) := by
  unfold push push? isFull
  by_cases h : b.length < b.capacity
  · rw [if_pos h, if_neg (by simpa using h)]
  · rw [if_neg h, if_pos (by simpa using h)]

@[simp]
theorem capacity_edit (b : Batch) (edit : Edit) : (b.edit edit).capacity = b.capacity := by
  cases edit with
  | push row =>
    rw [Batch.edit, push_eq]
    split <;> rfl
  | clear => rfl

/-- A change leaves too many rows exactly if there were too many and it does not clear the page. -/
theorem length_edit_le_iff (b : Batch) (edit : Edit) :
    (b.edit edit).length ≤ b.capacity ↔ b.length ≤ b.capacity ∨ edit = .clear := by
  cases edit with
  | push row =>
    rw [Batch.edit, push_eq]
    split
    · next hroom =>
      have hlength : (b.rows ++ [row]).length ≤ b.capacity := by
        rw [List.length_append]
        exact hroom
      exact ⟨fun _ => .inl (Nat.le_of_lt hroom), fun _ => hlength⟩
    · exact ⟨.inl, fun h => h.resolve_right nofun⟩
  | clear => exact ⟨fun _ => .inr rfl, fun _ => Nat.zero_le _⟩

@[simp]
theorem capacity_edited (b : Batch) (edits : List Edit) :
    (b.edited edits).capacity = b.capacity := by
  induction edits generalizing b with
  | nil => rfl
  | cons edit edits ih => exact (ih (b.edit edit)).trans (capacity_edit b edit)

/-- A page has too many rows exactly if it came with too many and has not been cleared since. -/
theorem length_edited_le_iff (b : Batch) (edits : List Edit) :
    (b.edited edits).length ≤ b.capacity ↔ b.length ≤ b.capacity ∨ .clear ∈ edits := by
  induction edits generalizing b with
  | nil => exact ⟨.inl, fun h => h.resolve_right (List.not_mem_nil)⟩
  | cons edit edits ih =>
    have hrest := ih (b.edit edit)
    rw [capacity_edit, length_edit_le_iff] at hrest
    rw [List.mem_cons, ← or_assoc, eq_comm]
    exact hrest

/-- A page from where its rows are counted never has more than its capacity, whatever rows are added
and how often it is cleared. Any page has more exactly as long as it came with more and has not been
cleared. At all times it takes a row exactly if it has fewer than its capacity, and hands it back
unchanged if not. -/
theorem keeps_within_capacity (page : Batch) (edits : List Edit) :
    (IsCounted page → (page.edited edits).length ≤ (page.edited edits).capacity) ∧
    ((page.edited edits).length ≤ (page.edited edits).capacity ↔
      page.length ≤ page.capacity ∨ .clear ∈ edits) ∧
    (page.edited edits).capacity = page.capacity ∧
    ∀ row, (page.edited edits).push row =
      if (page.edited edits).length < (page.edited edits).capacity then
        (.ok (), { page.edited edits with rows := (page.edited edits).rows ++ [row] })
      else (.error row, page.edited edits) := by
  have hcapacity := capacity_edited page edits
  have hlength := length_edited_le_iff page edits
  rw [← hcapacity] at hlength
  refine ⟨fun h => hlength.mpr (.inl ?_), ?_, hcapacity, push_eq _⟩
  · rw [hcapacity]
    exact h.length_le
  · rw [hlength, hcapacity]

/-- A text that names a capacity of zero and lists a row decodes to a page with that row. -/
theorem decodes_beyond_capacity :
    ∃ page, form.decode "\x7b\"capacity\":0,\"tuples\":[\x7b\"field_vals\":[]\x7d]\x7d" = .ok page ∧
      ¬page.length ≤ page.capacity :=
  ⟨⟨0, [[]]⟩, by decide +kernel, by decide⟩

end Batch
end PagedQuery
