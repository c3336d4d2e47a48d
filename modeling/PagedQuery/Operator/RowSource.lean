import PagedQuery.Cursor

/-!
# Rows from memory

A source that hands out given rows page by page, in place of a table scan.
-/

namespace PagedQuery
namespace RowSource

/-- The pages still to come, if the source is open. -/
abbrev State := Option (List Batch)

def cursor (pageSize : Nat) (schema : Schema) (rows : List Row) : Cursor State where
  schema := schema
  start := none
  openUp := do
    match ← get with
    | some _ => pure ()
    | none =>
      let capacity ← Act.ofAnswer (schema.pageCapacity pageSize)
      set (some (Batch.pages capacity rows))
  next := do
    match ← get with
    | none => Act.fail .notOpen
    | some [] => pure none
    | some (page :: pages) =>
      set (some pages)
      pure (some page)
  close := set (none : State)
  volume s := total (fun page => page.length + 1) (s.getD [])
  folders _ := []
  volume_next root s := by
    rcases s with _ | _ | ⟨page, pages⟩
    · exact Nat.le_refl _
    · exact Nat.le_refl _
    · exact Nat.le_refl _

end RowSource
end PagedQuery
