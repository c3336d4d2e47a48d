import PagedQuery.Cursor

/-!
# Sample sources

Small tables and schemas to try operators on, and sources that answer from a script: whatever state
such a source is in, it gives the next answer and notes the call. Opening and closing succeed when
the script for them has run out, and the rows end.
-/

namespace PagedQuery

/-- What a scripted source will answer. -/
structure Script where
  opens : List (Option Error)
  pages : List (Except Error (Option Batch))
  closes : List (Option Error)

namespace Script

def report {σ : Type} : Option Error → Act σ Unit
  | none => pure ()
  | some e => Act.fail e

/-- The source that answers from a script. Its name stands before each call that it notes. -/
def cursor (name : String) (schema : Schema) (script : Script) : Cursor Script where
  schema := schema
  start := script
  openUp := do
    Act.note (name ++ ".open")
    let s ← get
    set { s with opens := s.opens.tail }
    report (s.opens.head?.getD none)
  next := do
    Act.note (name ++ ".next")
    let s ← get
    set { s with pages := s.pages.tail }
    Act.ofExcept (s.pages.head?.getD (.ok none))
  close := do
    Act.note (name ++ ".close")
    let s ← get
    set { s with closes := s.closes.tail }
    report (s.closes.head?.getD none)
  volume s := total pageCost s.pages
  folders _ := []
  volume_next root s := by
    rcases s with ⟨opens, _ | ⟨answer, pages⟩, closes⟩
    · exact Nat.le_refl _
    · rcases answer with e | _ | page
      · exact Nat.le_refl _
      · exact Nat.le_refl _
      · exact Nat.le_refl _

end Script

namespace Sample

def intRow (values : List Int64) : Row := values.map .int

def intRows (rows : List (List Int64)) : List Row := rows.map intRow

def intSchema (table : String) (width : Nat) : Schema :=
  (List.range width).map fun i => .plain table ("c" ++ toString i) .int

/-- A key, a small integer and a short string: 16 bytes a row. -/
def keyedSchema (table : String) : Schema :=
  [.plain table "id" .int, .plain table "ia1" .int, .plain table "sa1" (.string 8)]

/-- Three integers and a letter. -/
def lettersSchema (table : String) : Schema :=
  [.plain table "a" .int, .plain table "b" .int, .plain table "c" .int,
    .plain table "d" (.string 4)]

/-- Six rows of `lettersSchema` with repeated values in all columns but the first. -/
def letters : List Row :=
  let row (a b c : Int64) (d : String) : Row := [.int a, .int b, .int c, .string d]
  [row 1 1 3 "E", row 2 1 3 "G", row 3 1 4 "A", row 4 2 4 "G", row 5 2 5 "G", row 6 2 5 "G"]

end Sample
end PagedQuery
