import PagedQuery.Operator.Aggregate.Tally
import PagedQuery.Cursor.Gather
import PagedQuery.RunFile.Reader
import PagedQuery.RunFile.Save

/-!
# Aggregation

A query of aggregates alone gives one row. With plain columns among them, every row of the child
gives one: its plain columns and the aggregates over the whole input. The child's rows are then
spooled to a file while the aggregates are computed, and read back for the output. Without input
there is no output.
-/

namespace PagedQuery
namespace Aggregate

/-- Refuses columns beyond those of the child. -/
def validateColumns (schema : Schema) : List AggregateColumn → Except Error Unit
  | [] => .ok ()
  | column :: columns =>
    if column.position < schema.length then validateColumns schema columns
    else .error (.aggregateOutOfRange column.position schema)

/-- Checks the columns of an aggregate query. -/
def validate (columns : List AggregateColumn) (schema : Schema) : Except Error Unit :=
  if columns.isEmpty then .error .emptyAggregate else validateColumns schema columns

def outputSchema (columns : List AggregateColumn) (schema : Schema) : Schema :=
  columns.filterMap fun column => (schema[column.position]?).map column.attributeOf

def isPure (columns : List AggregateColumn) : Bool := columns.all (·.isAggregate)

/-- Refuses sums and averages over columns that hold no numbers. -/
def checkTypes (schema : Schema) : List AggregateColumn → Except Error Unit
  | [] => .ok ()
  | .aggregate op position :: columns =>
    if op = .sum ∨ op = .avg then
      match schema[position]? with
      | none => .error .columnVanished
      | some column =>
        if column.type.isNumeric then checkTypes schema columns
        else .error (.notNumeric op column)
    else
      checkTypes schema columns
  | .plain _ :: columns => checkTypes schema columns

/-- Fills the aggregates and the plain columns of an output row. -/
def outputRow (row : Option Row) : List AggregateColumn → List Field → Except Error Row
  | [], _ => .ok []
  | .plain position :: columns, results =>
    match row.bind (·[position]?) with
    | none => .error .missingPlainColumn
    | some field => (outputRow row columns results).map (field :: ·)
  | .aggregate _ _ :: _, [] => .error .missingAggregateValue
  | .aggregate _ _ :: columns, result :: results =>
    (outputRow row columns results).map (result :: ·)

def spoolFile : String := "aggregate-spool"

/-- Begins the spool in a folder of its own, if the output needs the child's rows again. -/
def startSpool (columns : List AggregateColumn) :
    Act (Option Folder) (Option RunFile.Writer) := do
  if isPure columns then pure none
  else
    match (← Act.tempRoot).makeFolder? "aggregate-" with
    | none => Act.fail .io
    | some folder =>
      match RunFile.create? folder spoolFile with
      | none => Act.fail .io
      | some (writer, folder) =>
        set (some folder)
        pure (some writer)

/-- What has been taken in of the child's rows. -/
structure Intake where
  tallies : List Tally
  count : Nat
  /-- The run that the rows are spooled to, if the output needs them again. -/
  spool : Option RunFile.RowWriter

/-- Takes a row into the aggregates, and spools it if there is a spool. -/
def Intake.takeRow (intake : Intake) (row : Row) : Act (Option Folder) Intake := do
  let tallies ← Act.ofExcept (intake.tallies.mapM (Tally.takeRow row))
  match intake.spool with
  | none => pure ⟨tallies, intake.count + 1, none⟩
  | some spool =>
    let spool ← RunFile.inFolder (spool.take .aggregateSpool spoolFile row)
    pure ⟨tallies, intake.count + 1, some spool⟩

/-- Ends the spool and opens it for reading. -/
def finishSpool (capacity : Nat) (spool : RunFile.RowWriter) : Act Folder RunFile.Reader := do
  spool.finish spoolFile
  Act.ofExcept (RunFile.Reader.ofFile (← get) spoolFile capacity)

def tallies (columns : List AggregateColumn) : List Tally :=
  columns.filterMap fun
    | .plain _ => none
    | .aggregate op position => some (.start op position)

structure State (σ : Type) where
  child : σ
  isOpen : Bool
  capacity : Nat
  folder : Option Folder
  spool : Option RunFile.Reader
  /-- Spooled rows not yet on an output page. -/
  pending : List Row
  results : List Field
  inputCount : Nat
  /-- Whether the single row of a query without plain columns has been given. -/
  isEmitted : Bool

variable {σ : Type}

def onChild {α : Type} (x : Act σ α) : Act (State σ) α :=
  Act.within (·.child) (fun s child => { s with child }) x

def onFolder {α : Type} (x : Act (Option Folder) α) : Act (State σ) α :=
  Act.within (·.folder) (fun s folder => { s with folder }) x

/-- Takes all rows of the child in. The number bounds its pages. -/
def takePages (child : Cursor σ) : Nat → Intake → Act (State σ) Intake
  | 0, intake => pure intake
  | steps + 1, intake => do
    match ← onChild child.next with
    | none => pure intake
    | some batch =>
      let intake ← onFolder (batch.rows.foldlM Intake.takeRow intake)
      takePages child steps intake

/-- Reads the child to its end and computes the aggregates. Room for a page of its rows is set aside
also if none are spooled. -/
def consume (columns : List AggregateColumn) (child : Cursor σ) (spoolCapacity : Nat) :
    Act (State σ) Unit := do
  let writer ← onFolder (startSpool columns)
  let page ← Act.ofAnswer (Draft.reserve spoolCapacity)
  let steps := child.volume (← get).child + 1
  let intake ← takePages child steps ⟨tallies columns, 0, writer.map (⟨page, ·⟩)⟩
  match intake.spool with
  | none => pure ()
  | some spool =>
    let reader ← onFolder (RunFile.inFolder (finishSpool spoolCapacity spool))
    modify fun s => { s with spool := some reader }
  modify fun s => { s with results := intake.tallies.map (·.result), inputCount := intake.count }

/-- Drops the results and deletes the spool. -/
def release : Act (State σ) Unit :=
  modify fun s => { s with folder := none, spool := none, pending := [], results := [] }

/-- The next page of the spool. -/
def nextSpooled : Act (State σ) (Option Batch) := do
  let s ← get
  match s.spool with
  | none => pure none
  | some reader =>
    let (answer, reader) := reader.next
    set { s with spool := some reader }
    Act.ofExcept answer

/-- Yields the only row of a query without plain columns. -/
def pureStep (columns : List AggregateColumn) : Act (State σ) Step := do
  let s ← get
  if s.isEmitted then pure .done
  else
    set { s with isEmitted := true }
    let row ← Act.ofExcept (outputRow none columns s.results)
    pure (.row row)

/-- Yields the output row of a spooled row, or fetches a page of the spool. -/
def mixedStep (columns : List AggregateColumn) : Act (State σ) Step := do
  let s ← get
  match s.pending with
  | row :: pending =>
    set { s with pending }
    let row ← Act.ofExcept (outputRow (some row) columns s.results)
    pure (.row row)
  | [] =>
    match ← nextSpooled with
    | none => pure .done
    | some batch =>
      modify fun s => { s with pending := batch.rows }
      pure .skip

/-- Spooled rows still to come, counting a byte of the spool for each. -/
def spooledVolume (s : State σ) : Nat :=
  s.pending.length + s.spool.elim 0 (·.input.length)

/-- Computes the aggregates. If that fails, no spool is left behind. -/
def openUp (pageSize : Nat) (columns : List AggregateColumn) (child : Cursor σ) :
    Act (State σ) Unit := do
  unless (← get).isOpen do
    Act.ofExcept (checkTypes child.schema columns)
    let capacity ← Act.ofAnswer ((outputSchema columns child.schema).pageCapacity pageSize)
    let spoolCapacity ← Act.ofAnswer (child.schema.pageCapacity pageSize)
    modify fun s => { s with capacity }
    onChild child.openUp
    match ← Act.attempt (consume columns child spoolCapacity) with
    | .ok () => modify fun s => { s with isEmitted := false, isOpen := true }
    | .error f =>
      release
      Act.abandon f

def step (columns : List AggregateColumn) : Act (State σ) Step :=
  if isPure columns then pureStep columns else mixedStep columns

def next (columns : List AggregateColumn) : Act (State σ) (Option Batch) := do
  let s ← get
  if !s.isOpen then Act.fail .notOpen
  else if s.inputCount = 0 then pure none
  else
    let empty ← Act.ofAnswer (Draft.reserve s.capacity)
    let page ← gather .aggregateOutput (step columns) (spooledVolume s + 2) empty
    pure page.nonempty?

def remaining (columns : List AggregateColumn) (s : State σ) : Nat :=
  if isPure columns then (if s.isEmitted then 0 else 1) else spooledVolume s

def volume (columns : List AggregateColumn) (s : State σ) : Nat :=
  if s.inputCount = 0 then 0 else 2 * remaining columns s

theorem cost_pureStep (columns : List AggregateColumn) (root : TempRoot) (s : State σ) :
    (pureStep columns).Ensures root s fun answer t =>
      Step.cost answer + (if t.isEmitted then 0 else 1) ≤ (if s.isEmitted then 0 else 1) := by
  rw [pureStep, Act.ensures_get_bind]
  cases hemitted : s.isEmitted with
  | true => simp [Act.ensures_pure, Step.cost, hemitted]
  | false =>
    simp only [Bool.false_eq_true, if_false, Act.ensures_set_bind]
    cases outputRow none columns s.results with
    | ok row => exact Nat.le_refl 1
    | error e => exact Nat.zero_le 1

theorem cost_mixedStep (columns : List AggregateColumn) (root : TempRoot) (s : State σ) :
    (mixedStep columns).Ensures root s fun answer t =>
      Step.cost answer + spooledVolume t ≤ spooledVolume s := by
  rw [mixedStep, Act.ensures_get_bind]
  rcases s with ⟨child, isOpen, capacity, folder, spool, _ | ⟨row, pending⟩, results, count, emitted⟩
  · have hspooled : nextSpooled.Ensures root
        (⟨child, isOpen, capacity, folder, spool, [], results, count, emitted⟩ : State σ)
        fun answer t => t.pending = [] ∧
          pageCost answer + t.spool.elim 0 (·.input.length) ≤ spool.elim 0 (·.input.length) := by
      rw [nextSpooled, Act.ensures_get_bind]
      cases spool with
      | none => simp [Act.ensures_pure, pageCost]
      | some reader =>
        have hcost := reader.pageCost_next
        simp only [Act.ensures_set_bind, Act.ensures_ofExcept, Option.elim]
        rcases hanswer : reader.next.1 with e | _ | batch <;> rw [hanswer] at hcost <;>
          exact ⟨trivial, hcost⟩
    refine hspooled.bind ?_ ?_
    · rintro e t ⟨hpending, hcost⟩
      simpa [Step.cost, pageCost, spooledVolume, hpending] using hcost
    · rintro (_ | batch) t ⟨hpending, hcost⟩
      · simpa [Act.ensures_pure, Step.cost, pageCost, spooledVolume, hpending] using hcost
      · simp only [Act.ensures_modify_bind, Act.ensures_pure, Step.cost, pageCost, spooledVolume,
          Batch.length, List.length_nil] at hcost ⊢
        omega
  · simp only [Act.ensures_set_bind]
    cases outputRow (some row) columns results with
    | ok output =>
      simp only [Act.ofExcept, Act.ensures_pure_bind, Act.ensures_pure, Step.cost, spooledVolume,
        List.length_cons]
      omega
    | error e =>
      simp only [Act.ofExcept, Act.ensures_fail_bind, Step.cost, spooledVolume, List.length_cons]
      omega

theorem cost_step (columns : List AggregateColumn) (root : TempRoot) (s : State σ) :
    (step columns).Ensures root s fun answer t =>
      Step.cost answer + remaining columns t ≤ remaining columns s := by
  unfold step remaining
  split
  · exact cost_pureStep columns root s
  · exact cost_mixedStep columns root s

theorem volume_next (columns : List AggregateColumn) (root : TempRoot) (s : State σ) :
    (next columns).Ensures root s fun answer t =>
      pageCost answer + volume columns t ≤ volume columns s := by
  rw [next, Act.ensures_get_bind]
  split
  · simp [Act.ensures_fail, pageCost]
  · split
    · simp [Act.ensures_pure, pageCost]
    · next hcount =>
      refine (ensures_fill (cost_step columns) _ _ _ root s).mono fun answer t hcost => ?_
      simp only [volume, hcount, if_false]
      split <;> omega

def close (child : Cursor σ) : Act (State σ) Unit := do
  release
  modify fun s => { s with inputCount := 0, isEmitted := false, isOpen := false }
  onChild child.close

def cursor (pageSize : Nat) (columns : List AggregateColumn) (child : Cursor σ) :
    Cursor (State σ) where
  schema := outputSchema columns child.schema
  start := ⟨child.start, false, 0, none, none, [], [], 0, false⟩
  openUp := openUp pageSize columns child
  next := next columns
  close := close child
  volume := volume columns
  folders s := s.folder.toList ++ child.folders s.child
  volume_next := volume_next columns

end Aggregate
end PagedQuery
