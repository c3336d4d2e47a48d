import PagedQuery.Proofs.AggregateFeed
import PagedQuery.Proofs.JoinFeed
import PagedQuery.Proofs.OperatorFeeds

/-!
# Why operators do not open

A feed serves a result if its pages hold the rows of the result, in whatever way they are cut, and if
there are none for a reason that a caller can meet: a size, a key or a type that does not fit, a sum
that overflows, or a working file that cannot be made or written. Every operator whose child has such
a feed has one, and its result is made from that of the child.
-/

namespace PagedQuery

/-- Why an operator over rows of its schema may not open. -/
inductive OpeningFault : Error → Prop
  | zeroRowSize : OpeningFault .zeroRowSize
  | rowExceedsPage {rowSize pageSize : Nat} (h : pageSize < rowSize) :
      OpeningFault (.rowExceedsPage rowSize pageSize)
  | tooFewBuffers {given : Nat} (h : given < minBuffers) : OpeningFault (.tooFewBuffers given)
  | sortKeyOutOfRange {position columns : Nat} (h : columns ≤ position) :
      OpeningFault (.sortKeyOutOfRange position columns)
  | notNumeric {op : AggregateOp} {a : Attribute} (hop : op = .sum ∨ op = .avg)
      (h : a.type.isNumeric = false) : OpeningFault (.notNumeric op a)
  | overflow {e : Error} (h : OverflowFault e) : OpeningFault e
  | encoding {e : Error} (h : RunFile.EncodingFault e) : OpeningFault e
  | io : OpeningFault .io

/-- How an operator over rows of its schema may fail to open. Where widths do not add up to a word it
may also stop short. -/
inductive OpeningFailure (wide : Prop) : Failure → Prop
  | fault {e : Error} (h : OpeningFault e) : OpeningFailure wide (.error e)
  | width (h : wide) : OpeningFailure wide .outOfRange

theorem OpeningFailure.mono {wide wide' : Prop} {f : Failure} (h : OpeningFailure wide f)
    (hwide : wide → wide') : OpeningFailure wide' f := by
  cases h with
  | fault h => exact .fault h
  | width h => exact .width (hwide h)

theorem OpeningFailure.exists_fault {wide : Prop} {f : Failure} (h : OpeningFailure wide f)
    (hwords : ¬wide) : ∃ e, OpeningFault e ∧ f = .error e := by
  cases h with
  | fault h => exact ⟨_, h, rfl⟩
  | width h => exact absurd h hwords

/-- Whether a feed is that of a result: its pages hold the rows, or there are none for an ordinary
reason. -/
def Feed.Serves (wide : Prop) (feed : Feed) (result : Except Error (List Row)) : Prop :=
  match feed with
  | .ok pages => result = .ok (pages.flatMap (·.rows))
  | .error f => OpeningFailure wide f

namespace Feed.Serves

variable {α : Type} {wide wide' : Prop} {below : Feed} {result result' : Except Error (List Row)}

theorem mono (h : below.Serves wide result) (hwide : wide → wide') : below.Serves wide' result := by
  cases below with
  | ok pages => exact h
  | error f => exact OpeningFailure.mono h hwide

theorem of_bind {answer : Except Failure α} {g : α → Feed}
    (hfault : ∀ f, answer = .error f → OpeningFailure wide f)
    (h : ∀ a, answer = .ok a → (g a).Serves wide result) :
    Feed.Serves wide (answer >>= g) result := by
  cases answer with
  | ok a => exact h a rfl
  | error f => exact hfault f rfl

theorem of_ofExcept_bind {answer : Except Error α} {g : α → Feed}
    (hfault : ∀ e, answer = .error e → OpeningFault e)
    (h : ∀ a, answer = .ok a → (g a).Serves wide result) :
    Feed.Serves wide (Failure.ofExcept answer >>= g) result := by
  cases answer with
  | ok a => exact h a rfl
  | error e => exact .fault (hfault e rfl)

theorem bind {g : List Batch → Feed} {k : List Row → Except Error (List Row)}
    (h : below.Serves wide result)
    (hg : ∀ pages, below = .ok pages → (g pages).Serves wide (k (pages.flatMap (·.rows)))) :
    Feed.Serves wide (below >>= g) (result >>= k) := by
  cases below with
  | ok pages =>
    have hresult : result = .ok (pages.flatMap (·.rows)) := h
    rw [hresult]
    exact hg pages rfl
  | error f => exact h

theorem pages {capacity : Nat} (hc : 0 < capacity) (rows : List Row) :
    Feed.Serves wide (pure (Batch.pages capacity rows)) (pure rows) :=
  congrArg Except.ok (Batch.flatMap_rows_pages hc rows).symm

end Feed.Serves

theorem OpeningFault.of_capacityFor {pageSize rowSize : Nat} {e : Error}
    (h : Batch.capacityFor pageSize rowSize = .error e) : OpeningFault e := by
  unfold Batch.capacityFor at h
  split at h
  · obtain rfl := Except.error.inj h
    exact .zeroRowSize
  · next hpos =>
    split at h
    · next hzero =>
      obtain rfl := Except.error.inj h
      exact .rowExceedsPage ((Nat.div_eq_zero_iff_lt (Nat.pos_of_ne_zero hpos)).mp hzero)
    · cases h

theorem OpeningFailure.of_pageCapacity {wide : Prop} {schema : Schema} {pageSize : Nat}
    (hwide : ¬schema.rowSize ≤ maxWord → wide) (f : Failure)
    (h : schema.pageCapacity pageSize = .error f) : OpeningFailure wide f := by
  rw [Schema.pageCapacity] at h
  cases hcapacity : Batch.capacityFor pageSize schema.rowSize with
  | ok capacity =>
    rw [hcapacity] at h
    cases h
  | error e =>
    rw [hcapacity] at h
    dsimp only at h
    split at h
    · obtain rfl := Except.error.inj h
      exact .fault (.of_capacityFor hcapacity)
    · next hword =>
      obtain rfl := Except.error.inj h
      exact .width (hwide hword)

theorem OpeningFault.of_validateBuffers {numBuffers : Nat} {e : Error}
    (h : validateBuffers numBuffers = .error e) : OpeningFault e := by
  unfold validateBuffers at h
  split at h
  · next hfew =>
    obtain rfl := Except.error.inj h
    exact .tooFewBuffers hfew
  · cases h

theorem OpeningFault.of_validateKey {key : List Nat} {schema : Schema} {e : Error}
    (h : MergeSort.validateKey key schema = .error e) : OpeningFault e := by
  unfold MergeSort.validateKey at h
  split at h
  · next position hfind =>
    obtain rfl := Except.error.inj h
    exact .sortKeyOutOfRange (by simpa using List.find?_some hfind)
  · cases h

/-- A check of the types finds fault with a sum or an average only, if the columns exist. -/
theorem OpeningFault.of_checkTypes {schema : Schema} {columns : List AggregateColumn} {e : Error}
    (hwithin : ∀ column ∈ columns, column.position < schema.length)
    (h : Aggregate.checkTypes schema columns = .error e) : OpeningFault e := by
  induction columns with
  | nil => cases h
  | cons column columns ih =>
    rw [List.forall_mem_cons] at hwithin
    cases column with
    | plain position => exact ih hwithin.2 h
    | aggregate op position =>
      unfold Aggregate.checkTypes at h
      split at h
      · next hop =>
        obtain ⟨a, ha⟩ : ∃ a, schema[position]? = some a := ⟨_, List.getElem?_eq_getElem hwithin.1⟩
        rw [ha] at h
        dsimp only at h
        split at h
        · exact ih hwithin.2 h
        · next hnumeric =>
          obtain rfl := Except.error.inj h
          exact .notNumeric hop (Bool.eq_false_iff.mpr hnumeric)
      · exact ih hwithin.2 h

section Feeds

variable {wide : Prop}

theorem RowSource.serves_feed (pageSize : Nat) (schema : Schema) (rows : List Row)
    (hwide : ¬schema.rowSize ≤ maxWord → wide) :
    (feed pageSize schema rows).Serves wide (pure rows) :=
  .of_bind (.of_pageCapacity hwide) fun _ hcapacity =>
    .pages (Schema.of_pageCapacity hcapacity).2 rows

def Project.result (fields : List Nat) (below : Except Error (List Row)) :
    Except Error (List Row) := do
  let rows ← below
  pure (rows.map (Row.keyOf fields))

theorem Project.serves_feed {below : Feed} {rows : Except Error (List Row)} (pageSize : Nat)
    (fields : List Nat) (schema : Schema) (h : below.Serves wide rows)
    (hwide : ¬(outputSchema fields schema).rowSize ≤ maxWord → wide) :
    (feed pageSize fields schema below).Serves wide (result fields rows) :=
  .of_bind (.of_pageCapacity hwide) fun _ hcapacity =>
    h.bind fun _ _ => .pages (Schema.of_pageCapacity hcapacity).2 _

/-- Whether there is memory for the pages of a sort's block and for the rows of its page. -/
structure SortSpec.FitsBlock (spec : SortSpec) (schema : Schema) : Prop where
  block : fitsMemory spec.numBuffers Block.pageRoom = true
  page : fitsMemory (spec.pageSize / schema.rowSize) Batch.rowRoom = true

namespace MergeSort

variable {below : Feed} {rows : Except Error (List Row)} {spec : SortSpec} {schema : Schema}
  {root : TempRoot} {capacity : Nat}

def result (key : List Nat) (descending : Bool) (schema : Schema) (below : Except Error (List Row)) :
    Except Error (List Row) := do
  validateKey key schema
  let rows ← below
  pure (Row.sortBy key descending rows)

/-- A sort with room to sort in fails at a file only, or at rows that cannot be written. -/
theorem openingFault_of_ending {all : List Row} {f : Failure} (hroom : spec.HasRoom capacity)
    (hkey : ∀ row ∈ all, Row.HasKey spec.key row) (h : ending spec capacity root all = .error f) :
    ∃ e, OpeningFault e ∧ f = .error e := by
  unfold ending at h
  split at h
  · exact ⟨.io, .io, (Except.error.inj h).symm⟩
  · next folder hfolder =>
    cases hanswer : ((RunSet.sortRows spec capacity all).run root (RunSet.fresh folder)).answer with
    | ok reader =>
      rw [hanswer] at h
      cases h
    | error f' =>
      rw [hanswer] at h
      obtain rfl : f' = f := Except.error.inj h
      have hempty := TempRoot.files_of_makeFolder? hfolder
      have hfault := (RunSet.attains_sortRows root hroom hempty all).of_fails hanswer
      cases hfault with
      | name => exact ⟨.io, .io, rfl⟩
      | encoding _ _ hencode => exact ⟨_, .encoding (.of_encode hencode), rfl⟩
      | shortRow hrow hshort => exact absurd (hkey _ hrow) hshort

theorem serves_feed (spec : SortSpec) (root : TempRoot) (h : below.Serves wide rows)
    (hrows : ∀ pages, below = .ok pages → ∀ row ∈ pages.flatMap (·.rows), row.Conforms schema)
    (hmemory : spec.FitsBlock schema) (hwide : ¬schema.rowSize ≤ maxWord → wide) :
    (feed spec schema root below).Serves wide (result spec.key spec.descending schema rows) := by
  refine .of_ofExcept_bind (fun _ => .of_validateBuffers) fun _ hbuffers => ?_
  refine .of_bind (.of_pageCapacity hwide) fun capacity hcapacity => ?_
  refine .of_ofExcept_bind (fun _ => .of_validateKey) fun _ hkey => ?_
  obtain ⟨rfl, hc⟩ := Schema.of_pageCapacity hcapacity
  have hroom : spec.HasRoom (spec.pageSize / schema.rowSize) :=
    ⟨le_of_validateBuffers hbuffers, hc, hmemory.block, hmemory.page⟩
  rw [result, hkey]
  refine h.bind fun pages hpages => ?_
  have hkeys : ∀ row ∈ pages.flatMap (·.rows), Row.HasKey spec.key row := fun row hrow =>
    (hrows pages hpages row hrow).hasKey (lt_of_validateKey hkey)
  cases hending : ending spec (spec.pageSize / schema.rowSize) root (pages.flatMap (·.rows)) with
  | error f =>
    obtain ⟨e, he, rfl⟩ := openingFault_of_ending hroom hkeys hending
    exact .fault he
  | ok => exact .pages hc _

end MergeSort

def Distinct.result (sort : Except Error (List Row)) : Except Error (List Row) := do
  let rows ← sort
  pure (keepChanges none rows)

theorem Distinct.serves_feed {below : Feed} {rows : Except Error (List Row)} (pageSize : Nat)
    (schema : Schema) (h : below.Serves wide rows) (hwide : ¬schema.rowSize ≤ maxWord → wide) :
    (feed pageSize schema below).Serves wide (result rows) :=
  .of_bind (.of_pageCapacity hwide) fun _ hcapacity =>
    h.bind fun _ _ => .pages (Schema.of_pageCapacity hcapacity).2 _

def Join.result (keys : Keys) (left right : Except Error (List Row)) : Except Error (List Row) := do
  let leftRows ← left
  let rightRows ← right
  pure (mergeRows keys leftRows rightRows)

theorem Join.serves_feed {below beside : Feed} {left right : Except Error (List Row)}
    (pageSize numBuffers : Nat) (keys : Keys) (schema : Schema) (hleft : below.Serves wide left)
    (hright : beside.Serves wide right) (hwide : ¬schema.rowSize ≤ maxWord → wide) :
    (feed pageSize numBuffers keys schema below beside).Serves wide (result keys left right) :=
  .of_ofExcept_bind (fun _ => .of_validateBuffers) fun _ _ =>
    .of_bind (.of_pageCapacity hwide) fun _ hcapacity =>
      hleft.bind fun _ _ => hright.bind fun _ _ => .pages (Schema.of_pageCapacity hcapacity).2 _

namespace Aggregate

variable {below : Feed} {rows : Except Error (List Row)} {columns : List AggregateColumn}
  {schema : Schema} {root : TempRoot} {capacity : Nat}

def result (columns : List AggregateColumn) (schema : Schema) (below : Except Error (List Row)) :
    Except Error (List Row) := do
  checkTypes schema columns
  let rows ← below
  let ts ← tally columns rows
  pure (outputRows columns ts rows)

theorem IntakeFault.openingFault {all : List Row} {f : Failure}
    (h : IntakeFault columns capacity root all f)
    (hcolumns : ∀ column ∈ columns, IsColumnOf schema column)
    (hrows : ∀ row ∈ all, row.Conforms schema)
    (hmemory : fitsMemory capacity Batch.rowRoom = true) : ∃ e, OpeningFault e ∧ f = .error e := by
  cases h with
  | folder => exact ⟨.io, .io, rfl⟩
  | memory hnone => exact absurd hmemory hnone
  | untallied _ h => exact ⟨_, .overflow (overflowFault_of_tally hcolumns hrows h), rfl⟩
  | unwritten _ _ h => exact ⟨_, .encoding (.of_encode h), rfl⟩

theorem serves_feed (pageSize : Nat) (root : TempRoot) (h : below.Serves wide rows)
    (hwithin : ∀ column ∈ columns, column.position < schema.length)
    (hrows : ∀ pages, below = .ok pages → ∀ row ∈ pages.flatMap (·.rows), row.Conforms schema)
    (hmemory : fitsMemory (pageSize / schema.rowSize) Batch.rowRoom = true)
    (houtput : ¬(outputSchema columns schema).rowSize ≤ maxWord → wide)
    (hinput : ¬schema.rowSize ≤ maxWord → wide) :
    (feed pageSize columns schema root below).Serves wide (result columns schema rows) := by
  refine .of_ofExcept_bind (fun _ => .of_checkTypes hwithin) fun _ htypes => ?_
  refine .of_bind (.of_pageCapacity houtput) fun capacity hcapacity => ?_
  refine .of_bind (.of_pageCapacity hinput) fun spoolCapacity hspool => ?_
  obtain ⟨rfl, hc⟩ := Schema.of_pageCapacity hspool
  rw [result, htypes]
  refine h.bind fun pages hpages => ?_
  have hending := ending_spec columns hc root (pages.flatMap (·.rows))
  cases hspooled : ending columns (pageSize / schema.rowSize) root (pages.flatMap (·.rows)) with
  | error f =>
    rw [hspooled] at hending
    obtain ⟨e, he, rfl⟩ := hending.openingFault (isColumnOf_of_checkTypes hwithin htypes)
      (hrows pages hpages) hmemory
    exact .fault he
  | ok ts =>
    rw [hspooled] at hending
    simp only [hending.tallies]
    exact .pages (Schema.of_pageCapacity hcapacity).2 _

end Aggregate

end Feeds

end PagedQuery
