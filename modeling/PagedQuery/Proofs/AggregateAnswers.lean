import PagedQuery.Proofs.ColumnFolds
import PagedQuery.Proofs.PlanAnswers

/-!
# What an aggregation answers

An aggregation answers with the values of its aggregates over the whole input, by themselves or
beside the plain columns of every row. With room for all it sets aside and writes, it fails to open
only if the running sum of a column of integers overflows.
-/

namespace PagedQuery
namespace Aggregate

variable {σ : Type} {schema : Schema} {columns : List AggregateColumn} {rows output : List Row}
  {row : Row} {ts : List Tally} {root : TempRoot} {capacity : Nat}

/-- Whether this is what a column shows for a row: the field of the row in a plain column, the value
over all rows in an aggregate. -/
inductive IsEntry (rows : List Row) (row : Row) : AggregateColumn → Field → Prop
  | plain {position : Nat} {f : Field} (h : row[position]? = some f) :
      IsEntry rows row (.plain position) f
  | aggregate {op : AggregateOp} {position : Nat} {value : Field}
      (h : IsAggregate op (valuesAt position rows) value) :
      IsEntry rows row (.aggregate op position) value

/-- Whether these are the output rows of some rows: none without any, one without plain columns, and
else one for each of them in their order. -/
structure IsAnswer (columns : List AggregateColumn) (rows output : List Row) : Prop where
  empty : rows = [] → output = []
  pure : rows ≠ [] → isPure columns = true →
    ∃ out, output = [out] ∧ List.Forall₂ (IsEntry rows []) columns out
  mixed : rows ≠ [] → isPure columns = false →
    List.Forall₂ (fun row out => List.Forall₂ (IsEntry rows row) columns out) rows output

theorem IsEntry.unique {column : AggregateColumn} {f g : Field} (h : IsEntry rows row column f)
    (h' : IsEntry rows row column g) : f = g := by
  cases h with
  | plain h =>
    cases h' with
    | plain h' => exact Option.some.inj (h.symm.trans h')
  | aggregate h =>
    cases h' with
    | aggregate h' => exact h.unique h'

theorem IsAnswer.unique {other : List Row} (h : IsAnswer columns rows output)
    (h' : IsAnswer columns rows other) : output = other := by
  have hentry (row : Row) : Relator.RightUnique (IsEntry rows row) := fun _ _ _ => IsEntry.unique
  have hrow : Relator.RightUnique fun row out => List.Forall₂ (IsEntry rows row) columns out :=
    fun row _ _ h h' => (hentry row).forall₂ h h'
  by_cases hempty : rows = []
  · rw [h.empty hempty, h'.empty hempty]
  · cases hpure : isPure columns with
    | true =>
      obtain ⟨out, rfl, hout⟩ := h.pure hempty hpure
      obtain ⟨out', rfl, hout'⟩ := h'.pure hempty hpure
      rw [hrow hout hout']
    | false => exact hrow.forall₂ (h.mixed hempty hpure) (h'.mixed hempty hpure)

theorem forall₂_isEntry_rowOf (hplain : ∀ position, .plain position ∈ columns → position < row.length)
    (hlabels : ts.map Tally.label = columns.filterMap label?)
    (hts : ∀ t ∈ ts, t.Holds (valuesAt t.position rows)) :
    List.Forall₂ (IsEntry rows row) columns (rowOf row columns (ts.map (·.result))) := by
  induction columns generalizing ts with
  | nil => exact .nil
  | cons column columns ih =>
    have hplain' : ∀ position, .plain position ∈ columns → position < row.length :=
      fun position hposition => hplain position (List.mem_cons_of_mem column hposition)
    cases column with
    | plain position =>
      have hposition := hplain position List.mem_cons_self
      have hfield : row[position]? = some row[position] := List.getElem?_eq_getElem hposition
      rw [rowOf, hfield]
      exact .cons (.plain hfield) (ih hplain' hlabels hts)
    | aggregate op position =>
      obtain ⟨t, ts, rfl, hlabel, hlabels'⟩ := List.map_eq_cons_iff.mp hlabels
      obtain ⟨rfl, rfl⟩ := Prod.mk.inj hlabel
      obtain ⟨ht, hts'⟩ := List.forall_mem_cons.mp hts
      exact .cons (.aggregate ht.isAggregate) (ih hplain' hlabels' hts')

theorem isAnswer_outputRows (hcolumns : ∀ column ∈ columns, IsColumnOf schema column)
    (hrows : ∀ row ∈ rows, row.Conforms schema) (h : tally columns rows = .ok ts) :
    IsAnswer columns rows (outputRows columns ts rows) := by
  have hlabels := map_label_of_tally h
  have hholds := tally_spec hcolumns hrows
  rw [h] at hholds
  unfold outputRows
  refine ⟨fun hempty => if_pos hempty, fun hne hpure => ?_, fun hne hmixed => ?_⟩
  · rw [if_neg hne, if_pos hpure]
    refine ⟨_, rfl, forall₂_isEntry_rowOf (fun position hposition => ?_) hlabels hholds⟩
    cases List.all_eq_true.mp hpure _ hposition
  · rw [if_neg hne, if_neg (by simp [hmixed]), List.forall₂_map_right_iff, List.forall₂_same]
    intro row hrow
    exact forall₂_isEntry_rowOf (reaches_of_conforms hcolumns hrows row hrow) hlabels hholds

theorem checkTypes_of_isColumnOf (h : ∀ column ∈ columns, IsColumnOf schema column) :
    checkTypes schema columns = .ok () := by
  induction columns with
  | nil => rfl
  | cons column columns ih =>
    rw [List.forall_mem_cons] at h
    cases column with
    | plain position => exact ih h.2
    | aggregate op position =>
      obtain ⟨a, ha, hnumeric⟩ := h.1
      unfold checkTypes
      split
      · next hop =>
        rw [ha]
        dsimp only
        rw [if_pos (hnumeric hop)]
        exact ih h.2
      · exact ih h.2

/-- Whether an aggregation has room: memory for its pages and, if it spools its rows, a file that can
hold them. -/
structure HasRoom (pageSize : Nat) (columns : List AggregateColumn) (schema : Schema)
    (root : TempRoot) (rows : List Row) : Prop where
  output : fitsMemory (pageSize / (outputSchema columns schema).rowSize) Batch.rowRoom = true
  spool : fitsMemory (pageSize / schema.rowSize) Batch.rowRoom = true
  folder : isPure columns = false → (root.makeFolder? "aggregate-").isSome = true
  short : isPure columns = false → ∀ row ∈ rows, row.HasShortStrings
  count : isPure columns = false → min (pageSize / schema.rowSize) rows.length < 0x100000000

/-- With room for all it needs, taking rows in ends as tallying them does. -/
theorem ending_eq {pageSize : Nat} (hc : 0 < pageSize / schema.rowSize)
    (hnarrow : isPure columns = false → ∀ row ∈ rows, row.length ≤ 0xffff)
    (hroom : HasRoom pageSize columns schema root rows) :
    ending columns (pageSize / schema.rowSize) root rows = Failure.ofExcept (tally columns rows) := by
  have hspec := ending_spec columns hc root rows
  cases hending : ending columns (pageSize / schema.rowSize) root rows with
  | ok ts =>
    rw [hending] at hspec
    rw [hspec.tallies]
    rfl
  | error f =>
    rw [hending] at hspec
    cases hspec with
    | folder hmixed hnone => simpa [hnone] using hroom.folder hmixed
    | memory hmemory => exact absurd hroom.spool hmemory
    | untallied _ h =>
      rw [h]
      rfl
    | @unwritten base e hmixed _ h =>
      obtain ⟨content, hcontent⟩ := RunFile.exists_encode_pages hc (hroom.count hmixed)
        (fun row hrow => ⟨hnarrow hmixed row hrow, hroom.short hmixed row hrow⟩)
        (base.path spoolFile)
      cases h.symm.trans hcontent

/-- Rows that do not fill a page are not taken in if they cannot be written. -/
theorem exists_ending_eq_error {folder : Folder} {e : Error} (hmixed : isPure columns = false)
    (hfolder : root.makeFolder? "aggregate-" = some folder) (hrows : rows ≠ [])
    (hshort : rows.length < capacity)
    (hencode : RunFile.encodeBatch (folder.path spoolFile) ⟨capacity, rows⟩ = .error e) :
    ∃ f, ending columns capacity root rows = .error f := by
  have hc : 0 < capacity := Nat.zero_lt_of_lt hshort
  have hspec := ending_spec columns hc root rows
  cases hending : ending columns capacity root rows with
  | error f => exact ⟨f, rfl⟩
  | ok ts =>
    rw [hending] at hspec
    obtain ⟨base, content, hbase, hcontent⟩ := hspec.spooled hmixed
    obtain rfl : folder = base := Option.some.inj (hfolder.symm.trans hbase)
    rw [Batch.pages, chunks_of_length_le hc hrows (Nat.le_of_lt hshort), List.map_singleton,
      RunFile.encode, List.mapM_cons, hencode] at hcontent
    cases hcontent

/-- Whether an aggregation is over a child that opens and gives these pages, with rows of its schema.
The pages of the aggregation have room for a row of the input and one of the output, and what is
summed or averaged is a column of numbers. -/
structure IsQueryOver (pageSize : Nat) (columns : List AggregateColumn) (child : Cursor σ)
    (root : TempRoot) (pages : List Batch) : Prop where
  valid : validate columns child.schema = .ok ()
  numeric : ∀ op position a, .aggregate op position ∈ columns → op = .sum ∨ op = .avg →
    child.schema[position]? = some a → a.type.isNumeric = true
  inputPage : 1 ≤ pageSize / child.schema.rowSize
  outputPage : 1 ≤ pageSize / (outputSchema columns child.schema).rowSize
  gives : ∃ c, child.openUp.Gives root child.start () c ∧ child.GivesOut root c pages
  conforms : ∀ row ∈ pages.flatMap (·.rows), row.Conforms child.schema
  narrow : isPure columns = false → ∀ row ∈ pages.flatMap (·.rows), row.length ≤ 0xffff

section Opening

variable {pageSize : Nat} {child : Cursor σ} {pages : List Batch}

theorem isColumnOf_of_validate (hvalid : validate columns schema = .ok ())
    (hnumeric : ∀ op position a, .aggregate op position ∈ columns → op = .sum ∨ op = .avg →
      schema[position]? = some a → a.type.isNumeric = true) :
    ∀ column ∈ columns, IsColumnOf schema column := by
  intro column hcolumn
  have hwithin := lt_of_validate hvalid column hcolumn
  cases column with
  | plain position => exact hwithin
  | aggregate op position =>
    have ha : schema[position]? = some schema[position] := List.getElem?_eq_getElem hwithin
    exact ⟨_, ha, fun hop => hnumeric op position _ hcolumn hop ha⟩

/-- Over a child that opens, a closed aggregation opens as taking in the rows of the child ends. -/
theorem opens_of_givesOut {s : State σ} (hcolumns : ∀ column ∈ columns, IsColumnOf child.schema column)
    (hinput : 1 ≤ pageSize / child.schema.rowSize)
    (houtput : 1 ≤ pageSize / (outputSchema columns child.schema).rowSize)
    (hclosed : s.isOpen = false)
    (hgives : ∃ c, child.openUp.Gives root s.child () c ∧ child.GivesOut root c pages)
    (hmixed : isPure columns = false → s.pending = [] ∧
      ∀ row ∈ pages.flatMap (·.rows), ∀ position, .plain position ∈ columns →
        position < row.length) :
    let capacity := pageSize / (outputSchema columns child.schema).rowSize
    (cursor pageSize columns child).openUp.Opens root s
      (do
        let ts ← ending columns (pageSize / child.schema.rowSize) root (pages.flatMap (·.rows))
        pure (Batch.pages capacity (outputRows columns ts (pages.flatMap (·.rows)))))
      (FillsPages (Brings (Standing.any σ) columns capacity) capacity)
      fun t => t.isOpen = false ∧ t.pending = [] ∧ (Standing.any σ).Possible t.child := by
  intro capacity
  obtain ⟨c, hopen, hgiven⟩ := hgives
  apply Act.opens_get_bind.mpr
  rw [if_neg (by simp [hclosed])]
  refine (Act.gives_ofExcept (checkTypes_of_isColumnOf hcolumns)).bind_opens ?_
  refine (Act.gives_ofAnswer (Schema.pageCapacity_of_le houtput)).bind_opens ?_
  refine (Act.gives_ofAnswer (Schema.pageCapacity_of_le hinput)).bind_opens ?_
  let sized : State σ := { s with capacity }
  let begun : State σ := { sized with child := c }
  refine (Act.gives_modify _).bind_opens (Act.Gives.bind_opens (t := begun) (gives_onChild hopen) ?_)
  exact opens_serveInput (s := begun) (fun _ _ => Standing.possible_any _) (Standing.possible_any _)
    hgiven hclosed houtput hinput hmixed

theorem IsQueryOver.isColumnOf (h : IsQueryOver pageSize columns child root pages) :
    ∀ column ∈ columns, IsColumnOf child.schema column :=
  isColumnOf_of_validate h.valid h.numeric

theorem IsQueryOver.opens (h : IsQueryOver pageSize columns child root pages) :
    let capacity := pageSize / (outputSchema columns child.schema).rowSize
    (cursor pageSize columns child).openUp.Opens root (cursor pageSize columns child).start
      (do
        let ts ← ending columns (pageSize / child.schema.rowSize) root (pages.flatMap (·.rows))
        pure (Batch.pages capacity (outputRows columns ts (pages.flatMap (·.rows)))))
      (FillsPages (Brings (Standing.any σ) columns capacity) capacity)
      fun t => t.isOpen = false ∧ t.pending = [] ∧ (Standing.any σ).Possible t.child :=
  opens_of_givesOut h.isColumnOf h.inputPage h.outputPage rfl h.gives fun _ =>
    ⟨rfl, reaches_of_conforms h.isColumnOf h.conforms⟩

theorem IsQueryOver.fails {f : Failure} (h : IsQueryOver pageSize columns child root pages)
    (hending : ending columns (pageSize / child.schema.rowSize) root (pages.flatMap (·.rows)) =
      .error f) :
    (cursor pageSize columns child).openUp.Fails root (cursor pageSize columns child).start f := by
  have hopens := h.opens
  rw [hending] at hopens
  exact Act.FailsIn.fails hopens

end Opening

/-- An aggregation with room opens unless the sum of a column of integers overflows. What is read from
it is then its answer, on full pages. -/
theorem answers_reference_folds (pageSize : Nat) (columns : List AggregateColumn) (child : Cursor σ)
    (root : TempRoot) (pages : List Batch) (hquery : IsQueryOver pageSize columns child root pages)
    (hroom : HasRoom pageSize columns child.schema root (pages.flatMap (·.rows))) :
    (Overflows child.schema columns (pages.flatMap (·.rows)) →
      ∃ e, (cursor pageSize columns child).openUp.Fails root (cursor pageSize columns child).start
        (.error e) ∧ e.kind = .execution) ∧
    (¬Overflows child.schema columns (pages.flatMap (·.rows)) →
      ∃ s t output, (cursor pageSize columns child).openUp.Gives root
          (cursor pageSize columns child).start () s ∧
        (cursor pageSize columns child).drain.Gives root s
          (Batch.pages (pageSize / (cursor pageSize columns child).schema.rowSize) output, none) t ∧
        IsAnswer columns (pages.flatMap (·.rows)) output) := by
  have hcolumns := hquery.isColumnOf
  have hending := ending_eq hquery.inputPage hquery.narrow hroom
  have hspec := tally_spec hcolumns hquery.conforms
  cases htally : tally columns (pages.flatMap (·.rows)) with
  | error e =>
    rw [htally] at hending hspec
    have hkind : e.kind = .execution := by
      cases overflowFault_of_tally hcolumns hquery.conforms htally with
      | intro => rfl
    exact ⟨fun _ => ⟨e, hquery.fails hending, hkind⟩, fun hno => absurd hspec hno⟩
  | ok ts =>
    have hopens := hquery.opens
    rw [hending, htally] at hopens
    obtain ⟨s, hs, hopened⟩ := hopens
    have hfills := fills pageSize columns child root (Standing.any σ) hroom.output
    obtain ⟨t, u, hyields, hend⟩ := (hfills.supplies hs).exists_yields
    refine ⟨fun hover => ?_, fun _ => ?_⟩
    · exact absurd hover (not_overflows_of_tally hcolumns hquery.conforms htally)
    · exact ⟨s, u, _, hopened, hyields.drain hend,
        isAnswer_outputRows hcolumns hquery.conforms htally⟩

def givingChild (schema : Schema) (pages : List Batch) : Cursor Script :=
  Script.cursor "c" schema ⟨[], pages.map fun page => .ok (some page), []⟩

theorem givesOut_givingChild (schema : Schema) (pages : List Batch) (root : TempRoot) :
    ∃ c, (givingChild schema pages).openUp.Gives root (givingChild schema pages).start () c ∧
      (givingChild schema pages).GivesOut root c pages := by
  refine ⟨_, ⟨rfl, rfl⟩, ?_⟩
  suffices hall : ∀ rest : List Batch, (givingChild schema pages).GivesOut root
      ⟨[], rest.map fun page => .ok (some page), []⟩ rest from hall pages
  intro rest
  induction rest with
  | nil => exact .ended ⟨rfl, rfl⟩
  | cons page rest ih => exact .page ⟨rfl, rfl⟩ ih

def gappedPages : List Batch :=
  [⟨2, [[.int 1, .int 30], [.int 2, .null]]⟩, ⟨2, []⟩, ⟨4, [[.int 3, .int 10], [.int 4, .int 10]]⟩]

/-- Pages of integers with a sum in range that is out of range at the second of them. -/
def peakedPages : List Batch := [⟨2, [[.int 0x7fffffffffffffff], [.int 1]]⟩, ⟨2, [[.int (-5)]]⟩]

theorem numeric_intSchema {width position : Nat} {a : Attribute}
    (h : (Sample.intSchema "t" width)[position]? = some a) : a.type.isNumeric = true := by
  obtain ⟨i, -, rfl⟩ := List.mem_map.mp (List.mem_of_getElem? h)
  rfl

/-- The least value, the sum and the number of the values in the second column, beside the first. -/
def summary : List AggregateColumn :=
  [.plain 0, .aggregate .min 1, .aggregate .sum 1, .aggregate .count 1]

/-- The aggregates of all rows stand in each output row, in the order of the input. A sum that
overflows on the way to its end keeps a query from opening. -/
theorem answers_reference_folds_gappedPages :
    let gapped := cursor 24 summary (givingChild (Sample.intSchema "t" 2) gappedPages)
    let peaked := cursor 4 [.aggregate .sum 0] (givingChild (Sample.intSchema "t" 1) peakedPages)
    (∃ s t, gapped.openUp.Gives ⟨true⟩ gapped.start () s ∧
      gapped.drain.Gives ⟨true⟩ s
        (Batch.pages 1 [[.int 1, .int 10, .int 50, .int 3], [.int 2, .int 10, .int 50, .int 3],
          [.int 3, .int 10, .int 50, .int 3], [.int 4, .int 10, .int 50, .int 3]], none) t) ∧
      ∃ e, peaked.openUp.Fails ⟨true⟩ peaked.start (.error e) ∧ e.kind = .execution := by
  intro gapped peaked
  have hgapped : IsQueryOver 24 summary (givingChild (Sample.intSchema "t" 2) gappedPages) ⟨true⟩
      gappedPages :=
    ⟨rfl, fun _ _ _ _ _ => numeric_intSchema, by decide, by decide, givesOut_givingChild _ _ _,
      by decide, by decide⟩
  have hpeaked : IsQueryOver 4 [.aggregate .sum 0] (givingChild (Sample.intSchema "t" 1) peakedPages)
      ⟨true⟩ peakedPages :=
    ⟨rfl, fun _ _ _ _ _ => numeric_intSchema, by decide, by decide, givesOut_givingChild _ _ _,
      by decide, by decide⟩
  constructor
  · obtain ⟨s, t, output, hopen, hdrain, hanswer⟩ := (answers_reference_folds 24 summary _ ⟨true⟩ _
      hgapped ⟨by decide, by decide, by decide, by decide, by decide⟩).2
      (not_overflows_of_tally hgapped.isColumnOf hgapped.conforms rfl)
    have hmin : IsAggregate .min (valuesAt 1 (gappedPages.flatMap (·.rows))) (.int 10) := by
      have hearliest : IsEarliest .lt ([.int 30] ++ .int 10 :: [.int 10]) (some (.int 10)) :=
        .some (by decide) (by decide)
      exact .min hearliest
    have hsum : IsAggregate .sum (valuesAt 1 (gappedPages.flatMap (·.rows))) (.int 50) := by
      have hints : IsSum [.int 30, .int 10, .int 10] (some (.int 50)) :=
        .ints (List.cons_ne_nil _ _) (by simp) (by decide)
      exact .sum hints
    have hcount : IsAggregate .count (valuesAt 1 (gappedPages.flatMap (·.rows))) (.int 3) := .count _
    have hrow {row : Row} {f : Field} (hf : row[0]? = some f) :
        List.Forall₂ (IsEntry (gappedPages.flatMap (·.rows)) row) summary
          [f, .int 10, .int 50, .int 3] :=
      .cons (.plain hf) (.cons (.aggregate hmin) (.cons (.aggregate hsum)
        (.cons (.aggregate hcount) .nil)))
    have hrows : IsAnswer summary (gappedPages.flatMap (·.rows))
        [[.int 1, .int 10, .int 50, .int 3], [.int 2, .int 10, .int 50, .int 3],
          [.int 3, .int 10, .int 50, .int 3], [.int 4, .int 10, .int 50, .int 3]] :=
      ⟨fun h => (by cases h), fun _ h => (by cases h), fun _ _ =>
        .cons (hrow rfl) (.cons (hrow rfl) (.cons (hrow rfl) (.cons (hrow rfl) .nil)))⟩
    obtain rfl := hanswer.unique hrows
    exact ⟨s, t, hopen, hdrain⟩
  · exact (answers_reference_folds 4 [.aggregate .sum 0] _ ⟨true⟩ _ hpeaked
      ⟨by decide, by decide, by decide, by decide, by decide⟩).1
      ⟨0, _, 2, List.mem_cons_self, rfl, rfl, by decide⟩

/-- Whether a query over a child with these pages does not open, though no sum overflows. -/
def FailsUnprovoked (pageSize : Nat) (columns : List AggregateColumn) (schema : Schema)
    (root : TempRoot) (pages : List Batch) : Prop :=
  IsQueryOver pageSize columns (givingChild schema pages) root pages ∧
    ¬Overflows schema columns (pages.flatMap (·.rows)) ∧
    ∃ f, (cursor pageSize columns (givingChild schema pages)).openUp.Fails root
      (cursor pageSize columns (givingChild schema pages)).start f

def counting (isBeside : Bool) : List AggregateColumn :=
  if isBeside then [.plain 0, .aggregate .count 0] else [.aggregate .count 0]

theorem not_mem_counting {isBeside : Bool} {op : AggregateOp} (hop : op ≠ .count) (position : Nat) :
    .aggregate op position ∉ counting isBeside := by
  cases isBeside <;> simp [counting, hop]

theorem failsUnprovoked_counting {pageSize : Nat} {isBeside : Bool} {page : Batch} {f : Failure}
    (hvalid : validate (counting isBeside) schema = .ok ())
    (hinput : 1 ≤ pageSize / schema.rowSize)
    (houtput : 1 ≤ pageSize / (outputSchema (counting isBeside) schema).rowSize)
    (hwidth : schema.length ≤ 0xffff) (hrows : ∀ row ∈ page.rows, row.Conforms schema)
    (hending : ending (counting isBeside) (pageSize / schema.rowSize) root page.rows = .error f) :
    FailsUnprovoked pageSize (counting isBeside) schema root [page] := by
  have hpage : [page].flatMap (·.rows) = page.rows := List.flatMap_singleton _ page
  rw [← hpage] at hrows hending
  have hquery : IsQueryOver pageSize (counting isBeside) (givingChild schema [page]) root [page] := by
    refine ⟨hvalid, fun op position a hcolumn hop _ => ?_, hinput, houtput,
      givesOut_givingChild schema [page] root, hrows, fun _ row hrow => ?_⟩
    · refine absurd hcolumn (not_mem_counting ?_ position)
      rcases hop with rfl | rfl <;> decide
    · exact (hrows row hrow).length_eq ▸ hwidth
  refine ⟨hquery, ?_, f, hquery.fails hending⟩
  rintro ⟨position, a, k, hcolumn, -⟩
  exact not_mem_counting (by decide) position hcolumn

/-- Without memory for a page a count cannot be opened. Beside a plain column it also needs a folder,
and a file cannot hold a page of 2^32 rows or a text of 2^32 bytes. -/
theorem fails_without_room :
    FailsUnprovoked 0x2000000000000000 (counting false) (Sample.intSchema "t" 1) ⟨true⟩
      [⟨1, [[.int 1]]⟩] ∧
    FailsUnprovoked 8 (counting true) (Sample.intSchema "t" 1) ⟨false⟩ [⟨1, [[.int 1]]⟩] ∧
    FailsUnprovoked 0x1000000000 (counting true) (Sample.intSchema "t" 1) ⟨true⟩
      [MergeSort.longPage] ∧
    FailsUnprovoked 8 (counting true) Plan.textSchema ⟨true⟩
      [⟨1, [[.string (Plan.text 0x100000000)]]⟩] := by
  refine ⟨?_, ?_, ?_, ?_⟩
  · exact failsUnprovoked_counting rfl (by decide) (by decide) (by decide) (by decide) rfl
  · exact failsUnprovoked_counting rfl (by decide) (by decide) (by decide) (by decide) rfl
  · have hshort : MergeSort.longPage.rows.length < 0x1000000000 / 4 := by
      rw [MergeSort.length_longPage]
      decide
    have hrows : MergeSort.longPage.rows ≠ [] := by
      rw [← List.length_pos_iff, MergeSort.length_longPage]
      decide
    have hlong : 0x100000000 ≤ Batch.length ⟨0x1000000000 / 4, MergeSort.longPage.rows⟩ := by
      rw [Batch.length, MergeSort.length_longPage]
    obtain ⟨f, hending⟩ : ∃ f, ending (counting true) (0x1000000000 / 4) ⟨true⟩
        MergeSort.longPage.rows = .error f :=
      exists_ending_eq_error rfl rfl hrows hshort (RunFile.encodeBatch_of_long _ hlong)
    refine failsUnprovoked_counting rfl (by decide) (by decide) (by decide) ?_ hending
    intro row hrow
    rw [List.eq_of_mem_replicate hrow]
    decide
  · have hlong : 0x100000000 ≤ (utf8Bytes (Plan.text 0x100000000)).length :=
      Nat.le_of_eq (Plan.length_utf8Bytes_text 0x100000000).symm
    obtain ⟨f, hending⟩ : ∃ f, ending (counting true) (8 / 4) ⟨true⟩
        [[.string (Plan.text 0x100000000)]] = .error f :=
      exists_ending_eq_error rfl rfl (List.cons_ne_nil _ _) (by decide : 1 < 2)
        (RunFile.encodeBatch_of_long_text _ _ hlong)
    refine failsUnprovoked_counting rfl (by decide) (by decide) (by decide) ?_ hending
    exact List.forall_mem_singleton.mpr (.cons rfl .nil)

end Aggregate
end PagedQuery
