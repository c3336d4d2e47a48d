import PagedQuery.Proofs.AggregateAnswers
import PagedQuery.Proofs.RunningSums

/-!
# Rows that an aggregation accepts

An aggregation without plain columns takes its rows as they come, also if they are not of the schema
of its child. It opens if every row reaches the columns of all aggregates and these are defined on
the values there. There is one exception: a sum accepts a single value of any kind, and shows it as
its result.
-/

namespace PagedQuery
namespace Aggregate

variable {σ : Type} {child : Cursor σ} {root : TempRoot} {columns : List AggregateColumn}
  {rows : List Row} {ts : List Tally} {op : AggregateOp} {position pageSize capacity : Nat}
  {s t : State σ} {pages output : List Batch}

/-- Whether an aggregate takes some rows in: all of them have a field in its column, and it is
defined on the values there, or it is a sum and there is only one. -/
structure Accepts (op : AggregateOp) (position : Nat) (rows : List Row) : Prop where
  reached : ∀ row ∈ rows, position < row.length
  taken : op.IsDefinedOn (valuesAt position rows) ∨
    op = .sum ∧ (valuesAt position rows).length = 1

/-- What a column can show for a sum: null, a number, or the only value that there was to sum. -/
def ShowsSum (rows : List Row) : AggregateColumn → Field → Prop
  | .aggregate .sum position, result =>
    result = .null ∨ result.IsNumber ∨ valuesAt position rows = [result]
  | _, _ => True

section Tallies

theorem exists_foldlM_takeRow_iff :
    (∃ t, rows.foldlM (fun t row => t.takeRow row) (Tally.start op position) = .ok t) ↔
      Accepts op position rows := by
  have htaken : (∃ t, (valuesAt position rows).foldlM Tally.take (.start op position) = .ok t) ↔
      op.IsDefinedOn (valuesAt position rows) ∨ op = .sum ∧ (valuesAt position rows).length = 1 :=
    Tally.exists_foldlM_take_start_iff isNull_of_mem_valuesAt
  simp only [foldlM_takeRow_eq_ok_iff, exists_and_left]
  exact ⟨fun h => ⟨h.1, htaken.mp h.2⟩, fun h => ⟨h.reached, htaken.mpr h.taken⟩⟩

/-- Rows have tallies exactly if every aggregate accepts them. -/
theorem exists_tally_iff : (∃ ts, tally columns rows = .ok ts) ↔
    ∀ op position, .aggregate op position ∈ columns → Accepts op position rows := by
  constructor
  · rintro ⟨ts, hts⟩ op position hcolumn
    have hstart := mem_tallies_iff.mpr ⟨op, position, hcolumn, rfl⟩
    exact exists_foldlM_takeRow_iff.mp (exists_of_forall₂ (tally_eq_ok_iff.mp hts) _ hstart)
  · intro h
    simp only [tally_eq_ok_iff]
    refine RunFile.exists_forall₂ fun t ht => ?_
    obtain ⟨op, position, hcolumn, rfl⟩ := mem_tallies_iff.mp ht
    exact exists_foldlM_takeRow_iff.mpr (h op position hcolumn)

theorem showsSum_result {t : Tally}
    (h : rows.foldlM (fun t row => t.takeRow row) (Tally.start op position) = .ok t) :
    ShowsSum rows (.aggregate op position) t.result := by
  cases op with
  | sum => exact Tally.result_of_foldlM_take_sum isNull_of_mem_valuesAt (foldlM_takeRow_eq_ok_iff.mp h).2
  | _ => trivial

theorem forall₂_showsSum_rowOf (hpure : isPure columns = true) (h : tally columns rows = .ok ts) :
    List.Forall₂ (ShowsSum rows) columns (rowOf [] columns (ts.map (·.result))) := by
  have htallies := tally_eq_ok_iff.mp h
  clear h
  induction columns generalizing ts with
  | nil => exact .nil
  | cons column columns ih =>
    cases column with
    | plain position => cases hpure
    | aggregate op position =>
      cases htallies with
      | cons ht hts => exact .cons (showsSum_result ht) (ih hpure hts)

end Tallies

section Opening

/-- Without plain columns, taking rows in only needs memory for a page of them, which is not used. -/
theorem ending_of_isPure (hpure : isPure columns = true) (hc : 0 < capacity) :
    ending columns capacity root rows =
      Batch.reserve capacity >>= fun _ => Failure.ofExcept (tally columns rows) := by
  have hspec := ending_spec columns hc root rows
  have hreserve (h : fitsMemory capacity Batch.rowRoom = true) :
      Batch.reserve capacity = .ok (.empty capacity) := if_pos h
  cases hending : ending columns capacity root rows with
  | ok ts =>
    rw [hending] at hspec
    rw [hreserve hspec.memory, hspec.tallies]
    rfl
  | error f =>
    rw [hending] at hspec
    cases hspec with
    | folder hmixed _ => cases hpure.symm.trans hmixed
    | memory hmemory =>
      rw [Batch.reserve, if_neg hmemory]
      rfl
    | untallied hmemory h =>
      rw [hreserve hmemory, h]
      rfl
    | unwritten hmixed _ _ => cases hpure.symm.trans hmixed

/-- Whether a closed aggregation without plain columns is over a child that opens and gives these
pages, with any rows. Its pages have room for a row of the input and one of the output, and what is
summed or averaged is declared to be a column of numbers. -/
structure IsPureQueryOver (pageSize : Nat) (columns : List AggregateColumn) (child : Cursor σ)
    (root : TempRoot) (s : State σ) (pages : List Batch) : Prop where
  valid : validate columns child.schema = .ok ()
  unmixed : isPure columns = true
  numeric : ∀ op position a, .aggregate op position ∈ columns → op = .sum ∨ op = .avg →
    child.schema[position]? = some a → a.type.isNumeric = true
  inputPage : 1 ≤ pageSize / child.schema.rowSize
  outputPage : 1 ≤ pageSize / (outputSchema columns child.schema).rowSize
  closed : s.isOpen = false
  gives : ∃ c, child.openUp.Gives root s.child () c ∧ child.GivesOut root c pages

/-- Such an aggregation opens before its output rows if there is memory for a page of the input and
there are tallies of all rows, and else it fails. -/
theorem IsPureQueryOver.openUp_cases (h : IsPureQueryOver pageSize columns child root s pages) :
    let capacity := pageSize / (outputSchema columns child.schema).rowSize
    (fitsMemory (pageSize / child.schema.rowSize) Batch.rowRoom = true ∧
      ∃ ts t, tally columns (pages.flatMap (·.rows)) = .ok ts ∧
        FillsPages (Brings (Standing.any σ) columns capacity) capacity
          (Batch.pages capacity (outputRows columns ts (pages.flatMap (·.rows)))) t ∧
        (cursor pageSize columns child).openUp.Gives root s () t) ∨
      ¬(fitsMemory (pageSize / child.schema.rowSize) Batch.rowRoom = true ∧
        ∃ ts, tally columns (pages.flatMap (·.rows)) = .ok ts) ∧
        ∃ f, (cursor pageSize columns child).openUp.Fails root s f := by
  intro capacity
  have hmixed (hnot : isPure columns = false) : s.pending = [] ∧
      ∀ row ∈ pages.flatMap (·.rows), ∀ position, .plain position ∈ columns →
        position < row.length := by
    cases h.unmixed.symm.trans hnot
  have hopens := opens_of_givesOut (isColumnOf_of_validate h.valid h.numeric) h.inputPage h.outputPage
    h.closed h.gives hmixed
  rw [ending_of_isPure h.unmixed h.inputPage] at hopens
  by_cases hmemory : fitsMemory (pageSize / child.schema.rowSize) Batch.rowRoom = true
  · rw [Batch.reserve, if_pos hmemory] at hopens
    cases htally : tally columns (pages.flatMap (·.rows)) with
    | error e =>
      rw [htally] at hopens
      refine .inr ⟨?_, _, Act.FailsIn.fails hopens⟩
      rintro ⟨-, ts, hts⟩
      cases hts
    | ok ts =>
      rw [htally] at hopens
      obtain ⟨t, ht, hgives⟩ := hopens
      exact .inl ⟨hmemory, ts, t, rfl, ht, hgives⟩
  · rw [Batch.reserve, if_neg hmemory] at hopens
    exact .inr ⟨fun hboth => hmemory hboth.1, _, Act.FailsIn.fails hopens⟩

/-- A page is only given by an aggregation that has taken rows in, and needs memory. -/
theorem fitsMemory_of_gives_next {page : Batch}
    (h : (next columns : Act (State σ) _).Gives root s (some page) t) :
    s.inputCount ≠ 0 ∧ fitsMemory s.capacity Batch.rowRoom = true := by
  have hnext := Act.gives_get_bind.mp h
  split at hnext
  · cases hnext.1
  · split at hnext
    · cases hnext.1
    · next hcount =>
      refine ⟨hcount, ?_⟩
      obtain ⟨draft, u, hreserve, -⟩ := hnext.of_bind
      have hdraft := hreserve.of_ofAnswer.1
      unfold Draft.reserve Batch.reserve at hdraft
      split at hdraft
      · assumption
      · cases hdraft

/-- An aggregation that stands before some pages gives these, if there is memory for them. -/
theorem eq_nil_or_eq_of_givesOut
    (hs : FillsPages (Brings (Standing.any σ) columns capacity) capacity pages s)
    (hgiven : (cursor pageSize columns child).GivesOut root s output) :
    output = [] ∨ output = pages := by
  cases hgiven with
  | ended _ => exact .inl rfl
  | page hnext hrest =>
    obtain ⟨hcount, hmemory⟩ := fitsMemory_of_gives_next hnext
    have hcapacity : s.capacity = capacity := by
      obtain ⟨-, n, rows, hbrings, -⟩ := hs
      cases hbrings with
      | nothing _ _ hinput => exact absurd hinput hcount
      | one _ _ h => exact h.1.capacity
      | each _ _ h => exact h.1.capacity
    have hfills := fills pageSize columns child root (Standing.any σ) (hcapacity ▸ hmemory)
    exact .inr ((hfills.supplies hs).eq_of_givesOut (.page hnext hrest))

/-- An aggregation without plain columns opens exactly if there is memory for a page of its input and
every aggregate accepts the rows. A sum that it then shows is null, a number or the only value that
there was to sum. -/
theorem opens_iff_accepts (pageSize : Nat) (columns : List AggregateColumn) (child : Cursor σ)
    (root : TempRoot) (s : State σ) (pages : List Batch)
    (hquery : IsPureQueryOver pageSize columns child root s pages) :
    ((∃ t, (cursor pageSize columns child).openUp.Gives root s () t) ↔
      fitsMemory (pageSize / child.schema.rowSize) Batch.rowRoom = true ∧
        ∀ op position, .aggregate op position ∈ columns →
          Accepts op position (pages.flatMap (·.rows))) ∧
    ∀ t output, (cursor pageSize columns child).openUp.Gives root s () t →
      (cursor pageSize columns child).GivesOut root t output →
      ∀ row ∈ output.flatMap (·.rows),
        List.Forall₂ (ShowsSum (pages.flatMap (·.rows))) columns row := by
  rw [← exists_tally_iff]
  rcases hquery.openUp_cases with ⟨hmemory, ts, t, htally, ht, hgives⟩ | ⟨hneither, f, hfails⟩
  · refine ⟨iff_of_true ⟨t, hgives⟩ ⟨hmemory, ts, htally⟩, fun t' output hgives' hgiven row hrow => ?_⟩
    obtain ⟨-, rfl⟩ := hgives.unique hgives'
    rcases eq_nil_or_eq_of_givesOut ht hgiven with rfl | rfl
    · cases hrow
    · rw [Batch.flatMap_rows_pages ht.1, outputRows, if_pos hquery.unmixed] at hrow
      split at hrow
      · cases hrow
      · obtain rfl := List.mem_singleton.mp hrow
        exact forall₂_showsSum_rowOf hquery.unmixed htally
  · refine ⟨iff_of_false ?_ hneither, fun t' output hgives' => absurd hfails hgives'.not_fails⟩
    rintro ⟨t, hgives⟩
    exact hgives.not_fails hfails

theorem isPureQueryOver_givingChild (pages : List Batch)
    (hvalid : validate columns (Sample.intSchema "t" 1) = .ok ()) (hpure : isPure columns = true)
    (hinput : 1 ≤ pageSize / (Sample.intSchema "t" 1).rowSize)
    (houtput : 1 ≤ pageSize / (outputSchema columns (Sample.intSchema "t" 1)).rowSize) :
    let child := givingChild (Sample.intSchema "t" 1) pages
    IsPureQueryOver pageSize columns child root (cursor pageSize columns child).start pages :=
  ⟨hvalid, hpure, fun _ _ _ _ _ => numeric_intSchema, hinput, houtput, rfl, givesOut_givingChild _ _ _⟩

def numberPages : List Batch :=
  [⟨2, [[.int 1], [.null, .string "a"]]⟩, ⟨2, [[.float (.ofNat 2)]]⟩]

/-- Numbers of either kind are summed and averaged, but a text is not averaged, also if it is the only
value. -/
theorem opens_iff_accepts_numberPages :
    let query := cursor 16 [.aggregate .sum 0, .aggregate .avg 0]
      (givingChild (Sample.intSchema "t" 1) numberPages)
    let average := cursor 8 [.aggregate .avg 0]
      (givingChild (Sample.intSchema "t" 1) [⟨2, [[.string "a"]]⟩])
    (∃ t, query.openUp.Gives ⟨true⟩ query.start () t) ∧
      ¬∃ t, average.openUp.Gives ⟨true⟩ average.start () t := by
  intro query average
  have hquery : IsPureQueryOver 16 [.aggregate .sum 0, .aggregate .avg 0]
      (givingChild (Sample.intSchema "t" 1) numberPages) ⟨true⟩ query.start numberPages :=
    isPureQueryOver_givingChild _ rfl rfl (by decide) (by decide)
  have haverage : IsPureQueryOver 8 [.aggregate .avg 0]
      (givingChild (Sample.intSchema "t" 1) [⟨2, [[.string "a"]]⟩]) ⟨true⟩ average.start
      [⟨2, [[.string "a"]]⟩] :=
    isPureQueryOver_givingChild _ rfl rfl (by decide) (by decide)
  constructor
  · refine (opens_iff_accepts 16 _ _ ⟨true⟩ _ _ hquery).1.mpr ⟨by decide, fun op position hcolumn => ?_⟩
    have hnumbers : op.IsDefinedOn [.int 1, .float (.ofNat 2)] :=
      ⟨fun _ => by simp [Field.IsNumber, Field.IsInt],
        fun _ => Field.staysInRange_cons_cons_iff.mpr (by simp [Field.IsInt])⟩
    obtain ⟨-, rfl⟩ | ⟨-, rfl⟩ : op = .sum ∧ position = 0 ∨ op = .avg ∧ position = 0 := by
      simpa using hcolumn
    · exact ⟨by decide, .inl hnumbers⟩
    · exact ⟨by decide, .inl hnumbers⟩
  · intro hopens
    obtain ⟨-, hdefined | hlone⟩ :=
      ((opens_iff_accepts 8 _ _ ⟨true⟩ _ _ haverage).1.mp hopens).2 .avg 0 List.mem_cons_self
    · have htext := hdefined.numbers (.inr rfl) (.string "a") List.mem_cons_self
      exact Field.not_isNumber_string _ htext
    · cases hlone.1

def sumOver (rows : List Row) : Cursor (State Script) :=
  cursor 4 [.aggregate .sum 0] (givingChild (Sample.intSchema "t" 1) [⟨2, rows⟩])

/-- A sum is not defined on a text, but over a single one it opens and shows it. Over two texts it does
not open. -/
theorem sums_single_text :
    IsPureQueryOver 4 [.aggregate .sum 0]
        (givingChild (Sample.intSchema "t" 1) [⟨2, [[.string "a"]]⟩]) ⟨true⟩
        (sumOver [[.string "a"]]).start [⟨2, [[.string "a"]]⟩] ∧
      ¬AggregateOp.IsDefinedOn .sum (valuesAt 0 [[.string "a"]]) ∧
      (∃ s t, (sumOver [[.string "a"]]).openUp.Gives ⟨true⟩ (sumOver [[.string "a"]]).start () s ∧
        (sumOver [[.string "a"]]).next.Gives ⟨true⟩ s (some ⟨1, [[.string "a"]]⟩) t) ∧
      (sumOver [[.string "a"], [.string "b"]]).openUp.Fails ⟨true⟩
        (sumOver [[.string "a"], [.string "b"]]).start
        (.error (.cannotAdd (.string "a") (.string "b"))) := by
  refine ⟨isPureQueryOver_givingChild _ rfl rfl (by decide) (by decide), fun hdefined => ?_, ?_, rfl⟩
  · have htext := hdefined.numbers (.inl rfl) (.string "a") List.mem_cons_self
    exact Field.not_isNumber_string _ htext
  · exact ⟨_, _, ⟨rfl, rfl⟩, ⟨rfl, rfl⟩⟩

end Opening
end Aggregate
end PagedQuery
