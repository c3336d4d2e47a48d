import PagedQuery.Operator.Aggregate
import PagedQuery.Proofs.ActAnswers
import PagedQuery.Proofs.RunGrammar
import PagedQuery.Proofs.TypedRows

namespace PagedQuery

section Lists

variable {α β γ : Type}

theorem forall₂_comp_iff {R : α → β → Prop} {S : β → γ → Prop} {as : List α} {cs : List γ} :
    (∃ bs, List.Forall₂ R as bs ∧ List.Forall₂ S bs cs) ↔
      List.Forall₂ (fun a c => ∃ b, R a b ∧ S b c) as cs := by
  constructor
  · rintro ⟨bs, hbs, hcs⟩
    induction hbs generalizing cs with
    | nil =>
      cases hcs
      exact .nil
    | cons hab _ ih =>
      cases hcs with
      | cons hbc hrest => exact .cons ⟨_, hab, hbc⟩ (ih hrest)
  · intro h
    induction h with
    | nil => exact ⟨[], .nil, .nil⟩
    | cons hac _ ih =>
      obtain ⟨b, hab, hbc⟩ := hac
      obtain ⟨bs, hbs, hcs⟩ := ih
      exact ⟨b :: bs, .cons hab hbs, .cons hbc hcs⟩

/-- Taking items into a list of states is taking them into each state by itself. -/
theorem foldlM_mapM_eq_ok_iff {ε : Type} {f : β → α → Except ε α} {bs : List β} {as as' : List α} :
    bs.foldlM (fun as b => as.mapM (f b)) as = .ok as' ↔
      List.Forall₂ (fun a a' => bs.foldlM (fun a b => f b a) a = .ok a') as as' := by
  induction bs generalizing as with
  | nil =>
    have hpure (xs ys : List α) : (pure xs : Except ε (List α)) = .ok ys ↔ xs = ys :=
      ⟨Except.ok.inj, congrArg _⟩
    have hone (x y : α) : (pure x : Except ε α) = .ok y ↔ x = y := ⟨Except.ok.inj, congrArg _⟩
    simp only [List.foldlM_nil, hpure, hone, List.forall₂_eq_eq_eq]
  | cons b bs ih =>
    simp only [List.foldlM_cons, bind_eq_ok_iff, ih, mapM_eq_ok_iff, forall₂_comp_iff]

end Lists

/-- Why a sum can stop. -/
inductive OverflowFault : Error → Prop
  | intro {a b : Int64} (h : int64? (a.toInt + b.toInt) = none) : OverflowFault (.integerOverflow a b)

namespace Tally

variable {schema : Schema} {t t' : Tally} {row : Row} {field : Field} {ts : List Tally}

/-- Whether a tally is over a column of the schema that it can be over, with a value of its type. -/
structure Fits (schema : Schema) (t : Tally) : Prop where
  exists_attribute : ∃ a, schema[t.position]? = some a ∧
    (t.op = .sum ∨ t.op = .avg → a.type.isNumeric = true) ∧
    ∀ f, t.value = some f → a.type.admits f = true ∧ f.isNull = false

def label (t : Tally) : AggregateOp × Nat := (t.op, t.position)

theorem label_of_take (h : t.take field = .ok t') : t'.label = t.label := by
  rcases t with ⟨op, position, count, value, total⟩
  unfold take at h
  split at h
  · rw [← Except.ok.inj h]
  · cases op with
    | count | min | max =>
      obtain rfl := Except.ok.inj h
      rfl
    | sum =>
      cases value with
      | none =>
        obtain rfl := Except.ok.inj h
        rfl
      | some value =>
        cases hsum : value.add field with
        | error e => simp [hsum, Except.map] at h
        | ok sum =>
          simp only [hsum, Except.map] at h
          obtain rfl := Except.ok.inj h
          rfl
    | avg =>
      cases hx : field.toBinary64? with
      | none => simp [hx] at h
      | some x =>
        simp only [hx] at h
        obtain rfl := Except.ok.inj h
        rfl

theorem label_of_takeRow (h : t.takeRow row = .ok t') : t'.label = t.label := by
  unfold takeRow at h
  split at h
  · exact label_of_take h
  · cases h

theorem label_of_foldlM_takeRow {rows : List Row}
    (h : rows.foldlM (fun t row => t.takeRow row) t = .ok t') : t'.label = t.label := by
  induction rows generalizing t with
  | nil => rw [← Except.ok.inj h]
  | cons row rows ih =>
    obtain ⟨u, hu, hrest⟩ := bind_eq_ok_iff.mp h
    exact (ih hrest).trans (label_of_takeRow hu)

theorem better_cases {wanted : Ordering} {old : Option Field} {new f : Field}
    (h : better wanted old new = some f) : f = new ∨ old = some f := by
  unfold better at h
  split at h
  · exact .inl (Option.some.inj h).symm
  · split at h
    · exact .inl (Option.some.inj h).symm
    · exact .inr h

/-- Two numbers of one type have a sum of that type, unless it overflows. -/
theorem add_cases {type : DataType} {a b : Field} (hnumeric : type.isNumeric = true)
    (ha : type.admits a = true) (hb : type.admits b = true) (ha' : a.isNull = false)
    (hb' : b.isNull = false) :
    (∃ f, a.add b = .ok f ∧ type.admits f = true ∧ f.isNull = false) ∨
      ∃ e, a.add b = .error e ∧ OverflowFault e := by
  cases type with
  | int =>
    cases a <;> cases ha <;> cases ha'
    cases b <;> cases hb <;> cases hb'
    next m n =>
      cases hsum : int64? (m.toInt + n.toInt) with
      | some k => exact .inl ⟨.int k, by rw [Field.add, hsum], rfl, rfl⟩
      | none => exact .inr ⟨_, by rw [Field.add, hsum], .intro hsum⟩
  | float =>
    cases a <;> cases ha <;> cases ha'
    cases b <;> cases hb <;> cases hb'
    exact .inl ⟨_, rfl, rfl, rfl⟩
  | string width => cases hnumeric
  | null => cases hnumeric

theorem exists_toBinary64?_of_numeric {type : DataType} (hnumeric : type.isNumeric = true)
    (hadmits : type.admits field = true) (hnull : field.isNull = false) :
    ∃ x, field.toBinary64? = some x := by
  cases field with
  | int n => exact ⟨_, rfl⟩
  | float x => exact ⟨_, rfl⟩
  | string s =>
    cases type with
    | string width => cases hnumeric
    | _ => cases hadmits
  | null => cases hnull

/-- A tally takes a value of its column in, unless a sum overflows. -/
theorem Fits.take (h : t.Fits schema)
    (hfield : ∀ a, schema[t.position]? = some a → a.type.admits field = true) :
    (∃ t', t.take field = .ok t' ∧ t'.Fits schema) ∨
      ∃ e, t.take field = .error e ∧ OverflowFault e := by
  obtain ⟨a, ha, hnumeric, hvalue⟩ := h
  rcases t with ⟨op, position, count, value, total⟩
  have hadmits := hfield a ha
  cases hnull : field.isNull with
  | true => exact .inl ⟨_, if_pos hnull, ⟨a, ha, hnumeric, hvalue⟩⟩
  | false =>
    have hfits {value' : Option Field} {total' : Binary64}
        (hnew : ∀ f, value' = some f → a.type.admits f = true ∧ f.isNull = false) :
        Fits schema ⟨op, position, count + 1, value', total'⟩ := ⟨a, ha, hnumeric, hnew⟩
    have hsome {new f : Field} (hnew : a.type.admits new = true ∧ new.isNull = false)
        (hf : some new = some f) : a.type.admits f = true ∧ f.isNull = false :=
      Option.some.inj hf ▸ hnew
    have hbetter (wanted : Ordering) : ∀ f, better wanted value field = some f →
        a.type.admits f = true ∧ f.isNull = false := by
      intro f hf
      rcases better_cases hf with rfl | hold
      · exact ⟨hadmits, hnull⟩
      · exact hvalue f hold
    unfold Tally.take
    rw [if_neg (by simp [hnull])]
    cases op with
    | count => exact .inl ⟨_, rfl, hfits hvalue⟩
    | min => exact .inl ⟨_, rfl, hfits (hbetter .lt)⟩
    | max => exact .inl ⟨_, rfl, hfits (hbetter .gt)⟩
    | sum =>
      cases value with
      | none => exact .inl ⟨_, rfl, hfits fun _ => hsome ⟨hadmits, hnull⟩⟩
      | some value =>
        obtain ⟨hvalueAdmits, hvalueNull⟩ := hvalue value rfl
        rcases add_cases (hnumeric (.inl rfl)) hvalueAdmits hadmits hvalueNull hnull with
          ⟨sum, hsum, hsumFits⟩ | ⟨e, hsum, hfault⟩
        · exact .inl ⟨_, congrArg (Except.map _) hsum, hfits fun _ => hsome hsumFits⟩
        · exact .inr ⟨e, congrArg (Except.map _) hsum, hfault⟩
    | avg =>
      obtain ⟨x, hx⟩ := exists_toBinary64?_of_numeric (hnumeric (.inr rfl)) hadmits hnull
      simp only [hx]
      exact .inl ⟨_, rfl, hfits hvalue⟩

theorem Fits.takeRow (h : t.Fits schema) (hrow : row.Conforms schema) :
    (∃ t', t.takeRow row = .ok t' ∧ t'.Fits schema) ∨
      ∃ e, t.takeRow row = .error e ∧ OverflowFault e := by
  obtain ⟨a, ha, -⟩ := h.exists_attribute
  obtain ⟨field, hfield, hadmits⟩ := hrow.exists_field ha
  unfold Tally.takeRow
  rw [hfield]
  refine h.take fun a' ha' => ?_
  rwa [Option.some.inj (ha'.symm.trans ha)]

theorem mapM_takeRow (h : ∀ t ∈ ts, t.Fits schema) (hrow : row.Conforms schema) :
    (∃ ts', ts.mapM (takeRow row) = .ok ts' ∧ ∀ t ∈ ts', t.Fits schema) ∨
      ∃ e, ts.mapM (takeRow row) = .error e ∧ OverflowFault e := by
  induction ts with
  | nil => exact .inl ⟨[], rfl, h⟩
  | cons t ts ih =>
    rw [List.forall_mem_cons] at h
    rw [List.mapM_cons]
    rcases h.1.takeRow hrow with ⟨t', ht', hfits⟩ | ⟨e, he, hfault⟩
    · rw [ht']
      rcases ih h.2 with ⟨ts', hts', hall⟩ | ⟨e, he, hfault⟩
      · rw [hts']
        exact .inl ⟨t' :: ts', rfl, List.forall_mem_cons.mpr ⟨hfits, hall⟩⟩
      · rw [he]
        exact .inr ⟨e, rfl, hfault⟩
    · rw [he]
      exact .inr ⟨e, rfl, hfault⟩

theorem Fits.admits_result {op : AggregateOp} {position : Nat} {a : Attribute} (h : t.Fits schema)
    (hlabel : t.label = (op, position)) (ha : schema[position]? = some a) :
    ((AggregateColumn.aggregate op position).attributeOf a).type.admits t.result = true := by
  obtain ⟨a', ha', -, hvalue⟩ := h.exists_attribute
  rcases t with ⟨op', position', count, value, total⟩
  obtain ⟨rfl, rfl⟩ : op' = op ∧ position' = position := Prod.mk.inj hlabel
  obtain rfl := Option.some.inj (ha'.symm.trans ha)
  have hgetD : a'.type.admits (value.getD .null) = true := by
    cases value with
    | none => exact DataType.admits_null _
    | some f => exact (hvalue f rfl).1
  cases op' with
  | count => rfl
  | avg =>
    rw [result]
    dsimp only
    split
    · rfl
    · rfl
  | min => exact hgetD
  | max => exact hgetD
  | sum => exact hgetD

end Tally

namespace Aggregate

variable {schema : Schema} {columns : List AggregateColumn} {rows : List Row} {row : Row}
  {results : List Field} {ts : List Tally}

/-- Whether a column of an aggregate query is over one of the schema, and can be. -/
def IsColumnOf (schema : Schema) : AggregateColumn → Prop
  | .plain position => position < schema.length
  | .aggregate op position => ∃ a, schema[position]? = some a ∧
      (op = .sum ∨ op = .avg → a.type.isNumeric = true)

def label? : AggregateColumn → Option (AggregateOp × Nat)
  | .plain _ => none
  | .aggregate op position => some (op, position)

def tally (columns : List AggregateColumn) (rows : List Row) : Except Error (List Tally) :=
  rows.foldlM (fun ts row => ts.mapM (Tally.takeRow row)) (tallies columns)

theorem tally_append (columns : List AggregateColumn) (rows more : List Row) :
    tally columns (rows ++ more) =
      tally columns rows >>= more.foldlM fun ts row => ts.mapM (Tally.takeRow row) :=
  List.foldlM_append

/-- The tallies are kept each by itself. -/
theorem tally_eq_ok_iff : tally columns rows = .ok ts ↔
    List.Forall₂ (fun t t' => rows.foldlM (fun t row => t.takeRow row) t = .ok t')
      (tallies columns) ts :=
  foldlM_mapM_eq_ok_iff

theorem mem_tallies_iff {t : Tally} : t ∈ tallies columns ↔
    ∃ op position, .aggregate op position ∈ columns ∧ Tally.start op position = t := by
  rw [tallies, List.mem_filterMap]
  constructor
  · rintro ⟨column, hcolumn, ht⟩
    cases column with
    | plain position => cases ht
    | aggregate op position => exact ⟨op, position, hcolumn, Option.some.inj ht⟩
  · rintro ⟨op, position, hcolumn, rfl⟩
    exact ⟨_, hcolumn, rfl⟩

theorem map_label_tallies (columns : List AggregateColumn) :
    (tallies columns).map Tally.label = columns.filterMap label? := by
  rw [tallies, List.map_filterMap]
  refine List.filterMap_congr fun column _ => ?_
  cases column <;> rfl

theorem map_label_of_tally (h : tally columns rows = .ok ts) :
    ts.map Tally.label = columns.filterMap label? := by
  rw [← map_label_tallies, ← List.forall₂_eq_eq_eq, List.forall₂_map_left_iff,
    List.forall₂_map_right_iff]
  exact (tally_eq_ok_iff.mp h).flip.imp fun _ _ => Tally.label_of_foldlM_takeRow

/-- The output row of a row, for results of the aggregates. -/
def rowOf (row : Row) : List AggregateColumn → List Field → Row
  | [], _ => []
  | .plain position :: columns, results => row[position]?.getD .null :: rowOf row columns results
  | .aggregate _ _ :: columns, results => results.headD .null :: rowOf row columns results.tail

/-- The output rows of some rows. Without plain columns there is one row, unless there is no row. -/
def outputRows (columns : List AggregateColumn) (ts : List Tally) (rows : List Row) : List Row :=
  if rows = [] then []
  else if isPure columns then [rowOf [] columns (ts.map (·.result))]
  else rows.map fun row => rowOf row columns (ts.map (·.result))

/-- Whether these are tallies for the aggregates of a query, with values of their types. -/
structure AreTallies (schema : Schema) (columns : List AggregateColumn) (ts : List Tally) : Prop where
  fits : ∀ t ∈ ts, t.Fits schema
  labels : ts.map Tally.label = columns.filterMap label?

theorem lt_of_validateColumns (h : validateColumns schema columns = .ok ()) :
    ∀ column ∈ columns, column.position < schema.length := by
  induction columns with
  | nil => exact List.forall_mem_nil _
  | cons column columns ih =>
    unfold validateColumns at h
    split at h
    · next hposition => exact List.forall_mem_cons.mpr ⟨hposition, ih h⟩
    · cases h

theorem lt_of_validate (h : validate columns schema = .ok ()) :
    ∀ column ∈ columns, column.position < schema.length := by
  unfold validate at h
  split at h
  · cases h
  · exact lt_of_validateColumns h

/-- The columns of a query that passes its checks are over columns of the schema. -/
theorem isColumnOf_of_checkTypes (hwithin : ∀ column ∈ columns, column.position < schema.length)
    (h : checkTypes schema columns = .ok ()) : ∀ column ∈ columns, IsColumnOf schema column := by
  induction columns with
  | nil => exact List.forall_mem_nil _
  | cons column columns ih =>
    rw [List.forall_mem_cons] at hwithin
    cases column with
    | plain position => exact List.forall_mem_cons.mpr ⟨hwithin.1, ih hwithin.2 h⟩
    | aggregate op position =>
      obtain ⟨a, ha⟩ : ∃ a, schema[position]? = some a := ⟨_, List.getElem?_eq_getElem hwithin.1⟩
      unfold checkTypes at h
      split at h
      · rw [ha] at h
        dsimp only at h
        split at h
        · next hnumeric =>
          exact List.forall_mem_cons.mpr ⟨⟨a, ha, fun _ => hnumeric⟩, ih hwithin.2 h⟩
        · cases h
      · next hother =>
        exact List.forall_mem_cons.mpr ⟨⟨a, ha, fun hop => absurd hop hother⟩, ih hwithin.2 h⟩

/-- The rows of a schema have a field in each plain column. -/
theorem reaches_of_conforms (hcolumns : ∀ column ∈ columns, IsColumnOf schema column)
    (hrows : ∀ row ∈ rows, row.Conforms schema) :
    ∀ row ∈ rows, ∀ position, .plain position ∈ columns → position < row.length := by
  intro row hrow position hposition
  have hwithin : position < schema.length := hcolumns _ hposition
  exact (hrows row hrow).length_eq ▸ hwithin

theorem fits_of_mem_tallies (h : ∀ column ∈ columns, IsColumnOf schema column) :
    ∀ t ∈ tallies columns, t.Fits schema := by
  intro t ht
  obtain ⟨op, position, hcolumn, rfl⟩ := mem_tallies_iff.mp ht
  obtain ⟨a, ha, hnumeric⟩ := h _ hcolumn
  exact ⟨a, ha, hnumeric, fun f hf => by cases hf⟩

/-- Over rows of a schema, tallies are kept for all of them, unless a sum overflows. -/
theorem foldlM_tallies (hts : ∀ t ∈ ts, t.Fits schema) (hrows : ∀ row ∈ rows, row.Conforms schema) :
    (∃ ts', rows.foldlM (fun ts row => ts.mapM (Tally.takeRow row)) ts = .ok ts' ∧
        ∀ t ∈ ts', t.Fits schema) ∨
      ∃ e, rows.foldlM (fun ts row => ts.mapM (Tally.takeRow row)) ts = .error e ∧ OverflowFault e := by
  induction rows generalizing ts with
  | nil => exact .inl ⟨ts, rfl, hts⟩
  | cons row rows ih =>
    rw [List.forall_mem_cons] at hrows
    rw [List.foldlM_cons]
    rcases Tally.mapM_takeRow hts hrows.1 with ⟨ts', hts', hfits⟩ | ⟨e, he, hfault⟩
    · rw [hts']
      exact ih hfits hrows.2
    · rw [he]
      exact .inr ⟨e, rfl, hfault⟩

theorem areTallies_of_tally (hcolumns : ∀ column ∈ columns, IsColumnOf schema column)
    (hrows : ∀ row ∈ rows, row.Conforms schema) (h : tally columns rows = .ok ts) :
    AreTallies schema columns ts := by
  rcases foldlM_tallies (fits_of_mem_tallies hcolumns) hrows with ⟨ts', hts', hfits⟩ | ⟨e, he, -⟩
  · obtain rfl := Except.ok.inj (h.symm.trans hts')
    exact ⟨hfits, map_label_of_tally h⟩
  · cases h.symm.trans he

theorem overflowFault_of_tally (hcolumns : ∀ column ∈ columns, IsColumnOf schema column)
    (hrows : ∀ row ∈ rows, row.Conforms schema) {e : Error} (h : tally columns rows = .error e) :
    OverflowFault e := by
  rcases foldlM_tallies (fits_of_mem_tallies hcolumns) hrows with ⟨ts, hts, -⟩ | ⟨e', he, hfault⟩
  · cases h.symm.trans hts
  · obtain rfl := Except.error.inj (h.symm.trans he)
    exact hfault

/-- An output row has a field for each column: one of the row or the value of an aggregate. -/
theorem outputRow_eq {source : Option Row} (hplain : ∀ position, .plain position ∈ columns →
      ∃ row, source = some row ∧ position < row.length)
    (hresults : results.length = (columns.filterMap label?).length) :
    outputRow source columns results = .ok (rowOf (source.getD []) columns results) := by
  induction columns generalizing results with
  | nil => rfl
  | cons column columns ih =>
    have hplain' : ∀ position, .plain position ∈ columns →
        ∃ row, source = some row ∧ position < row.length :=
      fun position hposition => hplain position (List.mem_cons_of_mem column hposition)
    cases column with
    | plain position =>
      obtain ⟨row, rfl, hposition⟩ := hplain position List.mem_cons_self
      have hrest := ih hplain' hresults
      have hfield : (some row).bind (·[position]?) = some row[position] :=
        List.getElem?_eq_getElem hposition
      rw [outputRow, hfield]
      dsimp only
      rw [hrest, rowOf, Option.getD_some, List.getElem?_eq_getElem hposition, Option.getD_some]
      rfl
    | aggregate op position =>
      cases results with
      | nil => cases hresults
      | cons result results =>
        rw [outputRow, ih hplain' (Nat.succ.inj hresults)]
        rfl

theorem outputSchema_cons (column : AggregateColumn) {a : Attribute}
    (ha : schema[column.position]? = some a) :
    outputSchema (column :: columns) schema = column.attributeOf a :: outputSchema columns schema := by
  simp [outputSchema, ha]

theorem conforms_rowOf (hcolumns : ∀ column ∈ columns, IsColumnOf schema column)
    (hts : AreTallies schema columns ts)
    (hrow : ∀ position, .plain position ∈ columns → row.Conforms schema) :
    (rowOf row columns (ts.map (·.result))).Conforms (outputSchema columns schema) := by
  induction columns generalizing ts with
  | nil => exact .nil
  | cons column columns ih =>
    rw [List.forall_mem_cons] at hcolumns
    have hrow' : ∀ position, .plain position ∈ columns → row.Conforms schema :=
      fun position hposition => hrow position (List.mem_cons_of_mem column hposition)
    cases column with
    | plain position =>
      obtain ⟨a, ha⟩ : ∃ a, schema[position]? = some a := ⟨_, List.getElem?_eq_getElem hcolumns.1⟩
      obtain ⟨f, hf, hadmits⟩ := (hrow position List.mem_cons_self).exists_field ha
      rw [outputSchema_cons (.plain position) ha, rowOf, hf]
      exact .cons hadmits (ih hcolumns.2 ⟨hts.fits, hts.labels⟩ hrow')
    | aggregate op position =>
      obtain ⟨a, ha, -⟩ := hcolumns.1
      obtain ⟨t, ts, rfl, hlabel, hlabels⟩ := List.map_eq_cons_iff.mp hts.labels
      have hfits := List.forall_mem_cons.mp hts.fits
      rw [outputSchema_cons (.aggregate op position) ha]
      exact .cons (hfits.1.admits_result hlabel ha) (ih hcolumns.2 ⟨hfits.2, hlabels⟩ hrow')

theorem conforms_outputRows (hcolumns : ∀ column ∈ columns, IsColumnOf schema column)
    (hts : AreTallies schema columns ts) (hrows : ∀ row ∈ rows, row.Conforms schema) :
    ∀ row ∈ outputRows columns ts rows, row.Conforms (outputSchema columns schema) := by
  intro row hrow
  unfold outputRows at hrow
  split at hrow
  · cases hrow
  · split at hrow
    · next hpure =>
      obtain rfl := List.mem_singleton.mp hrow
      refine conforms_rowOf hcolumns hts fun position hposition => ?_
      cases List.all_eq_true.mp hpure _ hposition
    · obtain ⟨source, hsource, rfl⟩ := List.mem_map.mp hrow
      exact conforms_rowOf hcolumns hts fun _ _ => hrows source hsource

end Aggregate

end PagedQuery
