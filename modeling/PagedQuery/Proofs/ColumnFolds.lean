import Mathlib.Data.List.Induction
import PagedQuery.Proofs.AggregateRows
import PagedQuery.Proofs.FieldOrder
import PagedQuery.Proofs.StoredRuns

/-!
# Aggregates over a column

What an aggregate is over the values of a column can be said without a running value: their number,
the earliest of the smallest or the largest of them, their exact sum, or their sum or average as
doubles from left to right. A tally holds this of all values it has taken. The only thing that stops
it is a sum of integers that leaves the range of 64 bits at one of them.
-/

namespace PagedQuery

/-- The integer in a field, and zero if there is none. -/
def Field.integer : Field → Int
  | .int n => n.toInt
  | _ => 0

def integerSum (fields : List Field) : Int := fields.foldl (fun sum f => sum + f.integer) 0

def FitsInt64 (n : Int) : Prop := -0x8000000000000000 ≤ n ∧ n < 0x8000000000000000

instance (n : Int) : Decidable (FitsInt64 n) := inferInstanceAs (Decidable (_ ∧ _))

/-- Whether this is the first of some fields that no other one stands before, where one stands before
another if it compares with it as wanted. -/
inductive IsEarliest (wanted : Ordering) : List Field → Option Field → Prop
  | none : IsEarliest wanted [] none
  | some {front back : List Field} {f : Field} (hfront : ∀ g ∈ front, f.compare g = wanted)
      (hback : ∀ g ∈ back, g.compare f ≠ wanted) : IsEarliest wanted (front ++ f :: back) (some f)

/-- Whether this is the sum of some fields: exact over integers, rounded from left to right over
doubles. -/
inductive IsSum : List Field → Option Field → Prop
  | none : IsSum [] none
  | ints {fields : List Field} {n : Int64} (hne : fields ≠ []) (hints : ∀ f ∈ fields, ∃ m, f = .int m)
      (hsum : n.toInt = integerSum fields) : IsSum fields (some (.int n))
  | floats (x : Binary64) (xs : List Binary64) :
      IsSum ((x :: xs).map .float) (some (.float (xs.foldl Binary64.add x)))

/-- Whether this is the average of some fields: the sum of the fields as doubles, from left to right,
over their number. -/
inductive IsAverage : List Field → Option Field → Prop
  | none : IsAverage [] none
  | some {fields : List Field} {xs : List Binary64} (hne : fields ≠ [])
      (hxs : fields.map Field.toBinary64? = xs.map some) :
      IsAverage fields
        (some (.float ((xs.foldl Binary64.add (.ofNat 0)).div (.ofNat fields.length))))

/-- Whether this is the value of an aggregate over the values of a column. Without values only a count
is not null. -/
inductive IsAggregate : AggregateOp → List Field → Field → Prop
  | count (fields : List Field) : IsAggregate .count fields (.int (Int64.ofNat fields.length))
  | min {fields : List Field} {value : Option Field} (h : IsEarliest .lt fields value) :
      IsAggregate .min fields (value.getD .null)
  | max {fields : List Field} {value : Option Field} (h : IsEarliest .gt fields value) :
      IsAggregate .max fields (value.getD .null)
  | sum {fields : List Field} {value : Option Field} (h : IsSum fields value) :
      IsAggregate .sum fields (value.getD .null)
  | avg {fields : List Field} {value : Option Field} (h : IsAverage fields value) :
      IsAggregate .avg fields (value.getD .null)

section Integers

theorem integerSum_concat (fields : List Field) (f : Field) :
    integerSum (fields ++ [f]) = integerSum fields + f.integer :=
  List.foldl_append

theorem fitsInt64_toInt (n : Int64) : FitsInt64 n.toInt := ⟨n.le_toInt, n.toInt_lt⟩

theorem toInt_of_int64? {n : Int} {m : Int64} (h : int64? n = some m) : m.toInt = n := by
  unfold int64? at h
  split at h
  · next hrange =>
    obtain rfl := Option.some.inj h
    exact Int64.toInt_ofInt_of_le hrange.1 hrange.2
  · cases h

theorem not_fitsInt64_of_int64? {n : Int} (h : int64? n = none) : ¬FitsInt64 n := by
  unfold int64? at h
  split at h
  · cases h
  · assumption

end Integers

section Earliest

variable {wanted : Ordering} {fields : List Field} {old : Option Field} {new : Field}

/-- A field stands before another one if it stands before a third that the other does not stand
before. -/
theorem compare_eq_of_ne {cmp : Field → Field → Ordering} [Std.TransCmp cmp] (hwanted : wanted ≠ .eq)
    {a b c : Field} (hab : cmp a b = wanted) (hcb : cmp c b ≠ wanted) : cmp a c = wanted := by
  cases wanted with
  | eq => exact absurd rfl hwanted
  | lt =>
    refine Std.TransCmp.lt_of_lt_of_isLE hab (Std.OrientedCmp.isGE_iff_isLE.mp ?_)
    cases horder : cmp c b with
    | lt => exact absurd horder hcb
    | _ => rfl
  | gt =>
    refine Std.TransCmp.gt_of_gt_of_isGE hab (Std.OrientedCmp.isGE_iff_isLE.mpr ?_)
    cases horder : cmp c b with
    | gt => exact absurd horder hcb
    | _ => rfl

theorem compare_ne_of_eq {cmp : Field → Field → Ordering} [Std.OrientedCmp cmp]
    (hwanted : wanted ≠ .eq) {a b : Field} (hab : cmp a b = wanted) : cmp b a ≠ wanted := by
  intro hba
  have hswap : cmp b a = (cmp a b).swap := Std.OrientedCmp.eq_swap
  rw [hswap, hab] at hba
  cases wanted with
  | eq => exact hwanted rfl
  | lt => cases hba
  | gt => cases hba

/-- A value that stands before the earliest takes its place; any other one is behind it. -/
theorem IsEarliest.better (hwanted : wanted ≠ .eq) (h : IsEarliest wanted fields old)
    (hordered : Field.AreOrdered (fields ++ [new])) :
    IsEarliest wanted (fields ++ [new]) (Tally.better wanted old new) := by
  cases h with
  | none => exact .some (List.forall_mem_nil _) (List.forall_mem_nil _)
  | @some front back f hfront hback =>
    rw [Tally.better]
    split
    · next hnew =>
      obtain ⟨cmp, htrans, hcmp⟩ := Field.exists_transCmp hordered
      have hmem : ∀ g ∈ front ++ f :: back, g ∈ front ++ f :: back ++ [new] := fun g hg =>
        List.mem_append_left _ hg
      have hnewMem : new ∈ front ++ f :: back ++ [new] :=
        List.mem_append_right _ List.mem_cons_self
      have hf : f ∈ front ++ f :: back := List.mem_append_right _ List.mem_cons_self
      rw [hcmp new hnewMem f (hmem f hf)] at hnew
      -- What the new value stands before has no one of the others before it.
      have hnone : ∀ g ∈ front ++ f :: back, cmp g f ≠ wanted := by
        intro g hg
        rcases List.mem_append.mp hg with hfirst | hlater
        · have hbefore := hfront g hfirst
          rw [hcmp f (hmem f hf) g (hmem g hg)] at hbefore
          exact compare_ne_of_eq hwanted hbefore
        · rcases List.mem_cons.mp hlater with rfl | hlater
          · have hself : cmp g g = .eq := Std.ReflCmp.compare_self
            exact hself ▸ hwanted.symm
          · have hbehind := hback g hlater
            rwa [hcmp g (hmem g hg) f (hmem f hf)] at hbehind
      refine .some (fun g hg => ?_) (List.forall_mem_nil _)
      rw [hcmp new hnewMem g (hmem g hg)]
      exact compare_eq_of_ne hwanted hnew (hnone g hg)
    · next hnew =>
      rw [List.append_assoc, List.cons_append]
      refine .some hfront (List.forall_mem_append.mpr ⟨hback, ?_⟩)
      exact List.forall_mem_singleton.mpr hnew

theorem IsEarliest.unique {value value' : Option Field} (h : IsEarliest wanted fields value)
    (h' : IsEarliest wanted fields value') : value = value' := by
  generalize hfields : fields = fields' at h'
  cases h with
  | none =>
    cases h' with
    | none => rfl
    | some => simp at hfields
  | @some front back f hfront hback =>
    cases h' with
    | none => simp at hfields
    | @some front' back' f' hfront' hback' =>
      -- Of two different ones the later would stand before the earlier, which then is no earliest.
      rcases List.append_eq_append_iff.mp hfields with ⟨_ | ⟨g, rest⟩, hleft, hright⟩ |
        ⟨_ | ⟨g, rest⟩, hleft, hright⟩
      · rw [(List.cons.inj hright).1]
      · obtain ⟨rfl, rfl⟩ := List.cons.inj hright
        have hbefore := hfront' f (by simp [hleft])
        exact absurd hbefore (hback f' (by simp))
      · rw [(List.cons.inj hright).1]
      · obtain ⟨rfl, rfl⟩ := List.cons.inj hright
        have hbefore := hfront f' (by simp [hleft])
        exact absurd hbefore (hback' f (by simp))

end Earliest

section Sums

variable {type : DataType} {fields : List Field} {value new sum : Field} {old : Option Field}

theorem exists_int_of_admits (hadmits : DataType.int.admits new = true) (hnull : new.isNull = false) :
    ∃ n, new = .int n := by
  cases new <;> cases hadmits
  · exact ⟨_, rfl⟩
  · cases hnull

theorem exists_float_of_admits (hadmits : DataType.float.admits new = true)
    (hnull : new.isNull = false) : ∃ x, new = .float x := by
  cases new <;> cases hadmits
  · exact ⟨_, rfl⟩
  · cases hnull

theorem isSum_singleton (hnumeric : type.isNumeric = true) (hadmits : type.admits new = true)
    (hnull : new.isNull = false) : IsSum [new] (some new) := by
  cases type with
  | int =>
    obtain ⟨n, rfl⟩ := exists_int_of_admits hadmits hnull
    exact .ints (List.cons_ne_nil _ _) (List.forall_mem_singleton.mpr ⟨n, rfl⟩)
      (Int.zero_add _).symm
  | float =>
    obtain ⟨x, rfl⟩ := exists_float_of_admits hadmits hnull
    exact .floats x []
  | string width => cases hnumeric
  | null => cases hnumeric

/-- One more number makes the sum one of all of them, or leaves the range of 64 bits. -/
theorem IsSum.add (h : IsSum fields (some value)) (hnumeric : type.isNumeric = true)
    (hfields : ∀ f ∈ fields, type.admits f = true) (hadmits : type.admits new = true)
    (hnull : new.isNull = false) :
    (∀ sum, value.add new = .ok sum → IsSum (fields ++ [new]) (some sum)) ∧
      ∀ e, value.add new = .error e →
        type = .int ∧ ¬FitsInt64 (integerSum (fields ++ [new])) := by
  cases type with
  | int =>
    obtain ⟨m, rfl⟩ := exists_int_of_admits hadmits hnull
    cases h with
    | floats x xs => cases hfields (.float x) List.mem_cons_self
    | @ints _ n hne hints hsum =>
      have htotal : integerSum (fields ++ [.int m]) = n.toInt + m.toInt := by
        rw [integerSum_concat, hsum]
        rfl
      rw [htotal, Field.add]
      cases hcheck : int64? (n.toInt + m.toInt) with
      | none =>
        exact ⟨fun _ hok => (by cases hok), fun _ _ => ⟨rfl, not_fitsInt64_of_int64? hcheck⟩⟩
      | some k =>
        refine ⟨fun sum hok => ?_, fun _ herror => by cases herror⟩
        obtain rfl := Except.ok.inj hok
        refine .ints (by simp) ?_ ((toInt_of_int64? hcheck).trans htotal.symm)
        exact List.forall_mem_append.mpr ⟨hints, List.forall_mem_singleton.mpr ⟨m, rfl⟩⟩
  | float =>
    obtain ⟨y, rfl⟩ := exists_float_of_admits hadmits hnull
    cases h with
    | @ints _ n hne hints hsum =>
      obtain ⟨f, hf⟩ := List.exists_mem_of_ne_nil fields hne
      obtain ⟨m, rfl⟩ := hints f hf
      cases hfields _ hf
    | floats x xs =>
      refine ⟨fun sum hok => ?_, fun _ herror => by cases herror⟩
      obtain rfl := Except.ok.inj hok
      have hall := IsSum.floats x (xs ++ [y])
      rwa [List.foldl_append, ← List.cons_append, List.map_append] at hall
  | string width => cases hnumeric
  | null => cases hnumeric

theorem IsSum.unique {other : Option Field} (h : IsSum fields old) (h' : IsSum fields other) :
    old = other := by
  generalize hfields : fields = fields' at h'
  cases h with
  | none =>
    cases h' with
    | none => rfl
    | ints hne => exact absurd hfields.symm hne
    | floats => cases hfields
  | @ints _ n hne hints hsum =>
    cases h' with
    | none => exact absurd hfields hne
    | @ints _ n' hne' hints' hsum' =>
      subst hfields
      rw [Int64.toInt_inj.mp (hsum.trans hsum'.symm)]
    | floats x xs =>
      obtain ⟨m, hm⟩ := hints (.float x) (hfields ▸ List.mem_cons_self)
      cases hm
  | floats x xs =>
    cases h' with
    | none => cases hfields
    | @ints _ n hne hints hsum =>
      obtain ⟨m, hm⟩ := hints (.float x) (hfields ▸ List.mem_cons_self)
      cases hm
    | floats y ys =>
      have hsame : x :: xs = y :: ys :=
        List.map_injective_iff.mpr (fun _ _ => Field.float.inj) hfields
      obtain ⟨rfl, rfl⟩ := List.cons.inj hsame
      rfl

theorem IsAverage.unique {other : Option Field} (h : IsAverage fields old)
    (h' : IsAverage fields other) : old = other := by
  cases h with
  | none =>
    cases h' with
    | none => rfl
    | some hne => exact absurd rfl hne
  | @some _ xs hne hxs =>
    cases h' with
    | none => exact absurd rfl hne
    | @some _ ys _ hys =>
      rw [List.map_injective_iff.mpr (fun _ _ => Option.some.inj) (hxs.symm.trans hys)]

theorem IsAggregate.unique {op : AggregateOp} {other : Field} (h : IsAggregate op fields value)
    (h' : IsAggregate op fields other) : value = other := by
  cases h with
  | count =>
    cases h'
    rfl
  | min h =>
    cases h' with
    | min h' => rw [h.unique h']
  | max h =>
    cases h' with
    | max h' => rw [h.unique h']
  | sum h =>
    cases h' with
    | sum h' => rw [h.unique h']
  | avg h =>
    cases h' with
    | avg h' => rw [h.unique h']

theorem IsSum.fitsInt64 (h : IsSum fields old) : FitsInt64 (integerSum fields) := by
  cases h with
  | none => exact ⟨by decide, by decide⟩
  | @ints _ n hne hints hsum => exact hsum ▸ fitsInt64_toInt n
  | floats x xs =>
    have hzero (ys : List Binary64) : integerSum (ys.map .float) = 0 := by
      induction ys with
      | nil => rfl
      | cons y ys ih => exact ih
    rw [hzero]
    exact ⟨by decide, by decide⟩

end Sums

/-- What a tally has come to over the values of its column. -/
def Tally.Holds (fields : List Field) (t : Tally) : Prop :=
  t.count = fields.length ∧ match t.op with
    | .count => True
    | .min => IsEarliest .lt fields t.value
    | .max => IsEarliest .gt fields t.value
    | .sum => IsSum fields t.value
    | .avg => ∃ xs : List Binary64, fields.map Field.toBinary64? = xs.map some ∧
        t.total = xs.foldl .add (.ofNat 0)

namespace Tally

variable {schema : Schema} {t : Tally} {fields : List Field} {field : Field} {a : Attribute}

theorem holds_start (op : AggregateOp) (position : Nat) : (start op position).Holds [] := by
  refine ⟨rfl, ?_⟩
  cases op with
  | count => trivial
  | min => exact .none
  | max => exact .none
  | sum => exact .none
  | avg => exact ⟨[], rfl, rfl⟩

/-- A tally that takes a value holds what it should, and only a sum of integers can stop it. -/
theorem Holds.take (h : t.Holds fields)
    (hnumeric : t.op = .sum ∨ t.op = .avg → a.type.isNumeric = true)
    (hfields : ∀ f ∈ fields ++ [field], a.type.admits f = true ∧ f.isNull = false) :
    (∀ t', t.take field = .ok t' → t'.Holds (fields ++ [field])) ∧
      ∀ e, t.take field = .error e →
        t.op = .sum ∧ a.type = .int ∧ ¬FitsInt64 (integerSum (fields ++ [field])) := by
  have hordered : Field.AreOrdered (fields ++ [field]) :=
    Field.areOrdered_of_admits a.type fun f hf => (hfields f hf).1
  obtain ⟨hadmits, hnull⟩ := hfields field (List.mem_append_right _ List.mem_cons_self)
  have hbefore : ∀ f ∈ fields, a.type.admits f = true := fun f hf =>
    (hfields f (List.mem_append_left _ hf)).1
  obtain ⟨hcount, hvalue⟩ := h
  rcases t with ⟨op, position, count, value, total⟩
  have hlength : count + 1 = (fields ++ [field]).length := by
    rw [List.length_append]
    exact congrArg (· + 1) hcount
  unfold Tally.take
  rw [if_neg (by simp [hnull])]
  cases op with
  | count =>
    refine ⟨fun t' hok => ?_, fun _ herror => by cases herror⟩
    obtain rfl := Except.ok.inj hok
    exact ⟨hlength, trivial⟩
  | min =>
    refine ⟨fun t' hok => ?_, fun _ herror => by cases herror⟩
    obtain rfl := Except.ok.inj hok
    exact ⟨hlength, IsEarliest.better (by decide) hvalue hordered⟩
  | max =>
    refine ⟨fun t' hok => ?_, fun _ herror => by cases herror⟩
    obtain rfl := Except.ok.inj hok
    exact ⟨hlength, IsEarliest.better (by decide) hvalue hordered⟩
  | sum =>
    cases value with
    | none =>
      obtain rfl : fields = [] := by
        cases hvalue
        rfl
      refine ⟨fun t' hok => ?_, fun _ herror => by cases herror⟩
      obtain rfl := Except.ok.inj hok
      exact ⟨hlength, isSum_singleton (hnumeric (.inl rfl)) hadmits hnull⟩
    | some value =>
      obtain ⟨hsum, hstop⟩ := IsSum.add hvalue (hnumeric (.inl rfl)) hbefore hadmits hnull
      cases hadd : value.add field with
      | ok sum =>
        refine ⟨fun t' hok => ?_, fun _ herror => by simp [hadd, Except.map] at herror⟩
        simp only [hadd, Except.map] at hok
        obtain rfl := Except.ok.inj hok
        exact ⟨hlength, hsum sum hadd⟩
      | error e =>
        refine ⟨fun t' hok => by simp [hadd, Except.map] at hok, fun _ _ => ⟨rfl, hstop e hadd⟩⟩
  | avg =>
    obtain ⟨xs, hxs, htotal⟩ := hvalue
    obtain ⟨x, hx⟩ := exists_toBinary64?_of_numeric (hnumeric (.inr rfl)) hadmits hnull
    simp only [hx]
    refine ⟨fun t' hok => ?_, fun _ herror => by cases herror⟩
    obtain rfl := Except.ok.inj hok
    refine ⟨hlength, xs ++ [x], ?_, ?_⟩
    · rw [List.map_append, List.map_append, hxs, List.map_singleton, List.map_singleton, hx]
    · rw [List.foldl_append]
      exact congrArg (·.add x) htotal

theorem Holds.isAggregate (h : t.Holds fields) : IsAggregate t.op fields t.result := by
  obtain ⟨hcount, hvalue⟩ := h
  rcases t with ⟨op, position, count, value, total⟩
  obtain rfl : count = fields.length := hcount
  cases op with
  | count => exact .count fields
  | min => exact .min hvalue
  | max => exact .max hvalue
  | sum => exact .sum hvalue
  | avg =>
    obtain ⟨xs, hxs, htotal⟩ := hvalue
    obtain rfl : total = xs.foldl .add (.ofNat 0) := htotal
    by_cases hnone : fields = []
    · subst hnone
      exact .avg .none
    · have hsome := IsAggregate.avg (.some hnone hxs)
      rw [result]
      simpa [hnone] using hsome

end Tally

namespace Aggregate

variable {schema : Schema} {columns : List AggregateColumn} {rows : List Row} {row : Row}
  {ts : List Tally} {position : Nat} {a : Attribute}

/-- The values in a column of some rows, in the order of the rows. Null is not a value. -/
def valuesAt (position : Nat) (rows : List Row) : List Field :=
  (rows.filterMap (·[position]?)).filter (!·.isNull)

/-- Whether the running sum of a column of integers leaves the range of 64 bits. -/
def Overflows (schema : Schema) (columns : List AggregateColumn) (rows : List Row) : Prop :=
  ∃ position a k, .aggregate .sum position ∈ columns ∧ schema[position]? = some a ∧ a.type = .int ∧
    ¬FitsInt64 (integerSum (valuesAt position (rows.take k)))

theorem valuesAt_append (position : Nat) (rows more : List Row) :
    valuesAt position (rows ++ more) = valuesAt position rows ++ valuesAt position more := by
  simp [valuesAt]

theorem valuesAt_cons {field : Field} (h : row[position]? = some field) :
    valuesAt position (row :: rows) =
      if field.isNull then valuesAt position rows else field :: valuesAt position rows := by
  cases hnull : field.isNull <;> simp [valuesAt, h, hnull]

theorem isNull_of_mem_valuesAt : ∀ f ∈ valuesAt position rows, f.isNull = false := by
  intro f hf
  simpa using (List.mem_filter.mp hf).2

theorem mem_valuesAt (hrows : ∀ row ∈ rows, row.Conforms schema) (ha : schema[position]? = some a) :
    ∀ f ∈ valuesAt position rows, a.type.admits f = true ∧ f.isNull = false := by
  intro f hf
  obtain ⟨row, hrow, hfield⟩ := List.mem_filterMap.mp (List.mem_filter.mp hf).1
  exact ⟨(hrows row hrow).admits_of_getElem? ha hfield, isNull_of_mem_valuesAt f hf⟩

theorem Overflows.append (h : Overflows schema columns rows) (more : List Row) :
    Overflows schema columns (rows ++ more) := by
  obtain ⟨position, a, k, hcolumn, ha, hint, hout⟩ := h
  refine ⟨position, a, min k rows.length, hcolumn, ha, hint, ?_⟩
  rwa [List.take_append_of_le_length (Nat.min_le_right _ _), ← List.take_take, List.take_length]

/-- A tally that takes its field of a row holds what it should of one row more. -/
theorem holds_takeRow {t : Tally} (hfits : t.Fits schema) (h : t.Holds (valuesAt t.position rows))
    (hrows : ∀ row ∈ rows, row.Conforms schema) (hrow : row.Conforms schema) :
    (∀ t', t.takeRow row = .ok t' → t'.Holds (valuesAt t'.position (rows ++ [row]))) ∧
      ∀ e, t.takeRow row = .error e → t.op = .sum ∧ ∃ a, schema[t.position]? = some a ∧
        a.type = .int ∧ ¬FitsInt64 (integerSum (valuesAt t.position (rows ++ [row]))) := by
  obtain ⟨a, ha, hnumeric, -⟩ := hfits.exists_attribute
  obtain ⟨field, hfield, -⟩ := hrow.exists_field ha
  have htake : t.takeRow row = t.take field := by rw [Tally.takeRow, hfield]
  have hposition (t' : Tally) (hok : t.takeRow row = .ok t') : t'.position = t.position :=
    congrArg Prod.snd (Tally.label_of_takeRow hok)
  have hall : ∀ r ∈ rows ++ [row], r.Conforms schema :=
    List.forall_mem_append.mpr ⟨hrows, List.forall_mem_singleton.mpr hrow⟩
  have hfields := mem_valuesAt hall ha
  have hone : valuesAt t.position [row] = if field.isNull then [] else [field] :=
    valuesAt_cons hfield
  rw [valuesAt_append, hone] at hfields
  cases hnull : field.isNull with
  | true =>
    have hsame : t.takeRow row = .ok t := by rw [htake, Tally.take, if_pos hnull]
    refine ⟨fun t' hok => ?_, fun e herror => by cases hsame.symm.trans herror⟩
    obtain rfl := Except.ok.inj (hsame.symm.trans hok)
    rw [valuesAt_append, hone, if_pos hnull, List.append_nil]
    exact h
  | false =>
    rw [if_neg (by simp [hnull])] at hone hfields
    obtain ⟨hholds, hstops⟩ := h.take hnumeric hfields
    refine ⟨fun t' hok => ?_, fun e herror => ?_⟩
    · rw [hposition t' hok, valuesAt_append, hone]
      exact hholds t' (htake ▸ hok)
    · obtain ⟨hop, hint, hout⟩ := hstops e (htake ▸ herror)
      exact ⟨hop, a, ha, hint, by rwa [valuesAt_append, hone]⟩

theorem mem_label_iff (hlabels : ts.map Tally.label = columns.filterMap label?) {op : AggregateOp} :
    .aggregate op position ∈ columns ↔ ∃ t ∈ ts, t.label = (op, position) := by
  rw [← List.mem_map, hlabels, List.mem_filterMap]
  constructor
  · exact fun h => ⟨_, h, rfl⟩
  · rintro ⟨column, hcolumn, hlabel⟩
    cases column with
    | plain _ => cases hlabel
    | aggregate op' position' =>
      obtain ⟨rfl, rfl⟩ := Prod.mk.inj (Option.some.inj hlabel)
      exact hcolumn

/-- Over rows of a schema all tallies hold what they should, unless the sum of a column overflows. -/
theorem tally_spec (hcolumns : ∀ column ∈ columns, IsColumnOf schema column)
    (hrows : ∀ row ∈ rows, row.Conforms schema) :
    match tally columns rows with
    | .ok ts => ∀ t ∈ ts, t.Holds (valuesAt t.position rows)
    | .error _ => Overflows schema columns rows := by
  induction rows using List.reverseRecOn with
  | nil =>
    intro t ht
    obtain ⟨op, position, -, rfl⟩ := mem_tallies_iff.mp ht
    exact Tally.holds_start op position
  | append_singleton rows row ih =>
    obtain ⟨hrows, hrow⟩ := List.forall_mem_append.mp hrows
    have hrow := hrow row List.mem_cons_self
    have htallies := ih hrows
    rw [tally_append]
    cases hbefore : tally columns rows with
    | error e =>
      rw [hbefore] at htallies
      exact htallies.append [row]
    | ok ts =>
      rw [hbefore] at htallies
      have hareTallies := areTallies_of_tally hcolumns hrows hbefore
      have hstep : (Except.ok ts >>= [row].foldlM fun ts row => ts.mapM (Tally.takeRow row)) =
          ts.mapM (Tally.takeRow row) := by
        change (ts.mapM (Tally.takeRow row) >>= pure) = _
        rw [bind_pure]
      rw [hstep]
      cases hmapM : ts.mapM (Tally.takeRow row) with
      | error e =>
        obtain ⟨t, ht, herror⟩ := RunFile.exists_of_mapM_eq_error hmapM
        obtain ⟨hop, a, ha, hint, hout⟩ := (holds_takeRow (hareTallies.fits t ht) (htallies t ht)
          hrows hrow).2 e herror
        refine ⟨t.position, a, (rows ++ [row]).length, ?_, ha, hint, by rwa [List.take_length]⟩
        exact (mem_label_iff hareTallies.labels).mpr ⟨t, ht, by rw [Tally.label, hop]⟩
      | ok ts' =>
        intro t' ht'
        obtain ⟨t, ht, hok⟩ := exists_of_mem_mapM hmapM ht'
        exact (holds_takeRow (hareTallies.fits t ht) (htallies t ht) hrows hrow).1 t' hok

/-- If there are tallies of all rows, no sum has overflowed. -/
theorem not_overflows_of_tally (hcolumns : ∀ column ∈ columns, IsColumnOf schema column)
    (hrows : ∀ row ∈ rows, row.Conforms schema) (h : tally columns rows = .ok ts) :
    ¬Overflows schema columns rows := by
  rintro ⟨position, a, k, hcolumn, -, -, hout⟩
  have hfront : ∀ row ∈ rows.take k, row.Conforms schema := fun row hrow =>
    hrows row (List.mem_of_mem_take hrow)
  rw [← List.take_append_drop k rows, tally_append] at h
  obtain ⟨ts', hts', -⟩ := exists_of_bind_eq_ok h
  have hholds := tally_spec hcolumns hfront
  rw [hts'] at hholds
  obtain ⟨t, ht, hlabel⟩ := (mem_label_iff (map_label_of_tally hts')).mp hcolumn
  obtain ⟨-, hvalue⟩ := hholds t ht
  obtain ⟨hop, rfl⟩ := Prod.mk.inj hlabel
  rw [hop] at hvalue
  exact hout (IsSum.fitsInt64 hvalue)

end Aggregate
end PagedQuery
