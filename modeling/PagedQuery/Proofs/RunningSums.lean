import PagedQuery.Proofs.ColumnFolds

/-!
# Which values an aggregate is defined on

A tally reads the field in its column of each row and takes it in unless it is null. A count, a
minimum and a maximum take every value, and an average takes numbers. A sum takes its first value
whatever it is, and from then on needs numbers on both sides, with a result in range where both are
integers. So a sum over a single value is that value, also if it is no number.
-/

namespace PagedQuery

section Lists

variable {α β : Type}

/-- What holds of all fronts of a list holds of the empty one and of all with its first item. -/
theorem forall_take_cons {P : List α → Prop} {a : α} {as : List α} :
    (∀ k, P ((a :: as).take k)) ↔ P [] ∧ ∀ k, P (a :: as.take k) := by
  constructor
  · exact fun h => ⟨h 0, fun k => h (k + 1)⟩
  · rintro ⟨hnil, hcons⟩ (_ | k)
    · exact hnil
    · exact hcons k

end Lists

namespace Field

variable {v w f : Field} {fields : List Field}

def IsInt (f : Field) : Prop := ∃ n, f = .int n

def IsNumber (f : Field) : Prop := f.IsInt ∨ ∃ x, f = .float x

theorem isNumber_iff : f.IsNumber ↔ ∃ x, f.toBinary64? = some x := by
  cases f <;> simp [IsNumber, IsInt, toBinary64?]

theorem not_isNumber_string (s : String) : ¬(string s).IsNumber := by
  simp [IsNumber, IsInt]

/-- Two fields have a sum exactly if both are numbers and the sum of two integers is in range. -/
theorem exists_add_iff : (∃ w, v.add f = .ok w) ↔
    (v.IsNumber ∧ f.IsNumber) ∧ ∀ n m, v = .int n → f = .int m → FitsInt64 (n.toInt + m.toInt) := by
  cases v with
  | int n =>
    cases f with
    | int m =>
      rw [add]
      cases hsum : int64? (n.toInt + m.toInt) with
      | some k =>
        have hfits : FitsInt64 (n.toInt + m.toInt) := toInt_of_int64? hsum ▸ fitsInt64_toInt k
        simp [IsNumber, IsInt, hfits]
      | none => simp [IsNumber, IsInt, not_fitsInt64_of_int64? hsum]
    | _ => simp [add, IsNumber, IsInt]
  | float x => cases f <;> simp [add, IsNumber, IsInt]
  | _ => simp [add, IsNumber, IsInt]

theorem isNumber_of_add (h : v.add f = .ok w) : w.IsNumber := by
  cases v with
  | int n =>
    cases f with
    | int m =>
      rw [add] at h
      split at h
      · exact .inl ⟨_, (Except.ok.inj h).symm⟩
      · cases h
    | float y => exact .inr ⟨_, (Except.ok.inj h).symm⟩
    | _ => cases h
  | float x =>
    cases f with
    | int m => exact .inr ⟨_, (Except.ok.inj h).symm⟩
    | float y => exact .inr ⟨_, (Except.ok.inj h).symm⟩
    | _ => cases h
  | _ => cases h

/-- Whether the sum of the first of some fields is one of 64 bits, for as many as are integers. -/
def StaysInRange (fields : List Field) : Prop :=
  ∀ k, (∀ f ∈ fields.take k, f.IsInt) → FitsInt64 (integerSum (fields.take k))

theorem integerSum_cons (f : Field) (fields : List Field) :
    integerSum (f :: fields) = f.integer + integerSum fields := by
  induction fields using List.reverseRecOn with
  | nil => exact (Int.zero_add _).trans (Int.add_zero _).symm
  | append_singleton fields g ih =>
    rw [← List.cons_append, integerSum_concat, integerSum_concat, ih, Int.add_assoc]

theorem fitsInt64_zero : FitsInt64 0 := by decide

theorem IsInt.fitsInt64_integer (h : f.IsInt) : FitsInt64 f.integer := by
  obtain ⟨n, rfl⟩ := h
  exact fitsInt64_toInt n

theorem staysInRange_cons_iff : StaysInRange (v :: fields) ↔ ∀ k, v.IsInt →
    (∀ f ∈ fields.take k, f.IsInt) → FitsInt64 (v.integer + integerSum (fields.take k)) := by
  refine (forall_take_cons (P := fun front => (∀ f ∈ front, f.IsInt) →
    FitsInt64 (integerSum front))).trans ?_
  simp only [List.forall_mem_cons, integerSum_cons, and_imp]
  exact and_iff_right fun _ => fitsInt64_zero

theorem staysInRange_cons_cons_iff : StaysInRange (v :: f :: fields) ↔ ∀ k, v.IsInt → f.IsInt →
    (∀ g ∈ fields.take k, g.IsInt) →
      FitsInt64 (v.integer + (f.integer + integerSum (fields.take k))) := by
  rw [staysInRange_cons_iff]
  refine (forall_take_cons (P := fun front => v.IsInt → (∀ g ∈ front, g.IsInt) →
    FitsInt64 (v.integer + integerSum front))).trans ?_
  simp only [List.forall_mem_cons, integerSum_cons, and_imp]
  exact and_iff_right fun hv _ => (Int.add_zero v.integer).symm ▸ hv.fitsInt64_integer

theorem staysInRange_singleton (v : Field) : StaysInRange [v] := by
  refine staysInRange_cons_iff.mpr fun k hv _ => ?_
  rw [List.take_nil]
  exact (Int.add_zero v.integer).symm ▸ hv.fitsInt64_integer

theorem staysInRange_of_add (h : v.add f = .ok w) :
    StaysInRange (v :: f :: fields) ↔ StaysInRange (w :: fields) := by
  rw [staysInRange_cons_cons_iff, staysInRange_cons_iff]
  refine forall_congr' fun k => ?_
  cases v with
  | int n =>
    cases f with
    | int m =>
      rw [add] at h
      cases hsum : int64? (n.toInt + m.toInt) with
      | none =>
        rw [hsum] at h
        cases h
      | some total =>
        rw [hsum] at h
        obtain rfl := Except.ok.inj h
        simp [IsInt, integer, toInt_of_int64? hsum, Int.add_assoc]
    | float y =>
      obtain rfl := Except.ok.inj h
      simp [IsInt]
    | _ => cases h
  | float x =>
    cases f with
    | int m =>
      obtain rfl := Except.ok.inj h
      simp [IsInt]
    | float y =>
      obtain rfl := Except.ok.inj h
      simp [IsInt]
    | _ => cases h
  | _ => cases h

/-- A running sum takes all values, if any, exactly if all are numbers and it stays in range. -/
theorem exists_foldlM_add_iff : (∃ w, fields.foldlM add v = .ok w) ↔
    ((∀ f ∈ v :: fields, f.IsNumber) ∨ fields = []) ∧ StaysInRange (v :: fields) := by
  induction fields generalizing v with
  | nil => exact iff_of_true ⟨v, rfl⟩ ⟨.inr rfl, staysInRange_singleton v⟩
  | cons f fields ih =>
    simp only [List.foldlM_cons, bind_eq_ok_iff, reduceCtorEq, or_false]
    constructor
    · rintro ⟨w, u, hu, hw⟩
      obtain ⟨hnumbers, hrange⟩ := ih.mp ⟨w, hw⟩
      obtain ⟨⟨hv, hf⟩, -⟩ := exists_add_iff.mp ⟨u, hu⟩
      refine ⟨List.forall_mem_cons.mpr ⟨hv, List.forall_mem_cons.mpr ⟨hf, ?_⟩⟩,
        (staysInRange_of_add hu).mpr hrange⟩
      rcases hnumbers with hall | rfl
      · exact (List.forall_mem_cons.mp hall).2
      · exact List.forall_mem_nil _
    · rintro ⟨hall, hrange⟩
      obtain ⟨hv, hall⟩ := List.forall_mem_cons.mp hall
      obtain ⟨hf, hall⟩ := List.forall_mem_cons.mp hall
      have hfirst (n m : Int64) (hn : v = .int n) (hm : f = .int m) :
          FitsInt64 (n.toInt + m.toInt) := by
        subst hn hm
        have htwo := hrange 2 (by simp [IsInt])
        simpa [integerSum, integer] using htwo
      obtain ⟨u, hu⟩ := exists_add_iff.mpr ⟨⟨hv, hf⟩, hfirst⟩
      obtain ⟨w, hw⟩ := ih.mpr ⟨.inl (List.forall_mem_cons.mpr ⟨isNumber_of_add hu, hall⟩),
        (staysInRange_of_add hu).mp hrange⟩
      exact ⟨w, u, hu, hw⟩

theorem isNumber_of_foldlM_add (h : fields.foldlM add v = .ok w) :
    w.IsNumber ∨ fields = [] ∧ w = v := by
  induction fields generalizing v with
  | nil => exact .inr ⟨rfl, (Except.ok.inj h).symm⟩
  | cons f fields ih =>
    obtain ⟨u, hu, hrest⟩ := bind_eq_ok_iff.mp h
    rcases ih hrest with hw | ⟨-, rfl⟩
    · exact .inl hw
    · exact .inl (isNumber_of_add hu)

end Field

/-- Whether an aggregate is defined on some values: a sum and an average on numbers, a sum if it stays
in range. -/
structure AggregateOp.IsDefinedOn (op : AggregateOp) (fields : List Field) : Prop where
  numbers : op = .sum ∨ op = .avg → ∀ f ∈ fields, f.IsNumber
  inRange : op = .sum → Field.StaysInRange fields

namespace Tally

variable {op : AggregateOp} {position : Nat} {t t' : Tally} {field : Field} {fields : List Field}

theorem take_of_isNull (h : field.isNull = true) : t.take field = .ok t := if_pos h

/-- A value that is added to others is taken in exactly if the aggregate allows it. -/
theorem exists_take_iff (hop : t.op ≠ .sum) (hnull : field.isNull = false) :
    (∃ t', t.take field = .ok t') ↔ (t.op = .avg → field.IsNumber) := by
  rcases t with ⟨op, position, count, value, total⟩
  unfold take
  rw [if_neg (by simp [hnull])]
  cases op with
  | sum => exact absurd rfl hop
  | avg =>
    rw [forall_prop_of_true rfl, Field.isNumber_iff]
    cases field.toBinary64? <;> simp
  | _ => simp

theorem exists_foldlM_take_iff (hop : t.op ≠ .sum) (hnull : ∀ f ∈ fields, f.isNull = false) :
    (∃ t', fields.foldlM take t = .ok t') ↔ (t.op = .avg → ∀ f ∈ fields, f.IsNumber) := by
  induction fields generalizing t with
  | nil => exact iff_of_true ⟨t, rfl⟩ fun _ => List.forall_mem_nil _
  | cons f fields ih =>
    rw [List.forall_mem_cons] at hnull
    have hfirst := exists_take_iff hop hnull.1
    simp only [List.foldlM_cons, bind_eq_ok_iff, List.forall_mem_cons, imp_and]
    rw [← hfirst]
    constructor
    · rintro ⟨t', u, hu, hrest⟩
      have hlabel : u.op = t.op := congrArg Prod.fst (label_of_take hu)
      exact ⟨⟨u, hu⟩, hlabel ▸ (ih (hlabel ▸ hop) hnull.2).mp ⟨t', hrest⟩⟩
    · rintro ⟨⟨u, hu⟩, hrest⟩
      have hlabel : u.op = t.op := congrArg Prod.fst (label_of_take hu)
      obtain ⟨t', ht'⟩ := (ih (hlabel ▸ hop) hnull.2).mpr (hlabel ▸ hrest)
      exact ⟨t', u, hu, ht'⟩

theorem foldlM_take_sum {count : Nat} {v : Field} {total : Binary64}
    (hnull : ∀ f ∈ fields, f.isNull = false) :
    fields.foldlM take ⟨.sum, position, count, some v, total⟩ =
      (fields.foldlM Field.add v).map
        fun w => ⟨.sum, position, count + fields.length, some w, total⟩ := by
  induction fields generalizing count v with
  | nil => rfl
  | cons f fields ih =>
    rw [List.forall_mem_cons] at hnull
    rw [List.foldlM_cons, List.foldlM_cons, take, if_neg (by simp [hnull.1])]
    cases hsum : v.add f with
    | error e => simp [hsum, Except.map, bind, Except.bind]
    | ok w =>
      simp only [hsum, Except.map, bind, Except.bind]
      rw [ih hnull.2, List.length_cons, Nat.add_right_comm, Nat.add_assoc]
      rfl

theorem foldlM_take_start_sum {v : Field} (hnull : ∀ f ∈ v :: fields, f.isNull = false) :
    (v :: fields).foldlM take (start .sum position) =
      (fields.foldlM Field.add v).map
        fun w => ⟨.sum, position, 1 + fields.length, some w, .ofNat 0⟩ := by
  rw [List.forall_mem_cons] at hnull
  have hfirst : take (start .sum position) v = .ok ⟨.sum, position, 1, some v, .ofNat 0⟩ :=
    if_neg (by simp [hnull.1])
  rw [List.foldlM_cons, hfirst]
  exact foldlM_take_sum hnull.2

/-- An aggregate takes the values that it is defined on, and a sum also a single one of any kind. -/
theorem exists_foldlM_take_start_iff (hnull : ∀ f ∈ fields, f.isNull = false) :
    (∃ t, fields.foldlM take (start op position) = .ok t) ↔
      op.IsDefinedOn fields ∨ op = .sum ∧ fields.length = 1 := by
  by_cases hop : op = .sum
  · subst hop
    cases fields with
    | nil =>
      refine iff_of_true ⟨_, rfl⟩ (.inl ⟨fun _ => List.forall_mem_nil _, fun _ k _ => ?_⟩)
      rw [List.take_nil]
      exact Field.fitsInt64_zero
    | cons v fields =>
      have hfold : (∃ t, (v :: fields).foldlM take (start .sum position) = .ok t) ↔
          ∃ w, fields.foldlM Field.add v = .ok w := by
        rw [foldlM_take_start_sum hnull]
        cases fields.foldlM Field.add v <;> simp [Except.map]
      rw [hfold, Field.exists_foldlM_add_iff]
      constructor
      · rintro ⟨hall | rfl, hrange⟩
        · exact .inl ⟨fun _ => hall, fun _ => hrange⟩
        · exact .inr ⟨rfl, rfl⟩
      · rintro (⟨hnumbers, hrange⟩ | ⟨-, hone⟩)
        · exact ⟨.inl (hnumbers (.inl rfl)), hrange rfl⟩
        · obtain rfl : fields = [] := List.length_eq_zero_iff.mp (Nat.succ.inj hone)
          exact ⟨.inr rfl, Field.staysInRange_singleton v⟩
  · rw [exists_foldlM_take_iff hop hnull]
    constructor
    · exact fun h => .inl ⟨fun hsum => h (hsum.resolve_left hop), fun hsum => absurd hsum hop⟩
    · rintro (h | ⟨hsum, -⟩)
      · exact fun havg => h.numbers (.inr havg)
      · exact absurd hsum hop

/-- A sum comes to null, to a number or to its only value. -/
theorem result_of_foldlM_take_sum (hnull : ∀ f ∈ fields, f.isNull = false)
    (h : fields.foldlM take (start .sum position) = .ok t) :
    t.result = .null ∨ t.result.IsNumber ∨ fields = [t.result] := by
  cases fields with
  | nil =>
    obtain rfl := Except.ok.inj h
    exact .inl rfl
  | cons v fields =>
    rw [foldlM_take_start_sum hnull] at h
    cases hsum : fields.foldlM Field.add v with
    | error e =>
      rw [hsum] at h
      cases h
    | ok w =>
      rw [hsum] at h
      obtain rfl := Except.ok.inj h
      rcases Field.isNumber_of_foldlM_add hsum with hw | ⟨rfl, rfl⟩
      · exact .inr (.inl hw)
      · exact .inr (.inr rfl)

end Tally

namespace Aggregate

variable {rows : List Row} {t t' : Tally}

/-- A tally takes rows in by taking the values in its column, which all of them must have. -/
theorem foldlM_takeRow_eq_ok_iff : rows.foldlM (fun t row => t.takeRow row) t = .ok t' ↔
    (∀ row ∈ rows, t.position < row.length) ∧
      (valuesAt t.position rows).foldlM Tally.take t = .ok t' := by
  induction rows generalizing t with
  | nil => exact (and_iff_right (List.forall_mem_nil _)).symm
  | cons row rows ih =>
    rw [List.foldlM_cons, bind_eq_ok_iff, List.forall_mem_cons, Tally.takeRow]
    by_cases hposition : t.position < row.length
    · have hfield : row[t.position]? = some row[t.position] := List.getElem?_eq_getElem hposition
      rw [hfield, valuesAt_cons hfield, and_iff_right hposition]
      cases hnull : row[t.position].isNull with
      | true =>
        simp only [Tally.take_of_isNull hnull, Except.ok.injEq, exists_eq_left', ih, if_true]
      | false =>
        simp only [List.foldlM_cons, bind_eq_ok_iff, ih, Bool.false_eq_true, if_false]
        constructor
        · rintro ⟨u, hu, hlong, hrest⟩
          have hlabel : u.position = t.position := congrArg Prod.snd (Tally.label_of_take hu)
          rw [hlabel] at hlong hrest
          exact ⟨hlong, u, hu, hrest⟩
        · rintro ⟨hlong, u, hu, hrest⟩
          have hlabel : u.position = t.position := congrArg Prod.snd (Tally.label_of_take hu)
          rw [← hlabel] at hlong hrest
          exact ⟨u, hu, hlong, hrest⟩
    · rw [List.getElem?_eq_none (Nat.le_of_not_lt hposition)]
      simp [hposition]

end Aggregate
end PagedQuery
