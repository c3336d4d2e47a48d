import PagedQuery.Proofs.KeyOrder
import PagedQuery.Schema

namespace PagedQuery

/-- Whether a column of this type can hold a field: null, or a value of the type's kind. -/
def DataType.admits : DataType → Field → Bool
  | _, .null => true
  | .int, .int _ => true
  | .float, .float _ => true
  | .string _, .string _ => true
  | _, _ => false

theorem DataType.admits_null (type : DataType) : type.admits .null = true := by
  cases type <;> rfl

theorem Field.areOrdered_of_admits (type : DataType) {fields : List Field}
    (h : ∀ f ∈ fields, type.admits f = true) : Field.AreOrdered fields := by
  cases type with
  | float =>
    refine .inr fun f hf n hn => ?_
    have hadmits := h f hf
    rw [hn] at hadmits
    cases hadmits
  | _ =>
    refine .inl fun f hf x hx => ?_
    have hadmits := h f hf
    rw [hx] at hadmits
    cases hadmits

theorem Schema.lt_length_of_find? {schema : Schema} {positions : List Nat}
    (h : positions.find? (schema.length ≤ ·) = none) : ∀ i ∈ positions, i < schema.length := by
  intro i hi
  have hwithin := List.find?_eq_none.mp h i hi
  exact Nat.lt_of_not_le fun hle => hwithin (decide_eq_true hle)

/-- Whether a row has one field for each attribute of a schema, null or of the attribute's kind. -/
def Row.Conforms (schema : Schema) (row : Row) : Prop :=
  List.Forall₂ (fun a field => a.type.admits field = true) schema row

instance (schema : Schema) (row : Row) : Decidable (Row.Conforms schema row) :=
  inferInstanceAs (Decidable (List.Forall₂ _ schema row))

namespace Row.Conforms

variable {schema other output : Schema} {row row' : Row} {a : Attribute} {i : Nat} {key : List Nat}

theorem length_eq (h : row.Conforms schema) : schema.length = row.length := List.Forall₂.length_eq h

theorem exists_field (h : row.Conforms schema) (ha : schema[i]? = some a) :
    ∃ f, row[i]? = some f ∧ a.type.admits f = true := by
  have hlength := h.length_eq
  obtain ⟨hi, rfl⟩ := List.getElem?_eq_some_iff.mp ha
  exact ⟨_, List.getElem?_eq_getElem (by omega), List.Forall₂.get h hi (by omega)⟩

theorem admits_of_getElem? (h : row.Conforms schema) {f : Field} (ha : schema[i]? = some a)
    (hf : row[i]? = some f) : a.type.admits f = true := by
  obtain ⟨f', hf', hadmits⟩ := h.exists_field ha
  rwa [Option.some.inj (hf.symm.trans hf')]

theorem hasKey (h : row.Conforms schema) (hkey : ∀ i ∈ key, i < schema.length) :
    Row.HasKey key row :=
  fun i hi => h.length_eq ▸ hkey i hi

theorem append (h : row.Conforms schema) (h' : row'.Conforms other) :
    (row ++ row').Conforms (schema ++ other) :=
  List.rel_append h h'

theorem keyOf (h : row.Conforms schema) (hselect : schema.select? key = some output) :
    (Row.keyOf key row).Conforms output := by
  induction key generalizing output with
  | nil =>
    obtain rfl := Option.some.inj hselect
    exact .nil
  | cons i key ih =>
    simp only [Schema.select?, List.mapM_cons, Option.bind_eq_bind, Option.bind_eq_some_iff] at hselect
    obtain ⟨a, ha, rest, hrest, hpair⟩ := hselect
    obtain rfl := Option.some.inj hpair
    obtain ⟨f, hf, hadmits⟩ := h.exists_field ha
    have hfirst : a.type.admits (row[i]?.getD .null) = true := by rwa [hf, Option.getD_some]
    exact .cons hfirst (ih hrest)

end Row.Conforms

/-- Rows of a schema can be ordered by the columns of any key. -/
theorem Row.areOrderedOn_of_conforms {schema : Schema} {rows : List Row} {key : List Nat}
    (h : ∀ row ∈ rows, row.Conforms schema) (hkey : ∀ i ∈ key, i < schema.length) :
    Row.AreOrderedOn key rows where
  hasKey row hrow := (h row hrow).hasKey hkey
  columns i hi := by
    apply Field.areOrdered_of_admits (schema.get ⟨i, hkey i hi⟩).type
    intro f hf
    obtain ⟨row, hrow, hfield⟩ := List.mem_filterMap.mp hf
    exact (h row hrow).admits_of_getElem? (List.getElem?_eq_getElem (hkey i hi)) hfield

end PagedQuery
