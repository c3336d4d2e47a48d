import PagedQuery.Proofs.FieldOrder
import PagedQuery.Proofs.StableOrder
import PagedQuery.Reference

namespace PagedQuery
namespace Row

/-- Whether a row has all positions of a key. -/
def HasKey (key : List Nat) (row : Row) : Prop := ∀ i ∈ key, i < row.length

instance (key : List Nat) (row : Row) : Decidable (HasKey key row) :=
  inferInstanceAs (Decidable (∀ i ∈ key, i < row.length))

def keyOf (key : List Nat) (row : Row) : Row := key.map (row[·]?.getD .null)

theorem length_keyOf (key : List Nat) (row : Row) : (keyOf key row).length = key.length :=
  List.length_map _

theorem project?_of_hasKey {key : List Nat} {row : Row} (h : HasKey key row) :
    project? row key = some (keyOf key row) := by
  induction key with
  | nil => rfl
  | cons i key ih =>
    unfold HasKey at h
    rw [List.forall_mem_cons] at h
    obtain ⟨field, hfield⟩ : ∃ field, row[i]? = some field := ⟨_, List.getElem?_eq_getElem h.1⟩
    have hrest : key.mapM (row[·]?) = some (keyOf key row) := ih h.2
    simp [project?, hfield, hrest, keyOf]

/-- Rows are compared like their keys, for two keys of one length. -/
theorem compareOn?_of_hasKey {left right : List Nat} {a b : Row} (ha : HasKey left a)
    (hb : HasKey right b) (hlength : left.length = right.length) :
    compareOn? a b left right = some (Row.compare (keyOf left a) (keyOf right b)) := by
  induction left generalizing right with
  | nil =>
    cases right with
    | nil => rfl
    | cons j right => cases hlength
  | cons i left ih =>
    cases right with
    | nil => cases hlength
    | cons j right =>
      unfold HasKey at ha hb
      rw [List.forall_mem_cons] at ha hb
      obtain ⟨x, hx⟩ : ∃ x, a[i]? = some x := ⟨_, List.getElem?_eq_getElem ha.1⟩
      obtain ⟨y, hy⟩ : ∃ y, b[j]? = some y := ⟨_, List.getElem?_eq_getElem hb.1⟩
      have hrest := ih ha.2 hb.2 (Nat.succ.inj hlength)
      simp only [compareOn?, hx, hy, Option.bind_eq_bind, Option.bind_some, keyOf, List.map_cons,
        Option.getD_some, Row.compare]
      cases x.compare y with
      | eq => exact hrest
      | _ => rfl

/-- The rows in the order of the key, rows with equal keys in their given order. -/
def sortBy (key : List Nat) (descending : Bool) (rows : List Row) : List Row :=
  rows.mergeSort (precedesOn key descending)

theorem sortBy_perm (key : List Nat) (descending : Bool) (rows : List Row) :
    (sortBy key descending rows).Perm rows :=
  List.mergeSort_perm rows _

theorem eq_sortBy_of_sortOn? {key : List Nat} {descending : Bool} {rows sorted : List Row}
    (h : sortOn? key descending rows = some sorted) : sorted = sortBy key descending rows := by
  simp only [sortOn?, stableSort_eq_mergeSort] at h
  split at h
  · exact (Option.some.inj h).symm
  · cases h

theorem neighboursComparable_of_hasKey {key : List Nat} {rows : List Row}
    (h : ∀ row ∈ rows, HasKey key row) : neighboursComparable key rows = true := by
  induction rows with
  | nil => rfl
  | cons a rows ih =>
    cases rows with
    | nil => rfl
    | cons b rows =>
      rw [List.forall_mem_cons] at h
      have hb := h.2 b List.mem_cons_self
      rw [neighboursComparable, compareOn?_of_hasKey h.1 hb rfl, ih h.2]
      rfl

theorem sortOn?_of_hasKey {key : List Nat} {descending : Bool} {rows : List Row}
    (h : ∀ row ∈ rows, HasKey key row) :
    sortOn? key descending rows = some (sortBy key descending rows) := by
  have hsorted : neighboursComparable key (sortBy key descending rows) = true :=
    neighboursComparable_of_hasKey fun row hrow =>
      h row ((sortBy_perm key descending rows).mem_iff.mp hrow)
  rw [sortOn?, stableSort_eq_mergeSort]
  exact if_pos hsorted

theorem sort_perm (rows : List Row) : (sort rows).Perm rows := by
  rw [sort, stableSort_eq_mergeSort]
  exact List.mergeSort_perm _ _

theorem transCmp_comap {α β : Type} (f : α → β) {cmp : β → β → Ordering} (h : Std.TransCmp cmp) :
    Std.TransCmp fun a b => cmp (f a) (f b) where
  eq_swap := h.eq_swap
  isLE_trans := h.isLE_trans

theorem exists_transCmp {rows : List Row} {width : Nat} (hwidth : ∀ row ∈ rows, row.length = width)
    (hcolumns : ∀ i < width, Field.AreOrdered (rows.filterMap (·[i]?))) :
    ∃ cmp : Row → Row → Ordering, Std.TransCmp cmp ∧
      ∀ a ∈ rows, ∀ b ∈ rows, Row.compare a b = cmp a b := by
  induction width generalizing rows with
  | zero =>
    refine ⟨compareOn fun _ => 0, inferInstance, fun a ha b hb => ?_⟩
    rw [List.length_eq_zero_iff.mp (hwidth a ha), List.length_eq_zero_iff.mp (hwidth b hb)]
    rfl
  | succ width ih =>
    obtain ⟨first, hfirst, hagree⟩ := Field.exists_transCmp (hcolumns 0 (Nat.zero_lt_succ _))
    have htails : ∀ row ∈ rows.map List.tail, row.length = width := by
      intro row hrow
      obtain ⟨whole, hwhole, rfl⟩ := List.mem_map.mp hrow
      rw [List.length_tail, hwidth whole hwhole, Nat.add_sub_cancel]
    obtain ⟨rest, hrest, hagrees⟩ := ih htails fun i hi => by
      rw [List.filterMap_map]
      simpa [Function.comp_def] using hcolumns (i + 1) (Nat.succ_lt_succ hi)
    refine ⟨compareLex (fun a b => first (a.headD .null) (b.headD .null))
      (fun a b => rest a.tail b.tail), ?_, fun a ha b hb => ?_⟩
    · have hhead := transCmp_comap (fun row : Row => row.headD .null) hfirst
      have htail := transCmp_comap (List.tail : Row → Row) hrest
      infer_instance
    · have hrestab := hagrees a.tail (List.mem_map_of_mem ha) b.tail (List.mem_map_of_mem hb)
      have hheadab : ∀ x ∈ a.head?, ∀ y ∈ b.head?, x.compare y = first x y := fun x hx y hy =>
        hagree x (List.mem_filterMap.mpr ⟨a, ha, by rwa [← List.head?_eq_getElem?]⟩)
          y (List.mem_filterMap.mpr ⟨b, hb, by rwa [← List.head?_eq_getElem?]⟩)
      cases a with
      | nil => cases hwidth [] ha
      | cons x a =>
        cases b with
        | nil => cases hwidth [] hb
        | cons y b =>
          rw [Row.compare, hheadab x rfl y rfl]
          exact congrArg _ hrestab

theorem filterMap_keyOf {key : List Nat} {rows : List Row} (hkey : ∀ row ∈ rows, HasKey key row)
    {i : Nat} (hi : i < key.length) :
    (rows.map (keyOf key)).filterMap (·[i]?) = rows.filterMap (·[key[i]]?) := by
  induction rows with
  | nil => rfl
  | cons row rows ih =>
    rw [List.forall_mem_cons] at hkey
    obtain ⟨field, hfield⟩ : ∃ field, row[key[i]]? = some field :=
      ⟨_, List.getElem?_eq_getElem (hkey.1 _ (List.getElem_mem hi))⟩
    have hget : (keyOf key row)[i]? = some field := by
      rw [keyOf, List.getElem?_map, List.getElem?_eq_getElem hi, Option.map_some, hfield]
      rfl
    simp only [List.map_cons, List.filterMap_cons, hget, hfield, ih hkey.2]

/-- Whether rows can be ordered by a key: they have its positions, and so can be the columns. -/
structure AreOrderedOn (key : List Nat) (rows : List Row) : Prop where
  hasKey : ∀ row ∈ rows, HasKey key row
  columns : ∀ i ∈ key, Field.AreOrdered (rows.filterMap (·[i]?))

instance (key : List Nat) (rows : List Row) : Decidable (AreOrderedOn key rows) :=
  decidable_of_iff ((∀ row ∈ rows, HasKey key row) ∧
      ∀ i ∈ key, Field.AreOrdered (rows.filterMap (·[i]?)))
    ⟨fun h => ⟨h.1, h.2⟩, fun h => ⟨h.hasKey, h.columns⟩⟩

end Row

/-- The order of some rows by a key, as a transitive order of all rows. -/
structure KeyOrder (key : List Nat) (descending : Bool) (rows : List Row) where
  compare : Row → Row → Ordering
  transCmp : Std.TransCmp compare
  hasKey : ∀ row ∈ rows, Row.HasKey key row
  agrees : ∀ a ∈ rows, ∀ b ∈ rows,
    Row.directed descending (Row.compare (Row.keyOf key a) (Row.keyOf key b)) = compare a b

namespace KeyOrder

def ofKeys {key : List Nat} (descending : Bool) {rows : List Row} (cmp : Row → Row → Ordering)
    (htrans : Std.TransCmp cmp) (hkey : ∀ row ∈ rows, Row.HasKey key row)
    (hagrees : ∀ a ∈ rows, ∀ b ∈ rows,
      Row.compare (Row.keyOf key a) (Row.keyOf key b) = cmp (Row.keyOf key a) (Row.keyOf key b)) :
    KeyOrder key descending rows where
  compare a b := if descending then cmp (Row.keyOf key b) (Row.keyOf key a)
    else cmp (Row.keyOf key a) (Row.keyOf key b)
  transCmp := by
    have hkeys := Row.transCmp_comap (Row.keyOf key) htrans
    cases descending with
    | false => exact hkeys
    | true => exact hkeys.opposite
  hasKey := hkey
  agrees a ha b hb := by
    rw [hagrees a ha b hb]
    cases descending with
    | false => rfl
    | true => exact Std.OrientedCmp.eq_swap.symm

theorem nonempty_of_areOrderedOn {key : List Nat} {rows : List Row}
    (h : Row.AreOrderedOn key rows) (descending : Bool) :
    Nonempty (KeyOrder key descending rows) := by
  have hwidth : ∀ k ∈ rows.map (Row.keyOf key), k.length = key.length := by
    intro k hk
    obtain ⟨row, -, rfl⟩ := List.mem_map.mp hk
    exact Row.length_keyOf key row
  obtain ⟨cmp, htrans, hagrees⟩ := Row.exists_transCmp hwidth fun i hi => by
    rw [Row.filterMap_keyOf h.hasKey hi]
    exact h.columns _ (List.getElem_mem hi)
  exact ⟨ofKeys descending cmp htrans h.hasKey fun a ha b hb =>
    hagrees _ (List.mem_map_of_mem ha) _ (List.mem_map_of_mem hb)⟩

variable {key : List Nat} {descending : Bool} {rows part : List Row}

/-- Whether the first row may stand before the second. -/
def le (o : KeyOrder key descending rows) (a b : Row) : Bool := (o.compare a b).isLE

theorem orders (o : KeyOrder key descending rows) : Orders o.le where
  trans _ _ _ := o.transCmp.isLE_trans
  total a b := by
    have hswap := o.transCmp.eq_swap (a := a) (b := b)
    unfold le
    rw [hswap]
    cases o.compare b a <;> rfl

theorem compareDirected? (o : KeyOrder key descending rows) {a b : Row} (ha : a ∈ rows)
    (hb : b ∈ rows) :
    Row.compareDirected? a b key key descending = some (o.compare a b) := by
  rw [Row.compareDirected?, Row.compareOn?_of_hasKey (o.hasKey a ha) (o.hasKey b hb) rfl,
    Option.map_some, o.agrees a ha b hb]

theorem precedesOn_eq (o : KeyOrder key descending rows) {a b : Row} (ha : a ∈ rows)
    (hb : b ∈ rows) : Row.precedesOn key descending a b = o.le a b := by
  rw [Row.precedesOn, o.compareDirected? ha hb, le]
  cases o.compare a b <;> rfl

theorem sortBy_eq (o : KeyOrder key descending rows) (hpart : part ⊆ rows) :
    Row.sortBy key descending part = part.mergeSort o.le :=
  mergeSort_congr fun _ ha _ hb => o.precedesOn_eq (hpart ha) (hpart hb)

theorem sortOn?_eq (o : KeyOrder key descending rows) (hpart : part ⊆ rows) :
    Row.sortOn? key descending part = some (part.mergeSort o.le) := by
  rw [Row.sortOn?_of_hasKey fun row hrow => o.hasKey row (hpart hrow), o.sortBy_eq hpart]

end KeyOrder

end PagedQuery
