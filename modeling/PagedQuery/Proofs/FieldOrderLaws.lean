import Mathlib.Data.Set.Basic
import PagedQuery.Proofs.KeyOrder
import PagedQuery.Proofs.RoundedUnits

/-!
# The laws of the order of fields

Two fields compare as their places among the doubles do, and where both are integers that share a
place, as the integers do. So the order of all fields is antisymmetric, and standing before another
field is transitive, though being equal is not. On a set of fields without doubles, or with integers
that are exact as doubles, it is a total preorder. Rows then are compared transitively by keys drawn
from such sets, even if each row is read at positions of its own.
-/

namespace PagedQuery
namespace Field

variable {a b c : Field} {S : Set Field}

/-- Whether the fields of a set can be ordered: there are no doubles, or all integers are exact as
doubles. -/
def IsOrderable (S : Set Field) : Prop := (∀ f ∈ S, f.IsNoFloat) ∨ ∀ f ∈ S, f.IsExact

theorem IsOrderable.areOrdered (h : IsOrderable S) {fields : List Field} (hfields : ∀ f ∈ fields, f ∈ S) :
    AreOrdered fields :=
  h.imp (fun h f hf => h f (hfields f hf)) fun h f hf => h f (hfields f hf)

theorem compare_swap (a b : Field) : b.compare a = (a.compare b).swap := by
  cases a <;> cases b
  case null.null => rfl
  all_goals exact Std.OrientedOrd.eq_swap

theorem compareBy_int (place : Int64 → Int) (n m : Int64) :
    compareBy place (.int n) (.int m) = Ord.compare (place n) (place m) := by
  rw [compareBy_eq]
  change (Ord.compare (place n) (place m)).then .eq = _
  cases Ord.compare (place n) (place m) <;> rfl

theorem doublePlace_mono {n m : Int64} (h : n.toInt ≤ m.toInt) : doublePlace n ≤ doublePlace m :=
  Binary64.orderKey_ofInt_mono h

theorem compare_eq_lt_of_compareBy (h : compareBy doublePlace a b = .lt) : a.compare b = .lt := by
  by_cases hints : ∃ n m, a = .int n ∧ b = .int m
  · obtain ⟨n, m, rfl, rfl⟩ := hints
    rw [compareBy_int, Std.compare_eq_lt] at h
    exact Std.compare_eq_lt.mpr (Int.not_le.mp fun hle => Int.not_le.mpr h (doublePlace_mono hle))
  · rw [compare_eq_of_ints fun n m hn hm => absurd ⟨n, m, hn, hm⟩ hints]
    exact h

/-- A field stands before another one by its place, or as an integer before an integer. -/
theorem compareBy_or_ints_of_compare_eq_lt (h : a.compare b = .lt) :
    compareBy doublePlace a b = .lt ∨ ∃ n m, a = .int n ∧ b = .int m ∧ n.toInt < m.toInt := by
  by_cases hints : ∃ n m, a = .int n ∧ b = .int m
  · obtain ⟨n, m, rfl, rfl⟩ := hints
    exact .inr ⟨n, m, rfl, rfl, Std.compare_eq_lt.mp h⟩
  · rw [compare_eq_of_ints fun n m hn hm => absurd ⟨n, m, hn, hm⟩ hints] at h
    exact .inl h

theorem isLE_compareBy_of_lt {n m : Int64} (h : n.toInt < m.toInt) :
    (compareBy doublePlace (.int n) (.int m)).isLE = true := by
  rw [compareBy_int, Std.isLE_compare]
  exact doublePlace_mono (Int.le_of_lt h)

/-- Standing before another field is transitive, for all fields. -/
theorem compare_lt_trans (hab : a.compare b = .lt) (hbc : b.compare c = .lt) : a.compare c = .lt := by
  rcases compareBy_or_ints_of_compare_eq_lt hab with hab | ⟨n, m, rfl, rfl, hnm⟩
  · rcases compareBy_or_ints_of_compare_eq_lt hbc with hbc | ⟨m, k, rfl, rfl, hmk⟩
    · exact compare_eq_lt_of_compareBy (Std.TransCmp.lt_trans hab hbc)
    · exact compare_eq_lt_of_compareBy
        (Std.TransCmp.lt_of_lt_of_isLE hab (isLE_compareBy_of_lt hmk))
  · rcases compareBy_or_ints_of_compare_eq_lt hbc with hbc | ⟨m', k, hm, rfl, hmk⟩
    · exact compare_eq_lt_of_compareBy
        (Std.TransCmp.lt_of_isLE_of_lt (isLE_compareBy_of_lt hnm) hbc)
    · obtain rfl := Field.int.inj hm
      exact Std.compare_eq_lt.mpr (Int.lt_trans hnm hmk)

theorem equivalence_of_transCmp {α : Type} {cmp : α → α → Ordering} (h : Std.TransCmp cmp) :
    Equivalence fun a b => cmp a b = .eq :=
  ⟨fun _ => Std.ReflCmp.compare_self, Std.OrientedCmp.eq_symm, Std.TransCmp.eq_trans⟩

/-- On a set of fields that can be ordered, the order of fields is a total preorder. -/
theorem transCmp_of_isOrderable (h : IsOrderable S) :
    Std.TransCmp fun a b : S => a.1.compare b.1 where
  eq_swap := compare_swap _ _
  isLE_trans {a b c} hab hbc := by
    have hordered : AreOrdered [a.1, b.1, c.1] := h.areOrdered (by simp [a.2, b.2, c.2])
    obtain ⟨cmp, htrans, hcmp⟩ := exists_transCmp hordered
    rw [hcmp _ (by simp) _ (by simp)] at hab hbc ⊢
    exact htrans.isLE_trans hab hbc

end Field

namespace Row

variable {columns : Nat → Set Field} {key left middle right : List Nat} {a b c row : Row}

/-- Whether a row has a field at every position of a key, each in the set for its place in the key. -/
def IsDrawnFrom (columns : Nat → Set Field) (key : List Nat) (row : Row) : Prop :=
  ∀ k i, key[k]? = some i → ∃ f ∈ columns k, row[i]? = some f

theorem IsDrawnFrom.hasKey (h : IsDrawnFrom columns key row) : HasKey key row := by
  intro i hi
  obtain ⟨k, hk⟩ := List.getElem?_of_mem hi
  obtain ⟨f, -, hf⟩ := h k i hk
  exact (List.getElem?_eq_some_iff.mp hf).1

theorem IsDrawnFrom.mem_of_keyOf (h : IsDrawnFrom columns key row) {k : Nat} {f : Field}
    (hf : (keyOf key row)[k]? = some f) : f ∈ columns k := by
  rw [keyOf, List.getElem?_map, Option.map_eq_some_iff] at hf
  obtain ⟨i, hi, rfl⟩ := hf
  obtain ⟨g, hg, hrow⟩ := h k i hi
  rw [hrow]
  exact hg

/-- Three rows that are drawn from the same sets are compared in one transitive order, each at its own
positions. -/
theorem exists_transCmp_of_isDrawnFrom (hcolumns : ∀ k, Field.IsOrderable (columns k))
    (hmiddle : left.length = middle.length) (hright : middle.length = right.length)
    (ha : IsDrawnFrom columns left a) (hb : IsDrawnFrom columns middle b)
    (hc : IsDrawnFrom columns right c) :
    ∃ cmp : Row → Row → Ordering, Std.TransCmp cmp ∧
      compareOn? a b left middle = some (cmp (keyOf left a) (keyOf middle b)) ∧
      compareOn? b c middle right = some (cmp (keyOf middle b) (keyOf right c)) ∧
      compareOn? a c left right = some (cmp (keyOf left a) (keyOf right c)) := by
  have hwidth : ∀ k ∈ [keyOf left a, keyOf middle b, keyOf right c], k.length = left.length := by
    simp [length_keyOf, hmiddle, hright]
  obtain ⟨cmp, htrans, hcmp⟩ := exists_transCmp hwidth fun k _ => by
    refine (hcolumns k).areOrdered fun f hf => ?_
    obtain ⟨key, hkey, hf⟩ := List.mem_filterMap.mp hf
    simp only [List.mem_cons, List.not_mem_nil, or_false] at hkey
    obtain rfl | rfl | rfl := hkey
    · exact ha.mem_of_keyOf hf
    · exact hb.mem_of_keyOf hf
    · exact hc.mem_of_keyOf hf
  refine ⟨cmp, htrans, ?_, ?_, ?_⟩
  · rw [compareOn?_of_hasKey ha.hasKey hb.hasKey hmiddle, hcmp _ (by simp) _ (by simp)]
  · rw [compareOn?_of_hasKey hb.hasKey hc.hasKey hright, hcmp _ (by simp) _ (by simp)]
  · rw [compareOn?_of_hasKey ha.hasKey hc.hasKey (hmiddle.trans hright),
      hcmp _ (by simp) _ (by simp)]

theorem compareOn?_swap (a b : Row) (left right : List Nat) :
    compareOn? b a right left = (compareOn? a b left right).map Ordering.swap := by
  induction left generalizing right with
  | nil => cases right <;> rfl
  | cons i left ih =>
    cases right with
    | nil => rfl
    | cons j right =>
      rw [compareOn?, compareOn?]
      cases a[i]? with
      | none => cases b[j]? <;> rfl
      | some x =>
        cases b[j]? with
        | none => rfl
        | some y =>
          simp only [Option.bind_eq_bind, Option.bind_some]
          rw [Field.compare_swap x y]
          cases x.compare y with
          | eq => exact ih right
          | _ => rfl

end Row

/-- The laws of the order of fields, and what they mean for rows: comparing the other way round gives
the reverse, standing before is transitive, and a set of fields without doubles or with integers that
are exact as doubles is in a total preorder. Rows with keys from such sets compare transitively,
wherever each row has its key, and to compare in descending order is to exchange the rows. -/
theorem Field.orders_transitively :
    (∀ a b : Field, b.compare a = (a.compare b).swap) ∧
    (∀ a b c : Field, a.compare b = .lt → b.compare c = .lt → a.compare c = .lt) ∧
    (∀ S : Set Field, Field.IsOrderable S →
      (Equivalence fun a b : S => a.1.compare b.1 = .eq) ∧
      (∀ a ∈ S, ∀ b ∈ S, a.compare b ≠ .gt ∨ b.compare a ≠ .gt) ∧
      ∀ a ∈ S, ∀ b ∈ S, ∀ c ∈ S, a.compare b ≠ .gt → b.compare c ≠ .gt → a.compare c ≠ .gt) ∧
    (∀ (columns : Nat → Set Field) (a b c : Row) (left middle right : List Nat),
      (∀ k, Field.IsOrderable (columns k)) →
      left.length = middle.length → middle.length = right.length →
      Row.IsDrawnFrom columns left a → Row.IsDrawnFrom columns middle b →
      Row.IsDrawnFrom columns right c →
      ∃ x y z, Row.compareOn? a b left middle = some x ∧ Row.compareOn? b c middle right = some y ∧
        Row.compareOn? a c left right = some z ∧ (x ≠ .gt → y ≠ .gt → z ≠ .gt) ∧
        (x = .lt → y = .lt → z = .lt) ∧ (x = .eq → y = .eq → z = .eq)) ∧
    ∀ (a b : Row) (left right : List Nat),
      Row.compareDirected? a b left right true = Row.compareOn? b a right left := by
  refine ⟨Field.compare_swap, fun a b c => Field.compare_lt_trans, fun S hS => ?_, ?_, ?_⟩
  · have htrans := Field.transCmp_of_isOrderable hS
    refine ⟨Field.equivalence_of_transCmp htrans, fun a _ b _ => ?_,
      fun a ha b hb c hc hab hbc => ?_⟩
    · rw [Field.compare_swap a b]
      cases a.compare b <;> decide
    · have hle := htrans.isLE_trans (a := ⟨a, ha⟩) (b := ⟨b, hb⟩) (c := ⟨c, hc⟩)
      exact Ordering.isLE_iff_ne_gt.mp
        (hle (Ordering.isLE_iff_ne_gt.mpr hab) (Ordering.isLE_iff_ne_gt.mpr hbc))
  · intro columns a b c left middle right hcolumns hmiddle hright ha hb hc
    obtain ⟨cmp, htrans, hab, hbc, hac⟩ :=
      Row.exists_transCmp_of_isDrawnFrom hcolumns hmiddle hright ha hb hc
    refine ⟨_, _, _, hab, hbc, hac, fun h h' => ?_, Std.TransCmp.lt_trans, Std.TransCmp.eq_trans⟩
    exact Ordering.isLE_iff_ne_gt.mp
      (htrans.isLE_trans (Ordering.isLE_iff_ne_gt.mpr h) (Ordering.isLE_iff_ne_gt.mpr h'))
  · intro a b left right
    rw [Row.compareOn?_swap a b]
    rfl

/-- An integer, a double and a larger integer, each at another position, compare transitively: the
first stands before the third. -/
theorem Field.orders_transitively_mixedColumn :
    let exact : Set Field := fun f => f.IsExact
    let first : Row := [.int 1, .string "a"]
    let second : Row := [.null, .float ⟨0x3ff8000000000000⟩]
    let third : Row := [.string "c", .null, .int 2]
    Field.IsOrderable exact ∧ Row.IsDrawnFrom (fun _ => exact) [0] first ∧
      Row.IsDrawnFrom (fun _ => exact) [1] second ∧ Row.IsDrawnFrom (fun _ => exact) [2] third ∧
      Row.compareOn? first second [0] [1] = some .lt ∧
      Row.compareOn? second third [1] [2] = some .lt ∧
      Row.compareOn? first third [0] [2] = some .lt := by
  intro exact first second third
  have hexact : Field.IsOrderable exact := .inr fun _ hf => hf
  have hdrawn {i : Nat} {f : Field} {row : Row} (hf : f.IsExact) (hrow : row[i]? = some f) :
      Row.IsDrawnFrom (fun _ => exact) [i] row := by
    intro k j hj
    obtain rfl := List.mem_singleton.mp (List.mem_of_getElem? hj)
    exact ⟨f, hf, hrow⟩
  have hfirst : Row.IsDrawnFrom (fun _ => exact) [0] first :=
    hdrawn (f := .int 1) (by decide) rfl
  have hsecond : Row.IsDrawnFrom (fun _ => exact) [1] second :=
    hdrawn (f := .float ⟨0x3ff8000000000000⟩) (by decide) rfl
  have hthird : Row.IsDrawnFrom (fun _ => exact) [2] third :=
    hdrawn (f := .int 2) (by decide) rfl
  have hlow : Row.compareOn? first second [0] [1] = some .lt := by decide +kernel
  have hhigh : Row.compareOn? second third [1] [2] = some .lt := by decide +kernel
  obtain ⟨x, y, z, hx, hy, hz, -, hlt, -⟩ := Field.orders_transitively.2.2.2.1 (fun _ => exact)
    first second third [0] [1] [2] (fun _ => hexact) rfl rfl hfirst hsecond hthird
  refine ⟨hexact, hfirst, hsecond, hthird, hlow, hhigh, ?_⟩
  rw [hz, hlt (Option.some.inj (hx.symm.trans hlow)) (Option.some.inj (hy.symm.trans hhigh))]

end PagedQuery
