import PagedQuery.Field
import PagedQuery.Proofs.IntegerDoubles

/-!
# When the order of fields is transitive

Integers are compared exactly with each other and as doubles with doubles, so the order of fields
is not transitive where large integers meet doubles. Without doubles, or if all integers are exact
as doubles, it is the order of keys: the kind, the place of a number, and the text.
-/

namespace PagedQuery
namespace Field

/-- The place of a number, where `place` gives that of an integer. -/
def numberKey (place : Int64 → Int) : Field → Int
  | .int n => place n
  | .float x => x.orderKey
  | .string _ | .null => 0

def textKey : Field → String
  | .string s => s
  | _ => ""

/-- Fields in the order of their keys. -/
def compareBy (place : Int64 → Int) : Field → Field → Ordering :=
  compareLex (compareOn rank) (compareLex (compareOn (numberKey place)) (compareOn textKey))

instance (place : Int64 → Int) : Std.TransCmp (compareBy place) :=
  inferInstanceAs (Std.TransCmp (compareLex _ _))

/-- The place of an integer among integers. -/
def intPlace (n : Int64) : Int := n.toInt

/-- The place of an integer among doubles. -/
def doublePlace (n : Int64) : Int := (Binary64.ofInt n.toInt).orderKey

def IsNoFloat (f : Field) : Prop := ∀ x, f ≠ .float x

/-- Whether a field is an integer only if it has at most 53 bits. -/
def IsExact (f : Field) : Prop := ∀ n, f = .int n → n.toInt.natAbs ≤ Binary64.exactLimit

def isFloat : Field → Bool
  | .float _ => true
  | _ => false

theorem isFloat_eq_false_iff {f : Field} : f.isFloat = false ↔ f.IsNoFloat := by
  cases f <;> simp [isFloat, IsNoFloat]

instance : DecidablePred IsNoFloat := fun _ => decidable_of_iff _ isFloat_eq_false_iff

instance : DecidablePred IsExact
  | .int n => decidable_of_iff (n.toInt.natAbs ≤ Binary64.exactLimit)
      ⟨fun h _ heq => Field.int.inj heq ▸ h, fun h => h n rfl⟩
  | .float _ => isTrue fun _ h => by cases h
  | .string _ => isTrue fun _ h => by cases h
  | .null => isTrue fun _ h => by cases h

/-- Whether the values of a column can be ordered: there are no doubles, or all integers are exact
as doubles. -/
def AreOrdered (fields : List Field) : Prop :=
  (∀ f ∈ fields, f.IsNoFloat) ∨ ∀ f ∈ fields, f.IsExact

instance (fields : List Field) : Decidable (AreOrdered fields) :=
  inferInstanceAs (Decidable (_ ∨ _))

theorem compare_ofInt {n m : Int} (hn : n.natAbs ≤ Binary64.exactLimit)
    (hm : m.natAbs ≤ Binary64.exactLimit) :
    Ord.compare (Binary64.ofInt n).orderKey (Binary64.ofInt m).orderKey = Ord.compare n m := by
  rcases Int.lt_trichotomy n m with h | rfl | h
  · rw [Std.compare_eq_lt.mpr h, Std.compare_eq_lt.mpr (Binary64.orderKey_ofInt_lt hn hm h)]
  · rw [Std.compare_self, Std.compare_self]
  · rw [Std.compare_eq_gt.mpr h, Std.compare_eq_gt.mpr (Binary64.orderKey_ofInt_lt hm hn h)]

theorem compareBy_eq (place : Int64 → Int) (a b : Field) :
    compareBy place a b = (Ord.compare a.rank b.rank).then
      ((Ord.compare (a.numberKey place) (b.numberKey place)).then
        (Ord.compare a.textKey b.textKey)) := rfl

theorem compare_of_rank_ne {place : Int64 → Int} {a b : Field} (h : a.rank ≠ b.rank) :
    a.compare b = compareBy place a b := by
  have hrank : a.compare b = Ord.compare a.rank b.rank := by
    cases a <;> cases b <;> first | rfl | exact absurd rfl h
  have hne : Ord.compare a.rank b.rank ≠ .eq := fun heq => h (Std.LawfulEqOrd.eq_of_compare heq)
  rw [hrank, compareBy_eq]
  cases hcompare : Ord.compare a.rank b.rank with
  | eq => exact absurd hcompare hne
  | _ => rfl

theorem compare_of_number {place : Int64 → Int} {a b : Field} (ha : a.rank = 1) (hb : b.rank = 1)
    (h : a.compare b = Ord.compare (a.numberKey place) (b.numberKey place)) :
    a.compare b = compareBy place a b := by
  have htext : ∀ f : Field, f.rank = 1 → f.textKey = "" := by
    intro f hf
    cases f <;> first | rfl | cases hf
  rw [compareBy_eq, ha, hb, htext a ha, htext b hb, Std.compare_self, Std.compare_self, h]
  cases Ord.compare (a.numberKey place) (b.numberKey place) <;> rfl

theorem compare_eq_of_isNoFloat {a b : Field} (ha : a.IsNoFloat) (hb : b.IsNoFloat) :
    a.compare b = compareBy intPlace a b := by
  by_cases hrank : a.rank = b.rank
  · cases a with
    | int n =>
      cases b with
      | int m => exact compare_of_number rfl rfl rfl
      | float y => exact absurd rfl (hb y)
      | _ => cases hrank
    | float x => exact absurd rfl (ha x)
    | _ => cases b <;> rfl
  · exact compare_of_rank_ne hrank

/-- The order of fields is that of their places among the doubles, as far as it is for integers. -/
theorem compare_eq_of_ints {a b : Field} (hints : ∀ n m, a = .int n → b = .int m →
      Ord.compare n.toInt m.toInt = Ord.compare (doublePlace n) (doublePlace m)) :
    a.compare b = compareBy doublePlace a b := by
  by_cases hrank : a.rank = b.rank
  · cases a with
    | int n =>
      cases b with
      | int m => exact compare_of_number rfl rfl (hints n m rfl rfl)
      | float y => exact compare_of_number rfl rfl rfl
      | _ => cases hrank
    | float x =>
      cases b with
      | int m => exact compare_of_number rfl rfl rfl
      | float y => exact compare_of_number rfl rfl rfl
      | _ => cases hrank
    | _ => cases b <;> rfl
  · exact compare_of_rank_ne hrank

theorem compare_eq_of_isExact {a b : Field} (ha : a.IsExact) (hb : b.IsExact) :
    a.compare b = compareBy doublePlace a b :=
  compare_eq_of_ints fun n m hn hm => (compare_ofInt (ha n hn) (hb m hm)).symm

/-- On the values of a column that can be ordered, the order of fields is transitive. -/
theorem exists_transCmp {fields : List Field} (h : AreOrdered fields) :
    ∃ cmp : Field → Field → Ordering, Std.TransCmp cmp ∧
      ∀ a ∈ fields, ∀ b ∈ fields, a.compare b = cmp a b := by
  rcases h with h | h
  · exact ⟨compareBy intPlace, inferInstance, fun a ha b hb =>
      compare_eq_of_isNoFloat (h a ha) (h b hb)⟩
  · exact ⟨compareBy doublePlace, inferInstance, fun a ha b hb =>
      compare_eq_of_isExact (h a ha) (h b hb)⟩

end Field
end PagedQuery
