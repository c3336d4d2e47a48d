import Mathlib.Data.List.Forall2
import PagedQuery.Row
import PagedQuery.Proofs.IntegerDoubles

/-!
# What equal fields feed to a hash

The order of fields tells apart any two bit patterns of doubles, and a hash is fed the bits of the
double that a number is. So equal fields are fed alike, and rows of equal fields too. The converse
fails for integers only: two of them may round to one double.
-/

namespace PagedQuery

namespace Binary64

variable {x y : Binary64}

theorem bits_inj : x.bits = y.bits ↔ x = y := by
  cases x
  cases y
  rw [mk.injEq]

theorem orderKey_inj : x.orderKey = y.orderKey ↔ x = y := by
  refine ⟨fun h => ?_, congrArg orderKey⟩
  have hx := x.bits.toNat_lt
  have hy := y.bits.toNat_lt
  rw [← bits_inj, ← UInt64.toNat_inj]
  simp only [orderKey, isNegative, magnitude, word, signBit] at h
  grind

theorem compare_eq_eq_iff : x.compare y = .eq ↔ x = y := by
  rw [compare, Std.compare_eq_iff_eq, orderKey_inj]

end Binary64

namespace HashItem

variable {as bs : List HashItem}

theorem alike_of_eq (h : as = bs) : alike as bs = true := by
  rw [h, alike, beq_self_eq_true]

theorem alike_word_iff {x y : UInt64} : alike [.word x] [.word y] = true ↔ x = y := by
  refine ⟨fun h => ?_, fun h => alike_of_eq (congrArg (fun z => [HashItem.word z]) h)⟩
  have hbytes : littleEndian 8 x.toNat = littleEndian 8 y.toNat := by
    simpa [alike, bytes] using h
  have hread := congrArg ofLittleEndian hbytes
  rw [ofLittleEndian_littleEndian x.toNat_lt, ofLittleEndian_littleEndian y.toNat_lt] at hread
  exact UInt64.toNat_inj.mp hread

end HashItem

namespace Field

variable {a b : Field} {x y : Binary64}

/-- A number feeds the bits of the double that it is. -/
theorem hashInput_of_toBinary64? (h : a.toBinary64? = some x) : a.hashInput = [.word x.bits] := by
  cases a with
  | int n => rw [hashInput, Option.some.inj h]
  | float y => rw [hashInput, Option.some.inj h]
  | string s => cases h
  | null => cases h

/-- Numbers are fed alike if they are the same double. -/
theorem hashInput_eq_iff_bits (ha : a.toBinary64? = some x) (hb : b.toBinary64? = some y) :
    a.hashInput = b.hashInput ↔ x.bits = y.bits := by
  rw [hashInput_of_toBinary64? ha, hashInput_of_toBinary64? hb, List.singleton_inj,
    HashItem.word.injEq]

theorem hashesLike_iff_bits (ha : a.toBinary64? = some x) (hb : b.toBinary64? = some y) :
    a.hashesLike b = true ↔ x.bits = y.bits := by
  rw [hashesLike, hashInput_of_toBinary64? ha, hashInput_of_toBinary64? hb,
    HashItem.alike_word_iff]

/-- Whether two fields are integers that round to one double. -/
def RoundAlike (a b : Field) : Prop :=
  ∃ n m, a = .int n ∧ b = .int m ∧ Binary64.ofInt n.toInt = Binary64.ofInt m.toInt

theorem not_roundAlike_of_float : ¬a.RoundAlike (.float x) ∧ ¬(Field.float x).RoundAlike a := by
  constructor
  · rintro ⟨_, _, -, hfloat, -⟩
    cases hfloat
  · rintro ⟨_, _, hfloat, -, -⟩
    cases hfloat

/-- Fields are fed alike if they are equal or integers that round to one double, and only then. -/
theorem hashInput_eq_iff {a b : Field} :
    a.hashInput = b.hashInput ↔ a.equals b = true ∨ a.RoundAlike b := by
  rw [equals, beq_iff_eq]
  -- Fields of different kinds feed different items, and their ranks differ.
  cases a <;> cases b
  case int.int n m =>
    have hequal : Field.compare (.int n) (.int m) = .eq → n = m := fun h =>
      Int64.toInt_inj.mp (Std.compare_eq_iff_eq.mp h)
    have hround : RoundAlike (.int n) (.int m) ↔
        Binary64.ofInt n.toInt = Binary64.ofInt m.toInt := by simp [RoundAlike]
    rw [hashInput_eq_iff_bits rfl rfl, Binary64.bits_inj, hround]
    exact (or_iff_right_of_imp fun h => congrArg (Binary64.ofInt ·.toInt) (hequal h)).symm
  case int.float | float.int | float.float =>
    rw [hashInput_eq_iff_bits rfl rfl, Binary64.bits_inj, ← Binary64.compare_eq_eq_iff]
    first
      | exact (or_iff_left not_roundAlike_of_float.1).symm
      | exact (or_iff_left not_roundAlike_of_float.2).symm
  case string.string s t =>
    have hequal : Field.compare (.string s) (.string t) = .eq ↔ s = t := Std.compare_eq_iff_eq
    rw [hequal]
    simp [hashInput, RoundAlike]
  case null.null => exact iff_of_true rfl (.inl rfl)
  all_goals
    refine iff_of_false nofun ?_
    rintro (hcompare | ⟨_, _, hleft, hright, -⟩)
    · cases hcompare
    · cases hleft <;> cases hright

/-- An integer equals a double if the two are fed alike. -/
theorem equals_int_float_iff {n : Int64} :
    (Field.int n).equals (.float x) = true ↔ (Field.int n).hashInput = (Field.float x).hashInput := by
  rw [hashInput_eq_iff]
  exact (or_iff_left not_roundAlike_of_float.1).symm

theorem exists_item (f : Field) : ∃ item, f.hashInput = [item] := by
  cases f <;> exact ⟨_, rfl⟩

end Field

namespace Row

variable {a b : Row}

theorem equals_iff_forall₂ : a.equals b = true ↔ List.Forall₂ (·.equals · = true) a b := by
  induction a generalizing b with
  | nil => cases b <;> simp [equals]
  | cons f a ih => cases b <;> simp [equals, ih]

/-- Rows are fed alike if their fields are, one by one. -/
theorem hashInput_eq_iff_forall₂ :
    hashInput a = hashInput b ↔ List.Forall₂ (·.hashInput = ·.hashInput) a b := by
  have hfields : a.flatMap Field.hashInput = b.flatMap Field.hashInput ↔
      List.Forall₂ (·.hashInput = ·.hashInput) a b := by
    induction a generalizing b with
    | nil =>
      cases b with
      | nil => simp
      | cons g b =>
        obtain ⟨item, hitem⟩ := g.exists_item
        simp [hitem]
    | cons f a ih =>
      obtain ⟨item, hitem⟩ := f.exists_item
      cases b with
      | nil => simp [hitem]
      | cons g b =>
        obtain ⟨item', hitem'⟩ := g.exists_item
        simp [hitem, hitem', ih]
  rw [hashInput, hashInput, List.cons_eq_cons, hfields, HashItem.length.injEq]
  exact and_iff_right_of_imp List.Forall₂.length_eq

/-- Equal rows feed the same items to a hash, so it cannot tell them apart. Rows feed the same items
exactly if their fields, one by one, are equal or are integers that round to one double. -/
theorem feeds_equal_rows_alike :
    (∀ a b : Row, a.equals b = true → a.hashInput = b.hashInput ∧ a.hashesLike b = true) ∧
    (∀ a b : Row, a.hashInput = b.hashInput ↔
      List.Forall₂ (fun f g => f.equals g = true ∨ f.RoundAlike g) a b) ∧
    (∀ (f g : Field) (x y : Binary64), f.toBinary64? = some x → g.toBinary64? = some y →
      (f.hashInput = g.hashInput ↔ x.bits = y.bits) ∧
      (f.hashesLike g = true ↔ x.bits = y.bits)) ∧
    (∀ (n : Int64) (x : Binary64), (Field.int n).equals (.float x) = true ↔
      (Field.int n).hashInput = (Field.float x).hashInput) ∧
    (∀ f g : Field, f.equals g = true → f.hashInput = g.hashInput) ∧
    ∃ n m : Int64, (Field.int n).equals (.int m) = false ∧
      (Field.int n).hashInput = (Field.int m).hashInput := by
  have hrows (a b : Row) : a.hashInput = b.hashInput ↔
      List.Forall₂ (fun f g => f.equals g = true ∨ f.RoundAlike g) a b := by
    rw [hashInput_eq_iff_forall₂]
    simp only [Field.hashInput_eq_iff]
  refine ⟨fun a b h => ?_, hrows, fun f g x y hf hg => ?_, fun n x => Field.equals_int_float_iff,
    fun f g h => Field.hashInput_eq_iff.mpr (.inl h), ?_⟩
  · have hsame : a.hashInput = b.hashInput :=
      (hrows a b).mpr ((equals_iff_forall₂.mp h).imp fun _ _ => .inl)
    exact ⟨hsame, HashItem.alike_of_eq hsame⟩
  · exact ⟨Field.hashInput_eq_iff_bits hf hg, Field.hashesLike_iff_bits hf hg⟩
  · -- The integer behind 2^53 lies halfway between two doubles, and rounds down.
    exact ⟨0x20000000000000, 0x20000000000001, by decide, by decide +kernel⟩

/-- The integer behind 2^53 equals a double, and the two zeros are fed apart. -/
theorem feeds_equal_rows_alike_rounded :
    let a : Row := [.int 0x20000000000001, .string "a", .null]
    let b : Row := [.float ⟨0x4340000000000000⟩, .string "a", .null]
    a.equals b = true ∧ a.hashInput = b.hashInput ∧
      ¬(Field.float ⟨0⟩).hashesLike (.float ⟨0x8000000000000000⟩) = true := by
  intro a b
  have hequals : a.equals b = true := by decide +kernel
  obtain ⟨hrows, -, hnumbers, -⟩ := feeds_equal_rows_alike
  refine ⟨hequals, (hrows a b hequals).1, ?_⟩
  rw [(hnumbers (.float ⟨0⟩) (.float ⟨0x8000000000000000⟩) _ _ rfl rfl).2]
  decide

end Row
end PagedQuery
