import Mathlib.Algebra.Order.Field.Rat
import Mathlib.Order.Compare
import Mathlib.Tactic.NormNum
import PagedQuery.Proofs.FieldOrderLaws

/-!
# Integers and doubles in the order of numbers

A finite double denotes a rational number. Comparing an integer with it agrees with the order of
these numbers, unless the integer has more than 53 bits: then the two can compare as equal though
they are not, but never the wrong way round. Negative zero is left out, since it stands before zero.
-/

namespace PagedQuery
namespace Binary64

/-- The significand of a finite double, as a whole number. -/
def significand (x : Binary64) : Nat :=
  if x.exponentField = 0 then x.fraction else leadingBit + x.fraction

/-- The rational number that the bits of a finite double denote. The exponent field is biased by 1023
and the significand has 52 bits behind its point; a field of zero has the exponent of a field of one. -/
def toRat (x : Binary64) : ℚ :=
  (if x.isNegative then -1 else 1) * x.significand * 2 ^ (max (x.exponentField : ℤ) 1 - 1023 - 52)

theorem units_eq (x : Binary64) : x.units = x.significand * twoTo (x.exponentField - 1) := rfl

/-- A finite double is its number of units times the smallest of them. -/
theorem toRat_eq (x : Binary64) : x.toRat = x.signedUnits / twoTo unitBits := by
  have hexponent : max (x.exponentField : ℤ) 1 - 1023 - 52 =
      ((x.exponentField - 1 : ℕ) : ℤ) - (unitBits : ℕ) := by
    unfold unitBits
    omega
  have hpow (k : ℕ) : ((twoTo k : ℕ) : ℚ) = 2 ^ k := Nat.cast_pow 2 k
  have hunits : (x.units : ℚ) = x.significand * 2 ^ (x.exponentField - 1) := by
    rw [units_eq, Nat.cast_mul, hpow]
  have hsigned : (x.signedUnits : ℚ) = (if x.isNegative then -1 else 1) * x.units := by
    unfold signedUnits
    split
    · rw [Int.cast_neg, Int.cast_natCast, neg_one_mul]
    · rw [Int.cast_natCast, one_mul]
  rw [toRat, hexponent, zpow_sub₀ two_ne_zero, zpow_natCast, zpow_natCast, hsigned, hunits, hpow,
    mul_div_assoc, mul_div_assoc, mul_assoc]

theorem cmp_toRat (n : ℤ) (x : Binary64) :
    cmp (n : ℚ) x.toRat = cmp (n * twoTo unitBits) x.signedUnits := by
  have hpos : (0 : ℚ) < (twoTo unitBits : ℕ) := Nat.cast_pos.mpr (twoTo_pos _)
  have hcast : ((n * twoTo unitBits : ℤ) : ℚ) = n * (twoTo unitBits : ℕ) := by
    rw [Int.cast_mul, Int.cast_natCast]
  rcases lt_trichotomy (n * twoTo unitBits : ℤ) x.signedUnits with h | h | h
  · rw [(cmp_eq_lt_iff _ _).mpr h, cmp_eq_lt_iff, toRat_eq, lt_div_iff₀ hpos, ← hcast]
    exact Int.cast_lt.mpr h
  · rw [(cmp_eq_eq_iff _ _).mpr h, cmp_eq_eq_iff, toRat_eq, eq_div_iff hpos.ne', ← hcast, h]
  · rw [(cmp_eq_gt_iff _ _).mpr h, cmp_eq_gt_iff, toRat_eq, div_lt_iff₀ hpos, ← hcast]
    exact Int.cast_lt.mpr h

end Binary64

namespace Field

variable {n : Int64} {x : Binary64}

theorem compare_int_float (hfinite : x.isFinite = true) (hzero : x ≠ Binary64.negativeZero) :
    (Field.int n).compare (.float x) =
      Ord.compare (Binary64.unitsKey (n.toInt * twoTo Binary64.unitBits))
        (Binary64.unitsKey x.signedUnits) := by
  change Ord.compare (Binary64.ofInt n.toInt).orderKey x.orderKey = _
  rw [Binary64.orderKey_ofInt_eq, Binary64.orderKey_eq_unitsKey hfinite hzero]

/-- Comparing an integer with a double agrees with the numbers they are, or calls them equal though
the integer is not exact as a double. -/
theorem compare_int_float_cases (hfinite : x.isFinite = true) (hzero : x ≠ Binary64.negativeZero) :
    (Field.int n).compare (.float x) = cmp (n.toInt : ℚ) x.toRat ∨
      (Field.int n).compare (.float x) = .eq ∧ 2 ^ 53 < |n.toInt| := by
  rw [compare_int_float hfinite hzero, Binary64.cmp_toRat]
  have hx : Binary64.AreUnits x.signedUnits.natAbs := by
    have hunits : x.signedUnits.natAbs = x.units := by
      unfold Binary64.signedUnits
      split <;> omega
    exact hunits ▸ Binary64.areUnits_units hfinite
  have hn (h : ¬2 ^ 53 < |n.toInt|) :
      Binary64.AreUnits (n.toInt * twoTo Binary64.unitBits).natAbs := by
    have hsmall : (n.toInt.natAbs : ℤ) ≤ 2 ^ 53 := Int.natCast_natAbs n.toInt ▸ not_lt.mp h
    rw [Int.natAbs_mul, Int.natAbs_natCast]
    exact Binary64.areUnits_unitsOf (Int.ofNat_le.mp hsmall)
  rcases lt_trichotomy (n.toInt * twoTo Binary64.unitBits : ℤ) x.signedUnits with h | h | h
  · rw [(cmp_eq_lt_iff _ _).mpr h]
    rcases Int.lt_or_eq_of_le (Binary64.unitsKey_mono (Int.le_of_lt h)) with hkey | hkey
    · exact .inl (Std.compare_eq_lt.mpr hkey)
    · refine .inr ⟨Std.compare_eq_iff_eq.mpr hkey, ?_⟩
      by_contra hsmall
      exact absurd hkey (Int.ne_of_lt (Binary64.unitsKey_lt (hn hsmall) hx h))
  · rw [h, Std.compare_self, cmp_self_eq_eq]
    exact .inl rfl
  · rw [(cmp_eq_gt_iff _ _).mpr h]
    rcases Int.lt_or_eq_of_le (Binary64.unitsKey_mono (Int.le_of_lt h)) with hkey | hkey
    · exact .inl (Std.compare_eq_gt.mpr hkey)
    · refine .inr ⟨Std.compare_eq_iff_eq.mpr hkey.symm, ?_⟩
      by_contra hsmall
      exact absurd hkey (Int.ne_of_lt (Binary64.unitsKey_lt hx (hn hsmall) h))

/-- Comparing an integer with a finite double never contradicts the numbers they are, and if the
integer has at most 53 bits it calls them equal exactly if they are. -/
theorem compares_numerically (n : Int64) (x : Binary64) (hfinite : x.isFinite = true)
    (hzero : x ≠ Binary64.negativeZero) :
    ((Field.int n).compare (.float x) = .lt → (n.toInt : ℚ) < x.toRat) ∧
    ((Field.int n).compare (.float x) = .gt → (n.toInt : ℚ) > x.toRat) ∧
    (|n.toInt| ≤ 2 ^ 53 → ((Field.int n).compare (.float x) = .eq ↔ (n.toInt : ℚ) = x.toRat)) ∧
    ((Field.float x).compare (.int n) = .lt → x.toRat < n.toInt) ∧
    ((Field.float x).compare (.int n) = .gt → x.toRat > n.toInt) ∧
    (|n.toInt| ≤ 2 ^ 53 → ((Field.float x).compare (.int n) = .eq ↔ x.toRat = n.toInt)) ∧
    ((Field.int n).compare (.float x) ≠ cmp (n.toInt : ℚ) x.toRat →
      (Field.int n).compare (.float x) = .eq ∧ 2 ^ 53 < |n.toInt|) := by
  have hswap := compare_swap (.int n) (.float x)
  rcases compare_int_float_cases (n := n) hfinite hzero with h | ⟨h, hlarge⟩
  · rw [hswap, h]
    rcases lt_trichotomy (n.toInt : ℚ) x.toRat with hlt | heq | hgt
    · rw [(cmp_eq_lt_iff _ _).mpr hlt]
      simp [hlt, hlt.ne, hlt.ne']
    · rw [(cmp_eq_eq_iff _ _).mpr heq]
      simp [heq]
    · rw [(cmp_eq_gt_iff _ _).mpr hgt]
      simp [hgt, hgt.ne, hgt.ne']
  · have hsmall : ¬|n.toInt| ≤ 2 ^ 53 := not_le.mpr hlarge
    rw [hswap, h]
    exact ⟨nofun, nofun, fun hle => absurd hle hsmall, nofun, nofun, fun hle => absurd hle hsmall,
      fun _ => ⟨rfl, hlarge⟩⟩

/-- One is more than the least positive double, and the largest integer below 2^63 that is a double is
less than 2^63. -/
theorem compares_numerically_extremes :
    let least : Binary64 := ⟨1⟩
    let bound : Binary64 := ⟨0x43e0000000000000⟩
    least.isFinite = true ∧ least ≠ Binary64.negativeZero ∧
      ((1 : Int64).toInt : ℚ) > least.toRat ∧
      bound.isFinite = true ∧ bound ≠ Binary64.negativeZero ∧
      ((0x7ffffffffffffc00 : Int64).toInt : ℚ) < bound.toRat := by
  intro least bound
  have hleast : least.isFinite = true := by decide
  have hbound : bound.isFinite = true := by decide
  exact ⟨hleast, by decide, (compares_numerically 1 least hleast (by decide)).2.1 (by decide +kernel),
    hbound, by decide,
    (compares_numerically 0x7ffffffffffffc00 bound hbound (by decide)).1 (by decide +kernel)⟩

end Field
end PagedQuery
