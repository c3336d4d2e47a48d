import PagedQuery.Proofs.IntegerDoubles

/-!
# Rounding keeps the order

Rounding a number of units never changes the order of two of them, also where a carry leads over
into the next power of two. So the place of an integer among the doubles grows with the integer. The
units of a finite double are exact: rounding gives back the bits they were read from.
-/

namespace PagedQuery

theorem div_le_divNearest (n d : Nat) : n / d ≤ divNearest n d := by
  unfold divNearest
  dsimp only
  split
  · exact Nat.le_refl _
  · split <;> omega

theorem divNearest_le (n d : Nat) : divNearest n d ≤ n / d + 1 := by
  unfold divNearest
  dsimp only
  split
  · omega
  · split <;> omega

theorem divNearest_mono {n m : Nat} (d : Nat) (h : n ≤ m) : divNearest n d ≤ divNearest m d := by
  rcases Nat.lt_or_eq_of_le (Nat.div_le_div_right (c := d) h) with hquotient | hquotient
  · calc divNearest n d ≤ n / d + 1 := divNearest_le n d
      _ ≤ m / d := hquotient
      _ ≤ divNearest m d := div_le_divNearest m d
  · have hremainder : n % d ≤ m % d := by
      have hn := Nat.div_add_mod n d
      have hm := Nat.div_add_mod m d
      rw [hquotient] at hn
      omega
    unfold divNearest
    dsimp only
    rw [hquotient]
    by_cases hhigh : d < 2 * (m % d)
    · rw [if_neg (by omega : ¬2 * (m % d) < d), if_pos hhigh, ← hquotient]
      exact divNearest_le n d
    · by_cases hlow : 2 * (n % d) < d
      · rw [if_pos hlow]
        exact div_le_divNearest m d
      · refine Nat.le_of_eq ?_
        rw [if_neg hlow, if_neg (by omega), if_neg (by omega), if_neg hhigh]

namespace Binary64

theorem roundUnits_mono {n m : Nat} (h : n ≤ m) : roundUnits n ≤ roundUnits m := by
  have hrounded : spareBits n * leadingBit + divNearest n (twoTo (spareBits n)) ≤
      spareBits m * leadingBit + divNearest m (twoTo (spareBits m)) := by
    rcases Nat.lt_or_eq_of_le (spareBits_mono h) with hspare | hspare
    · -- A carry makes a significand twice the leading bit, which is the least of the next binade.
      have hn := divNearest_le n (twoTo (spareBits n))
      have hnlt := div_twoTo_spareBits_lt n
      have hm := div_le_divNearest m (twoTo (spareBits m))
      have hmle := le_div_twoTo_spareBits (Nat.zero_lt_of_lt hspare)
      have hmul := Nat.mul_le_mul_right leadingBit hspare
      rw [Nat.succ_mul] at hmul
      omega
    · rw [hspare]
      exact Nat.add_le_add_left (divNearest_mono _ h) _
  exact Nat.le_min.mpr ⟨Nat.min_le_left _ _, Nat.le_trans (Nat.min_le_right _ _) hrounded⟩

/-- The place in the total order of the double nearest to a number of units, with its sign. -/
def unitsKey (z : Int) : Int :=
  if z < 0 then -(roundUnits z.natAbs : Int) - 1 else roundUnits z.natAbs

theorem unitsKey_mono {z w : Int} (h : z ≤ w) : unitsKey z ≤ unitsKey w := by
  unfold unitsKey
  split
  · split
    · have hrounded := roundUnits_mono (by omega : w.natAbs ≤ z.natAbs)
      omega
    · omega
  · rw [if_neg (by omega)]
    exact Int.ofNat_le.mpr (roundUnits_mono (by omega))

theorem orderKey_ofInt_eq (n : Int) : (ofInt n).orderKey = unitsKey (n * twoTo unitBits) := by
  have hpos : (0 : Int) < twoTo unitBits := Int.ofNat_lt.mpr (twoTo_pos _)
  have hneg : n * twoTo unitBits < 0 ↔ n < 0 :=
    ⟨fun h => Int.lt_of_mul_lt_mul_right (by rwa [Int.zero_mul]) (Int.le_of_lt hpos),
      fun h => Int.mul_neg_of_neg_of_pos h hpos⟩
  rw [orderKey_ofInt, unitsKey, Int.natAbs_mul, Int.natAbs_natCast]
  simp only [hneg]
  rfl

theorem orderKey_ofInt_mono {n m : Int} (h : n ≤ m) : (ofInt n).orderKey ≤ (ofInt m).orderKey := by
  rw [orderKey_ofInt_eq, orderKey_ofInt_eq]
  exact unitsKey_mono (Int.mul_le_mul_of_nonneg_right h (Int.natCast_nonneg _))

/-- Whether this is the number of units of a finite double. -/
def AreUnits (n : Nat) : Prop := IsExact n ∧ exactBits n < infinityWord

theorem AreUnits.roundUnits_eq {n : Nat} (h : AreUnits n) : roundUnits n = exactBits n := by
  rw [roundUnits_of_isExact h.1]
  exact Nat.min_eq_right (Nat.le_of_lt h.2)

theorem AreUnits.roundUnits_lt {n m : Nat} (hn : AreUnits n) (hm : AreUnits m) (h : n < m) :
    roundUnits n < roundUnits m := by
  rw [hn.roundUnits_eq, hm.roundUnits_eq]
  exact exactBits_lt hm.1 h

theorem unitsKey_lt {z w : Int} (hz : AreUnits z.natAbs) (hw : AreUnits w.natAbs) (h : z < w) :
    unitsKey z < unitsKey w := by
  unfold unitsKey
  split
  · split
    · have hrounded := hw.roundUnits_lt hz (by omega)
      omega
    · omega
  · rw [if_neg (by omega)]
    exact Int.ofNat_lt.mpr (hz.roundUnits_lt hw (by omega))

theorem areUnits_unitsOf {n : Nat} (h : n ≤ exactLimit) : AreUnits (unitsOf n) :=
  ⟨isExact_unitsOf h, exactBits_unitsOf_lt h⟩

theorem magnitude_eq (x : Binary64) :
    x.magnitude = x.exponentField * leadingBit + x.fraction := by
  rw [Nat.mul_comm]
  exact (Nat.div_add_mod x.magnitude leadingBit).symm

theorem fraction_lt (x : Binary64) : x.fraction < leadingBit := Nat.mod_lt _ (by decide)

theorem log2_leadingBit_add {fraction : Nat} (h : fraction < leadingBit) (e : Nat) :
    ((leadingBit + fraction) * twoTo e).log2 = 52 + e := by
  have hpos := twoTo_pos e
  rw [Nat.log2_eq_iff (Nat.mul_ne_zero (by unfold leadingBit; omega) (Nat.ne_of_gt hpos))]
  have hlow : 2 ^ (52 + e) = leadingBit * twoTo e := Nat.pow_add 2 52 e
  have hhigh : 2 ^ (52 + e + 1) = 2 * leadingBit * twoTo e := by
    rw [Nat.pow_succ, hlow, Nat.mul_comm, Nat.mul_assoc]
  rw [hlow, hhigh]
  exact ⟨Nat.mul_le_mul_right _ (by omega), Nat.mul_lt_mul_of_pos_right (by omega) hpos⟩

/-- The units of a double keep its bits: they are exact, and rounding gives the bits back. -/
theorem exactBits_units (x : Binary64) : IsExact x.units ∧ exactBits x.units = x.magnitude := by
  have hfraction := x.fraction_lt
  unfold IsExact exactBits
  by_cases hexponent : x.exponentField = 0
  · have hunits : x.units = x.fraction := by
      rw [units, if_pos hexponent, spacing, hexponent]
      exact Nat.mul_one _
    have hspare : spareBits x.fraction = 0 := by
      by_cases hzero : x.fraction = 0
      · rw [hzero]
        rfl
      · have hlog : x.fraction.log2 < 52 := (Nat.log2_lt hzero).mpr hfraction
        unfold spareBits
        omega
    rw [hunits, hspare, magnitude_eq, hexponent]
    exact ⟨Nat.one_dvd _, by rw [show twoTo 0 = 1 from rfl, Nat.div_one]⟩
  · have hunits : x.units = (leadingBit + x.fraction) * twoTo (x.exponentField - 1) := by
      rw [units, if_neg hexponent]
      rfl
    have hspare : spareBits x.units = x.exponentField - 1 := by
      rw [spareBits, hunits, log2_leadingBit_add hfraction]
      omega
    rw [hspare, hunits, Nat.mul_div_cancel _ (twoTo_pos _), magnitude_eq]
    refine ⟨Nat.dvd_mul_left _ _, ?_⟩
    have hone : x.exponentField * leadingBit = (x.exponentField - 1) * leadingBit + leadingBit := by
      rw [← Nat.succ_mul, Nat.succ_eq_add_one, Nat.sub_add_cancel (Nat.pos_of_ne_zero hexponent)]
    omega

theorem areUnits_units {x : Binary64} (h : x.isFinite = true) : AreUnits x.units := by
  obtain ⟨hexact, hbits⟩ := exactBits_units x
  refine ⟨hexact, ?_⟩
  have hfield : x.exponentField ≠ 2047 := by simpa [isFinite] using h
  have hmagnitude : x.magnitude < signBit := Nat.mod_lt _ (by decide)
  have hfraction := x.fraction_lt
  rw [magnitude_eq] at hmagnitude hbits
  rw [hbits]
  unfold infinityWord
  unfold signBit leadingBit at *
  omega

def negativeZero : Binary64 := ⟨0x8000000000000000⟩

theorem units_ne_zero_of_isNegative {x : Binary64} (hx : x ≠ negativeZero)
    (hneg : x.isNegative = true) : x.units ≠ 0 := by
  intro hzero
  obtain ⟨-, hbits⟩ := exactBits_units x
  rw [hzero] at hbits
  have hmagnitude : x.word % signBit = 0 := hbits.symm.trans (by decide)
  have hword : signBit ≤ x.word := of_decide_eq_true hneg
  have hlt : x.word < 2 ^ 64 := x.bits.toNat_lt
  refine hx (congrArg Binary64.mk (UInt64.toNat_inj.mp ?_))
  change x.word = signBit
  unfold signBit at *
  omega

/-- A finite double stands at the place of its units, but for negative zero. -/
theorem orderKey_eq_unitsKey {x : Binary64} (hfinite : x.isFinite = true) (hx : x ≠ negativeZero) :
    x.orderKey = unitsKey x.signedUnits := by
  have hround : roundUnits x.units = x.magnitude :=
    (areUnits_units hfinite).roundUnits_eq.trans (exactBits_units x).2
  unfold orderKey signedUnits unitsKey
  cases hneg : x.isNegative with
  | true =>
    have hpos := units_ne_zero_of_isNegative hx hneg
    simp only [if_true]
    rw [if_pos (by omega), Int.natAbs_neg, Int.natAbs_natCast, hround]
  | false =>
    simp only [Bool.false_eq_true, if_false]
    rw [if_neg (by omega), Int.natAbs_natCast, hround]

end Binary64

end PagedQuery
